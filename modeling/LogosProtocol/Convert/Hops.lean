import LogosProtocol.Convert.TwoPaths
import LogosProtocol.Wire.CanonicalBase64
import LogosProtocol.Wire.RoundTrip
import Mathlib.Algebra.Order.BigOperators.Group.List

/-!
# A JSON value over every hop

A JSON value crosses to a `QVariant` and back in the same process, to a value of the wire and
back, and over both.  Numbers, bytes and containers survive all three at any depth.  A text
survives the hop without Qt always, and a hop through a `QString` exactly if it is UTF-8 that
does not start with a byte order mark; for a key this takes an argument about the whole
object, whose keys could trade places.

## Main definitions

* `Json.Sound` — what is assumed of a value.
* `Json.TextKept` — every text in a value survives a `QString`.

## Main results

* `hops_iff` — the laws of all hops hold of exactly these values.
-/

namespace LogosProtocol

open Fields (setAll)

/-- Finite numbers, no binary node, canonical bytes, and objects in key order. -/
inductive Json.Sound : Json → Prop
  | null : Sound .null
  | boolean (b : Bool) : Sound (.boolean b)
  | numberInteger (n : Int64) : Sound (.numberInteger n)
  | numberUnsigned (n : UInt64) : Sound (.numberUnsigned n)
  | numberFloat (d : Double) (h : d.IsFinite) : Sound (.numberFloat d)
  | string (s : Bytes) : Sound (.string s)
  | array (items : List Json) (h : ∀ j ∈ items, Sound j) : Sound (.array items)
  | object (fields : List (Bytes × Json)) (hordered : Fields.Ordered fields)
      (htagged : ∀ text, taggedText fields = some text → isCanonicalBase64 text = true)
      (h : ∀ e ∈ fields, Sound e.2) : Sound (.object fields)

/-- Every string and every key survives a `QString`. -/
inductive Json.TextKept : Json → Prop
  | null : TextKept .null
  | boolean (b : Bool) : TextKept (.boolean b)
  | numberInteger (n : Int64) : TextKept (.numberInteger n)
  | numberUnsigned (n : UInt64) : TextKept (.numberUnsigned n)
  | numberFloat (d : Double) : TextKept (.numberFloat d)
  | string (s : Bytes) (h : QString.KeepsText s) : TextKept (.string s)
  | array (items : List Json) (h : ∀ j ∈ items, TextKept j) : TextKept (.array items)
  | object (fields : List (Bytes × Json)) (hkeys : ∀ e ∈ fields, QString.KeepsText e.1)
      (h : ∀ e ∈ fields, TextKept e.2) : TextKept (.object fields)

namespace Convert

/-! ## A text that is moved -/

/-- Where a finite set is mapped onto itself and what moves gets smaller, nothing moves. -/
theorem fixed_of_surjective {α : Type} {keys : List α} (size : α → ℕ) {g : α → α}
    (hsurj : ∀ k ∈ keys, ∃ k' ∈ keys, g k' = k)
    (hlt : ∀ k ∈ keys, g k ≠ k → size (g k) < size k) : ∀ k ∈ keys, g k = k := by
  have htop : ∀ k ∈ keys, size k ≤ (keys.map size).sum := fun k hk =>
    List.single_le_sum (fun _ _ => Nat.zero_le _) _ (List.mem_map_of_mem hk)
  -- By induction on how far a key is from the top: what moves to it is larger.
  have hall : ∀ n, ∀ k ∈ keys, (keys.map size).sum ≤ size k + n → g k = k := by
    intro n
    induction n with
    | zero =>
      intro k hk hn
      obtain ⟨k', hk', rfl⟩ := hsurj k hk
      by_cases hfix : g k' = k'
      · rw [hfix, hfix]
      · have hmoved := hlt k' hk' hfix
        have hle := htop k' hk'
        omega
    | succ n ih =>
      intro k hk hn
      obtain ⟨k', hk', rfl⟩ := hsurj k hk
      by_cases hfix : g k' = k'
      · rw [hfix, hfix]
      · have hmoved := hlt k' hk' hfix
        exact absurd (ih k' hk' (by omega)) hfix
  intro k hk
  exact hall (keys.map size).sum k hk (by omega)

/-! ## Through a `QString` -/

/-- A text after a hop through a `QString`. -/
def hopText (s : Bytes) : Bytes := (QString.fromStdString s).toUtf8

theorem hopText_eq_iff (s : Bytes) : hopText s = s ↔ QString.KeepsText s :=
  QString.toUtf8_fromStdString_eq_iff s

/-- A way from a `QVariant` back to JSON that keeps what `nlohmannToQVariant` makes. -/
structure WritesBack (back : QVariant → Json) : Prop where
  invalid : back .invalid = .null
  bool : ∀ b, back (.bool b) = .boolean b
  longLong : ∀ n, back (.longLong n) = .numberInteger n
  ulongLong : ∀ n, (back (.ulongLong n)).byValue = (Json.numberUnsigned n).byValue
  double : ∀ d : Double, d.IsFinite → (back (.double d)).byValue = (Json.numberFloat d).byValue
  string : ∀ s, back (.string s) = .string s.toUtf8
  byteArray : ∀ b, back (.byteArray b) = bytesToJson b
  list : ∀ items, back (.list items) = .array (items.map back)
  map : ∀ entries, back (.map entries) =
    .object (setAll [] (entries.map fun e => (e.1.toUtf8, back e.2)))

/-- In the same process. -/
theorem writesBack_local : WritesBack qvariantToNlohmann where
  invalid := rfl
  bool _ := rfl
  longLong _ := rfl
  ulongLong _ := rfl
  double _ h := byValue_jsonDouble h
  string _ := rfl
  byteArray _ := rfl
  list items := qvariantToNlohmann_list items
  map entries := qvariantToNlohmann_map entries

/-- Over the wire. -/
theorem writesBack_wire : WritesBack wireJson where
  invalid := rfl
  bool _ := rfl
  longLong _ := rfl
  ulongLong n := byValue_makeInteger n
  double _ _ := rfl
  string _ := rfl
  byteArray _ := rfl
  list items := by
    rw [wireJson, qvariantToRpcValue_list, valueToJson_list, List.map_map]
    rfl
  map entries := by
    rw [wireJson, qvariantToRpcValue_map, valueToJson_map, List.map_map]
    rfl

section
variable {back : QVariant → Json} {fields : List (Bytes × Json)}

/-- The entries of the map an object becomes. -/
def variantEntries (fields : List (Bytes × Json)) : List (QString × QVariant) :=
  setAll [] (fields.map fun e => (QString.fromStdString e.1, nlohmannToQVariant e.2))

/-- The fields of an object after the hop. -/
def hopFields (back : QVariant → Json) (fields : List (Bytes × Json)) : List (Bytes × Json) :=
  setAll [] ((variantEntries fields).map fun e => (e.1.toUtf8, back e.2))

theorem ordered_hopFields : Fields.Ordered (hopFields back fields) :=
  Fields.Ordered.setAll .nil _

/-- Each key after the hop is a key of the object, moved. -/
theorem exists_key_of_mem_hopFields {e : Bytes × Json} (he : e ∈ hopFields back fields) :
    ∃ e' ∈ fields, hopText e'.1 = e.1 := by
  obtain ⟨entry, hentry, rfl⟩ := List.mem_map.mp (Fields.mem_of_mem_setAll_nil he)
  obtain ⟨e', he', rfl⟩ := List.mem_map.mp (Fields.mem_of_mem_setAll_nil hentry)
  exact ⟨e', he', rfl⟩

/-- Where no key is moved, the hop is made value by value. -/
theorem hopFields_eq (hordered : Fields.Ordered fields)
    (hkeys : ∀ e ∈ fields, hopText e.1 = e.1) :
    hopFields back fields = fields.map fun e => (e.1, back (nlohmannToQVariant e.2)) := by
  have hfixed : (fields.map fun e => (QString.fromStdString e.1, nlohmannToQVariant e.2)).map
      (fun e => (e.1.toUtf8, back e.2)) =
        fields.map fun e => (e.1, back (nlohmannToQVariant e.2)) := by
    rw [List.map_map]
    apply List.map_congr_left
    intro e he
    exact Prod.ext (hkeys e he) rfl
  have htarget : Fields.Ordered (fields.map fun e => (e.1, back (nlohmannToQVariant e.2))) :=
    List.pairwise_map.mpr hordered
  have hnodup : ((fields.map fun e =>
      (QString.fromStdString e.1, nlohmannToQVariant e.2)).map Prod.fst).Nodup := by
    have hback := htarget.nodup_keys
    rw [← hfixed, List.map_map] at hback
    rw [List.map_map]
    exact List.Nodup.of_map QString.toUtf8 (by simpa [List.map_map, Function.comp_def] using hback)
  have hmap := (Fields.perm_setAll [] hnodup).map fun e => (e.1.toUtf8, back e.2)
  rw [List.nil_append, hfixed] at hmap
  have hset : (hopFields back fields).Perm
      ((variantEntries fields).map fun e => (e.1.toUtf8, back e.2)) :=
    Fields.perm_setAll [] ((hmap.map Prod.fst).nodup_iff.mpr htarget.nodup_keys)
  exact ordered_hopFields.eq_of_perm htarget (hset.trans hmap)

/-- If the hop gives back the keys of an object, then none has moved: a key is in the image of
`toUtf8`, so it is UTF-8, and what moves gets shorter. -/
theorem keys_fixed (back : QVariant → Json)
    (h : (hopFields back fields).map Prod.fst = fields.map Prod.fst) :
    ∀ e ∈ fields, hopText e.1 = e.1 := by
  have hsurj : ∀ k ∈ fields.map Prod.fst, ∃ k' ∈ fields.map Prod.fst, hopText k' = k := by
    intro k hk
    rw [← h] at hk
    obtain ⟨e, he, rfl⟩ := List.mem_map.mp hk
    obtain ⟨e', he', heq⟩ := exists_key_of_mem_hopFields he
    exact ⟨e'.1, List.mem_map_of_mem he', heq⟩
  have hlt : ∀ k ∈ fields.map Prod.fst, hopText k ≠ k → (hopText k).length < k.length := by
    intro k hk hne
    obtain ⟨k', -, rfl⟩ := hsurj k hk
    exact QString.length_toUtf8_fromStdString_lt (QString.isUtf8_toUtf8 _) hne
  intro e he
  exact fixed_of_surjective List.length hsurj hlt e.1 (List.mem_map_of_mem he)

/-! ## Every value, over one hop -/

/-- Bytes survive, and so does their escape. -/
theorem back_tagged (hback : WritesBack back) {text : Bytes}
    (htext : isCanonicalBase64 text = true) :
    back (.byteArray (b64UrlDecode text)) = .object [(bytesKey, .string text)] := by
  obtain ⟨bytes, rfl⟩ := exists_encode_of_isCanonicalBase64 htext
  rw [hback.byteArray, b64UrlDecode_encode, bytesToJson]

theorem textKept_tagged {text : Bytes} (htext : isCanonicalBase64 text = true) :
    Json.TextKept (.object [(bytesKey, .string text)]) := by
  have hkey : QString.KeepsText bytesKey := by decide
  have hstring : QString.KeepsText text :=
    QString.keepsText_of_forall_lt (toNat_lt_of_isCanonicalBase64 htext)
  refine .object _ ?_ ?_
  · intro e he
    rw [List.mem_singleton.mp he]
    exact hkey
  · intro e he
    rw [List.mem_singleton.mp he]
    exact .string text hstring

/-- An object that is not tagged bytes survives where each key and each value does. -/
theorem back_object_iff (hback : WritesBack back) (hordered : Fields.Ordered fields)
    (huntagged : taggedText fields = none) :
    (back (nlohmannToQVariant (.object fields))).byValue = (Json.object fields).byValue ↔
      ∀ e ∈ fields, QString.KeepsText e.1 ∧
        (back (nlohmannToQVariant e.2)).byValue = e.2.byValue := by
  have hwritten : back (nlohmannToQVariant (.object fields)) = .object (hopFields back fields) := by
    rw [nlohmannToQVariant_object huntagged, hback.map]
    rfl
  rw [hwritten, Json.byValue_object, Json.byValue_object, Json.object.injEq]
  constructor
  · intro h
    have hnames := congrArg (List.map Prod.fst) h
    simp only [List.map_map] at hnames
    have hkeys := keys_fixed back hnames
    rw [hopFields_eq hordered hkeys, List.map_map] at h
    intro e he
    have hvalue := List.map_inj_left.mp h e he
    exact ⟨(hopText_eq_iff e.1).mp (hkeys e he), congrArg Prod.snd hvalue⟩
  · intro h
    rw [hopFields_eq hordered fun e he => (hopText_eq_iff e.1).mpr (h e he).1, List.map_map]
    apply List.map_congr_left
    intro e he
    exact Prod.ext rfl (h e he).2

/-- **A sound value survives a hop through a `QVariant` exactly if its texts do.** -/
theorem back_eq_iff (hback : WritesBack back) {j : Json} (hj : j.Sound) :
    (back (nlohmannToQVariant j)).byValue = j.byValue ↔ j.TextKept := by
  induction hj with
  | null => exact iff_of_true (congrArg _ hback.invalid) .null
  | boolean b => exact iff_of_true (congrArg _ (hback.bool b)) (.boolean b)
  | numberInteger n => exact iff_of_true (congrArg _ (hback.longLong n)) (.numberInteger n)
  | numberUnsigned n => exact iff_of_true (hback.ulongLong n) (.numberUnsigned n)
  | numberFloat d hd => exact iff_of_true (hback.double d hd) (.numberFloat d)
  | string s =>
    rw [nlohmannToQVariant, hback.string, Json.byValue, Json.byValue, Json.string.injEq]
    refine (hopText_eq_iff s).trans ⟨.string s, ?_⟩
    intro h
    cases h with
    | string _ h => exact h
  | array items _ ih =>
    have hitems : (back (nlohmannToQVariant (.array items))).byValue = (Json.array items).byValue ↔
        ∀ j ∈ items, (back (nlohmannToQVariant j)).byValue = j.byValue := by
      rw [nlohmannToQVariant_array, hback.list, Json.byValue_array, Json.byValue_array,
        Json.array.injEq, List.map_map, List.map_map]
      exact List.map_inj_left
    rw [hitems]
    constructor
    · intro h
      exact .array items fun j hj => (ih j hj).mp (h j hj)
    · intro h j hj
      cases h with
      | array _ h => exact (ih j hj).mpr (h j hj)
  | object fields hordered htagged _ ih =>
    cases htext : taggedText fields with
    | some text =>
      have hcanonical := htagged text htext
      obtain rfl := (taggedText_eq_some_iff fields text).mp htext
      refine iff_of_true ?_ (textKept_tagged hcanonical)
      rw [nlohmannToQVariant, htext]
      exact congrArg _ (back_tagged hback hcanonical)
    | none =>
      rw [back_object_iff hback hordered htext]
      constructor
      · intro h
        exact .object fields (fun e he => (h e he).1) fun e he => (ih e he).mp (h e he).2
      · intro h e he
        cases h with
        | object _ hkeys h => exact ⟨hkeys e he, (ih e he).mpr (h e he)⟩

end

/-! ## The hop without Qt -/

/-- Members that survive make a list that does. -/
theorem exists_jsonToValues {items : List Json}
    (h : ∀ j ∈ items, ∃ v, jsonToValue j = .ok v ∧ (valueToJson v).byValue = j.byValue) :
    ∃ vs, jsonToValues items = .ok vs ∧
      (vs.map valueToJson).map Json.byValue = items.map Json.byValue := by
  induction items with
  | nil => exact ⟨[], rfl, rfl⟩
  | cons j items ih =>
    obtain ⟨v, hv, hsame⟩ := h j (List.mem_cons_self ..)
    obtain ⟨vs, hvs, hrest⟩ := ih fun j' hj' => h j' (List.mem_cons_of_mem j hj')
    refine ⟨v :: vs, ?_, ?_⟩
    · rw [jsonToValues, hv, hvs]
      rfl
    · rw [List.map_cons, List.map_cons, List.map_cons, hsame, hrest]

/-- Values that survive make fields that do, under the same keys. -/
theorem exists_jsonToEntries {fields : List (Bytes × Json)}
    (h : ∀ e ∈ fields, ∃ v, jsonToValue e.2 = .ok v ∧ (valueToJson v).byValue = e.2.byValue) :
    ∃ entries, jsonToEntries fields = .ok entries ∧
      (entries.map fun e => (e.1, valueToJson e.2)).map (fun e => (e.1, e.2.byValue)) =
        fields.map fun e => (e.1, e.2.byValue) := by
  induction fields with
  | nil => exact ⟨[], rfl, rfl⟩
  | cons e fields ih =>
    obtain ⟨v, hv, hsame⟩ := h e (List.mem_cons_self ..)
    obtain ⟨entries, hentries, hrest⟩ := ih fun e' he' => h e' (List.mem_cons_of_mem e he')
    refine ⟨(e.1, v) :: entries, ?_, ?_⟩
    · rw [jsonToEntries, hv, hentries]
      rfl
    · rw [List.map_cons, List.map_cons, List.map_cons, hsame, hrest]

/-- **A sound value survives the wire without Qt**, whatever its texts. -/
theorem exists_jsonToValue {j : Json} (hj : j.Sound) :
    ∃ v, jsonToValue j = .ok v ∧ (valueToJson v).byValue = j.byValue := by
  induction hj with
  | null => exact ⟨.null, rfl, rfl⟩
  | boolean b => exact ⟨.bool b, rfl, rfl⟩
  | numberInteger n => exact ⟨.int n, rfl, rfl⟩
  | numberUnsigned n => exact ⟨.makeInteger n, rfl, byValue_makeInteger n⟩
  | numberFloat d _ => exact ⟨.double d, rfl, rfl⟩
  | string s => exact ⟨.string s, rfl, rfl⟩
  | array items _ ih =>
    obtain ⟨vs, hvs, hsame⟩ := exists_jsonToValues ih
    refine ⟨.list vs, ?_, ?_⟩
    · rw [jsonToValue, hvs]
      rfl
    · rw [valueToJson_list, Json.byValue_array, Json.byValue_array, hsame]
  | object fields hordered htagged _ ih =>
    cases htext : taggedText fields with
    | some text =>
      obtain ⟨bytes, rfl⟩ := exists_encode_of_isCanonicalBase64 (htagged text htext)
      obtain rfl := (taggedText_eq_some_iff fields _).mp htext
      exact ⟨.bytes bytes, jsonToValue_bytesToJson bytes, rfl⟩
    | none =>
      obtain ⟨entries, hentries, hsame⟩ := exists_jsonToEntries ih
      have hwritten : Fields.Ordered (entries.map fun e => (e.1, valueToJson e.2)) := by
        have hkeys := congrArg (List.map Prod.fst) hsame
        simp only [List.map_map, Function.comp_def] at hkeys
        have hnames : (fields.map Prod.fst).Pairwise (· < ·) := List.pairwise_map.mpr hordered
        rw [← hkeys] at hnames
        exact List.pairwise_map.mpr (List.pairwise_map.mp hnames)
      refine ⟨.map entries, ?_, ?_⟩
      · rw [jsonToValue, htext, hentries]
        rfl
      · rw [valueToJson_map, Fields.setAll_of_ordered (by simpa using hwritten), List.nil_append,
          Json.byValue_object, Json.byValue_object, hsame]

/-! ## All hops -/

/-- A value comes back the same from each hop. -/
structure SurvivesHops (j : Json) : Prop where
  inProcess : (qvariantToNlohmann (nlohmannToQVariant j)).byValue = j.byValue
  direct : ∃ v, jsonToValue j = .ok v ∧ (valueToJson v).byValue = j.byValue
  overWire : (valueToJson (qvariantToRpcValue (nlohmannToQVariant j))).byValue = j.byValue

/-- **The laws of the hops** hold of a sound value exactly if its texts survive a `QString`;
the arguments of a call are converted like any other values. -/
theorem hops_iff {j : Json} (hj : j.Sound) :
    (SurvivesHops j ∧
        ∀ args, nlohmannArgsToQVariantList (.array args) = args.map nlohmannToQVariant) ↔
      j.TextKept := by
  constructor
  · intro ⟨h, _⟩
    exact (back_eq_iff writesBack_local hj).mp h.inProcess
  · intro h
    refine ⟨⟨(back_eq_iff writesBack_local hj).mpr h, exists_jsonToValue hj,
      (back_eq_iff writesBack_wire hj).mpr h⟩, ?_⟩
    intro args
    exact List.map_congr_left fun j _ => nlohmannArgToQVariant_eq j

/-- The largest integers and bytes, in a list. -/
def boundaryValues : Json :=
  .array [.numberUnsigned 18446744073709551615, .numberInteger Int64.minValue, .string (bstr "text"),
    .object [(bytesKey, .string (bstr "_-8"))]]

theorem hops_iff_boundaryValues :
    SurvivesHops boundaryValues ∧
      ∀ args, nlohmannArgsToQVariantList (.array args) = args.map nlohmannToQVariant := by
  have hbytes : isCanonicalBase64 (bstr "_-8") = true := by decide
  have htext : QString.KeepsText (bstr "text") := by decide
  have htagged : (Json.object [(bytesKey, .string (bstr "_-8"))]).Sound := by
    refine .object _ (List.pairwise_singleton ..) ?_ ?_
    · intro text h
      have hfields := (taggedText_eq_some_iff _ text).mp h
      simp only [List.cons.injEq, Prod.mk.injEq, Json.string.injEq, and_true, true_and] at hfields
      exact hfields ▸ hbytes
    · intro e he
      rw [List.mem_singleton.mp he]
      exact .string _
  have hsound : boundaryValues.Sound := by
    refine .array _ ?_
    intro j hj
    simp only [List.mem_cons, List.not_mem_nil, or_false] at hj
    rcases hj with rfl | rfl | rfl | rfl
    · exact .numberUnsigned _
    · exact .numberInteger _
    · exact .string _
    · exact htagged
  refine (hops_iff hsound).mpr (.array _ ?_)
  intro j hj
  simp only [List.mem_cons, List.not_mem_nil, or_false] at hj
  rcases hj with rfl | rfl | rfl | rfl
  · exact .numberUnsigned _
  · exact .numberInteger _
  · exact .string _ htext
  · exact textKept_tagged hbytes

/-- The mark at the start of a string is gone after the hop. -/
theorem hop_drops_mark :
    (Json.string (QString.byteOrderMark ++ bstr "hi")).Sound ∧
      ¬ SurvivesHops (.string (QString.byteOrderMark ++ bstr "hi")) := by
  refine ⟨.string _, ?_⟩
  intro h
  have hlost : (QString.fromStdString (QString.byteOrderMark ++ bstr "hi")).toUtf8 ≠
      QString.byteOrderMark ++ bstr "hi" := by
    decide
  exact hlost (Json.string.inj h.inProcess)

end Convert

end LogosProtocol
