import LogosProtocol.Convert.QVariant

/-!
# One value, two transports

A caller in the same process sees a value as `qvariantToNlohmann` writes it, a peer on the
wire as `qvariantToRpcValue` and then `valueToJson` do.  They see the same JSON exactly where
no string list, no infinity or NaN and no result with another error than a string or none is
met: the wire path has no case for a string list and stringifies it, writes a double as it is,
and recurses into an error that the other path only reads as a string.

A map entry that a later key with the same UTF-8 text hides is met by neither.

## Main results

* `twoPaths_agree_iff` — the values both paths show alike.
* `stringList_differs` — a string list of two.
-/

namespace LogosProtocol.Convert

open Fields (lastValue setAll)

/-- The values of a map that its UTF-8 keys end on. -/
def QVariant.visible (entries : List (QString × QVariant)) (key : Bytes) : Option QVariant :=
  lastValue key (entries.map fun e => (e.1.toUtf8, e.2))

/-- Built from the types that both converters handle alike. -/
inductive QVariant.Portable : QVariant → Prop
  | invalid : Portable .invalid
  | bool (b : Bool) : Portable (.bool b)
  | int (n : Int32) : Portable (.int n)
  | uint (n : UInt32) : Portable (.uint n)
  | longLong (n : Int64) : Portable (.longLong n)
  | ulongLong (n : UInt64) : Portable (.ulongLong n)
  | double (d : Double) (h : d.IsFinite) : Portable (.double d)
  | string (s : QString) : Portable (.string s)
  | byteArray (b : Bytes) : Portable (.byteArray b)
  | list (items : List QVariant) (h : ∀ v ∈ items, Portable v) : Portable (.list items)
  | map (entries : List (QString × QVariant))
      (h : ∀ key v, QVariant.visible entries key = some v → Portable v) : Portable (.map entries)
  | logosResult (success : Bool) (value error : QVariant) (h : Portable value)
      (herror : error = .invalid ∨ ∃ s, error = .string s) :
      Portable (.logosResult success value error)

/-- The JSON a peer on the wire sees. -/
def wireJson (v : QVariant) : Json := valueToJson (qvariantToRpcValue v)

/-! ## Numbers -/

/-- An integer of the wire is the unsigned number it was made from. -/
theorem byValue_makeInteger (n : UInt64) :
    (valueToJson (.makeInteger n)).byValue = (Json.numberUnsigned n).byValue := by
  simp only [RpcValue.makeInteger, Json.byValue, Json.ofUInt64]
  split_ifs with h
  · rfl
  · simp only [valueToJson, Json.byValue, Json.ofUInt64, if_neg h]

theorem ofDouble_negZero : Json.ofDouble ⟨0x8000000000000000⟩ = Json.ofDouble ⟨0⟩ := by
  rw [Json.ofDouble_of_zero (by decide) (by decide), Json.ofDouble_of_zero (by decide) (by decide)]

/-- A `QJsonValue` changes no finite double. -/
theorem byValue_jsonDouble {d : Double} (h : d.IsFinite) :
    (jsonDouble d).byValue = (Json.numberFloat d).byValue := by
  obtain ⟨bits⟩ := d
  simp only [jsonDouble, if_pos h, Json.byValue]
  split_ifs with hzero
  · rw [show bits = 0x8000000000000000 from hzero, ofDouble_negZero]
  · rfl

theorem byValue_jsonDouble_eq_iff (d : Double) :
    (jsonDouble d).byValue = (Json.numberFloat d).byValue ↔ d.IsFinite := by
  constructor
  · intro heq
    by_contra h
    simp only [jsonDouble, if_neg h, Json.byValue] at heq
    exact (Json.ofDouble_ne d).1 heq.symm
  · exact byValue_jsonDouble

/-! ## Containers -/

/-- Two ways to write the members of a list agree where they agree on each. -/
theorem array_agree_iff {f g : QVariant → Json} (items : List QVariant) :
    (Json.array (items.map f)).byValue = (Json.array (items.map g)).byValue ↔
      ∀ v ∈ items, (f v).byValue = (g v).byValue := by
  simp only [Json.byValue_array, Json.array.injEq, List.map_map]
  exact List.map_inj_left

/-- Two ways to write the entries of a map agree where they agree on those that stay. -/
theorem object_agree_iff {f g : QVariant → Json} (entries : List (Bytes × QVariant)) :
    (Json.object (setAll [] (entries.map fun e => (e.1, f e.2)))).byValue =
        (Json.object (setAll [] (entries.map fun e => (e.1, g e.2)))).byValue ↔
      ∀ key v, lastValue key entries = some v → (f v).byValue = (g v).byValue := by
  have hwrite : ∀ h : QVariant → Json,
      (setAll [] (entries.map fun e => (e.1, h e.2))).map (fun e => (e.1, e.2.byValue)) =
        setAll [] (entries.map fun e => (e.1, (h e.2).byValue)) := by
    intro h
    rw [Fields.map_setAll, List.map_map]
    rfl
  simp only [Json.byValue_object, Json.object.injEq, hwrite, Fields.setAll_nil_eq_iff]
  apply forall_congr'
  intro key
  rw [Fields.lastValue_map (fun v => (f v).byValue), Fields.lastValue_map (fun v => (g v).byValue)]
  cases lastValue key entries with
  | none => simp
  | some v => simp

/-! ## Results -/

/-- The JSON of the error of a result, which is only ever a string. -/
def errorJson (error : QVariant) : Json :=
  match jsonText error with
  | some text => .string text.toUtf8
  | none => .null

/-- The error is the same on both paths only if it is a string or there is none. -/
theorem error_agree_iff (error : QVariant) :
    (errorJson error).byValue = (wireJson error).byValue ↔
      error = .invalid ∨ ∃ s, error = .string s := by
  cases error with
  | invalid => simp [errorJson, jsonText, wireJson, qvariantToRpcValue, valueToJson]
  | string s => simp [errorJson, jsonText, wireJson, qvariantToRpcValue, valueToJson]
  | bool b =>
    simp [errorJson, jsonText, wireJson, qvariantToRpcValue, valueToJson, Json.byValue]
  | int n =>
    simp [errorJson, jsonText, wireJson, qvariantToRpcValue, valueToJson, Json.byValue]
  | longLong n =>
    simp [errorJson, jsonText, wireJson, qvariantToRpcValue, valueToJson, Json.byValue]
  | uint n =>
    have hne := Json.ofUInt64_ne n.toUInt64
    simpa [errorJson, jsonText, wireJson, qvariantToRpcValue, byValue_makeInteger, Json.byValue]
      using hne.symm
  | ulongLong n =>
    have hne := Json.ofUInt64_ne n
    simpa [errorJson, jsonText, wireJson, qvariantToRpcValue, byValue_makeInteger, Json.byValue]
      using hne.symm
  | double d =>
    have hne := (Json.ofDouble_ne d).1
    simpa [errorJson, jsonText, wireJson, qvariantToRpcValue, valueToJson, Json.byValue]
      using hne.symm
  | byteArray b =>
    simp only [errorJson, jsonText, wireJson, qvariantToRpcValue, valueToJson, bytesToJson]
    split_ifs <;> simp [Json.byValue]
  | stringList items =>
    simp [errorJson, jsonText, wireJson, qvariantToRpcValue, valueToJson, Json.byValue]
  | list items =>
    simp [errorJson, jsonText, wireJson, Json.byValue]
  | map entries =>
    simp [errorJson, jsonText, wireJson, Json.byValue]
  | logosResult success value error =>
    simp [errorJson, jsonText, wireJson, qvariantToRpcValue, Json.byValue]

/-- A result is written field by field. -/
theorem result_agree_iff (success : Bool) (value error : QVariant) :
    (qvariantToNlohmann (.logosResult success value error)).byValue =
        (wireJson (.logosResult success value error)).byValue ↔
      (qvariantToNlohmann value).byValue = (wireJson value).byValue ∧
        (errorJson error).byValue = (wireJson error).byValue := by
  have hsuccess : bstr "value" ≠ bstr "success" := by decide
  have hvalue : bstr "error" ≠ bstr "success" ∧ bstr "error" ≠ bstr "value" := by decide
  have hleft : (qvariantToNlohmann (.logosResult success value error)).byValue =
      .object (setAll [] [(bstr "success", .boolean success),
        (bstr "value", (qvariantToNlohmann value).byValue),
        (bstr "error", (errorJson error).byValue)]) := by
    rw [qvariantToNlohmann, jsonObject, Json.byValue_object, Fields.map_setAll]
    rfl
  have hright : (wireJson (.logosResult success value error)).byValue =
      .object (setAll [] [(bstr "success", .boolean success),
        (bstr "value", (wireJson value).byValue), (bstr "error", (wireJson error).byValue)]) := by
    rw [wireJson, qvariantToRpcValue, valueToJson_map, Json.byValue_object, Fields.map_setAll]
    rfl
  rw [hleft, hright, Json.object.injEq, Fields.setAll_nil_eq_iff]
  constructor
  · intro h
    have hv := h (bstr "value")
    have he := h (bstr "error")
    simp only [lastValue, hsuccess, hvalue.1, hvalue.2, hvalue.2.symm, if_false, if_true] at hv he
    exact ⟨by simpa using hv, by simpa using he⟩
  · rintro ⟨hv, he⟩ key
    rw [hv, he]

/-! ## Both paths -/

theorem portable_map_iff (entries : List (QString × QVariant)) :
    QVariant.Portable (.map entries) ↔
      ∀ key v, QVariant.visible entries key = some v → v.Portable := by
  constructor
  · intro h
    cases h with
    | map _ h => exact h
  · exact .map entries

/-- **Both transports show the same value exactly where it is built from what both converters
handle alike.** -/
theorem twoPaths_agree_iff (v : QVariant) :
    (qvariantToNlohmann v).byValue = (valueToJson (qvariantToRpcValue v)).byValue ↔
      v.Portable := by
  induction v using QVariant.induct with
  | invalid => exact iff_of_true rfl .invalid
  | bool b => exact iff_of_true rfl (.bool b)
  | int n => exact iff_of_true rfl (.int n)
  | uint n => exact iff_of_true (byValue_makeInteger n.toUInt64).symm (.uint n)
  | longLong n => exact iff_of_true rfl (.longLong n)
  | ulongLong n => exact iff_of_true (byValue_makeInteger n).symm (.ulongLong n)
  | double d =>
    refine (byValue_jsonDouble_eq_iff d).trans ⟨.double d, ?_⟩
    intro h
    cases h with
    | double _ h => exact h
  | string s => exact iff_of_true rfl (.string s)
  | byteArray b => exact iff_of_true rfl (.byteArray b)
  | stringList items =>
    refine iff_of_false ?_ (fun h => by cases h)
    simp [qvariantToNlohmann, qvariantToRpcValue, valueToJson, Json.byValue]
  | list items ih =>
    rw [qvariantToNlohmann_list, qvariantToRpcValue_list, valueToJson_list, List.map_map]
    refine (array_agree_iff (f := qvariantToNlohmann) (g := wireJson) items).trans ?_
    constructor
    · intro h
      exact .list items fun v hv => (ih v hv).mp (h v hv)
    · intro h v hv
      cases h with
      | list _ h => exact (ih v hv).mpr (h v hv)
  | map entries ih =>
    have hwire : (entries.map fun e => (e.1.toUtf8, qvariantToRpcValue e.2)).map
        (fun e => (e.1, valueToJson e.2)) =
          (entries.map fun e => (e.1.toUtf8, e.2)).map fun e => (e.1, wireJson e.2) := by
      simp only [List.map_map]
      rfl
    have hlocal : (entries.map fun e => (e.1.toUtf8, qvariantToNlohmann e.2)) =
        (entries.map fun e => (e.1.toUtf8, e.2)).map fun e => (e.1, qvariantToNlohmann e.2) := by
      rw [List.map_map]
      rfl
    rw [qvariantToNlohmann_map, qvariantToRpcValue_map, valueToJson_map, hwire, hlocal,
      object_agree_iff, portable_map_iff]
    apply forall₃_congr
    intro key v hv
    obtain ⟨e, he, heq⟩ := List.mem_map.mp (Fields.mem_of_lastValue hv)
    have hval : e.2 = v := congrArg Prod.snd heq
    rw [← hval]
    exact ih e he
  | logosResult success value error ihv ihe =>
    refine (result_agree_iff success value error).trans ?_
    rw [error_agree_iff]
    constructor
    · rintro ⟨hv, he⟩
      exact .logosResult success value error (ihv.mp hv) he
    · intro h
      cases h with
      | logosResult _ _ _ h herror => exact ⟨ihv.mpr h, herror⟩

/-- A caller in the same process gets the strings of a list, a peer on the wire gets none. -/
theorem stringList_differs :
    (qvariantToNlohmann (.stringList [qstr "a", qstr "b"])).byValue ≠
      (valueToJson (qvariantToRpcValue (.stringList [qstr "a", qstr "b"]))).byValue := by
  simp [qvariantToNlohmann, qvariantToRpcValue, valueToJson, Json.byValue]

end LogosProtocol.Convert
