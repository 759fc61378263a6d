import LogosProtocol.Lib.Except
import LogosProtocol.Lib.Utf8
import LogosProtocol.Wire.ByValue

/-!
# The text of a JSON value

`dump()` of the JSON library, with no indentation.  Only a few of its rules matter for the
length of a text, and `DumpsJson` names them; `Json.dump` is one function that follows them
all.  How it spells a double and which message it gives for a string that is not UTF-8 are
left open.

## Main definitions

* `DumpsJson` — the rules for integers, for plain strings and for objects.
* `Json.dump` — the text of a value, or what is thrown for a string that is not UTF-8.
* `Json.IsUtf8` — the values that are written.
-/

namespace LogosProtocol

/-! ## What is written -/

/-- The texts, with a comma between any two. -/
def joinComma : List Bytes → Bytes
  | [] => []
  | [text] => text
  | text :: next :: texts => text ++ 0x2C :: joinComma (next :: texts)

/-- A character that stands for itself between quotes. -/
def isPlainChar (b : UInt8) : Bool :=
  0x20 ≤ b.toNat && b.toNat < 0x80 && b != 0x22 && b != 0x5C

/-- A text between quotes. -/
def quoted (text : Bytes) : Bytes := 0x22 :: text ++ [0x22]

/-- What an integer, a string with nothing to escape, and an object are written as.  A member
that cannot be written stops the whole. -/
structure DumpsJson (dump : Json → Except String Bytes) : Prop where
  integer : ∀ n : Int64, dump (.numberInteger n) = .ok (bstr (toString n.toInt))
  string : ∀ s : Bytes, (∀ b ∈ s, isPlainChar b = true) → dump (.string s) = .ok (quoted s)
  object : ∀ fields : List (Bytes × Json), dump (.object fields) = do
    let members ← fields.mapM fun e => do
      let key ← dump (.string e.1)
      let value ← dump e.2
      return key ++ 0x3A :: value
    return 0x7B :: joinComma members ++ [0x7D]

theorem DumpsJson.plain {dump : Json → Except String Bytes} (h : DumpsJson dump) (s : Bytes)
    (hs : s.all isPlainChar = true) : dump (.string s) = .ok (quoted s) :=
  h.string s (List.all_eq_true.mp hs)

/-! ## Writing it -/

/-- A byte of a string.  The bytes of a longer character are all above 0x7F. -/
def escapeByte (b : UInt8) : Bytes :=
  let hex (n : ℕ) : UInt8 := if n < 10 then (0x30 + n).toUInt8 else (0x57 + n).toUInt8
  if b = 0x08 then bstr "\\b"
  else if b = 0x09 then bstr "\\t"
  else if b = 0x0A then bstr "\\n"
  else if b = 0x0C then bstr "\\f"
  else if b = 0x0D then bstr "\\r"
  else if b = 0x22 then [0x5C, 0x22]
  else if b = 0x5C then [0x5C, 0x5C]
  else if b.toNat < 0x20 then bstr "\\u00" ++ [hex (b.toNat / 16), hex (b.toNat % 16)]
  else [b]

section dump
variable (floatText : Double → Bytes) (invalidUtf8 : Bytes → String)

/-- A string, or what is thrown for one that is not UTF-8. -/
def dumpString (s : Bytes) : Except String Bytes :=
  if Utf8.isUtf8 s then .ok (quoted (s.flatMap escapeByte)) else .error (invalidUtf8 s)

mutual

/-- The text of a value. -/
def Json.dump : Json → Except String Bytes
  | .null => .ok (bstr "null")
  | .boolean b => .ok (bstr (if b then "true" else "false"))
  | .numberInteger n => .ok (bstr (toString n.toInt))
  | .numberUnsigned n => .ok (bstr (toString n.toNat))
  | .numberFloat d => .ok (if d.IsFinite then floatText d else bstr "null")
  | .string s => dumpString invalidUtf8 s
  | .array items => do
    let texts ← dumpItems items
    return 0x5B :: joinComma texts ++ [0x5D]
  | .object fields => do
    let members ← dumpMembers fields
    return 0x7B :: joinComma members ++ [0x7D]
  | .binary b =>
    .ok (0x7B :: quoted (bstr "bytes") ++ [0x3A, 0x5B] ++
      joinComma (b.map fun x => bstr (toString x.toNat)) ++ [0x5D, 0x2C] ++
      quoted (bstr "subtype") ++ bstr ":null" ++ [0x7D])

def dumpItems : List Json → Except String (List Bytes)
  | [] => .ok []
  | j :: items => do
    let text ← Json.dump j
    let texts ← dumpItems items
    return text :: texts

def dumpMembers : List (Bytes × Json) → Except String (List Bytes)
  | [] => .ok []
  | (key, j) :: fields => do
    let keyText ← dumpString invalidUtf8 key
    let text ← Json.dump j
    let texts ← dumpMembers fields
    return (keyText ++ 0x3A :: text) :: texts

end

theorem dumpMembers_eq (fields : List (Bytes × Json)) :
    dumpMembers floatText invalidUtf8 fields = fields.mapM fun e => do
      let key ← Json.dump floatText invalidUtf8 (.string e.1)
      let value ← Json.dump floatText invalidUtf8 e.2
      return key ++ 0x3A :: value := by
  induction fields with
  | nil => rfl
  | cons e fields ih =>
    rw [dumpMembers, List.mapM_cons, ← ih]
    simp only [Json.dump, bind_assoc, pure_bind]

theorem dumpItems_eq (items : List Json) :
    dumpItems floatText invalidUtf8 items = items.mapM (Json.dump floatText invalidUtf8) := by
  induction items with
  | nil => rfl
  | cons j items ih => rw [dumpItems, List.mapM_cons, ← ih]

/-- The strings and the keys in a value are UTF-8. -/
inductive Json.IsUtf8 : Json → Prop
  | null : IsUtf8 .null
  | boolean (b : Bool) : IsUtf8 (.boolean b)
  | numberInteger (n : Int64) : IsUtf8 (.numberInteger n)
  | numberUnsigned (n : UInt64) : IsUtf8 (.numberUnsigned n)
  | numberFloat (d : Double) : IsUtf8 (.numberFloat d)
  | string {s : Bytes} (h : Utf8.isUtf8 s = true) : IsUtf8 (.string s)
  | array {items : List Json} (h : ∀ j ∈ items, IsUtf8 j) : IsUtf8 (.array items)
  | object {fields : List (Bytes × Json)} (hkeys : ∀ e ∈ fields, Utf8.isUtf8 e.1 = true)
      (hvalues : ∀ e ∈ fields, IsUtf8 e.2) : IsUtf8 (.object fields)
  | binary (b : Bytes) : IsUtf8 (.binary b)

theorem succeeds_dumpString_iff (s : Bytes) :
    Succeeds (dumpString invalidUtf8 s) ↔ Utf8.isUtf8 s = true := by
  unfold dumpString
  split_ifs with h
  · simp [h]
  · simp [h]

/-- **A value is written exactly when its strings are UTF-8.** -/
theorem succeeds_dump_iff (j : Json) :
    Succeeds (Json.dump floatText invalidUtf8 j) ↔ j.IsUtf8 := by
  induction j using Json.induct with
  | null => exact iff_of_true (succeeds_ok _) .null
  | boolean b => exact iff_of_true (succeeds_ok _) (.boolean b)
  | numberInteger n => exact iff_of_true (succeeds_ok _) (.numberInteger n)
  | numberUnsigned n => exact iff_of_true (succeeds_ok _) (.numberUnsigned n)
  | numberFloat d => exact iff_of_true (succeeds_ok _) (.numberFloat d)
  | binary b => exact iff_of_true (succeeds_ok _) (.binary b)
  | string s =>
    rw [Json.dump, succeeds_dumpString_iff]
    constructor
    · exact .string
    · intro h
      cases h with
      | string h => exact h
  | array items ih =>
    have hsplit : Succeeds (Json.dump floatText invalidUtf8 (.array items)) ↔
        ∀ j ∈ items, j.IsUtf8 := by
      rw [Json.dump, succeeds_bind_iff fun _ => succeeds_pure _, dumpItems_eq, succeeds_mapM_iff]
      exact forall₂_congr ih
    rw [hsplit]
    constructor
    · exact .array
    · intro h
      cases h with
      | array h => exact h
  | object fields ih =>
    have hsplit : Succeeds (Json.dump floatText invalidUtf8 (.object fields)) ↔
        ∀ e ∈ fields, Utf8.isUtf8 e.1 = true ∧ e.2.IsUtf8 := by
      rw [Json.dump, succeeds_bind_iff fun _ => succeeds_pure _, dumpMembers_eq, succeeds_mapM_iff]
      refine forall₂_congr fun e he => ?_
      rw [← ih e he, ← succeeds_dumpString_iff invalidUtf8, Json.dump]
      apply succeeds_bind_iff_and
      intro key
      exact succeeds_bind_iff fun _ => succeeds_pure _
    rw [hsplit]
    constructor
    · exact fun h => .object (fun e he => (h e he).1) fun e he => (h e he).2
    · intro h e he
      cases h with
      | object hkeys hvalues => exact ⟨hkeys e he, hvalues e he⟩

end dump

theorem isPlainChar_iff (b : UInt8) : isPlainChar b = true ↔
    0x20 ≤ b.toNat ∧ b.toNat < 0x80 ∧ b ≠ 0x22 ∧ b ≠ 0x5C := by
  simp [isPlainChar, and_assoc]

theorem escapeByte_of_plain {b : UInt8} (h : isPlainChar b = true) : escapeByte b = [b] := by
  rw [isPlainChar_iff] at h
  have hne : ∀ c : UInt8, c.toNat < 0x20 → b ≠ c := by
    rintro c hc rfl
    omega
  have hlow : ¬ b.toNat < 0x20 := by omega
  simp only [escapeByte, hne 0x08 (by decide), hne 0x09 (by decide), hne 0x0A (by decide),
    hne 0x0C (by decide), hne 0x0D (by decide), h.2.2.1, h.2.2.2, hlow, if_false]

theorem flatMap_escapeByte {s : Bytes} (h : ∀ b ∈ s, isPlainChar b = true) :
    s.flatMap escapeByte = s := by
  induction s with
  | nil => rfl
  | cons b s ih =>
    rw [List.flatMap_cons, escapeByte_of_plain (h b (List.mem_cons_self ..)),
      ih fun c hc => h c (List.mem_cons_of_mem b hc)]
    rfl

/-- `Json.dump` follows the rules. -/
theorem dumpsJson_dump (floatText : Double → Bytes) (invalidUtf8 : Bytes → String) :
    DumpsJson (Json.dump floatText invalidUtf8) where
  integer n := by rw [Json.dump]
  string s h := by
    have hutf8 : Utf8.isUtf8 s = true := by
      apply Utf8.isUtf8_of_forall_lt
      intro b hb
      exact ((isPlainChar_iff b).mp (h b hb)).2.1
    rw [Json.dump, dumpString, if_pos hutf8, flatMap_escapeByte h]
  object fields := by rw [Json.dump, dumpMembers_eq]

end LogosProtocol
