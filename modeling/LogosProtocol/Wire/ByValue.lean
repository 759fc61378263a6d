import LogosProtocol.Wire.Floats

/-!
# JSON values, compared by value

Two JSON values are the same when their numbers are, whichever of the three kinds each number
is stored as.  `byValue` stores every number as the first kind that holds it.

## Main definitions

* `Json.induct` — induction over a JSON value.
* `Json.byValue` — the value with its numbers in normal form.
-/

namespace LogosProtocol.Json

/-- To prove something of every value, take the members of an array and the values of an
object as given. -/
theorem induct {motive : Json → Prop} (null : motive .null) (boolean : ∀ b, motive (.boolean b))
    (numberInteger : ∀ n, motive (.numberInteger n))
    (numberUnsigned : ∀ n, motive (.numberUnsigned n))
    (numberFloat : ∀ d, motive (.numberFloat d)) (string : ∀ s, motive (.string s))
    (array : ∀ items, (∀ j ∈ items, motive j) → motive (.array items))
    (object : ∀ fields, (∀ e ∈ fields, motive e.2) → motive (.object fields))
    (binary : ∀ b, motive (.binary b)) : ∀ j, motive j
  | .null => null
  | .boolean b => boolean b
  | .numberInteger n => numberInteger n
  | .numberUnsigned n => numberUnsigned n
  | .numberFloat d => numberFloat d
  | .string s => string s
  | .array items => array items fun j _ =>
    induct null boolean numberInteger numberUnsigned numberFloat string array object binary j
  | .object fields => object fields fun e _ =>
    induct null boolean numberInteger numberUnsigned numberFloat string array object binary e.2
  | .binary b => binary b
termination_by j => sizeOf j
decreasing_by
  · have := List.sizeOf_lt_of_mem ‹j ∈ items›
    simp
    omega
  · have := List.sizeOf_lt_of_mem ‹e ∈ fields›
    have : sizeOf e.2 < sizeOf e := by
      obtain ⟨key, j⟩ := e
      simp
    simp
    omega

/-- An unsigned number, in normal form. -/
def ofUInt64 (n : UInt64) : Json :=
  if n ≤ Int64.maxValue.toUInt64 then .numberInteger n.toInt64 else .numberUnsigned n

/-- A double, in normal form: an integer where it is equal to one. -/
def ofDouble (d : Double) : Json :=
  if d.IsFinite ∧ d.isWhole = true ∧ -2 ^ 63 ≤ d.toInt ∧ d.toInt < 2 ^ 63 then
    .numberInteger (Int64.ofInt d.toInt)
  else if d.IsFinite ∧ d.isWhole = true ∧ 2 ^ 63 ≤ d.toInt ∧ d.toInt < 2 ^ 64 then
    .numberUnsigned d.toInt.toNat.toUInt64
  else .numberFloat d

mutual

/-- The value with every number in normal form. -/
def byValue : Json → Json
  | .numberUnsigned n => ofUInt64 n
  | .numberFloat d => ofDouble d
  | .array items => .array (itemsByValue items)
  | .object fields => .object (fieldsByValue fields)
  | .null => .null
  | .boolean b => .boolean b
  | .numberInteger n => .numberInteger n
  | .string s => .string s
  | .binary b => .binary b

def itemsByValue : List Json → List Json
  | [] => []
  | j :: items => byValue j :: itemsByValue items

def fieldsByValue : List (Bytes × Json) → List (Bytes × Json)
  | [] => []
  | (key, j) :: fields => (key, byValue j) :: fieldsByValue fields

end

@[simp] theorem byValue_array (items : List Json) :
    byValue (.array items) = .array (items.map byValue) := by
  have hitems : itemsByValue items = items.map byValue := by
    induction items with
    | nil => rfl
    | cons j items ih => rw [itemsByValue, ih, List.map_cons]
  rw [byValue, hitems]

@[simp] theorem byValue_object (fields : List (Bytes × Json)) :
    byValue (.object fields) = .object (fields.map fun e => (e.1, byValue e.2)) := by
  have hfields : fieldsByValue fields = fields.map fun e => (e.1, byValue e.2) := by
    induction fields with
    | nil => rfl
    | cons e fields ih => rw [fieldsByValue, ih, List.map_cons]
  rw [byValue, hfields]

/-- Both zeros are the integer. -/
theorem ofDouble_of_zero {d : Double} (he : d.exponent = 0) (hf : d.fraction = 0) :
    ofDouble d = .numberInteger 0 := by
  have htrunc : d.truncAbs = 0 := by
    rw [Double.fraction] at hf
    simp only [Double.truncAbs, he, hf, if_true]
    rw [if_neg (by omega), Nat.zero_div]
  have hint : d.toInt = 0 := by
    rw [Double.toInt, htrunc]
    split_ifs <;> rfl
  have hwhole : d.isWhole = true := by
    have hne : ¬ d.exponent = 2047 := by omega
    rw [Double.isWhole, if_neg hne]
    apply decide_eq_true
    right
    rw [if_pos he, hf, Nat.zero_mod]
  have hfinite : d.IsFinite := by
    rw [Double.IsFinite, he]
    omega
  rw [ofDouble, hint, if_pos ⟨hfinite, hwhole, by omega, by omega⟩]
  rfl

/-- The normal form of a number is a number. -/
theorem ofDouble_ne (d : Double) : ofDouble d ≠ .null ∧ ∀ s, ofDouble d ≠ .string s := by
  simp only [ofDouble]
  split_ifs <;> simp

theorem ofUInt64_ne (n : UInt64) : ofUInt64 n ≠ .null := by
  simp only [ofUInt64]
  split_ifs <;> simp

end LogosProtocol.Json
