import LogosProtocol.Wire.ByValue
import Mathlib.Tactic.Linarith
import Mathlib.Tactic.Positivity

/-!
# What a number is worth

The value of a number of a JSON value, whichever of the three kinds it is stored as, and the casts
that `get<integral>()` makes of it.  A cast keeps the low bits of an integer and drops the fraction
of a double; where the number is worth a value of the type it is cast to, it gives that value.

## Main definitions

* `Json.getInt` — `get<int>()`.
* `Double.toRat` — the value of a finite double.
* `Json.numberValue`, `Json.integer?` — what a number is worth.
-/

namespace LogosProtocol

/-! ## Casts -/

/-- `static_cast<int>` of a double, where the language defines it. -/
def Double.toInt32? (d : Double) : Option Int32 :=
  if d.IsFinite ∧ -2 ^ 31 ≤ d.toInt ∧ d.toInt < 2 ^ 31 then some (Int32.ofInt d.toInt) else none

/-- `get<int>()`: any number is cast, and a boolean is one or zero. -/
def Json.getInt : Json → Except DecodeError Int32
  | numberUnsigned n => .ok (Int32.ofInt n.toNat)
  | numberInteger n => .ok (Int32.ofInt n.toInt)
  | numberFloat d =>
    match d.toInt32? with
    | some n => .ok n
    | none => .error .undefinedCast
  | boolean b => .ok (if b then 1 else 0)
  | j => .error (.typeError 302 s!"type must be number, but is {j.typeName}")

/-- `is_number_integer()`, which is true of both kinds of integer. -/
def Json.isNumberInteger : Json → Bool
  | numberInteger _ => true
  | numberUnsigned _ => true
  | _ => false

/-! ## What a number is worth -/

namespace Double

/-- The fraction with its leading bit. -/
def mantissa (d : Double) : ℕ := if d.exponent = 0 then d.fraction else 2 ^ 52 + d.fraction

/-- A finite double without its sign. -/
def magnitude (d : Double) : ℚ :=
  if 1075 ≤ d.exponent then d.mantissa * 2 ^ (d.exponent - 1075)
  else d.mantissa / 2 ^ (1075 - max d.exponent 1)

/-- The number, of a finite double. -/
def toRat (d : Double) : ℚ := if d.sign = 1 then -d.magnitude else d.magnitude

theorem magnitude_nonneg (d : Double) : 0 ≤ d.magnitude := by
  unfold magnitude
  split_ifs
  · positivity
  · positivity

/-- Nothing is dropped from a double that is worth a natural number. -/
theorem truncAbs_of_magnitude {d : Double} {k : ℕ} (h : d.magnitude = k) : d.truncAbs = k := by
  have htrunc : d.truncAbs = if 1075 ≤ d.exponent then d.mantissa * 2 ^ (d.exponent - 1075)
      else d.mantissa / 2 ^ (1075 - max d.exponent 1) := rfl
  rw [htrunc]
  unfold magnitude at h
  split_ifs at h ⊢ with hlarge
  · exact_mod_cast h
  · have hpos : 0 < 2 ^ (1075 - max d.exponent 1) := Nat.two_pow_pos _
    rw [div_eq_iff (by positivity)] at h
    have hmantissa : d.mantissa = k * 2 ^ (1075 - max d.exponent 1) := by exact_mod_cast h
    rw [hmantissa, Nat.mul_div_cancel _ hpos]

/-- A double that is worth a natural number is cast to it. -/
theorem toUInt64?_of_toRat {d : Double} (hfinite : d.IsFinite) {k : ℕ} (hk : k < 2 ^ 64)
    (h : d.toRat = k) : d.toUInt64? = some k.toUInt64 := by
  have hlt := d.bits.toNat_lt
  have hnonneg := d.magnitude_nonneg
  have hmagnitude : d.magnitude = k ∧ (d.sign = 1 → k = 0) := by
    unfold toRat at h
    split_ifs at h with hsign
    · -- Both sides are zero.
      have hk0 : (k : ℚ) = 0 := by
        have : (0 : ℚ) ≤ k := Nat.cast_nonneg k
        linarith
      exact ⟨by linarith, fun _ => by exact_mod_cast hk0⟩
    · exact ⟨h, fun hneg => absurd hneg hsign⟩
  have hnegative : ¬ (2 ^ 63 ≤ d.bits.toNat ∧ k ≠ 0) := by
    rintro ⟨hneg, hne⟩
    apply hne (hmagnitude.2 _)
    rw [sign]
    omega
  rw [toUInt64?, truncAbs_of_magnitude hmagnitude.1, if_neg (not_not.mpr hfinite),
    if_neg hnegative, if_neg (by omega)]

end Double

namespace Json

/-- The value of a number.  An infinity and a NaN have none. -/
def numberValue : Json → Option ℚ
  | numberInteger n => some n.toInt
  | numberUnsigned n => some n.toNat
  | numberFloat d => if d.IsFinite then some d.toRat else none
  | _ => none

/-- The value of an integer. -/
def integer? : Json → Option ℤ
  | numberInteger n => some n.toInt
  | numberUnsigned n => some n.toNat
  | _ => none

/-- One of the three kinds of number. -/
def isNumber : Json → Bool
  | numberInteger _ => true
  | numberUnsigned _ => true
  | numberFloat _ => true
  | _ => false

end Json

/-- An id that is worth a natural number below `2 ^ 64` is read as that. -/
theorem Json.getUInt64_of_numberValue {j : Json} {k : ℕ} (hk : k < 2 ^ 64)
    (h : j.numberValue = some (k : ℚ)) : j.getUInt64 = .ok k.toUInt64 := by
  cases j with
  | numberInteger n =>
    simp only [numberValue, Option.some.injEq] at h
    have hint : n.toInt = k := by exact_mod_cast h
    rw [getUInt64, ← Int64.ofInt_toInt n, hint, Int64.ofInt_eq_ofNat, Int64.toUInt64_ofNat']
  | numberUnsigned n =>
    simp only [numberValue, Option.some.injEq, Nat.cast_inj] at h
    simp [getUInt64, ← h]
  | numberFloat d =>
    simp only [numberValue] at h
    split_ifs at h with hfinite
    rw [getUInt64, Double.toUInt64?_of_toRat hfinite hk (Option.some.inj h)]
  | null => cases h
  | boolean b => cases h
  | string s => cases h
  | array items => cases h
  | object fields => cases h
  | binary b => cases h

/-- The tag read is the type modulo `2 ^ 32`, if that stands for a message. -/
theorem Json.getInt_eq {j : Json} {v : ℤ} (h : j.integer? = some v) :
    j.isNumberInteger = true ∧ j.getInt = .ok (Int32.ofInt v) := by
  cases j with
  | numberInteger n => exact ⟨rfl, by rw [← Option.some.inj h]; rfl⟩
  | numberUnsigned n => exact ⟨rfl, by rw [← Option.some.inj h]; rfl⟩
  | numberFloat d => cases h
  | null => cases h
  | boolean b => cases h
  | string s => cases h
  | array items => cases h
  | object fields => cases h
  | binary b => cases h

theorem Json.isNumberInteger_iff (j : Json) :
    j.isNumberInteger = true ↔ ∃ v, j.integer? = some v := by
  cases j <;> simp [isNumberInteger, integer?]

end LogosProtocol
