import LogosProtocol.Wire.Json
import Mathlib.Tactic.Ring

/-!
# `float`, `double` and the conversions between numbers

What `static_cast` does between the number types of a JSON value and the types it is read
as: a `float` widens to a `double` without loss, a `double` narrows to the nearest `float`,
and an integer becomes the nearest number of either format, ties going to the even one.

## Main definitions

* `Single` — a `float`, by its bits.
* `Single.toDouble`, `Double.toSingle` — `static_cast` between the two formats.
* `Double.ofInt`, `Single.ofInt` — `static_cast` from an integer.
* `Double.isWhole`, `Double.toInt` — `std::modf`, as the integral codec uses it.
-/

namespace LogosProtocol

/-- A `float`, by its bits. -/
structure Single where
  bits : UInt32
  deriving DecidableEq, Repr

/-! ## Rounding -/

/-- `n / 2 ^ s` to the nearest integer, and to the even one of two. -/
def roundEven (n s : ℕ) : ℕ :=
  let q := n / 2 ^ s
  let r := n % 2 ^ s
  if 2 ^ s < 2 * r ∨ (2 * r = 2 ^ s ∧ q % 2 = 1) then q + 1 else q

/-- The bits below the sign of the number nearest to an integer, in the format with a
fraction of `p` bits and the given bias.  A carry out of the fraction moves the exponent up. -/
def natBits (p bias n : ℕ) : ℕ :=
  if n = 0 then 0
  else (n.log2 + bias - 1) * 2 ^ p +
    (if n.log2 ≤ p then n * 2 ^ (p - n.log2) else roundEven n (n.log2 - p))

/-- Nothing is rounded where nothing is lost. -/
@[simp] theorem roundEven_mul_two_pow (q s : ℕ) : roundEven (q * 2 ^ s) s = q := by
  have hpos : 0 < 2 ^ s := Nat.two_pow_pos s
  have hne : ¬ 0 = 2 ^ s := by omega
  simp [roundEven, Nat.mul_div_cancel _ hpos, hne]

/-! ## The fields of the two formats -/

namespace Double

/-- The sign bit. -/
def sign (d : Double) : ℕ := d.bits.toNat / 2 ^ 63

/-- The fraction field. -/
def fraction (d : Double) : ℕ := d.bits.toNat % 2 ^ 52

/-- The double with the given fields. -/
def ofFields (sign exponent fraction : ℕ) : Double :=
  ⟨(sign * 2 ^ 63 + exponent * 2 ^ 52 + fraction).toUInt64⟩

/-- `static_cast<double>` of an integer. -/
def ofInt (i : ℤ) : Double := ofFields (if i < 0 then 1 else 0) 0 (natBits 52 1023 i.natAbs)

/-- The value of a finite double, rounded towards zero. -/
def toInt (d : Double) : ℤ := if d.sign = 1 then -d.truncAbs else d.truncAbs

/-- `std::modf` leaves no fractional part; an infinity has none. -/
def isWhole (d : Double) : Bool :=
  if d.exponent = 2047 then d.fraction = 0
  else
    let mantissa := if d.exponent = 0 then d.fraction else 2 ^ 52 + d.fraction
    1075 ≤ d.exponent ∨ mantissa % 2 ^ (1075 - max d.exponent 1) = 0

theorem toNat_ofFields {sign exponent fraction : ℕ} (hs : sign < 2) (he : exponent < 2048)
    (hf : fraction < 2 ^ 52) :
    (ofFields sign exponent fraction).bits.toNat =
      sign * 2 ^ 63 + exponent * 2 ^ 52 + fraction := by
  rw [ofFields, Nat.toUInt64_eq, UInt64.toNat_ofNat']
  omega

end Double

namespace Single

/-- The sign bit. -/
def sign (s : Single) : ℕ := s.bits.toNat / 2 ^ 31

/-- The exponent field. -/
def exponent (s : Single) : ℕ := s.bits.toNat / 2 ^ 23 % 2 ^ 8

/-- The fraction field. -/
def fraction (s : Single) : ℕ := s.bits.toNat % 2 ^ 23

/-- Neither an infinity nor a NaN. -/
def IsFinite (s : Single) : Prop := s.exponent ≠ 255

instance (s : Single) : Decidable s.IsFinite := inferInstanceAs (Decidable (_ ≠ _))

/-- The float with the given sign and the given bits below it. -/
def ofFields (sign magnitude : ℕ) : Single := ⟨(sign * 2 ^ 31 + magnitude).toUInt32⟩

/-- `static_cast<float>` of an integer. -/
def ofInt (i : ℤ) : Single := ofFields (if i < 0 then 1 else 0) (natBits 23 127 i.natAbs)

/-- `static_cast<double>`.  A number below the range of normal floats is normal as a double,
and a NaN becomes quiet. -/
def toDouble (s : Single) : Double :=
  if s.exponent = 255 then
    Double.ofFields s.sign 2047 (if s.fraction = 0 then 0 else s.fraction * 2 ^ 29 ||| 2 ^ 51)
  else if s.exponent = 0 then
    if s.fraction = 0 then Double.ofFields s.sign 0 0
    else
      let k := s.fraction.log2
      Double.ofFields s.sign (874 + k) ((s.fraction - 2 ^ k) * 2 ^ (52 - k))
  else Double.ofFields s.sign (s.exponent + 896) (s.fraction * 2 ^ 29)

/-- The fields make up the bits. -/
theorem ofFields_fields (s : Single) :
    ofFields s.sign (s.exponent * 2 ^ 23 + s.fraction) = s := by
  have hlt := s.bits.toNat_lt
  have hbits : s.sign * 2 ^ 31 + (s.exponent * 2 ^ 23 + s.fraction) = s.bits.toNat := by
    simp only [sign, exponent, fraction]
    omega
  rw [ofFields, hbits, Nat.toUInt32_eq, UInt32.ofNat_toNat]

end Single

/-- `static_cast<float>`: the nearest float, with more of the mantissa dropped below the
range of normal floats, and an infinity above the largest. -/
def Double.toSingle (d : Double) : Single :=
  if d.exponent = 2047 then
    Single.ofFields d.sign
      (255 * 2 ^ 23 + (if d.fraction = 0 then 0 else d.fraction / 2 ^ 29 ||| 2 ^ 22))
  else
    let e := max d.exponent 1
    let mantissa := if d.exponent = 0 then d.fraction else 2 ^ 52 + d.fraction
    Single.ofFields d.sign
      (min (255 * 2 ^ 23) ((e - 897) * 2 ^ 23 + roundEven mantissa (29 + (897 - e))))

/-! ## Widening and narrowing -/

/-- The fields of a double that is put together from them. -/
theorem Double.fields_ofFields {s e f : ℕ} (hs : s < 2) (he : e < 2048) (hf : f < 2 ^ 52) :
    (Double.ofFields s e f).sign = s ∧ (Double.ofFields s e f).exponent = e ∧
      (Double.ofFields s e f).fraction = f := by
  simp only [Double.sign, Double.exponent, Double.fraction, Double.toNat_ofFields hs he hf]
  omega

/-- A double narrows exactly when its mantissa ends in the zeros that are dropped. -/
theorem Double.toSingle_ofFields {s e f q : ℕ} (hs : s < 2) (he : e < 2047) (hf : f < 2 ^ 52)
    (hq : (if e = 0 then f else 2 ^ 52 + f) = q * 2 ^ (29 + (897 - max e 1)))
    (hlt : (max e 1 - 897) * 2 ^ 23 + q ≤ 255 * 2 ^ 23) :
    (Double.ofFields s e f).toSingle =
      Single.ofFields s ((max e 1 - 897) * 2 ^ 23 + q) := by
  have hne : ¬ e = 2047 := by omega
  have he' : e < 2048 := by omega
  obtain ⟨h₁, h₂, h₃⟩ := Double.fields_ofFields hs he' hf
  simp only [Double.toSingle, h₁, h₂, h₃, hne, if_false, hq, roundEven_mul_two_pow]
  rw [Nat.min_eq_right hlt]

/-- **Widening loses nothing**: a finite float is the one its double narrows to. -/
theorem Single.toSingle_toDouble {s : Single} (h : s.IsFinite) : s.toDouble.toSingle = s := by
  have hlt := s.bits.toNat_lt
  have hsign : s.sign < 2 := by
    simp only [Single.sign]
    omega
  have hexp : s.exponent < 256 := Nat.mod_lt _ (by omega)
  have hfrac : s.fraction < 2 ^ 23 := Nat.mod_lt _ (by omega)
  have hfields := s.ofFields_fields
  simp only [IsFinite] at h
  simp only [toDouble, h, if_false]
  split_ifs with he hf
  · rw [he, hf] at hfields
    rw [Double.toSingle_ofFields (q := 0) hsign (by omega) (by omega)
      (by rw [if_pos rfl, Nat.zero_mul]) (by omega)]
    simpa using hfields
  · -- The mantissa is the fraction, moved up until its leading bit stands at bit 52.
    have hle : 2 ^ s.fraction.log2 ≤ s.fraction := Nat.log2_self_le hf
    have hk : s.fraction.log2 < 23 := (Nat.log2_lt hf).mpr hfrac
    have hlead : s.fraction < 2 ^ (s.fraction.log2 + 1) := Nat.lt_log2_self
    generalize s.fraction.log2 = k at *
    have hpow : 2 ^ k * 2 ^ (52 - k) = 2 ^ 52 := by
      rw [← pow_add]
      congr 1
      omega
    have hshift : 29 + (897 - max (874 + k) 1) = 52 - k := by omega
    have hbelow : (s.fraction - 2 ^ k) * 2 ^ (52 - k) < 2 ^ 52 := by
      rw [← hpow]
      apply Nat.mul_lt_mul_of_pos_right _ (Nat.two_pow_pos _)
      rw [pow_succ] at hlead
      omega
    have hmantissa : 2 ^ 52 + (s.fraction - 2 ^ k) * 2 ^ (52 - k) =
        s.fraction * 2 ^ (52 - k) := by
      rw [← hpow, ← Nat.add_mul]
      congr 1
      omega
    have hbase : max (874 + k) 1 - 897 = 0 := by omega
    have hne : ¬ 874 + k = 0 := by omega
    rw [Double.toSingle_ofFields (q := s.fraction) hsign (by omega) hbelow
      (by simp only [hne, if_false, hshift, hmantissa]) (by omega), hbase]
    rw [he] at hfields
    simpa using hfields
  · have hpos : 0 < s.exponent := Nat.pos_of_ne_zero he
    have hshift : 29 + (897 - max (s.exponent + 896) 1) = 29 := by omega
    have hbits : (max (s.exponent + 896) 1 - 897) * 2 ^ 23 + (2 ^ 23 + s.fraction) =
        s.exponent * 2 ^ 23 + s.fraction := by omega
    have hne : ¬ s.exponent + 896 = 0 := by omega
    rw [Double.toSingle_ofFields (q := 2 ^ 23 + s.fraction) hsign (by omega) (by omega)
      (by simp only [hne, if_false, hshift]; omega) (by omega), hbits]
    exact hfields

end LogosProtocol
