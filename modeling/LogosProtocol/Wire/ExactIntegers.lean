import LogosProtocol.Wire.Codec
import LogosProtocol.Wire.Numbers

/-!
# Integers are decoded exactly

The decoder of an integral type goes through `uint64_t` or `int64_t`, compares with limits that
are cast to the same type, and casts the result.  `Integral.fromJsonByCasts` makes each of these
casts one that has to keep the value.  None of them fails: the checks before a cast leave only
values that its type can represent.

## Main definitions

* `Integral.toInt` — the value of an integral type.
* `Integral.staticCast`, `Integral.fromJsonByCasts` — a cast that has to keep the value, and the
  decoder with such casts.

## Main results

* `Integral.fromJson_exact` — what the decoder of an integral type takes, and as what.
-/

namespace LogosProtocol

/-! ## Doubles that are worth an integer -/

namespace Double

/-- **A whole double is worth the integer it is truncated to**, and no other double is worth an
integer. -/
theorem magnitude_eq_truncAbs_iff {d : Double} (hfinite : d.IsFinite) :
    d.magnitude = d.truncAbs ↔ d.isWhole = true := by
  have hexponent : ¬ d.exponent = 2047 := hfinite
  have htrunc : d.truncAbs = if 1075 ≤ d.exponent then d.mantissa * 2 ^ (d.exponent - 1075)
      else d.mantissa / 2 ^ (1075 - max d.exponent 1) := rfl
  have hwhole : d.isWhole = true ↔
      1075 ≤ d.exponent ∨ d.mantissa % 2 ^ (1075 - max d.exponent 1) = 0 := by
    rw [isWhole, if_neg hexponent]
    exact decide_eq_true_iff
  rw [htrunc, hwhole, magnitude]
  by_cases hlarge : 1075 ≤ d.exponent
  · rw [if_pos hlarge, if_pos hlarge]
    exact iff_of_true (by push_cast; rfl) (.inl hlarge)
  · have hpos : 0 < 2 ^ (1075 - max d.exponent 1) := Nat.two_pow_pos _
    simp only [hlarge, if_false, false_or]
    rw [div_eq_iff (by positivity)]
    constructor
    · intro h
      have hmul : d.mantissa = d.mantissa / 2 ^ (1075 - max d.exponent 1) *
          2 ^ (1075 - max d.exponent 1) := by exact_mod_cast h
      rw [hmul, Nat.mul_mod_left]
    · intro h
      have hmul := Nat.div_mul_cancel (Nat.dvd_of_mod_eq_zero h)
      exact_mod_cast hmul.symm

theorem toRat_eq_toInt_iff {d : Double} (hfinite : d.IsFinite) :
    d.toRat = d.toInt ↔ d.isWhole = true := by
  rw [← magnitude_eq_truncAbs_iff hfinite, toRat, toInt]
  split_ifs <;> simp

/-- What a double is worth, it is truncated to. -/
theorem toInt_of_toRat {d : Double} {i : ℤ} (h : d.toRat = i) : d.toInt = i := by
  unfold toRat at h
  rw [toInt]
  split_ifs at h ⊢ with hsign
  · have hnonneg := d.magnitude_nonneg
    have hle : i ≤ 0 := by
      have : (i : ℚ) ≤ 0 := by linarith
      exact_mod_cast this
    obtain ⟨k, rfl⟩ := Int.exists_eq_neg_ofNat hle
    have hk : d.magnitude = k := by
      push_cast at h
      linarith
    rw [truncAbs_of_magnitude hk]
  · have hnonneg := d.magnitude_nonneg
    have hle : 0 ≤ i := by
      have : (0 : ℚ) ≤ i := by linarith
      exact_mod_cast this
    obtain ⟨k, rfl⟩ := Int.eq_ofNat_of_zero_le hle
    rw [truncAbs_of_magnitude (by exact_mod_cast h)]

/-- The integers that a finite double is worth. -/
theorem toRat_eq_intCast_iff {d : Double} (hfinite : d.IsFinite) (i : ℤ) :
    d.toRat = i ↔ d.isWhole = true ∧ d.toInt = i := by
  constructor
  · intro h
    have htrunc := toInt_of_toRat h
    exact ⟨(toRat_eq_toInt_iff hfinite).mp (htrunc ▸ h), htrunc⟩
  · rintro ⟨hwhole, rfl⟩
    exact (toRat_eq_toInt_iff hfinite).mpr hwhole

end Double

/-! ## The values of an integral type -/

namespace Integral

/-- `uint64_t`. -/
def uint64 : Integral := ⟨true, .w64⟩

/-- `int64_t`. -/
def int64 : Integral := ⟨false, .w64⟩

theorem bits_le (w : Width) : 8 ≤ w.bits ∧ w.bits ≤ 64 := by
  cases w <;> decide

variable (T : Integral)

/-- The value, as an integer. -/
def toInt (v : T.Value) : ℤ := if T.isUnsigned then BitVec.toNat v else BitVec.toInt v

/-- The type can represent the integer. -/
def Represents (i : ℤ) : Prop := T.min ≤ i ∧ i ≤ T.max

instance (i : ℤ) : Decidable (T.Represents i) := inferInstanceAs (Decidable (_ ∧ _))

/-- The values of a type are in its range. -/
theorem represents_toInt (v : T.Value) : T.Represents (T.toInt v) := by
  have hlt : (BitVec.toNat v : ℤ) < 2 ^ T.width.bits := by exact_mod_cast v.isLt
  have hlow := BitVec.le_toInt v
  have hhigh := BitVec.toInt_lt (x := v)
  unfold Represents min max toInt
  split_ifs
  · omega
  · omega

theorem ofInt_toInt (v : T.Value) : T.ofInt (T.toInt v) = v := by
  rw [toInt, ofInt]
  split_ifs
  · rw [BitVec.ofInt_natCast, BitVec.ofNat_toNat, BitVec.setWidth_eq]
  · exact BitVec.ofInt_toInt

/-- An integer in the range is kept by the cast. -/
theorem toInt_ofInt {i : ℤ} (h : T.Represents i) : T.toInt (T.ofInt i) = i := by
  have hpow : (2 : ℤ) ^ T.width.bits = 2 ^ (T.width.bits - 1) * 2 := by
    rw [← pow_succ]
    congr 1
    have := (bits_le T.width).1
    omega
  unfold Represents min max at h
  rw [toInt, ofInt]
  split_ifs at h ⊢
  · rw [BitVec.toNat_ofInt]
    have hmod : i % 2 ^ T.width.bits = i := Int.emod_eq_of_lt h.1 (by omega)
    push_cast
    omega
  · rw [BitVec.toInt_ofInt]
    apply Int.bmod_eq_of_le
    · push_cast
      omega
    · push_cast
      omega

theorem min_nonpos : T.min ≤ 0 := by
  have hpow : (0 : ℤ) < 2 ^ (T.width.bits - 1) := by positivity
  unfold min
  split_ifs
  · omega
  · omega

/-- The types in between hold the limits of every type. -/
theorem represents_limits : uint64.Represents T.max ∧
    (T.isUnsigned = false → int64.Represents T.min ∧ int64.Represents T.max) := by
  have hpow : (2 : ℤ) ^ (T.width.bits - 1) ≤ 2 ^ 63 ∧ (2 : ℤ) ^ T.width.bits ≤ 2 ^ 64 ∧
      (1 : ℤ) ≤ 2 ^ (T.width.bits - 1) ∧ (1 : ℤ) ≤ 2 ^ T.width.bits := by
    cases T.width <;> decide
  have hmax : T.max = if T.isUnsigned then 2 ^ T.width.bits - 1 else 2 ^ (T.width.bits - 1) - 1 :=
    rfl
  have hmin : T.min = if T.isUnsigned then 0 else -2 ^ (T.width.bits - 1) := rfl
  have hunsigned : uint64.min = 0 ∧ uint64.max = 2 ^ 64 - 1 := ⟨rfl, rfl⟩
  have hsigned : int64.min = -2 ^ 63 ∧ int64.max = 2 ^ 63 - 1 := ⟨rfl, rfl⟩
  unfold Represents
  rw [hunsigned.1, hunsigned.2, hsigned.1, hsigned.2, hmax, hmin]
  constructor
  · split_ifs
    · omega
    · omega
  · intro hu
    simp only [hu, Bool.false_eq_true, if_false]
    omega

/-! ## Casts that keep the value -/

/-- Why a decode by casts stops: the exception, or a cast to a type without the value. -/
inductive Stop
  | throws (e : CodecError)
  | badCast
  deriving DecidableEq, Repr

/-- `static_cast<T>` of a number, where it keeps the value. -/
def staticCast (value : Option ℚ) : Except Stop T.Value :=
  match value with
  | some q => if q.den = 1 ∧ T.Represents q.num then .ok (T.ofInt q.num) else .error .badCast
  | none => .error .badCast

@[simp] theorem staticCast_intCast {i : ℤ} (h : T.Represents i) :
    T.staticCast (some (i : ℚ)) = .ok (T.ofInt i) := by
  simp [staticCast, h]

/-- The part of the decoder that goes through `uint64_t`. -/
def fromUnsignedByCasts (j : Json) (path : Bytes) : Except Stop T.Value := do
  let u ← uint64.staticCast j.numberValue
  let max ← uint64.staticCast (some (T.max : ℚ))
  if uint64.toInt max < uint64.toInt u then
    .error (.throws (Codec.typeError path
      (if T.isUnsigned then "unsigned integer in range" else "signed integer in range") j))
  else T.staticCast (some (uint64.toInt u : ℚ))

/-- The part that goes through `int64_t`. -/
def fromSignedByCasts (j : Json) (path : Bytes) : Except Stop T.Value := do
  let i ← int64.staticCast j.numberValue
  let min ← int64.staticCast (some (T.min : ℚ))
  let max ← int64.staticCast (some (T.max : ℚ))
  if int64.toInt i < int64.toInt min ∨ int64.toInt max < int64.toInt i then
    .error (.throws (Codec.typeError path "signed integer in range" j))
  else T.staticCast (some (int64.toInt i : ℚ))

/-- The decoder of an integral type, cast by cast. -/
def fromJsonByCasts (j : Json) (path : Bytes) : Except Stop T.Value :=
  match j with
  | .numberFloat d =>
    if ¬ d.isWhole then .error (.throws (Codec.typeError path "integer" j))
    else if T.isUnsigned ∧ (d.toInt < 0 ∨ 2 ^ 64 ≤ d.toInt ∨ ¬ d.IsFinite) then
      .error (.throws (Codec.typeError path "unsigned integer in range" j))
    else if ¬ T.isUnsigned ∧ (d.toInt < -2 ^ 63 ∨ 2 ^ 63 ≤ d.toInt ∨ ¬ d.IsFinite) then
      .error (.throws (Codec.typeError path "signed integer in range" j))
    else if d.toInt < T.min ∨ T.max < d.toInt then
      .error (.throws (Codec.typeError path "integer in range" j))
    else T.staticCast j.numberValue
  | .numberUnsigned _ => T.fromUnsignedByCasts j path
  | .numberInteger _ =>
    if T.isUnsigned then do
      let i ← int64.staticCast j.numberValue
      if int64.toInt i < 0 then .error (.throws (Codec.typeError path "unsigned integer" j))
      else T.fromUnsignedByCasts j path
    else T.fromSignedByCasts j path
  | j => .error (.throws (Codec.typeError path "integer" j))

/-! ## No cast fails -/

theorem fromUnsignedByCasts_eq {j : Json} {i : ℤ} (hj : j.numberValue = some (i : ℚ))
    (hi : uint64.Represents i) (path : Bytes) : T.fromUnsignedByCasts j path =
      if T.max < i then
        .error (.throws (Codec.typeError path
          (if T.isUnsigned then "unsigned integer in range" else "signed integer in range") j))
      else .ok (T.ofInt i) := by
  have hmax := (represents_limits T).1
  have hmin := min_nonpos T
  have hnonneg : 0 ≤ i := hi.1
  simp only [fromUnsignedByCasts, hj, staticCast_intCast, hi, hmax, ok_bind, toInt_ofInt]
  by_cases hlarge : T.max < i
  · rw [if_pos hlarge, if_pos hlarge]
  · have hrepresents : T.Represents i := ⟨by omega, by omega⟩
    rw [if_neg hlarge, if_neg hlarge, staticCast_intCast T hrepresents]

theorem fromSignedByCasts_eq {j : Json} {i : ℤ} (hu : T.isUnsigned = false)
    (hj : j.numberValue = some (i : ℚ)) (hi : int64.Represents i) (path : Bytes) :
    T.fromSignedByCasts j path =
      if i < T.min ∨ T.max < i then
        .error (.throws (Codec.typeError path "signed integer in range" j))
      else .ok (T.ofInt i) := by
  obtain ⟨hmin, hmax⟩ := (represents_limits T).2 hu
  simp only [fromSignedByCasts, hj, staticCast_intCast, hi, hmin, hmax, ok_bind, toInt_ofInt]
  by_cases houtside : i < T.min ∨ T.max < i
  · rw [if_pos houtside, if_pos houtside]
  · have hrepresents : T.Represents i := ⟨by omega, by omega⟩
    rw [if_neg houtside, if_neg houtside, staticCast_intCast T hrepresents]

/-- The value of a stored integer is one of its type. -/
theorem represents_integers (n : Int64) (u : UInt64) :
    int64.Represents n.toInt ∧ uint64.Represents u.toNat ∧
      (0 ≤ n.toInt → uint64.Represents n.toInt) := by
  have hlow := n.le_toInt
  have hhigh := n.toInt_lt
  have hlt := u.toNat_lt
  have hunsigned : uint64.min = 0 ∧ uint64.max = 2 ^ 64 - 1 := ⟨rfl, rfl⟩
  have hsigned : int64.min = -2 ^ 63 ∧ int64.max = 2 ^ 63 - 1 := ⟨rfl, rfl⟩
  unfold Represents
  rw [hunsigned.1, hunsigned.2, hsigned.1, hsigned.2]
  omega

/-- **Every cast of the decoder keeps the value**: it stops only with the exception it throws. -/
theorem fromJsonByCasts_eq (j : Json) (path : Bytes) :
    T.fromJsonByCasts j path = (T.fromJson j path).mapError .throws := by
  cases j with
  | numberFloat d =>
    simp only [fromJsonByCasts, fromJson, fromFloat]
    by_cases hwhole : ¬ d.isWhole
    · rw [if_pos hwhole, if_pos hwhole]
      rfl
    · rw [if_neg hwhole, if_neg hwhole]
      split_ifs with hunsigned hsigned hrange
      · rfl
      · rfl
      · rfl
      · -- Only a finite double is left: an infinity is out of either range.
        have hfinite : d.IsFinite := by
          by_contra hinfinite
          by_cases hu : T.isUnsigned = true
          · exact hunsigned ⟨hu, .inr (.inr hinfinite)⟩
          · exact hsigned ⟨hu, .inr (.inr hinfinite)⟩
        have hvalue : (Json.numberFloat d).numberValue = some (d.toInt : ℚ) := by
          rw [Json.numberValue, if_pos hfinite]
          exact congrArg some ((Double.toRat_eq_toInt_iff hfinite).mpr (not_not.mp hwhole))
        have hrepresents : T.Represents d.toInt := ⟨by omega, by omega⟩
        rw [hvalue, staticCast_intCast T hrepresents]
        rfl
  | numberUnsigned u =>
    have hu := (represents_integers 0 u).2.1
    simp only [fromJsonByCasts, fromJson]
    rw [fromUnsignedByCasts_eq T rfl hu]
    split_ifs <;> rfl
  | numberInteger n =>
    obtain ⟨hn, -, hnonneg⟩ := represents_integers n 0
    simp only [fromJsonByCasts, fromJson]
    cases hu : T.isUnsigned with
    | true =>
      have hneg : n < 0 ↔ n.toInt < 0 := Int64.lt_iff_toInt_lt
      simp only [if_true, Json.numberValue, staticCast_intCast int64 hn, ok_bind, toInt_ofInt _ hn,
        hneg]
      by_cases hlt : n.toInt < 0
      · rw [if_pos hlt, if_pos hlt]
        rfl
      · rw [if_neg hlt, if_neg hlt, fromUnsignedByCasts_eq T rfl (hnonneg (by omega)), hu,
          if_pos rfl]
        split_ifs <;> rfl
    | false =>
      simp only [Bool.false_eq_true, if_false]
      rw [fromSignedByCasts_eq T hu rfl hn]
      split_ifs <;> rfl
  | null | boolean b | string s | array items | object fields | binary b => rfl

/-! ## What is taken -/

/-- The integer that is cast to a value is the value. -/
theorem represents_and_ofInt_iff {i : ℤ} (v : T.Value) :
    T.Represents i ∧ T.ofInt i = v ↔ i = T.toInt v := by
  constructor
  · rintro ⟨hi, rfl⟩
    exact (toInt_ofInt T hi).symm
  · rintro rfl
    exact ⟨represents_toInt T v, ofInt_toInt T v⟩

/-- The checks before the cast of a double are those of the type. -/
theorem fromFloat_eq_ok_iff (d : Double) (path : Bytes) (v : T.Value) :
    T.fromFloat d path = .ok v ↔
      d.IsFinite ∧ d.isWhole = true ∧ T.Represents d.toInt ∧ T.ofInt d.toInt = v := by
  constructor
  · intro h
    unfold fromFloat at h
    simp only at h
    split_ifs at h with hwhole hunsigned hsigned hrange
    refine ⟨?_, hwhole, ⟨by omega, by omega⟩, Except.ok.inj h⟩
    by_contra hinfinite
    by_cases hu : T.isUnsigned = true
    · exact hunsigned ⟨hu, .inr (.inr hinfinite)⟩
    · exact hsigned ⟨hu, .inr (.inr hinfinite)⟩
  · rintro ⟨hfinite, hwhole, ⟨hlow, hhigh⟩, rfl⟩
    have hmin := min_nonpos T
    obtain ⟨⟨-, hunsigned⟩, hsigned⟩ := represents_limits T
    have hlimit : uint64.max = 2 ^ 64 - 1 := rfl
    unfold fromFloat
    simp only [hwhole, hfinite, not_true, if_false, or_false]
    rw [if_neg, if_neg, if_neg]
    · omega
    · rintro ⟨hu, hout⟩
      obtain ⟨⟨hlow', -⟩, -, hhigh'⟩ := hsigned (by simpa using hu)
      have hlimits : int64.min = -2 ^ 63 ∧ int64.max = 2 ^ 63 - 1 := ⟨rfl, rfl⟩
      omega
    · rintro ⟨hu, hout⟩
      have hzero : T.min = 0 := by rw [min, if_pos hu]
      omega

/-- So are those before the cast of an integer, whichever type it is stored as. -/
theorem fromJson_integer_eq_ok_iff {j : Json} {i : ℤ} (hj : j.integer? = some i) (path : Bytes)
    (v : T.Value) : T.fromJson j path = .ok v ↔ T.Represents i ∧ T.ofInt i = v := by
  have hmin := min_nonpos T
  have hrefused : ∀ e : CodecError, ¬ T.Represents i →
      ((.error e : Except CodecError T.Value) = .ok v ↔ T.Represents i ∧ T.ofInt i = v) :=
    fun e hout => iff_of_false (fun h => by cases h) fun h => hout h.1
  have htaken : T.Represents i →
      (Except.ok (T.ofInt i) = (.ok v : Except CodecError T.Value) ↔
        T.Represents i ∧ T.ofInt i = v) := by
    intro hin
    rw [Except.ok.injEq]
    exact (and_iff_right hin).symm
  cases j with
  | numberUnsigned u =>
    obtain rfl : (u.toNat : ℤ) = i := Option.some.inj hj
    rw [fromJson]
    by_cases hlarge : T.max < (u.toNat : ℤ)
    · rw [if_pos hlarge]
      exact hrefused _ fun hin => absurd hin.2 (by omega)
    · rw [if_neg hlarge]
      exact htaken ⟨by omega, by omega⟩
  | numberInteger n =>
    obtain rfl : n.toInt = i := Option.some.inj hj
    have hneg : n < 0 ↔ n.toInt < 0 := Int64.lt_iff_toInt_lt
    rw [fromJson]
    cases hu : T.isUnsigned with
    | true =>
      have hzero : T.min = 0 := by rw [min, if_pos hu]
      rw [if_pos rfl]
      by_cases hlt : n < 0
      · rw [if_pos hlt]
        rw [hneg] at hlt
        exact hrefused _ fun hin => absurd hin.1 (by omega)
      · rw [if_neg hlt]
        rw [hneg] at hlt
        by_cases hlarge : T.max < n.toInt
        · rw [if_pos hlarge]
          exact hrefused _ fun hin => absurd hin.2 (by omega)
        · rw [if_neg hlarge]
          exact htaken ⟨by omega, by omega⟩
    | false =>
      rw [if_neg Bool.false_ne_true]
      by_cases hout : n.toInt < T.min ∨ T.max < n.toInt
      · rw [if_pos hout]
        refine hrefused _ fun hin => ?_
        obtain ⟨hlow, hhigh⟩ := hin
        omega
      · rw [if_neg hout]
        exact htaken ⟨by omega, by omega⟩
  | null | boolean b | string s | array items | object fields | binary b | numberFloat d => cases hj

/-- **A number is decoded exactly as what it is worth.** -/
theorem fromJson_eq_ok_iff (j : Json) (path : Bytes) (v : T.Value) :
    T.fromJson j path = .ok v ↔ j.numberValue = some (T.toInt v : ℚ) := by
  cases j with
  | numberFloat d =>
    rw [fromJson, fromFloat_eq_ok_iff, Json.numberValue]
    by_cases hfinite : d.IsFinite
    · rw [if_pos hfinite, Option.some.injEq, Double.toRat_eq_intCast_iff hfinite,
        represents_and_ofInt_iff]
      simp [hfinite]
    · simp [hfinite]
  | numberUnsigned u =>
    rw [fromJson_integer_eq_ok_iff T rfl, represents_and_ofInt_iff, Json.numberValue,
      Option.some.injEq]
    exact_mod_cast Iff.rfl
  | numberInteger n =>
    rw [fromJson_integer_eq_ok_iff T rfl, represents_and_ofInt_iff, Json.numberValue,
      Option.some.injEq, Int.cast_inj]
  | null => simp [fromJson, Json.numberValue]
  | boolean b => simp [fromJson, Json.numberValue]
  | string s => simp [fromJson, Json.numberValue]
  | array items => simp [fromJson, Json.numberValue]
  | object fields => simp [fromJson, Json.numberValue]
  | binary b => simp [fromJson, Json.numberValue]

/-- **Integer decoding is exact.**  The decoder of an integral type takes the numbers, of any of
the three kinds, that are worth an integer of its range, and gives that integer.  It throws for
everything else, and no cast it makes on the way loses anything. -/
theorem fromJson_exact (j : Json) (path : Bytes) :
    (∀ v, T.fromJson j path = .ok v ↔ j.numberValue = some (T.toInt v : ℚ)) ∧
    (Succeeds (T.fromJson j path) ↔
      ∃ i : ℤ, j.numberValue = some (i : ℚ) ∧ T.min ≤ i ∧ i ≤ T.max) ∧
    T.fromJsonByCasts j path = (T.fromJson j path).mapError .throws := by
  refine ⟨fromJson_eq_ok_iff T j path, ?_, fromJsonByCasts_eq T j path⟩
  constructor
  · rintro ⟨v, hv⟩
    exact ⟨T.toInt v, (fromJson_eq_ok_iff T j path v).mp hv, represents_toInt T v⟩
  · rintro ⟨i, hi, hrange⟩
    refine ⟨T.ofInt i, (fromJson_eq_ok_iff T j path _).mpr ?_⟩
    rw [toInt_ofInt T hrange]
    exact hi

end Integral

end LogosProtocol
