import Mathlib.Data.List.Basic
import Mathlib.Data.Nat.Bitwise

/-!
# Branch-free comparison and selection

The two idioms of code that must not branch on a secret: comparing two byte strings by
folding the differences of all positions into one word, and choosing between two bytes
with a mask.

## Main definitions

* `foldDiff a b` — the word that collects the length difference and every byte
  difference; it is zero exactly when the strings are equal.
* `maskOf bit`, `select m x y` — `y` under the full mask, `x` under the empty one.
-/

namespace LogosProtocol.ConstantTime

/-! ## Comparison -/

/-- OR together the XOR of the lengths and the XOR of the bytes at every position of the
longer string, the shorter one being padded with zeros. -/
def foldDiff (a b : List UInt8) : ℕ :=
  (List.range (max a.length b.length)).foldl
    (fun diff i => diff ||| ((a.getD i 0) ^^^ (b.getD i 0)).toNat) (a.length ^^^ b.length)

theorem foldl_or_eq_zero {α : Type} (f : α → ℕ) (l : List α) (d : ℕ) :
    l.foldl (fun diff i => diff ||| f i) d = 0 ↔ d = 0 ∧ ∀ i ∈ l, f i = 0 := by
  induction l generalizing d with
  | nil => simp
  | cons x l ih =>
    rw [List.foldl_cons, ih, Nat.or_eq_zero_iff]
    simp [and_assoc]

/-- **The fold is zero exactly on equal strings.** -/
theorem foldDiff_eq_zero_iff (a b : List UInt8) : foldDiff a b = 0 ↔ a = b := by
  rw [foldDiff, foldl_or_eq_zero, Nat.xor_eq_zero_iff]
  constructor
  · rintro ⟨hlen, hbytes⟩
    refine List.ext_getElem hlen fun i hi hi' => ?_
    have h := hbytes i (List.mem_range.mpr (hi.trans_le (Nat.le_max_left ..)))
    rw [List.getD_eq_getElem a 0 hi, List.getD_eq_getElem b 0 hi'] at h
    have h0 : a[i] ^^^ b[i] = 0 := UInt8.toNat_inj.mp h
    exact UInt8.xor_eq_zero_iff.mp h0
  · rintro rfl
    simp

/-! ## Selection -/

/-- `-(bit & 1)`, cut to a byte: `0x00` or `0xFF`. -/
def maskOf (bit : UInt32) : UInt8 := (0 - (bit &&& 1)).toUInt8

/-- `(x & ~m) | (y & m)`. -/
def select (m x y : UInt8) : UInt8 := (x &&& ~~~m) ||| (y &&& m)

@[simp] theorem maskOf_zero : maskOf 0 = 0 := by decide
@[simp] theorem maskOf_one : maskOf 1 = 0xFF := by decide

@[simp] theorem select_none (x y : UInt8) : select 0 x y = x := by
  simp [select]

@[simp] theorem select_all (x y : UInt8) : select 0xFF x y = y := by
  have hm : ~~~(0xFF : UInt8) = 0 := by decide
  have hone : (0xFF : UInt8) = -1 := by decide
  rw [select, hm, hone]
  simp

end LogosProtocol.ConstantTime
