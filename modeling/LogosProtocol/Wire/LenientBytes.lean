import LogosProtocol.Wire.Codec
import LogosProtocol.Wire.Numbers

/-!
# Arrays that are read as bytes

A provider takes an array for a byte argument: the integers in it, each cut down to its low byte.
What is not an integer is passed over, so the bytes may be fewer than the elements, and a byte may
be another number than the peer sent.

## Main definitions

* `LosesNothing` — one byte for each element, of the same value.

## Main results

* `losesNothing_iff` — the arrays of which this holds.
-/

namespace LogosProtocol

/-- The decode of an array throws, or gives exactly one byte for each element, which is worth what
the element is. -/
def LosesNothing (floatText : Double → Bytes) (items : List Json) (path : Bytes) : Prop :=
  (∃ e, bytesFromJsonLenient floatText (.array items) path = .error e) ∨
    ∃ bytes, bytesFromJsonLenient floatText (.array items) path = .ok bytes ∧
      List.Forall₂ (fun j (b : UInt8) => j.numberValue = some (b.toNat : ℚ)) items bytes

/-- An integer from 0 to 255. -/
def Json.IsByte (j : Json) : Prop := ∃ i, j.integer? = some i ∧ 0 ≤ i ∧ i ≤ 255

/-- A list is matched by what a filter takes of it only when the filter takes everything. -/
theorem forall₂_filterMap_iff {α β : Type} {r : α → β → Prop} {f : α → Option β} (l : List α) :
    List.Forall₂ r l (l.filterMap f) ↔ ∀ a ∈ l, ∃ b, f a = some b ∧ r a b := by
  induction l with
  | nil => simp
  | cons a l ih =>
    rw [List.forall_mem_cons, ← ih]
    cases h : f a with
    | none =>
      rw [List.filterMap_cons_none h]
      refine iff_of_false (fun hall => ?_) (by simp)
      have hlength := hall.length_eq
      have hle := List.length_filterMap_le f l
      rw [List.length_cons] at hlength
      omega
    | some b =>
      rw [List.filterMap_cons_some h, List.forall₂_cons]
      simp

/-- The low byte of an integer, of either kind. -/
theorem lowByte?_of_integer? {j : Json} {i : ℤ} (h : j.integer? = some i) :
    ∃ b, lowByte? j = some b ∧ (b.toNat : ℤ) = i % 256 := by
  cases j with
  | numberInteger n =>
    obtain rfl : n.toInt = i := Option.some.inj h
    refine ⟨_, rfl, ?_⟩
    have hint : n.toInt = Int.bmod n.toUInt64.toNat (2 ^ 64) :=
      BitVec.toInt_eq_toNat_bmod n.toBitVec
    rw [UInt64.toNat_toUInt8, hint, Int.bmod_def]
    split_ifs
    · omega
    · omega
  | numberUnsigned u =>
    obtain rfl : (u.toNat : ℤ) = i := Option.some.inj h
    refine ⟨_, rfl, ?_⟩
    rw [UInt64.toNat_toUInt8]
    omega
  | null | boolean b | string s | array items | object fields | binary b | numberFloat d => cases h

/-- Only integers have a low byte. -/
theorem integer?_of_lowByte? {j : Json} {b : UInt8} (h : lowByte? j = some b) :
    ∃ i : ℤ, j.integer? = some i ∧ j.numberValue = some (i : ℚ) := by
  cases j with
  | numberInteger n => exact ⟨n.toInt, rfl, rfl⟩
  | numberUnsigned u => exact ⟨u.toNat, rfl, by simp [Json.numberValue]⟩
  | null | boolean b | string s | array items | object fields | binary b | numberFloat d => cases h

/-- The low byte of an element is worth the element when it is a byte. -/
theorem lowByte?_exact_iff (j : Json) :
    (∃ b, lowByte? j = some b ∧ j.numberValue = some (b.toNat : ℚ)) ↔ j.IsByte := by
  constructor
  · rintro ⟨b, hlow, hvalue⟩
    obtain ⟨i, hi, hworth⟩ := integer?_of_lowByte? hlow
    have hlt := b.toNat_lt
    have hb : i = b.toNat := by
      rw [hworth, Option.some.injEq] at hvalue
      exact_mod_cast hvalue
    exact ⟨i, hi, by omega, by omega⟩
  · rintro ⟨i, hi, hnonneg, hle⟩
    obtain ⟨b, hlow, hb⟩ := lowByte?_of_integer? hi
    obtain ⟨i', hi', hworth⟩ := integer?_of_lowByte? hlow
    obtain rfl : i = i' := Option.some.inj (hi.symm.trans hi')
    have heq : (b.toNat : ℤ) = i := by omega
    refine ⟨b, hlow, ?_⟩
    rw [hworth, ← heq, Int.cast_natCast]

/-- **An array loses nothing exactly when its elements are bytes.** -/
theorem losesNothing_iff (floatText : Double → Bytes) (items : List Json) (path : Bytes) :
    LosesNothing floatText items path ↔ ∀ j ∈ items, j.IsByte := by
  have hread : bytesFromJsonLenient floatText (.array items) path =
      .ok (items.filterMap lowByte?) := rfl
  unfold LosesNothing
  rw [hread]
  simp only [reduceCtorEq, exists_false, false_or, Except.ok.injEq, exists_eq_left']
  rw [forall₂_filterMap_iff]
  exact forall₂_congr fun j _ => lowByte?_exact_iff j

/-- An element above 255 is cut down, and one that is no integer is passed over. -/
theorem bytes_lost :
    (bytesFromJsonLenient (fun _ => []) (.array [.numberUnsigned 256]) [] = .ok [0] ∧
      ¬ LosesNothing (fun _ => []) [.numberUnsigned 256] []) ∧
    (bytesFromJsonLenient (fun _ => []) (.array [.numberUnsigned 7, .null]) [] = .ok [7] ∧
      ¬ LosesNothing (fun _ => []) [.numberUnsigned 7, .null] []) := by
  have hcut : bytesFromJsonLenient (fun _ => []) (.array [.numberUnsigned 256]) [] = .ok [0] := rfl
  have hpassed :
      bytesFromJsonLenient (fun _ => []) (.array [.numberUnsigned 7, .null]) [] = .ok [7] := rfl
  refine ⟨⟨hcut, ?_⟩, ⟨hpassed, ?_⟩⟩
  · rintro (⟨e, he⟩ | ⟨bytes, hbytes, hall⟩)
    · rw [hcut] at he
      cases he
    · rw [hcut] at hbytes
      obtain rfl := Except.ok.inj hbytes
      have hvalue : ((256 : ℕ) : ℚ) = ((0 : ℕ) : ℚ) :=
        Option.some.inj (List.forall₂_cons.mp hall).1
      norm_num at hvalue
  · rintro (⟨e, he⟩ | ⟨bytes, hbytes, hall⟩)
    · rw [hpassed] at he
      cases he
    · rw [hpassed] at hbytes
      obtain rfl := Except.ok.inj hbytes
      cases hall.length_eq

end LogosProtocol
