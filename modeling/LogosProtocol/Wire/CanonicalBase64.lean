import LogosProtocol.Wire.Base64Url

/-!
# Canonical base64url

The texts the encoder writes, told by their characters alone: all in the alphabet, a length
that an encoding has, and zero bits after the last byte.

## Main definitions

* `isCanonicalBase64` — the test.

## Main results

* `isCanonicalBase64_iff` — the texts that pass are the encodings.
-/

namespace LogosProtocol

/-- A character of the alphabet whose value has its low `k` bits clear. -/
def endsClear (k : ℕ) (ch : UInt8) : Bool :=
  match b64Index ch with
  | some v => v.toNat % 2 ^ k = 0
  | none => false

/-- Canonical unpadded base64url. -/
def isCanonicalBase64 : Bytes → Bool
  | c₀ :: c₁ :: c₂ :: c₃ :: rest =>
    endsClear 0 c₀ && endsClear 0 c₁ && endsClear 0 c₂ && endsClear 0 c₃ && isCanonicalBase64 rest
  | [c₀, c₁, c₂] => endsClear 0 c₀ && endsClear 0 c₁ && endsClear 2 c₂
  | [c₀, c₁] => endsClear 0 c₀ && endsClear 4 c₁
  | [_] => false
  | [] => true

theorem endsClear_iff (k : ℕ) (ch : UInt8) :
    endsClear k ch = true ↔ ∃ v, b64Index ch = some v ∧ v.toNat % 2 ^ k = 0 := by
  simp only [endsClear]
  cases b64Index ch with
  | none => simp
  | some v => simp

/-! ## A character and its value -/

/-- A character with a value stands at that place in the alphabet. -/
def isAtItsPlace (ch : UInt8) : Bool :=
  (b64Index ch).all fun v => v.toNat < 64 && b64Alphabet.getD v.toNat 0 == ch

theorem isAtItsPlace_toUInt8 : ∀ c < 256, isAtItsPlace c.toUInt8 = true := by
  decide +kernel

theorem alphabet_b64Index {ch : UInt8} {v : UInt32} (h : b64Index ch = some v) :
    v.toNat < 64 ∧ b64Alphabet.getD v.toNat 0 = ch := by
  have hch : ch.toNat.toUInt8 = ch := by rw [Nat.toUInt8_eq, UInt8.ofNat_toNat]
  have hplace := isAtItsPlace_toUInt8 ch.toNat ch.toNat_lt
  rw [hch, isAtItsPlace, h] at hplace
  simpa using hplace

/-- The encoder writes the character with the value it has to write. -/
theorem b64Char_of_index {ch : UInt8} {v n : UInt32} (h : b64Index ch = some v)
    (hn : n.toNat % 64 = v.toNat) : b64Char n = ch := by
  rw [b64Char, toNat_six, hn, (alphabet_b64Index h).2]

theorem toNat_lt_of_b64Index {ch : UInt8} {v : UInt32} (h : b64Index ch = some v) :
    v.toNat < 64 := (alphabet_b64Index h).1

/-! ## The texts of the encoder -/

/-- The byte with a value below 256. -/
theorem exists_byte {n : ℕ} (h : n < 256) : ∃ b : UInt8, b.toNat = n :=
  ⟨UInt8.ofNat n, UInt8.toNat_ofNat_of_lt' h⟩

/-- The six-bit parts of a group are shifted down to the low bits. -/
theorem toNat_shifts (n : UInt32) : (n >>> 18).toNat = n.toNat / 2 ^ 18 ∧
    (n >>> 12).toNat = n.toNat / 2 ^ 12 ∧ (n >>> 6).toNat = n.toNat / 2 ^ 6 := by
  simp [UInt32.toNat_shiftRight, Nat.shiftRight_eq_div_pow]

/-- A canonical text is an encoding. -/
theorem exists_encode_of_isCanonicalBase64 {s : Bytes} (h : isCanonicalBase64 s = true) :
    ∃ bytes, s = b64UrlEncode bytes := by
  induction s using isCanonicalBase64.induct with
  | case1 c₀ c₁ c₂ c₃ rest ih =>
    simp only [isCanonicalBase64, Bool.and_eq_true, endsClear_iff] at h
    obtain ⟨⟨⟨⟨⟨v₀, e₀, -⟩, ⟨v₁, e₁, -⟩⟩, ⟨v₂, e₂, -⟩⟩, ⟨v₃, e₃, -⟩⟩, hrest⟩ := h
    have k₀ := toNat_lt_of_b64Index e₀
    have k₁ := toNat_lt_of_b64Index e₁
    have k₂ := toNat_lt_of_b64Index e₂
    have k₃ := toNat_lt_of_b64Index e₃
    obtain ⟨bytes, rfl⟩ := ih hrest
    obtain ⟨b₀, h₀⟩ := exists_byte (n := v₀.toNat * 4 + v₁.toNat / 16) (by omega)
    obtain ⟨b₁, h₁⟩ := exists_byte (n := v₁.toNat % 16 * 16 + v₂.toNat / 4) (by omega)
    obtain ⟨b₂, h₂⟩ := exists_byte (n := v₂.toNat % 4 * 64 + v₃.toNat) (by omega)
    have hn := toNat_group b₀ b₁ b₂
    refine ⟨b₀ :: b₁ :: b₂ :: bytes, ?_⟩
    simp only [b64UrlEncode]
    generalize (b₀.toUInt32 <<< 16) ||| (b₁.toUInt32 <<< 8) ||| b₂.toUInt32 = n at hn
    obtain ⟨s₀, s₁, s₂⟩ := toNat_shifts n
    rw [b64Char_of_index e₀ (by omega), b64Char_of_index e₁ (by omega),
      b64Char_of_index e₂ (by omega), b64Char_of_index e₃ (by omega)]
  | case2 c₀ c₁ c₂ =>
    simp only [isCanonicalBase64, Bool.and_eq_true, endsClear_iff] at h
    obtain ⟨⟨⟨v₀, e₀, -⟩, ⟨v₁, e₁, -⟩⟩, ⟨v₂, e₂, hclear⟩⟩ := h
    have k₀ := toNat_lt_of_b64Index e₀
    have k₁ := toNat_lt_of_b64Index e₁
    have k₂ := toNat_lt_of_b64Index e₂
    obtain ⟨b₀, h₀⟩ := exists_byte (n := v₀.toNat * 4 + v₁.toNat / 16) (by omega)
    obtain ⟨b₁, h₁⟩ := exists_byte (n := v₁.toNat % 16 * 16 + v₂.toNat / 4) (by omega)
    have hn := toNat_group_two b₀ b₁
    refine ⟨[b₀, b₁], ?_⟩
    simp only [b64UrlEncode]
    generalize (b₀.toUInt32 <<< 16) ||| (b₁.toUInt32 <<< 8) = n at hn
    obtain ⟨s₀, s₁, s₂⟩ := toNat_shifts n
    rw [b64Char_of_index e₀ (by omega), b64Char_of_index e₁ (by omega),
      b64Char_of_index e₂ (by omega)]
  | case3 c₀ c₁ =>
    simp only [isCanonicalBase64, Bool.and_eq_true, endsClear_iff] at h
    obtain ⟨⟨v₀, e₀, -⟩, ⟨v₁, e₁, hclear⟩⟩ := h
    have k₀ := toNat_lt_of_b64Index e₀
    have k₁ := toNat_lt_of_b64Index e₁
    obtain ⟨b₀, h₀⟩ := exists_byte (n := v₀.toNat * 4 + v₁.toNat / 16) (by omega)
    have hn := toNat_group_one b₀
    refine ⟨[b₀], ?_⟩
    simp only [b64UrlEncode]
    generalize b₀.toUInt32 <<< 16 = n at hn
    obtain ⟨s₀, s₁, s₂⟩ := toNat_shifts n
    rw [b64Char_of_index e₀ (by omega), b64Char_of_index e₁ (by omega)]
  | case4 c => cases h
  | case5 => exact ⟨[], rfl⟩

theorem endsClear_b64Char {k : ℕ} {n : UInt32} (h : n.toNat % 64 % 2 ^ k = 0) :
    endsClear k (b64Char n) = true := by
  rw [endsClear_iff]
  exact ⟨n &&& 0x3f, b64Index_b64Char n, by rw [toNat_six]; exact h⟩

/-- An encoding is canonical. -/
theorem isCanonicalBase64_encode (bytes : Bytes) :
    isCanonicalBase64 (b64UrlEncode bytes) = true := by
  have hany : ∀ n : UInt32, endsClear 0 (b64Char n) = true := fun n =>
    endsClear_b64Char (Nat.mod_one _)
  induction bytes using b64UrlEncode.induct with
  | case1 b₀ b₁ b₂ rest ih => simp only [b64UrlEncode, isCanonicalBase64, hany, ih, Bool.and_self]
  | case2 b₀ b₁ =>
    have hn := toNat_group_two b₀ b₁
    simp only [b64UrlEncode, isCanonicalBase64, hany, Bool.true_and]
    generalize (b₀.toUInt32 <<< 16) ||| (b₁.toUInt32 <<< 8) = n at hn
    obtain ⟨-, -, s₂⟩ := toNat_shifts n
    exact endsClear_b64Char (by omega)
  | case3 b₀ =>
    have hn := toNat_group_one b₀
    simp only [b64UrlEncode, isCanonicalBase64, hany, Bool.true_and]
    generalize b₀.toUInt32 <<< 16 = n at hn
    obtain ⟨-, s₁, -⟩ := toNat_shifts n
    exact endsClear_b64Char (by omega)
  | case4 => rfl

/-- **The canonical texts are the encodings.** -/
theorem isCanonicalBase64_iff (s : Bytes) :
    isCanonicalBase64 s = true ↔ ∃ bytes, s = b64UrlEncode bytes := by
  constructor
  · exact exists_encode_of_isCanonicalBase64
  · rintro ⟨bytes, rfl⟩
    exact isCanonicalBase64_encode bytes

/-- A canonical text is ASCII. -/
theorem toNat_lt_of_isCanonicalBase64 {s : Bytes} (h : isCanonicalBase64 s = true) :
    ∀ b ∈ s, b.toNat < 0x80 := by
  obtain ⟨bytes, rfl⟩ := exists_encode_of_isCanonicalBase64 h
  intro b hb
  have hindex := b64Index_of_mem_encode bytes b hb
  by_contra hge
  have hnone : b64Index b = none := by
    simp only [b64Index]
    repeat rw [if_neg (by omega)]
  rw [hnone] at hindex
  cases hindex

end LogosProtocol
