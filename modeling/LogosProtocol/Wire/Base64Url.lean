import LogosProtocol.Qt
import Mathlib.Data.List.DropRight

/-!
# base64url, unpadded

The encoder walks the input in groups of three bytes.  The decoders push six bits at a
time into a 32-bit accumulator that is never masked: it wraps on long input, and only the
bits below the current position are ever read.

## Main definitions

* `b64UrlEncode` — the encoder.
* `b64UrlDecode` — the tolerant decoder, which skips what is not in the alphabet.
* `b64UrlDecodeChecked` — the strict decoder, which rejects it.
-/

namespace LogosProtocol

/-- A `std::string` literal of ASCII characters. -/
def bstr (s : String) : Bytes := s.toList.map fun c => c.toNat.toUInt8

/-- The alphabet of the encoding. -/
def b64Alphabet : Bytes :=
  bstr "ABCDEFGHIJKLMNOPQRSTUVWXYZabcdefghijklmnopqrstuvwxyz0123456789-_"

/-- The character for the low six bits of `n`. -/
def b64Char (n : UInt32) : UInt8 := b64Alphabet.getD (n &&& 0x3f).toNat 0

def b64UrlEncode : Bytes → Bytes
  | b₀ :: b₁ :: b₂ :: rest =>
    let n := (b₀.toUInt32 <<< 16) ||| (b₁.toUInt32 <<< 8) ||| b₂.toUInt32
    b64Char (n >>> 18) :: b64Char (n >>> 12) :: b64Char (n >>> 6) :: b64Char n ::
      b64UrlEncode rest
  | [b₀, b₁] =>
    let n := (b₀.toUInt32 <<< 16) ||| (b₁.toUInt32 <<< 8)
    [b64Char (n >>> 18), b64Char (n >>> 12), b64Char (n >>> 6)]
  | [b₀] =>
    let n := b₀.toUInt32 <<< 16
    [b64Char (n >>> 18), b64Char (n >>> 12)]
  | [] => []

/-- The value of a character, or none for one outside the alphabet. -/
def b64Index (ch : UInt8) : Option UInt32 :=
  let c := ch.toNat
  if 65 ≤ c ∧ c ≤ 90 then some (c - 65).toUInt32
  else if 97 ≤ c ∧ c ≤ 122 then some (c - 97 + 26).toUInt32
  else if 48 ≤ c ∧ c ≤ 57 then some (c - 48 + 52).toUInt32
  else if c = 45 then some 62
  else if c = 95 then some 63
  else none

/-- The decoder's accumulator, the number of bits not yet emitted, and the output. -/
structure B64State where
  buf : UInt32 := 0
  bits : ℕ := 0
  out : Bytes := []

/-- Push six bits, and emit a byte once there are eight. -/
def B64State.push (s : B64State) (v : UInt32) : B64State :=
  let buf := (s.buf <<< 6) ||| v
  let bits := s.bits + 6
  if 8 ≤ bits then
    { buf, bits := bits - 8, out := s.out ++ [((buf >>> (bits - 8).toUInt32) &&& 0xff).toUInt8] }
  else { buf, bits, out := s.out }

/-- Decode, skipping every character outside the alphabet. -/
def b64UrlDecode (input : Bytes) : Bytes :=
  (input.foldl (fun s ch =>
    match b64Index ch with
    | some v => s.push v
    | none => s) ({} : B64State)).out

/-- The strict loop: a character outside the alphabet ends it. -/
def b64CheckedLoop : B64State → Bytes → Option Bytes
  | s, [] => some s.out
  | s, ch :: rest =>
    match b64Index ch with
    | some v => b64CheckedLoop (s.push v) rest
    | none => none

/-- Decode strictly: trailing padding is dropped, then a length that no encoding has and
any character outside the alphabet are rejected. -/
def b64UrlDecodeChecked (input : Bytes) : Option Bytes :=
  let body := input.rdropWhile (· == 61)
  if body.length % 4 = 1 then none else b64CheckedLoop {} body

/-! ## Characters of the alphabet -/

theorem b64Index_alphabet : ∀ i < 64, b64Index (b64Alphabet.getD i 0) = some i.toUInt32 := by
  decide +kernel

theorem toNat_six (n : UInt32) : (n &&& 0x3f).toNat = n.toNat % 64 := by
  have hmask : (0x3f : UInt32).toNat = 2 ^ 6 - 1 := rfl
  rw [UInt32.toNat_and, hmask, Nat.and_two_pow_sub_one_eq_mod]

/-- A character of the encoding stands for its six bits. -/
@[simp] theorem b64Index_b64Char (n : UInt32) : b64Index (b64Char n) = some (n &&& 0x3f) := by
  have hlt : (n &&& 0x3f).toNat < 64 := by
    rw [toNat_six]
    omega
  rw [b64Char, b64Index_alphabet _ hlt, Nat.toUInt32_eq, UInt32.ofNat_toNat]

/-! ## One push, as arithmetic -/

/-- The accumulator after a push: six bits in, the top six bits lost. -/
theorem toNat_push_buf (s : B64State) {v : UInt32} (hv : v.toNat < 64) :
    ((s.buf <<< 6) ||| v).toNat = 64 * (s.buf.toNat % 2 ^ 26) + v.toNat := by
  have h6 : (6 : UInt32).toNat % 32 = 6 := rfl
  have hshift : s.buf.toNat * 2 ^ 6 % 2 ^ 32 = 2 ^ 6 * (s.buf.toNat % 2 ^ 26) := by omega
  rw [UInt32.toNat_or, UInt32.toNat_shiftLeft, h6, Nat.shiftLeft_eq, hshift,
    ← Nat.two_pow_add_eq_or_of_lt (by omega)]

theorem toNat_emitted (buf : UInt32) {k : ℕ} (hk : k < 32) :
    ((buf >>> k.toUInt32) &&& 0xff).toUInt8.toNat = buf.toNat / 2 ^ k % 256 := by
  have hmask : (0xff : UInt32).toNat = 2 ^ 8 - 1 := rfl
  have hkk : k.toUInt32.toNat = k := by
    rw [Nat.toUInt32_eq, UInt32.toNat_ofNat']
    omega
  rw [UInt32.toNat_toUInt8, UInt32.toNat_and, UInt32.toNat_shiftRight, hkk, hmask,
    Nat.and_two_pow_sub_one_eq_mod, Nat.mod_eq_of_lt hk, Nat.shiftRight_eq_div_pow]
  omega

/-- A push at position 0 completes no byte; the three other positions emit one. -/
theorem push_zero (buf : UInt32) (out : Bytes) (v : UInt32) :
    (⟨buf, 0, out⟩ : B64State).push v = ⟨(buf <<< 6) ||| v, 6, out⟩ := rfl

theorem push_emits {k : ℕ} (hk : k < 6) (buf : UInt32) (out : Bytes) (v : UInt32)
    {b : UInt8} (hb : b.toNat = ((buf <<< 6) ||| v).toNat / 2 ^ k % 256) :
    (⟨buf, k + 2, out⟩ : B64State).push v = ⟨(buf <<< 6) ||| v, k, out ++ [b]⟩ := by
  have hle : 8 ≤ k + 2 + 6 := by omega
  have hsub : k + 2 + 6 - 8 = k := by omega
  have hbyte : ((((buf <<< 6) ||| v) >>> k.toUInt32) &&& 0xff).toUInt8 = b := by
    apply UInt8.toNat_inj.mp
    rw [toNat_emitted _ (by omega), hb]
  simp only [B64State.push, hle, if_true, hsub, hbyte]

/-- Two pushes at position 0 emit one byte. -/
theorem push_two (b₀ : UInt8) (buf : UInt32) (out : Bytes) {v₀ v₁ : UInt32} (h₀ : v₀.toNat < 64)
    (h₁ : v₁.toNat < 64) (hb₀ : b₀.toNat = v₀.toNat * 4 + v₁.toNat / 16) :
    ∃ buf', ((⟨buf, 0, out⟩ : B64State).push v₀).push v₁ = ⟨buf', 4, out ++ [b₀]⟩ ∧
      buf'.toNat % 64 = v₁.toNat := by
  have e₀ : ((buf <<< 6) ||| v₀).toNat = 64 * (buf.toNat % 2 ^ 26) + v₀.toNat :=
    toNat_push_buf ⟨buf, 0, out⟩ h₀
  have e₁ : ((((buf <<< 6) ||| v₀) <<< 6) ||| v₁).toNat =
      64 * (((buf <<< 6) ||| v₀).toNat % 2 ^ 26) + v₁.toNat :=
    toNat_push_buf ⟨(buf <<< 6) ||| v₀, 6, out⟩ h₁
  refine ⟨(((buf <<< 6) ||| v₀) <<< 6) ||| v₁, ?_, by omega⟩
  rw [push_zero]
  exact push_emits (by omega) _ out v₁ (by omega)

/-- A third push emits a second byte. -/
theorem push_third (b₁ : UInt8) {buf : UInt32} (out : Bytes) {v₁ v₂ : UInt32}
    (hbuf : buf.toNat % 64 = v₁.toNat) (h₂ : v₂.toNat < 64)
    (hb₁ : b₁.toNat = v₁.toNat % 16 * 16 + v₂.toNat / 4) :
    ∃ buf', (⟨buf, 4, out⟩ : B64State).push v₂ = ⟨buf', 2, out ++ [b₁]⟩ ∧
      buf'.toNat % 64 = v₂.toNat := by
  have e : ((buf <<< 6) ||| v₂).toNat = 64 * (buf.toNat % 2 ^ 26) + v₂.toNat :=
    toNat_push_buf ⟨buf, 4, out⟩ h₂
  exact ⟨(buf <<< 6) ||| v₂, push_emits (by omega) _ out v₂ (by omega), by omega⟩

/-- A fourth push emits a third byte and is back at position 0. -/
theorem push_fourth (b₂ : UInt8) {buf : UInt32} (out : Bytes) {v₂ v₃ : UInt32}
    (hbuf : buf.toNat % 64 = v₂.toNat) (h₃ : v₃.toNat < 64)
    (hb₂ : b₂.toNat = v₂.toNat % 4 * 64 + v₃.toNat) :
    ∃ buf', (⟨buf, 2, out⟩ : B64State).push v₃ = ⟨buf', 0, out ++ [b₂]⟩ := by
  have e : ((buf <<< 6) ||| v₃).toNat = 64 * (buf.toNat % 2 ^ 26) + v₃.toNat :=
    toNat_push_buf ⟨buf, 2, out⟩ h₃
  exact ⟨(buf <<< 6) ||| v₃, push_emits (by omega) _ out v₃ (by omega)⟩

/-! ## Groups of the encoder -/

theorem toNat_shift_six (n k : UInt32) (hk : k.toNat < 32) :
    ((n >>> k) &&& 0x3f).toNat = n.toNat / 2 ^ k.toNat % 64 := by
  rw [toNat_six, UInt32.toNat_shiftRight, Nat.mod_eq_of_lt hk, Nat.shiftRight_eq_div_pow]

/-- Three bytes of disjoint positions, as a sum. -/
theorem toNat_group (b₀ b₁ b₂ : UInt8) :
    ((b₀.toUInt32 <<< 16) ||| (b₁.toUInt32 <<< 8) ||| b₂.toUInt32).toNat =
      2 ^ 16 * b₀.toNat + (2 ^ 8 * b₁.toNat + b₂.toNat) := by
  have h₀ := b₀.toNat_lt
  have h₁ := b₁.toNat_lt
  have h₂ := b₂.toNat_lt
  have h8 : (8 : UInt32).toNat % 32 = 8 := rfl
  have h16 : (16 : UInt32).toNat % 32 = 16 := rfl
  simp only [UInt32.toNat_or, UInt32.toNat_shiftLeft, UInt8.toNat_toUInt32, Nat.shiftLeft_eq,
    Nat.or_assoc, h8, h16]
  rw [Nat.mod_eq_of_lt (by omega), Nat.mod_eq_of_lt (by omega), Nat.mul_comm b₀.toNat,
    Nat.mul_comm b₁.toNat, ← Nat.two_pow_add_eq_or_of_lt (by omega) b₁.toNat,
    ← Nat.two_pow_add_eq_or_of_lt (by omega) b₀.toNat]

theorem toNat_group_two (b₀ b₁ : UInt8) :
    ((b₀.toUInt32 <<< 16) ||| (b₁.toUInt32 <<< 8)).toNat = 2 ^ 16 * b₀.toNat + 2 ^ 8 * b₁.toNat := by
  have hgroup := toNat_group b₀ b₁ 0
  have hzero : (b₀.toUInt32 <<< 16) ||| (b₁.toUInt32 <<< 8) ||| (0 : UInt8).toUInt32 =
      (b₀.toUInt32 <<< 16) ||| (b₁.toUInt32 <<< 8) := UInt32.or_zero
  rw [hzero] at hgroup
  exact hgroup

theorem toNat_group_one (b₀ : UInt8) : (b₀.toUInt32 <<< 16).toNat = 2 ^ 16 * b₀.toNat := by
  have hgroup := toNat_group_two b₀ 0
  have hzero : (b₀.toUInt32 <<< 16) ||| ((0 : UInt8).toUInt32 <<< 8) = b₀.toUInt32 <<< 16 := by
    simp
  rw [hzero] at hgroup
  exact hgroup

theorem toNat_six_lt (n : UInt32) : (n &&& 0x3f).toNat < 64 := by
  rw [toNat_six]
  omega

/-- The four six-bit parts of a group, as arithmetic on its value. -/
theorem toNat_parts (n : UInt32) :
    ((n >>> 18) &&& 0x3f).toNat = n.toNat / 2 ^ 18 % 64 ∧
      ((n >>> 12) &&& 0x3f).toNat = n.toNat / 2 ^ 12 % 64 ∧
      ((n >>> 6) &&& 0x3f).toNat = n.toNat / 2 ^ 6 % 64 ∧ (n &&& 0x3f).toNat = n.toNat % 64 :=
  ⟨toNat_shift_six n 18 (by decide), toNat_shift_six n 12 (by decide),
    toNat_shift_six n 6 (by decide), toNat_six n⟩

/-- **The strict loop inverts the encoder**, whatever the accumulator held before. -/
theorem b64CheckedLoop_encode (bytes : Bytes) (buf : UInt32) (out : Bytes) :
    b64CheckedLoop ⟨buf, 0, out⟩ (b64UrlEncode bytes) = some (out ++ bytes) := by
  induction bytes using b64UrlEncode.induct generalizing buf out with
  | case1 b₀ b₁ b₂ rest ih =>
    have hn := toNat_group b₀ b₁ b₂
    have k₀ := b₀.toNat_lt
    have k₁ := b₁.toNat_lt
    have k₂ := b₂.toNat_lt
    generalize hN : (b₀.toUInt32 <<< 16) ||| (b₁.toUInt32 <<< 8) ||| b₂.toUInt32 = n at hn
    obtain ⟨e₀, e₁, e₂, e₃⟩ := toNat_parts n
    obtain ⟨buf₁, hp₁, hb₁⟩ := push_two b₀ buf out (toNat_six_lt (n >>> 18))
      (toNat_six_lt (n >>> 12)) (by omega)
    obtain ⟨buf₂, hp₂, hb₂⟩ := push_third b₁ (out ++ [b₀]) hb₁
      (toNat_six_lt (n >>> 6)) (by omega)
    obtain ⟨buf₃, hp₃⟩ := push_fourth b₂ (out ++ [b₀] ++ [b₁]) hb₂
      (toNat_six_lt n) (by omega)
    simp only [b64UrlEncode, hN, b64CheckedLoop, b64Index_b64Char, hp₁, hp₂, hp₃, ih]
    simp
  | case2 b₀ b₁ =>
    have hn := toNat_group_two b₀ b₁
    have k₀ := b₀.toNat_lt
    have k₁ := b₁.toNat_lt
    generalize hN : (b₀.toUInt32 <<< 16) ||| (b₁.toUInt32 <<< 8) = n at hn
    obtain ⟨e₀, e₁, e₂, -⟩ := toNat_parts n
    obtain ⟨buf₁, hp₁, hb₁⟩ := push_two b₀ buf out (toNat_six_lt (n >>> 18))
      (toNat_six_lt (n >>> 12)) (by omega)
    obtain ⟨buf₂, hp₂, -⟩ := push_third b₁ (out ++ [b₀]) hb₁
      (toNat_six_lt (n >>> 6)) (by omega)
    simp only [b64UrlEncode, hN, b64CheckedLoop, b64Index_b64Char, hp₁, hp₂]
    simp
  | case3 b₀ =>
    have hn := toNat_group_one b₀
    have k₀ := b₀.toNat_lt
    generalize hN : b₀.toUInt32 <<< 16 = n at hn
    obtain ⟨e₀, e₁, -, -⟩ := toNat_parts n
    obtain ⟨buf₁, hp₁, -⟩ := push_two b₀ buf out (toNat_six_lt (n >>> 18))
      (toNat_six_lt (n >>> 12)) (by omega)
    simp only [b64UrlEncode, hN, b64CheckedLoop, b64Index_b64Char, hp₁]
  | case4 => simp [b64UrlEncode, b64CheckedLoop]

/-! ## The strict decoder inverts the encoder -/

/-- Every character of an encoding is in the alphabet, so none is padding. -/
theorem b64Index_of_mem_encode (bytes : Bytes) :
    ∀ ch ∈ b64UrlEncode bytes, (b64Index ch).isSome := by
  induction bytes using b64UrlEncode.induct with
  | case1 b₀ b₁ b₂ rest ih =>
    intro ch hch
    simp only [b64UrlEncode, List.mem_cons] at hch
    rcases hch with rfl | rfl | rfl | rfl | hch
    · simp
    · simp
    · simp
    · simp
    · exact ih ch hch
  | case2 b₀ b₁ => simp [b64UrlEncode]
  | case3 b₀ => simp [b64UrlEncode]
  | case4 => simp [b64UrlEncode]

/-- No encoding has a length of one more than a multiple of four. -/
theorem length_encode_mod (bytes : Bytes) : (b64UrlEncode bytes).length % 4 ≠ 1 := by
  induction bytes using b64UrlEncode.induct with
  | case1 b₀ b₁ b₂ rest ih =>
    simp only [b64UrlEncode, List.length_cons]
    omega
  | case2 b₀ b₁ => simp [b64UrlEncode]
  | case3 b₀ => simp [b64UrlEncode]
  | case4 => simp [b64UrlEncode]

/-- There is no padding to drop. -/
theorem rdropWhile_encode (bytes : Bytes) :
    (b64UrlEncode bytes).rdropWhile (· == 61) = b64UrlEncode bytes := by
  rw [List.rdropWhile_eq_self_iff]
  intro hne
  have hmem := b64Index_of_mem_encode bytes _ (List.getLast_mem hne)
  intro heq
  rw [eq_of_beq heq] at hmem
  exact absurd hmem (by decide)

/-- **`b64UrlDecodeChecked` inverts `b64UrlEncode`.** -/
theorem b64UrlDecodeChecked_encode (bytes : Bytes) :
    b64UrlDecodeChecked (b64UrlEncode bytes) = some bytes := by
  simp only [b64UrlDecodeChecked, rdropWhile_encode, length_encode_mod, if_false]
  exact b64CheckedLoop_encode bytes 0 []

/-! ## The tolerant decoder agrees where the strict loop ends -/

/-- The tolerant loop skips nothing the strict one reads to its end. -/
theorem foldl_of_checkedLoop {s : B64State} {input out : Bytes}
    (h : b64CheckedLoop s input = some out) :
    (input.foldl (fun s ch =>
      match b64Index ch with
      | some v => s.push v
      | none => s) s).out = out := by
  induction input generalizing s with
  | nil => simpa [b64CheckedLoop] using h
  | cons ch rest ih =>
    simp only [b64CheckedLoop, List.foldl_cons] at h ⊢
    cases hindex : b64Index ch with
    | none => simp [hindex] at h
    | some v =>
      simp only [hindex] at h ⊢
      exact ih h

/-- **`b64UrlDecode` inverts `b64UrlEncode`.** -/
@[simp] theorem b64UrlDecode_encode (bytes : Bytes) : b64UrlDecode (b64UrlEncode bytes) = bytes :=
  foldl_of_checkedLoop (b64CheckedLoop_encode bytes 0 [])

end LogosProtocol
