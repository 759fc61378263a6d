import LogosProtocol.Wire.Base64Url
import Mathlib.Algebra.Order.Floor.Div
import Mathlib.GroupTheory.GroupAction.Ring

/-!
# The strict base64url decoder

`b64UrlDecodeChecked` answers with a flag and writes to a vector that its caller passes in, which
it clears first and again when it meets a character outside the alphabet.  What it accepts the
tolerant decoder reads the same way.  Neither masks the accumulator: a byte is emitted with every
eighth bit pushed, whatever has been shifted out at the top.

## Main definitions

* `b64UrlDecodeCheckedInto` — the strict decoder, with the vector it writes to.

## Main results

* `b64Url_exact` — both decoders invert the encoder, the lengths, and what is accepted.
-/

namespace LogosProtocol

/-! ## The vector that is written to -/

/-- `out.clear()`. -/
def B64State.clear (s : B64State) : B64State := { s with out := [] }

/-- The strict loop, with its answer. -/
def b64CheckedLoopInto (s : B64State) : Bytes → Bool × B64State
  | [] => (true, s)
  | ch :: rest =>
    match b64Index ch with
    | some v => b64CheckedLoopInto (s.push v) rest
    | none => (false, s.clear)

/-- `b64UrlDecodeChecked`: its answer, and the vector it was given. -/
def b64UrlDecodeCheckedInto (input out : Bytes) : Bool × Bytes :=
  let s := ({ out } : B64State).clear
  let body := input.rdropWhile (· == 61)
  if body.length % 4 = 1 then (false, s.out)
  else
    let (ok, s) := b64CheckedLoopInto s body
    (ok, s.out)

/-- The loop returns what it has emitted, or nothing. -/
theorem b64CheckedLoopInto_eq (s : B64State) (input : Bytes) :
    ((b64CheckedLoopInto s input).1, (b64CheckedLoopInto s input).2.out) =
      match b64CheckedLoop s input with
      | some out => (true, out)
      | none => (false, []) := by
  induction input generalizing s with
  | nil => rfl
  | cons ch rest ih =>
    simp only [b64CheckedLoopInto, b64CheckedLoop]
    cases b64Index ch with
    | none => rfl
    | some v => exact ih (s.push v)

/-- Whatever the vector held, it ends up with the bytes, or empty. -/
theorem b64UrlDecodeCheckedInto_eq (input out : Bytes) :
    b64UrlDecodeCheckedInto input out =
      match b64UrlDecodeChecked input with
      | some bytes => (true, bytes)
      | none => (false, []) := by
  unfold b64UrlDecodeCheckedInto b64UrlDecodeChecked
  by_cases hlength : (input.rdropWhile (· == 61)).length % 4 = 1
  · simp only [hlength, if_true]
    rfl
  · simp only [hlength, if_false]
    exact b64CheckedLoopInto_eq _ _

/-! ## How much is encoded -/

/-- **The length of an encoding.**  A group of three gives four characters, and what is left over
one more than it has bytes. -/
theorem length_encode (bytes : Bytes) : (b64UrlEncode bytes).length = 4 * bytes.length ⌈/⌉ 3 := by
  rw [Nat.ceilDiv_eq_add_pred_div]
  induction bytes using b64UrlEncode.induct with
  | case1 b₀ b₁ b₂ rest ih =>
    simp only [b64UrlEncode, List.length_cons, ih]
    omega
  | case2 b₀ b₁ => simp [b64UrlEncode]
  | case3 b₀ => simp [b64UrlEncode]
  | case4 => simp [b64UrlEncode]

theorem b64Char_mem (n : UInt32) : b64Char n ∈ b64Alphabet := by
  have hlt : (n &&& 0x3f).toNat < b64Alphabet.length := toNat_six_lt n
  rw [b64Char, ← List.getElem_eq_getD (h := hlt)]
  exact List.getElem_mem hlt

/-- An encoding is written with the characters of the alphabet. -/
theorem mem_alphabet_of_mem_encode (bytes : Bytes) :
    ∀ ch ∈ b64UrlEncode bytes, ch ∈ b64Alphabet := by
  induction bytes using b64UrlEncode.induct with
  | case1 b₀ b₁ b₂ rest ih =>
    intro ch hch
    simp only [b64UrlEncode, List.mem_cons] at hch
    rcases hch with rfl | rfl | rfl | rfl | hch
    · exact b64Char_mem _
    · exact b64Char_mem _
    · exact b64Char_mem _
    · exact b64Char_mem _
    · exact ih ch hch
  | case2 b₀ b₁ => simp [b64UrlEncode, b64Char_mem]
  | case3 b₀ => simp [b64UrlEncode, b64Char_mem]
  | case4 => simp [b64UrlEncode]

/-! ## How much is decoded -/

/-- The bits pushed are those emitted and those that wait, of which there are fewer than eight. -/
structure B64State.Counts (s : B64State) (pushed : ℕ) : Prop where
  total : 8 * s.out.length + s.bits = 6 * pushed
  waiting : s.bits < 8

/-- A push counts six bits. -/
theorem B64State.Counts.push {s : B64State} {pushed : ℕ} (h : s.Counts pushed) (v : UInt32) :
    (s.push v).Counts (pushed + 1) := by
  obtain ⟨htotal, hwaiting⟩ := h
  unfold B64State.push
  by_cases hemits : 8 ≤ s.bits + 6
  · constructor
    · simp only [hemits, if_true, List.length_append, List.length_singleton]
      omega
    · simp only [hemits, if_true]
      omega
  · constructor
    · simp only [hemits, if_false]
      omega
    · simp only [hemits, if_false]
      omega

/-- The strict loop pushes every character. -/
theorem length_of_checkedLoop {s : B64State} {pushed : ℕ} (hs : s.Counts pushed)
    {input out : Bytes} (h : b64CheckedLoop s input = some out) :
    out.length = 3 * (pushed + input.length) / 4 := by
  induction input generalizing s pushed with
  | nil =>
    obtain ⟨htotal, hwaiting⟩ := hs
    obtain rfl : s.out = out := Option.some.inj h
    rw [List.length_nil]
    omega
  | cons ch rest ih =>
    rw [b64CheckedLoop] at h
    cases hindex : b64Index ch with
    | none =>
      rw [hindex] at h
      cases h
    | some v =>
      rw [hindex] at h
      rw [ih (hs.push v) h, List.length_cons]
      congr 2
      omega

/-! ## What is accepted -/

/-- The tolerant decoder skips the padding. -/
theorem b64UrlDecode_body (input : Bytes) :
    b64UrlDecode (input.rdropWhile (· == 61)) = b64UrlDecode input := by
  induction input using List.reverseRecOn with
  | nil => rfl
  | append_singleton input ch ih =>
    by_cases hpadding : ch = 61
    · subst hpadding
      rw [List.rdropWhile_concat_pos _ _ _ rfl, ih]
      simp only [b64UrlDecode, List.foldl_append, List.foldl_cons, List.foldl_nil]
      rfl
    · rw [List.rdropWhile_concat_neg _ _ _ (by simpa using hpadding)]

/-- What is accepted the tolerant decoder reads the same way, and there are three bytes for every
four characters. -/
theorem decode_of_checked {input bytes : Bytes} (h : b64UrlDecodeChecked input = some bytes) :
    b64UrlDecode input = bytes ∧
      bytes.length = 3 * (input.rdropWhile (· == 61)).length / 4 := by
  unfold b64UrlDecodeChecked at h
  simp only at h
  split_ifs at h
  constructor
  · rw [← b64UrlDecode_body]
    exact foldl_of_checkedLoop h
  · have hstart : B64State.Counts {} 0 := ⟨rfl, by decide⟩
    have hcount := length_of_checkedLoop hstart h
    rwa [Nat.zero_add] at hcount

/-- **The two decoders of base64url.**  Both invert the encoder, whose text has the characters of
the alphabet and the length that goes with the bytes.  The strict one accepts only what the
tolerant one reads in the same way, with a byte for every eight bits, and leaves its vector empty
when it refuses. -/
theorem b64Url_exact :
    (∀ bytes, b64UrlDecode (b64UrlEncode bytes) = bytes ∧
      ∀ out, b64UrlDecodeCheckedInto (b64UrlEncode bytes) out = (true, bytes)) ∧
    (∀ bytes, (∀ ch ∈ b64UrlEncode bytes, ch ∈ b64Alphabet) ∧
      (b64UrlEncode bytes).length = 4 * bytes.length ⌈/⌉ 3) ∧
    ∀ input out,
      ((b64UrlDecodeCheckedInto input out).1 = true →
        b64UrlDecode input = (b64UrlDecodeCheckedInto input out).2 ∧
          (b64UrlDecodeCheckedInto input out).2.length =
            3 * (input.rdropWhile (· == 61)).length / 4) ∧
      ((b64UrlDecodeCheckedInto input out).1 = false →
        (b64UrlDecodeCheckedInto input out).2 = []) := by
  refine ⟨fun bytes => ⟨b64UrlDecode_encode bytes, fun out => ?_⟩,
    fun bytes => ⟨mem_alphabet_of_mem_encode bytes, length_encode bytes⟩, fun input out => ?_⟩
  · rw [b64UrlDecodeCheckedInto_eq, b64UrlDecodeChecked_encode]
  · rw [b64UrlDecodeCheckedInto_eq]
    cases hchecked : b64UrlDecodeChecked input with
    | none => simp
    | some bytes => simpa using decode_of_checked hchecked

end LogosProtocol
