import LogosProtocol.Lib.IncrementalDecoder
import Mathlib.Algebra.Group.Nat.Defs

/-!
# Wire framing

One frame is a 4-byte big-endian length `N`, a tag byte and `N - 1` payload bytes.
`FrameReader` reassembles frames from a stream that arrives in chunks of any size; the
read loop of a connection drains it after every chunk and stops at the first error.

A tag is whatever byte stands in the frame: the cast to the message type checks nothing.

## Main definitions

* `encodeFrame` — build a frame, or refuse one over the cap.
* `FrameReader.next` — take one frame off the buffer.
* `readChunks` — the read loop: append a chunk, then `while (next()) deliver`.
-/

namespace LogosProtocol

/-- A frame's tag and payload. -/
structure Frame where
  tag : UInt8
  payload : List UInt8
  deriving DecidableEq, Repr

/-- `FramingError`, by its message. -/
inductive FramingError
  /-- "frame too large" -/
  | frameTooLarge
  /-- "zero-length frame" -/
  | zeroLengthFrame
  /-- "frame length exceeds cap" -/
  | frameLengthExceedsCap
  deriving DecidableEq, Repr

/-- The largest accepted value of a length prefix. -/
def kMaxFrameLength : UInt32 := 16 * 1024 * 1024

/-! ## Big-endian lengths -/

def writeBe32 (n : UInt32) : List UInt8 :=
  [((n >>> 24) &&& 0xff).toUInt8, ((n >>> 16) &&& 0xff).toUInt8,
    ((n >>> 8) &&& 0xff).toUInt8, (n &&& 0xff).toUInt8]

def readBe32 (p₀ p₁ p₂ p₃ : UInt8) : UInt32 :=
  (p₀.toUInt32 <<< 24) ||| (p₁.toUInt32 <<< 16) ||| (p₂.toUInt32 <<< 8) ||| p₃.toUInt32

/-- The four bytes occupy disjoint bits, so the disjunction is a sum. -/
theorem toNat_readBe32 (p₀ p₁ p₂ p₃ : UInt8) : (readBe32 p₀ p₁ p₂ p₃).toNat =
    2 ^ 24 * p₀.toNat + (2 ^ 16 * p₁.toNat + (2 ^ 8 * p₂.toNat + p₃.toNat)) := by
  have h₀ := p₀.toNat_lt
  have h₁ := p₁.toNat_lt
  have h₂ := p₂.toNat_lt
  have h₃ := p₃.toNat_lt
  have h8 : (8 : UInt32).toNat % 32 = 8 := rfl
  have h16 : (16 : UInt32).toNat % 32 = 16 := rfl
  have h24 : (24 : UInt32).toNat % 32 = 24 := rfl
  simp only [readBe32, UInt32.toNat_or, UInt32.toNat_shiftLeft, UInt8.toNat_toUInt32,
    Nat.shiftLeft_eq, Nat.or_assoc, h8, h16, h24]
  rw [Nat.mod_eq_of_lt (by omega), Nat.mod_eq_of_lt (by omega), Nat.mod_eq_of_lt (by omega),
    Nat.mul_comm p₀.toNat, Nat.mul_comm p₁.toNat, Nat.mul_comm p₂.toNat,
    ← Nat.two_pow_add_eq_or_of_lt (by omega) p₂.toNat,
    ← Nat.two_pow_add_eq_or_of_lt (by omega) p₁.toNat,
    ← Nat.two_pow_add_eq_or_of_lt (by omega) p₀.toNat]

theorem toNat_lowByte (n : UInt32) : (n &&& 0xff).toUInt8.toNat = n.toNat % 256 := by
  have hmask : (0xff : UInt32).toNat = 2 ^ 8 - 1 := rfl
  rw [UInt32.toNat_toUInt8, UInt32.toNat_and, hmask, Nat.and_two_pow_sub_one_eq_mod, Nat.mod_mod]

theorem toNat_byteAt (n : UInt32) {k : UInt32} (h : k.toNat < 32) :
    ((n >>> k) &&& 0xff).toUInt8.toNat = n.toNat / 2 ^ k.toNat % 256 := by
  rw [toNat_lowByte, UInt32.toNat_shiftRight, Nat.mod_eq_of_lt h, Nat.shiftRight_eq_div_pow]

/-- What is written is read back. -/
theorem readBe32_writeBe32 (n : UInt32) :
    readBe32 ((n >>> 24) &&& 0xff).toUInt8 ((n >>> 16) &&& 0xff).toUInt8
      ((n >>> 8) &&& 0xff).toUInt8 (n &&& 0xff).toUInt8 = n := by
  have hn := n.toNat_lt
  have h8 : (8 : UInt32).toNat = 8 := rfl
  have h16 : (16 : UInt32).toNat = 16 := rfl
  have h24 : (24 : UInt32).toNat = 24 := rfl
  apply UInt32.toNat_inj.mp
  rw [toNat_readBe32, toNat_byteAt n (by decide), toNat_byteAt n (by decide),
    toNat_byteAt n (by decide), toNat_lowByte, h8, h16, h24]
  omega

/-! ## Frames -/

/-- Length prefix, tag and payload, with no check. -/
def frameBytes (f : Frame) : List UInt8 :=
  writeBe32 (1 + f.payload.length).toUInt32 ++ f.tag :: f.payload

/-- Build a frame; one whose body is longer than the cap is refused. -/
def encodeFrame (f : Frame) : Except FramingError (List UInt8) :=
  if kMaxFrameLength.toNat < 1 + f.payload.length then .error .frameTooLarge
  else .ok (frameBytes f)

/-- Bytes received and not yet consumed. -/
structure FrameReader where
  buf : List UInt8 := []
  deriving DecidableEq, Repr

namespace FrameReader

def append (r : FrameReader) (chunk : List UInt8) : FrameReader := ⟨r.buf ++ chunk⟩

/-- Take one frame off the buffer, say that it holds none yet, or throw.  The second
component is the reader afterwards. -/
def next (r : FrameReader) : Except FramingError (Option Frame) × FrameReader :=
  match r.buf with
  | p₀ :: p₁ :: p₂ :: p₃ :: _ =>
    let bodyLen := readBe32 p₀ p₁ p₂ p₃
    if bodyLen = 0 then (.error .zeroLengthFrame, r)
    else if kMaxFrameLength < bodyLen then (.error .frameLengthExceedsCap, r)
    else
      let total := (4 + bodyLen).toNat
      if r.buf.length < total then (.ok none, r)
      else (.ok (some ⟨r.buf.getD 4 0, (r.buf.take total).drop 5⟩), ⟨r.buf.drop total⟩)
  | _ => (.ok none, r)

/-- A throwing `next` leaves the buffer as it was. -/
theorem next_error {r r' : FrameReader} {e : FramingError} (h : r.next = (.error e, r')) :
    r' = r := by
  unfold next at h
  split at h
  · simp only at h
    repeat' split at h
    all_goals simp_all
  · simp at h

/-- `next` as an attempt to pull a frame off a list of bytes. -/
def pull (b : List UInt8) : Pull UInt8 Frame FramingError :=
  match next ⟨b⟩ with
  | (.ok (some f), r) => .item f r.buf
  | (.ok none, _) => .more
  | (.error e, _) => .fail e

end FrameReader

/-! ## What the header decides -/

theorem toNat_kMaxFrameLength : kMaxFrameLength.toNat = 16777216 := rfl

/-- Under the cap the total length does not wrap. -/
theorem toNat_total {n : UInt32} (h : ¬ kMaxFrameLength < n) : (4 + n).toNat = 4 + n.toNat := by
  rw [UInt32.lt_iff_toNat_lt, toNat_kMaxFrameLength] at h
  have h4 : (4 : UInt32).toNat = 4 := rfl
  rw [UInt32.toNat_add, h4]
  omega

namespace FrameReader

/-- The answer for a buffer with a whole header, by the length it announces. -/
theorem pull_header (p₀ p₁ p₂ p₃ : UInt8) (rest : List UInt8) :
    pull (p₀ :: p₁ :: p₂ :: p₃ :: rest) =
      if readBe32 p₀ p₁ p₂ p₃ = 0 then .fail .zeroLengthFrame
      else if kMaxFrameLength < readBe32 p₀ p₁ p₂ p₃ then .fail .frameLengthExceedsCap
      else if rest.length < (readBe32 p₀ p₁ p₂ p₃).toNat then .more
      else .item ⟨rest.headD 0, (rest.take (readBe32 p₀ p₁ p₂ p₃).toNat).tail⟩
        (rest.drop (readBe32 p₀ p₁ p₂ p₃).toNat) := by
  by_cases h0 : readBe32 p₀ p₁ p₂ p₃ = 0
  · simp [pull, next, h0]
  by_cases hcap : kMaxFrameLength < readBe32 p₀ p₁ p₂ p₃
  · simp [pull, next, h0, hcap]
  have htotal := toNat_total hcap
  by_cases hlen : rest.length < (readBe32 p₀ p₁ p₂ p₃).toNat
  · have hshort : rest.length + 1 + 1 + 1 + 1 < (4 + readBe32 p₀ p₁ p₂ p₃).toNat := by omega
    simp only [pull, next, h0, hcap, hlen, hshort, if_false, if_true, List.length_cons]
  · have hlong : ¬ rest.length + 1 + 1 + 1 + 1 < (4 + readBe32 p₀ p₁ p₂ p₃).toNat := by omega
    have hsplit : (4 + readBe32 p₀ p₁ p₂ p₃).toNat =
        (readBe32 p₀ p₁ p₂ p₃).toNat + 1 + 1 + 1 + 1 := by omega
    simp only [pull, next, h0, hcap, hlen, hlong, if_false, List.length_cons]
    simp only [hsplit, List.take_succ_cons, List.drop_succ_cons, List.drop_one]
    cases rest <;> simp

/-- Without a whole header there is no answer yet. -/
theorem pull_short {b : List UInt8} (h : b.length < 4) : pull b = .more := by
  rcases b with _ | ⟨a, _ | ⟨b, _ | ⟨c, _ | ⟨d, r⟩⟩⟩⟩
  · rfl
  · rfl
  · rfl
  · rfl
  · simp at h
    omega

/-- A buffer whose header announces a frame under the cap, and what follows it. -/
theorem pull_frameBytes {f : Frame} (h : 1 + f.payload.length ≤ kMaxFrameLength.toNat)
    (rest : List UInt8) : pull (frameBytes f ++ rest) = .item f rest := by
  rw [toNat_kMaxFrameLength] at h
  have hlen : (1 + f.payload.length).toUInt32.toNat = 1 + f.payload.length := by
    rw [Nat.toUInt32_eq, UInt32.toNat_ofNat']
    omega
  have h0 : (1 + f.payload.length).toUInt32 ≠ 0 := by
    intro hz
    rw [hz] at hlen
    simp at hlen
    omega
  have hcap : ¬ kMaxFrameLength < (1 + f.payload.length).toUInt32 := by
    rw [UInt32.lt_iff_toNat_lt, hlen, toNat_kMaxFrameLength]
    omega
  simp only [frameBytes, writeBe32, List.cons_append, List.nil_append, pull_header,
    readBe32_writeBe32, h0, hcap, hlen, if_false]
  simp [Nat.add_comm 1]

/-- An answer other than "not yet" comes from a buffer with a whole header. -/
theorem exists_header {b : List UInt8} (h : pull b ≠ .more) :
    ∃ p₀ p₁ p₂ p₃ body, b = p₀ :: p₁ :: p₂ :: p₃ :: body := by
  rcases b with _ | ⟨p₀, _ | ⟨p₁, _ | ⟨p₂, _ | ⟨p₃, body⟩⟩⟩⟩
  · exact absurd (pull_short (by simp)) h
  · exact absurd (pull_short (by simp)) h
  · exact absurd (pull_short (by simp)) h
  · exact absurd (pull_short (by simp)) h
  · exact ⟨p₀, p₁, p₂, p₃, body, rfl⟩

/-- **What taking a frame says about the buffer**: a header that announces a length
`n` between 1 and the cap, and at least `n` bytes after it. -/
theorem pull_item_inv {b rest : List UInt8} {f : Frame} (h : pull b = .item f rest) :
    ∃ p₀ p₁ p₂ p₃ body, b = p₀ :: p₁ :: p₂ :: p₃ :: body ∧ readBe32 p₀ p₁ p₂ p₃ ≠ 0 ∧
      ¬ kMaxFrameLength < readBe32 p₀ p₁ p₂ p₃ ∧
      0 < (readBe32 p₀ p₁ p₂ p₃).toNat ∧ (readBe32 p₀ p₁ p₂ p₃).toNat ≤ body.length ∧
      f = ⟨body.headD 0, (body.take (readBe32 p₀ p₁ p₂ p₃).toNat).tail⟩ ∧
      rest = body.drop (readBe32 p₀ p₁ p₂ p₃).toNat := by
  obtain ⟨p₀, p₁, p₂, p₃, body, rfl⟩ := exists_header (b := b) (by rw [h]; simp)
  rw [pull_header] at h
  split at h
  · simp at h
  rename_i h0
  split at h
  · simp at h
  rename_i hcap
  split at h
  · simp at h
  rename_i hlen
  obtain ⟨rfl, rfl⟩ := Pull.item.inj h
  have hpos : (readBe32 p₀ p₁ p₂ p₃).toNat ≠ 0 := fun hz => h0 (UInt32.toNat_inj.mp hz)
  exact ⟨p₀, p₁, p₂, p₃, body, rfl, h0, hcap, by omega, by omega, rfl, rfl⟩

/-- A frame that comes off a buffer is under the cap. -/
theorem length_of_pull {b rest : List UInt8} {f : Frame} (h : pull b = .item f rest) :
    1 + f.payload.length ≤ kMaxFrameLength.toNat := by
  obtain ⟨p₀, p₁, p₂, p₃, body, -, -, hcap, hpos, hle, rfl, -⟩ := pull_item_inv h
  rw [UInt32.lt_iff_toNat_lt] at hcap
  simp only [List.length_tail, List.length_take]
  omega

theorem pull_consumes {b rest : List UInt8} {f : Frame} (h : pull b = .item f rest) :
    rest.length < b.length := by
  obtain ⟨p₀, p₁, p₂, p₃, body, rfl, -, -, -, -, -, rfl⟩ := pull_item_inv h
  simp only [List.length_drop, List.length_cons]
  omega

theorem pull_item_append {b rest : List UInt8} {f : Frame} (c : List UInt8)
    (h : pull b = .item f rest) : pull (b ++ c) = .item f (rest ++ c) := by
  obtain ⟨p₀, p₁, p₂, p₃, body, rfl, h0, hcap, hpos, hle, rfl, rfl⟩ := pull_item_inv h
  have hlen : ¬ (body ++ c).length < (readBe32 p₀ p₁ p₂ p₃).toNat := by
    rw [List.length_append]
    omega
  have hhead : (body ++ c).headD 0 = body.headD 0 := by
    cases body with
    | nil => rw [List.length_nil] at hle; omega
    | cons x body => rfl
  simp only [List.cons_append]
  rw [pull_header, if_neg h0, if_neg hcap, if_neg hlen, hhead, List.take_append_of_le_length hle,
    List.drop_append_of_le_length hle]

theorem pull_fail_append {b : List UInt8} {e : FramingError} (c : List UInt8)
    (h : pull b = .fail e) : pull (b ++ c) = .fail e := by
  obtain ⟨p₀, p₁, p₂, p₃, body, rfl⟩ := exists_header (b := b) (by rw [h]; simp)
  simp only [List.cons_append]
  rw [pull_header] at h ⊢
  split at h
  · rw [if_pos ‹_›]
    exact h
  split at h
  · rw [if_neg ‹_›, if_pos ‹_›]
    exact h
  split at h <;> simp at h

/-- `next` throws exactly where pulling fails. -/
theorem next_error_iff {b : List UInt8} {e : FramingError} :
    ((⟨b⟩ : FrameReader).next).1 = .error e ↔ pull b = .fail e := by
  unfold pull
  rcases (⟨b⟩ : FrameReader).next with ⟨_ | _ | _, _⟩ <;> simp

end FrameReader

/-! ## The reader as an incremental decoder -/

/-- The reader, as a decoder whose answers later bytes do not change. -/
def frameDecoder : IncrementalDecoder UInt8 Frame FramingError where
  pull := FrameReader.pull
  pull_consumes := FrameReader.pull_consumes
  pull_item_append := FrameReader.pull_item_append
  pull_fail_append := FrameReader.pull_fail_append

/-- The read loop of a connection over a list of reads: append each chunk, deliver frames
while there are any, and stop reading at the first error. -/
def readChunks (chunks : List (List UInt8)) : Drained UInt8 Frame FramingError :=
  frameDecoder.feedAll chunks

theorem encodeFrame_ok {f : Frame} (h : 1 + f.payload.length ≤ kMaxFrameLength.toNat) :
    encodeFrame f = .ok (frameBytes f) := by
  rw [encodeFrame, if_neg (Nat.not_lt.mpr h)]

theorem encodeFrame_error_iff {f : Frame} :
    (∃ e, encodeFrame f = .error e) ↔ kMaxFrameLength.toNat < 1 + f.payload.length := by
  unfold encodeFrame
  split <;> simp_all

/-- A frame comes out of some buffer exactly when it is under the cap. -/
theorem exists_pull_iff {f : Frame} : (∃ buf rest, FrameReader.pull buf = .item f rest) ↔
    1 + f.payload.length ≤ kMaxFrameLength.toNat := by
  constructor
  · rintro ⟨buf, rest, h⟩
    exact FrameReader.length_of_pull h
  · intro h
    exact ⟨frameBytes f ++ [], [], FrameReader.pull_frameBytes h []⟩

/-- The encodings of frames under the cap, one after the other. -/
theorem mapM_encodeFrame (frames : List Frame)
    (h : ∀ f ∈ frames, 1 + f.payload.length ≤ kMaxFrameLength.toNat) :
    frames.mapM encodeFrame = .ok (frames.map frameBytes) := by
  induction frames with
  | nil => rfl
  | cons f frames ih =>
    rw [List.mapM_cons, encodeFrame_ok (h f (by simp)),
      ih fun f hf => h f (List.mem_cons_of_mem _ hf)]
    rfl

/-- Draining the encodings of frames under the cap delivers exactly these frames. -/
theorem drain_frameBytes (frames : List Frame)
    (h : ∀ f ∈ frames, 1 + f.payload.length ≤ kMaxFrameLength.toNat) :
    frameDecoder.drain (frames.map frameBytes).flatten = ⟨frames, none, []⟩ := by
  induction frames with
  | nil => exact IncrementalDecoder.drain_more rfl
  | cons f frames ih =>
    have hpull : frameDecoder.pull (frameBytes f ++ (frames.map frameBytes).flatten) =
        .item f (frames.map frameBytes).flatten :=
      FrameReader.pull_frameBytes (h f (by simp)) _
    rw [List.map_cons, List.flatten_cons, IncrementalDecoder.drain_item hpull,
      ih fun f hf => h f (List.mem_cons_of_mem _ hf)]

/-- The reader's verdict on the encoding of a frame whose length fits the prefix. -/
theorem pull_frameBytes_error_iff {f : Frame} (h : 1 + f.payload.length < 2 ^ 32) :
    (∃ e, FrameReader.pull (frameBytes f) = .fail e) ↔
      kMaxFrameLength.toNat < 1 + f.payload.length := by
  constructor
  · rintro ⟨e, he⟩
    by_contra hle
    have hitem := FrameReader.pull_frameBytes (Nat.le_of_not_lt hle) []
    rw [List.append_nil, he] at hitem
    simp at hitem
  · intro hlt
    have hlen : (1 + f.payload.length).toUInt32.toNat = 1 + f.payload.length := by
      rw [Nat.toUInt32_eq, UInt32.toNat_ofNat']
      omega
    have h0 : (1 + f.payload.length).toUInt32 ≠ 0 := by
      intro hz
      rw [hz] at hlen
      simp at hlen
      omega
    have hcap : kMaxFrameLength < (1 + f.payload.length).toUInt32 := by
      rw [UInt32.lt_iff_toNat_lt, hlen]
      exact hlt
    refine ⟨.frameLengthExceedsCap, ?_⟩
    simp only [frameBytes, writeBe32, List.cons_append, List.nil_append,
      FrameReader.pull_header, readBe32_writeBe32, h0, hcap, if_false, if_true]

/-- **The reader does not see the chunking.** The frames of a well-formed stream come out
exactly, in order, with an empty buffer; any stream gives the same frames and the same
first error for every chunking; the loop ends; a throwing `next` changes nothing; and
the encoder refuses the frames whose encoding the reader refuses, which are those that
come out of no buffer. -/
theorem frameReader_chunking :
    (∀ frames : List Frame, (∀ f ∈ frames, 1 + f.payload.length ≤ kMaxFrameLength.toNat) →
      ∃ encodings, frames.mapM encodeFrame = .ok encodings ∧
        ∀ chunks, chunks.flatten = encodings.flatten → readChunks chunks = ⟨frames, none, []⟩) ∧
    (∀ chunks chunks', chunks.flatten = chunks'.flatten →
      (readChunks chunks).delivered = (readChunks chunks').delivered ∧
      (readChunks chunks).error = (readChunks chunks').error) ∧
    (∀ buf, ∃! outcome, frameDecoder.Drains buf outcome) ∧
    (∀ (r r' : FrameReader) e, r.next = (.error e, r') → r' = r) ∧
    (∀ f : Frame,
      ((∃ e, encodeFrame f = .error e) ↔ ¬ ∃ buf rest, FrameReader.pull buf = .item f rest) ∧
      (1 + f.payload.length < 2 ^ 32 → ((∃ e, encodeFrame f = .error e) ↔
        ∃ e, ((⟨frameBytes f⟩ : FrameReader).next).1 = .error e))) := by
  have hchunks := IncrementalDecoder.feedAll_eq_drain (D := frameDecoder) rfl
  refine ⟨fun frames hcap => ?_, fun chunks chunks' h => ?_, fun buf => ?_,
    fun r r' e => FrameReader.next_error, fun f => ⟨?_, fun hfits => ?_⟩⟩
  · refine ⟨frames.map frameBytes, mapM_encodeFrame frames hcap, fun chunks hflat => ?_⟩
    obtain ⟨h₁, h₂, h₃⟩ := hchunks chunks
    rw [hflat, drain_frameBytes frames hcap] at h₁ h₂ h₃
    have hbuf := h₃ h₂
    rw [readChunks]
    cases hd : frameDecoder.feedAll chunks
    simp_all
  · obtain ⟨h₁, h₂, -⟩ := hchunks chunks
    obtain ⟨g₁, g₂, -⟩ := hchunks chunks'
    exact ⟨by rw [readChunks, readChunks, h₁, g₁, h], by rw [readChunks, readChunks, h₂, g₂, h]⟩
  · exact ⟨frameDecoder.drain buf, IncrementalDecoder.Drains.iff_drain.mpr rfl,
      fun d hd => IncrementalDecoder.Drains.iff_drain.mp hd⟩
  · rw [encodeFrame_error_iff, exists_pull_iff, Nat.not_le]
  · simp only [encodeFrame_error_iff, FrameReader.next_error_iff, pull_frameBytes_error_iff hfits]

end LogosProtocol
