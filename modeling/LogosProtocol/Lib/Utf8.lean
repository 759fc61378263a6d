import Mathlib.Tactic.Common
import Mathlib.Data.List.Basic

/-!
# Decoding UTF-8

One character at a time, from a list of bytes.  A sequence that is longer than it need be, a
surrogate and a code point past the last are no characters.

## Main definitions

* `Utf8.head?` — the character at the head of a text, with what follows it.
* `Utf8.chars?` — all characters of a text.
-/

namespace LogosProtocol.Utf8

/-- A continuation byte. -/
def isTail (b : UInt8) : Bool := 0x80 ≤ b.toNat && b.toNat < 0xC0

/-- The character with a code point that is at least `low`. -/
def ofCode? (low n : ℕ) : Option Char :=
  if low ≤ n ∧ (n < 0xD800 ∨ 0xDFFF < n ∧ n < 0x110000) then some (Char.ofNat n) else none

/-- The character at the head of a text, with what follows it. -/
def head? : List UInt8 → Option (Char × List UInt8)
  | [] => none
  | a :: rest =>
    let n := a.toNat
    if n < 0x80 then some (Char.ofNat n, rest)
    else if 0xC0 ≤ n ∧ n < 0xE0 then
      match rest with
      | b :: rest =>
        if isTail b then
          (ofCode? 0x80 ((n - 0xC0) * 64 + (b.toNat - 0x80))).map fun c => (c, rest)
        else none
      | _ => none
    else if 0xE0 ≤ n ∧ n < 0xF0 then
      match rest with
      | b :: c :: rest =>
        if isTail b ∧ isTail c then
          (ofCode? 0x800 ((n - 0xE0) * 4096 + (b.toNat - 0x80) * 64 + (c.toNat - 0x80))).map
            fun c => (c, rest)
        else none
      | _ => none
    else if 0xF0 ≤ n ∧ n < 0xF8 then
      match rest with
      | b :: c :: d :: rest =>
        if isTail b ∧ isTail c ∧ isTail d then
          (ofCode? 0x10000 ((n - 0xF0) * 262144 + (b.toNat - 0x80) * 4096 +
            (c.toNat - 0x80) * 64 + (d.toNat - 0x80))).map fun c => (c, rest)
        else none
      | _ => none
    else none

/-- All characters of a text, in at most so many steps. -/
def charsLoop : ℕ → List UInt8 → Option (List Char)
  | _, [] => some []
  | 0, _ :: _ => none
  | fuel + 1, s@(_ :: _) =>
    match head? s with
    | some (c, rest) => (charsLoop fuel rest).map (c :: ·)
    | none => none

/-- All characters of a text; none if it is not UTF-8. -/
def chars? (s : List UInt8) : Option (List Char) := charsLoop s.length s

/-- A text is UTF-8. -/
def isUtf8 (s : List UInt8) : Bool := (chars? s).isSome

/-- The UTF-8 form of a list of characters. -/
def encode (cs : List Char) : List UInt8 := cs.flatMap String.utf8EncodeChar

@[simp] theorem encode_nil : encode [] = [] := rfl

@[simp] theorem encode_cons (c : Char) (cs : List Char) :
    encode (c :: cs) = String.utf8EncodeChar c ++ encode cs := rfl

/-! ## One character -/

theorem toNat_byte {n : ℕ} (h : n < 256) : (UInt8.ofNat n).toNat = n :=
  UInt8.toNat_ofNat_of_lt' h

/-- A continuation byte holds six bits. -/
theorem isTail_byte {n : ℕ} (h : n < 64) : isTail (UInt8.ofNat (n + 0x80)) = true := by
  have hn : (UInt8.ofNat (n + 0x80)).toNat = n + 0x80 := toNat_byte (by omega)
  simp only [isTail, hn, Bool.and_eq_true, decide_eq_true_eq]
  omega

theorem toNat_lt_of_valid (c : Char) :
    c.toNat < 0xD800 ∨ 0xDFFF < c.toNat ∧ c.toNat < 0x110000 := c.valid

theorem ofCode?_toNat {c : Char} {low : ℕ} (h : low ≤ c.toNat) :
    ofCode? low c.toNat = some c := by
  rw [ofCode?, if_pos ⟨h, toNat_lt_of_valid c⟩, Char.ofNat_toNat]

theorem ofCode?_eq_some {low n : ℕ} {c : Char} (h : ofCode? low n = some c) :
    low ≤ n ∧ c.toNat = n := by
  unfold ofCode? at h
  split_ifs at h with hn
  obtain rfl := Option.some.inj h
  refine ⟨hn.1, ?_⟩
  have hvalid : n.isValidChar := hn.2
  rw [Char.ofNat, dif_pos hvalid]
  rfl

/-- An encoded character is read back, whatever follows. -/
theorem head?_encode (c : Char) (rest : List UInt8) :
    head? (String.utf8EncodeChar c ++ rest) = some (c, rest) := by
  have hvalid := toNat_lt_of_valid c
  have hcode : ∀ low n, low ≤ c.toNat → n = c.toNat → ofCode? low n = some c := by
    rintro low n hlow rfl
    exact ofCode?_toNat hlow
  have hval : c.val.toNat = c.toNat := rfl
  unfold String.utf8EncodeChar
  simp only [hval]
  split_ifs with h₁ h₂ h₃
  · have hb : (UInt8.ofNat c.toNat).toNat = c.toNat := toNat_byte (by omega)
    have hlt : c.toNat < 0x80 := by omega
    simp only [List.cons_append, List.nil_append, head?, hb, hlt, if_true, Char.ofNat_toNat]
  · have hb : (UInt8.ofNat (c.toNat / 64 % 32 + 0xC0)).toNat = c.toNat / 64 % 32 + 0xC0 :=
      toNat_byte (by omega)
    have hc : (UInt8.ofNat (c.toNat % 64 + 0x80)).toNat = c.toNat % 64 + 0x80 :=
      toNat_byte (by omega)
    have htail : isTail (UInt8.ofNat (c.toNat % 64 + 0x80)) = true := isTail_byte (by omega)
    have hlow : ¬ c.toNat / 64 % 32 + 0xC0 < 0x80 := by omega
    have hlead : 0xC0 ≤ c.toNat / 64 % 32 + 0xC0 ∧ c.toNat / 64 % 32 + 0xC0 < 0xE0 := by omega
    simp only [List.cons_append, List.nil_append, head?, hb, hc, hlow, if_false, hlead,
      and_self, if_true, htail]
    rw [hcode 0x80 _ (by omega) (by omega)]
    rfl
  · have hb : (UInt8.ofNat (c.toNat / 4096 % 16 + 0xE0)).toNat = c.toNat / 4096 % 16 + 0xE0 :=
      toNat_byte (by omega)
    have hc : (UInt8.ofNat (c.toNat / 64 % 64 + 0x80)).toNat = c.toNat / 64 % 64 + 0x80 :=
      toNat_byte (by omega)
    have hd : (UInt8.ofNat (c.toNat % 64 + 0x80)).toNat = c.toNat % 64 + 0x80 :=
      toNat_byte (by omega)
    have htail : isTail (UInt8.ofNat (c.toNat / 64 % 64 + 0x80)) = true := isTail_byte (by omega)
    have htail' : isTail (UInt8.ofNat (c.toNat % 64 + 0x80)) = true := isTail_byte (by omega)
    have hlow : ¬ c.toNat / 4096 % 16 + 0xE0 < 0x80 := by omega
    have htwo : ¬ (0xC0 ≤ c.toNat / 4096 % 16 + 0xE0 ∧ c.toNat / 4096 % 16 + 0xE0 < 0xE0) := by
      omega
    have hlead : 0xE0 ≤ c.toNat / 4096 % 16 + 0xE0 ∧ c.toNat / 4096 % 16 + 0xE0 < 0xF0 := by
      omega
    simp only [List.cons_append, List.nil_append, head?, hb, hc, hd, hlow, if_false, htwo, hlead,
      and_self, if_true, htail, htail']
    rw [hcode 0x800 _ (by omega) (by omega)]
    rfl
  · have hb : (UInt8.ofNat (c.toNat / 262144 % 8 + 0xF0)).toNat = c.toNat / 262144 % 8 + 0xF0 :=
      toNat_byte (by omega)
    have hc : (UInt8.ofNat (c.toNat / 4096 % 64 + 0x80)).toNat = c.toNat / 4096 % 64 + 0x80 :=
      toNat_byte (by omega)
    have hd : (UInt8.ofNat (c.toNat / 64 % 64 + 0x80)).toNat = c.toNat / 64 % 64 + 0x80 :=
      toNat_byte (by omega)
    have he : (UInt8.ofNat (c.toNat % 64 + 0x80)).toNat = c.toNat % 64 + 0x80 :=
      toNat_byte (by omega)
    have htail : isTail (UInt8.ofNat (c.toNat / 4096 % 64 + 0x80)) = true :=
      isTail_byte (by omega)
    have htail' : isTail (UInt8.ofNat (c.toNat / 64 % 64 + 0x80)) = true := isTail_byte (by omega)
    have htail'' : isTail (UInt8.ofNat (c.toNat % 64 + 0x80)) = true := isTail_byte (by omega)
    have hlow : ¬ c.toNat / 262144 % 8 + 0xF0 < 0x80 := by omega
    have htwo : ¬ (0xC0 ≤ c.toNat / 262144 % 8 + 0xF0 ∧ c.toNat / 262144 % 8 + 0xF0 < 0xE0) := by
      omega
    have hthree : ¬ (0xE0 ≤ c.toNat / 262144 % 8 + 0xF0 ∧
        c.toNat / 262144 % 8 + 0xF0 < 0xF0) := by omega
    have hlead : 0xF0 ≤ c.toNat / 262144 % 8 + 0xF0 ∧ c.toNat / 262144 % 8 + 0xF0 < 0xF8 := by
      omega
    simp only [List.cons_append, List.nil_append, head?, hb, hc, hd, he, hlow, if_false, htwo,
      hthree, hlead, and_self, if_true, htail, htail', htail'']
    rw [hcode 0x10000 _ (by omega) (by omega)]
    rfl

theorem isTail_iff (b : UInt8) : isTail b = true ↔ 0x80 ≤ b.toNat ∧ b.toNat < 0xC0 := by
  simp [isTail]

theorem byte_eq {b : UInt8} {n : ℕ} (h : n = b.toNat) : UInt8.ofNat n = b := by
  rw [h, UInt8.ofNat_toNat]

/-- What is read is an encoded character, with what follows. -/
theorem eq_of_head? {s rest : List UInt8} {c : Char} (h : head? s = some (c, rest)) :
    s = String.utf8EncodeChar c ++ rest := by
  have hval : c.val.toNat = c.toNat := rfl
  unfold String.utf8EncodeChar
  simp only [hval]
  unfold head? at h
  split at h
  · cases h
  · rename_i a tail
    have ha := a.toNat_lt
    simp only at h
    split_ifs at h with h₁ h₂ h₃ h₄
    · obtain ⟨rfl, rfl⟩ := Prod.mk.inj (Option.some.inj h)
      have hcode : ofCode? 0 a.toNat = some (Char.ofNat a.toNat) :=
        if_pos ⟨by omega, by omega⟩
      obtain ⟨-, hn⟩ := ofCode?_eq_some hcode
      rw [hn, if_pos (by omega), byte_eq rfl]
      rfl
    · split at h
      · rename_i b tail
        split_ifs at h with htail
        obtain ⟨c', hcode, hpair⟩ := Option.map_eq_some_iff.mp h
        obtain ⟨rfl, rfl⟩ := Prod.mk.inj hpair
        obtain ⟨hlow, hn⟩ := ofCode?_eq_some hcode
        rw [isTail_iff] at htail
        rw [hn, if_neg (by omega), if_pos (by omega), byte_eq (b := a) (by omega),
          byte_eq (b := b) (by omega)]
        rfl
      · cases h
    · split at h
      · rename_i b d tail
        split_ifs at h with htail
        obtain ⟨c', hcode, hpair⟩ := Option.map_eq_some_iff.mp h
        obtain ⟨rfl, rfl⟩ := Prod.mk.inj hpair
        obtain ⟨hlow, hn⟩ := ofCode?_eq_some hcode
        rw [isTail_iff, isTail_iff] at htail
        rw [hn, if_neg (by omega), if_neg (by omega), if_pos (by omega),
          byte_eq (b := a) (by omega), byte_eq (b := b) (by omega), byte_eq (b := d) (by omega)]
        rfl
      · cases h
    · split at h
      · rename_i b d e tail
        split_ifs at h with htail
        obtain ⟨c', hcode, hpair⟩ := Option.map_eq_some_iff.mp h
        obtain ⟨rfl, rfl⟩ := Prod.mk.inj hpair
        obtain ⟨hlow, hn⟩ := ofCode?_eq_some hcode
        have hlt := toNat_lt_of_valid c'
        rw [isTail_iff, isTail_iff, isTail_iff] at htail
        rw [hn, if_neg (by omega), if_neg (by omega), if_neg (by omega),
          byte_eq (b := a) (by omega), byte_eq (b := b) (by omega), byte_eq (b := d) (by omega),
          byte_eq (b := e) (by omega)]
        rfl
      · cases h

/-! ## Texts -/

theorem utf8EncodeChar_ne_nil (c : Char) : String.utf8EncodeChar c ≠ [] := by
  unfold String.utf8EncodeChar
  simp only
  split_ifs
  all_goals exact List.cons_ne_nil _ _

theorem charsLoop_encode (cs : List Char) {fuel : ℕ} (h : (encode cs).length ≤ fuel) :
    charsLoop fuel (encode cs) = some cs := by
  induction cs generalizing fuel with
  | nil => cases fuel <;> rfl
  | cons c cs ih =>
    have hhead := head?_encode c (encode cs)
    have hne := List.length_pos_of_ne_nil (utf8EncodeChar_ne_nil c)
    rw [encode_cons, List.length_append] at h
    cases fuel with
    | zero => omega
    | succ fuel =>
      have hrest : charsLoop fuel (encode cs) = some cs := ih (by omega)
      obtain ⟨a, tail, hcons⟩ := List.exists_cons_of_ne_nil (utf8EncodeChar_ne_nil c)
      rw [hcons, List.cons_append] at hhead
      rw [encode_cons, hcons, List.cons_append, charsLoop, hhead]
      simp only [hrest, Option.map_some]

/-- **A text has these characters exactly when it is their encoding.** -/
theorem chars?_eq_some_iff (s : List UInt8) (cs : List Char) :
    chars? s = some cs ↔ s = encode cs := by
  constructor
  · unfold chars?
    generalize s.length = fuel
    intro h
    induction fuel generalizing s cs with
    | zero =>
      cases s with
      | nil =>
        obtain rfl : [] = cs := Option.some.inj h
        rfl
      | cons b s => cases h
    | succ fuel ih =>
      cases s with
      | nil =>
        obtain rfl : [] = cs := Option.some.inj h
        rfl
      | cons b s =>
        rw [charsLoop] at h
        split at h
        · rename_i c rest hhead
          obtain ⟨cs', hrest, rfl⟩ := Option.map_eq_some_iff.mp h
          rw [encode_cons, ← ih rest cs' hrest]
          exact eq_of_head? hhead
        · cases h
  · rintro rfl
    exact charsLoop_encode cs (Nat.le_refl _)

theorem isUtf8_iff (s : List UInt8) : isUtf8 s = true ↔ ∃ cs, s = encode cs := by
  rw [isUtf8, Option.isSome_iff_exists]
  exact exists_congr (chars?_eq_some_iff s)

/-- A text of bytes below 0x80 is UTF-8. -/
theorem isUtf8_of_forall_lt {s : List UInt8} (h : ∀ b ∈ s, b.toNat < 0x80) :
    isUtf8 s = true := by
  rw [isUtf8_iff]
  induction s with
  | nil => exact ⟨[], rfl⟩
  | cons b s ih =>
    obtain ⟨cs, hcs⟩ := ih fun c hc => h c (List.mem_cons_of_mem b hc)
    have hb := h b (List.mem_cons_self ..)
    have hhead : head? (b :: s) = some (Char.ofNat b.toNat, s) := by
      simp only [head?, hb, if_true]
    refine ⟨Char.ofNat b.toNat :: cs, ?_⟩
    rw [encode_cons, ← hcs]
    exact eq_of_head? hhead

end LogosProtocol.Utf8
