import LogosProtocol.Lib.Utf8
import LogosProtocol.Qt

/-!
# Text between `std::string` and `QString`

`fromStdString` decodes UTF-8 into UTF-16 and `toUtf8` encodes it again.  What is lost on the
way there and back is exactly a text that is not UTF-8, where each byte that starts no
character becomes U+FFFD, and a byte order mark at the start, which the decoder skips.

## Main definitions

* `QString.fromStdString` — `QString::fromStdString`.
* `QString.KeepsText` — the texts that come back the same.
-/

namespace LogosProtocol.QString

/-! ## Decoding -/

/-- The code units of a character: one of them, or a surrogate pair. -/
def ofChar (c : Char) : QString :=
  let n := c.toNat
  if n < 0x10000 then [n.toUInt16]
  else [(0xD800 + (n - 0x10000) / 1024).toUInt16, (0xDC00 + (n - 0x10000) % 1024).toUInt16]

/-- The byte order mark, U+FEFF. -/
def byteOrderMark : Bytes := [0xEF, 0xBB, 0xBF]

/-- The decoder's loop, in at most so many steps: a byte that starts no character becomes
U+FFFD. -/
def decodeLoop : ℕ → Bytes → QString
  | _, [] => []
  | 0, _ :: _ => []
  | fuel + 1, b :: tail =>
    match Utf8.head? (b :: tail) with
    | some (c, rest) => ofChar c ++ decodeLoop fuel rest
    | none => 0xFFFD :: decodeLoop fuel tail

/-- `QString::fromStdString`: a byte order mark at the start is skipped. -/
def fromStdString (s : Bytes) : QString :=
  let body := if byteOrderMark <+: s then s.drop 3 else s
  decodeLoop body.length body

/-- UTF-8 that does not start with a byte order mark. -/
def KeepsText (s : Bytes) : Prop := Utf8.isUtf8 s = true ∧ ¬ byteOrderMark <+: s

instance (s : Bytes) : Decidable (KeepsText s) := inferInstanceAs (Decidable (_ ∧ _))

/-! ## Encoding one character -/

theorem toNat_toUInt16 {n : ℕ} (h : n < 0x10000) : n.toUInt16.toNat = n := by
  rw [Nat.toUInt16_eq, UInt16.toNat_ofNat']
  omega

theorem toUInt8_eq {m n : ℕ} (h : m = n) : m.toUInt8 = UInt8.ofNat n := by
  rw [h, Nat.toUInt8_eq]

/-- A code unit that is no surrogate is encoded as the character it is. -/
theorem encodeUnit_eq {u : QChar} {c : Char} (h : u.toNat = c.toNat) :
    encodeUnit u = String.utf8EncodeChar c := by
  have hvalid := Utf8.toNat_lt_of_valid c
  have hlt := u.toNat_lt
  have hval : c.val.toNat = c.toNat := rfl
  have hsurrogate : (isHighSurrogate u || isLowSurrogate u) = false := by
    simp only [isHighSurrogate, isLowSurrogate, h, Bool.or_eq_false_iff, Bool.and_eq_false_iff,
      decide_eq_false_iff_not]
    omega
  simp only [encodeUnit, h, hsurrogate, String.utf8EncodeChar, hval, Bool.false_eq_true, if_false]
  by_cases h₁ : c.toNat < 0x80
  · have h₁' : c.toNat ≤ 127 := by omega
    rw [if_pos h₁, if_pos h₁', toUInt8_eq rfl]
  · have h₁' : ¬ c.toNat ≤ 127 := by omega
    rw [if_neg h₁, if_neg h₁']
    by_cases h₂ : c.toNat < 0x800
    · have h₂' : c.toNat ≤ 2047 := by omega
      rw [if_pos h₂, if_pos h₂', toUInt8_eq (n := c.toNat / 64 % 32 + 0xC0) (by omega),
        toUInt8_eq (n := c.toNat % 64 + 0x80) (by omega)]
    · have h₂' : ¬ c.toNat ≤ 2047 := by omega
      have h₃ : c.toNat ≤ 65535 := by omega
      rw [if_neg h₂, if_neg h₂', if_pos h₃,
        toUInt8_eq (n := c.toNat / 4096 % 16 + 0xE0) (by omega),
        toUInt8_eq (n := c.toNat / 64 % 64 + 0x80) (by omega),
        toUInt8_eq (n := c.toNat % 64 + 0x80) (by omega)]

/-- A surrogate pair is encoded as the character it stands for. -/
theorem encodePair_eq {hi lo : QChar} {c : Char} (hhi : isHighSurrogate hi = true)
    (hlo : isLowSurrogate lo = true)
    (h : c.toNat = 0x10000 + (hi.toNat - 0xD800) * 1024 + (lo.toNat - 0xDC00)) :
    encodePair hi lo = String.utf8EncodeChar c := by
  have hval : c.val.toNat = c.toNat := rfl
  simp only [isHighSurrogate, Bool.and_eq_true, decide_eq_true_eq] at hhi
  simp only [isLowSurrogate, Bool.and_eq_true, decide_eq_true_eq] at hlo
  simp only [encodePair, ← h, String.utf8EncodeChar, hval]
  rw [if_neg (by omega), if_neg (by omega), if_neg (by omega),
    toUInt8_eq (n := c.toNat / 262144 % 8 + 0xF0) (by omega),
    toUInt8_eq (n := c.toNat / 4096 % 64 + 0x80) (by omega),
    toUInt8_eq (n := c.toNat / 64 % 64 + 0x80) (by omega),
    toUInt8_eq (n := c.toNat % 64 + 0x80) (by omega)]

/-- A string that does not start with a pair is encoded unit by unit. -/
theorem toUtf8_cons {u : QChar} (h : isHighSurrogate u = false) (q : QString) :
    toUtf8 (u :: q) = encodeUnit u ++ toUtf8 q := by
  cases q with
  | nil => simp [toUtf8]
  | cons v rest => simp [toUtf8, h]

/-- The code units of a character are encoded as the character. -/
theorem toUtf8_ofChar_append (c : Char) (q : QString) :
    toUtf8 (ofChar c ++ q) = String.utf8EncodeChar c ++ toUtf8 q := by
  have hvalid := Utf8.toNat_lt_of_valid c
  simp only [ofChar]
  split_ifs with h
  · have hu : c.toNat.toUInt16.toNat = c.toNat := toNat_toUInt16 h
    have hhigh : isHighSurrogate c.toNat.toUInt16 = false := by
      simp only [isHighSurrogate, hu, Bool.and_eq_false_iff, decide_eq_false_iff_not]
      omega
    rw [List.singleton_append, toUtf8_cons hhigh, encodeUnit_eq hu]
  · have hhi : (0xD800 + (c.toNat - 0x10000) / 1024).toUInt16.toNat =
        0xD800 + (c.toNat - 0x10000) / 1024 := toNat_toUInt16 (by omega)
    have hlo : (0xDC00 + (c.toNat - 0x10000) % 1024).toUInt16.toNat =
        0xDC00 + (c.toNat - 0x10000) % 1024 := toNat_toUInt16 (by omega)
    have hhigh : isHighSurrogate (0xD800 + (c.toNat - 0x10000) / 1024).toUInt16 = true := by
      simp only [isHighSurrogate, hhi, Bool.and_eq_true, decide_eq_true_eq]
      omega
    have hlow : isLowSurrogate (0xDC00 + (c.toNat - 0x10000) % 1024).toUInt16 = true := by
      simp only [isLowSurrogate, hlo, Bool.and_eq_true, decide_eq_true_eq]
      omega
    rw [List.cons_append, List.singleton_append, toUtf8, hhigh, hlow, Bool.and_self, if_pos rfl,
      encodePair_eq (c := c) hhigh hlow (by omega)]

/-- Characters are encoded one after the other. -/
theorem toUtf8_flatMap_ofChar (cs : List Char) :
    toUtf8 (cs.flatMap ofChar) = Utf8.encode cs := by
  induction cs with
  | nil => rfl
  | cons c cs ih => rw [List.flatMap_cons, toUtf8_ofChar_append, ih, Utf8.encode_cons]

/-! ## What an encoding is -/

/-- A code unit is encoded as one character. -/
theorem exists_encodeUnit_eq (u : QChar) : ∃ c, encodeUnit u = String.utf8EncodeChar c := by
  by_cases hs : isHighSurrogate u = true ∨ isLowSurrogate u = true
  · refine ⟨'?', ?_⟩
    have hsurrogate : (isHighSurrogate u || isLowSurrogate u) = true := by simpa using hs
    simp only [isHighSurrogate, isLowSurrogate, Bool.and_eq_true, decide_eq_true_eq] at hs
    simp only [encodeUnit, hsurrogate, if_true]
    rw [if_neg (by omega), if_neg (by omega)]
    rfl
  · have hlt := u.toNat_lt
    have hvalid : u.toNat.isValidChar := by
      simp only [isHighSurrogate, isLowSurrogate, Bool.and_eq_true, decide_eq_true_eq] at hs
      simp only [Nat.isValidChar]
      omega
    refine ⟨Char.ofNat u.toNat, encodeUnit_eq ?_⟩
    rw [Char.ofNat, dif_pos hvalid]
    rfl

/-- A surrogate pair is encoded as one character. -/
theorem exists_encodePair_eq {hi lo : QChar} (hhi : isHighSurrogate hi = true)
    (hlo : isLowSurrogate lo = true) : ∃ c, encodePair hi lo = String.utf8EncodeChar c := by
  have hvalid : (0x10000 + (hi.toNat - 0xD800) * 1024 + (lo.toNat - 0xDC00)).isValidChar := by
    simp only [isHighSurrogate, Bool.and_eq_true, decide_eq_true_eq] at hhi
    simp only [isLowSurrogate, Bool.and_eq_true, decide_eq_true_eq] at hlo
    simp only [Nat.isValidChar]
    omega
  refine ⟨Char.ofNat (0x10000 + (hi.toNat - 0xD800) * 1024 + (lo.toNat - 0xDC00)),
    encodePair_eq hhi hlo ?_⟩
  rw [Char.ofNat, dif_pos hvalid]
  rfl

/-- Every string is encoded as UTF-8, a lone surrogate as a question mark. -/
theorem isUtf8_toUtf8 (q : QString) : Utf8.isUtf8 (toUtf8 q) = true := by
  rw [Utf8.isUtf8_iff]
  fun_induction toUtf8 q with
  | case1 => exact ⟨[], rfl⟩
  | case2 u =>
    obtain ⟨c, hc⟩ := exists_encodeUnit_eq u
    exact ⟨[c], by simp [hc]⟩
  | case3 u v rest h ih =>
    obtain ⟨hu, hv⟩ := Bool.and_eq_true_iff.mp h
    obtain ⟨c, hc⟩ := exists_encodePair_eq hu hv
    obtain ⟨cs, hcs⟩ := ih
    exact ⟨c :: cs, by rw [hc, hcs, Utf8.encode_cons]⟩
  | case4 u v rest h ih =>
    obtain ⟨c, hc⟩ := exists_encodeUnit_eq u
    obtain ⟨cs, hcs⟩ := ih
    exact ⟨c :: cs, by rw [hc, hcs, Utf8.encode_cons]⟩

/-! ## There and back -/

/-- UTF-8 is decoded character by character. -/
theorem decodeLoop_encode (cs : List Char) {fuel : ℕ} (h : (Utf8.encode cs).length ≤ fuel) :
    decodeLoop fuel (Utf8.encode cs) = cs.flatMap ofChar := by
  induction cs generalizing fuel with
  | nil => cases fuel <;> rfl
  | cons c cs ih =>
    have hhead := Utf8.head?_encode c (Utf8.encode cs)
    have hne := List.length_pos_of_ne_nil (Utf8.utf8EncodeChar_ne_nil c)
    rw [Utf8.encode_cons, List.length_append] at h
    cases fuel with
    | zero => omega
    | succ fuel =>
      have hrest : decodeLoop fuel (Utf8.encode cs) = cs.flatMap ofChar := ih (by omega)
      obtain ⟨a, tail, hcons⟩ := List.exists_cons_of_ne_nil (Utf8.utf8EncodeChar_ne_nil c)
      rw [hcons, List.cons_append] at hhead
      rw [Utf8.encode_cons, hcons, List.cons_append, decodeLoop, hhead]
      simp only [hrest, List.flatMap_cons]

/-- UTF-8 that the loop reads comes back the same. -/
theorem toUtf8_decodeLoop {s : Bytes} (h : Utf8.isUtf8 s = true) :
    toUtf8 (decodeLoop s.length s) = s := by
  obtain ⟨cs, rfl⟩ := (Utf8.isUtf8_iff s).mp h
  rw [decodeLoop_encode cs (Nat.le_refl _), toUtf8_flatMap_ofChar]

/-- What follows a byte order mark in UTF-8 is UTF-8. -/
theorem isUtf8_of_append {s : Bytes} (h : Utf8.isUtf8 (byteOrderMark ++ s) = true) :
    Utf8.isUtf8 s = true := by
  rw [Utf8.isUtf8_iff] at h ⊢
  obtain ⟨cs, hcs⟩ := h
  have hmark : byteOrderMark = String.utf8EncodeChar (Char.ofNat 0xFEFF) := by decide
  have hhead := Utf8.head?_encode (Char.ofNat 0xFEFF) s
  rw [← hmark, hcs] at hhead
  cases cs with
  | nil => simp [Utf8.head?] at hhead
  | cons c cs =>
    rw [Utf8.encode_cons, Utf8.head?_encode] at hhead
    exact ⟨cs, (Prod.mk.inj (Option.some.inj hhead)).2.symm⟩

/-- UTF-8 comes back the same, or shorter by the mark it starts with. -/
theorem toUtf8_fromStdString_of_isUtf8 {s : Bytes} (h : Utf8.isUtf8 s = true) :
    toUtf8 (fromStdString s) = if byteOrderMark <+: s then s.drop 3 else s := by
  simp only [fromStdString]
  split_ifs with hmark
  · obtain ⟨rest, rfl⟩ := hmark
    exact toUtf8_decodeLoop (isUtf8_of_append h)
  · exact toUtf8_decodeLoop h

theorem length_toUtf8_fromStdString_lt {s : Bytes} (h : Utf8.isUtf8 s = true)
    (hne : toUtf8 (fromStdString s) ≠ s) : (toUtf8 (fromStdString s)).length < s.length := by
  rw [toUtf8_fromStdString_of_isUtf8 h] at hne ⊢
  split_ifs at hne ⊢ with hmark
  · have hlen := hmark.length_le
    rw [List.length_drop]
    simp only [byteOrderMark, List.length_cons, List.length_nil] at hlen
    omega
  · exact absurd rfl hne

/-- **Exactly the texts that come back the same.** -/
theorem toUtf8_fromStdString_eq_iff (s : Bytes) :
    toUtf8 (fromStdString s) = s ↔ KeepsText s := by
  constructor
  · intro h
    have hutf8 : Utf8.isUtf8 s = true := h ▸ isUtf8_toUtf8 (fromStdString s)
    refine ⟨hutf8, ?_⟩
    intro hmark
    rw [toUtf8_fromStdString_of_isUtf8 hutf8, if_pos hmark] at h
    have hlen := congrArg List.length h
    have hle := hmark.length_le
    simp only [byteOrderMark, List.length_cons, List.length_nil, List.length_drop] at hlen hle
    omega
  · intro ⟨hutf8, hmark⟩
    rw [toUtf8_fromStdString_of_isUtf8 hutf8, if_neg hmark]

/-- A text of bytes below 0x80 comes back the same. -/
theorem keepsText_of_forall_lt {s : Bytes} (h : ∀ b ∈ s, b.toNat < 0x80) : KeepsText s := by
  refine ⟨Utf8.isUtf8_of_forall_lt h, ?_⟩
  rintro ⟨rest, rfl⟩
  have hfirst := h 0xEF (by simp [byteOrderMark])
  exact absurd hfirst (by decide)

end LogosProtocol.QString
