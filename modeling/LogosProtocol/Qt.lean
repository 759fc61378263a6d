import LogosProtocol.Lib.Dict

/-!
# The Qt containers the token store is written in

`QString` is a sequence of UTF-16 code units, `QHash` a dictionary with an
unspecified iteration order.  `toUtf8` is `QString::toUtf8`: a surrogate pair is one
four-byte sequence and a lone surrogate is encoded as `'?'`.
-/

namespace LogosProtocol

/-- A UTF-16 code unit. -/
abbrev QChar := UInt16

/-- A sequence of UTF-16 code units. -/
abbrev QString := List QChar

instance : LawfulBEq QString := inferInstance

/-- A hash table; the order of its entries is not specified. -/
abbrev QHash (K V : Type) := Dict K V

/-- A `std::string` or a `QByteArray`: a sequence of bytes. -/
abbrev Bytes := List UInt8

/-- `QStringLiteral` of an ASCII text. -/
def qstr (s : String) : QString := s.toList.map fun c => c.toNat.toUInt16

namespace QString

/-- `QChar::isHighSurrogate`. -/
def isHighSurrogate (u : QChar) : Bool := 0xD800 ≤ u.toNat && u.toNat < 0xDC00

/-- `QChar::isLowSurrogate`. -/
def isLowSurrogate (u : QChar) : Bool := 0xDC00 ≤ u.toNat && u.toNat < 0xE000

/-- The UTF-8 form of one code unit that is not half of a pair. -/
def encodeUnit (u : QChar) : Bytes :=
  let n := u.toNat
  if n < 0x80 then [n.toUInt8]
  else if n < 0x800 then [(0xC0 + n / 64).toUInt8, (0x80 + n % 64).toUInt8]
  else if isHighSurrogate u || isLowSurrogate u then [0x3F]
  else [(0xE0 + n / 4096).toUInt8, (0x80 + n / 64 % 64).toUInt8, (0x80 + n % 64).toUInt8]

/-- The UTF-8 form of a surrogate pair. -/
def encodePair (hi lo : QChar) : Bytes :=
  let n := 0x10000 + (hi.toNat - 0xD800) * 1024 + (lo.toNat - 0xDC00)
  [(0xF0 + n / 262144).toUInt8, (0x80 + n / 4096 % 64).toUInt8,
    (0x80 + n / 64 % 64).toUInt8, (0x80 + n % 64).toUInt8]

/-- `QString::toUtf8`. -/
def toUtf8 : QString → Bytes
  | [] => []
  | [u] => encodeUnit u
  | u :: v :: rest =>
    if isHighSurrogate u && isLowSurrogate v then encodePair u v ++ toUtf8 rest
    else encodeUnit u ++ toUtf8 (v :: rest)

theorem encodeUnit_ne_nil (u : QChar) : encodeUnit u ≠ [] := by
  unfold encodeUnit
  simp only
  repeat' split
  all_goals simp

/-- Only the empty string has an empty encoding. -/
@[simp] theorem toUtf8_eq_nil_iff (s : QString) : toUtf8 s = [] ↔ s = [] := by
  fun_cases toUtf8 s <;> simp_all [encodeUnit_ne_nil, encodePair]

/-- No byte of a longer sequence is an ASCII byte. -/
theorem one_ne_toUInt8 {n : ℕ} (hlow : 0x80 ≤ n) (hhigh : n < 0x100) : (1 : UInt8) ≠ n.toUInt8 := by
  intro h
  have hval := congrArg UInt8.toNat h
  have hmod : n.toUInt8.toNat = n % 256 := UInt8.toNat_ofNat'
  have hone : (1 : UInt8).toNat = 1 := rfl
  omega

theorem one_mem_encodeUnit_iff (u : QChar) : 1 ∈ encodeUnit u ↔ u = 1 := by
  have hn : u.toNat < 65536 := u.toNat_lt
  have hu : u = 1 ↔ u.toNat = 1 := UInt16.toNat_inj.symm
  have hne : u.toNat ≠ 1 → ¬ u = 1 := mt hu.mp
  simp only [encodeUnit]
  split_ifs with h₁ h₂ h₃
  · have hmod : u.toNat.toUInt8.toNat = u.toNat % 256 := UInt8.toNat_ofNat'
    have hone : (1 : UInt8).toNat = 1 := rfl
    rw [List.mem_singleton, ← UInt8.toNat_inj, hu]
    omega
  · refine iff_of_false ?_ (hne (by omega))
    simp only [List.mem_cons, List.not_mem_nil, or_false, not_or]
    exact ⟨one_ne_toUInt8 (by omega) (by omega), one_ne_toUInt8 (by omega) (by omega)⟩
  · exact iff_of_false (by decide) (hne (by omega))
  · refine iff_of_false ?_ (hne (by omega))
    simp only [List.mem_cons, List.not_mem_nil, or_false, not_or]
    exact ⟨one_ne_toUInt8 (by omega) (by omega), one_ne_toUInt8 (by omega) (by omega),
      one_ne_toUInt8 (by omega) (by omega)⟩

theorem one_notMem_encodePair {hi lo : QChar} (hhi : isHighSurrogate hi = true)
    (hlo : isLowSurrogate lo = true) : 1 ∉ encodePair hi lo := by
  simp only [isHighSurrogate, Bool.and_eq_true, decide_eq_true_eq] at hhi
  simp only [isLowSurrogate, Bool.and_eq_true, decide_eq_true_eq] at hlo
  simp only [encodePair, List.mem_cons, List.not_mem_nil, or_false, not_or]
  exact ⟨one_ne_toUInt8 (by omega) (by omega), one_ne_toUInt8 (by omega) (by omega),
    one_ne_toUInt8 (by omega) (by omega), one_ne_toUInt8 (by omega) (by omega)⟩

/-- The character U+0001 is the byte 1, and no other character has that byte. -/
theorem one_mem_toUtf8_iff (s : QString) : 1 ∈ toUtf8 s ↔ 1 ∈ s := by
  fun_induction toUtf8 s with
  | case1 => simp
  | case2 u => simp [one_mem_encodeUnit_iff, eq_comm]
  | case3 u v rest h ih =>
    obtain ⟨hu, hv⟩ := Bool.and_eq_true_iff.mp h
    have hne : ∀ w : QChar, isHighSurrogate w = true ∨ isLowSurrogate w = true → (1 : QChar) ≠ w := by
      intro w hw heq
      rw [← heq] at hw
      revert hw
      decide
    simp [one_notMem_encodePair hu hv, ih, hne u (.inl hu), hne v (.inr hv)]
  | case4 u v rest h ih =>
    rw [List.mem_append, one_mem_encodeUnit_iff, ih, List.mem_cons (a := 1) (b := u), eq_comm]

end QString

end LogosProtocol
