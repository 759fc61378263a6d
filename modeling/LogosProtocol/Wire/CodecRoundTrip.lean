import LogosProtocol.Wire.ExactIntegers

/-!
# The typed codec gives back what it was given

By induction on the type: each specialisation of the decoder takes what its encoder writes,
whatever the path.  Where specialisations overlap the type decides and never the value: a map
with the key `_bytes` is read as a map, and only a vector of `uint8_t` is read as bytes.  An
optional relies on its element never being written as null, which holds of every type but an
optional and `any`.

## Main results

* `Codec.fromJson_of_toJson` — the round trip, for every type without an ambiguous null.
-/

namespace LogosProtocol

namespace TypeCode

/-- Null is the form of a value of the type. -/
def takesNull : TypeCode → Bool
  | any => true
  | optional _ => true
  | _ => false

/-- No optional is applied directly to an optional or to `any`. -/
def WellFormed : TypeCode → Prop
  | vector t => t.WellFormed
  | map t => t.WellFormed
  | optional t => t.takesNull = false ∧ t.WellFormed
  | _ => True

/-- Every float in a value is finite. -/
def FiniteFloats : (t : TypeCode) → t.Value → Prop
  | float, v => Single.IsFinite v
  | double, v => Double.IsFinite v
  | vector t, v => ∀ x, x ∈ (show List t.Value from v) → t.FiniteFloats x
  | map t, v => ∀ e ∈ (show StringMap t.Value from v).entries, t.FiniteFloats e.2
  | optional t, v => ∀ x, (show Option t.Value from v) = some x → t.FiniteFloats x
  | _, _ => True

end TypeCode

/-! ## Integers -/

namespace Integral

/-- An encoded integer is worth what it was. -/
theorem numberValue_toJson {T : Integral} (v : T.Value) :
    (T.toJson v).numberValue = some (T.toInt v : ℚ) := by
  unfold toJson toInt
  split_ifs
  · have hlt : BitVec.toNat v < 2 ^ 64 :=
      lt_of_lt_of_le v.isLt (Nat.pow_le_pow_right (by decide) (bits_le T.width).2)
    have hnum : (BitVec.toNat v).toUInt64.toNat = BitVec.toNat v := UInt64.toNat_ofNat_of_lt' hlt
    rw [Json.numberValue, hnum, Int.cast_natCast]
  · have hlow := BitVec.le_toInt v
    have hhigh := BitVec.toInt_lt (x := v)
    have hbits := (bits_le T.width).2
    have hpow : (2 : ℤ) ^ (T.width.bits - 1) ≤ 2 ^ 63 := by
      have hexp : T.width.bits - 1 ≤ 63 := by omega
      exact_mod_cast Nat.pow_le_pow_right (by decide : 0 < 2) hexp
    have hnum : (Int64.ofInt (BitVec.toInt v)).toInt = BitVec.toInt v := by
      apply Int64.toInt_ofInt_of_le
      · omega
      · omega
    rw [Json.numberValue, hnum]

/-- **An integer of any width and signedness is decoded as itself**, the extreme ones too. -/
theorem fromJson_toJson {T : Integral} (v : T.Value) (path : Bytes) :
    T.fromJson (T.toJson v) path = .ok v :=
  (fromJson_eq_ok_iff T _ path v).mpr (numberValue_toJson v)

end Integral

/-! ## Containers -/

namespace StringMap
variable {V : Type}

/-- A key above all others goes to the end. -/
theorem entries_emplace (m : StringMap V) {key : Bytes} (v : V)
    (h : ∀ e ∈ m.entries, e.1 < key) : (m.emplace key v).entries = m.entries ++ [(key, v)] := by
  have hnone : Fields.get? key m.entries = none := by
    rw [Fields.get?_eq_none_iff]
    intro e he heq
    have := h e he
    grind
  simp only [emplace, hnone]
  exact Fields.set_of_forall_lt v h

end StringMap

namespace Codec

section loops
variable {V : Type} {decode : Json → Bytes → Except CodecError V} {encode : V → Json}

/-- Elements that are decoded as themselves make a list that is. -/
theorem fromItems_map {vs : List V} (h : ∀ v ∈ vs, ∀ path, decode (encode v) path = .ok v)
    (path : Bytes) (i : ℕ) : fromItems decode path i (vs.map encode) = .ok vs := by
  induction vs generalizing i with
  | nil => rfl
  | cons v vs ih =>
    have hhead := h v (List.mem_cons_self ..)
    have htail := ih fun x hx => h x (List.mem_cons_of_mem v hx)
    simp only [List.map_cons, fromItems, hhead, htail, ok_bind]
    rfl

/-- Members in key order are emplaced one after the other. -/
theorem fromMembers_map (out : StringMap V) {entries : List (Bytes × V)}
    (hordered : Fields.Ordered (out.entries ++ entries))
    (h : ∀ e ∈ entries, ∀ path, decode (encode e.2) path = .ok e.2) (path : Bytes) :
    fromMembers decode path out (entries.map fun e => (e.1, encode e.2)) =
      .ok ⟨out.entries ++ entries, hordered⟩ := by
  induction entries generalizing out with
  | nil => simp [fromMembers]
  | cons e entries ih =>
    have hlast : ∀ e' ∈ out.entries, e'.1 < e.1 := fun e' he' =>
      (List.pairwise_append.mp hordered).2.2 e' he' e (List.mem_cons_self ..)
    have hout := out.entries_emplace e.2 hlast
    have hnext : Fields.Ordered ((out.emplace e.1 e.2).entries ++ entries) := by
      rw [hout, List.append_assoc]
      exact hordered
    simp only [List.map_cons, fromMembers, h e (List.mem_cons_self ..), ok_bind]
    rw [ih _ hnext fun e' he' => h e' (List.mem_cons_of_mem e he')]
    simp [hout]

end loops

/-! ## Every specialisation -/

variable (floatText : Double → Bytes)

/-- A vector is written as an array or as tagged bytes. -/
theorem vectorToJson_ne_null {t : TypeCode} (encode : t.Value → Json) (v : List t.Value) :
    vectorToJson t encode v ≠ .null := by
  by_cases h : t = .integral .uint8
  · subst h
    rw [vectorToJson_uint8 encode v]
    simp [bytesToJson]
  · simp [vectorToJson_of_ne h]

/-- Only the types that take null write it. -/
theorem toJson_ne_null {t : TypeCode} (h : t.takesNull = false) (v : t.Value) :
    toJson t v ≠ .null := by
  cases t with
  | bool => simp [toJson]
  | string => simp [toJson]
  | integral T =>
    simp only [toJson, Integral.toJson]
    split_ifs <;> simp
  | float => simp [toJson]
  | double => simp [toJson]
  | any => simp [TypeCode.takesNull] at h
  | vector t => exact vectorToJson_ne_null (toJson t) v
  | map t =>
    intro hnull
    cases (toJson_map_eq t v).symm.trans hnull
  | optional t => simp [TypeCode.takesNull] at h

/-- Tagged bytes are read back. -/
theorem vectorFromJson_bytes (encode : Integral.uint8.Value → Json)
    (decode : Json → Bytes → Except CodecError Integral.uint8.Value)
    (v : List Integral.uint8.Value) (path : Bytes) :
    vectorFromJson floatText (.integral .uint8) decode
      (vectorToJson (.integral .uint8) encode v) path = .ok v := by
  have htag : ∀ text, taggedText [(bytesKey, .string text)] = some text :=
    fun text => (taggedText_eq_some_iff _ text).mpr rfl
  rw [vectorToJson_uint8, vectorFromJson_uint8]
  simp only [bytesToJson, bytesFromJsonLenient, htag, b64UrlDecode_encode, Except.map]
  congr 1
  exact (List.map_map ..).trans (List.map_id v)

/-- **The typed codec round trip.**  Every value of a type whose optionals stand over a type
without null is decoded as itself, under any path. -/
theorem fromJson_of_toJson {t : TypeCode} (ht : t.WellFormed) (v : t.Value)
    (hv : t.FiniteFloats v) (path : Bytes) :
    fromJson floatText t (toJson t v) path = .ok v := by
  induction t generalizing path with
  | bool => rfl
  | string => rfl
  | integral T => exact Integral.fromJson_toJson v path
  | float =>
    have hback : (Single.toDouble v).toSingle = v := Single.toSingle_toDouble hv
    exact congrArg Except.ok hback
  | double => rfl
  | any => rfl
  | vector t ih =>
    rw [toJson_vector_eq t v, fromJson_vector_eq]
    by_cases hbyte : t = .integral .uint8
    · subst hbyte
      exact vectorFromJson_bytes floatText _ _ v path
    · rw [vectorToJson_of_ne hbyte _ v, vectorFromJson_of_ne floatText hbyte, fromArray]
      exact fromItems_map (fun x hx path' => ih ht x (hv x hx) path') path 0
  | map t ih =>
    have hread := fromMembers_map (⟨[], .nil⟩ : StringMap t.Value) v.ordered
      (fun e he path' => ih ht e.2 (hv e he) path') path
    have hwritten : Fields.setAll [] (v.entries.map fun e => (e.1, toJson t e.2)) =
        v.entries.map fun e => (e.1, toJson t e.2) := by
      apply Fields.setAll_of_ordered
      exact List.pairwise_map.mpr v.ordered
    rw [toJson_map_eq t v, hwritten, fromJson_map_object]
    exact hread
  | optional t ih =>
    cases v with
    | none => rfl
    | some x =>
      have hne : toJson t x ≠ .null := toJson_ne_null ht.1 x
      have hback := ih ht.2 x (hv x rfl) path
      rw [toJson_some, fromJson_optional_of_ne floatText t hne, hback]
      rfl

/-- Optional lists of floats, one of them under the key of the bytes escape. -/
def floatsByKey : (TypeCode.map (.optional (.vector .float))).Value :=
  (⟨[(bstr "_bytes", some [⟨0x3FC00000⟩, ⟨0x80000000⟩]), (bstr "none", none)], by
    have hlt : bstr "_bytes" < bstr "none" := by decide
    simpa [Fields.Ordered] using hlt⟩ : StringMap (Option (List Single)))

theorem fromJson_of_toJson_floats :
    fromJson (fun _ => []) (.map (.optional (.vector .float)))
      (toJson (.map (.optional (.vector .float))) floatsByKey) [] = .ok floatsByKey := by
  have hwell : (TypeCode.map (.optional (.vector .float))).WellFormed := ⟨rfl, trivial⟩
  refine fromJson_of_toJson (fun _ => []) hwell floatsByKey ?_ []
  intro e he x hx f hf
  rcases List.mem_pair.mp he with rfl | rfl
  · obtain rfl : x = ([⟨0x3FC00000⟩, ⟨0x80000000⟩] : List Single) := (Option.some.inj hx).symm
    rcases List.mem_pair.mp hf with rfl | rfl
    · change Single.IsFinite _
      decide
    · change Single.IsFinite _
      decide
  · cases hx

end Codec

end LogosProtocol
