import LogosProtocol.Transport.Config
import LogosProtocol.Wire.ExactIntegers
import LogosProtocol.Wire.WebMessage

/-!
# What the reader of transport configurations makes of a text

`value()` throws for a field of another type than its default, and nothing between it and the C
interface catches.  The port is read with `get<int>()`, which casts: a number beyond 32 bits loses
its high bits, a fraction is dropped and a boolean is 0 or 1, all before the range is checked.

## Main definitions

* `Typed`, `PortKept` — the fields of an element that are read without an exception, and the ports
  that are read as what they are worth.
* `ParsesExactly` — a text gives a set, whose ports are those of the text.

## Main results

* `parsesExactly_iff` — the texts of which this holds, and those that no exception comes of.
-/

namespace LogosProtocol.Transport

/-! ## The elements of a text -/

/-- The elements the reader goes through. -/
def elements (json : WireCodec) (text : Bytes) : List Json :=
  if text = [] then []
  else
    match json.parse text with
    | .ok (.array items) => items
    | _ => []

/-- The text that a caller of the C interface hands to the reader, or an empty one. -/
def interfaceText : Option Bytes → Bytes
  | none => []
  | some text => if text = [] ∨ text = bstr "null" then [] else 0x5B :: text ++ [0x5D]

/-- An element gives a configuration with the port it has, or none. -/
def PortExact (o : Json) : Prop :=
  ∀ cfg, configFromJson o = .ok (some cfg) →
    ∀ v, o.field? (bstr "port") = some v → v.numberValue = some (cfg.port.toNat : ℚ)

/-- A set is read for the text, and a port in it is worth what the field of its element is. -/
structure ParsesExactly (json : WireCodec) (text : Bytes) : Prop where
  returns : Succeeds (transportSetFromJsonString json text)
  empty : ∀ what, json.parse text = .error what → transportSetFromJsonString json text = .ok []
  ports : ∀ o ∈ elements json text, PortExact o

/-! ## The fields that can be read -/

/-- A field, where it is there, is of a kind. -/
def FieldIs (o : Json) (key : Bytes) (p : Json → Prop) : Prop := ∀ v, o.field? key = some v → p v

def IsString (v : Json) : Prop := ∃ s, v = .string s

def IsBoolean (v : Json) : Prop := ∃ b, v = .boolean b

/-- What `get<int>()` takes: a boolean, an integer, or a double that an `int` has room for. -/
def IsIntLike (v : Json) : Prop :=
  IsBoolean v ∨ (∃ i, v.integer? = some i) ∨
    ∃ d, v = .numberFloat d ∧ d.IsFinite ∧ -2 ^ 31 ≤ d.toInt ∧ d.toInt < 2 ^ 31

/-- The port of an element is not passed over. -/
def PortInRange (o : Json) : Prop :=
  FieldIs o (bstr "port") fun v => ∀ p, v.getInt = .ok p → ¬ (p < 0 ∨ 0xFFFF < p)

/-- Every field that is read of an element is of the type it is read as.  The fields after the port
are not read of one that is passed over. -/
structure Typed (o : Json) : Prop where
  protocol : FieldIs o (bstr "protocol") IsString
  host : FieldIs o (bstr "host") IsString
  port : FieldIs o (bstr "port") IsIntLike
  codec : PortInRange o → FieldIs o (bstr "codec") IsString
  caFile : PortInRange o → FieldIs o (bstr "ca_file") IsString
  certFile : PortInRange o → FieldIs o (bstr "cert_file") IsString
  keyFile : PortInRange o → FieldIs o (bstr "key_file") IsString
  verifyPeer : PortInRange o → FieldIs o (bstr "verify_peer") IsBoolean

/-- The port is read as what it is worth, or passed over. -/
def PortKept : Json → Prop
  | .boolean _ => False
  | .numberFloat d => d.isWhole = true ∨ d.toInt < 0 ∨ 0xFFFF < d.toInt
  | v => ∀ i, v.integer? = some i → 0 ≤ i ∧ i ≤ 0xFFFF ∨ 0xFFFF < i % 2 ^ 32

/-! ## One field -/

section fields
variable {α : Type} {fields : List (Bytes × Json)} {key : Bytes}

/-- `value()` throws only for a field that is there. -/
theorem succeeds_value_iff (get : Json → Except DecodeError α) (default : α) {p : Json → Prop}
    (hget : ∀ v, Succeeds (get v) ↔ p v) :
    Succeeds ((Json.object fields).value key get default) ↔ FieldIs (.object fields) key p := by
  unfold FieldIs
  simp only [Json.value, Json.field?]
  cases Fields.get? key fields with
  | none => simp
  | some v => simp [hget]

theorem succeeds_getString_iff (v : Json) : Succeeds v.getString ↔ IsString v := by
  unfold IsString
  cases v <;> simp [Json.getString]

theorem succeeds_getBool_iff (v : Json) : Succeeds v.getBool ↔ IsBoolean v := by
  unfold IsBoolean
  cases v <;> simp [Json.getBool]

theorem succeeds_getInt_iff (v : Json) : Succeeds v.getInt ↔ IsIntLike v := by
  unfold IsIntLike IsBoolean
  cases v with
  | numberFloat d =>
    simp only [Json.getInt, Double.toInt32?]
    split_ifs with h
    · exact iff_of_true (succeeds_ok _) (.inr (.inr ⟨d, rfl, h⟩))
    · refine iff_of_false (not_succeeds_error _) ?_
      rintro (⟨b, hb⟩ | ⟨i, hi⟩ | ⟨d', hd, h'⟩)
      · cases hb
      · cases hi
      · cases hd
        exact h h'
  | _ => simp [Json.getInt, Json.integer?]

/-- The port that is read says whether the element is passed over. -/
theorem portInRange_iff {p : Int32}
    (h : (Json.object fields).value (bstr "port") Json.getInt 0 = .ok p) :
    PortInRange (.object fields) ↔ ¬ (p < 0 ∨ 0xFFFF < p) := by
  unfold PortInRange FieldIs
  simp only [Json.value, Json.field?] at h ⊢
  cases hport : Fields.get? (bstr "port") fields with
  | none =>
    rw [hport] at h
    obtain rfl : 0 = p := Except.ok.inj h
    simp
  | some v =>
    rw [hport] at h
    simp only at h
    simp [h]

theorem succeeds_string_iff (key default : Bytes) :
    Succeeds ((Json.object fields).value key Json.getString default) ↔
      FieldIs (.object fields) key IsString :=
  succeeds_value_iff Json.getString default succeeds_getString_iff

theorem succeeds_bool_iff (key : Bytes) (default : Bool) :
    Succeeds ((Json.object fields).value key Json.getBool default) ↔
      FieldIs (.object fields) key IsBoolean :=
  succeeds_value_iff Json.getBool default succeeds_getBool_iff

end fields

/-! ## One element -/

/-- The fields after the port are read for what they are made into. -/
theorem succeeds_afterPort_iff (fields : List (Bytes × Json))
    (build : Bytes → Bytes → Bytes → Bytes → Bool → LogosTransportConfig) :
    Succeeds (do
      let codec ← (Json.object fields).value (bstr "codec") Json.getString (bstr "json")
      let caFile ← (Json.object fields).value (bstr "ca_file") Json.getString []
      let certFile ← (Json.object fields).value (bstr "cert_file") Json.getString []
      let keyFile ← (Json.object fields).value (bstr "key_file") Json.getString []
      let verifyPeer ← (Json.object fields).value (bstr "verify_peer") Json.getBool true
      return some (build codec caFile certFile keyFile verifyPeer)) ↔
      FieldIs (.object fields) (bstr "codec") IsString ∧
        FieldIs (.object fields) (bstr "ca_file") IsString ∧
        FieldIs (.object fields) (bstr "cert_file") IsString ∧
        FieldIs (.object fields) (bstr "key_file") IsString ∧
        FieldIs (.object fields) (bstr "verify_peer") IsBoolean := by
  rw [← succeeds_string_iff (bstr "codec") (bstr "json"), ← succeeds_string_iff (bstr "ca_file") [],
    ← succeeds_string_iff (bstr "cert_file") [], ← succeeds_string_iff (bstr "key_file") [],
    ← succeeds_bool_iff (bstr "verify_peer") true]
  apply succeeds_bind_iff_and
  intro codec
  apply succeeds_bind_iff_and
  intro caFile
  apply succeeds_bind_iff_and
  intro certFile
  apply succeeds_bind_iff_and
  intro keyFile
  exact succeeds_bind_iff fun _ => succeeds_pure _

/-- There is nothing to be said of the fields of what is no object. -/
theorem FieldIs.of_no_fields {o : Json} (h : ∀ key, o.field? key = none) (key : Bytes)
    (p : Json → Prop) : FieldIs o key p := by
  intro v hv
  rw [h key] at hv
  cases hv

theorem Typed.of_no_fields {o : Json} (h : ∀ key, o.field? key = none) : Typed o where
  protocol := .of_no_fields h _ _
  host := .of_no_fields h _ _
  port := .of_no_fields h _ _
  codec _ := .of_no_fields h _ _
  caFile _ := .of_no_fields h _ _
  certFile _ := .of_no_fields h _ _
  keyFile _ := .of_no_fields h _ _
  verifyPeer _ := .of_no_fields h _ _

/-- **An element is read without an exception exactly when its fields are of their types.** -/
theorem succeeds_configFromJson_iff (o : Json) : Succeeds (configFromJson o) ↔ Typed o := by
  cases o with
  | object fields =>
    have hint : Succeeds ((Json.object fields).value (bstr "port") Json.getInt 0) ↔
        FieldIs (.object fields) (bstr "port") IsIntLike :=
      succeeds_value_iff Json.getInt 0 succeeds_getInt_iff
    have hsplit : Succeeds (configFromJson (.object fields)) ↔
        FieldIs (.object fields) (bstr "protocol") IsString ∧
        FieldIs (.object fields) (bstr "host") IsString ∧
        FieldIs (.object fields) (bstr "port") IsIntLike ∧
        (PortInRange (.object fields) →
          FieldIs (.object fields) (bstr "codec") IsString ∧
          FieldIs (.object fields) (bstr "ca_file") IsString ∧
          FieldIs (.object fields) (bstr "cert_file") IsString ∧
          FieldIs (.object fields) (bstr "key_file") IsString ∧
          FieldIs (.object fields) (bstr "verify_peer") IsBoolean) := by
      rw [← succeeds_string_iff (bstr "protocol") (bstr "local"),
        ← succeeds_string_iff (bstr "host") (bstr "127.0.0.1"), ← hint]
      apply succeeds_bind_iff_and
      intro protocol
      apply succeeds_bind_iff_and
      intro host
      cases hport : (Json.object fields).value (bstr "port") Json.getInt 0 with
      | error e => simp
      | ok p =>
        rw [portInRange_iff hport, ok_bind]
        by_cases hout : p < 0 ∨ 0xFFFF < p
        · simp [hout]
        · rw [if_neg hout, succeeds_afterPort_iff]
          simp [hout]
    rw [hsplit]
    constructor
    · intro ⟨hprotocol, hhost, hport, hrest⟩
      exact ⟨hprotocol, hhost, hport, fun h => (hrest h).1, fun h => (hrest h).2.1,
        fun h => (hrest h).2.2.1, fun h => (hrest h).2.2.2.1, fun h => (hrest h).2.2.2.2⟩
    · intro h
      exact ⟨h.protocol, h.host, h.port, fun hin => ⟨h.codec hin, h.caFile hin, h.certFile hin,
        h.keyFile hin, h.verifyPeer hin⟩⟩
  | _ => exact iff_of_true (succeeds_ok _) (.of_no_fields fun _ => rfl)

/-- What is read of an object: its port in range, or nothing. -/
theorem eq_of_configFromJson {fields : List (Bytes × Json)} {read : Option LogosTransportConfig}
    (h : configFromJson (.object fields) = .ok read) :
    ∃ p, (Json.object fields).value (bstr "port") Json.getInt 0 = .ok p ∧
      ((p < 0 ∨ 0xFFFF < p) ∧ read = none ∨
        ¬ (p < 0 ∨ 0xFFFF < p) ∧ ∃ cfg, read = some cfg ∧ cfg.port = p.toUInt32.toUInt16) := by
  obtain ⟨protocol, -, h⟩ := bind_eq_ok_iff.mp h
  obtain ⟨host, -, h⟩ := bind_eq_ok_iff.mp h
  obtain ⟨p, hport, h⟩ := bind_eq_ok_iff.mp h
  refine ⟨p, hport, ?_⟩
  by_cases hout : p < 0 ∨ 0xFFFF < p
  · rw [if_pos hout] at h
    exact .inl ⟨hout, (Except.ok.inj h).symm⟩
  · rw [if_neg hout] at h
    obtain ⟨codec, -, h⟩ := bind_eq_ok_iff.mp h
    obtain ⟨caFile, -, h⟩ := bind_eq_ok_iff.mp h
    obtain ⟨certFile, -, h⟩ := bind_eq_ok_iff.mp h
    obtain ⟨keyFile, -, h⟩ := bind_eq_ok_iff.mp h
    obtain ⟨verifyPeer, -, h⟩ := bind_eq_ok_iff.mp h
    exact .inr ⟨hout, _, (Except.ok.inj h).symm, rfl⟩

/-! ## The port -/

theorem inRange_iff (p : Int32) : ¬ (p < 0 ∨ 0xFFFF < p) ↔ 0 ≤ p.toInt ∧ p.toInt ≤ 0xFFFF := by
  have hzero : (0 : Int32).toInt = 0 := rfl
  have hmax : (0xFFFF : Int32).toInt = 0xFFFF := rfl
  rw [Int32.lt_iff_toInt_lt, Int32.lt_iff_toInt_lt, hzero, hmax]
  omega

/-- A port in range is kept by the cast to 16 bits. -/
theorem toNat_port {p : Int32} (h : ¬ (p < 0 ∨ 0xFFFF < p)) :
    (p.toUInt32.toUInt16.toNat : ℤ) = p.toInt := by
  rw [inRange_iff] at h
  have hint : p.toInt = Int.bmod p.toUInt32.toNat (2 ^ 32) := BitVec.toInt_eq_toNat_bmod p.toBitVec
  have hlt := p.toUInt32.toNat_lt
  rw [UInt32.toNat_toUInt16]
  rw [hint, Int.bmod_def] at h ⊢
  split_ifs at h ⊢ with hsmall
  · omega
  · omega

/-- The cast of an integer is in range when the low 32 bits of the integer are. -/
theorem inRange_ofInt_iff (i : ℤ) :
    ¬ (Int32.ofInt i < 0 ∨ 0xFFFF < Int32.ofInt i) ↔ i % 2 ^ 32 ≤ 0xFFFF := by
  rw [inRange_iff, Int32.toInt_ofInt, Int.bmod_def, show (Int32.size : ℤ) = 2 ^ 32 from rfl]
  split_ifs
  · omega
  · omega

/-- It is then worth the integer when the integer is in range itself. -/
theorem toInt_ofInt_eq_self_iff {i : ℤ} (h : i % 2 ^ 32 ≤ 0xFFFF) :
    i = (Int32.ofInt i).toInt ↔ 0 ≤ i ∧ i ≤ 0xFFFF := by
  rw [Int32.toInt_ofInt, Int.bmod_def, show (Int32.size : ℤ) = 2 ^ 32 from rfl]
  split_ifs
  · omega
  · omega

theorem portKept_integer_iff {v : Json} {i : ℤ} (hvalue : v.numberValue = some (i : ℚ))
    (hget : v.getInt = .ok (Int32.ofInt i)) :
    (∀ p, v.getInt = .ok p → ¬ (p < 0 ∨ 0xFFFF < p) → v.numberValue = some (p.toInt : ℚ)) ↔
      (0 ≤ i ∧ i ≤ 0xFFFF ∨ 0xFFFF < i % 2 ^ 32) := by
  simp only [hget, hvalue, Except.ok.injEq, forall_eq', Option.some.injEq, Int.cast_inj]
  rw [inRange_ofInt_iff]
  by_cases hlow : i % 2 ^ 32 ≤ 0xFFFF
  · rw [toInt_ofInt_eq_self_iff hlow]
    omega
  · omega

/-- A double that is cast to an `int` in range is kept when it is whole. -/
theorem portKept_float_iff {d : Double} (h : d.IsFinite ∧ -2 ^ 31 ≤ d.toInt ∧ d.toInt < 2 ^ 31) :
    (∀ p, (Json.numberFloat d).getInt = .ok p → ¬ (p < 0 ∨ 0xFFFF < p) →
      (Json.numberFloat d).numberValue = some (p.toInt : ℚ)) ↔
      (d.isWhole = true ∨ d.toInt < 0 ∨ 0xFFFF < d.toInt) := by
  have hget : (Json.numberFloat d).getInt = .ok (Int32.ofInt d.toInt) := by
    rw [Json.getInt, Double.toInt32?, if_pos h]
  have hcast : (Int32.ofInt d.toInt).toInt = d.toInt := Int32.toInt_ofInt_of_le h.2.1 h.2.2
  have hvalue : (Json.numberFloat d).numberValue = some (d.toInt : ℚ) ↔ d.isWhole = true := by
    rw [Json.numberValue, if_pos h.1, Option.some.injEq, Double.toRat_eq_toInt_iff h.1]
  simp only [hget, Except.ok.injEq, forall_eq', hcast, hvalue, inRange_iff]
  by_cases hwhole : d.isWhole = true
  · simp [hwhole]
  · simp only [hwhole, false_or, Bool.false_eq_true, imp_false]
    omega

/-- **A port in range is read as what it is worth**, exactly where it is kept. -/
theorem portKept_iff (v : Json) :
    (∀ p, v.getInt = .ok p → ¬ (p < 0 ∨ 0xFFFF < p) → v.numberValue = some (p.toInt : ℚ)) ↔
      (IsIntLike v → PortKept v) := by
  cases v with
  | numberInteger n =>
    rw [portKept_integer_iff rfl rfl]
    simp [IsIntLike, PortKept, Json.integer?]
  | numberUnsigned u =>
    rw [portKept_integer_iff (i := u.toNat) (by simp [Json.numberValue]) rfl]
    simp [IsIntLike, PortKept, Json.integer?]
  | numberFloat d =>
    by_cases h : d.IsFinite ∧ -2 ^ 31 ≤ d.toInt ∧ d.toInt < 2 ^ 31
    · rw [portKept_float_iff h]
      have hin : IsIntLike (.numberFloat d) := .inr (.inr ⟨d, rfl, h⟩)
      exact ⟨fun hkept _ => hkept, fun hkept => hkept hin⟩
    · have hnot : ¬ Succeeds (Json.numberFloat d).getInt := by
        rw [Json.getInt, Double.toInt32?, if_neg h]
        exact not_succeeds_error _
      rw [← succeeds_getInt_iff]
      exact iff_of_true (fun p hp => absurd ⟨p, hp⟩ hnot) fun hin => absurd hin hnot
  | boolean b =>
    refine iff_of_false (fun h => ?_) fun h => h (.inl ⟨b, rfl⟩)
    cases b with
    | false => cases h 0 rfl (by decide)
    | true => cases h 1 rfl (by decide)
  | null | string s | array items | object fields | binary b =>
    exact iff_of_true (fun p hp => by cases hp) fun _ i hi => by cases hi

/-! ## A text -/

/-- **The port of an element that is read is exact exactly when it is kept.** -/
theorem portExact_iff {o : Json} (htyped : Typed o) :
    PortExact o ↔ FieldIs o (bstr "port") PortKept := by
  cases o with
  | object fields =>
    have hvalue : ∀ v, (Json.object fields).field? (bstr "port") = some v →
        (Json.object fields).value (bstr "port") Json.getInt 0 = v.getInt := by
      intro v hv
      have hget : Fields.get? (bstr "port") fields = some v := hv
      simp only [Json.value, hget]
    constructor
    · intro h v hv
      refine (portKept_iff v).mp (fun p hp hin => ?_) (htyped.port v hv)
      obtain ⟨read, hread⟩ := (succeeds_configFromJson_iff _).mpr htyped
      obtain ⟨p', hp', hread'⟩ := eq_of_configFromJson hread
      obtain rfl : p' = p := Except.ok.inj (hp'.symm.trans ((hvalue v hv).trans hp))
      obtain ⟨hout, -⟩ | ⟨-, cfg, rfl, hport⟩ := hread'
      · exact absurd hout hin
      · rw [h cfg hread v hv, hport, ← toNat_port hin, Int.cast_natCast]
    · intro h cfg hread v hv
      obtain ⟨p, hp, hread'⟩ := eq_of_configFromJson hread
      obtain ⟨-, hnone⟩ | ⟨hin, cfg', hcfg, hport⟩ := hread'
      · cases hnone
      · obtain rfl := Option.some.inj hcfg
        rw [(portKept_iff v).mpr (fun _ => h v hv) p ((hvalue v hv).symm.trans hp) hin, hport,
          ← toNat_port hin, Int.cast_natCast]
  | _ => exact iff_of_true (fun cfg hread => by cases hread) (.of_no_fields (fun _ => rfl) _ _)

theorem transportSetFromJsonString_eq (json : WireCodec) (text : Bytes) :
    transportSetFromJsonString json text = configsFromJson (elements json text) := by
  unfold transportSetFromJsonString elements
  split_ifs
  · rfl
  · cases json.parse text with
    | error what => rfl
    | ok j => cases j <;> rfl

/-- A set is read when each of its elements is. -/
theorem succeeds_configsFromJson_iff (items : List Json) :
    Succeeds (configsFromJson items) ↔ ∀ o ∈ items, Typed o := by
  induction items with
  | nil => simp [configsFromJson]
  | cons o items ih =>
    rw [List.forall_mem_cons, ← ih, ← succeeds_configFromJson_iff, configsFromJson]
    apply succeeds_bind_iff_and
    intro cfg
    exact succeeds_bind_iff fun _ => succeeds_pure _

/-- **A text is read exactly when its elements are of their types and their ports are kept.** -/
theorem parsesExactly_iff_elements (json : WireCodec) (text : Bytes) :
    ParsesExactly json text ↔
      ∀ o ∈ elements json text, Typed o ∧ FieldIs o (bstr "port") PortKept := by
  constructor
  · intro h o ho
    have hreturns := h.returns
    rw [transportSetFromJsonString_eq, succeeds_configsFromJson_iff] at hreturns
    have htyped := hreturns o ho
    exact ⟨htyped, (portExact_iff htyped).mp (h.ports o ho)⟩
  · intro h
    refine ⟨?_, ?_, fun o ho => (portExact_iff (h o ho).1).mpr (h o ho).2⟩
    · rw [transportSetFromJsonString_eq, succeeds_configsFromJson_iff]
      exact fun o ho => (h o ho).1
    · intro what hparse
      simp [transportSetFromJsonString, hparse]

/-! ## The C interface -/

section interface
variable (json : WireCodec) (default : LogosTransportConfig)

/-- The C interface throws what the reader throws. -/
theorem succeeds_parseTransportJson_iff (s : Option Bytes) :
    Succeeds (parseTransportJson json default s) ↔
      ∀ o ∈ elements json (interfaceText s), Typed o := by
  cases s with
  | none => simp [parseTransportJson, interfaceText, elements]
  | some text =>
    simp only [parseTransportJson, interfaceText]
    by_cases hdefault : text = [] ∨ text = bstr "null"
    · simp [hdefault, elements]
    · rw [if_neg hdefault, if_neg hdefault, ← succeeds_configsFromJson_iff,
        ← transportSetFromJsonString_eq]
      exact succeeds_bind_iff fun _ => succeeds_pure _

theorem succeeds_lpSetDefaultTransport_iff (s : Option Bytes) :
    Succeeds (lpSetDefaultTransport json default s) ↔
      ∀ o ∈ elements json (interfaceText s), Typed o := by
  rw [← succeeds_parseTransportJson_iff json default s]
  cases s with
  | none => exact iff_of_true (succeeds_ok _) (succeeds_ok _)
  | some text =>
    refine succeeds_bind_iff fun cfg => ?_
    cases cfg with
    | none => exact succeeds_pure _
    | some cfg => exact succeeds_pure _

/-- The element is an object that is not passed over. -/
def Kept (o : Json) : Prop := (∃ fields, o = .object fields) ∧ PortInRange o

/-- The text stands for the default, or has an element that is not passed over. -/
def GivesConfig (s : Option Bytes) : Prop :=
  interfaceText s = [] ∨ ∃ o ∈ elements json (interfaceText s), Kept o

theorem configFromJson_eq_none_iff {o : Json} (htyped : Typed o) :
    configFromJson o = .ok none ↔ ¬ Kept o := by
  cases o with
  | object fields =>
    obtain ⟨read, hread⟩ := (succeeds_configFromJson_iff _).mpr htyped
    obtain ⟨p, hp, hread'⟩ := eq_of_configFromJson hread
    have hkept : Kept (.object fields) ↔ ¬ (p < 0 ∨ 0xFFFF < p) :=
      (and_iff_right ⟨fields, rfl⟩).trans (portInRange_iff hp)
    rw [hkept, hread]
    obtain ⟨hout, rfl⟩ | ⟨hin, cfg, rfl, -⟩ := hread'
    · simp [hout]
    · simp [hin]
  | _ =>
    refine iff_of_true rfl ?_
    rintro ⟨⟨fields, h⟩, -⟩
    cases h

theorem configsFromJson_eq_nil_iff (items : List Json) :
    configsFromJson items = .ok [] ↔ ∀ o ∈ items, configFromJson o = .ok none := by
  induction items with
  | nil => simp [configsFromJson]
  | cons o items ih =>
    rw [List.forall_mem_cons, ← ih, configsFromJson]
    constructor
    · intro h
      obtain ⟨cfg, hcfg, h⟩ := bind_eq_ok_iff.mp h
      obtain ⟨set, hset, h⟩ := bind_eq_ok_iff.mp h
      obtain ⟨hnone, rfl⟩ := List.append_eq_nil_iff.mp (Except.ok.inj h)
      rw [Option.toList_eq_nil_iff] at hnone
      exact ⟨hnone ▸ hcfg, hset⟩
    · intro ⟨hnone, hnil⟩
      rw [hnone, hnil]
      rfl

/-- A caller is refused when every element is passed over. -/
theorem parseTransportJson_eq_none_iff {s : Option Bytes}
    (htyped : ∀ o ∈ elements json (interfaceText s), Typed o) :
    parseTransportJson json default s = .ok none ↔ ¬ GivesConfig json s := by
  cases s with
  | none => exact iff_of_false (fun h => by cases h) fun h => h (.inl rfl)
  | some text =>
    by_cases hdefault : text = [] ∨ text = bstr "null"
    · have htext : interfaceText (some text) = [] := if_pos hdefault
      rw [parseTransportJson, if_pos hdefault]
      exact iff_of_false (fun h => by cases h) fun h => h (.inl htext)
    · have htext : interfaceText (some text) = 0x5B :: text ++ [0x5D] := if_neg hdefault
      have hgives : GivesConfig json (some text) ↔
          ∃ o ∈ elements json (interfaceText (some text)), Kept o := by
        unfold GivesConfig
        rw [htext]
        simp
      have hnil : parseTransportJson json default (some text) = .ok none ↔
          configsFromJson (elements json (interfaceText (some text))) = .ok [] := by
        rw [parseTransportJson, if_neg hdefault, transportSetFromJsonString_eq, htext]
        cases configsFromJson (elements json (0x5B :: text ++ [0x5D])) with
        | error e => simp
        | ok set =>
          have hhead : (pure set.head? : Except DecodeError (Option LogosTransportConfig)) =
              .ok none ↔ set.head? = none := ⟨Except.ok.inj, congrArg Except.ok⟩
          rw [ok_bind, hhead, List.head?_eq_none_iff, Except.ok.injEq]
      rw [hgives, hnil, configsFromJson_eq_nil_iff]
      push Not
      exact forall₂_congr fun o ho => configFromJson_eq_none_iff (htyped o ho)

/-- A client whose target is refused is not created, and its second text is not read. -/
theorem succeeds_lpClientTransports_iff (targetModule originModule s s' : Option Bytes) :
    Succeeds (lpClientTransports json default targetModule originModule s s') ↔
      targetModule.getD [] = [] ∨ originModule = none ∨
        (∀ o ∈ elements json (interfaceText s), Typed o) ∧
          (GivesConfig json s → ∀ o ∈ elements json (interfaceText s'), Typed o) := by
  unfold lpClientTransports
  by_cases hnull : targetModule.getD [] = [] ∨ originModule = none
  · rw [if_pos hnull, ← or_assoc]
    exact iff_of_true (succeeds_ok _) (.inl hnull)
  · rw [if_neg hnull, ← or_assoc, or_iff_right hnull,
      ← succeeds_parseTransportJson_iff json default s',
      ← succeeds_parseTransportJson_iff json default s]
    cases htarget : parseTransportJson json default s with
    | error e => simp
    | ok cfg =>
      have hread : Succeeds (parseTransportJson json default s) := htarget ▸ succeeds_ok _
      have hnone := parseTransportJson_eq_none_iff json default
        ((succeeds_parseTransportJson_iff json default s).mp hread)
      rw [htarget, Except.ok.injEq] at hnone
      cases cfg with
      | none =>
        have hgives : ¬ GivesConfig json s := hnone.mp rfl
        exact iff_of_true (succeeds_pure _) ⟨succeeds_ok _, fun h => absurd h hgives⟩
      | some targetCfg =>
        have hgives : GivesConfig json s := by simpa using hnone
        refine Iff.trans (b := Succeeds (parseTransportJson json default s')) ?_
          ⟨fun h => ⟨succeeds_ok _, fun _ => h⟩, fun h => h.2 hgives⟩
        rw [ok_bind]
        refine succeeds_bind_iff fun cfg => ?_
        cases cfg with
        | none => exact succeeds_pure _
        | some cfg => exact succeeds_pure _

end interface

/-- **The texts that are read as what they say.**  Every field that is read has to be of its type,
and every port that is not passed over a number in range; and it is a field of the wrong type that
an exception comes of at the C interface. -/
theorem parsesExactly_iff (json : WireCodec) (default : LogosTransportConfig) :
    (∀ text, ParsesExactly json text ↔
      ∀ o ∈ elements json text, Typed o ∧ FieldIs o (bstr "port") PortKept) ∧
    (∀ s, Succeeds (lpSetDefaultTransport json default s) ↔
      ∀ o ∈ elements json (interfaceText s), Typed o) ∧
    ∀ targetModule originModule s s',
      Succeeds (lpClientTransports json default targetModule originModule s s') ↔
        targetModule.getD [] = [] ∨ originModule = none ∨
          (∀ o ∈ elements json (interfaceText s), Typed o) ∧
            (GivesConfig json s → ∀ o ∈ elements json (interfaceText s'), Typed o) :=
  ⟨parsesExactly_iff_elements json, succeeds_lpSetDefaultTransport_iff json default,
    succeeds_lpClientTransports_iff json default⟩

/-! ## Two texts that are not -/

/-- A protocol that is a number. -/
def numberedProtocol : Bytes := bstr "\x7b\"protocol\":1\x7d"

/-- The port `2 ^ 32 + 1`. -/
def widePort : Bytes := bstr "\x7b\"port\":4294967297\x7d"

/-- A JSON library that writes texts as usual and reads these two, in an array. -/
def twoTextsCodec : WireCodec where
  name := "json"
  serialise := textCodec.serialise
  parse text :=
    if text = 0x5B :: numberedProtocol ++ [0x5D] then
      .ok (.array [.object [(bstr "protocol", .numberUnsigned 1)]])
    else if text = 0x5B :: widePort ++ [0x5D] then
      .ok (.array [.object [(bstr "port", .numberUnsigned 4294967297)]])
    else .error "not read"

/-- An exception leaves `lp_set_default_transport`, and the other text gives port 1. -/
theorem parses_inexactly :
    (lpSetDefaultTransport twoTextsCodec {} (some numberedProtocol) =
        .error (.typeError 302 "type must be string, but is number") ∧
      ¬ ParsesExactly twoTextsCodec (0x5B :: numberedProtocol ++ [0x5D])) ∧
    (transportSetFromJsonString twoTextsCodec (0x5B :: widePort ++ [0x5D]) =
        .ok [{ port := 1 }] ∧
      ¬ ParsesExactly twoTextsCodec (0x5B :: widePort ++ [0x5D])) := by
  have hthrows : transportSetFromJsonString twoTextsCodec (0x5B :: numberedProtocol ++ [0x5D]) =
      .error (.typeError 302 "type must be string, but is number") := rfl
  have hreads : transportSetFromJsonString twoTextsCodec (0x5B :: widePort ++ [0x5D]) =
      .ok [{ port := 1 }] := rfl
  refine ⟨⟨rfl, fun h => ?_⟩, hreads, fun h => ?_⟩
  · have hreturns := h.returns
    rw [hthrows] at hreturns
    exact not_succeeds_error _ hreturns
  · have hport := h.ports (.object [(bstr "port", .numberUnsigned 4294967297)])
      (List.mem_singleton.mpr rfl) { port := 1 } rfl (.numberUnsigned 4294967297) rfl
    have hvalue : ((4294967297 : ℕ) : ℚ) = ((1 : ℕ) : ℚ) := Option.some.inj hport
    norm_num at hvalue

end LogosProtocol.Transport
