import LogosProtocol.Transport.Parsing
import LogosProtocol.Wire.RoundTrip

/-!
# What comes back of a set of transport configurations

The writer leaves out the fields that a protocol has no use for, and the reader puts its defaults in
their place.  So a set comes back as it was but for those fields, and two sets have the same text
exactly when they differ in those fields alone.

## Main definitions

* `LogosTransportConfig.normalise` — the fields a protocol has no use for are the defaults.

## Main results

* `transportSetFromJsonString_toJsonString` — a set of UTF-8 strings comes back normalised.
* `transportSetToJson_eq_iff` — the sets that a text cannot tell apart.
-/

namespace LogosProtocol.Transport

/-! ## Normal configurations -/

namespace LogosTransportConfig

/-- A peer has to be told an address. -/
def HasAddress (cfg : LogosTransportConfig) : Prop :=
  cfg.protocol ≠ .localSocket ∧ cfg.protocol ≠ .web

instance (cfg : LogosTransportConfig) : Decidable cfg.HasAddress :=
  inferInstanceAs (Decidable (_ ∧ _))

theorem HasAddress.of_tcpSsl {cfg : LogosTransportConfig} (h : cfg.protocol = .tcpSsl) :
    cfg.HasAddress := by
  simp [HasAddress, h]

/-- The address and the codec are those of the reader, where there is no address. -/
def resetAddress (cfg : LogosTransportConfig) : LogosTransportConfig :=
  if cfg.HasAddress then cfg
  else { cfg with host := bstr "127.0.0.1", port := 0, codec := .json }

/-- The fields of TLS are those of the reader, where there is no TLS. -/
def resetTls (cfg : LogosTransportConfig) : LogosTransportConfig :=
  if cfg.protocol = .tcpSsl then cfg
  else { cfg with caFile := [], certFile := [], keyFile := [], verifyPeer := true }

def normalise (cfg : LogosTransportConfig) : LogosTransportConfig := cfg.resetAddress.resetTls

/-- The strings are UTF-8. -/
structure IsUtf8 (cfg : LogosTransportConfig) : Prop where
  host : Utf8.isUtf8 cfg.host = true
  caFile : Utf8.isUtf8 cfg.caFile = true
  certFile : Utf8.isUtf8 cfg.certFile = true
  keyFile : Utf8.isUtf8 cfg.keyFile = true

@[simp] theorem normalise_protocol (cfg : LogosTransportConfig) :
    cfg.normalise.protocol = cfg.protocol := by
  unfold normalise resetTls resetAddress
  split_ifs <;> rfl

/-- Nothing of a configuration with TLS is lost. -/
theorem normalise_of_tcpSsl {cfg : LogosTransportConfig} (h : cfg.protocol = .tcpSsl) :
    cfg.normalise = cfg := by
  rw [normalise, resetAddress, if_pos (.of_tcpSsl h), resetTls, if_pos h]

/-- A configuration without an address is its protocol alone. -/
theorem normalise_of_not_hasAddress {cfg : LogosTransportConfig} (h : ¬ cfg.HasAddress) :
    cfg.normalise = { protocol := cfg.protocol } := by
  have htls : cfg.protocol ≠ .tcpSsl := fun htls => h (.of_tcpSsl htls)
  rw [normalise, resetAddress, if_neg h, resetTls, if_neg htls]

theorem normalise_of_tcp {cfg : LogosTransportConfig} (h : cfg.protocol = .tcp) :
    cfg.normalise =
      { cfg with caFile := [], certFile := [], keyFile := [], verifyPeer := true } := by
  have haddress : cfg.HasAddress := by simp [HasAddress, h]
  have htls : cfg.protocol ≠ .tcpSsl := by simp [h]
  rw [normalise, resetAddress, if_pos haddress, resetTls, if_neg htls]

end LogosTransportConfig

/-! ## One configuration -/

theorem lastValue_fileEntry (key key' file : Bytes) :
    Fields.lastValue key (fileEntry key' file) =
      if key = key' ∧ file ≠ [] then some (.string file) else none := by
  unfold fileEntry
  by_cases hfile : file = []
  · simp [hfile, Fields.lastValue]
  · simp [hfile, Fields.lastValue]

/-- An object has the fields of a configuration, or has none where a field is the default. -/
structure Reads (o : Json) (cfg : LogosTransportConfig) : Prop where
  protocol : o.value (bstr "protocol") Json.getString (bstr "local") =
    .ok (protocolToString cfg.protocol)
  host : o.value (bstr "host") Json.getString (bstr "127.0.0.1") = .ok cfg.host
  port : o.value (bstr "port") Json.getInt 0 = .ok (Int32.ofInt cfg.port.toNat)
  codec : o.value (bstr "codec") Json.getString (bstr "json") = .ok (codecToString cfg.codec)
  caFile : o.value (bstr "ca_file") Json.getString [] = .ok cfg.caFile
  certFile : o.value (bstr "cert_file") Json.getString [] = .ok cfg.certFile
  keyFile : o.value (bstr "key_file") Json.getString [] = .ok cfg.keyFile
  verifyPeer : o.value (bstr "verify_peer") Json.getBool true = .ok cfg.verifyPeer

/-- A port fits an `int`, and is in range. -/
theorem inRange_port (port : UInt16) :
    ¬ (Int32.ofInt port.toNat < 0 ∨ 0xFFFF < Int32.ofInt port.toNat) := by
  have hlt := port.toNat_lt
  rw [inRange_ofInt_iff]
  omega

theorem toUInt16_port (port : UInt16) :
    (Int32.ofInt port.toNat).toUInt32.toUInt16 = port := by
  have hlt := port.toNat_lt
  have hlow : (port.toNat : ℤ) % 2 ^ 32 ≤ 0xFFFF := by omega
  have hself : (port.toNat : ℤ) = (Int32.ofInt port.toNat).toInt :=
    (toInt_ofInt_eq_self_iff hlow).mpr (by omega)
  have hport := toNat_port (inRange_port port)
  rw [← hself] at hport
  exact UInt16.toNat_inj.mp (Int.ofNat_inj.mp hport)

/-- The reader gives the configuration. -/
theorem Reads.configFromJson {fields : List (Bytes × Json)} {cfg : LogosTransportConfig}
    (h : Reads (.object fields) cfg) : configFromJson (.object fields) = .ok (some cfg) := by
  rw [Transport.configFromJson]
  simp only [h.protocol, h.host, h.port, h.codec, h.caFile, h.certFile, h.keyFile, h.verifyPeer,
    ok_bind, if_neg (inRange_port cfg.port), toUInt16_port, protocolFromString_toString,
    codecFromString_toString]
  rfl

section reread
variable {r : Json → Json} (hr : Json.Rereads r) {entries : List (Bytes × Json)} {key : Bytes}
include hr

theorem value_missing {α : Type} (h : Fields.lastValue key entries = none)
    (get : Json → Except DecodeError α) (default : α) :
    (r (jsonObject entries)).value key get default = .ok default := by
  rw [value_reread hr, h]

theorem value_string {s : Bytes} (h : Fields.lastValue key entries = some (.string s))
    (default : Bytes) : (r (jsonObject entries)).value key Json.getString default = .ok s := by
  rw [value_reread hr, h]
  simp only [hr.string, Json.getString]

/-- An empty text is left out, and is the default. -/
theorem value_file {file : Bytes}
    (h : Fields.lastValue key entries = if file = [] then none else some (.string file)) :
    (r (jsonObject entries)).value key Json.getString [] = .ok file := by
  by_cases hfile : file = []
  · rw [if_pos hfile] at h
    rw [hfile]
    exact value_missing hr h _ _
  · rw [if_neg hfile] at h
    exact value_string hr h _

theorem value_port {port : UInt16}
    (h : Fields.lastValue key entries = some (.numberUnsigned port.toUInt64)) (default : Int32) :
    (r (jsonObject entries)).value key Json.getInt default = .ok (Int32.ofInt port.toNat) := by
  rw [value_reread hr, h]
  simp only [hr.numberUnsigned, Json.getInt, UInt16.toNat_toUInt64]

theorem value_boolean {b : Bool} (h : Fields.lastValue key entries = some (.boolean b))
    (default : Bool) : (r (jsonObject entries)).value key Json.getBool default = .ok b := by
  rw [value_reread hr, h]
  simp only [hr.boolean, Json.getBool]

/-- Without an address only the protocol is written. -/
theorem reads_of_not_hasAddress {cfg : LogosTransportConfig} (h : ¬ cfg.HasAddress) :
    Reads (r (jsonObject (configEntries cfg))) { protocol := cfg.protocol } := by
  have haddress : ¬ (cfg.protocol ≠ .localSocket ∧ cfg.protocol ≠ .web) := h
  have htls : cfg.protocol ≠ .tcpSsl := fun htls => h (.of_tcpSsl htls)
  rw [configEntries, if_neg haddress, if_neg htls]
  constructor
  · exact value_string hr rfl _
  · exact value_missing hr rfl _ _
  · exact value_missing hr rfl _ _
  · exact value_missing hr rfl _ _
  · exact value_missing hr rfl _ _
  · exact value_missing hr rfl _ _
  · exact value_missing hr rfl _ _
  · exact value_missing hr rfl _ _

/-- With an address and no TLS the endpoint is written as well. -/
theorem reads_of_tcp {cfg : LogosTransportConfig} (h : cfg.protocol = .tcp) :
    Reads (r (jsonObject (configEntries cfg)))
      { cfg with caFile := [], certFile := [], keyFile := [], verifyPeer := true } := by
  have haddress : cfg.protocol ≠ .localSocket ∧ cfg.protocol ≠ .web := by simp [h]
  have htls : cfg.protocol ≠ .tcpSsl := by simp [h]
  rw [configEntries, if_pos haddress, if_neg htls]
  constructor
  · exact value_string hr rfl _
  · exact value_string hr rfl _
  · exact value_port hr rfl _
  · exact value_string hr rfl _
  · exact value_missing hr rfl _ _
  · exact value_missing hr rfl _ _
  · exact value_missing hr rfl _ _
  · exact value_missing hr rfl _ _

/-- With TLS everything is, but for files that are not named. -/
theorem reads_of_tcpSsl {cfg : LogosTransportConfig} (h : cfg.protocol = .tcpSsl) :
    Reads (r (jsonObject (configEntries cfg))) cfg := by
  have haddress : cfg.protocol ≠ .localSocket ∧ cfg.protocol ≠ .web := by simp [h]
  rw [configEntries, if_pos haddress, if_pos h]
  refine ⟨value_string hr ?_ _, value_string hr ?_ _, value_port hr ?_ _, value_string hr ?_ _,
    value_file hr ?_, value_file hr ?_, value_file hr ?_, value_boolean hr ?_ _⟩
  all_goals
    simp +decide [Fields.lastValue_append, lastValue_fileEntry, Fields.lastValue]

/-- **What is written of a configuration is read as its normal form.** -/
theorem reads_configEntries (cfg : LogosTransportConfig) :
    Reads (r (jsonObject (configEntries cfg))) cfg.normalise := by
  cases hprotocol : cfg.protocol with
  | localSocket | web =>
    have haddress : ¬ cfg.HasAddress := by simp [LogosTransportConfig.HasAddress, hprotocol]
    rw [LogosTransportConfig.normalise_of_not_hasAddress haddress]
    exact reads_of_not_hasAddress hr haddress
  | tcp =>
    rw [LogosTransportConfig.normalise_of_tcp hprotocol]
    exact reads_of_tcp hr hprotocol
  | tcpSsl =>
    rw [LogosTransportConfig.normalise_of_tcpSsl hprotocol]
    exact reads_of_tcpSsl hr hprotocol

theorem configFromJson_configEntries (cfg : LogosTransportConfig) :
    configFromJson (r (jsonObject (configEntries cfg))) = .ok (some cfg.normalise) := by
  have hreads := reads_configEntries hr cfg
  rw [jsonObject, hr.object] at hreads ⊢
  exact hreads.configFromJson

/-! ## Sets -/

/-- One after the other they come back, in their order. -/
theorem configsFromJson_configEntries (set : LogosTransportSet) :
    configsFromJson (set.map fun cfg => r (jsonObject (configEntries cfg))) =
      .ok (set.map LogosTransportConfig.normalise) := by
  induction set with
  | nil => rfl
  | cons cfg set ih =>
    rw [List.map_cons, configsFromJson, configFromJson_configEntries hr, ih]
    rfl

end reread

/-! ## What a text keeps -/

namespace LogosTransportConfig

/-- Nothing is written of a field that is not kept. -/
theorem configEntries_normalise (cfg : LogosTransportConfig) :
    configEntries cfg.normalise = configEntries cfg := by
  cases hprotocol : cfg.protocol with
  | localSocket | web =>
    have haddress : ¬ cfg.HasAddress := by simp [HasAddress, hprotocol]
    rw [normalise_of_not_hasAddress haddress]
    simp [configEntries, hprotocol]
  | tcp =>
    rw [normalise_of_tcp hprotocol]
    simp [configEntries, hprotocol]
  | tcpSsl => rw [normalise_of_tcpSsl hprotocol]

end LogosTransportConfig

theorem transportSetToJson_normalise (set : LogosTransportSet) :
    transportSetToJson (set.map LogosTransportConfig.normalise) = transportSetToJson set := by
  unfold transportSetToJson
  rw [List.map_map]
  congr 2
  funext cfg
  rw [Function.comp_apply, LogosTransportConfig.configEntries_normalise]

/-- **Two sets are written the same exactly when their normal forms are the same.** -/
theorem transportSetToJson_eq_iff (set set' : LogosTransportSet) :
    transportSetToJson set = transportSetToJson set' ↔
      set.map LogosTransportConfig.normalise = set'.map LogosTransportConfig.normalise := by
  constructor
  · intro h
    have hitems := Json.array.inj h
    have hread := configsFromJson_configEntries Json.rereads_id set
    have hread' := configsFromJson_configEntries Json.rereads_id set'
    simp only [id] at hread hread'
    rw [hitems, hread'] at hread
    exact (Except.ok.inj hread).symm
  · intro h
    rw [← transportSetToJson_normalise set, h, transportSetToJson_normalise]

/-! ## Strings that are UTF-8 -/

/-- The names of the library are ASCII. -/
theorem isUtf8_protocolToString (p : Protocol) : Utf8.isUtf8 (protocolToString p) = true := by
  cases p <;> decide

theorem isUtf8_codecToString (c : LogosWireCodec) : Utf8.isUtf8 (codecToString c) = true := by
  cases c <;> decide

/-- The entries of an object that can be written. -/
def EntriesUtf8 (entries : List (Bytes × Json)) : Prop :=
  ∀ e ∈ entries, Utf8.isUtf8 e.1 = true ∧ e.2.IsUtf8

theorem isUtf8_jsonObject {entries : List (Bytes × Json)} (h : EntriesUtf8 entries) :
    (jsonObject entries).IsUtf8 :=
  .object (fun e he => (h e (Fields.mem_of_mem_setAll_nil he)).1)
    fun e he => (h e (Fields.mem_of_mem_setAll_nil he)).2

theorem EntriesUtf8.append {entries entries' : List (Bytes × Json)} (h : EntriesUtf8 entries)
    (h' : EntriesUtf8 entries') : EntriesUtf8 (entries ++ entries') :=
  List.forall_mem_append.mpr ⟨h, h'⟩

theorem entriesUtf8_fileEntry {key file : Bytes} (hkey : Utf8.isUtf8 key = true)
    (hfile : Utf8.isUtf8 file = true) : EntriesUtf8 (fileEntry key file) := by
  unfold EntriesUtf8 fileEntry
  by_cases h : file = []
  · simp [h]
  · simpa [h] using ⟨hkey, .string hfile⟩

theorem entriesUtf8_configEntries {cfg : LogosTransportConfig} (h : cfg.IsUtf8) :
    EntriesUtf8 (configEntries cfg) := by
  refine .append (.append ?_ ?_) ?_
  · simpa [EntriesUtf8] using ⟨by decide, .string (isUtf8_protocolToString cfg.protocol)⟩
  · split_ifs
    · simpa [EntriesUtf8] using ⟨⟨by decide, .string h.host⟩, ⟨by decide, .numberUnsigned _⟩,
        by decide, .string (isUtf8_codecToString cfg.codec)⟩
    · simp [EntriesUtf8]
  · split_ifs
    · have hverify : EntriesUtf8 [(bstr "verify_peer", .boolean cfg.verifyPeer)] := by
        simpa [EntriesUtf8] using ⟨by decide, .boolean _⟩
      exact .append (.append (.append (entriesUtf8_fileEntry (by decide) h.caFile)
        (entriesUtf8_fileEntry (by decide) h.certFile))
        (entriesUtf8_fileEntry (by decide) h.keyFile)) hverify
    · simp [EntriesUtf8]

theorem isUtf8_transportSetToJson {set : LogosTransportSet} (h : ∀ cfg ∈ set, cfg.IsUtf8) :
    (transportSetToJson set).IsUtf8 := by
  apply Json.IsUtf8.array
  rw [List.forall_mem_map]
  intro cfg hcfg
  exact isUtf8_jsonObject (entriesUtf8_configEntries (h cfg hcfg))

/-! ## The round trip -/

/-- What the library wrote for a value is read as it, up to the kinds of numbers. -/
def ReadsBack (json : WireCodec) (j : Json) : Prop :=
  ∀ text, json.serialise j = .ok text → ∃ r, Json.Rereads r ∧ json.parse text = .ok (r j)

/-- **A set comes back normalised.**  The library writes every value whose strings are UTF-8, reads
the set it wrote, and does not read an empty text. -/
theorem transportSetFromJsonString_toJsonString (json : WireCodec)
    (hwrites : ∀ j, j.IsUtf8 → Succeeds (json.serialise j))
    (hempty : ¬ Succeeds (json.parse [])) (set : LogosTransportSet)
    (hreads : ReadsBack json (transportSetToJson set)) (hutf8 : ∀ cfg ∈ set, cfg.IsUtf8) :
    ∃ text, transportSetToJsonString json set = .ok text ∧
      transportSetFromJsonString json text =
        .ok (set.map LogosTransportConfig.normalise) := by
  obtain ⟨text, htext⟩ := hwrites _ (isUtf8_transportSetToJson hutf8)
  obtain ⟨r, hr, hparse⟩ := hreads text htext
  have hne : text ≠ [] := by
    rintro rfl
    exact hempty ⟨_, hparse⟩
  refine ⟨text, htext, ?_⟩
  rw [transportSetToJson, hr.array, List.map_map] at hparse
  rw [transportSetFromJsonString, if_neg hne, hparse]
  exact configsFromJson_configEntries hr set

/-- An endpoint with TLS and a web channel. -/
def mixedSet : LogosTransportSet :=
  [{ protocol := .tcpSsl, host := bstr "h", port := 7, caFile := bstr "ca", verifyPeer := false,
     codec := .cbor }, { protocol := .web, host := bstr "h", port := 7, verifyPeer := false }]

/-- The JSON text of `mixedSet`. -/
def mixedSetText : Bytes :=
  bstr "[\x7b\"ca_file\":\"ca\",\"codec\":\"cbor\",\"host\":\"h\",\"port\":7," ++
    bstr "\"protocol\":\"tcp_ssl\",\"verify_peer\":false\x7d,\x7b\"protocol\":\"web\"\x7d]"

/-- A JSON library that writes texts as usual and reads this one. -/
def mixedSetCodec : WireCodec where
  name := "json"
  serialise := textCodec.serialise
  parse text :=
    if text = mixedSetText then .ok (transportSetToJson mixedSet) else .error "not read"

/-- The endpoint is as it was, and the channel has no address. -/
theorem transportSet_mixed :
    ∃ text, transportSetToJsonString mixedSetCodec mixedSet = .ok text ∧
      transportSetFromJsonString mixedSetCodec text =
        .ok [{ protocol := .tcpSsl, host := bstr "h", port := 7, caFile := bstr "ca",
               verifyPeer := false, codec := .cbor }, { protocol := .web }] := by
  have hwrite : mixedSetCodec.serialise (transportSetToJson mixedSet) = .ok mixedSetText := by
    decide +kernel
  have hreads : ReadsBack mixedSetCodec (transportSetToJson mixedSet) := by
    intro text htext
    rw [hwrite] at htext
    obtain rfl := Except.ok.inj htext
    exact ⟨id, Json.rereads_id, by simp [mixedSetCodec]⟩
  have hutf8 : ∀ cfg ∈ mixedSet, cfg.IsUtf8 := by
    simp only [mixedSet, List.forall_mem_cons]
    exact ⟨⟨by decide, by decide, by decide, by decide⟩,
      ⟨by decide, by decide, by decide, by decide⟩, by simp⟩
  exact transportSetFromJsonString_toJsonString mixedSetCodec
    (fun j => (succeeds_dump_iff _ _ j).mpr) (not_succeeds_error _) mixedSet hreads hutf8

end LogosProtocol.Transport
