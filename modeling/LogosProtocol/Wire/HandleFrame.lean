import LogosProtocol.Wire.RoundTrip

/-!
# Receiving a frame

A connection decodes every frame with its codec and dispatches the message; a decode that
throws fails the whole connection.  A map is encoded with no escape, so the encoding of a
map whose only key is `_bytes` is the encoding of bytes, and its text need not be base64url.
That is the one way in which an encoded message fails to decode.

## Main definitions

* `WireCodec`, `WireCodec.Faithful` — a codec, and what it asks of the JSON library.
* `WireCodec.handleFrame` — dispatch, or fail the connection.
* `RpcValue.WellTagged` — no map is encoded as bytes that do not decode.
-/

namespace LogosProtocol

/-- A codec: the mapping above, over a JSON library that writes and parses. -/
structure WireCodec where
  name : String
  /-- `dump` or `to_cbor`, or what it throws. -/
  serialise : Json → Except String Bytes
  /-- `json::parse` or `json::from_cbor`, or what it throws. -/
  parse : Bytes → Except String Json

/-- What a frame leads to. -/
inductive FrameOutcome
  | dispatch (m : AnyMessage)
  | fail (reason : String)

namespace WireCodec

/-- What the library wrote it reads back, up to the kinds of numbers. -/
def Faithful (c : WireCodec) : Prop :=
  ∀ j payload, c.serialise j = .ok payload → ∃ r, Json.Rereads r ∧ c.parse payload = .ok (r j)

def encode (c : WireCodec) (m : AnyMessage) : Except String Bytes :=
  c.serialise (messageToJson m)

def decode (c : WireCodec) (tag : UInt8) (payload : Bytes) : Except DecodeError AnyMessage :=
  match c.parse payload with
  | .ok j => jsonToMessage tag j
  | .error what => .error (.codecError s!"{c.name} parse failed: {what}")

def handleFrame (c : WireCodec) (tag : UInt8) (payload : Bytes) : FrameOutcome :=
  match c.decode tag payload with
  | .ok m => .dispatch m
  | .error e => .fail s!"decode error: {e.what}"

/-- A frame is dispatched exactly when it decodes. -/
theorem exists_dispatch_iff (c : WireCodec) (tag : UInt8) (payload : Bytes) :
    (∃ m, c.handleFrame tag payload = .dispatch m) ↔ Succeeds (c.decode tag payload) := by
  unfold handleFrame
  cases c.decode tag payload with
  | ok m => simp
  | error e => simp

end WireCodec

/-! ## Values whose encoding decodes -/

/-- No map is taken for bytes that do not decode: where all keys of a map are `_bytes` and
its last value is a string, the string is base64url.  An entry that a later one overwrites
is not encoded. -/
inductive RpcValue.WellTagged : RpcValue → Prop
  | null : WellTagged .null
  | bool (b : Bool) : WellTagged (.bool b)
  | int (n : Int64) : WellTagged (.int n)
  | uint (n : UInt64) : WellTagged (.uint n)
  | double (d : Double) : WellTagged (.double d)
  | string (s : Bytes) : WellTagged (.string s)
  | bytes (data : Bytes) : WellTagged (.bytes data)
  | list (items : List RpcValue) (h : ∀ v ∈ items, WellTagged v) : WellTagged (.list items)
  | map (entries : List (Bytes × RpcValue))
      (htag : ∀ text, (∀ e ∈ entries, e.1 = bytesKey) →
        Fields.lastValue bytesKey entries = some (.string text) →
        (b64UrlDecodeChecked text).isSome)
      (h : ∀ k v, Fields.lastValue k entries = some v → WellTagged v) : WellTagged (.map entries)

theorem RpcValue.wellTagged_list_iff (items : List RpcValue) :
    (RpcValue.list items).WellTagged ↔ ∀ v ∈ items, v.WellTagged := by
  constructor
  · intro h
    cases h with
    | list _ h => exact h
  · exact .list items

section
variable {r : Json → Json} (hr : Json.Rereads r)
include hr

/-- Only a string is read back as a string. -/
theorem reread_eq_string_iff (v : RpcValue) (s : Bytes) :
    r (valueToJson v) = .string s ↔ v = .string s := by
  cases v with
  | null => simp [valueToJson, hr.null]
  | bool b => simp [valueToJson, hr.boolean]
  | int n =>
    obtain h | h := hr.numberInteger n
    · simp [valueToJson, h]
    · simp [valueToJson, h.2]
  | uint n => simp [valueToJson, hr.numberUnsigned]
  | double d =>
    obtain h | ⟨d', h⟩ := hr.numberFloat d
    · simp [valueToJson, h]
    · simp [valueToJson, h]
  | string s => simp [valueToJson, hr.string]
  | bytes data => simp [valueToJson, bytesToJson, hr.object]
  | list items => simp [hr.array]
  | map entries => simp [hr.object]

/-- A map whose encoding is the escape decodes exactly when its text does. -/
theorem succeeds_escape_iff {entries : List (Bytes × RpcValue)} {text : Bytes}
    (hkeys : ∀ e ∈ entries, e.1 = bytesKey)
    (hlast : Fields.lastValue bytesKey entries = some (.string text)) :
    Succeeds (jsonToValue (r (valueToJson (.map entries)))) ↔
      (RpcValue.map entries).WellTagged := by
  have hfields : Fields.setAll [] (entries.map fun e => (e.1, valueToJson e.2)) =
      [(bytesKey, .string text)] := by
    rw [Fields.setAll_nil_eq_singleton_iff, Fields.lastValue_map, hlast]
    exact ⟨List.forall_mem_map.mpr hkeys, rfl⟩
  have hdecode : Succeeds (jsonToValue (r (valueToJson (.map entries)))) ↔
      (b64UrlDecodeChecked text).isSome := by
    rw [valueToJson_map, hfields, hr.object]
    simp only [List.map_cons, List.map_nil, hr.string, jsonToValue, taggedText, if_true]
    cases b64UrlDecodeChecked text with
    | some data => simp
    | none => simp
  rw [hdecode]
  constructor
  · intro htext
    apply RpcValue.WellTagged.map
    · intro text' _ hlast'
      rw [hlast] at hlast'
      rwa [← RpcValue.string.inj (Option.some.inj hlast')]
    · intro k v hv
      have hk : k = bytesKey := hkeys _ (Fields.mem_of_lastValue hv)
      rw [hk, hlast] at hv
      rw [← Option.some.inj hv]
      exact .string text
  · intro hmap
    cases hmap with
    | map _ htag _ => exact htag text hkeys hlast

/-- Any other map decodes exactly when each of the values it keeps does. -/
theorem succeeds_map_value_iff {entries : List (Bytes × RpcValue)}
    (hescape : ¬ ∃ text, (∀ e ∈ entries, e.1 = bytesKey) ∧
      Fields.lastValue bytesKey entries = some (.string text)) :
    Succeeds (jsonToValue (r (valueToJson (.map entries)))) ↔
      ∀ k v, Fields.lastValue k entries = some v → Succeeds (jsonToValue (r (valueToJson v))) := by
  have htagged : taggedText ((Fields.setAll []
      (entries.map fun e => (e.1, valueToJson e.2))).map fun e => (e.1, r e.2)) = none := by
    rw [Option.eq_none_iff_forall_ne_some]
    intro text htext
    apply hescape
    have hmap := (taggedText_eq_some_iff _ text).mp htext
    obtain ⟨e, hfields, he⟩ := List.map_eq_singleton_iff.mp hmap
    have hkey : e.1 = bytesKey := congrArg Prod.fst he
    have hvalue : r e.2 = .string text := congrArg Prod.snd he
    rw [show e = (bytesKey, e.2) from Prod.ext hkey rfl, Fields.setAll_nil_eq_singleton_iff,
      Fields.lastValue_map, Option.map_eq_some_iff] at hfields
    obtain ⟨hkeys, v, hlast, hv⟩ := hfields
    rw [← hv, reread_eq_string_iff hr] at hvalue
    exact ⟨text, List.forall_mem_map.mp hkeys, by rw [hlast, hvalue]⟩
  rw [valueToJson_map, hr.object]
  simp only [jsonToValue, htagged]
  rw [succeeds_bind_iff fun entries => succeeds_pure _, jsonToEntries_eq, succeeds_mapM_iff]
  simp only [List.forall_mem_map, succeeds_functor_map_iff]
  constructor
  · intro h k v hv
    have hmem := (Fields.mem_setAll_nil_iff k (valueToJson v)).mpr
      ((Fields.lastValue_map valueToJson entries k).trans (congrArg (Option.map valueToJson) hv))
    exact h _ hmem
  · intro h e he
    have hlast := (Fields.mem_setAll_nil_iff e.1 e.2).mp he
    rw [Fields.lastValue_map, Option.map_eq_some_iff] at hlast
    obtain ⟨v, hv, hjson⟩ := hlast
    rw [← hjson]
    exact h e.1 v hv

/-- **An encoded value decodes exactly when it is well tagged.** -/
theorem succeeds_jsonToValue_iff (v : RpcValue) :
    Succeeds (jsonToValue (r (valueToJson v))) ↔ v.WellTagged := by
  induction v with
  | null => simpa [valueToJson, hr.null, jsonToValue] using RpcValue.WellTagged.null
  | bool b => simpa [valueToJson, hr.boolean, jsonToValue] using RpcValue.WellTagged.bool b
  | int n =>
    obtain h | h := hr.numberInteger n
    · simpa [valueToJson, h, jsonToValue] using RpcValue.WellTagged.int n
    · simpa [valueToJson, h.2, jsonToValue] using RpcValue.WellTagged.int n
  | uint n => simpa [valueToJson, hr.numberUnsigned, jsonToValue] using RpcValue.WellTagged.uint n
  | double d =>
    obtain h | ⟨d', h⟩ := hr.numberFloat d
    · simpa [valueToJson, h, jsonToValue] using RpcValue.WellTagged.double d
    · simpa [valueToJson, h, jsonToValue] using RpcValue.WellTagged.double d
  | string s => simpa [valueToJson, hr.string, jsonToValue] using RpcValue.WellTagged.string s
  | bytes data =>
    have h : r (bytesToJson data) = bytesToJson data := by
      simp [bytesToJson, hr.object, hr.string]
    simpa [valueToJson, h, jsonToValue_bytesToJson] using RpcValue.WellTagged.bytes data
  | list items ih =>
    rw [valueToJson_list, hr.array, jsonToValue, jsonToValues_eq,
      succeeds_bind_iff fun vs => succeeds_pure _, succeeds_mapM_iff,
      RpcValue.wellTagged_list_iff]
    simp only [List.forall_mem_map]
    exact forall₂_congr ih
  | map entries ih =>
    by_cases hescape : ∃ text, (∀ e ∈ entries, e.1 = bytesKey) ∧
        Fields.lastValue bytesKey entries = some (.string text)
    · obtain ⟨text, hkeys, hlast⟩ := hescape
      exact succeeds_escape_iff hr hkeys hlast
    · rw [succeeds_map_value_iff hr hescape]
      constructor
      · intro h
        apply RpcValue.WellTagged.map
        · intro text hkeys hlast
          exact absurd ⟨text, hkeys, hlast⟩ hescape
        · intro k v hv
          exact (ih (k, v) (Fields.mem_of_lastValue hv)).mp (h k v hv)
      · intro hmap k v hv
        cases hmap with
        | map _ _ h => exact (ih (k, v) (Fields.mem_of_lastValue hv)).mpr (h k v hv)

end

/-! ## Messages whose encoding decodes -/

/-- Every value the message transmits. -/
def AnyMessage.ForallValues (P : RpcValue → Prop) : AnyMessage → Prop
  | .call m => ∀ v ∈ m.args, P v
  | .result m => m.ok → P m.value
  | .event m => ∀ v ∈ m.data, P v
  | .methodsResult m => m.ok → ∀ md ∈ m.methods, ∀ v ∈ md.parameters, P v
  | _ => True

/-- Every value the message transmits is well tagged. -/
def AnyMessage.WellTagged (m : AnyMessage) : Prop := m.ForallValues RpcValue.WellTagged

theorem succeeds_overValues_iff (dec : RpcValue → Except DecodeError RpcValue) (m : AnyMessage) :
    Succeeds (m.overValues dec) ↔ m.ForallValues fun v => Succeeds (dec v) := by
  cases m with
  | call m =>
    rw [AnyMessage.overValues, succeeds_bind_iff fun args => succeeds_pure _, succeeds_mapM_iff]
    rfl
  | result m =>
    cases hok : m.ok with
    | true =>
      simp only [AnyMessage.overValues, AnyMessage.ForallValues, hok, if_true, true_imp_iff]
      rw [succeeds_bind_iff fun value => succeeds_pure _]
    | false => simp [AnyMessage.overValues, AnyMessage.ForallValues, hok]
  | event m =>
    rw [AnyMessage.overValues, succeeds_bind_iff fun data => succeeds_pure _, succeeds_mapM_iff]
    rfl
  | methodsResult m =>
    cases hok : m.ok with
    | true =>
      simp only [AnyMessage.overValues, AnyMessage.ForallValues, hok, if_true, true_imp_iff]
      rw [succeeds_bind_iff fun methods => succeeds_pure _, succeeds_mapM_iff]
      apply forall₂_congr
      intro md _
      rw [succeeds_bind_iff fun parameters => succeeds_pure _, succeeds_mapM_iff]
    | false => simp [AnyMessage.overValues, AnyMessage.ForallValues, hok]
  | subscribe m => simp [AnyMessage.overValues, AnyMessage.ForallValues]
  | unsubscribe m => simp [AnyMessage.overValues, AnyMessage.ForallValues]
  | token m => simp [AnyMessage.overValues, AnyMessage.ForallValues]
  | methods m => simp [AnyMessage.overValues, AnyMessage.ForallValues]

theorem succeeds_jsonToMessage_iff {r : Json → Json} (hr : Json.Rereads r) (m : AnyMessage) :
    Succeeds (jsonToMessage (messageTypeOf m).code (r (messageToJson m))) ↔ m.WellTagged := by
  have hvalue : (fun v => Succeeds (jsonToValue (r (valueToJson v)))) = RpcValue.WellTagged := by
    funext v
    exact propext (succeeds_jsonToValue_iff hr v)
  rw [jsonToMessage_reread hr, succeeds_overValues_iff, hvalue, AnyMessage.WellTagged]

/-- An event that carries the map `{"_bytes": "!"}`. -/
def escapeEvent : AnyMessage :=
  .event { object := bstr "o", eventName := bstr "e",
           data := [.map [(bytesKey, .string (bstr "!"))]] }

/-- Its encoding does not decode. -/
theorem jsonToMessage_escapeEvent :
    jsonToMessage (messageTypeOf escapeEvent).code (messageToJson escapeEvent) =
        .error (.codecError "invalid base64url input") ∧
      ¬ Succeeds (jsonToMessage (messageTypeOf escapeEvent).code (messageToJson escapeEvent)) := by
  have herror : jsonToMessage (messageTypeOf escapeEvent).code (messageToJson escapeEvent) =
      .error (.codecError "invalid base64url input") := rfl
  exact ⟨herror, herror ▸ not_succeeds_error _⟩

/-- **An encoded message decodes, and its frame is dispatched, exactly when its values are
well tagged.**  Otherwise the frame fails the connection. -/
theorem handleFrame_dispatch_iff (c : WireCodec) (hc : c.Faithful) (m : AnyMessage) :
    (Succeeds (jsonToMessage (messageTypeOf m).code (messageToJson m)) ↔ m.WellTagged) ∧
      ∀ payload, c.encode m = .ok payload →
        ((∃ m', c.handleFrame (messageTypeOf m).code payload = .dispatch m') ↔ m.WellTagged) := by
  constructor
  · exact succeeds_jsonToMessage_iff Json.rereads_id m
  · intro payload hencode
    obtain ⟨r, hr, hparse⟩ := hc _ payload hencode
    rw [WireCodec.exists_dispatch_iff, WireCodec.decode, hparse]
    exact succeeds_jsonToMessage_iff hr m

/-- The JSON text of `escapeEvent`. -/
def escapeEventText : Bytes :=
  bstr "\x7b\"data\":[\x7b\"_bytes\":\"!\"\x7d],\"event\":\"e\",\"object\":\"o\"\x7d"

/-- A JSON library that writes and reads this one text. -/
def escapeEventCodec : WireCodec where
  name := "json"
  serialise
    | .object [(k₁, .array [.object [(k₂, .string s)]]), (k₃, .string e), (k₄, .string o)] =>
      if k₁ = bstr "data" ∧ k₂ = bytesKey ∧ s = bstr "!" ∧ k₃ = bstr "event" ∧ e = bstr "e" ∧
          k₄ = bstr "object" ∧ o = bstr "o" then .ok escapeEventText
      else .error "not written"
    | _ => .error "not written"
  parse payload :=
    if payload = escapeEventText then .ok (messageToJson escapeEvent) else .error "not read"

theorem faithful_escapeEventCodec : escapeEventCodec.Faithful := by
  intro j payload hwrite
  refine ⟨id, Json.rereads_id, ?_⟩
  simp only [escapeEventCodec] at hwrite
  split at hwrite
  · split_ifs at hwrite with hfields
    obtain ⟨rfl, rfl, rfl, rfl, rfl, rfl, rfl⟩ := hfields
    cases hwrite
    rfl
  · cases hwrite

/-- The event is written, and its frame fails the connection. -/
theorem handleFrame_escapeEvent :
    escapeEventCodec.encode escapeEvent = .ok escapeEventText ∧
      ¬ ∃ m, escapeEventCodec.handleFrame 5 escapeEventText = .dispatch m := by
  have hwrite : escapeEventCodec.encode escapeEvent = .ok escapeEventText := rfl
  have hiff := handleFrame_dispatch_iff escapeEventCodec faithful_escapeEventCodec escapeEvent
  have htagged : ¬ escapeEvent.WellTagged := by
    intro h
    exact absurd (hiff.1.mpr h) (not_succeeds_error _)
  exact ⟨hwrite, fun hdispatch => htagged ((hiff.2 _ hwrite).mp hdispatch)⟩

end LogosProtocol
