import LogosProtocol.Lib.Except
import LogosProtocol.Wire.JsonMapping

/-!
# What comes back of an encoded message

A message is encoded to JSON, the JSON is written to bytes and read again, and the result
is decoded.  The JSON library may give a number back under another kind; `Rereads` says
what it keeps.  Whatever it does within that, decoding the message is decoding each of the
values in it, and everything else comes back as it was sent.

## Main definitions

* `Json.Rereads` — what a write and a read of JSON keep.
* `AnyMessage.overValues` — run a decoder over the values a message transmits.
* `RpcValue.Normal`, `AnyMessage.Normal` — the values and messages that come back the same.
-/

namespace LogosProtocol

/-- What writing a JSON value and reading it back keeps.  An integer that is not negative
may come back unsigned, and a double may come back as null or as another double. -/
structure Json.Rereads (r : Json → Json) : Prop where
  null : r .null = .null
  boolean : ∀ b, r (.boolean b) = .boolean b
  numberInteger : ∀ n, r (.numberInteger n) = .numberInteger n ∨
    0 ≤ n ∧ r (.numberInteger n) = .numberUnsigned n.toUInt64
  numberUnsigned : ∀ n, r (.numberUnsigned n) = .numberUnsigned n
  numberFloat : ∀ d, r (.numberFloat d) = .null ∨ ∃ d', r (.numberFloat d) = .numberFloat d'
  string : ∀ s, r (.string s) = .string s
  array : ∀ items, r (.array items) = .array (items.map r)
  object : ∀ fields, r (.object fields) = .object (fields.map fun e => (e.1, r e.2))

/-- Decoding what was encoded directly, with no text in between. -/
theorem Json.rereads_id : Json.Rereads id where
  null := rfl
  boolean _ := rfl
  numberInteger _ := .inl rfl
  numberUnsigned _ := rfl
  numberFloat d := .inr ⟨d, rfl⟩
  string _ := rfl
  array items := by simp
  object fields := by simp

/-- Decode the values a message transmits, and reset what it does not transmit. -/
def AnyMessage.overValues (dec : RpcValue → Except DecodeError RpcValue) :
    AnyMessage → Except DecodeError AnyMessage
  | .call m => do
    let args ← m.args.mapM dec
    return .call { m with args }
  | .result m =>
    if m.ok then do
      let value ← dec m.value
      return .result { id := m.id, ok := true, value }
    else .ok (.result { m with value := .null })
  | .event m => do
    let data ← m.data.mapM dec
    return .event { m with data }
  | .methodsResult m =>
    if m.ok then do
      let methods ← m.methods.mapM fun md => do
        let parameters ← md.parameters.mapM dec
        return { md with parameters }
      return .methodsResult { id := m.id, ok := true, methods }
    else .ok (.methodsResult { m with methods := [] })
  | m => .ok m

/-! ## Decoding, field by field -/

theorem jsonToValues_eq (items : List Json) : jsonToValues items = items.mapM jsonToValue := by
  induction items with
  | nil => rfl
  | cons j items ih => rw [jsonToValues, List.mapM_cons, ih]

theorem jsonToEntries_eq (fields : List (Bytes × Json)) :
    jsonToEntries fields = fields.mapM fun e => (Prod.mk e.1) <$> jsonToValue e.2 := by
  induction fields with
  | nil => rfl
  | cons e fields ih =>
    rw [jsonToEntries, List.mapM_cons, ih]
    cases jsonToValue e.2 with
    | ok v => rfl
    | error e => rfl

theorem methodsFromJson_eq (items : List Json) :
    methodsFromJson items = items.mapM methodFromJson := by
  induction items with
  | nil => rfl
  | cons j items ih => rw [methodsFromJson, List.mapM_cons, ih]

/-- Decode the body of a message whose type is known. -/
def messageFromJson (j : Json) : MessageType → Except DecodeError AnyMessage
  | .call => (callFromJson j).map .call
  | .result => (resultFromJson j).map .result
  | .subscribe => (subscribeFromJson j).map .subscribe
  | .unsubscribe => (unsubscribeFromJson j).map .unsubscribe
  | .event => (eventFromJson j).map .event
  | .token => (tokenFromJson j).map .token
  | .methods => (methodsRequestFromJson j).map .methods
  | .methodsResult => (methodsResultFromJson j).map .methodsResult

theorem jsonToMessage_code (fields : List (Bytes × Json)) (t : MessageType) :
    jsonToMessage t.code (.object fields) = messageFromJson (.object fields) t := by
  simp only [jsonToMessage, MessageType.ofCode?_code]
  cases t <;> rfl

theorem get?_map (f : Json → Json) (fields : List (Bytes × Json)) (key : Bytes) :
    Fields.get? key (fields.map fun e => (e.1, f e.2)) = (Fields.get? key fields).map f := by
  induction fields with
  | nil => rfl
  | cons e fields ih =>
    simp only [List.map_cons, Fields.get?, ih]
    split_ifs
    · rfl
    · rfl

section
variable {r : Json → Json} (hr : Json.Rereads r)
include hr

/-- The last value given for a key is the one read back. -/
theorem field?_reread (entries : List (Bytes × Json)) (key : Bytes) :
    (r (jsonObject entries)).field? key = (Fields.lastValue key entries).map r := by
  rw [jsonObject, hr.object, Json.field?, get?_map, Fields.get?_setAll]
  simp [Fields.get?]

theorem value_reread {α : Type} (entries : List (Bytes × Json)) (key : Bytes)
    (get : Json → Except DecodeError α) (default : α) :
    (r (jsonObject entries)).value key get default =
      match Fields.lastValue key entries with
      | some v => get (r v)
      | none => .ok default := by
  rw [jsonObject, hr.object, Json.value, get?_map, Fields.get?_setAll]
  cases Fields.lastValue key entries with
  | some v => rfl
  | none => rfl

theorem argsFromJson_reread (args : List RpcValue) :
    argsFromJson (r (argsToJson args)) = args.mapM fun v => jsonToValue (r (valueToJson v)) := by
  rw [argsToJson, hr.array, argsFromJson, jsonToValues_eq, valuesToJson_eq, List.mapM_map,
    List.mapM_map]
  rfl

theorem methodFromJson_reread (m : MethodMetadata) :
    methodFromJson (r (methodToJson m)) = (fun parameters => { m with parameters }) <$>
      m.parameters.mapM fun v => jsonToValue (r (valueToJson v)) := by
  have hargs := argsFromJson_reread hr m.parameters
  rw [argsToJson, hr.array, argsFromJson] at hargs
  simp +decide [methodFromJson, methodToJson, value_reread hr, field?_reread hr,
    Fields.lastValue, argsToJson, hr.array, hr.string, hr.boolean, Json.getString, Json.getBool]
  simpa using hargs

theorem argsField_reread (entries : List (Bytes × Json)) (key : Bytes) (args : List RpcValue)
    (hlast : Fields.lastValue key entries = some (argsToJson args)) :
    argsField (r (jsonObject entries)) key = args.mapM fun v => jsonToValue (r (valueToJson v)) := by
  rw [argsField, field?_reread hr, hlast]
  exact argsFromJson_reread hr args

theorem callFromJson_reread (m : CallMessage) :
    (callFromJson (r (messageToJson (.call m)))).map .call =
      AnyMessage.overValues (fun v => jsonToValue (r (valueToJson v))) (.call m) := by
  by_cases hcaller : m.caller = []
  · simp +decide [callFromJson, messageToJson, hcaller, value_reread hr, Fields.lastValue,
      hr.string, hr.numberUnsigned, Json.getString, Json.getUInt64, AnyMessage.overValues]
    exact argsField_reread hr _ _ m.args rfl
  · simp +decide [callFromJson, messageToJson, hcaller, value_reread hr, Fields.lastValue,
      hr.string, hr.numberUnsigned, Json.getString, Json.getUInt64, AnyMessage.overValues]
    exact argsField_reread hr _ _ m.args rfl

theorem resultFromJson_reread (m : ResultMessage) :
    (resultFromJson (r (messageToJson (.result m)))).map .result =
      AnyMessage.overValues (fun v => jsonToValue (r (valueToJson v))) (.result m) := by
  cases hok : m.ok with
  | true =>
    simp +decide [resultFromJson, messageToJson, hok, value_reread hr, field?_reread hr,
      Fields.lastValue, hr.boolean, hr.numberUnsigned, Json.getBool, Json.getUInt64,
      AnyMessage.overValues]
  | false =>
    simp +decide [resultFromJson, messageToJson, hok, value_reread hr, Fields.lastValue,
      hr.string, hr.boolean, hr.numberUnsigned, Json.getString, Json.getBool, Json.getUInt64,
      AnyMessage.overValues]

theorem eventFromJson_reread (m : EventMessage) :
    (eventFromJson (r (messageToJson (.event m)))).map .event =
      AnyMessage.overValues (fun v => jsonToValue (r (valueToJson v))) (.event m) := by
  simp +decide [eventFromJson, messageToJson, value_reread hr, Fields.lastValue, hr.string,
    Json.getString, AnyMessage.overValues]
  exact argsField_reread hr _ _ m.data rfl

theorem methodsResultFromJson_reread (m : MethodsResultMessage) :
    (methodsResultFromJson (r (messageToJson (.methodsResult m)))).map .methodsResult =
      AnyMessage.overValues (fun v => jsonToValue (r (valueToJson v))) (.methodsResult m) := by
  cases hok : m.ok with
  | true =>
    simp +decide [methodsResultFromJson, messageToJson, hok, value_reread hr, field?_reread hr,
      Fields.lastValue, hr.array, hr.boolean, hr.numberUnsigned, Json.getBool, Json.getUInt64,
      AnyMessage.overValues, methodsFromJson_eq]
    have hmethod : methodFromJson ∘ r ∘ methodToJson = fun md =>
        (fun parameters => { md with parameters }) <$>
          md.parameters.mapM fun v => jsonToValue (r (valueToJson v)) :=
      funext fun md => methodFromJson_reread hr md
    rw [hmethod]
  | false =>
    simp +decide [methodsResultFromJson, messageToJson, hok, value_reread hr, Fields.lastValue,
      hr.string, hr.boolean, hr.numberUnsigned, Json.getString, Json.getBool, Json.getUInt64,
      AnyMessage.overValues]

/-- **Decoding an encoded message is decoding the values in it.** -/
theorem jsonToMessage_reread (m : AnyMessage) :
    jsonToMessage (messageTypeOf m).code (r (messageToJson m)) =
      m.overValues fun v => jsonToValue (r (valueToJson v)) := by
  obtain ⟨fields, hfields⟩ := exists_messageToJson m
  have hobject : r (messageToJson m) = .object (fields.map fun e => (e.1, r e.2)) := by
    rw [hfields, hr.object]
  have hdispatch : jsonToMessage (messageTypeOf m).code (r (messageToJson m)) =
      messageFromJson (r (messageToJson m)) (messageTypeOf m) := by
    rw [hobject]
    exact jsonToMessage_code _ _
  rw [hdispatch]
  cases m with
  | call m => exact callFromJson_reread hr m
  | result m => exact resultFromJson_reread hr m
  | subscribe m =>
    simp +decide [messageFromJson, messageTypeOf, subscribeFromJson, messageToJson, value_reread hr,
      Fields.lastValue, hr.string, Json.getString, AnyMessage.overValues]
  | unsubscribe m =>
    simp +decide [messageFromJson, messageTypeOf, unsubscribeFromJson, messageToJson, value_reread hr,
      Fields.lastValue, hr.string, Json.getString, AnyMessage.overValues]
  | event m => exact eventFromJson_reread hr m
  | token m =>
    simp +decide [messageFromJson, messageTypeOf, tokenFromJson, messageToJson, value_reread hr,
      Fields.lastValue, hr.string, Json.getString, AnyMessage.overValues]
  | methods m =>
    simp +decide [messageFromJson, messageTypeOf, methodsRequestFromJson, messageToJson, value_reread hr,
      Fields.lastValue, hr.string, hr.numberUnsigned, Json.getString, Json.getUInt64,
      AnyMessage.overValues]
  | methodsResult m => exact methodsResultFromJson_reread hr m

end

/-! ## Normal form -/

/-- The values that come back the same: unsigned only above the signed range, map keys in
increasing order, and no map that is the escape of bytes. -/
inductive RpcValue.Normal : RpcValue → Prop
  | null : Normal .null
  | bool (b : Bool) : Normal (.bool b)
  | int (n : Int64) : Normal (.int n)
  | uint (n : UInt64) (h : Int64.maxValue.toUInt64 < n) : Normal (.uint n)
  | double (d : Double) : Normal (.double d)
  | string (s : Bytes) : Normal (.string s)
  | bytes (data : Bytes) : Normal (.bytes data)
  | list (items : List RpcValue) (h : ∀ v ∈ items, Normal v) : Normal (.list items)
  | map (entries : List (Bytes × RpcValue)) (hordered : Fields.Ordered entries)
      (hescape : ∀ text, entries ≠ [(bytesKey, .string text)])
      (h : ∀ e ∈ entries, Normal e.2) : Normal (.map entries)

/-- Normal values, and what a message does not transmit left at its default. -/
def AnyMessage.Normal : AnyMessage → Prop
  | .call m => ∀ v ∈ m.args, v.Normal
  | .result m => if m.ok then m.value.Normal ∧ m.err = [] ∧ m.errCode = [] else m.value = .null
  | .event m => ∀ v ∈ m.data, v.Normal
  | .methodsResult m =>
    if m.ok then (∀ md ∈ m.methods, ∀ v ∈ md.parameters, v.Normal) ∧ m.err = []
    else m.methods = []
  | _ => True

/-- A map that is not the escape is not read as bytes. -/
theorem taggedText_of_not_escape {entries : List (Bytes × RpcValue)}
    (hescape : ∀ text, entries ≠ [(bytesKey, .string text)]) :
    taggedText (entries.map fun e => (e.1, valueToJson e.2)) = none := by
  rw [Option.eq_none_iff_forall_ne_some]
  intro text htext
  have hfields := (taggedText_eq_some_iff _ text).mp htext
  obtain ⟨e, hentries, he⟩ := List.map_eq_singleton_iff.mp hfields
  have hkey : e.1 = bytesKey := congrArg Prod.fst he
  have hvalue : e.2 = .string text := (valueToJson_eq_string_iff e.2 text).mp (congrArg Prod.snd he)
  apply hescape text
  rw [hentries, ← hkey, ← hvalue]

theorem jsonToValue_bytesToJson (data : Bytes) :
    jsonToValue (bytesToJson data) = .ok (.bytes data) := by
  simp [bytesToJson, jsonToValue, taggedText, b64UrlDecodeChecked_encode]

theorem makeInteger_of_lt {n : UInt64} (h : Int64.maxValue.toUInt64 < n) :
    RpcValue.makeInteger n = .uint n := by
  have hle : ¬ n ≤ Int64.maxValue.toUInt64 := UInt64.not_le.mpr h
  simp only [RpcValue.makeInteger, hle, if_false]

/-- A normal value comes back the same. -/
theorem jsonToValue_valueToJson {v : RpcValue} (hv : v.Normal) :
    jsonToValue (valueToJson v) = .ok v := by
  induction hv with
  | null => rfl
  | bool b => rfl
  | int n => rfl
  | uint n h => rw [valueToJson, jsonToValue, makeInteger_of_lt h]
  | double d => rfl
  | string s => rfl
  | bytes data => exact jsonToValue_bytesToJson data
  | list items _ ih =>
    have hitems : items.mapM (jsonToValue ∘ valueToJson) = .ok items := mapM_eq_ok_self ih
    rw [valueToJson_list, jsonToValue, jsonToValues_eq, List.mapM_map, hitems]
    rfl
  | map entries hordered hescape _ ih =>
    have hfields : Fields.Ordered (entries.map fun e => (e.1, valueToJson e.2)) :=
      List.pairwise_map.mpr hordered
    have hentries : (entries.map fun e => (e.1, valueToJson e.2)).mapM
        (fun e => (Prod.mk e.1) <$> jsonToValue e.2) = .ok entries := by
      rw [List.mapM_map]
      apply mapM_eq_ok_self
      intro e he
      rw [Function.comp_apply, ih e he]
      rfl
    rw [valueToJson_map, Fields.setAll_of_ordered (by simpa using hfields), List.nil_append,
      jsonToValue, taggedText_of_not_escape hescape]
    simp only [jsonToEntries_eq, hentries]
    rfl

/-- **A message in normal form comes back the same**, whichever of the eight it is. -/
theorem jsonToMessage_messageToJson (m : AnyMessage) (hm : m.Normal) :
    jsonToMessage (messageTypeOf m).code (messageToJson m) = .ok m := by
  have hvalues : ∀ vs : List RpcValue, (∀ v ∈ vs, v.Normal) →
      (vs.mapM fun v => jsonToValue (valueToJson v)) = .ok vs := by
    intro vs hvs
    exact mapM_eq_ok_self fun v hv => jsonToValue_valueToJson (hvs v hv)
  refine (jsonToMessage_reread Json.rereads_id m).trans ?_
  simp only [id_eq]
  cases m with
  | call m =>
    simp only [AnyMessage.overValues, hvalues m.args hm]
    rfl
  | result m =>
    obtain ⟨id, ok, value, err, errCode⟩ := m
    cases ok with
    | true =>
      obtain ⟨hvalue, herr, herrCode⟩ := hm
      simp only at herr herrCode
      simp only [AnyMessage.overValues, if_true, jsonToValue_valueToJson hvalue, herr, herrCode]
      rfl
    | false =>
      have hnull : value = .null := hm
      rw [hnull]
      rfl
  | subscribe m => rfl
  | unsubscribe m => rfl
  | event m =>
    simp only [AnyMessage.overValues, hvalues m.data hm]
    rfl
  | token m => rfl
  | methods m => rfl
  | methodsResult m =>
    obtain ⟨id, ok, methods, err⟩ := m
    cases ok with
    | true =>
      obtain ⟨hmethods, herr⟩ := hm
      have hall : (methods.mapM fun md => do
          let parameters ← md.parameters.mapM fun v => jsonToValue (valueToJson v)
          return { md with parameters } : Except DecodeError _) = .ok methods := by
        apply mapM_eq_ok_self
        intro md hmd
        rw [hvalues md.parameters (hmethods md hmd)]
        rfl
      simp only at herr
      simp only [AnyMessage.overValues, if_true, hall, herr]
      rfl
    | false =>
      have hnil : methods = [] := hm
      rw [hnil]
      rfl

/-- A call that carries a caller document and, in a list, a map with bytes and a large
unsigned. -/
def nestedCall : AnyMessage :=
  .call {
    id := 7, authToken := bstr "t", object := bstr "o", method := bstr "m"
    args := [.list [.map [(bytesKey, .bytes [1, 2]), (bstr "n", .uint 0xFFFFFFFFFFFFFFFF)]]]
    caller := bstr "c" }

theorem jsonToMessage_messageToJson_nested :
    nestedCall.Normal ∧
      jsonToMessage (messageTypeOf nestedCall).code (messageToJson nestedCall) = .ok nestedCall := by
  have hentries : RpcValue.Normal (.map [(bytesKey, .bytes [1, 2]), (bstr "n", .uint 0xFFFFFFFFFFFFFFFF)]) := by
    apply RpcValue.Normal.map
    · simp +decide [Fields.Ordered]
    · simp
    · simpa using ⟨RpcValue.Normal.bytes _, RpcValue.Normal.uint _ (by decide)⟩
  have hnormal : nestedCall.Normal := by
    intro v hv
    rw [List.mem_singleton.mp hv]
    exact .list _ (by simpa using hentries)
  exact ⟨hnormal, jsonToMessage_messageToJson nestedCall hnormal⟩

end LogosProtocol
