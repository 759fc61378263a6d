import LogosProtocol.Wire.RpcMessage

/-!
# Messages as JSON

Both directions of the mapping between wire messages and JSON.  Bytes are an object with
the single key `_bytes`; a map is an object too, and is not escaped.  Every decoder reads
named keys with a default and ignores the rest.

## Main definitions

* `valueToJson`, `jsonToValue` — values.
* `messageToJson`, `jsonToMessage` — messages.
-/

namespace LogosProtocol

/-! ## Values -/

mutual

def valueToJson : RpcValue → Json
  | .null => .null
  | .bool b => .boolean b
  | .int n => .numberInteger n
  | .uint n => .numberUnsigned n
  | .double d => .numberFloat d
  | .string s => .string s
  | .bytes data => bytesToJson data
  | .list items => .array (valuesToJson items)
  | .map entries => .object (setEntries [] entries)

/-- The members of a list, in order. -/
def valuesToJson : List RpcValue → List Json
  | [] => []
  | v :: items => valueToJson v :: valuesToJson items

/-- `obj[k] = v` for each entry, in order. -/
def setEntries (obj : List (Bytes × Json)) : List (Bytes × RpcValue) → List (Bytes × Json)
  | [] => obj
  | (k, v) :: entries => setEntries (Fields.set k (valueToJson v) obj) entries

end

mutual

def jsonToValue : Json → Except DecodeError RpcValue
  | .null => .ok .null
  | .boolean b => .ok (.bool b)
  | .numberUnsigned n => .ok (.makeInteger n)
  | .numberInteger n => .ok (.int n)
  | .numberFloat d => .ok (.double d)
  | .string s => .ok (.string s)
  | .array items => do
    let vs ← jsonToValues items
    return .list vs
  | .object fields =>
    -- Disambiguate bytes.
    match taggedText fields with
    | some text =>
      match b64UrlDecodeChecked text with
      | some data => .ok (.bytes data)
      | none => .error (.codecError "invalid base64url input")
    | none => do
      let entries ← jsonToEntries fields
      return .map entries
  | .binary b => .ok (.bytes b)

def jsonToValues : List Json → Except DecodeError (List RpcValue)
  | [] => .ok []
  | j :: items => do
    let v ← jsonToValue j
    let vs ← jsonToValues items
    return v :: vs

def jsonToEntries : List (Bytes × Json) → Except DecodeError (List (Bytes × RpcValue))
  | [] => .ok []
  | (k, j) :: fields => do
    let v ← jsonToValue j
    let entries ← jsonToEntries fields
    return (k, v) :: entries

end

/-! ## Messages -/

/-- An object literal, filled key by key. -/
def jsonObject (entries : List (Bytes × Json)) : Json := .object (Fields.setAll [] entries)

def argsToJson (args : List RpcValue) : Json := .array (valuesToJson args)

/-- What is not an array carries no arguments. -/
def argsFromJson : Json → Except DecodeError (List RpcValue)
  | .array items => jsonToValues items
  | _ => .ok []

def methodToJson (m : MethodMetadata) : Json :=
  jsonObject [
    (bstr "name", .string m.name),
    (bstr "signature", .string m.signature),
    (bstr "returnType", .string m.returnType),
    (bstr "isInvokable", .boolean m.isInvokable),
    (bstr "parameters", argsToJson m.parameters)]

def methodFromJson (j : Json) : Except DecodeError MethodMetadata := do
  let name ← j.value (bstr "name") Json.getString []
  let signature ← j.value (bstr "signature") Json.getString []
  let returnType ← j.value (bstr "returnType") Json.getString []
  let isInvokable ← j.value (bstr "isInvokable") Json.getBool true
  let parameters ← match j.field? (bstr "parameters") with
    | some (.array items) => jsonToValues items
    | _ => pure []
  return { name, signature, returnType, isInvokable, parameters }

def methodsFromJson : List Json → Except DecodeError (List MethodMetadata)
  | [] => .ok []
  | j :: items => do
    let m ← methodFromJson j
    let ms ← methodsFromJson items
    return m :: ms

def messageToJson : AnyMessage → Json
  | .call m =>
    jsonObject ([
      (bstr "id", .numberUnsigned m.id),
      (bstr "authToken", .string m.authToken),
      (bstr "object", .string m.object),
      (bstr "method", .string m.method),
      (bstr "args", argsToJson m.args)] ++
      -- Omitted when empty.
      if m.caller = [] then [] else [(bstr "caller", .string m.caller)])
  | .result m =>
    jsonObject ([(bstr "id", .numberUnsigned m.id), (bstr "ok", .boolean m.ok)] ++
      if m.ok then [(bstr "value", valueToJson m.value)]
      else [(bstr "err", .string m.err), (bstr "errCode", .string m.errCode)])
  | .subscribe m =>
    jsonObject [(bstr "object", .string m.object), (bstr "event", .string m.eventName)]
  | .unsubscribe m =>
    jsonObject [(bstr "object", .string m.object), (bstr "event", .string m.eventName)]
  | .event m =>
    jsonObject [(bstr "object", .string m.object), (bstr "event", .string m.eventName),
      (bstr "data", argsToJson m.data)]
  | .token m =>
    jsonObject [(bstr "authToken", .string m.authToken),
      (bstr "moduleName", .string m.moduleName), (bstr "token", .string m.token)]
  | .methods m =>
    jsonObject [(bstr "id", .numberUnsigned m.id), (bstr "authToken", .string m.authToken),
      (bstr "object", .string m.object)]
  | .methodsResult m =>
    jsonObject ([(bstr "id", .numberUnsigned m.id), (bstr "ok", .boolean m.ok)] ++
      if m.ok then [(bstr "methods", .array (m.methods.map methodToJson))]
      else [(bstr "err", .string m.err)])

/-- The values under a key; none where it is missing. -/
def argsField (j : Json) (key : Bytes) : Except DecodeError (List RpcValue) :=
  match j.field? key with
  | some args => argsFromJson args
  | none => .ok []

def callFromJson (j : Json) : Except DecodeError CallMessage := do
  let id ← j.value (bstr "id") Json.getUInt64 0
  let authToken ← j.value (bstr "authToken") Json.getString []
  let object ← j.value (bstr "object") Json.getString []
  let method ← j.value (bstr "method") Json.getString []
  let caller ← j.value (bstr "caller") Json.getString []
  let args ← argsField j (bstr "args")
  return { id, authToken, object, method, args, caller }

def resultFromJson (j : Json) : Except DecodeError ResultMessage := do
  let id ← j.value (bstr "id") Json.getUInt64 0
  let ok ← j.value (bstr "ok") Json.getBool false
  if ok then
    match j.field? (bstr "value") with
    | some value =>
      let value ← jsonToValue value
      return { id, ok, value }
    | none => return { id, ok }
  else
    let err ← j.value (bstr "err") Json.getString []
    let errCode ← j.value (bstr "errCode") Json.getString []
    return { id, ok, err, errCode }

def subscribeFromJson (j : Json) : Except DecodeError SubscribeMessage := do
  let object ← j.value (bstr "object") Json.getString []
  let eventName ← j.value (bstr "event") Json.getString []
  return { object, eventName }

def unsubscribeFromJson (j : Json) : Except DecodeError UnsubscribeMessage := do
  let object ← j.value (bstr "object") Json.getString []
  let eventName ← j.value (bstr "event") Json.getString []
  return { object, eventName }

def eventFromJson (j : Json) : Except DecodeError EventMessage := do
  let object ← j.value (bstr "object") Json.getString []
  let eventName ← j.value (bstr "event") Json.getString []
  let data ← argsField j (bstr "data")
  return { object, eventName, data }

def tokenFromJson (j : Json) : Except DecodeError TokenMessage := do
  let authToken ← j.value (bstr "authToken") Json.getString []
  let moduleName ← j.value (bstr "moduleName") Json.getString []
  let token ← j.value (bstr "token") Json.getString []
  return { authToken, moduleName, token }

def methodsRequestFromJson (j : Json) : Except DecodeError MethodsMessage := do
  let id ← j.value (bstr "id") Json.getUInt64 0
  let authToken ← j.value (bstr "authToken") Json.getString []
  let object ← j.value (bstr "object") Json.getString []
  return { id, authToken, object }

def methodsResultFromJson (j : Json) : Except DecodeError MethodsResultMessage := do
  let id ← j.value (bstr "id") Json.getUInt64 0
  let ok ← j.value (bstr "ok") Json.getBool false
  if ok then
    match j.field? (bstr "methods") with
    | some (.array items) =>
      let methods ← methodsFromJson items
      return { id, ok, methods }
    | _ => return { id, ok }
  else
    let err ← j.value (bstr "err") Json.getString []
    return { id, ok, err }

def jsonToMessage (tag : UInt8) (j : Json) : Except DecodeError AnyMessage :=
  match j with
  | .object _ =>
    match MessageType.ofCode? tag with
    | some .call => (callFromJson j).map .call
    | some .result => (resultFromJson j).map .result
    | some .subscribe => (subscribeFromJson j).map .subscribe
    | some .unsubscribe => (unsubscribeFromJson j).map .unsubscribe
    | some .event => (eventFromJson j).map .event
    | some .token => (tokenFromJson j).map .token
    | some .methods => (methodsRequestFromJson j).map .methods
    | some .methodsResult => (methodsResultFromJson j).map .methodsResult
    | none => .error (.codecError "unknown message tag")
  | _ => .error (.codecError "expected top-level object")

/-! ## The encoder, as folds -/

@[simp] theorem valuesToJson_eq (items : List RpcValue) :
    valuesToJson items = items.map valueToJson := by
  induction items with
  | nil => rfl
  | cons v items ih => simp [valuesToJson, ih]

@[simp] theorem setEntries_eq (obj : List (Bytes × Json)) (entries : List (Bytes × RpcValue)) :
    setEntries obj entries =
      Fields.setAll obj (entries.map fun e => (e.1, valueToJson e.2)) := by
  induction entries generalizing obj with
  | nil => rfl
  | cons e entries ih => simp [setEntries, Fields.setAll, ih]

@[simp] theorem valueToJson_list (items : List RpcValue) :
    valueToJson (.list items) = .array (items.map valueToJson) := by
  simp [valueToJson]

@[simp] theorem valueToJson_map (entries : List (Bytes × RpcValue)) :
    valueToJson (.map entries) =
      .object (Fields.setAll [] (entries.map fun e => (e.1, valueToJson e.2))) := by
  simp [valueToJson]

/-- Only a string is encoded as a string. -/
theorem valueToJson_eq_string_iff (v : RpcValue) (s : Bytes) :
    valueToJson v = .string s ↔ v = .string s := by
  cases v <;> simp [valueToJson, bytesToJson]

/-- Every message is encoded as an object. -/
theorem exists_messageToJson (m : AnyMessage) : ∃ fields, messageToJson m = .object fields := by
  cases m <;> exact ⟨_, rfl⟩

end LogosProtocol
