import LogosProtocol.Lib.History
import LogosProtocol.Lib.TransitionSystem
import LogosProtocol.Token.TokenAbi
import LogosProtocol.Wire.CallError
import LogosProtocol.Wire.WebMessage

/-!
# The outbound door of a wasm image

A wasm image calls other modules over the connection its host installed.  A call to a module
it holds a token for goes straight out.  Any other call is parked behind a `requestModule`
call to the capability module, and goes out when that has minted a token.  Everything runs on
one event loop: a step is an entry point called by the module, or one handler run by the
connection, and a callback is the last thing either does.

Calls of `lp_invoke_async` are numbered in the order they are made, clients by their handle,
and connections by the host.

## Main definitions

* `Door` — the image, its clients, the connections and what is pending on them.
* `lpInvokeAsync`, `sendOutboundCall`, `requestTokenThenSend` — the calls and the exchange.
* `next`, `door` — every step.
-/

namespace LogosProtocol.OutboundDoor

/-! ## Errors -/

def errorJson (e : CallError) : Json :=
  jsonObject [(bstr "code", .string e.code), (bstr "message", .string e.message),
    (bstr "origin", .string e.origin)]

/-- What a callback is given: `ok` and the value, or not `ok` and an error. -/
inductive Answer
  | value (v : RpcValue)
  | error (e : CallError)

namespace Answer

def ok : Answer → Bool
  | value _ => true
  | error _ => false

end Answer

/-! ## The state -/

/-- The module every token comes from. -/
def kCapabilityModule : Bytes := bstr "capability_module"

/-- A handler registered on a connection, for the call of that number and client. -/
inductive Handler
  /-- Answers the call. -/
  | result (n client : ℕ) (target : Bytes)
  /-- Sends the parked call when a token is minted. -/
  | grant (n client conn : ℕ) (target method : Bytes) (args : List RpcValue)

namespace Handler

def call : Handler → ℕ
  | result n _ _ => n
  | grant n _ _ _ _ _ => n

def client : Handler → ℕ
  | result _ client _ => client
  | grant _ client _ _ _ _ => client

def target : Handler → Bytes
  | result _ _ target => target
  | grant _ _ _ target _ _ => target

/-- It waits for a token for this target. -/
def asksFor (x : Bytes) : Handler → Bool
  | result _ _ _ => false
  | grant _ _ _ target _ _ => target == x

end Handler

/-- An entry of a connection's pending map. -/
structure Pending where
  conn : ℕ
  id : UInt64
  handler : Handler
  /-- The call has been written. -/
  written : Bool := false

structure Connection where
  stopped : Bool := false
  nextId : UInt64 := 1

structure Client where
  target : Bytes
  origin : Bytes
  /-- The liveness cell. -/
  alive : Bool := true

/-- What can be seen of a run. -/
inductive Event
  /-- A call of this client was accepted. -/
  | invoked (n client : ℕ) (target : Bytes)
  /-- A token was requested for the call. -/
  | asked (n : ℕ)
  /-- A token was put into the store, to be presented to this module. -/
  | saved (moduleName token : Bytes)
  /-- The capability module minted a token for the call. -/
  | minted (n : ℕ) (target token : Bytes)
  /-- A Call was written, on behalf of this call. -/
  | frame (n : ℕ) (m : CallMessage)
  | callback (n : ℕ) (answer : Answer)
  /-- The client was destroyed. -/
  | destroyed (client : ℕ)

structure Door where
  image : WasmImage := {}
  clients : List Client := []
  /-- The connection that the host has installed and not dropped. -/
  outbound : Option ℕ := none
  conn : ℕ → Connection := fun _ => {}
  /-- The pending maps of all connections, in the order of registration. -/
  pending : List Pending := []
  /-- Handlers that a `fail()` has swept out and not invoked yet, with their answers. -/
  swept : List (ResultMessage × Pending) := []
  calls : ℕ := 0
  log : List Event := []

namespace Door

def logged (d : Door) (e : Event) : Door := { d with log := d.log ++ [e] }

def alive (d : Door) (client : ℕ) : Bool := ((d.clients[client]?).map Client.alive).getD false

/-- `nextId()` of a connection. -/
def fetchId (d : Door) (c : ℕ) : UInt64 × Door :=
  let k := d.conn c
  (k.nextId, { d with conn := Function.update d.conn c { k with nextId := k.nextId + 1 } })

/-- `m_pendingCalls[id] = handler`. -/
def register (d : Door) (c : ℕ) (id : UInt64) (h : Handler) : Door :=
  { d with pending := d.pending.filter (fun p => ¬ (p.conn = c ∧ p.id = id)) ++ [⟨c, id, h, false⟩] }

/-- Take the handler of an id out of a connection's pending map. -/
def take (d : Door) (c : ℕ) (id : UInt64) : Option (Handler × Door) :=
  (d.pending.find? fun p => p.conn = c ∧ p.id = id).map fun p =>
    (p.handler, { d with pending := d.pending.filter fun p => ¬ (p.conn = c ∧ p.id = id) })

/-- The entry of an id has been written. -/
def markWritten (d : Door) (c : ℕ) (id : UInt64) : Door :=
  { d with pending := d.pending.map fun p =>
      if p.conn = c ∧ p.id = id then { p with written := true } else p }

/-- What was registered last under an id is taken back. -/
theorem take_register (d : Door) (c : ℕ) (id : UInt64) (k : Handler) :
    ∃ d', (d.register c id k).take c id = some (k, d') := by
  have hfind : (d.register c id k).pending.find? (fun p => p.conn = c ∧ p.id = id) =
      some ⟨c, id, k, false⟩ := by
    rw [Door.register, List.find?_append, List.find?_eq_none.mpr]
    · simp
    · intro p hp
      have hkey := (List.mem_filter.mp hp).2
      simp only [decide_eq_true_eq] at hkey ⊢
      exact hkey
  exact ⟨_, by rw [Door.take, hfind]; rfl⟩

/-- `WasmTokenStore::instance().saveOutbound`. -/
def saveOutbound (d : Door) (moduleName token : Bytes) : Door :=
  let saved := d.image.store.saveOutbound moduleName token
  if saved.1 then { d with image := { d.image with store := saved.2 } }.logged
    (.saved moduleName token)
  else d

end Door

/-! ## Sending -/

/-- How `sendCallAsync` ends: the message is written, its encoder throws, or the connection
has stopped and the handler is to be given this answer. -/
inductive SendOutcome
  | written
  | threw
  | answered (res : ResultMessage)

section send
variable (json : WireCodec)

/-- Register the handler, and write the message of the call. -/
def sendCallAsync (d : Door) (c : ℕ) (m : CallMessage) (h : Handler) : SendOutcome × Door :=
  let d := d.register c m.id h
  if (d.conn c).stopped then
    match d.take c m.id with
    | some (_, d) => (.answered { id := m.id, err := bstr "connection stopped",
                                  errCode := bstr "TRANSPORT_CLOSED" }, d)
    | none => (.written, d)
  else
    match encodeWebMessage json (.call m) with
    | .ok _ => (.written, (d.markWritten c m.id).logged (.frame h.call m))
    | .error _ => (.threw, d)

/-- Invoke the callback with an error, unless writing the error throws. -/
def failCall (d : Door) (n : ℕ) (e : CallError) : Bool × Door :=
  match json.serialise (errorJson e) with
  | .ok _ => (false, d.logged (.callback n (.error e)))
  | .error _ => (true, d)

/-- The handler of an outbound call. -/
def runResult (d : Door) (n client : ℕ) (target : Bytes) (res : ResultMessage) : Bool × Door :=
  if !d.alive client then (false, d)
  else if !res.ok then failCall json d n (callErrorFromWire target res.errCode res.err)
  else
    match json.serialise (valueToJson res.value) with
    | .ok _ => (false, d.logged (.callback n (.value res.value)))
    | .error _ => (true, d)

/-- Put one Call on the wire.  The first component says whether an exception leaves it. -/
def sendOutboundCall (d : Door) (c n client : ℕ) (target method authToken : Bytes)
    (args : List RpcValue) : Bool × Door :=
  let (id, d) := d.fetchId c
  let m : CallMessage := { id, authToken, object := target, method, args, caller := [] }
  match sendCallAsync json d c m (.result n client target) with
  | (.written, d) => (false, d)
  | (.threw, d) => (true, d)
  | (.answered res, d) => runResult json d n client target res

/-- What a reply to `requestModule` grants; nothing is the empty token. -/
def mintedBy (res : ResultMessage) : Bytes :=
  if res.ok then
    match valueToJson res.value with
    | .string token => token
    | _ => []
  else []

def errUnauthorized (target : Bytes) : CallError where
  code := bstr "unauthorized"
  message := bstr "capability_module granted this image no token for '" ++ target ++
    bstr "', so the call was not forwarded"
  origin := target

/-- The handler of a token exchange. -/
def runGrant (d : Door) (n client c : ℕ) (target method : Bytes) (args : List RpcValue)
    (res : ResultMessage) : Bool × Door :=
  if !d.alive client then (false, d)
  else
    let token := mintedBy res
    if token = [] then failCall json d n (errUnauthorized target)
    else
      let d := (d.logged (.minted n target token)).saveOutbound target token
      sendOutboundCall json d c n client target method token args

def Handler.run (d : Door) (res : ResultMessage) : Handler → Bool × Door
  | .result n client target => runResult json d n client target res
  | .grant n client c target method args => runGrant json d n client c target method args res

/-- The request for a token. -/
def tokenRequest (d : Door) (id : UInt64) (origin target : Bytes) : CallMessage where
  id := id
  authToken := d.image.store.outboundToken kCapabilityModule
  object := kCapabilityModule
  method := bstr "requestModule"
  args := [.string origin, .string target]
  caller := []

/-- Ask for a token, and park the call until there is one. -/
def requestTokenThenSend (d : Door) (c n client : ℕ) (target origin method : Bytes)
    (args : List RpcValue) : Bool × Door :=
  let (id, d) := (d.logged (.asked n)).fetchId c
  let m := tokenRequest d id origin target
  match sendCallAsync json d c m (.grant n client c target method args) with
  | (.written, d) => (false, d)
  | (.threw, d) => (true, d)
  | (.answered res, d) => runGrant json d n client c target method args res

/-! ## The entry points -/

/-- The handle of a new client, or null. -/
def lpClientCreate (d : Door) (targetModule originModule : Option Bytes) : Option ℕ × Door :=
  match targetModule with
  | none => (none, d)
  | some [] => (none, d)
  | some target =>
    (some d.clients.length,
      { d with clients := d.clients ++ [{ target, origin := originModule.getD [] }] })

/-- Announce the death, and free the client. -/
def lpClientDestroy (d : Door) (client : ℕ) : Door :=
  { d with clients := d.clients.modify client fun k => { k with alive := false } }.logged
    (.destroyed client)

/-- The arguments of a call: none if the text is not an array, and what is thrown for an
element that does not decode. -/
def parseArgs (parse : Bytes → Option Json) (argsJson : Option Bytes) :
    Option (Except DecodeError (List RpcValue)) :=
  match argsJson with
  | none => some (.ok [])
  | some [] => some (.ok [])
  | some text =>
    match parse text with
    | some (.array items) => some (jsonToValues items)
    | _ => none

def noHostChannel : Bytes := bstr "this wasm image has no host channel: its host installed no " ++
  bstr "connection, or the one it installed is closed"

/-- The installed connection, if it is open. -/
def Door.openConnection (d : Door) : Option ℕ :=
  d.outbound.filter fun c => !(d.conn c).stopped

/-- What an accepted call does. -/
def dispatch (d : Door) (n client : ℕ) (k : Client) (method : Bytes) (args : List RpcValue) :
    Bool × Door :=
  match d.openConnection with
  | none => failCall json d n (callErrorTransport k.target noHostChannel)
  | some c =>
    let held := d.image.store.outboundToken k.target
    if held ≠ [] ∨ k.target = kCapabilityModule then
      sendOutboundCall json d c n client k.target method held args
    else requestTokenThenSend json d c n client k.target k.origin method args

/-- Number an accepted call. -/
def Door.accept (d : Door) (client : ℕ) (target : Bytes) : Door :=
  { d with calls := d.calls + 1 }.logged (.invoked d.calls client target)

/-- `lp_invoke_async`: the code it returns, or none when an exception leaves it. -/
def lpInvokeAsync (parse : Bytes → Option Json) (d : Door) (client : ℕ) (k : Client)
    (method argsJson : Option Bytes) (cb : Bool) : Option ℤ × Door :=
  match method with
  | none => (some lpErrInvalidArg, d)
  | some [] => (some lpErrInvalidArg, d)
  | some method =>
    if !cb then (some lpErrInvalidArg, d)
    else
      match parseArgs parse argsJson with
      | none => (some lpErrInvalidArg, d)
      | some (.error _) => (none, d)
      | some (.ok args) =>
        match dispatch json (d.accept client k.target) d.calls client k method args with
        | (true, d) => (none, d)
        | (false, d) => (some lpOk, d)

end send

/-! ## Steps -/

inductive Action
  | create (targetModule originModule : Option Bytes)
  /-- A call with a client that exists, or with a null pointer. -/
  | invoke (client : Option ℕ) (method argsJson : Option Bytes) (cb : Bool)
  /-- A call of the token ABI. -/
  | token (call : TokenCall)
  | destroy (client : ℕ)
  | setOutboundConnection (c : Option ℕ)
  /-- A Result arrives on a connection. -/
  | result (c : ℕ) (m : ResultMessage)
  /-- A connection goes down: `fail()` up to its first handler. -/
  | fail (c : ℕ) (reason : Bytes)
  /-- A `fail()` invokes the next of its handlers. -/
  | failNext

/-- What a call of the token ABI puts into the outbound store. -/
def storedBy (image : WasmImage) : TokenCall → List Event
  | .save (some moduleName) (some token) =>
    if (image.store.saveOutbound moduleName token).1 then [.saved moduleName token] else []
  | .saveInbound (some caller) (some token) =>
    if (image.store.saveInbound caller token).1 ∧
        hostServiceGranted image.hostServices serviceTokenRegistry ∧
        ((image.store.saveInbound caller token).2.saveOutbound caller token).1 then
      [.saved caller token]
    else []
  | _ => []

/-- What `fail()` answers. -/
def failedResult (reason : Bytes) (id : UInt64) : ResultMessage where
  id := id
  err := reason
  errCode := bstr "TRANSPORT_ERROR"

def next (json : WireCodec) (parse : Bytes → Option Json) (d : Door) : Action → Option Door
  | .create targetModule originModule => some (lpClientCreate d targetModule originModule).2
  | .invoke none _ _ _ => some d
  | .invoke (some client) method argsJson cb =>
    match d.clients[client]? with
    | some k =>
      if k.alive then some (lpInvokeAsync json parse d client k method argsJson cb).2 else none
    | none => none
  | .token call => some { d with
      image := (d.image.apply parse call).2, log := d.log ++ storedBy d.image call }
  | .destroy client => if d.alive client then some (lpClientDestroy d client) else none
  | .setOutboundConnection c => some { d with outbound := c }
  | .result c m =>
    -- A stopped connection drops what arrives.
    if (d.conn c).stopped then some d
    else
      match d.take c m.id with
      | some (h, d) => some (h.run json d m).2
      | none => some d
  | .fail c reason =>
    if (d.conn c).stopped then some d
    else some { d with
      conn := Function.update d.conn c { d.conn c with stopped := true }
      pending := d.pending.filter fun p => p.conn ≠ c
      swept := d.swept ++ (d.pending.filter fun p => p.conn = c).map fun p =>
        (failedResult reason p.id, p) }
  | .failNext =>
    match d.swept with
    | [] => none
    | (res, p) :: rest => some (p.handler.run json { d with swept := rest } res).2

/-- The door of a fresh image. -/
def door (json : WireCodec) (parse : Bytes → Option Json) : TransitionSystem Door Action :=
  .ofNext {} (next json parse)

/-- A door with a connection. -/
def connected : Door := { outbound := some 0 }

end LogosProtocol.OutboundDoor
