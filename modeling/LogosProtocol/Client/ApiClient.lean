import LogosProtocol.Async.CallState
import LogosProtocol.Lib.Reentrant
import LogosProtocol.Token.TokenManager

/-!
# A client and its tokens

`LogosAPIClient` sends calls to a target with the token it holds for it.  Without one it first
waits until the target can be acquired and then asks capability_module for a token; a call that
the target rejects is sent again with another token, once.  A synchronous call waits in a nested
event loop, in which further calls, answers and timers are handled.  Asynchronous calls to a
target without a token queue behind one wait and one exchange.

The two consumers are the environment: they run nested event loops, answer readiness waits,
exchanges and calls, and say whether an object can be acquired.  Other clients may write the
token store at any step.  Log lines and the client's destruction are left out.

## Main definitions

* `Client` — the queues, the waits, what is in flight, and the log.
* `invokeRemoteMethodAsyncImpl`, `beginReadinessGatedHandshake`, `drainPendingHandshakes`,
  `startCapabilityHandshake` — the asynchronous path.
* `invokeRemoteMethod`, `mintAndCacheToken` — the synchronous path.
* `exec`, `call`, `program` — the machine.
-/

namespace LogosProtocol

/-! ## The rejection sentinel -/

def kRpcStatusKey : QString := qstr "__logos_rpc_status__"
def kRpcStatusUnauthorized : QString := qstr "unauthorized"

/-- A map with one entry, which reads as the reserved text under the reserved key. -/
def isUnauthorizedSentinel : QVariant → Bool
  | .map [(key, .string s)] | .jsonObject [(key, .string s)] =>
    key = kRpcStatusKey ∧ s = kRpcStatusUnauthorized
  -- `toString` of a byte array is its text; that of a JSON value is empty.
  | .map [(key, .byteArray data)] => key = kRpcStatusKey ∧ data = kRpcStatusUnauthorized.toUtf8
  | _ => false

def makeUnauthorizedSentinel : QVariant :=
  .map [(kRpcStatusKey, .string kRpcStatusUnauthorized)]

@[simp] theorem isUnauthorizedSentinel_make :
    isUnauthorizedSentinel makeUnauthorizedSentinel = true := by
  simp [isUnauthorizedSentinel, makeUnauthorizedSentinel]

@[simp] theorem isUnauthorizedSentinel_invalid : isUnauthorizedSentinel .invalid = false := rfl

namespace ApiClient

/-! ## What a call is -/

def capabilityModule : QString := qstr "capability_module"

/-- What a client is constructed with. -/
structure Setup where
  originModule : QString
  moduleToTalkTo : QString

/-- The client of capability_module itself has no capability consumer. -/
def Setup.hasCapabilityConsumer (s : Setup) : Bool := s.moduleToTalkTo ≠ capabilityModule

def Setup.eligible (s : Setup) (objectName : QString) : Bool :=
  objectName ≠ capabilityModule ∧ s.hasCapabilityConsumer

structure Request where
  objectName : QString
  methodName : QString
  args : List QVariant := []
  /-- In milliseconds. -/
  timeout : Int := 20000

/-- A call of `invokeRemoteMethodAsync`, and what is left of its retry. -/
structure AsyncCall where
  number : ℕ
  request : Request
  callback : ℕ
  retriesLeft : ℕ

/-- A call of `invokeRemoteMethod`; `hasErr` if it was given somewhere to put an error. -/
structure SyncCall where
  number : ℕ
  request : Request
  hasErr : Bool

def AsyncCall.objectName (call : AsyncCall) : QString := call.request.objectName
def SyncCall.objectName (call : SyncCall) : QString := call.request.objectName

/-- What the readiness gate answers. -/
def errObjectUnavailable (objectName : QString) : CallError where
  code := bstr "object_unavailable"
  message := bstr "failed to acquire remote object '" ++ objectName.toUtf8 ++
    bstr "' (module not loaded, not published, or transport failure)"
  origin := objectName.toUtf8

/-- What a rejection that stays is answered. -/
def errUnauthorized (objectName : QString) : CallError where
  code := bstr "unauthorized"
  message := bstr "call to '" ++ objectName.toUtf8 ++
    bstr "' rejected: token not recognized (re-exchange failed)"
  origin := objectName.toUtf8

/-! ## The client -/

/-- A queued call. -/
structure Continuation where
  number : ℕ
  call : AsyncCall

/-- `PendingReadiness`, with what the two callbacks of the wait have captured. -/
structure Readiness where
  number : ℕ
  objectName : QString
  timeout : Int
  id : ℕ := 0
  /-- When the deadline expires, while its timer runs. -/
  timer : Option ℕ := none
  done : Bool := false

/-- A `requestModule` that the capability consumer has not answered. -/
structure Exchange where
  number : ℕ
  objectName : QString
  capabilityToken : QString
  timeout : Int

/-- An asynchronous call that was handed to the consumer with a token. -/
structure Dispatch where
  number : ℕ
  call : AsyncCall
  token : QString

/-- What ends a round of the queue. -/
inductive Edge
  | minted
  | deadline
  | refused
  deriving DecidableEq, Repr

/-- What can be seen of a run. -/
inductive Event
  | queued (k : ℕ) (objectName : QString)
  | drained (objectName : QString) (ks : List ℕ) (edge : Edge) (token : QString) (reachable : Bool)
  | ran (k : ℕ) (token : QString) (reachable : Bool)
  /-- `requestModule` is called, on either path. -/
  | exchanged (objectName : QString)
  | dispatched (call : ℕ) (objectName token : QString)
  /-- A rejection is handled. -/
  | rejected (call : ℕ) (objectName token : QString)
  /-- The callback is called, or the call returns. -/
  | answered (call : ℕ) (value : QVariant) (err : Option CallError)

/-- What is left to do. -/
inductive Instr
  /-- User code is running. -/
  | callback
  /-- A consumer is at work, and may run an event loop. -/
  | transport
  /-- `whenObjectAvailable` has not returned yet. -/
  | registering (n : ℕ)
  | invoke (call : AsyncCall)
  /-- The loop of `drainPendingHandshakes` has this continuation next. -/
  | run (k : Continuation) (token : QString) (reachable : Bool)
  /-- A synchronous call waits until its target can be acquired, since a time. -/
  | ensureTarget (call : SyncCall) (start : ℕ)
  /-- It waits in `requestModule`; `retried` if its target has rejected it. -/
  | mint (call : SyncCall) (timeout : Int) (retried : Bool)
  | callTarget (call : SyncCall) (token : QString) (retried : Bool)

structure Client where
  store : TokenManager := .empty
  pendingHandshakes : Dict QString (List Continuation) := ∅
  pendingReadiness : Dict QString ℕ := ∅
  /-- Every wait there was. -/
  readiness : List Readiness := []
  exchanges : List Exchange := []
  dispatches : List Dispatch := []
  clock : ℕ := 0
  nextNumber : ℕ := 0
  log : List Event := []

/-- What the environment answers. -/
structure Oracle where
  elapsed : ℕ := 0
  /-- What the other clients of the store did meanwhile. -/
  others : TokenManager → TokenManager := fun store => store
  /-- The id that `whenObjectAvailable` returns. -/
  id : ℕ := 0
  /-- `ensureTargetAcquirable`. -/
  found : Bool := false
  /-- What `requestModule` grants. -/
  token : QString := []
  /-- What a synchronous call returns. -/
  value : QVariant := .invalid
  err : CallError := {}

/-- The public operations, and what the event loop delivers. -/
inductive Op
  | invokeRemoteMethod (request : Request) (hasErr : Bool)
  | invokeRemoteMethodAsync (request : Request) (callback : Option ℕ)
  /-- The callback of a readiness wait. -/
  | ready (n : ℕ) (ready : Bool)
  /-- The timer of a readiness wait. -/
  | deadline (n : ℕ)
  /-- The callback of an exchange, with the text of the reply. -/
  | reply (n : ℕ) (token : QString)
  /-- The callback of a dispatched call. -/
  | result (n : ℕ) (value : QVariant) (err : CallError)

/-! ## Reading and writing the client -/

namespace Client

def getToken (c : Client) (name : QString) : QString := c.store.getToken name

/-- The continuations that wait for a target. -/
def queue (c : Client) (name : QString) : List Continuation :=
  (c.pendingHandshakes.lookup name).getD []

def emit (c : Client) (e : Event) : Client := { c with log := c.log ++ [e] }

/-- Time passes, and others write the store. -/
def pass (c : Client) (o : Oracle) : Client :=
  { c with clock := c.clock + o.elapsed, store := o.others c.store }

def waitOf (c : Client) (n : ℕ) : Option Readiness := c.readiness.find? fun w => w.number = n

def setWait (c : Client) (n : ℕ) (f : Readiness → Readiness) : Client :=
  { c with readiness := c.readiness.map fun w => if w.number = n then f w else w }

/-! ## The asynchronous path -/

/-- Hand a call to the consumer. -/
def dispatch (c : Client) (call : AsyncCall) (token : QString) : Client × List Instr :=
  let sent : Dispatch := ⟨c.nextNumber, call, token⟩
  ({ c with nextNumber := c.nextNumber + 1, dispatches := c.dispatches ++ [sent] }.emit
    (.dispatched call.number call.objectName token), [.transport])

/-- The wait exists before `whenObjectAvailable` is called. -/
def beginReadinessGatedHandshake (c : Client) (name : QString) (timeout : Int) :
    Client × List Instr :=
  let wait : Readiness := { number := c.nextNumber, objectName := name, timeout := timeout }
  ({ c with
      nextNumber := c.nextNumber + 1
      readiness := c.readiness ++ [wait]
      pendingReadiness := c.pendingReadiness.insert name wait.number }, [.registering wait.number])

/-- Queue a call behind the handshake of its target, or hand it to the consumer. -/
def invokeRemoteMethodAsyncImpl (s : Setup) (c : Client) (call : AsyncCall) :
    Client × List Instr :=
  let name := call.objectName
  let token := c.getToken name
  if token = [] ∧ s.eligible name then
    let k : Continuation := ⟨c.nextNumber, call⟩
    let queue := c.queue name ++ [k]
    let c := { c with
      nextNumber := c.nextNumber + 1
      pendingHandshakes := c.pendingHandshakes.insert name queue }.emit (.queued k.number name)
    if 1 < queue.length then (c, [])
    else c.beginReadinessGatedHandshake name call.request.timeout
  else c.dispatch call token

/-- Stop the timer of the target's wait and forget the wait. -/
def finishReadiness (c : Client) (name : QString) : Client :=
  match c.pendingReadiness.lookup name with
  | none => c
  | some n =>
    { c.setWait n fun w => { w with timer := none } with
      pendingReadiness := c.pendingReadiness.erase name }

/-- The queue goes before its continuations run. -/
def drainPendingHandshakes (c : Client) (name : QString) (edge : Edge) (token : QString)
    (reachable : Bool) : Client × List Instr :=
  match c.pendingHandshakes.lookup name with
  | none => (c, [])
  | some calls =>
    ({ c with pendingHandshakes := c.pendingHandshakes.erase name }.emit
      (.drained name (calls.map Continuation.number) edge token reachable),
      calls.map fun k => .run k token reachable)

def startCapabilityHandshake (c : Client) (name : QString) (timeout : Int) :
    Client × List Instr :=
  let exchange : Exchange := ⟨c.nextNumber, name, c.getToken capabilityModule, timeout⟩
  ({ c with nextNumber := c.nextNumber + 1, exchanges := c.exchanges ++ [exchange] }.emit
    (.exchanged name), [.transport])

/-- The readiness callback. -/
def ready (c : Client) (n : ℕ) (ready : Bool) : Option (Client × List Instr) :=
  (c.waitOf n).map fun w =>
    if w.done then (c, [])
    else
      let c := (c.setWait n fun w => { w with done := true }).finishReadiness w.objectName
      if ready then c.startCapabilityHandshake w.objectName w.timeout
      else c.drainPendingHandshakes w.objectName .refused [] false

/-- `whenObjectAvailable` returns; the callback may have been called before. -/
def registered (c : Client) (n id : ℕ) : Option (Client × List Instr) :=
  (c.waitOf n).map fun w =>
    if w.done then (c, [])
    else if id = 0 then
      let c := { c.setWait n fun w => { w with done := true } with
        pendingReadiness := c.pendingReadiness.erase w.objectName }
      c.drainPendingHandshakes w.objectName .refused [] false
    else
      (c.setWait n fun w => { w with id := id, timer := some (c.clock + (max 1 w.timeout).toNat) }, [])

/-- The deadline of a wait; the consumer's subscription is cancelled. -/
def deadline (c : Client) (n : ℕ) : Option (Client × List Instr) :=
  (c.waitOf n).bind fun w =>
    if w.timer.any fun due => due ≤ c.clock then
      -- A single shot.
      let c := c.setWait n fun w => { w with timer := none }
      if w.done then some (c, [])
      else
        let c := (c.setWait n fun w => { w with done := true }).finishReadiness w.objectName
        some (c.drainPendingHandshakes w.objectName .deadline [] false)
    else none

/-- The token is stored before the queue is drained. -/
def reply (c : Client) (n : ℕ) (token : QString) : Option (Client × List Instr) :=
  (c.exchanges.find? fun e => e.number = n).map fun e =>
    let c := { c with
      exchanges := c.exchanges.eraseP fun e => e.number = n
      store := if token = [] then c.store else c.store.saveToken e.objectName token }
    c.drainPendingHandshakes e.objectName .minted token true

/-- A user callback is called. -/
def answer (c : Client) (call : AsyncCall) (value : QVariant) (err : CallError) :
    Client × List Instr :=
  (c.emit (.answered call.number value (some err)), [.callback])

/-- `onResult`, for a call that was sent with a token. -/
def onResult (s : Setup) (c : Client) (call : AsyncCall) (sent : QString) (value : QVariant)
    (err : CallError) : Client × List Instr :=
  if 0 < call.retriesLeft ∧ s.eligible call.objectName ∧ isUnauthorizedSentinel value then
    ({ c with store := (c.store.removeToken call.objectName).2 }.emit
      (.rejected call.number call.objectName sent),
      [.invoke { call with retriesLeft := call.retriesLeft - 1 }])
  else if isUnauthorizedSentinel value then
    c.answer call .invalid (errUnauthorized call.objectName)
  else c.answer call value err

/-- A continuation is run. -/
def runContinuation (s : Setup) (c : Client) (k : Continuation) (token : QString)
    (reachable : Bool) : Client × List Instr :=
  let c := c.emit (.ran k.number token reachable)
  if reachable then c.dispatch k.call token
  else c.onResult s k.call [] .invalid (errObjectUnavailable k.call.objectName)

def result (s : Setup) (c : Client) (n : ℕ) (value : QVariant) (err : CallError) :
    Option (Client × List Instr) :=
  (c.dispatches.find? fun d => d.number = n).map fun d =>
    { c with dispatches := c.dispatches.eraseP fun d => d.number = n }.onResult s d.call d.token
      value err

/-! ## The synchronous path -/

/-- A synchronous call returns. -/
def returns (c : Client) (call : SyncCall) (value : QVariant) (err : CallError) :
    Client × List Instr :=
  (c.emit (.answered call.number value (if call.hasErr then some err else none)), [])

def callTarget (c : Client) (call : SyncCall) (token : QString) (retried : Bool) :
    Client × List Instr :=
  (c.emit (.dispatched call.number call.objectName token), [.callTarget call token retried])

def mintAndCacheToken (c : Client) (call : SyncCall) (timeout : Int) (retried : Bool) :
    Client × List Instr :=
  (c.emit (.exchanged call.objectName), [.mint call timeout retried])

def invokeRemoteMethod (s : Setup) (c : Client) (call : SyncCall) : Client × List Instr :=
  let token := c.getToken call.objectName
  if token = [] ∧ s.eligible call.objectName then (c, [.ensureTarget call c.clock])
  else c.callTarget call token false

/-- The wait for the target is over; the token is read again. -/
def ensured (c : Client) (call : SyncCall) (start : ℕ) (found : Bool) : Client × List Instr :=
  if ¬ found then c.returns call .invalid (errObjectUnavailable call.objectName)
  else
    let token := c.getToken call.objectName
    if token = [] then
      c.mintAndCacheToken call (max 1 (call.request.timeout - (c.clock - start : ℕ))) false
    else c.callTarget call token false

/-- `requestModule` returns. -/
def minted (c : Client) (call : SyncCall) (retried : Bool) (token : QString) :
    Client × List Instr :=
  let c := if token = [] then c else { c with store := c.store.saveToken call.objectName token }
  if ¬ retried ∨ token ≠ [] then c.callTarget call token retried
  -- The result is still the rejection.
  else c.returns call .invalid (errUnauthorized call.objectName)

/-- The target answers a synchronous call that was sent with a token. -/
def returned (s : Setup) (c : Client) (call : SyncCall) (sent : QString) (retried : Bool)
    (value : QVariant) (err : CallError) : Client × List Instr :=
  if ¬ retried ∧ s.eligible call.objectName ∧ isUnauthorizedSentinel value then
    ({ c with store := (c.store.removeToken call.objectName).2 }.emit
      (.rejected call.number call.objectName sent)).mintAndCacheToken call call.request.timeout true
  else if isUnauthorizedSentinel value then
    c.returns call .invalid (errUnauthorized call.objectName)
  else c.returns call value err

end Client

/-! ## The program -/

/-- Run one instruction. -/
def exec (s : Setup) (c : Client) (i : Instr) (o : Oracle) : Option (Client × List Instr) :=
  let c := c.pass o
  match i with
  | .callback | .transport => some (c, [])
  | .registering n => c.registered n o.id
  | .invoke call => some (c.invokeRemoteMethodAsyncImpl s call)
  | .run k token reachable => some (c.runContinuation s k token reachable)
  | .ensureTarget call start => some (c.ensured call start o.found)
  | .mint call _ retried => some (c.minted call retried o.token)
  | .callTarget call token retried => some (c.returned s call token retried o.value o.err)

/-- Accept a call, or handle what the event loop delivers. -/
def call (s : Setup) (c : Client) (op : Op) (o : Oracle) : Option (Client × List Instr) :=
  let c := c.pass o
  match op with
  | .invokeRemoteMethod request hasErr =>
    let n := c.nextNumber
    some ({ c with nextNumber := n + 1 }.invokeRemoteMethod s ⟨n, request, hasErr⟩)
  | .invokeRemoteMethodAsync request callback =>
    match callback with
    | none => some (c, [])
    | some callback =>
      let n := c.nextNumber
      some ({ c with nextNumber := n + 1 }.invokeRemoteMethodAsyncImpl s ⟨n, request, callback, 1⟩)
  | .ready n ready => c.ready n ready
  | .deadline n => c.deadline n
  | .reply n token => c.reply n token
  | .result n value err => c.result s n value err

/-- User code, or an event loop, runs. -/
def Instr.isCallback : Instr → Bool
  | .callback | .transport | .registering _ | .ensureTarget .. | .mint .. | .callTarget .. => true
  | .invoke _ | .run .. => false

/-- The client as a program with callbacks. -/
def program (s : Setup) (store : TokenManager) : Program Client Instr Op Oracle where
  init := { store := store }
  exec := exec s
  call := call s
  isCallback := Instr.isCallback

end ApiClient

end LogosProtocol
