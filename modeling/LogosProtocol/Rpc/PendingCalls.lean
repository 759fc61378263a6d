import LogosProtocol.Lib.Fields
import LogosProtocol.Lib.TransitionSystem
import LogosProtocol.Wire.RpcMessage

/-!
# The pending calls of a peer

A peer keeps the handler of every call it has sent until the answer arrives.  Four parties
take handlers out of the two pending maps: the reply, `cancelPending`, the sweep of `fail()`
and the send itself, which registers first and only then looks whether the peer has
stopped.  Every critical section, load, compare-exchange and emit is one step; so is each
call of a handler, which runs with the mutex released.

A handler is named by the request it was registered for.  What a handler does is not part
of the model: when it calls back into the peer, that is another action.

## Main definitions

* `State`, `Action` — the peer, and its atomic steps.
* `next`, `peer` — what each step does.
-/

namespace LogosProtocol.PendingCalls

/-- The two pending maps. -/
inductive Kind
  | call
  | methods
  deriving DecidableEq, Repr

/-- A request and the handler registered for its answer. -/
structure Request where
  kind : Kind
  id : UInt64
  deriving DecidableEq, Repr

/-- How far a `sendCallAsync` or `sendMethods` has got. -/
inductive SendPc
  | idle
  /-- Called with an empty handler: nothing is registered. -/
  | ignored
  /-- In the pending map, `m_stopped` not read yet. -/
  | registered
  /-- Read `m_stopped` as true. -/
  | reclaiming
  /-- Took its own handler back, under its own id. -/
  | answering (mine : Request)
  /-- Read `m_stopped` as false. -/
  | emitting
  | returned
  deriving DecidableEq, Repr

/-- How far the one `fail()` that won the compare-exchange has got. -/
inductive FailPc
  | notCalled
  | sweeping (reason : Bytes)
  /-- Swept: handlers still to call, and whether an error handler was set. -/
  | answering (reason : Bytes) (todo : List Request) (errCb : Bool)
  | closed (reason : Bytes) (errCb : Bool)
  | notified (reason : Bytes) (errCb : Bool)
  | returned
  deriving DecidableEq, Repr

/-- What can be seen of a run from outside. -/
inductive Event
  | emitted (r : Request)
  | received (m : AnyMessage)
  | invoked (r : Request) (answer : AnyMessage)
  | cancelled (r : Request)
  | closeTransport
  | onConnectionClosed
  | errorHandler (reason : Bytes)

structure State where
  /-- `m_stopped`. -/
  stopped : Bool := false
  /-- `m_pendingCalls` and `m_pendingMethods`. -/
  pending : Kind → List (UInt64 × Request) := fun _ => []
  /-- Whether `m_error` is set. -/
  error : Bool := false
  send : Request → SendPc := fun _ => .idle
  /-- Handlers an inbound message has taken out and not called yet. -/
  inHand : List (Request × AnyMessage) := []
  fail : FailPc := .notCalled
  log : List Event := []

inductive Action
  /-- `sendCallAsync` with an empty handler. -/
  | ignore (id : UInt64)
  | register (r : Request)
  | loadStopped (r : Request)
  | reclaim (r : Request)
  | answerStopped (r : Request)
  | emit (r : Request)
  /-- The critical section of `dispatchIncoming`. -/
  | dispatchIncoming (m : AnyMessage)
  /-- A dispatch calls the handler it took out. -/
  | invoke (i : ℕ)
  | cancelPending (id : UInt64)
  | setErrorHandler (installed : Bool)
  /-- The compare-exchange of `fail()`. -/
  | failEnter (reason : Bytes)
  | failSweep
  | failAnswer
  | failClose
  | failNotify
  | failError

/-- The request a message answers. -/
def answeredBy : AnyMessage → Option Request
  | .result m => some ⟨.call, m.id⟩
  | .methodsResult m => some ⟨.methods, m.id⟩
  | _ => none

/-- The answer a send gives itself on a stopped peer. -/
def stoppedAnswer (r : Request) : AnyMessage :=
  match r.kind with
  | .call => .result { id := r.id, err := bstr "connection stopped",
                       errCode := bstr "TRANSPORT_CLOSED" }
  | .methods => .methodsResult { id := r.id, err := bstr "connection stopped" }

/-- The answer `fail()` gives. -/
def failedAnswer (reason : Bytes) (r : Request) : AnyMessage :=
  match r.kind with
  | .call => .result { id := r.id, err := reason, errCode := bstr "TRANSPORT_ERROR" }
  | .methods => .methodsResult { id := r.id, err := reason }

namespace State

def setSend (s : State) (r : Request) (pc : SendPc) : State :=
  { s with send := Function.update s.send r pc }

def setPending (s : State) (k : Kind) (entries : List (UInt64 × Request)) : State :=
  { s with pending := Function.update s.pending k entries }

def emitEvent (s : State) (e : Event) : State := { s with log := s.log ++ [e] }

@[simp] theorem send_setSend_self (s : State) (r : Request) (pc : SendPc) :
    (s.setSend r pc).send r = pc := Function.update_self ..

@[simp] theorem send_setSend_of_ne (s : State) {r r' : Request} (h : r' ≠ r) (pc : SendPc) :
    (s.setSend r pc).send r' = s.send r' := Function.update_of_ne h ..

/-- Find and erase: the handler registered under an id, if it is still there. -/
def extract (s : State) (r : Request) : Option Request × State :=
  match Fields.get? r.id (s.pending r.kind) with
  | some h => (some h, s.setPending r.kind (Fields.erase r.id (s.pending r.kind)))
  | none => (none, s)

/-- Erase, and note which handler that drops. -/
def cancelOne (s : State) (r : Request) : State :=
  match s.extract r with
  | (some h, s') => s'.emitEvent (.cancelled h)
  | (none, s') => s'

end State

/-- One atomic step.  `hasHandler` says whether the peer has an `IncomingCallHandler`. -/
def next (hasHandler : Bool) (s : State) : Action → Option State
  | .ignore id =>
    if s.send ⟨.call, id⟩ = .idle then some (s.setSend ⟨.call, id⟩ .ignored) else none
  | .register r =>
    if s.send r = .idle then
      some ((s.setPending r.kind (Fields.set r.id r (s.pending r.kind))).setSend r .registered)
    else none
  | .loadStopped r =>
    if s.send r = .registered then
      some (s.setSend r (if s.stopped then .reclaiming else .emitting))
    else none
  | .reclaim r =>
    if s.send r = .reclaiming then
      match s.extract r with
      | (some mine, s') => some (s'.setSend r (.answering mine))
      | (none, s') => some (s'.setSend r .returned)
    else none
  | .answerStopped r =>
    match s.send r with
    | .answering mine =>
      some ((s.emitEvent (.invoked mine (stoppedAnswer r))).setSend r .returned)
    | _ => none
  | .emit r =>
    if s.send r = .emitting then some ((s.emitEvent (.emitted r)).setSend r .returned) else none
  | .dispatchIncoming m =>
    let s := s.emitEvent (.received m)
    match answeredBy m with
    | some r =>
      match s.extract r with
      | (some h, s') => some { s' with inHand := (h, m) :: s'.inHand }
      | (none, s') => some s'
    | none => some s
  | .invoke i =>
    match s.inHand[i]? with
    | some (r, m) => some ({ s with inHand := s.inHand.eraseIdx i }.emitEvent (.invoked r m))
    | none => none
  | .cancelPending id => some ((s.cancelOne ⟨.call, id⟩).cancelOne ⟨.methods, id⟩)
  | .setErrorHandler installed => some { s with error := installed }
  | .failEnter reason =>
    if s.stopped then some s else some { s with stopped := true, fail := .sweeping reason }
  | .failSweep =>
    match s.fail with
    | .sweeping reason =>
      let calls := (s.pending .call).map Prod.snd
      let methods := (s.pending .methods).map Prod.snd
      some { s with pending := fun _ => [], error := false,
                    fail := .answering reason (calls ++ methods) s.error }
    | _ => none
  | .failAnswer =>
    match s.fail with
    | .answering reason (r :: todo) errCb =>
      some ({ s with fail := .answering reason todo errCb }.emitEvent
        (.invoked r (failedAnswer reason r)))
    | _ => none
  | .failClose =>
    match s.fail with
    | .answering reason [] errCb =>
      some ({ s with fail := .closed reason errCb }.emitEvent .closeTransport)
    | _ => none
  | .failNotify =>
    match s.fail with
    | .closed reason errCb =>
      let s' := { s with fail := .notified reason errCb }
      some (if hasHandler then s'.emitEvent .onConnectionClosed else s')
    | _ => none
  | .failError =>
    match s.fail with
    | .notified reason errCb =>
      let s' := { s with fail := .returned }
      some (if errCb then s'.emitEvent (.errorHandler reason) else s')
    | _ => none

/-- The peer, from the moment it is built. -/
def peer (hasHandler : Bool) : TransitionSystem State Action :=
  TransitionSystem.ofNext {} (next hasHandler)

/-- The coarser steps in which a dispatch calls the handler it took out at once: nothing
else runs between its critical section and the call. -/
def nextSection (hasHandler : Bool) (s : State) : Action → Option State
  | .dispatchIncoming m => do
    let s' ← next hasHandler s (.dispatchIncoming m)
    match s'.inHand with
    | [] => return s'
    | _ :: _ => next hasHandler s' (.invoke 0)
  | .invoke _ => none
  | a => next hasHandler s a

/-- The peer whose steps are its critical sections, loads, compare-exchanges and emits. -/
def sectionPeer (hasHandler : Bool) : TransitionSystem State Action :=
  TransitionSystem.ofNext {} (nextSection hasHandler)

end LogosProtocol.PendingCalls
