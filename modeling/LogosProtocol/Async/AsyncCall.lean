import LogosProtocol.Async.CallState
import LogosProtocol.Lib.TransitionSystem

/-!
# Asynchronous calls

The asynchronous calls of one handle, and what races to resolve each of them: its reply,
its deadline, the completion event of a deferred call, and teardown.  Every critical section
of `CallState::mu`, every claim, every load of `delivered`, every post and every expiry is
one step, so a `deliver()` is a sequence of steps that any other may come between.

Time is not modelled: a timer that waits may expire at any step.  The connection is what a
call sees of it: its handler is pending there until an answer, `fail()` or `cancelPending`
takes it out, and what takes it out with an answer calls it afterwards.

## Main definitions

* `AsyncCall` — one call, with how far each of its resolvers has got.
* `State`, `Action` — the handle, and its atomic steps.
* `next`, `handle` — what each step does.
-/

namespace LogosProtocol

namespace Async

/-- What a callback is given. -/
structure Outcome where
  value : QVariant := .invalid
  err : CallError := {}
  deriving Repr

/-- A `ResultMessage` as the reply handler reads it, its value already a `QVariant`. -/
structure Reply where
  ok : Bool := false
  value : QVariant := .invalid
  err : Bytes := []
  errCode : Bytes := []
  deriving Repr

/-- Who may call `deliver()` on a call.  No resolver does so twice at a time: a call has one
caller and one reply, its deadline runs on its timer's strand, the completions of a handle
arrive on one strand, and teardown is one loop. -/
inductive Resolver
  | caller
  | reply
  | deadline
  | completion
  | teardown
  deriving DecidableEq, Repr

/-- How far a `deliver()` has got. -/
inductive DeliverPc
  | idle
  | entered (o : Outcome)
  /-- Out of both registries, `delivered` not claimed yet. -/
  | left (o : Outcome)
  /-- Won the claim. -/
  | claimed (o : Outcome)
  /-- Swapped the callback out. -/
  | took (cb : Bool) (o : Outcome)
  /-- Withdrew the handler from the connection. -/
  | withdrew (cb : Bool) (o : Outcome)
  /-- Posted the cancel of the timer. -/
  | cancelled (cb : Bool) (o : Outcome)
  deriving Repr

/-- How far `callAsync` has got with a call. -/
inductive CallerPc
  | idle
  /-- Posted the arm of the first deadline. -/
  | armed
  /-- Found the handle stopping. -/
  | refused
  /-- In `inflight`, not sent yet. -/
  | registered
  | returned
  deriving DecidableEq, Repr

/-- How far the reply handler has got. -/
inductive HandlerPc
  | unregistered
  /-- In the pending map of the connection. -/
  | pending
  /-- Taken out of it by `cancelPending`. -/
  | withdrawn
  /-- Taken out of it with an answer. -/
  | answered (res : Reply)
  /-- The answer was a sentinel, and the call state is still there. -/
  | deferring (callId : QString)
  /-- Read `delivered` as false. -/
  | filing (callId : QString)
  /-- Filed the call under `deferred`. -/
  | filed
  | returned
  deriving Repr

/-- In the connection, or running. -/
def HandlerPc.Active : HandlerPc → Prop
  | unregistered => False
  | withdrawn => False
  | returned => False
  | _ => True

/-- What is queued on the strand of a timer. -/
inductive TimerTask
  | arm (reportMs : Int)
  | cancel
  /-- The handler of a wait that has expired. -/
  | fire (reportMs : Int)
  deriving DecidableEq, Repr

structure AsyncCall where
  method : Bytes := []
  timeoutMs : Int := 0
  callId : QString := []
  /-- The callback has not been swapped out. -/
  callback : Bool := true
  delivered : Bool := false
  caller : CallerPc := .idle
  handler : HandlerPc := .unregistered
  resolver : Resolver → DeliverPc := fun _ => .idle
  /-- Posted and not run, oldest first. -/
  strand : List TimerTask := []
  /-- The wait that is pending, with the time it will report. -/
  timer : Option Int := none
  /-- What was handed to `postDelivery`. -/
  posted : List Outcome := []
  /-- How many calls of `deliver()` have run to completion. -/
  completed : ℕ := 0

namespace AsyncCall

def setResolver (call : AsyncCall) (r : Resolver) (pc : DeliverPc) : AsyncCall :=
  { call with resolver := Function.update call.resolver r pc }

/-- A resolver calls `deliver()`. -/
def deliver (call : AsyncCall) (r : Resolver) (o : Outcome) : AsyncCall :=
  call.setResolver r (.entered o)

/-- `deliver()` returns. -/
def complete (call : AsyncCall) (r : Resolver) : AsyncCall :=
  { call.setResolver r .idle with completed := call.completed + 1 }

def armTimer (call : AsyncCall) (reportMs : Int) : AsyncCall :=
  { call with strand := call.strand ++ [.arm reportMs] }

def cancelTimer (call : AsyncCall) : AsyncCall :=
  { call with strand := call.strand ++ [.cancel] }

/-- What the connection's `cancelPending` does to the reply handler. -/
def cancelPending (call : AsyncCall) : AsyncCall :=
  match call.handler with
  | .pending => { call with handler := .withdrawn }
  | _ => call

/-- `fail()` of the connection takes the handler out with an error. -/
def sweep (reason : Bytes) (call : AsyncCall) : AsyncCall :=
  match call.handler with
  | .pending =>
    { call with handler := .answered { err := reason, errCode := bstr "TRANSPORT_ERROR" } }
  | _ => call

/-- The steps of `deliver()` after the call has left the registries. -/
def resolve (call : AsyncCall) (r : Resolver) : DeliverPc → Option AsyncCall
  | .left o =>
    if call.delivered then some (call.complete r)
    else some { call.setResolver r (.claimed o) with delivered := true }
  | .claimed o =>
    some { call.setResolver r (.took call.callback o) with callback := false }
  | .took cb o => some (call.cancelPending.setResolver r (.withdrew cb o))
  | .withdrew cb o => some (call.cancelTimer.setResolver r (.cancelled cb o))
  | .cancelled cb o =>
    some { call.complete r with posted := if cb then call.posted ++ [o] else call.posted }
  | _ => none

end AsyncCall

/-- How far `stopAndCancelCalls` has got. -/
inductive TeardownPc
  | idle
  | cancelling (outstanding : List UInt64)
  /-- In `deliver()` on one call, with the others to go. -/
  | delivering (id : UInt64) (outstanding : List UInt64)
  | finished
  deriving DecidableEq, Repr

structure State where
  st : CallState := {}
  /-- The call state has no owner left, and locking it fails. -/
  stateGone : Bool := false
  calls : UInt64 → AsyncCall := fun _ => {}
  teardown : TeardownPc := .idle

namespace State

def modify (s : State) (id : UInt64) (f : AsyncCall → AsyncCall) : State :=
  { s with calls := Function.update s.calls id (f (s.calls id)) }

@[simp] theorem calls_modify_self (s : State) (id : UInt64) (f : AsyncCall → AsyncCall) :
    (s.modify id f).calls id = f (s.calls id) := Function.update_self ..

theorem calls_modify_of_ne (s : State) {id id' : UInt64} (h : id' ≠ id)
    (f : AsyncCall → AsyncCall) : (s.modify id f).calls id' = s.calls id' :=
  Function.update_of_ne h ..

@[simp] theorem st_modify (s : State) (id : UInt64) (f : AsyncCall → AsyncCall) :
    (s.modify id f).st = s.st := rfl

@[simp] theorem teardown_modify (s : State) (id : UInt64) (f : AsyncCall → AsyncCall) :
    (s.modify id f).teardown = s.teardown := rfl

/-- The first critical section of `deliver()`. -/
def leaveRegistries (s : State) (id : UInt64) : State :=
  if s.stateGone then s else { s with st := s.st.leave id (s.calls id).callId }

@[simp] theorem calls_leaveRegistries (s : State) (id : UInt64) :
    (s.leaveRegistries id).calls = s.calls := by
  unfold leaveRegistries
  split_ifs <;> rfl

/-- The critical section of the reply handler: the completion may be there already. -/
def fileDeferred (s : State) (objectName : Bytes) (id : UInt64) (callId : QString) : State :=
  match s.st.takeCompletion callId with
  | some (buffered, st) =>
    { s with st := st }.modify id fun call =>
      { call with handler := .returned }.deliver .reply { value := buffered }
  | none =>
    if s.st.stopping then
      s.modify id fun call =>
        { call with handler := .returned }.deliver .reply
          { err := callErrorReleased objectName call.method }
    else
      { s with st := { s.st with deferred := s.st.deferred.insert callId id } }.modify id
        fun call => { call with callId := callId, handler := .filed }

end State

inductive Action
  /-- `callAsync` builds the call and posts the arm of its deadline. -/
  | callAsync (id : UInt64) (method : Bytes) (timeoutMs : Int)
  /-- The critical section of `callAsync`. -/
  | register (id : UInt64)
  | sendCallAsync (id : UInt64)
  /-- A reply, or the send itself on a stopped connection, takes the handler out. -/
  | answer (id : UInt64) (res : Reply)
  /-- `fail()` of the connection takes every handler out. -/
  | fail (reason : Bytes)
  /-- The handler up to its first look at shared state. -/
  | handleReply (id : UInt64)
  | loadDelivered (id : UInt64)
  /-- The critical section of the handler. -/
  | fileDeferred (id : UInt64)
  /-- The handler posts the arm of the second deadline. -/
  | rearm (id : UInt64)
  /-- The strand of a timer runs what was posted first. -/
  | runStrand (id : UInt64)
  /-- A pending wait expires. -/
  | expire (id : UInt64)
  /-- The completion handler, up to its call of `deliver()`. -/
  | completion (callId : QString) (value : QVariant)
  /-- The next step of a `deliver()`. -/
  | deliver (id : UInt64) (r : Resolver)
  /-- The critical section of `stopAndCancelCalls`. -/
  | stopAndCancelCalls
  /-- The next step of its loop. -/
  | cancelNext
  /-- A synchronous call begins, takes its completion, ends. -/
  | enterSync
  | awaitCompletion (callId : QString)
  | leaveSync
  /-- After teardown, the last owner of the call state lets go of it. -/
  | dropState

/-- The reply handler up to its load of `delivered`. -/
def AsyncCall.handleReply (objectName : Bytes) (stateGone : Bool) (call : AsyncCall)
    (res : Reply) : AsyncCall :=
  let returning := { call with handler := HandlerPc.returned }
  if !res.ok then
    returning.deliver .reply { err := callErrorFromWire objectName res.errCode res.err }
  else
    match isPendingCallSentinel res.value with
    | none => returning.deliver .reply { value := res.value }
    | some callId =>
      if stateGone then
        returning.deliver .reply { err := callErrorReleased objectName call.method }
      else { call with handler := .deferring callId }

/-- The strand of the timer runs its oldest task; not while a deadline it ran is still in
`deliver()`. -/
def AsyncCall.runStrand (objectName : Bytes) (call : AsyncCall) : Option AsyncCall :=
  match call.resolver .deadline, call.strand with
  | .idle, .arm reportMs :: rest => some { call with strand := rest, timer := some reportMs }
  | .idle, .cancel :: rest => some { call with strand := rest, timer := none }
  | .idle, .fire reportMs :: rest =>
    some ({ call with strand := rest }.deliver .deadline
      { err := callErrorTimeout objectName call.method reportMs })
  | _, _ => none

/-- What `callAsync` and the handler arm the second deadline with. -/
def effectiveMs (timeoutMs : Int) : Int :=
  if 0 < timeoutMs then timeoutMs else kDeferredFallbackMs

/-- One atomic step. -/
def next (objectName : Bytes) (s : State) : Action → Option State
  | .callAsync id method timeoutMs =>
    match (s.calls id).caller with
    | .idle =>
      some (s.modify id fun call =>
        { call with method := method, timeoutMs := timeoutMs, caller := .armed }.armTimer
          timeoutMs)
    | _ => none
  | .register id =>
    match (s.calls id).caller with
    | .armed =>
      if s.st.stopping then
        some (s.modify id fun call =>
          { call with caller := .refused }.deliver .caller
            { err := callErrorReleased objectName call.method })
      else
        some ({ s with st := s.st.emplaceInflight id }.modify id fun call =>
          { call with caller := .registered })
    | _ => none
  | .sendCallAsync id =>
    match (s.calls id).caller with
    | .registered =>
      some (s.modify id fun call => { call with caller := .returned, handler := .pending })
    | _ => none
  | .answer id res =>
    match (s.calls id).handler with
    | .pending => some (s.modify id fun call => { call with handler := .answered res })
    | _ => none
  | .fail reason => some { s with calls := fun id => (s.calls id).sweep reason }
  | .handleReply id =>
    match (s.calls id).handler with
    | .answered res => some (s.modify id fun call => call.handleReply objectName s.stateGone res)
    | _ => none
  | .loadDelivered id =>
    match (s.calls id).handler with
    | .deferring callId =>
      some (s.modify id fun call =>
        { call with handler := if call.delivered then .returned else .filing callId })
    | _ => none
  | .fileDeferred id =>
    match (s.calls id).handler with
    | .filing callId => some (s.fileDeferred objectName id callId)
    | _ => none
  | .rearm id =>
    match (s.calls id).handler with
    | .filed =>
      some (s.modify id fun call =>
        { call with handler := .returned }.armTimer (effectiveMs call.timeoutMs))
    | _ => none
  | .runStrand id =>
    ((s.calls id).runStrand objectName).map fun call => s.modify id fun _ => call
  | .expire id =>
    match (s.calls id).timer with
    | some reportMs =>
      some (s.modify id fun call =>
        { call with timer := none, strand := call.strand ++ [.fire reportMs] })
    | none => none
  | .completion callId value =>
    if s.stateGone then some s
    else
      match s.st.deferred.lookup callId with
      | none => some { s with st := s.st.parkCompletion callId value }
      | some id =>
        match (s.calls id).resolver .completion with
        | .idle =>
          some ({ s with st := { s.st with deferred := s.st.deferred.erase callId } }.modify id
            fun call => call.deliver .completion { value := value })
        | _ => none
  | .deliver id r =>
    match (s.calls id).resolver r with
    | .entered o =>
      some ((s.leaveRegistries id).modify id fun call => call.setResolver r (.left o))
    | pc => ((s.calls id).resolve r pc).map fun call => s.modify id fun _ => call
  | .stopAndCancelCalls =>
    -- release() and then the destructor, never two at a time.
    match s.teardown with
    | .idle => some { s with st := s.st.stop, teardown := .cancelling s.st.inflight }
    | .finished => some { s with st := s.st.stop, teardown := .cancelling s.st.inflight }
    | _ => none
  | .cancelNext =>
    match s.teardown with
    | .cancelling [] => some { s with teardown := .finished }
    | .cancelling (id :: outstanding) =>
      some ({ s with teardown := .delivering id outstanding }.modify id fun call =>
        call.deliver .teardown { err := callErrorReleased objectName call.method })
    | .delivering id outstanding =>
      match (s.calls id).resolver .teardown with
      | .idle => some { s with teardown := .cancelling outstanding }
      | _ => none
    | _ => none
  | .enterSync => some { s with st := s.st.enterSync }
  | .awaitCompletion callId =>
    match s.st.takeCompletion callId with
    | some (_, st) => some { s with st := st }
    | none => some s
  | .leaveSync => if 0 < s.st.syncOutstanding then some { s with st := s.st.leaveSync } else none
  | .dropState =>
    if s.teardown = .finished then some { s with stateGone := true } else none

/-- The handle, from the moment it is built. -/
def handle (objectName : Bytes) : TransitionSystem State Action :=
  TransitionSystem.ofNext {} (next objectName)

end Async

end LogosProtocol
