import LogosProtocol.Lib.History
import LogosProtocol.Lib.Obligations
import LogosProtocol.Lib.TransitionSystem
import LogosProtocol.Qt.LocalObject

/-!
# Callbacks on the local transport

The asynchronous calls of a `LocalLogosObject`, seen from the event loop: what is posted to it
and with which object as its context, which methods the provider is in, and who waits in the
completion ledger.  A deleted context takes what was posted with it along.  The history says
when a call was made and returned, and when its callback was invoked.

## Main definitions

* `State` — a handle, its ledger and the event loop it lives on.
* `Action`, `next`, `handle` — what may happen.
-/

namespace LogosProtocol

namespace Qt

open Async

namespace LocalCallbacks

open LocalObject (proxyGoneError deferredBudget)

/-! ## The handle and its event loop -/

/-- What the dispatch of a call captures. -/
structure Request where
  call : ℕ
  method : Bytes
  timeoutMs : Int
  /-- The helper of the handle when the call was made. -/
  helper : ℕ

inductive Work
  /-- The proxy was gone when the call was made. -/
  | gone (call : ℕ)
  | dispatch (r : Request)
  /-- What the completion sink posts. -/
  | deliver (call : ℕ) (result : QVariant)
  /-- The bound on the wait for a completion. -/
  | deadline (r : Request) (callId : QString)

/-- A function on the event loop, with the helper that is its context. -/
structure Posted where
  context : Option ℕ
  work : Work

inductive Event
  | called (call : ℕ)
  | returned (call : ℕ)
  | invoked (call : ℕ) (o : Outcome)

/-- A handle; `values` and `asyncWaiters` are its completion ledger. -/
structure State where
  /-- The module is registered. -/
  proxy : Bool := true
  helper : Option ℕ := some 0
  /-- The helpers that have not been deleted. -/
  helpers : List ℕ := [0]
  /-- How many helpers there have been. -/
  made : ℕ := 1
  values : QHash QString QVariant := ∅
  /-- The call whose callback waits for a completion. -/
  asyncWaiters : QHash QString ℕ := ∅
  posted : List Posted := []
  /-- The dispatches that the provider has not returned from. -/
  running : List Request := []
  /-- How many calls there have been. -/
  calls : ℕ := 0
  log : List Event := []

namespace State

/-- `QTimer::singleShot`; nothing is posted with a context that has been deleted. -/
def post (s : State) (context : Option ℕ) (work : Work) : State :=
  match context with
  | none => { s with posted := s.posted ++ [⟨none, work⟩] }
  | some h => if h ∈ s.helpers then { s with posted := s.posted ++ [⟨some h, work⟩] } else s

def record (s : State) (e : Event) : State := { s with log := s.log ++ [e] }

def invoke (s : State) (call : ℕ) (o : Outcome) : State := s.record (.invoked call o)

/-- The event channel, with the completion sink on it. -/
def ensureCompletionChannel (s : State) : State :=
  match s.helper, s.proxy with
  | none, true =>
    { s with helper := some s.made, helpers := s.made :: s.helpers, made := s.made + 1 }
  | _, _ => s

/-- The dispatch of a call, with the helper of the handle as its context.  There is one as long
as there is a proxy. -/
def postDispatch (s : State) (call : ℕ) (method : Bytes) (timeoutMs : Int) : State :=
  let helper := s.helper.getD 0
  s.post (some helper) (.dispatch ⟨call, method, timeoutMs, helper⟩)

def callMethodAsyncWithError (s : State) (method : Bytes) (timeoutMs : Int) : State :=
  let n := s.calls
  let s := { s with calls := n + 1 }.record (.called n)
  (if s.proxy then s.ensureCompletionChannel.postDispatch n method timeoutMs
    else s.post none (.gone n)).record (.returned n)

/-- The rest of a dispatch, with what the provider has returned. -/
def handleResult (s : State) (r : Request) (result : QVariant) : State :=
  match isPendingCallSentinel result with
  | none => s.invoke r.call { value := result }
  | some callId =>
    match s.values.lookup callId with
    | some landed => { s with values := s.values.erase callId }.invoke r.call { value := landed }
    | none =>
      { s with asyncWaiters := s.asyncWaiters.insert callId r.call }.post (some r.helper)
        (.deadline r callId)

/-- What is posted is run. -/
def perform (origin : Bytes) (s : State) : Work → State
  | .gone n => s.invoke n { err := proxyGoneError origin }
  | .dispatch r =>
    if s.proxy then { s with running := s.running ++ [r] }
    else s.invoke r.call { err := proxyGoneError origin }
  | .deliver n result => s.invoke n { value := result }
  | .deadline r callId =>
    match s.asyncWaiters.lookup callId with
    | some n => { s with asyncWaiters := s.asyncWaiters.erase callId }.invoke n
        { err := callErrorTimeout origin r.method (deferredBudget r.timeoutMs) }
    | none => s

/-- The completion sink of a helper. -/
def complete (s : State) (helper : ℕ) (id : QString) (result : QVariant) : State :=
  match s.asyncWaiters.lookup id with
  | some n =>
    { s with asyncWaiters := s.asyncWaiters.erase id }.post (some helper) (.deliver n result)
  | none => { s with values := s.values.insert id result }

/-- The channel goes, and with it every callback that waits on it. -/
def disconnectEvents (s : State) : State :=
  match s.helper with
  | none => s
  | some _ => { s with helper := none, asyncWaiters := ∅ }

/-- The event loop deletes a helper, and drops what was posted with it. -/
def deleteHelper (s : State) (helper : ℕ) : State :=
  { s with
    helpers := s.helpers.filter fun h => h ≠ helper
    posted := s.posted.filter fun p => p.context ≠ some helper }

end State

/-! ## What may happen -/

inductive Action
  | callMethodAsyncWithError (method : Bytes) (timeoutMs : Int)
  /-- The event loop runs what is posted: a hop in its turn, a deadline in its time. -/
  | run (i : ℕ)
  /-- The provider returns from a method. -/
  | reply (i : ℕ) (result : QVariant)
  /-- The proxy emits a completion event. -/
  | eventResponse (id : QString) (result : QVariant)
  | onEvent
  /-- Also `release()` and the destructor. -/
  | disconnectEvents
  | deleteHelper (helper : ℕ)
  /-- The module is unloaded, and its proxy destroyed. -/
  | unload

def next (origin : Bytes) (s : State) : Action → Option State
  | .callMethodAsyncWithError method timeoutMs =>
    some (s.callMethodAsyncWithError method timeoutMs)
  | .run i =>
    match s.posted[i]? with
    | some p => some ({ s with posted := s.posted.eraseIdx i }.perform origin p.work)
    | none => none
  | .reply i result =>
    match s.running[i]? with
    | some r => some ({ s with running := s.running.eraseIdx i }.handleResult r result)
    | none => none
  | .eventResponse id result =>
    match s.helper with
    | some helper => some (if s.proxy then s.complete helper id result else s)
    | none => some s
  | .onEvent => some (if s.proxy then s.ensureCompletionChannel else s)
  | .disconnectEvents => some s.disconnectEvents
  | .deleteHelper helper =>
    if s.helper = some helper ∨ helper ∉ s.helpers then none else some (s.deleteHelper helper)
  | .unload => some { s with proxy := false }

/-- The handle, from the moment it is built. -/
def handle (origin : Bytes) : TransitionSystem State Action := .ofNext {} (next origin)

end LocalCallbacks

end Qt

end LogosProtocol
