import LogosProtocol.Qt.DeferredCalls

/-!
# The handle of the remote transport

`RemoteLogosObject` wraps a replica.  It hears the events of the replica through a helper, and the
helper that its constructor makes has the completion sink installed.  The replica is there until
the handle is released.

Everything runs on the event loop of the consumer, so each piece of code between two returns to
a loop is one step.  A nested loop may return at any step: its timer may have expired, or the
sink has told it to quit.

## Main definitions

* `Helper`, `State` — the handle.
* `Action`, `next`, `handle` — what may happen on the event loop.
-/

namespace LogosProtocol

namespace Qt

open Async

namespace RemoteObject

/-- A `RemoteEventHelper` that is connected to the replica. -/
structure Helper where
  id : ℕ
  /-- The completion sink is among its callbacks. -/
  sink : Bool
  deriving DecidableEq, Repr

/-- The state that the constructor leaves. -/
structure State where
  helper : Option Helper := some ⟨0, true⟩
  /-- How many helpers there have been. -/
  made : ℕ := 1
  completions : QHash QString QVariant := ∅
  /-- The synchronous calls whose nested loop waits for a completion. -/
  completionWaiters : QHash QString ℕ := ∅
  /-- The asynchronous calls whose callback waits for a completion. -/
  asyncCompletionCbs : QHash QString ℕ := ∅
  calls : ℕ → Call := fun _ => {}

def State.setPc (s : State) (n : ℕ) (pc : CallPc) : State :=
  { s with calls := Qt.setPc s.calls n pc }

/-- The completion sink.  It tells a nested loop to quit, which then returns in a step of its
own. -/
def State.complete (s : State) (helper : ℕ) (id : QString) (result : QVariant) : State :=
  let s := { s with completions := s.completions.insert id result }
  match s.asyncCompletionCbs.lookup id with
  | some n =>
    { s with
      asyncCompletionCbs := s.asyncCompletionCbs.erase id
      completions := s.completions.erase id }.setPc n (.queued { value := result } helper)
  | none => s

/-- What a call is reported with that the replica does not accept. -/
def callErrorRefused (origin method : Bytes) : CallError :=
  callErrorCallFailed origin
    (bstr "replica did not accept callRemoteMethod for '" ++ method ++ bstr "'")

/-- What a call is reported with that QtRO fails. -/
def callErrorFailed (origin method : Bytes) (code : Int) : CallError :=
  callErrorTransport origin (bstr "QtRO call to '" ++ origin ++ bstr "." ++ method ++
    bstr "' failed with error " ++ bstr (toString code))

/-- The wait of a synchronous call for its completion is bounded in any case. -/
def deferredMs (timeoutMs : Int) : Int := if 0 < timeoutMs then timeoutMs else 30000

/-- `resolveDeferred` up to its nested loop. -/
def State.resolveDeferred (s : State) (n : ℕ) (rv : QVariant) : State :=
  match isPendingCallSentinel rv with
  | none => s.setPc n (.resolved { value := rv })
  | some callId =>
    match s.completions.lookup callId with
    | some value =>
      { s with completions := s.completions.erase callId }.setPc n (.resolved { value := value })
    | none =>
      { s with completionWaiters := s.completionWaiters.insert callId n }.setPc n (.waiting callId)

/-- `resolveDeferred` after its nested loop. -/
def State.resumeDeferred (s : State) (origin : Bytes) (n : ℕ) (callId : QString) : State :=
  let s := { s with completionWaiters := s.completionWaiters.erase callId }
  match s.completions.lookup callId with
  | some value =>
    { s with completions := s.completions.erase callId }.setPc n (.resolved { value := value })
  | none =>
    s.setPc n (.resolved
      { err := callErrorTimeout origin (s.calls n).method (deferredMs (s.calls n).timeoutMs) })

/-- The finished handler of an asynchronous call, on a value. -/
def State.handleFinished (s : State) (n : ℕ) (result : QVariant) : State :=
  match isPendingCallSentinel result with
  | none => s.setPc n (.resolved { value := result })
  | some callId =>
    match s.completions.lookup callId with
    | some value =>
      { s with completions := s.completions.erase callId }.setPc n (.resolved { value := value })
    | none =>
      { s with
        asyncCompletionCbs := s.asyncCompletionCbs.insert callId n
        calls := Function.update s.calls n { s.calls n with
          pc := .waiting callId
          timer := some (callId, s.helper.map Helper.id) } }

/-- The deadline of an asynchronous call that waits for its completion: it takes whatever callback
is there under the call id. -/
def State.expireDeferred (s : State) (origin : Bytes) (n : ℕ) (callId : QString) : State :=
  let err := callErrorTimeout origin (s.calls n).method (s.calls n).timeoutMs
  let s := { s with calls := Function.update s.calls n { s.calls n with timer := none } }
  match s.asyncCompletionCbs.lookup callId with
  | some m =>
    { s with asyncCompletionCbs := s.asyncCompletionCbs.erase callId }.setPc m
      (.resolved { err := err })
  | none => s

inductive Action
  /-- A call is made, and the replica accepts it or does not. -/
  | call (n : ℕ) (async : Bool) (method : Bytes) (timeoutMs : Int) (accepted : Bool)
  | reply (n : ℕ) (answer : Answer)
  /-- The first deadline: `waitForFinished` gives up, or the timer of the watcher fires. -/
  | timeout (n : ℕ)
  /-- A synchronous call is out of `waitForFinished`, or the finished handler runs. -/
  | handle (n : ℕ)
  /-- A nested loop returns. -/
  | wake (n : ℕ)
  /-- The deadline that the finished handler set. -/
  | expire (n : ℕ)
  /-- What the sink posted. -/
  | deliver (n : ℕ)
  /-- The replica emits a completion event. -/
  | eventResponse (id : QString) (result : QVariant)
  | onEvent
  | disconnectEvents
  /-- The event loop deletes a helper that is no longer connected. -/
  | deleteHelper (helper : ℕ)

def next (origin : Bytes) (s : State) : Action → Option State
  | .call n async method timeoutMs accepted =>
    match (s.calls n).pc with
    | .idle =>
      let pc := if accepted then .sent else .resolved { err := callErrorRefused origin method }
      some { s with calls := Function.update s.calls n {
        async := async, method := method, timeoutMs := timeoutMs, pc := pc } }
    | _ => none
  | .reply n answer =>
    match (s.calls n).pc with
    | .sent => some (s.setPc n (.finished answer))
    | _ => none
  | .timeout n =>
    let expired := s.setPc n (.resolved
      { err := callErrorTimeout origin (s.calls n).method (s.calls n).timeoutMs })
    match (s.calls n).pc with
    | .sent => some expired
    -- The handler is queued, and finds the call delivered.
    | .finished _ => if (s.calls n).async then some expired else none
    | _ => none
  | .handle n =>
    match (s.calls n).pc with
    | .finished (.error code) =>
      some (s.setPc n (.resolved { err := callErrorFailed origin (s.calls n).method code }))
    | .finished (.value v) =>
      some (if (s.calls n).async then s.handleFinished n v else s.resolveDeferred n v)
    | _ => none
  | .wake n =>
    match (s.calls n).pc with
    | .waiting callId =>
      if (s.calls n).async then none else some (s.resumeDeferred origin n callId)
    | _ => none
  | .expire n =>
    match (s.calls n).timer with
    | some (callId, _) => some (s.expireDeferred origin n callId)
    | none => none
  | .deliver n =>
    match (s.calls n).pc with
    | .queued o _ => some (s.setPc n (.resolved o))
    | _ => none
  | .eventResponse id result =>
    match s.helper with
    | some helper => some (if helper.sink then s.complete helper.id id result else s)
    | none => some s
  | .onEvent =>
    match s.helper with
    | some _ => some s
    -- A new helper, and nothing but the subscription is added to it.
    | none => some { s with helper := some ⟨s.made, false⟩, made := s.made + 1 }
  | .disconnectEvents => some { s with helper := none }
  | .deleteHelper helper =>
    match s.helper with
    | some ⟨id, _⟩ =>
      if id = helper then none else some { s with calls := fun n => (s.calls n).drop helper }
    | none => some { s with calls := fun n => (s.calls n).drop helper }

/-- The handle, from the moment it is built. -/
def handle (origin : Bytes) : TransitionSystem State Action := .ofNext {} (next origin)

end RemoteObject

end Qt

end LogosProtocol
