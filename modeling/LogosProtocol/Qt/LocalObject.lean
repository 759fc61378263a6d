import LogosProtocol.Qt.DeferredCalls

/-!
# The handle of the local transport

`LocalLogosObject` calls a `ModuleProxy` in its own process.  Every entry point that can make or
hear a completion brings the event channel up first, and the channel always has the completion sink.

## Main definitions

* `State` — the handle with its completion ledger.
* `ensureCompletionChannel` — a helper with the sink on it.
* `Action`, `next`, `handle` — what may happen on the event loop.
-/

namespace LogosProtocol

namespace Qt

open Async

namespace LocalObject

/-- A handle; `values`, `syncWaiters` and `asyncWaiters` are its completion ledger. -/
structure State where
  /-- The module is registered. -/
  proxy : Bool := true
  helper : Option ℕ := some 0
  /-- How many helpers there have been. -/
  made : ℕ := 1
  values : QHash QString QVariant := ∅
  syncWaiters : QHash QString ℕ := ∅
  asyncWaiters : QHash QString ℕ := ∅
  calls : ℕ → Call := fun _ => {}

def State.setPc (s : State) (n : ℕ) (pc : CallPc) : State :=
  { s with calls := Qt.setPc s.calls n pc }

/-- The event channel, with the completion sink on it. -/
def State.ensureCompletionChannel (s : State) : State :=
  match s.helper, s.proxy with
  | none, true => { s with helper := some s.made, made := s.made + 1 }
  | _, _ => s

/-- The completion sink.  It tells a nested loop to quit, which then returns in a step of its
own. -/
def State.complete (s : State) (helper : ℕ) (id : QString) (result : QVariant) : State :=
  match s.asyncWaiters.lookup id with
  | some n =>
    { s with asyncWaiters := s.asyncWaiters.erase id }.setPc n (.queued { value := result } helper)
  | none => { s with values := s.values.insert id result }

/-- The completion, if it has landed, consuming it. -/
def State.takeLanded (s : State) (id : QString) : Option (QVariant × State) :=
  match s.values.lookup id with
  | none => none
  | some landed => some (landed, { s with values := s.values.erase id })

def proxyGoneError (origin : Bytes) : CallError :=
  callErrorObjectUnavailable origin
    (bstr "module '" ++ origin ++ bstr "' is no longer registered locally")

def kDefaultDeferredBudgetMs : Int := 30000

def deferredBudget (timeoutMs : Int) : Int :=
  if 0 < timeoutMs then timeoutMs else kDefaultDeferredBudgetMs

/-- `resolveDeferred` up to its nested loop. -/
def State.resolveDeferred (s : State) (n : ℕ) (rv : QVariant) : State :=
  match isPendingCallSentinel rv with
  | none => s.setPc n (.resolved { value := rv })
  | some callId =>
    match s.takeLanded callId with
    | some (landed, s) => s.setPc n (.resolved { value := landed })
    | none => { s with syncWaiters := s.syncWaiters.insert callId n }.setPc n (.waiting callId)

/-- `resolveDeferred` after its nested loop. -/
def State.resumeDeferred (s : State) (origin : Bytes) (n : ℕ) (callId : QString) : State :=
  let s := { s with syncWaiters := s.syncWaiters.erase callId }
  match s.takeLanded callId with
  | some (landed, s) => s.setPc n (.resolved { value := landed })
  | none =>
    s.setPc n (.resolved
      { err := callErrorTimeout origin (s.calls n).method (deferredBudget (s.calls n).timeoutMs) })

/-- The rest of the dispatch of an asynchronous call. -/
def State.handleResult (s : State) (n : ℕ) (result : QVariant) : State :=
  match isPendingCallSentinel result with
  | none => s.setPc n (.resolved { value := result })
  | some callId =>
    match s.takeLanded callId with
    | some (landed, s) => s.setPc n (.resolved { value := landed })
    | none =>
      { s with
        asyncWaiters := s.asyncWaiters.insert callId n
        calls := Function.update s.calls n { s.calls n with
          pc := .waiting callId
          timer := some (callId, (s.calls n).helper) } }

/-- The deadline of an asynchronous call that waits for its completion: it takes whatever callback
is there under the call id. -/
def State.expireDeferred (s : State) (origin : Bytes) (n : ℕ) (callId : QString) : State :=
  let err := callErrorTimeout origin (s.calls n).method (deferredBudget (s.calls n).timeoutMs)
  let s := { s with calls := Function.update s.calls n { s.calls n with timer := none } }
  match s.asyncWaiters.lookup callId with
  | some m =>
    { s with asyncWaiters := s.asyncWaiters.erase callId }.setPc m (.resolved { err := err })
  | none => s

/-- The channel goes, and with it every callback that waits on it. -/
def State.disconnectEvents (s : State) : State :=
  match s.helper with
  | none => s
  | some _ =>
    { s with
      helper := none
      asyncWaiters := ∅
      calls := fun n =>
        match (s.calls n).pc with
        | .waiting callId =>
          if s.asyncWaiters.lookup callId = some n then { s.calls n with pc := .dropped }
          else s.calls n
        | _ => s.calls n }

inductive Action
  | call (n : ℕ) (async : Bool) (method : Bytes) (timeoutMs : Int)
  /-- The posted dispatch of an asynchronous call, up to the provider. -/
  | dispatch (n : ℕ)
  | reply (n : ℕ) (v : QVariant)
  /-- What is done with the result. -/
  | handle (n : ℕ)
  /-- A nested loop returns. -/
  | wake (n : ℕ)
  | expire (n : ℕ)
  /-- What the sink posted. -/
  | deliver (n : ℕ)
  /-- The proxy emits a completion event. -/
  | eventResponse (id : QString) (result : QVariant)
  | onEvent
  /-- Also `release()` and the destructor. -/
  | disconnectEvents
  /-- The event loop deletes a helper that is no longer connected. -/
  | deleteHelper (helper : ℕ)
  /-- The module is unloaded, and its proxy destroyed. -/
  | unload

def next (origin : Bytes) (s : State) : Action → Option State
  | .call n async method timeoutMs =>
    match (s.calls n).pc with
    | .idle =>
      let s := s.ensureCompletionChannel
      let pc : CallPc := match s.proxy, async, s.helper with
        | false, _, _ => .resolved { err := proxyGoneError origin }
        | true, false, _ => .sent
        | true, true, some helper => .posted helper
        -- There is a channel as long as there is a proxy.
        | true, true, none => .dropped
      some { s with calls := Function.update s.calls n {
        async := async, method := method, timeoutMs := timeoutMs, helper := s.helper, pc := pc } }
    | _ => none
  | .dispatch n =>
    match (s.calls n).pc with
    | .posted _ =>
      some (s.setPc n (if s.proxy then .sent else .resolved { err := proxyGoneError origin }))
    | _ => none
  | .reply n v =>
    match (s.calls n).pc with
    | .sent => some (s.setPc n (.finished (.value v)))
    | _ => none
  | .handle n =>
    match (s.calls n).pc with
    | .finished (.value v) =>
      some (if (s.calls n).async then s.handleResult n v else s.resolveDeferred n v)
    | _ => none
  | .wake n =>
    match (s.calls n).pc with
    | .waiting callId =>
      if (s.calls n).async then none else some (s.resumeDeferred origin n callId)
    | _ => none
  | .expire n =>
    match (s.calls n).timer with
    | some (callId, _) => some (s.expireDeferred origin n callId)
    | none => none
  | .deliver n =>
    match (s.calls n).pc with
    | .queued o _ => some (s.setPc n (.resolved o))
    | _ => none
  | .eventResponse id result =>
    match s.helper with
    | some helper => some (if s.proxy then s.complete helper id result else s)
    | none => some s
  | .onEvent => some (if s.proxy then s.ensureCompletionChannel else s)
  | .disconnectEvents => some s.disconnectEvents
  | .deleteHelper helper =>
    if s.helper = some helper then none
    else some { s with calls := fun n => (s.calls n).drop helper }
  | .unload => some { s with proxy := false }

/-- The handle, from the moment it is built. -/
def handle (origin : Bytes) : TransitionSystem State Action := .ofNext {} (next origin)

end LocalObject

end Qt

end LogosProtocol
