import LogosProtocol.Qt
import LogosProtocol.Wire.CallError
import LogosProtocol.Wire.RpcMessage

/-!
# The call state of a handle

What the asynchronous calls of one handle share: the two registries a call can be in, and
the staging area for completions that arrive before anyone waits for them.  Each function
here runs inside one critical section of `CallState::mu`.

## Main definitions

* `isPendingCallSentinel` — whether a reply says that the answer comes later.
* `CallState` — the registries and the parked completions.
-/

namespace LogosProtocol

/-! ## Values and errors -/

/-- What an answer holds: the types a wire value is turned into, and `QJsonObject`.  A map
has its entries in the order of their keys. -/
inductive QVariant
  | invalid
  | bool (b : Bool)
  | longLong (n : Int64)
  | uLongLong (n : UInt64)
  | double (d : Double)
  | string (s : QString)
  | byteArray (data : Bytes)
  | list (items : List QVariant)
  | map (entries : List (QString × QVariant))
  | jsonObject (entries : List (QString × QVariant))
  deriving Repr

def pendingCallKey : QString := qstr "__logos_pending_call__"

/-- The call id of a pending-call sentinel: the one entry of a map under the reserved key,
which holds a string that is not empty. -/
def isPendingCallSentinel : QVariant → Option QString
  | .map [(key, .string id)] => if key = pendingCallKey ∧ id ≠ [] then some id else none
  | .jsonObject [(key, .string id)] => if key = pendingCallKey ∧ id ≠ [] then some id else none
  | _ => none

theorem ne_nil_of_isPendingCallSentinel {v : QVariant} {callId : QString}
    (h : isPendingCallSentinel v = some callId) : callId ≠ [] := by
  unfold isPendingCallSentinel at h
  split at h
  · simp only [Option.ite_none_right_eq_some, Option.some.injEq] at h
    exact h.2 ▸ h.1.2
  · simp only [Option.ite_none_right_eq_some, Option.some.injEq] at h
    exact h.2 ▸ h.1.2
  · cases h

def callErrorReleased (objectName method : Bytes) : CallError :=
  callErrorTransport objectName
    (bstr "call to '" ++ objectName ++ bstr "." ++ method ++
      bstr "' was abandoned: the object was released while the call was in flight")

/-! ## The registries -/

def kParkedCompletionCap : ℕ := 512

/-- The wait given to a deferred call whose own timeout is not positive. -/
def kDeferredFallbackMs : Int := 30000

/-- A call is named by its wire id. -/
structure CallState where
  /-- Completions that arrived before anyone waited for them, and the order they came in. -/
  completions : Dict QString QVariant := ∅
  completionOrder : List QString := []
  /-- Synchronous calls that have not returned. -/
  syncOutstanding : ℕ := 0
  /-- The ids of the calls in flight, ascending. -/
  inflight : List UInt64 := []
  /-- Deferred calls by the provider's call id. -/
  deferred : Dict QString UInt64 := ∅
  stopping : Bool := false

namespace CallState

/-- Some call of this handle could still claim a completion. -/
def busy (st : CallState) : Bool :=
  0 < st.syncOutstanding || !st.inflight.isEmpty || !st.deferred.entries.isEmpty

/-- Evict the oldest completions while there are more than the cap allows. -/
def evict (completions : Dict QString QVariant) :
    List QString → Dict QString QVariant × List QString
  | [] => (completions, [])
  | oldest :: order =>
    if kParkedCompletionCap < (oldest :: order).length then
      evict (completions.erase oldest) order
    else (completions, oldest :: order)

def parkCompletion (st : CallState) (callId : QString) (value : QVariant) : CallState :=
  if !st.busy then st
  else if callId ∈ st.completions then
    { st with completions := st.completions.insert callId value }
  else
    let kept := evict (st.completions.insert callId value) (st.completionOrder ++ [callId])
    { st with completions := kept.1, completionOrder := kept.2 }

/-- The completion parked under a call id, if there is one, and the state without it. -/
def takeCompletion (st : CallState) (callId : QString) : Option (QVariant × CallState) :=
  match st.completions.lookup callId with
  | none => none
  | some value =>
    some (value, { st with
      completions := st.completions.erase callId
      completionOrder := st.completionOrder.erase callId })

def dropUnclaimedIfIdle (st : CallState) : CallState :=
  if st.busy then st else { st with completions := ∅, completionOrder := [] }

def emplaceInflight (st : CallState) (id : UInt64) : CallState :=
  { st with inflight := st.inflight.orderedInsert (· ≤ ·) id }

/-- What `deliver()` does first: the call leaves both registries, before the gate. -/
def leave (st : CallState) (id : UInt64) (callId : QString) : CallState :=
  let st := { st with inflight := st.inflight.filter (· ≠ id) }
  let st := if callId ≠ [] then { st with deferred := st.deferred.erase callId } else st
  st.dropUnclaimedIfIdle

/-- What teardown does first: nothing is registered any more. -/
def stop (st : CallState) : CallState :=
  { st with
    stopping := true, inflight := [], deferred := ∅, completions := ∅, completionOrder := [] }

/-- The constructor and the destructor of `SyncCallScope`. -/
def enterSync (st : CallState) : CallState := { st with syncOutstanding := st.syncOutstanding + 1 }

def leaveSync (st : CallState) : CallState :=
  { st with syncOutstanding := st.syncOutstanding - 1 }.dropUnclaimedIfIdle

/-! Parking and dropping completions leave the registries alone. -/

section registries
variable (st : CallState)

@[simp] theorem inflight_dropUnclaimedIfIdle : st.dropUnclaimedIfIdle.inflight = st.inflight := by
  unfold dropUnclaimedIfIdle; split <;> rfl

@[simp] theorem deferred_dropUnclaimedIfIdle : st.dropUnclaimedIfIdle.deferred = st.deferred := by
  unfold dropUnclaimedIfIdle; split <;> rfl

@[simp] theorem stopping_dropUnclaimedIfIdle : st.dropUnclaimedIfIdle.stopping = st.stopping := by
  unfold dropUnclaimedIfIdle; split <;> rfl

@[simp] theorem inflight_parkCompletion (callId : QString) (value : QVariant) :
    (st.parkCompletion callId value).inflight = st.inflight := by
  unfold parkCompletion; split_ifs <;> rfl

@[simp] theorem deferred_parkCompletion (callId : QString) (value : QVariant) :
    (st.parkCompletion callId value).deferred = st.deferred := by
  unfold parkCompletion; split_ifs <;> rfl

@[simp] theorem stopping_parkCompletion (callId : QString) (value : QVariant) :
    (st.parkCompletion callId value).stopping = st.stopping := by
  unfold parkCompletion; split_ifs <;> rfl

/-- What taking a completion leaves of the registries. -/
theorem registries_of_takeCompletion {st st' : CallState} {callId : QString} {value : QVariant}
    (h : st.takeCompletion callId = some (value, st')) :
    st'.inflight = st.inflight ∧ st'.deferred = st.deferred ∧ st'.stopping = st.stopping := by
  unfold takeCompletion at h
  split at h
  · cases h
  · simp only [Option.some.injEq, Prod.mk.injEq] at h
    obtain ⟨-, rfl⟩ := h
    exact ⟨rfl, rfl, rfl⟩

theorem mem_inflight_emplaceInflight (id id' : UInt64) :
    id' ∈ (st.emplaceInflight id).inflight ↔ id' = id ∨ id' ∈ st.inflight :=
  List.mem_orderedInsert ..

theorem mem_inflight_leave (id id' : UInt64) (callId : QString) :
    id' ∈ (st.leave id callId).inflight ↔ id' ∈ st.inflight ∧ id' ≠ id := by
  unfold leave
  simp only [inflight_dropUnclaimedIfIdle]
  split_ifs <;> simp

/-- Who is still deferred when a call has left was deferred, and under another call id. -/
theorem lookup_deferred_leave {id id' : UInt64} {callId key : QString}
    (h : (st.leave id callId).deferred.lookup key = some id') :
    st.deferred.lookup key = some id' ∧ (callId ≠ [] → key ≠ callId) := by
  unfold leave at h
  simp only [deferred_dropUnclaimedIfIdle] at h
  split_ifs at h with hne
  · by_cases hkey : key = callId
    · subst hkey
      simp at h
    · rw [AList.lookup_erase_ne hkey] at h
      exact ⟨h, fun _ => hkey⟩
  · exact ⟨h, fun hcontra => absurd hcontra hne⟩

@[simp] theorem stopping_leave (id : UInt64) (callId : QString) :
    (st.leave id callId).stopping = st.stopping := by
  unfold leave
  simp only [stopping_dropUnclaimedIfIdle]
  split_ifs <;> rfl

end registries

end CallState

end LogosProtocol
