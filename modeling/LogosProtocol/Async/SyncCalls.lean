import LogosProtocol.Async.Parking
import LogosProtocol.Lib.Tally

/-!
# Synchronous calls beside the asynchronous ones

A synchronous call is counted while it is outstanding, waits for its reply, and when that is a
sentinel for its completion.  It shares the call state of the handle with the asynchronous calls;
each of its critical sections is one step of theirs.

## Main definitions

* `SyncCall`, `Calls`, `calls` — the handle with its synchronous calls.
* `effect` — what a step does to the call state.
* `Calls.stateAction` — the step of the call state behind a step of the handle.
-/

namespace LogosProtocol

namespace Async

/-! ## Synchronous calls -/

/-- How far `callSync` has got with a call. -/
inductive SyncPc
  | idle
  /-- Counted as outstanding and sent; the reply is not there. -/
  | waiting
  /-- The reply was a sentinel: in `awaitCompletion`. -/
  | awaiting (callId : QString)
  /-- It has what it returns, and is still counted. -/
  | leaving (o : Outcome)
  | returned (o : Outcome)

structure SyncCall where
  method : Bytes := []
  timeoutMs : Int := 0
  pc : SyncPc := .idle

/-- A handle with its asynchronous and its synchronous calls. -/
structure Calls where
  state : State := {}
  sync : ℕ → SyncCall := fun _ => {}

inductive CallsAction
  | async (a : Action)
  | callSync (n : ℕ) (method : Bytes) (timeoutMs : Int)
  /-- The reply has not come in time. -/
  | syncTimeout (n : ℕ)
  | syncReply (n : ℕ) (res : Reply)
  /-- The wait of `awaitCompletion` is over: it was notified, or its deadline has passed. -/
  | wake (n : ℕ)
  /-- The scope of the call ends. -/
  | returnSync (n : ℕ)

/-- The steps that a synchronous call takes for itself. -/
def Action.isSync : Action → Bool
  | .enterSync | .awaitCompletion _ | .leaveSync => true
  | _ => false

def Calls.setSync (c : Calls) (n : ℕ) (pc : SyncPc) : Calls :=
  { c with sync := Function.update c.sync n { c.sync n with pc := pc } }

@[simp] theorem Calls.pc_setSync_self (c : Calls) (n : ℕ) (pc : SyncPc) :
    ((c.setSync n pc).sync n).pc = pc := by
  simp [Calls.setSync]

theorem Calls.sync_setSync_of_ne (c : Calls) {n m : ℕ} (h : m ≠ n) (pc : SyncPc) :
    (c.setSync n pc).sync m = c.sync m := Function.update_of_ne h ..

/-- What a reply makes of a synchronous call. -/
def syncResult (objectName : Bytes) (res : Reply) : SyncPc :=
  if !res.ok then .leaving { err := callErrorFromWire objectName res.errCode res.err }
  else
    match isPendingCallSentinel res.value with
    | some callId => .awaiting callId
    | none => .leaving { value := res.value }

/-- The critical section of `awaitCompletion` after its wait. -/
def Calls.awaitCompletion (objectName : Bytes) (c : Calls) (n : ℕ) (callId : QString) : Calls :=
  match c.state.st.takeCompletion callId with
  | some (value, st) =>
    { c with state := { c.state with st := st } }.setSync n (.leaving { value := value })
  | none =>
    if c.state.st.stopping then
      c.setSync n (.leaving { err := callErrorReleased objectName (c.sync n).method })
    else
      c.setSync n (.leaving
        { err := callErrorTimeout objectName (c.sync n).method (effectiveMs (c.sync n).timeoutMs) })

def Calls.next (objectName : Bytes) (c : Calls) : CallsAction → Option Calls
  | .async a =>
    if a.isSync then none else (Async.next objectName c.state a).map fun s => { c with state := s }
  | .callSync n method timeoutMs =>
    match (c.sync n).pc with
    | .idle => some {
        state := { c.state with st := c.state.st.enterSync }
        sync := Function.update c.sync n ⟨method, timeoutMs, .waiting⟩ }
    | _ => none
  | .syncTimeout n =>
    match (c.sync n).pc with
    | .waiting => some (c.setSync n
        (.leaving { err := callErrorTimeout objectName (c.sync n).method (c.sync n).timeoutMs }))
    | _ => none
  | .syncReply n res =>
    match (c.sync n).pc with
    | .waiting => some (c.setSync n (syncResult objectName res))
    | _ => none
  | .wake n =>
    match (c.sync n).pc with
    | .awaiting callId => some (c.awaitCompletion objectName n callId)
    | _ => none
  | .returnSync n =>
    match (c.sync n).pc with
    | .leaving o =>
      some ({ c with state := { c.state with st := c.state.st.leaveSync } }.setSync n (.returned o))
    | _ => none

def calls (objectName : Bytes) : TransitionSystem Calls CallsAction :=
  .ofNext {} (Calls.next objectName)
/-! ## What a step does to the call state -/

/-- The call state after a step. -/
def effect (s : State) : Action → CallState
  | .register id => if s.st.stopping then s.st else s.st.emplaceInflight id
  | .fileDeferred id =>
    match (s.calls id).handler with
    | .filing callId =>
      match s.st.takeCompletion callId with
      | some (_, st) => st
      | none =>
        if s.st.stopping then s.st
        else { s.st with deferred := s.st.deferred.insert callId id }
    | _ => s.st
  | .completion callId value =>
    if s.stateGone then s.st
    else
      match s.st.deferred.lookup callId with
      | none => s.st.parkCompletion callId value
      | some _ => { s.st with deferred := s.st.deferred.erase callId }
  | .deliver id r =>
    match (s.calls id).resolver r with
    | .entered _ => (s.leaveRegistries id).st
    | _ => s.st
  | .stopAndCancelCalls => s.st.stop
  | .enterSync => s.st.enterSync
  | .awaitCompletion callId =>
    match s.st.takeCompletion callId with
    | some (_, st) => st
    | none => s.st
  | .leaveSync => s.st.leaveSync
  | _ => s.st

section effects
variable {obj : Bytes} {s s' : State} {a : Action}

theorem syncOutstanding_leaveRegistries (s : State) (id : UInt64) :
    (s.leaveRegistries id).st.syncOutstanding = s.st.syncOutstanding := by
  unfold State.leaveRegistries
  split_ifs
  · rfl
  · simp only [CallState.leave, CallState.syncOutstanding_dropUnclaimedIfIdle]
    split_ifs <;> rfl

theorem st_next (h : next obj s a = some s') : s'.st = effect s a := by
  cases a with
  | callAsync id method timeoutMs =>
    simp only [next] at h
    split at h <;> cases h
    rfl
  | register id =>
    simp only [next] at h
    split at h
    · split at h <;> rename_i hstopping <;> cases h <;> simp [effect, hstopping]
    · cases h
  | fileDeferred id =>
    simp only [next] at h
    split at h
    · rename_i callId hfiling
      cases h
      simp only [State.fileDeferred, effect, hfiling]
      cases s.st.takeCompletion callId with
      | some taken => rfl
      | none =>
        dsimp only
        split_ifs <;> rfl
    · cases h
  | completion callId value =>
    simp only [next] at h
    by_cases hgone : s.stateGone = true
    · rw [if_pos hgone] at h
      cases h
      simp [effect, hgone]
    · rw [if_neg hgone] at h
      cases hlookup : s.st.deferred.lookup callId with
      | none =>
        simp only [hlookup, Option.some.injEq] at h
        simp [effect, hgone, hlookup, ← h]
      | some id =>
        have hst : (effect s (.completion callId value)) =
            { s.st with deferred := s.st.deferred.erase callId } := by
          simp [effect, hgone, hlookup]
        rw [hst]
        simp only [hlookup] at h
        split at h <;> cases h
        rfl
  | deliver id r =>
    simp only [next] at h
    cases hpc : (s.calls id).resolver r with
    | entered o =>
      simp only [hpc, Option.some.injEq] at h
      simp [effect, hpc, ← h]
    | _ =>
      simp only [hpc] at h
      obtain ⟨call, hstep, rfl⟩ := Option.map_eq_some_iff.mp h
      simp [effect, hpc]
  | sendCallAsync id | answer id res | handleReply id | loadDelivered id | rearm id | expire id =>
    simp only [next] at h
    split at h <;> cases h
    rfl
  | fail reason | enterSync =>
    cases h
    rfl
  | runStrand id =>
    obtain ⟨call, hstep, rfl⟩ := Option.map_eq_some_iff.mp h
    rfl
  | stopAndCancelCalls =>
    simp only [next] at h
    split at h <;> cases h <;> rfl
  | cancelNext =>
    simp only [next] at h
    split at h
    · cases h
      rfl
    · cases h
      rfl
    · split at h <;> cases h
      rfl
    · cases h
  | awaitCompletion callId =>
    simp only [next] at h
    cases htake : s.st.takeCompletion callId with
    | some taken =>
      simp only [htake, Option.some.injEq] at h
      simp [effect, htake, ← h]
    | none =>
      simp only [htake, Option.some.injEq] at h
      subst h
      simp [effect, htake]
  | leaveSync | dropState =>
    simp only [next, Option.ite_none_right_eq_some, Option.some.injEq] at h
    obtain ⟨-, rfl⟩ := h
    rfl

/-- Only its own steps count synchronous calls. -/
theorem syncOutstanding_effect (s : State) (ha : a.isSync = false) :
    (effect s a).syncOutstanding = s.st.syncOutstanding := by
  cases a with
  | register id =>
    simp only [effect]
    split_ifs <;> rfl
  | fileDeferred id =>
    simp only [effect]
    split
    · rename_i callId hfiling
      cases htake : s.st.takeCompletion callId with
      | some taken => exact CallState.syncOutstanding_takeCompletion htake
      | none =>
        dsimp only
        split_ifs <;> rfl
    · rfl
  | completion callId value =>
    simp only [effect]
    split_ifs
    · rfl
    · cases s.st.deferred.lookup callId with
      | none => exact CallState.syncOutstanding_parkCompletion ..
      | some id => rfl
  | deliver id r =>
    simp only [effect]
    split
    · exact syncOutstanding_leaveRegistries s id
    · rfl
  | enterSync | awaitCompletion callId | leaveSync => cases ha
  | _ => rfl

end effects

/-! ## Every step of a handle -/

/-- What a synchronous call weighs in `syncOutstanding`. -/
def SyncPc.weight : SyncPc → ℕ
  | waiting | awaiting _ | leaving _ => 1
  | _ => 0

/-- The invariant of a handle with its synchronous calls. -/
structure CallsInv (obj : Bytes) (c : Calls) : Prop where
  reachable : (handle obj).Reachable c.state
  counted : Tally c.state.st.syncOutstanding fun n => (c.sync n).pc.weight

/-- The step of the call state behind a step of the handle. -/
def Calls.stateAction (c : Calls) : CallsAction → Option Action
  | .async a => some a
  | .callSync _ _ _ => some .enterSync
  | .wake n =>
    match (c.sync n).pc with
    | .awaiting callId => some (.awaitCompletion callId)
    | _ => none
  | .returnSync _ => some .leaveSync
  | _ => none

/-- The synchronous call that takes the step. -/
def CallsAction.syncCall : CallsAction → Option ℕ
  | .async _ => none
  | .callSync n _ _ | .syncTimeout n | .syncReply n _ | .wake n | .returnSync n => some n

section steps
variable {obj : Bytes} {c c' : Calls} {a : CallsAction}

/-- A synchronous call moves by its own steps. -/
theorem sync_next {n : ℕ} (h : c.next obj a = some c') (hother : a.syncCall ≠ some n) :
    c'.sync n = c.sync n := by
  have hne : ∀ {m : ℕ}, some m ≠ some n → n ≠ m := by
    intro m hm heq
    exact hm (congrArg some heq.symm)
  cases a with
  | async a =>
    simp only [Calls.next, Option.ite_none_left_eq_some] at h
    obtain ⟨s, hs, rfl⟩ := Option.map_eq_some_iff.mp h.2
    rfl
  | callSync m method timeoutMs =>
    simp only [Calls.next] at h
    split at h <;> cases h
    exact Function.update_of_ne (hne hother) ..
  | syncTimeout m | syncReply m res =>
    simp only [Calls.next] at h
    split at h <;> cases h
    exact c.sync_setSync_of_ne (hne hother) _
  | wake m =>
    simp only [Calls.next] at h
    split at h
    · cases h
      unfold Calls.awaitCompletion
      split
      · exact Calls.sync_setSync_of_ne _ (hne hother) _
      · split_ifs <;> exact Calls.sync_setSync_of_ne _ (hne hother) _
    · cases h
  | returnSync m =>
    simp only [Calls.next] at h
    split at h <;> cases h
    exact Calls.sync_setSync_of_ne _ (hne hother) _

/-- A synchronous call that has not returned is counted. -/
theorem CallsInv.pos (hi : CallsInv obj c) {n : ℕ} (hn : (c.sync n).pc.weight = 1) :
    0 < c.state.st.syncOutstanding := by
  have hle : (c.sync n).pc.weight ≤ c.state.st.syncOutstanding := hi.counted.le n
  omega

/-- The wait of a synchronous call is over, and the completion is looked for. -/
theorem Calls.state_awaitCompletion (c : Calls) (n : ℕ) (callId : QString) :
    Async.next obj c.state (.awaitCompletion callId) =
      some (c.awaitCompletion obj n callId).state := by
  simp only [Async.next, Calls.awaitCompletion]
  cases c.state.st.takeCompletion callId with
  | some taken => rfl
  | none =>
    dsimp only
    split_ifs <;> rfl

/-- **A step of the handle is a step of its call state, or leaves it as it is.** -/
theorem CallsInv.next_state (hi : CallsInv obj c) (h : c.next obj a = some c') :
    (∃ a', c.stateAction a = some a' ∧ Async.next obj c.state a' = some c'.state) ∨
      c.stateAction a = none ∧ c'.state = c.state := by
  cases a with
  | async a =>
    simp only [Calls.next, Option.ite_none_left_eq_some] at h
    obtain ⟨s, hs, rfl⟩ := Option.map_eq_some_iff.mp h.2
    exact .inl ⟨a, rfl, hs⟩
  | callSync n method timeoutMs =>
    simp only [Calls.next] at h
    split at h <;> cases h
    exact .inl ⟨.enterSync, rfl, rfl⟩
  | syncTimeout n | syncReply n res =>
    simp only [Calls.next] at h
    split at h <;> cases h
    exact .inr ⟨rfl, rfl⟩
  | wake n =>
    simp only [Calls.next] at h
    split at h
    · rename_i callId hawaiting
      cases h
      refine .inl ⟨.awaitCompletion callId, ?_, c.state_awaitCompletion n callId⟩
      rw [Calls.stateAction, hawaiting]
    · cases h
  | returnSync n =>
    simp only [Calls.next] at h
    split at h
    · rename_i o hleaving
      cases h
      have hpos : 0 < c.state.st.syncOutstanding :=
        hi.pos (n := n) (by rw [hleaving, SyncPc.weight])
      exact .inl ⟨.leaveSync, rfl, if_pos hpos⟩
    · cases h

/-- A synchronous call moves, and the counter with it. -/
theorem tally_setSync {count count' : ℕ} {sync : ℕ → SyncCall}
    (h : Tally count fun n => (sync n).pc.weight) (n : ℕ) (call : SyncCall)
    (hcount : count' + (sync n).pc.weight = count + call.pc.weight) :
    Tally count' fun m => (Function.update sync n call m).pc.weight := by
  have hweight : (fun m => (Function.update sync n call m).pc.weight) =
      Function.update (fun m => (sync m).pc.weight) n call.pc.weight := by
    ext m
    by_cases hm : m = n
    · subst hm
      simp
    · simp [hm]
  rw [hweight]
  exact h.update hcount

/-- A synchronous call that is counted has what it returns. -/
theorem tally_leaving (hi : CallsInv obj c) {n : ℕ} (hn : (c.sync n).pc.weight = 1) {count : ℕ}
    (hcount : count = c.state.st.syncOutstanding) {pc : SyncPc} (hpc : pc.weight = 1) :
    Tally count fun m => ((c.setSync n pc).sync m).pc.weight := by
  refine tally_setSync hi.counted n _ ?_
  simp only [hn, hpc, hcount]

/-- The counter counts the calls that have not returned. -/
theorem CallsInv.tally_next (hi : CallsInv obj c) (h : c.next obj a = some c') :
    Tally c'.state.st.syncOutstanding fun n => (c'.sync n).pc.weight := by
  cases a with
  | async a =>
    simp only [Calls.next, Option.ite_none_left_eq_some] at h
    obtain ⟨hsync, h⟩ := h
    obtain ⟨s, hs, rfl⟩ := Option.map_eq_some_iff.mp h
    rw [st_next hs, syncOutstanding_effect _ (by simpa using hsync)]
    exact hi.counted
  | callSync n method timeoutMs =>
    simp only [Calls.next] at h
    split at h
    · rename_i hidle
      cases h
      refine tally_setSync hi.counted n _ ?_
      simp [hidle, SyncPc.weight, CallState.enterSync]
    · cases h
  | syncTimeout n =>
    simp only [Calls.next] at h
    split at h
    · rename_i hwaiting
      cases h
      exact tally_leaving hi (by rw [hwaiting, SyncPc.weight]) rfl rfl
    · cases h
  | syncReply n res =>
    simp only [Calls.next] at h
    split at h
    · rename_i hwaiting
      cases h
      refine tally_leaving hi (by rw [hwaiting, SyncPc.weight]) rfl ?_
      unfold syncResult
      split
      · rfl
      · split <;> rfl
    · cases h
  | wake n =>
    simp only [Calls.next] at h
    split at h
    · rename_i callId hawaiting
      cases h
      have hcounted : (c.sync n).pc.weight = 1 := by rw [hawaiting, SyncPc.weight]
      unfold Calls.awaitCompletion
      split
      · rename_i value st htake
        exact tally_leaving hi hcounted (CallState.syncOutstanding_takeCompletion htake) rfl
      · split_ifs
        · exact tally_leaving hi hcounted rfl rfl
        · exact tally_leaving hi hcounted rfl rfl
    · cases h
  | returnSync n =>
    simp only [Calls.next] at h
    split at h
    · rename_i o hleaving
      cases h
      have hpos : 0 < c.state.st.syncOutstanding :=
        hi.pos (n := n) (by rw [hleaving, SyncPc.weight])
      refine tally_setSync hi.counted n _ ?_
      simp only [hleaving, SyncPc.weight, Calls.setSync, CallState.leaveSync,
        CallState.syncOutstanding_dropUnclaimedIfIdle]
      omega
    · cases h

theorem CallsInv.next (hi : CallsInv obj c) (h : c.next obj a = some c') : CallsInv obj c' where
  reachable := by
    rcases hi.next_state h with ⟨a', -, hstep⟩ | ⟨-, hsame⟩
    · exact hi.reachable.step hstep
    · exact hsame ▸ hi.reachable
  counted := hi.tally_next h

theorem callsInv_of_reachable (h : (calls obj).Reachable c) : CallsInv obj c := by
  refine h.invariant ?_ fun c a c' hi hstep => hi.next hstep
  rintro c rfl
  exact ⟨.init rfl, Tally.zero fun _ => rfl⟩

end steps

end Async

end LogosProtocol
