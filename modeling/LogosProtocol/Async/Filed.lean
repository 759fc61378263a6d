import LogosProtocol.Async.EarlyCompletions

/-!
# Calls that wait for their completion

An asynchronous call that has seen its sentinel is filed under its call id, where its completion
finds it.  A call that has not seen it yet finds its completion parked.  Either way a call that has
been sent is resolved with its completion, whenever that arrives.

## Main definitions

* `Filed` — what holds of a call that is filed.
* `Late`, `Spares` — the deadline of the call passes; it leaves a completion that has come to the
  call.
* `Prompt` — a step that neither ends the call, nor lets its deadline pass.
* `Expects`, `Answered` — before the completion has come, and from then on.
-/

namespace LogosProtocol

namespace Async

/-! ## What is filed -/

/-- The reply handler is done with the call. -/
def HandlerPc.Done : HandlerPc → Prop
  | filed | returned => True
  | _ => False

/-- `callAsync` builds the call. -/
def Action.Begins (id : UInt64) : Action → Prop
  | .callAsync id' _ _ => id = id'
  | _ => False

/-- A completion finds the call. -/
def Action.Finds (s : State) (id : UInt64) : Action → Prop
  | .completion callId _ => s.st.deferred.lookup callId = some id
  | _ => False

/-- What a step leaves of one call. -/
structure Steady (begins finds : Prop) (call call' : AsyncCall) : Prop where
  done : call.handler.Done → call'.handler.Done ∧ call'.callId = call.callId
  idle : ¬ finds → call.resolver .completion = .idle → call'.resolver .completion = .idle
  caller : ¬ begins → call.caller = .idle → call'.caller = .idle

section steady
variable {obj : Bytes} {s s' : State} {a : Action} {call call' : AsyncCall} {begins finds : Prop}

theorem Steady.of_same (hhandler : call'.handler = call.handler)
    (hcallId : call'.callId = call.callId)
    (hresolver : call'.resolver .completion = call.resolver .completion)
    (hcaller : call'.caller = call.caller) : Steady begins finds call call' where
  done hdone := ⟨hhandler ▸ hdone, hcallId⟩
  idle _ hidle := hresolver.trans hidle
  caller _ hidle := hcaller.trans hidle

theorem Steady.refl (call : AsyncCall) : Steady begins finds call call := .of_same rfl rfl rfl rfl

/-- The reply handler is at work. -/
theorem Steady.handle (hnot : ¬ call.handler.Done)
    (hresolver : call'.resolver .completion = call.resolver .completion)
    (hcaller : call'.caller = call.caller) : Steady begins finds call call' where
  done hdone := absurd hdone hnot
  idle _ hidle := hresolver.trans hidle
  caller _ hidle := hcaller.trans hidle

/-- Somebody else than the completion handler calls `deliver()`. -/
theorem Steady.deliver (h : Steady begins finds call call') {r : Resolver} (hr : r ≠ .completion)
    (o : Outcome) : Steady begins finds call (call'.deliver r o) where
  done := h.done
  idle hfinds hidle :=
    (call'.resolver_setResolver_of_ne hr.symm _).trans (h.idle hfinds hidle)
  caller := h.caller

/-- One call moves. -/
theorem Steady.modify (s : State) (id id' : UInt64) {f : AsyncCall → AsyncCall}
    (hf : id = id' → Steady begins finds (s.calls id) (f (s.calls id))) :
    Steady begins finds (s.calls id) ((s.modify id' f).calls id) := by
  by_cases hid : id = id'
  · subst hid
    rw [State.calls_modify_self]
    exact hf rfl
  · rw [State.calls_modify_of_ne s hid]
    exact .refl _

theorem Steady.sweep (call : AsyncCall) (reason : Bytes) :
    Steady begins finds call (call.sweep reason) := by
  unfold AsyncCall.sweep
  split
  · rename_i hpending
    exact .handle (by simp [hpending, HandlerPc.Done]) rfl rfl
  · exact .refl _

theorem Steady.handleReply {stateGone : Bool} {res : Reply}
    (hanswered : call.handler = .answered res) :
    Steady begins finds call (call.handleReply obj stateGone res) := by
  have hnot : ¬ call.handler.Done := by simp [hanswered, HandlerPc.Done]
  unfold AsyncCall.handleReply
  dsimp only
  split
  · exact .handle hnot rfl rfl
  split
  · exact .handle hnot rfl rfl
  · split <;> exact .handle hnot rfl rfl

theorem Steady.runStrand (hstep : call.runStrand obj = some call') :
    Steady begins finds call call' := by
  unfold AsyncCall.runStrand at hstep
  split at hstep
  · cases hstep
    exact .of_same rfl rfl rfl rfl
  · cases hstep
    exact .of_same rfl rfl rfl rfl
  · rename_i rest _ _
    cases hstep
    have hrun : Steady begins finds call { call with strand := rest } := .of_same rfl rfl rfl rfl
    exact hrun.deliver (by decide) _
  · cases hstep

/-- A `deliver()` goes on. -/
theorem Steady.resolve {r : Resolver} (hstep : call.resolve r (call.resolver r) = some call') :
    Steady begins finds call call' where
  done hdone := by
    have hhandler := handler_resolve hstep
    generalize call.resolver r = pc at hstep
    cases pc with
    | idle | entered o => cases hstep
    | left o =>
      simp only [AsyncCall.resolve] at hstep
      split at hstep <;> cases hstep <;> exact ⟨hdone, rfl⟩
    | took cb o =>
      cases hstep
      have hsame : call.cancelPending = call := by
        unfold AsyncCall.cancelPending
        split
        · rename_i hpending
          rw [hpending] at hdone
          exact hdone.elim
        · rfl
      rw [hsame]
      exact ⟨hdone, rfl⟩
    | claimed o | withdrew cb o | cancelled cb o =>
      cases hstep
      exact ⟨hdone, rfl⟩
  idle _ hidle := by
    by_cases hr : r = .completion
    · subst hr
      rw [hidle] at hstep
      cases hstep
    · rw [(AsyncCall.resolve_frame hstep).2 .completion (Ne.symm hr), hidle]
  caller _ hidle := by rw [(AsyncCall.resolve_frame hstep).1, hidle]

section actions
variable {id id' : UInt64}

theorem steady_callAsync {method : Bytes} {timeoutMs : Int}
    (h : next obj s (.callAsync id' method timeoutMs) = some s') :
    Steady (id = id') finds (s.calls id) (s'.calls id) := by
  simp only [next] at h
  split at h <;> cases h
  exact .modify s id id' fun hid =>
    ⟨fun hdone => ⟨hdone, rfl⟩, fun _ hidle => hidle, fun hbegins => absurd hid hbegins⟩

theorem steady_register (h : next obj s (.register id') = some s') :
    Steady begins finds (s.calls id) (s'.calls id) := by
  simp only [next] at h
  split at h
  · rename_i harmed
    have hmoves : ∀ pc, id = id' →
        Steady begins finds (s.calls id) { s.calls id with caller := pc } := by
      intro pc hid
      subst hid
      refine ⟨fun hdone => ⟨hdone, rfl⟩, fun _ hidle => hidle, fun _ hidle => ?_⟩
      simp [harmed] at hidle
    split at h <;> cases h
    · exact .modify s id id' fun hid => (hmoves _ hid).deliver (by decide) _
    · exact .modify { s with st := s.st.emplaceInflight id' } id id' fun hid => hmoves _ hid
  · cases h

theorem steady_sendCallAsync (hi : Inv s) (h : next obj s (.sendCallAsync id') = some s') :
    Steady begins finds (s.calls id) (s'.calls id) := by
  simp only [next] at h
  split at h
  · rename_i hregistered
    cases h
    refine .modify s id id' fun hid => ?_
    subst hid
    have hunregistered := (hi.call id).sound.unregistered (by simp [hregistered])
    refine ⟨fun hdone => ?_, fun _ hidle => hidle, fun _ hidle => ?_⟩
    · rw [hunregistered] at hdone
      exact hdone.elim
    · rw [hregistered] at hidle
      cases hidle
  · cases h

theorem steady_answer {res : Reply} (h : next obj s (.answer id' res) = some s') :
    Steady begins finds (s.calls id) (s'.calls id) := by
  simp only [next] at h
  split at h
  · rename_i hpending
    cases h
    refine .modify s id id' fun hid => ?_
    subst hid
    exact .handle (by simp [hpending, HandlerPc.Done]) rfl rfl
  · cases h

theorem steady_handleReply (h : next obj s (.handleReply id') = some s') :
    Steady begins finds (s.calls id) (s'.calls id) := by
  simp only [next] at h
  split at h
  · rename_i hanswered
    cases h
    exact .modify s id id' fun hid => .handleReply (hid ▸ hanswered)
  · cases h

theorem steady_loadDelivered (h : next obj s (.loadDelivered id') = some s') :
    Steady begins finds (s.calls id) (s'.calls id) := by
  simp only [next] at h
  split at h
  · rename_i hdeferring
    cases h
    refine .modify s id id' fun hid => ?_
    subst hid
    exact .handle (by simp [hdeferring, HandlerPc.Done]) rfl rfl
  · cases h

theorem steady_fileDeferred (h : next obj s (.fileDeferred id') = some s') :
    Steady begins finds (s.calls id) (s'.calls id) := by
  simp only [next] at h
  split at h
  · rename_i callId hfiling
    cases h
    have hhandle : ∀ {call' : AsyncCall}, id = id' →
        call'.resolver .completion = (s.calls id).resolver .completion →
        call'.caller = (s.calls id).caller → Steady begins finds (s.calls id) call' := by
      intro call' hid
      subst hid
      exact .handle (by simp [hfiling, HandlerPc.Done])
    unfold State.fileDeferred
    split
    · rename_i buffered st htake
      exact .modify { s with st := st } id id' fun hid => hhandle hid rfl rfl
    · split
      · exact .modify s id id' fun hid => hhandle hid rfl rfl
      · exact .modify { s with st := { s.st with deferred := s.st.deferred.insert callId id' } }
          id id' fun hid => hhandle hid rfl rfl
  · cases h

theorem steady_rearm (h : next obj s (.rearm id') = some s') :
    Steady begins finds (s.calls id) (s'.calls id) := by
  simp only [next] at h
  split at h
  · cases h
    exact .modify s id id' fun _ =>
      ⟨fun _ => ⟨trivial, rfl⟩, fun _ hidle => hidle, fun _ hidle => hidle⟩
  · cases h

theorem steady_expire (h : next obj s (.expire id') = some s') :
    Steady begins finds (s.calls id) (s'.calls id) := by
  simp only [next] at h
  split at h <;> cases h
  exact .modify s id id' fun _ => .of_same rfl rfl rfl rfl

theorem steady_runStrand (h : next obj s (.runStrand id') = some s') :
    Steady begins finds (s.calls id) (s'.calls id) := by
  obtain ⟨call, hstep, rfl⟩ := Option.map_eq_some_iff.mp h
  exact .modify s id id' fun hid => .runStrand (hid ▸ hstep)

theorem steady_completion {callId : QString} {value : QVariant}
    (h : next obj s (.completion callId value) = some s') :
    Steady begins (s.st.deferred.lookup callId = some id) (s.calls id) (s'.calls id) := by
  simp only [next] at h
  split at h
  · cases h
    exact .refl _
  split at h
  · cases h
    exact .refl _
  · rename_i id' hlookup
    split at h <;> cases h
    refine .modify { s with st := { s.st with deferred := s.st.deferred.erase callId } } id id'
      fun hid => ⟨fun hdone => ⟨hdone, rfl⟩, fun hfinds => ?_, fun _ hidle => hidle⟩
    subst hid
    exact absurd hlookup hfinds

theorem steady_deliver {r : Resolver} (h : next obj s (.deliver id' r) = some s') :
    Steady begins finds (s.calls id) (s'.calls id) := by
  simp only [next] at h
  split at h
  · rename_i o hentered
    cases h
    rw [← s.calls_leaveRegistries id']
    refine .modify (s.leaveRegistries id') id id' fun hid => ?_
    subst hid
    refine ⟨fun hdone => ⟨hdone, rfl⟩, fun _ hidle => ?_, fun _ hidle => hidle⟩
    rw [s.calls_leaveRegistries] at hidle ⊢
    by_cases hr : r = .completion
    · rw [hr, hidle] at hentered
      cases hentered
    · rwa [AsyncCall.resolver_setResolver_of_ne _ (Ne.symm hr)]
  · obtain ⟨call, hstep, rfl⟩ := Option.map_eq_some_iff.mp h
    exact .modify s id id' fun hid => .resolve (hid ▸ hstep)

theorem steady_fail {reason : Bytes} (h : next obj s (.fail reason) = some s') :
    Steady begins finds (s.calls id) (s'.calls id) := by
  cases h
  exact .sweep (s.calls id) reason

theorem steady_cancelNext (h : next obj s .cancelNext = some s') :
    Steady begins finds (s.calls id) (s'.calls id) := by
  simp only [next] at h
  split at h
  · cases h
    exact .refl _
  · rename_i id' outstanding hteardown
    cases h
    exact .modify { s with teardown := .delivering id' outstanding } id id' fun _ =>
      .deliver (.refl _) (by decide) _
  · split at h <;> cases h
    exact .refl _
  · cases h

end actions

/-- **A call is built by its own step, and given its completion by a completion alone.** -/
theorem steady_next (hi : Inv s) (h : next obj s a = some s') (id : UInt64) :
    Steady (a.Begins id) (a.Finds s id) (s.calls id) (s'.calls id) := by
  cases a with
  | callAsync id' method timeoutMs => exact steady_callAsync h
  | register id' => exact steady_register h
  | sendCallAsync id' => exact steady_sendCallAsync hi h
  | answer id' res => exact steady_answer h
  | handleReply id' => exact steady_handleReply h
  | loadDelivered id' => exact steady_loadDelivered h
  | fileDeferred id' => exact steady_fileDeferred h
  | rearm id' => exact steady_rearm h
  | expire id' => exact steady_expire h
  | runStrand id' => exact steady_runStrand h
  | completion callId value => exact steady_completion h
  | deliver id' r => exact steady_deliver h
  | fail reason => exact steady_fail h
  | cancelNext => exact steady_cancelNext h
  | stopAndCancelCalls =>
    simp only [next] at h
    split at h <;> cases h <;> exact .refl _
  | enterSync =>
    cases h
    exact .refl _
  | awaitCompletion callId =>
    simp only [next] at h
    split at h <;> cases h <;> exact .refl _
  | leaveSync | dropState =>
    simp only [next, Option.ite_none_right_eq_some, Option.some.injEq] at h
    obtain ⟨-, rfl⟩ := h
    exact .refl _

end steady

section filed
variable {obj : Bytes} {s s' : State} {a : Action} {id : UInt64} {callId : QString}

/-- A call is filed by its own handler. -/
theorem lookup_of_effect (h : (effect s a).deferred.lookup callId = some id) :
    s.st.deferred.lookup callId = some id ∨
      a = .fileDeferred id ∧ (s.calls id).handler = .filing callId := by
  cases a with
  | register id' =>
    simp only [effect] at h
    split_ifs at h <;> exact .inl h
  | fileDeferred id' =>
    simp only [effect] at h
    split at h
    · rename_i callId' hfiling
      cases htake : s.st.takeCompletion callId' with
      | some taken =>
        simp only [htake] at h
        exact .inl ((CallState.registries_of_takeCompletion htake).2.1 ▸ h)
      | none =>
        simp only [htake] at h
        split_ifs at h
        · exact .inl h
        · by_cases hsame : callId = callId'
          · subst hsame
            have hid : some id' = some id := by simpa using h
            cases hid
            exact .inr ⟨rfl, hfiling⟩
          · exact .inl ((AList.lookup_insert_ne hsame).symm.trans h)
    · exact .inl h
  | completion callId' value =>
    simp only [effect] at h
    split_ifs at h
    · exact .inl h
    · split at h
      · exact .inl ((CallState.deferred_parkCompletion ..) ▸ h)
      · by_cases hsame : callId = callId'
        · subst hsame
          simp at h
        · exact .inl ((AList.lookup_erase_ne hsame).symm.trans h)
  | deliver id' r =>
    simp only [effect] at h
    split at h
    · unfold State.leaveRegistries at h
      split_ifs at h
      · exact .inl h
      · exact .inl (CallState.lookup_deferred_leave _ h).1
    · exact .inl h
  | stopAndCancelCalls => cases h
  | awaitCompletion callId' =>
    simp only [effect] at h
    cases htake : s.st.takeCompletion callId' with
    | some taken =>
      simp only [htake] at h
      exact .inl ((CallState.registries_of_takeCompletion htake).2.1 ▸ h)
    | none =>
      simp only [htake] at h
      exact .inl h
  | leaveSync =>
    simp only [effect, CallState.leaveSync, CallState.deferred_dropUnclaimedIfIdle] at h
    exact .inl h
  | _ => exact .inl h

/-- What holds of a call that is filed. -/
structure Filed (callId : QString) (call : AsyncCall) : Prop where
  done : call.handler.Done
  callId : call.callId = callId
  /-- The completion handler takes a call out before it calls `deliver()`. -/
  idle : call.resolver .completion = .idle

/-- **A filed call has not been given its completion.** -/
theorem filed_next (hi : Inv s) (hp : Parked s)
    (hfiled : ∀ callId id, s.st.deferred.lookup callId = some id → Filed callId (s.calls id))
    (h : next obj s a = some s') (callId : QString) (id : UInt64)
    (hlookup : s'.st.deferred.lookup callId = some id) : Filed callId (s'.calls id) := by
  rw [st_next h] at hlookup
  have hsteady := steady_next hi h id
  rcases lookup_of_effect hlookup with hbefore | ⟨rfl, hfiling⟩
  · obtain ⟨hdone, hcallId, hidle⟩ := hfiled callId id hbefore
    obtain ⟨hdone', hsame⟩ := hsteady.done hdone
    refine ⟨hdone', hsame.trans hcallId, hsteady.idle (fun hfinds => ?_) hidle⟩
    cases a with
    | completion callId' value =>
      -- The completion is that of the call, and takes it out.
      have hfound : s.st.deferred.lookup callId' = some id := hfinds
      obtain rfl : callId' = callId := (hfiled callId' id hfound).callId.symm.trans hcallId
      have hgone : s.stateGone = false := by
        by_contra hgone
        have hnone := hp.stopped (hp.gone (by simpa using hgone)) callId'
        rw [hfound] at hnone
        cases hnone
      simp [effect, hgone, hfound] at hlookup
    | _ => exact hfinds.elim
  · have hearly : (s.calls id).Undeferred := .inl (by rw [hfiling]; trivial)
    obtain ⟨hidle, hnot⟩ := hp.undeferred id hearly
    simp only [effect, hfiling] at hlookup
    simp only [next, hfiling, Option.some.injEq] at h
    subst h
    unfold State.fileDeferred
    cases htake : s.st.takeCompletion callId with
    | some taken =>
      simp only [htake] at hlookup
      rw [(CallState.registries_of_takeCompletion htake).2.1] at hlookup
      exact absurd hlookup (hnot callId)
    | none =>
      simp only [htake] at hlookup
      dsimp only
      split_ifs at hlookup ⊢
      · exact absurd hlookup (hnot callId)
      · rw [State.calls_modify_self]
        exact ⟨trivial, rfl, hidle⟩

theorem filed_of_reachable (h : (handle obj).Reachable s) (callId : QString) (id : UInt64)
    (hlookup : s.st.deferred.lookup callId = some id) : Filed callId (s.calls id) := by
  have hall := h.invariant (I := fun s => (handle obj).Reachable s ∧
    ∀ callId id, s.st.deferred.lookup callId = some id → Filed callId (s.calls id)) ?_ ?_
  · exact hall.2 callId id hlookup
  · rintro s rfl
    exact ⟨.init rfl, fun callId id hlookup => by cases hlookup⟩
  · rintro s a s' ⟨hreachable, hfiled⟩ hstep
    exact ⟨hreachable.step hstep, filed_next (inv_of_reachable hreachable)
      (parked_of_reachable hreachable) hfiled hstep⟩

/-- A filed call stays filed until its completion comes, or somebody calls `deliver()` on it. -/
theorem lookup_deferred_effect (hfiled : s.st.deferred.lookup callId = some id)
    (hunannounced : a.announced callId = none)
    (hnames : ∀ id', (s.calls id').handler = .filing callId → id' = id)
    (hdeliver : ∀ id' r o, a = .deliver id' r → (s.calls id').resolver r = .entered o →
      (s.calls id').callId ≠ callId)
    (hstop : a ≠ .stopAndCancelCalls) : (effect s a).deferred.lookup callId = some id := by
  cases a with
  | register id' =>
    simp only [effect]
    split_ifs <;> exact hfiled
  | fileDeferred id' =>
    simp only [effect]
    split
    · rename_i callId' hfiling
      cases htake : s.st.takeCompletion callId' with
      | some taken => rwa [(CallState.registries_of_takeCompletion htake).2.1]
      | none =>
        dsimp only
        split_ifs
        · exact hfiled
        · by_cases hsame : callId' = callId
          · subst hsame
            rw [AList.lookup_insert, hnames id' hfiling]
          · rwa [AList.lookup_insert_ne (Ne.symm hsame)]
    · exact hfiled
  | completion callId' value =>
    have hne : callId' ≠ callId := by
      rintro rfl
      simp [Action.announced] at hunannounced
    simp only [effect]
    split_ifs
    · exact hfiled
    · split
      · rwa [CallState.deferred_parkCompletion]
      · rwa [AList.lookup_erase_ne hne.symm]
  | deliver id' r =>
    simp only [effect]
    split
    · rename_i o hentered
      have hne := hdeliver id' r o rfl hentered
      unfold State.leaveRegistries
      split_ifs
      · exact hfiled
      · simp only [CallState.leave, CallState.deferred_dropUnclaimedIfIdle]
        split_ifs
        · rwa [AList.lookup_erase_ne hne.symm]
        · exact hfiled
    · exact hfiled
  | stopAndCancelCalls => exact absurd rfl hstop
  | awaitCompletion callId' =>
    simp only [effect]
    cases htake : s.st.takeCompletion callId' with
    | some taken => rwa [(CallState.registries_of_takeCompletion htake).2.1]
    | none => exact hfiled
  | leaveSync =>
    simp only [effect, CallState.leaveSync, CallState.deferred_dropUnclaimedIfIdle]
    exact hfiled
  | _ => exact hfiled

/-- Nothing is parked under a call id before its completion has come. -/
theorem lookup_staged_effect (hnone : s.st.staged.entries.lookup callId = none)
    (hunannounced : a.announced callId = none) :
    (effect s a).staged.entries.lookup callId = none := by
  cases a with
  | register id' =>
    simp only [effect]
    split_ifs <;> exact hnone
  | fileDeferred id' =>
    simp only [effect]
    split
    · rename_i callId' hfiling
      cases htake : s.st.takeCompletion callId' with
      | some taken => exact CallState.lookup_takeCompletion_of_none hnone htake
      | none =>
        dsimp only
        split_ifs <;> exact hnone
    · exact hnone
  | completion callId' value =>
    have hne : callId' ≠ callId := by
      rintro rfl
      simp [Action.announced] at hunannounced
    simp only [effect]
    split_ifs
    · exact hnone
    · split
      · rw [CallState.staged_parkCompletion]
        split_ifs
        · exact Stage.lookup_park_of_none hne hnone value
        · exact hnone
      · exact hnone
  | deliver id' r =>
    simp only [effect]
    split
    · unfold State.leaveRegistries
      split_ifs
      · exact hnone
      · unfold CallState.leave
        refine CallState.lookup_dropUnclaimedIfIdle_of_none ?_
        split_ifs <;> exact hnone
    · exact hnone
  | stopAndCancelCalls => exact AList.lookup_empty callId
  | awaitCompletion callId' =>
    simp only [effect]
    cases htake : s.st.takeCompletion callId' with
    | some taken => exact CallState.lookup_takeCompletion_of_none hnone htake
    | none => exact hnone
  | leaveSync => exact CallState.lookup_dropUnclaimedIfIdle_of_none hnone
  | _ => exact hnone

end filed

/-! ## Before the completion, and from then on -/

/-- Call ids are distinct, and the call is answered with its sentinel. -/
structure Defers (callId : QString) (owner : Owner) (c : Calls) (a : CallsAction) : Prop where
  names : Names callId owner c
  /-- No other call was filed under this one. -/
  others : ∀ id, (c.state.calls id).callId = callId → owner = .async id
  sentinel : ¬ Diverts callId owner c a

/-- The deadline of the call passes, or the wait of a synchronous one is over before its completion
has come. -/
def Late (callId : QString) (owner : Owner) (c : Calls) (a : CallsAction) : Prop :=
  Interrupts owner a ∨
    ∃ n, owner = .sync n ∧ a = .wake n ∧ c.state.st.staged.entries.lookup callId = none

/-- A handler has the completion of the call, and has called `deliver()`. -/
def Taken (c : Calls) (owner : Owner) : Prop :=
  ∃ id r, owner = .async id ∧ r.Completes ∧ (c.state.calls id).resolver r ≠ .idle

/-- A step that leaves the completion of the call, which has come, to the call. -/
structure Spares (callId : QString) (owner : Owner) (c : Calls) (a : CallsAction) : Prop where
  /-- While it is parked, the deadline of the call does not come to it. -/
  parked : c.state.st.staged.entries.lookup callId ≠ none → ¬ Interrupts owner a
  /-- Nor does the deadline claim the call before the handler that has the completion. -/
  taken : Taken c owner → ¬ Preempts owner c a
  /-- It is not evicted. -/
  room : ∀ a', a = .async a' → ¬ Crowds callId c.state a'

/-- A step that neither ends the call, nor crowds out its completion, nor lets its deadline pass. -/
structure Prompt (callId : QString) (owner : Owner) (c : Calls) (a : CallsAction) : Prop
    extends Undisturbed callId owner c a where
  /-- The wait of a synchronous call is not over before its completion has come. -/
  waits : ∀ n, owner = .sync n → a = .wake n → c.state.st.staged.entries.lookup callId ≠ none
  /-- Call ids are distinct: no other call was filed under this one. -/
  others : ∀ id, (c.state.calls id).callId = callId → owner = .async id

/-- The call has been sent, and its completion has not come. -/
inductive Expects (callId : QString) (c : Calls) : Owner → Prop
  | early {owner : Owner} (unhandled : Unhandled callId c owner)
      (outstanding : Outstanding c owner)
      (unstaged : c.state.st.staged.entries.lookup callId = none) : Expects callId c owner
  | filed {id : UInt64} (filed : c.state.st.deferred.lookup callId = some id)
      (outstanding : Outstanding c (.async id)) : Expects callId c (.async id)

/-- The completion waits for the call, or the call is resolved with it. -/
def Answered (callId : QString) (value : QVariant) (c : Calls) (owner : Owner) : Prop :=
  Served callId value c owner ∨
    ∃ id, owner = .async id ∧ (c.state.calls id).Resolves .completion value

/-- Of the completions that have come under its id, the call is resolved with one. -/
def Settles (callId : QString) (came : List QVariant) (c : Calls) (owner : Owner) : Prop :=
  came = [] ∧ Expects callId c owner ∨ ∃ v ∈ came, Answered callId v c owner

section settles
variable {obj : Bytes} {c c' : Calls} {a : CallsAction} {callId : QString} {owner : Owner}
  {value : QVariant} {came : List QVariant}

theorem Defers.prompt (hd : Defers callId owner c a) (hspares : Spares callId owner c a)
    (hlate : ¬ Late callId owner c a) : Prompt callId owner c a where
  names := hd.names
  goesOn hinterrupts := hlate (.inl hinterrupts)
  sentinel := hd.sentinel
  room := hspares.room
  waits n hn ha hnone := hlate (.inr ⟨n, hn, ha, hnone⟩)
  others := hd.others

theorem Expects.outstanding (he : Expects callId c owner) : Outstanding c owner := by
  cases he with
  | early _ houtstanding _ => exact houtstanding
  | filed _ houtstanding => exact houtstanding

theorem Expects.unresolved (he : Expects callId c owner) : Unresolved c owner := by
  cases he with
  | early hunhandled houtstanding _ => exact hunhandled.unresolved houtstanding
  | filed _ houtstanding => exact houtstanding.2

/-- Only its deadline and teardown call `deliver()` on a call that is filed. -/
theorem Prompt.idle (hi : CallsInv obj c) {id : UInt64}
    (hfiled : c.state.st.deferred.lookup callId = some id)
    (hq : Prompt callId (.async id) c a) {a' : Action} (ha : c.stateAction a = some a')
    (r : Resolver) (hdeliver : a' = .deliver id r) : (c.state.calls id).resolver r = .idle := by
  subst hdeliver
  have hsound := ((inv_of_reachable hi.reachable).call id).sound
  have hf := filed_of_reachable hi.reachable callId id hfiled
  cases r with
  | caller =>
    refine hsound.caller_idle ?_
    rw [hsound.sent fun hnot => by simpa [hnot, HandlerPc.Done] using hf.done]
    simp
  | reply =>
    by_contra hbusy
    exact ((parked_of_reachable hi.reachable).undeferred id (.inr hbusy)).2 callId hfiled
  | completion => exact hf.idle
  | deadline =>
    rcases stateAction_eq ha with rfl | ⟨hsync, -⟩
    · exact absurd ⟨rfl, .inl rfl⟩ hq.goesOn
    · cases hsync
  | teardown =>
    rcases stateAction_eq ha with rfl | ⟨hsync, -⟩
    · exact absurd ⟨rfl, .inr rfl⟩ hq.goesOn
    · cases hsync

/-- An asynchronous call whose completion has not come is filed. -/
theorem Expects.fileDeferred (hi : CallsInv obj c) {id : UInt64}
    (hunhandled : Unhandled callId c (.async id)) (houtstanding : Outstanding c (.async id))
    (hunstaged : c.state.st.staged.entries.lookup callId = none)
    (h : c.next obj (.async (.fileDeferred id)) = some c') : Expects callId c' (.async id) := by
  have hawaits : (c.state.calls id).handler.Awaits callId := hunhandled
  have hstopping : c.state.st.stopping = false := by
    by_contra hstop
    have hnone := (inv_of_reachable hi.reachable).stopped (by simpa using hstop)
    have hin := houtstanding.1
    rw [hnone] at hin
    cases hin
  simp only [Calls.next, Action.isSync, Bool.false_eq_true, if_false, Async.next] at h
  split at h
  · rename_i callId' hfiling
    rw [hfiling] at hawaits
    obtain rfl : callId' = callId := hawaits
    have htake : c.state.st.takeCompletion callId' = none := by
      unfold CallState.takeCompletion
      have hlookup : c.state.st.completions.lookup callId' = none := hunstaged
      rw [hlookup]
    simp only [Option.map_some, Option.some.injEq, State.fileDeferred, htake, hstopping,
      Bool.false_eq_true, if_false] at h
    subst h
    refine .filed ?_ ⟨houtstanding.1, ?_⟩
    · exact AList.lookup_insert ..
    · rw [State.calls_modify_self]
      exact houtstanding.2
  · cases h

/-- The completion finds the call. -/
theorem Expects.found (hi : CallsInv obj c) {id : UInt64}
    (hfiled : c.state.st.deferred.lookup callId = some id)
    (houtstanding : Outstanding c (.async id))
    (h : c.next obj (.async (.completion callId value)) = some c') :
    (c'.state.calls id).Resolves .completion value := by
  have hidle := (filed_of_reachable hi.reachable callId id hfiled).idle
  simp only [Calls.next, Action.isSync, Bool.false_eq_true, if_false, Async.next,
    hi.present houtstanding, hfiled, hidle, Option.map_some, Option.some.injEq] at h
  subst h
  rw [State.calls_modify_self]
  refine .underWay ?_ (.inl houtstanding.2)
  rw [AsyncCall.deliver, AsyncCall.resolver_setResolver_self]
  rfl

theorem announced_eq_some {v : QVariant} (h : a.announced callId = some v) :
    a = .async (.completion callId v) := by
  cases a with
  | async a =>
    cases a with
    | completion callId' v' =>
      simp only [CallsAction.announced, Action.announced, Option.ite_none_right_eq_some,
        Option.some.injEq] at h
      rw [h.1, h.2]
    | _ => cases h
  | _ => cases h

/-- **The completion of a call comes, or is still to come.** -/
theorem Expects.next (hi : CallsInv obj c) (he : Expects callId c owner)
    (hq : Prompt callId owner c a) (h : c.next obj a = some c') :
    a.announced callId = none ∧ Expects callId c' owner ∨
      ∃ v, a.announced callId = some v ∧ Answered callId v c' owner := by
  cases hannounced : a.announced callId with
  | some v =>
    refine .inr ⟨v, rfl, ?_⟩
    obtain rfl := announced_eq_some hannounced
    cases he with
    | early hunhandled houtstanding _ =>
      exact .inl (.inl (hi.arrive hunhandled houtstanding hq.names h))
    | filed hfiled houtstanding => exact .inr ⟨_, rfl, Expects.found hi hfiled houtstanding h⟩
  | none =>
    refine .inl ⟨rfl, ?_⟩
    cases he with
    | early hunhandled houtstanding hunstaged =>
      by_cases hclaim : a = owner.claim
      · subst hclaim
        cases owner with
        | async id => exact .fileDeferred hi hunhandled houtstanding hunstaged h
        | sync n => exact absurd hunstaged (hq.waits n rfl rfl)
      · refine .early (hq.unhandled_next hi hunhandled houtstanding hclaim h)
          (hq.unhandled_outstanding hi hunhandled houtstanding h) ?_
        rcases hi.next_state h with ⟨a', ha, hstep⟩ | ⟨-, hsame⟩
        · rw [st_next hstep]
          exact lookup_staged_effect hunstaged ((announced_eq ha).symm.trans hannounced)
        · rwa [hsame]
    | @filed id hfiled houtstanding =>
      have hidle : ∀ a', c.stateAction a = some a' → ∀ r, a' = .deliver id r →
          (c.state.calls id).resolver r = .idle := fun _ ha r => hq.idle hi hfiled ha r
      refine .filed ?_ (hq.outstanding_next hi houtstanding ?_ h)
      · rcases hi.next_state h with ⟨a', ha, hstep⟩ | ⟨-, hsame⟩
        · rw [st_next hstep]
          refine lookup_deferred_effect hfiled ((announced_eq ha).symm.trans hannounced) ?_ ?_
            (hq.running ha)
          · intro id' hfiling
            exact (Owner.async.inj (hq.names.filing id' hfiling)).symm
          · rintro id' r o rfl hentered hsame
            obtain rfl : id = id' := Owner.async.inj (hq.others id' hsame)
            rw [hidle _ ha r rfl] at hentered
            cases hentered
        · rwa [hsame]
      · rintro id' howner a' ha r hdeliver
        obtain rfl := Owner.async.inj howner
        exact hidle a' ha r hdeliver

/-- Who has the completion of a call has called `deliver()`, or the call is claimed. -/
theorem AsyncCall.Resolves.not_preempts (hi : CallsInv obj c) {id : UInt64} {r : Resolver}
    (hr : r.Completes) (hresolves : (c.state.calls id).Resolves r value)
    (hspares : Unresolved c (.async id) → Spares callId (.async id) c a) :
    ¬ Preempts (.async id) c a := by
  intro hpreempts
  have hopen : (c.state.calls id).delivered = false := hpreempts.unresolved.1
  cases hresolves with
  | underWay houtcome hahead =>
    exact (hspares hopen).taken ⟨id, r, rfl, hr, busy_of_outcome houtcome⟩ hpreempts
  | posted hposted =>
    have hsound := ((inv_of_reachable hi.reachable).call id).sound
    rw [hsound.delivered_of_posted hposted] at hopen
    cases hopen

/-- **A call that has its completion keeps it**, whatever its deadline does. -/
theorem Answered.next (hi : CallsInv obj c) (ha : Answered callId value c owner)
    (hdefers : Unresolved c owner → Defers callId owner c a)
    (hspares : Unresolved c owner → Spares callId owner c a) (h : c.next obj a = some c') :
    ∃ v, (v = value ∨ a.announced callId = some v) ∧ Answered callId v c' owner := by
  rcases ha with hserved | ⟨id, rfl, hresolves⟩
  · have hundisturbed : Waits callId value c owner → Undisturbed callId owner c a := by
      intro hw
      have hopen := hw.unhandled.unresolved hw.outstanding
      refine ⟨(hdefers hopen).names, (hspares hopen).parked ?_, (hdefers hopen).sentinel,
        (hspares hopen).room⟩
      rw [hw.staged]
      simp
    have hahead : Resolved value c owner → ¬ Preempts owner c a := by
      intro hresolved
      cases owner with
      | async id => exact hresolved.not_preempts hi (r := .reply) trivial hspares
      | sync n =>
        rintro hpreempts
        rcases hpreempts.unresolved.1 with hwaiting | ⟨callId', hawaiting⟩
        · simp [Resolved, hwaiting] at hresolved
        · simp [Resolved, hawaiting] at hresolved
    obtain ⟨v, hv, hserved'⟩ := hserved.next hi hundisturbed hahead h
    exact ⟨v, hv, .inl hserved'⟩
  · have hahead := hresolves.not_preempts hi (r := .completion) trivial hspares
    exact ⟨value, .inl rfl, .inr ⟨id, rfl, hi.resolves_next trivial hresolves hahead h⟩⟩

/-- One step of a call that has a completion. -/
theorem Answered.announce (hi : CallsInv obj c) {v : QVariant}
    (hanswered : Answered callId v c owner) (hv : v ∈ came)
    (hdefers : Unresolved c owner → Defers callId owner c a)
    (hspares : Unresolved c owner → Spares callId owner c a) (h : c.next obj a = some c') :
    ∃ v ∈ came ++ (a.announced callId).toList, Answered callId v c' owner := by
  obtain ⟨v', hv', hanswered'⟩ := hanswered.next hi hdefers hspares h
  refine ⟨v', ?_, hanswered'⟩
  rcases hv' with rfl | hannounced
  · exact List.mem_append_left _ hv
  · exact List.mem_append_right _ (by simp [hannounced])

/-- **One step of a call that is sent**, before its deadline. -/
theorem Settles.next (hi : CallsInv obj c) (hs : Settles callId came c owner)
    (hdefers : Unresolved c owner → Defers callId owner c a)
    (hspares : Unresolved c owner → Spares callId owner c a)
    (hlate : Unresolved c owner → ¬ Late callId owner c a) (h : c.next obj a = some c') :
    Settles callId (came ++ (a.announced callId).toList) c' owner := by
  rcases hs with ⟨rfl, he⟩ | ⟨v, hv, hanswered⟩
  · have hopen := he.unresolved
    have hprompt := (hdefers hopen).prompt (hspares hopen) (hlate hopen)
    rcases he.next hi hprompt h with ⟨hnone, he'⟩ | ⟨v, hsome, hanswered⟩
    · exact .inl ⟨by simp [hnone], he'⟩
    · exact .inr ⟨v, by simp [hsome], hanswered⟩
  · exact .inr (hanswered.announce hi hv hdefers hspares h)

/-- The call has been sent. -/
theorem Settles.start (hunhandled : Unhandled callId c owner) (houtstanding : Outstanding c owner) :
    Settles callId (c.state.st.staged.entries.lookup callId).toList c owner := by
  cases hstaged : c.state.st.staged.entries.lookup callId with
  | none => exact .inl ⟨rfl, .early hunhandled houtstanding hstaged⟩
  | some v =>
    refine .inr ⟨v, by simp, .inl (.inl ⟨hunhandled, houtstanding, hstaged⟩)⟩

/-- The steps of the call itself, and of the completion handler on it. -/
def Owner.settling : Owner → List CallsAction
  | .async id => .async (.deliver id .completion) :: Owner.steps (.async id)
  | .sync n => Owner.steps (.sync n)

theorem Owner.steps_subset (owner : Owner) : owner.steps ⊆ owner.settling := by
  cases owner with
  | async id => exact List.subset_cons_self ..
  | sync n => exact List.Subset.refl _

/-- A call that has its completion does not stop before it is resolved with it. -/
theorem Answered.goesOn (ha : Answered callId value c owner) :
    Unanswered c owner ∨ Finished value c owner ∨ ∃ a ∈ owner.settling, (c.next obj a).isSome := by
  rcases ha with hserved | ⟨id, rfl, hresolves⟩
  · rcases hserved.goesOn with hwaits | hfinished | ⟨a, hin, hsome⟩
    · exact .inl hwaits
    · exact .inr (.inl hfinished)
    · exact .inr (.inr ⟨a, owner.steps_subset hin, hsome⟩)
  · rcases hresolves.goesOn with hposted | hsome
    · exact .inr (.inl hposted)
    · exact .inr (.inr ⟨_, List.mem_cons_self, hsome⟩)

end settles

end Async

end LogosProtocol
