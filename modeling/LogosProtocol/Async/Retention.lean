import LogosProtocol.Async.ExactlyOnce

/-!
# No resolved call is retained

`deliver()` leaves the registries before the claim, so a call can be registered or filed
after the `deliver()` that resolves it has left.  Whether it comes out again depends on what
is still to happen to the call: a pending or running reply handler, a posted arm, a waiting
timer, or another `deliver()`.  Three steps can take the last of these away from a call that
is still registered; such a step orphans the call.

In a run in which no step orphans a call, a call at rest is in neither registry.  The runs in
which one does have a `deliver()` that leaves the registries first and a registration or a
filing that overtakes its claim or its cancel.

## Main definitions

* `Orphans` — the steps that leave a registered call to itself.
* `AsyncCall.Resting` — nothing of the call is left to run.
* `AsyncCall.Pending` — something is still to happen that takes the call out.
-/

namespace LogosProtocol

/-- The call is in `inflight` or in `deferred`. -/
def CallState.Retains (st : CallState) (id : UInt64) : Prop :=
  id ∈ st.inflight ∨ ∃ key, st.deferred.lookup key = some id

namespace Async

/-- No handler, posted task or pending wait of the call is left, and nobody is sending or
delivering it. -/
structure AsyncCall.Resting (call : AsyncCall) : Prop where
  caller : call.caller ≠ .armed ∧ call.caller ≠ .registered
  handler : ¬ call.handler.Active
  resolver : ∀ r, call.resolver r = .idle
  strand : call.strand = []
  timer : call.timer = none

/-- The step takes from a registered call what would still have taken it out. -/
def Orphans (s : State) : Action → Prop
  -- A posted cancel aborts the wait.
  | .runStrand id =>
    (s.calls id).strand.head? = some .cancel ∧ (s.calls id).timer ≠ none ∧ s.st.Retains id
  -- The reply handler finds the call delivered.
  | .loadDelivered id => (s.calls id).delivered = true ∧ id ∈ s.st.inflight
  -- The reply handler is withdrawn from the connection.
  | .deliver id r =>
    (∃ cb o, (s.calls id).resolver r = .took cb o) ∧ (s.calls id).handler = .pending ∧
      id ∈ s.st.inflight
  | _ => False

/-! ## What is still to happen to a call -/

/-- An arm or an expired wait is queued, or a wait is pending. -/
def AsyncCall.Ticking (call : AsyncCall) : Prop :=
  (∃ reportMs, .arm reportMs ∈ call.strand ∨ .fire reportMs ∈ call.strand) ∨ call.timer ≠ none

/-- Something is still to happen that takes the call out of the registries. -/
def AsyncCall.Pending (call : AsyncCall) : Prop :=
  call.caller = .registered ∨ call.handler.Active ∨
    (∃ r o, call.resolver r = .entered o) ∨ call.Ticking

theorem AsyncCall.Resting.not_pending {call : AsyncCall} (h : call.Resting) : ¬ call.Pending := by
  intro hpending
  rcases hpending with hregistered | hactive | ⟨r, o, hentered⟩ | ⟨reportMs, hqueued⟩ | hwaiting
  · exact h.caller.2 hregistered
  · exact h.handler hactive
  · rw [h.resolver r] at hentered
    cases hentered
  · rw [h.strand] at hqueued
    rcases hqueued with hqueued | hqueued <;> cases hqueued
  · exact hwaiting h.timer

/-- A handler that is going to file the call has a call id to do so under. -/
def HandlerPc.Named : HandlerPc → Prop
  | deferring callId => callId ≠ []
  | filing callId => callId ≠ []
  | _ => True

/-- What holds of a call and the registries. -/
structure Chased (st : CallState) (id : UInt64) (call : AsyncCall) : Prop where
  named : call.handler.Named
  /-- A call is filed under its own call id, by its handler. -/
  filed : ∀ key, st.deferred.lookup key = some id →
    call.callId = key ∧ key ≠ [] ∧ (call.handler = .filed ∨ call.handler = .returned)
  pending : st.Retains id → call.Pending

/-- What every reachable state satisfies. -/
structure RetentionInv (s : State) : Prop where
  call : ∀ id, Chased s.st id (s.calls id)
  /-- Once teardown has raised `stopping`, nothing is filed. -/
  stopped : s.st.stopping = true → ∀ key, s.st.deferred.lookup key = none
  gone : s.stateGone = true → s.st.stopping = true

section calls
variable {st st' : CallState} {id : UInt64} {call call' : AsyncCall} {r : Resolver}

/-- Fewer registrations are as well chased. -/
theorem Chased.mono (h : Chased st id call) (hinflight : id ∈ st'.inflight → id ∈ st.inflight)
    (hdeferred : ∀ key, st'.deferred.lookup key = some id → st.deferred.lookup key = some id) :
    Chased st' id call where
  named := h.named
  filed key hlookup := h.filed key (hdeferred key hlookup)
  pending hretains := by
    apply h.pending
    rcases hretains with hin | ⟨key, hlookup⟩
    · exact .inl (hinflight hin)
    · exact .inr ⟨key, hdeferred key hlookup⟩

/-- A call that moves without its handler stays chased while something is pending. -/
theorem Chased.congr (h : Chased st id call) (hcallId : call'.callId = call.callId)
    (hhandler : call'.handler = call.handler)
    (hpending : st.Retains id → call.Pending → call'.Pending) : Chased st id call' where
  named := by
    rw [hhandler]
    exact h.named
  filed := by
    rw [hcallId, hhandler]
    exact h.filed
  pending hretains := hpending hretains (h.pending hretains)

/-- Before its handler has filed it, a call is not in `deferred`. -/
theorem Chased.not_filed (h : Chased st id call) {handler : HandlerPc}
    (hhandler : call.handler = handler) (hfiled : handler ≠ .filed)
    (hreturned : handler ≠ .returned) (key : QString) : st.deferred.lookup key ≠ some id := by
  intro hlookup
  rcases (h.filed key hlookup).2.2 with heq | heq
  · exact hfiled (hhandler.symm.trans heq)
  · exact hreturned (hhandler.symm.trans heq)

/-- A `deliver()` that begins will take the call out. -/
theorem Chased.deliver (h : Chased st id call) (r : Resolver) (o : Outcome) :
    Chased st id (call.deliver r o) := by
  refine h.congr rfl rfl ?_
  intro _ _
  exact .inr (.inr (.inl ⟨r, o, call.resolver_setResolver_self r _⟩))

/-- So will one that the reply handler begins as it returns. -/
theorem Chased.deliverReply (h : Chased st id call) (o : Outcome) :
    Chased st id ({ call with handler := .returned }.deliver .reply o) where
  named := trivial
  filed key hlookup := by
    obtain ⟨hcallId, hkey, -⟩ := h.filed key hlookup
    exact ⟨hcallId, hkey, .inr rfl⟩
  pending _ := .inr (.inr (.inl ⟨.reply, o, AsyncCall.resolver_setResolver_self ..⟩))

/-- The handler moves before it has filed the call. -/
theorem chased_of_unfiled (handler : HandlerPc)
    (hunfiled : ∀ key, st.deferred.lookup key ≠ some id)
    (hnamed : handler.Named)
    (hactive : id ∈ st.inflight → handler.Active) :
    Chased st id { call with handler := handler } where
  named := hnamed
  filed key hlookup := absurd hlookup (hunfiled key)
  pending hretains := by
    rcases hretains with hin | ⟨key, hlookup⟩
    · exact .inr (.inl (hactive hin))
    · exact absurd hlookup (hunfiled key)

theorem Chased.handleReply (h : Chased st id call) {res : Reply}
    (hres : call.handler = .answered res) (obj : Bytes) (gone : Bool) :
    Chased st id (call.handleReply obj gone res) := by
  unfold AsyncCall.handleReply
  simp only
  split
  · exact h.deliverReply _
  split
  · exact h.deliverReply _
  · rename_i callId hsentinel
    split
    · exact h.deliverReply _
    · apply chased_of_unfiled
      · exact h.not_filed hres (by simp) (by simp)
      · exact ne_nil_of_isPendingCallSentinel hsentinel
      · intro _
        trivial

theorem Chased.sweep (h : Chased st id call) (reason : Bytes) :
    Chased st id (call.sweep reason) := by
  unfold AsyncCall.sweep
  split
  · rename_i hpending
    apply chased_of_unfiled
    · exact h.not_filed hpending (by simp) (by simp)
    · trivial
    · intro _
      trivial
  · exact h

/-- The timer moves on. -/
theorem Chased.setTimer (h : Chased st id call) (strand : List TimerTask) (timer : Option Int)
    (hticking : st.Retains id → call.Ticking →
      { call with strand := strand, timer := timer }.Ticking) :
    Chased st id { call with strand := strand, timer := timer } := by
  refine h.congr rfl rfl ?_
  intro hretains hpending
  rcases hpending with hregistered | hactive | hentered | hold
  · exact .inl hregistered
  · exact .inr (.inl hactive)
  · exact .inr (.inr (.inl hentered))
  · exact .inr (.inr (.inr (hticking hretains hold)))

/-- A cancel that runs while a wait is pending stops the clock, so the call must be out. -/
theorem Chased.runStrand (h : Chased st id call) {obj : Bytes}
    (hstep : call.runStrand obj = some call')
    (hkept : call.strand.head? = some .cancel → call.timer ≠ none → ¬ st.Retains id) :
    Chased st id call' := by
  unfold AsyncCall.runStrand at hstep
  split at hstep
  · rename_i reportMs rest _ _
    cases hstep
    apply h.setTimer
    intro _ _
    exact .inr (by simp)
  · rename_i rest _ hstrand
    cases hstep
    apply h.setTimer
    intro hretains hticking
    rcases hticking with ⟨reportMs, hqueued⟩ | hwaiting
    · rw [hstrand] at hqueued
      refine .inl ⟨reportMs, ?_⟩
      simpa using hqueued
    · exact absurd hretains (hkept (by simp [hstrand]) hwaiting)
  · rename_i reportMs rest _ hstrand
    cases hstep
    have hdeliver := h.deliver .deadline { err := callErrorTimeout obj call.method reportMs }
    refine hdeliver.congr rfl rfl ?_
    intro _ _
    exact .inr (.inr (.inl ⟨.deadline, _, AsyncCall.resolver_setResolver_self ..⟩))
  · cases hstep

/-- A resolver that has left the registries takes nothing away when it moves. -/
theorem AsyncCall.Pending.setResolver (h : call.Pending) {pc : DeliverPc}
    (hpc : call.resolver r = pc) (hleft : ∀ o, pc ≠ .entered o) (pc' : DeliverPc) :
    (call.setResolver r pc').Pending := by
  rcases h with hregistered | hactive | ⟨r', o, hentered⟩ | hticking
  · exact .inl hregistered
  · exact .inr (.inl hactive)
  · have hr : r' ≠ r := by
      intro heq
      rw [heq, hpc] at hentered
      exact hleft o hentered
    exact .inr (.inr (.inl ⟨r', o, (call.resolver_setResolver_of_ne hr pc').trans hentered⟩))
  · exact .inr (.inr (.inr hticking))

/-- `cancelPending` may take the handler away, so the call must not be in flight. -/
theorem Chased.cancelPending (h : Chased st id call)
    (hkept : call.handler = .pending → id ∉ st.inflight) : Chased st id call.cancelPending := by
  unfold AsyncCall.cancelPending
  split
  · rename_i hpending
    apply chased_of_unfiled
    · exact h.not_filed hpending (by simp) (by simp)
    · trivial
    · intro hin
      exact absurd hin (hkept hpending)
  · exact h

/-- The steps of a `deliver()` that has left the registries. -/
theorem Chased.resolve (h : Chased st id call) {pc : DeliverPc} (hpc : call.resolver r = pc)
    (hstep : call.resolve r pc = some call')
    (hkept : ∀ cb o, pc = .took cb o → call.handler = .pending → id ∉ st.inflight) :
    Chased st id call' := by
  cases pc with
  | idle => cases hstep
  | entered o => cases hstep
  | left o =>
    simp only [AsyncCall.resolve] at hstep
    split at hstep
    · cases hstep
      exact h.congr rfl rfl fun _ hpending => hpending.setResolver hpc (by simp) .idle
    · cases hstep
      exact h.congr rfl rfl fun _ hpending => hpending.setResolver hpc (by simp) (.claimed o)
  | claimed o =>
    cases hstep
    exact h.congr rfl rfl fun _ hpending =>
      hpending.setResolver hpc (by simp) (.took call.callback o)
  | took cb o =>
    cases hstep
    have hcancelled := h.cancelPending (hkept cb o rfl)
    have hpc' : call.cancelPending.resolver r = .took cb o := by
      rw [AsyncCall.resolver_cancelPending, hpc]
    exact hcancelled.congr rfl rfl fun _ hpending =>
      hpending.setResolver hpc' (by simp) (.withdrew cb o)
  | withdrew cb o =>
    cases hstep
    have hcancelled : Chased st id call.cancelTimer := by
      apply h.setTimer
      intro _ hticking
      rcases hticking with ⟨reportMs, hqueued⟩ | hwaiting
      · refine .inl ⟨reportMs, ?_⟩
        simpa using hqueued
      · exact .inr hwaiting
    exact hcancelled.congr rfl rfl fun _ hpending =>
      hpending.setResolver hpc (by simp) (.cancelled cb o)
  | cancelled cb o =>
    cases hstep
    exact h.congr rfl rfl fun _ hpending => hpending.setResolver hpc (by simp) .idle

end calls

/-! ## Every action -/

section actions
variable {obj : Bytes} {s s' : State} {id : UInt64}

/-- One call moves, and of the others no more are registered than before. -/
theorem RetentionInv.modify (hi : RetentionInv s) (st : CallState) (id : UInt64)
    (f : AsyncCall → AsyncCall)
    (hinflight : ∀ id', id' ≠ id → id' ∈ st.inflight → id' ∈ s.st.inflight)
    (hdeferred : ∀ id', id' ≠ id → ∀ key, st.deferred.lookup key = some id' →
      s.st.deferred.lookup key = some id')
    (hstopping : st.stopping = s.st.stopping)
    (hstopped : st.stopping = true → ∀ key, st.deferred.lookup key = none)
    (hcall : Chased st id (f (s.calls id))) :
    RetentionInv ({ s with st := st }.modify id f) where
  call id' := by
    by_cases hid : id' = id
    · rw [hid, State.calls_modify_self]
      exact hcall
    · rw [State.calls_modify_of_ne _ hid]
      exact (hi.call id').mono (hinflight id' hid) (hdeferred id' hid)
  stopped := hstopped
  gone hgone := hstopping.trans (hi.gone hgone)

/-- One call moves, and the registries stay as they are. -/
theorem RetentionInv.modifyCall (hi : RetentionInv s) (id : UInt64) (f : AsyncCall → AsyncCall)
    (hcall : Chased s.st id (f (s.calls id))) : RetentionInv (s.modify id f) :=
  hi.modify s.st id f (fun _ _ hin => hin) (fun _ _ _ hlookup => hlookup) rfl hi.stopped hcall

/-- No more is registered than before. -/
theorem RetentionInv.withState (hi : RetentionInv s) (st : CallState)
    (hinflight : st.inflight = s.st.inflight)
    (hdeferred : ∀ key id, st.deferred.lookup key = some id → s.st.deferred.lookup key = some id)
    (hstopping : st.stopping = s.st.stopping) : RetentionInv { s with st := st } where
  call id := by
    apply (hi.call id).mono
    · intro hin
      exact hinflight ▸ hin
    · exact fun key => hdeferred key id
  stopped hstop key := by
    cases hlookup : st.deferred.lookup key with
    | none => rfl
    | some id =>
      have hnone := hi.stopped (hstopping ▸ hstop) key
      rw [hdeferred key id hlookup] at hnone
      cases hnone
  gone hgone := hstopping.trans (hi.gone hgone)

theorem retention_initial : RetentionInv {} where
  call id := by
    refine ⟨?_, ?_, ?_⟩
    · trivial
    · intro key hlookup
      cases hlookup
    · intro hretains
      rcases hretains with hin | ⟨key, hlookup⟩
      · cases hin
      · cases hlookup
  stopped h := by cases h
  gone h := by cases h

theorem retention_callAsync (hi : RetentionInv s) {method : Bytes} {timeoutMs : Int}
    (h : next obj s (.callAsync id method timeoutMs) = some s') : RetentionInv s' := by
  simp only [next] at h
  split at h
  · rename_i hidle
    cases h
    apply hi.modifyCall
    refine (hi.call id).congr rfl rfl ?_
    intro _ hpending
    rcases hpending with hregistered | hactive | hentered | ⟨reportMs, hqueued⟩ | hwaiting
    · rw [hidle] at hregistered
      cases hregistered
    · exact .inr (.inl hactive)
    · exact .inr (.inr (.inl hentered))
    · refine .inr (.inr (.inr (.inl ⟨reportMs, ?_⟩)))
      rcases hqueued with hqueued | hqueued
      · exact .inl (List.mem_append_left _ hqueued)
      · exact .inr (List.mem_append_left _ hqueued)
    · exact .inr (.inr (.inr (.inr hwaiting)))
  · cases h

theorem retention_register (hi : RetentionInv s) (h : next obj s (.register id) = some s') :
    RetentionInv s' := by
  simp only [next] at h
  split at h
  · rename_i harmed
    split at h
    · cases h
      apply hi.modifyCall
      refine ((hi.call id).deliver .caller
        { err := callErrorReleased obj (s.calls id).method }).congr rfl rfl ?_
      intro _ _
      exact .inr (.inr (.inl ⟨.caller, _, AsyncCall.resolver_setResolver_self ..⟩))
    · rename_i hrunning
      cases h
      have hc := hi.call id
      apply hi.modify (s.st.emplaceInflight id) id
      · intro id' hid hin
        rcases (CallState.mem_inflight_emplaceInflight ..).mp hin with heq | hin
        · exact absurd heq hid
        · exact hin
      · exact fun _ _ _ hlookup => hlookup
      · rfl
      · exact hi.stopped
      · exact ⟨hc.named, hc.filed, fun _ => .inl rfl⟩
  · cases h

theorem retention_sendCallAsync (hsound : (s.calls id).Sound) (hi : RetentionInv s)
    (h : next obj s (.sendCallAsync id) = some s') : RetentionInv s' := by
  simp only [next] at h
  split at h
  · rename_i hregistered
    cases h
    have hc := hi.call id
    have hunregistered := hsound.unregistered (by simp [hregistered])
    apply hi.modifyCall
    refine ⟨?_, ?_, fun _ => .inr (.inl trivial)⟩
    · trivial
    · intro key hlookup
      exact absurd hlookup (hc.not_filed hunregistered (by simp) (by simp) key)
  · cases h

theorem retention_answer (hi : RetentionInv s) {res : Reply}
    (h : next obj s (.answer id res) = some s') : RetentionInv s' := by
  simp only [next] at h
  split at h
  · rename_i hpending
    cases h
    apply hi.modifyCall
    apply chased_of_unfiled
    · exact (hi.call id).not_filed hpending (by simp) (by simp)
    · trivial
    · intro _
      trivial
  · cases h

theorem retention_fail (hi : RetentionInv s) {reason : Bytes}
    (h : next obj s (.fail reason) = some s') : RetentionInv s' := by
  cases h
  exact ⟨fun id => (hi.call id).sweep reason, hi.stopped, hi.gone⟩

theorem retention_handleReply (hi : RetentionInv s)
    (h : next obj s (.handleReply id) = some s') : RetentionInv s' := by
  simp only [next] at h
  split at h
  · rename_i res hanswered
    cases h
    exact hi.modifyCall id _ ((hi.call id).handleReply hanswered obj s.stateGone)
  · cases h

theorem retention_loadDelivered (hi : RetentionInv s) (hkept : ¬ Orphans s (.loadDelivered id))
    (h : next obj s (.loadDelivered id) = some s') : RetentionInv s' := by
  simp only [next] at h
  split at h
  · rename_i callId hdeferring
    cases h
    have hc := hi.call id
    apply hi.modifyCall
    apply chased_of_unfiled
    · exact hc.not_filed hdeferring (by simp) (by simp)
    · have hnamed := hc.named
      rw [hdeferring] at hnamed
      split
      · trivial
      · exact hnamed
    · intro hin
      split
      · rename_i hdelivered
        exact absurd ⟨hdelivered, hin⟩ hkept
      · trivial
  · cases h

theorem retention_fileDeferred (hi : RetentionInv s)
    (h : next obj s (.fileDeferred id) = some s') : RetentionInv s' := by
  simp only [next] at h
  split at h
  · rename_i callId hfiling
    cases h
    have hc := hi.call id
    have hunfiled := hc.not_filed hfiling (by simp) (by simp)
    have hnamed : callId ≠ [] := by
      have h := hc.named
      rwa [hfiling] at h
    unfold State.fileDeferred
    split
    · rename_i buffered st htake
      obtain ⟨hinflight, hdeferred, hstopping⟩ := CallState.registries_of_takeCompletion htake
      have hi' := hi.withState st hinflight (fun _ _ hlookup => hdeferred ▸ hlookup) hstopping
      exact hi'.modifyCall id _ ((hi'.call id).deliverReply _)
    split
    · exact hi.modifyCall id _ (hc.deliverReply _)
    · rename_i hrunning
      apply hi.modify { s.st with deferred := s.st.deferred.insert callId id } id
      · exact fun _ _ hin => hin
      · intro id' hid key hlookup
        by_cases hkey : key = callId
        · subst hkey
          rw [AList.lookup_insert] at hlookup
          exact absurd (Option.some.inj hlookup).symm hid
        · rwa [AList.lookup_insert_ne hkey] at hlookup
      · rfl
      · exact fun hstopping => absurd hstopping hrunning
      · refine ⟨?_, ?_, fun _ => .inr (.inl trivial)⟩
        · trivial
        · intro key hlookup
          by_cases hkey : key = callId
          · rw [hkey]
            exact ⟨rfl, hnamed, .inl rfl⟩
          · rw [AList.lookup_insert_ne hkey] at hlookup
            exact absurd hlookup (hunfiled key)
  · cases h

theorem retention_rearm (hi : RetentionInv s) (h : next obj s (.rearm id) = some s') :
    RetentionInv s' := by
  simp only [next] at h
  split at h
  · rename_i hfiled
    cases h
    apply hi.modifyCall
    refine ⟨?_, ?_, ?_⟩
    · trivial
    · intro key hlookup
      obtain ⟨hcallId, hkey, -⟩ := (hi.call id).filed key hlookup
      exact ⟨hcallId, hkey, .inr rfl⟩
    · intro _
      refine .inr (.inr (.inr (.inl ⟨effectiveMs (s.calls id).timeoutMs, .inl ?_⟩)))
      exact List.mem_append_right _ (List.mem_singleton_self _)
  · cases h

theorem retention_runStrand (hi : RetentionInv s) (hkept : ¬ Orphans s (.runStrand id))
    (h : next obj s (.runStrand id) = some s') : RetentionInv s' := by
  simp only [next, Option.map_eq_some_iff] at h
  obtain ⟨call, hstep, rfl⟩ := h
  apply hi.modifyCall
  apply (hi.call id).runStrand hstep
  intro hcancel hwaiting hretains
  exact hkept ⟨hcancel, hwaiting, hretains⟩

theorem retention_expire (hi : RetentionInv s) (h : next obj s (.expire id) = some s') :
    RetentionInv s' := by
  simp only [next] at h
  split at h
  · rename_i reportMs _
    cases h
    apply hi.modifyCall
    apply (hi.call id).setTimer
    intro _ _
    exact .inl ⟨reportMs, .inr (List.mem_append_right _ (List.mem_singleton_self _))⟩
  · cases h

theorem retention_completion (hi : RetentionInv s) {callId : QString} {value : QVariant}
    (h : next obj s (.completion callId value) = some s') : RetentionInv s' := by
  simp only [next] at h
  split at h
  · cases h
    exact hi
  split at h
  · cases h
    apply hi.withState
    · exact CallState.inflight_parkCompletion ..
    · intro key id hlookup
      rwa [CallState.deferred_parkCompletion] at hlookup
    · exact CallState.stopping_parkCompletion ..
  · split at h
    · cases h
      have hi' : RetentionInv
          { s with st := { s.st with deferred := s.st.deferred.erase callId } } := by
        refine hi.withState { s.st with deferred := s.st.deferred.erase callId } rfl ?_ rfl
        intro key id hlookup
        by_cases hkey : key = callId
        · subst hkey
          simp at hlookup
        · rwa [AList.lookup_erase_ne hkey] at hlookup
      exact hi'.modifyCall _ _ ((hi'.call _).deliver _ _)
    · cases h

/-- A `deliver()` takes the call out of both registries, if they are still there. -/
theorem RetentionInv.not_retains_leave (hi : RetentionInv s) (id : UInt64) :
    ¬ (s.st.leave id (s.calls id).callId).Retains id := by
  intro hretains
  rcases hretains with hin | ⟨key, hlookup⟩
  · exact ((CallState.mem_inflight_leave ..).mp hin).2 rfl
  · obtain ⟨hlookup, hne⟩ := s.st.lookup_deferred_leave hlookup
    obtain ⟨hcallId, hkey, -⟩ := (hi.call id).filed key hlookup
    rw [hcallId] at hne
    exact hne hkey rfl

theorem retention_deliver (hinv : Inv s) (hi : RetentionInv s) {r : Resolver}
    (hkept : ¬ Orphans s (.deliver id r)) (h : next obj s (.deliver id r) = some s') :
    RetentionInv s' := by
  have hc := hi.call id
  simp only [next] at h
  split at h
  · rename_i o hentered
    cases h
    unfold State.leaveRegistries
    split
    · rename_i hgone
      -- The registries went with the state: teardown had emptied them.
      have hstopping := hi.gone hgone
      have hempty : ¬ s.st.Retains id := by
        intro hretains
        rcases hretains with hin | ⟨key, hlookup⟩
        · rw [hinv.stopped hstopping] at hin
          cases hin
        · rw [hi.stopped hstopping key] at hlookup
          cases hlookup
      apply hi.modifyCall
      refine hc.congr rfl rfl ?_
      intro hretains
      exact absurd hretains hempty
    · apply hi.modify (s.st.leave id (s.calls id).callId) id
      · intro id' _ hin
        exact ((CallState.mem_inflight_leave ..).mp hin).1
      · intro id' _ key hlookup
        exact (s.st.lookup_deferred_leave hlookup).1
      · exact CallState.stopping_leave ..
      · intro hstopping key
        rw [CallState.stopping_leave] at hstopping
        cases hlookup : (s.st.leave id (s.calls id).callId).deferred.lookup key with
        | none => rfl
        | some id' =>
          have hnone := hi.stopped hstopping key
          rw [(s.st.lookup_deferred_leave hlookup).1] at hnone
          cases hnone
      · have hleft : Chased (s.st.leave id (s.calls id).callId) id (s.calls id) := by
          apply hc.mono
          · intro hin
            exact ((CallState.mem_inflight_leave ..).mp hin).1
          · intro key hlookup
            exact (s.st.lookup_deferred_leave hlookup).1
        refine hleft.congr rfl rfl ?_
        intro hretains
        exact absurd hretains (hi.not_retains_leave id)
  · rename_i pc _
    simp only [Option.map_eq_some_iff] at h
    obtain ⟨call, hstep, rfl⟩ := h
    apply hi.modifyCall
    apply hc.resolve rfl hstep
    intro cb o htook hpending hin
    exact hkept ⟨⟨cb, o, htook⟩, hpending, hin⟩

theorem retention_stopAndCancelCalls (hi : RetentionInv s)
    (h : next obj s .stopAndCancelCalls = some s') : RetentionInv s' := by
  have hstart : ∀ teardown, RetentionInv { s with st := s.st.stop, teardown := teardown } := by
    intro teardown
    refine ⟨?_, fun _ _ => rfl, fun _ => rfl⟩
    intro id
    apply (hi.call id).mono
    · intro hin
      cases hin
    · intro key hlookup
      cases hlookup
  simp only [next] at h
  split at h
  · cases h
    exact hstart _
  · cases h
    exact hstart _
  · cases h

theorem retention_cancelNext (hi : RetentionInv s) (h : next obj s .cancelNext = some s') :
    RetentionInv s' := by
  simp only [next] at h
  split at h
  · cases h
    exact ⟨hi.call, hi.stopped, hi.gone⟩
  · rename_i id outstanding _
    cases h
    have hi' : RetentionInv { s with teardown := .delivering id outstanding } :=
      ⟨hi.call, hi.stopped, hi.gone⟩
    exact hi'.modifyCall id _ ((hi'.call id).deliver _ _)
  · split at h
    · cases h
      exact ⟨hi.call, hi.stopped, hi.gone⟩
    · cases h
  · cases h

/-- **The invariant is kept by every step that orphans no call.** -/
theorem RetentionInv.next {a : Action} (hinv : Inv s) (hi : RetentionInv s)
    (hkept : ¬ Orphans s a) (h : Async.next obj s a = some s') : RetentionInv s' := by
  cases a with
  | callAsync id method timeoutMs => exact retention_callAsync hi h
  | register id => exact retention_register hi h
  | sendCallAsync id => exact retention_sendCallAsync (hinv.call id).sound hi h
  | answer id res => exact retention_answer hi h
  | fail reason => exact retention_fail hi h
  | handleReply id => exact retention_handleReply hi h
  | loadDelivered id => exact retention_loadDelivered hi hkept h
  | fileDeferred id => exact retention_fileDeferred hi h
  | rearm id => exact retention_rearm hi h
  | runStrand id => exact retention_runStrand hi hkept h
  | expire id => exact retention_expire hi h
  | completion callId value => exact retention_completion hi h
  | deliver id r => exact retention_deliver hinv hi hkept h
  | stopAndCancelCalls => exact retention_stopAndCancelCalls hi h
  | cancelNext => exact retention_cancelNext hi h
  | enterSync =>
    cases h
    exact hi.withState s.st.enterSync rfl (fun _ _ hlookup => hlookup) rfl
  | awaitCompletion callId =>
    simp only [Async.next] at h
    split at h
    · rename_i value st htake
      cases h
      obtain ⟨hinflight, hdeferred, hstopping⟩ := CallState.registries_of_takeCompletion htake
      exact hi.withState st hinflight (fun _ _ hlookup => hdeferred ▸ hlookup) hstopping
    · cases h
      exact hi
  | leaveSync =>
    simp only [Async.next, Option.ite_none_right_eq_some, Option.some.injEq] at h
    obtain ⟨-, rfl⟩ := h
    apply hi.withState s.st.leaveSync (CallState.inflight_dropUnclaimedIfIdle _)
    · intro key id hlookup
      rwa [CallState.leaveSync, CallState.deferred_dropUnclaimedIfIdle] at hlookup
    · exact CallState.stopping_dropUnclaimedIfIdle _
  | dropState =>
    simp only [Async.next, Option.ite_none_right_eq_some, Option.some.injEq] at h
    obtain ⟨hfinished, rfl⟩ := h
    exact ⟨hi.call, hi.stopped, fun _ => hinv.stopping (by simp [hfinished])⟩

theorem retentionInv_of_reachable
    (h : ((handle obj).restrict fun s a => ¬ Orphans s a).Reachable s) : RetentionInv s := by
  have hboth : Inv s ∧ RetentionInv s := by
    apply h.invariant
    · intro s₀ hs₀
      rw [hs₀]
      exact ⟨inv_initial, retention_initial⟩
    · intro s a s' hi hstep
      exact ⟨hi.1.next hstep.1, hi.2.next hi.1 hstep.2 hstep.1⟩
  exact hboth.2

/-- **No retention.**  In a run whose steps orphan no call, a call at rest is in neither
registry. -/
theorem not_retained
    (h : ((handle obj).restrict fun s a => ¬ Orphans s a).Reachable s) (id : UInt64)
    (hresting : (s.calls id).Resting) : ¬ s.st.Retains id := by
  intro hretains
  exact hresting.not_pending (((retentionInv_of_reachable h).call id).pending hretains)

end actions

/-- The reply comes in time, and the strand runs the arm and the cancel. -/
theorem not_retained_answered :
    ∃ s, ((handle (bstr "o")).restrict fun s a => ¬ Orphans s a).Reachable s ∧
      (s.calls 1).posted ≠ [] ∧ ¬ s.st.Retains 1 := by
  have hinit : ((handle (bstr "o")).restrict fun s a => ¬ Orphans s a).Reachable {} := .init rfl
  have hcalled := hinit.next (.callAsync 1 (bstr "m") 20) id rfl
  have hregistered := hcalled.next (.register 1) id rfl
  have hsent := hregistered.next (.sendCallAsync 1) id rfl
  have hanswered := hsent.next (.answer 1 { ok := true }) id rfl
  have hreplied := hanswered.next (.handleReply 1) id rfl
  have hleft := hreplied.next (.deliver 1 .reply) (fun h => by cases h.2.1) rfl
  have hclaimed := hleft.next (.deliver 1 .reply) (fun h => by cases h.2.1) rfl
  have htook := hclaimed.next (.deliver 1 .reply) (fun h => by cases h.2.1) rfl
  have hwithdrew := htook.next (.deliver 1 .reply) (fun h => by cases h.2.1) rfl
  have hcancelled := hwithdrew.next (.deliver 1 .reply) (fun h => by cases h.2.1) rfl
  have hposted := hcancelled.next (.deliver 1 .reply) (fun h => by cases h.2.1) rfl
  have harmed := hposted.next (.runStrand 1) (fun h => by cases h.1) rfl
  have hdone := harmed.next (.runStrand 1)
    (fun h => by rcases h.2.2 with hin | ⟨key, hlookup⟩ <;> cases ‹_›) rfl
  refine ⟨_, hdone, ?_, not_retained hdone 1 ⟨⟨?_, ?_⟩, ?_, ?_, rfl, rfl⟩⟩
  · exact fun h => by cases h
  · exact fun h => by cases h
  · exact fun h => by cases h
  · exact fun h => by cases h
  · intro r
    cases r <;> rfl

/-- The answer of a provider that defers, under the call id `c`. -/
def sentinel : Reply where
  ok := true
  value := .map [(pendingCallKey, .string (qstr "c"))]

/-- The deadline has left the registries when the reply handler files the call; the handler
posts the second arm before the deadline's `deliver()` posts its cancel. -/
def slowSentinel : List Action :=
  deadlinePasses ++ [.deliver 1 .deadline, .answer 1 sentinel, .handleReply 1, .loadDelivered 1,
    .fileDeferred 1, .rearm 1, .deliver 1 .deadline, .deliver 1 .deadline, .deliver 1 .deadline,
    .deliver 1 .deadline, .deliver 1 .deadline, .runStrand 1, .runStrand 1]

/-- The deadline has resolved the call before `callAsync` registers it, so the handler returns
at once. -/
def lateRegistration : List Action :=
  [.callAsync 1 (bstr "m") 0, .runStrand 1, .expire 1, .runStrand 1, .deliver 1 .deadline,
    .deliver 1 .deadline, .deliver 1 .deadline, .deliver 1 .deadline, .deliver 1 .deadline,
    .deliver 1 .deadline, .runStrand 1, .register 1, .sendCallAsync 1, .answer 1 sentinel,
    .handleReply 1, .loadDelivered 1]

/-- The deadline has left the registries before `callAsync` registers the call, and withdraws
the handler. -/
def lateWithdrawal : List Action :=
  [.callAsync 1 (bstr "m") 0, .runStrand 1, .expire 1, .runStrand 1, .deliver 1 .deadline,
    .register 1, .sendCallAsync 1, .deliver 1 .deadline, .deliver 1 .deadline,
    .deliver 1 .deadline, .deliver 1 .deadline, .deliver 1 .deadline, .runStrand 1]

/-- Each step that orphans a call does leave one behind: a cancel that aborts the second
deadline, a handler that returns, a handler that is withdrawn. -/
theorem retained_at_rest {as : List Action}
    (has : as ∈ [slowSentinel, lateRegistration, lateWithdrawal]) :
    ∃ s, TransitionSystem.Run (handle (bstr "o")) {} as s ∧ (s.calls 1).posted ≠ [] ∧
      (s.calls 1).Resting ∧ s.st.Retains 1 := by
  let final := (TransitionSystem.exec (next (bstr "o")) {} as).getD {}
  simp only [List.mem_cons, List.not_mem_nil, or_false] at has
  rcases has with rfl | rfl | rfl
  · refine ⟨final, TransitionSystem.run_of_exec rfl, (fun h => by cases h), ?_,
      .inr ⟨qstr "c", rfl⟩⟩
    exact ⟨⟨(fun h => by cases h), (fun h => by cases h)⟩, (fun h => by cases h),
      (fun r => by cases r <;> rfl), rfl, rfl⟩
  · refine ⟨final, TransitionSystem.run_of_exec rfl, (fun h => by cases h), ?_,
      .inl (List.mem_singleton_self 1)⟩
    exact ⟨⟨(fun h => by cases h), (fun h => by cases h)⟩, (fun h => by cases h),
      (fun r => by cases r <;> rfl), rfl, rfl⟩
  · refine ⟨final, TransitionSystem.run_of_exec rfl, (fun h => by cases h), ?_,
      .inl (List.mem_singleton_self 1)⟩
    exact ⟨⟨(fun h => by cases h), (fun h => by cases h)⟩, (fun h => by cases h),
      (fun r => by cases r <;> rfl), rfl, rfl⟩

/-- The cancel that belongs to the first deadline aborts the second one, and the call stays
in `deferred`. -/
theorem slowSentinel_retained :
    ¬ ∀ s, (handle (bstr "o")).Reachable s → ∀ id, (s.calls id).posted ≠ [] →
      (s.calls id).Resting → ¬ s.st.Retains id := by
  intro hall
  obtain ⟨s, hrun, hposted, hresting, hretains⟩ := retained_at_rest (List.mem_cons_self ..)
  exact hall s ⟨_, slowSentinel, rfl, hrun⟩ 1 hposted hresting hretains

end Async

end LogosProtocol
