import LogosProtocol.Async.SyncCalls

/-!
# What resolves a call

A call is claimed, and its callback handed over, by a `deliver()` on it and by nothing else; its
reply handler moves by its own steps.  So a call on which the reply handler, or the completion
handler, has called `deliver()` with a value is resolved with that value, unless its deadline or
teardown comes before it.

## Main definitions

* `Untouched` — what a step does to a call that it does not deliver.
* `AsyncCall.Resolves` — a resolver is in `deliver()` with a value, or the callback has it.
* `AsyncCall.Claiming` — a resolver claims the call with its next step.
-/

namespace LogosProtocol

namespace Async

/-! ## What a step leaves as it is -/

/-- Registered with the connection, and the reply is not there or is a sentinel with this id. -/
def HandlerPc.Awaits (callId : QString) : HandlerPc → Prop
  | pending => True
  | answered res => res.ok = true ∧ isPendingCallSentinel res.value = some callId
  | deferring callId' | filing callId' => callId' = callId
  | _ => False

/-- The reply handler of the call takes a step. -/
def Action.Handles (id : UInt64) : Action → Prop
  | .answer id' _ | .handleReply id' | .loadDelivered id' | .fileDeferred id' => id = id'
  | .fail _ => True
  | _ => False

/-- What a step does to a call that it does not deliver. -/
structure Untouched (handles : Prop) (call call' : AsyncCall) : Prop where
  delivered : call'.delivered = call.delivered
  posted : call'.posted = call.posted
  reply : ¬ call.handler.Active → call'.resolver .reply = call.resolver .reply
  completion : call.resolver .completion ≠ .idle →
    call'.resolver .completion = call.resolver .completion
  handler : ∀ {callId}, call.handler.Awaits callId → ¬ handles → call'.handler = call.handler

section frames
variable {obj : Bytes} {s s' : State} {a : Action}

/-- A call leaves `inflight` by a `deliver()` on it, or by teardown. -/
theorem mem_inflight_effect (s : State) {id : UInt64} (hin : id ∈ s.st.inflight)
    (hdeliver : ∀ r, a = .deliver id r → (s.calls id).resolver r = .idle)
    (hstop : a ≠ .stopAndCancelCalls) : id ∈ (effect s a).inflight := by
  cases a with
  | register id' =>
    simp only [effect]
    split_ifs
    · exact hin
    · exact (CallState.mem_inflight_emplaceInflight ..).mpr (.inr hin)
  | fileDeferred id' =>
    simp only [effect]
    split
    · rename_i callId hfiling
      cases htake : s.st.takeCompletion callId with
      | some taken =>
        rw [(CallState.registries_of_takeCompletion htake).1]
        exact hin
      | none =>
        dsimp only
        split_ifs <;> exact hin
    · exact hin
  | completion callId value =>
    simp only [effect]
    split_ifs
    · exact hin
    · cases s.st.deferred.lookup callId with
      | none => exact (CallState.inflight_parkCompletion ..).symm ▸ hin
      | some id => exact hin
  | deliver id' r =>
    simp only [effect]
    split
    · rename_i o hentered
      have hne : id ≠ id' := by
        rintro rfl
        rw [hdeliver r rfl] at hentered
        cases hentered
      obtain ⟨st, heq, -, -, hothers⟩ := s.leaveRegistries_eq id'
      rw [heq]
      exact hothers id hne hin
    · exact hin
  | stopAndCancelCalls => exact absurd rfl hstop
  | awaitCompletion callId =>
    simp only [effect]
    cases htake : s.st.takeCompletion callId with
    | some taken =>
      rw [(CallState.registries_of_takeCompletion htake).1]
      exact hin
    | none => exact hin
  | leaveSync => exact (CallState.inflight_dropUnclaimedIfIdle _).symm ▸ hin
  | _ => exact hin

theorem stopping_effect (s : State) (hstop : a ≠ .stopAndCancelCalls) :
    (effect s a).stopping = s.st.stopping := by
  cases a with
  | register id =>
    simp only [effect]
    split_ifs <;> rfl
  | fileDeferred id =>
    simp only [effect]
    split
    · rename_i callId hfiling
      cases htake : s.st.takeCompletion callId with
      | some taken => exact (CallState.registries_of_takeCompletion htake).2.2
      | none =>
        dsimp only
        split_ifs <;> rfl
    · rfl
  | completion callId value =>
    simp only [effect]
    split_ifs
    · rfl
    · cases s.st.deferred.lookup callId with
      | none => exact CallState.stopping_parkCompletion ..
      | some id => rfl
  | deliver id r =>
    simp only [effect]
    split
    · obtain ⟨st, heq, hstopping, -⟩ := s.leaveRegistries_eq id
      rw [heq, hstopping]
    · rfl
  | stopAndCancelCalls => exact absurd rfl hstop
  | awaitCompletion callId =>
    simp only [effect]
    cases htake : s.st.takeCompletion callId with
    | some taken => exact (CallState.registries_of_takeCompletion htake).2.2
    | none => rfl
  | leaveSync => exact CallState.stopping_dropUnclaimedIfIdle _
  | _ => rfl

theorem Untouched.refl (handles : Prop) (call : AsyncCall) : Untouched handles call call :=
  ⟨rfl, rfl, fun _ => rfl, fun _ => rfl, fun _ _ => rfl⟩

/-- One call moves. -/
theorem Untouched.modify (s : State) (id id' : UInt64) {f : AsyncCall → AsyncCall} {handles : Prop}
    (hf : id = id' → Untouched handles (s.calls id) (f (s.calls id))) :
    Untouched handles (s.calls id) ((s.modify id' f).calls id) := by
  by_cases hid : id = id'
  · subst hid
    rw [State.calls_modify_self]
    exact hf rfl
  · rw [State.calls_modify_of_ne s hid]
    exact .refl ..

/-- A resolver other than that of the reply calls `deliver()`. -/
theorem Untouched.deliver {handles : Prop} {call call' : AsyncCall}
    (h : Untouched handles call call') {r : Resolver} (hr : r ≠ .reply)
    (hidle : r = .completion → call.resolver .completion = .idle) (o : Outcome) :
    Untouched handles call (call'.deliver r o) where
  delivered := h.delivered
  posted := h.posted
  reply hactive := (call'.resolver_setResolver_of_ne hr.symm _).trans (h.reply hactive)
  completion hbusy := by
    have hother : Resolver.completion ≠ r := fun heq => hbusy (hidle heq.symm)
    exact (call'.resolver_setResolver_of_ne hother _).trans (h.completion hbusy)
  handler := h.handler

/-- The reply handler of the call is at work. -/
theorem Untouched.handle {handles : Prop} {call call' : AsyncCall} (hhandles : handles)
    (hactive : call.handler.Active) (hdelivered : call'.delivered = call.delivered)
    (hposted : call'.posted = call.posted)
    (hcompletion : call'.resolver .completion = call.resolver .completion) :
    Untouched handles call call' :=
  ⟨hdelivered, hposted, fun hnot => absurd hactive hnot, fun _ => hcompletion,
    fun _ hnot => absurd hhandles hnot⟩

theorem Untouched.sweep (call : AsyncCall) (reason : Bytes) :
    Untouched True call (call.sweep reason) := by
  unfold AsyncCall.sweep
  split <;> exact ⟨rfl, rfl, fun _ => rfl, fun _ => rfl, fun _ hnot => absurd trivial hnot⟩

theorem Untouched.runStrand {handles : Prop} {call call' : AsyncCall}
    (hstep : call.runStrand obj = some call') : Untouched handles call call' := by
  unfold AsyncCall.runStrand at hstep
  split at hstep
  · cases hstep
    exact ⟨rfl, rfl, fun _ => rfl, fun _ => rfl, fun _ _ => rfl⟩
  · cases hstep
    exact ⟨rfl, rfl, fun _ => rfl, fun _ => rfl, fun _ _ => rfl⟩
  · rename_i rest _ _
    cases hstep
    have hrun : Untouched handles call { call with strand := rest } :=
      ⟨rfl, rfl, fun _ => rfl, fun _ => rfl, fun _ _ => rfl⟩
    exact hrun.deliver (by decide) (by simp) _
  · cases hstep

section actions
variable {id id' : UInt64} {handles : Prop}

theorem untouched_callAsync {method : Bytes} {timeoutMs : Int}
    (h : next obj s (.callAsync id' method timeoutMs) = some s') :
    Untouched handles (s.calls id) (s'.calls id) := by
  simp only [next] at h
  split at h <;> cases h
  exact .modify s id id' fun _ => ⟨rfl, rfl, fun _ => rfl, fun _ => rfl, fun _ _ => rfl⟩

theorem untouched_register (h : next obj s (.register id') = some s') :
    Untouched handles (s.calls id) (s'.calls id) := by
  simp only [next] at h
  split at h
  · split at h <;> cases h
    · have hrefused : Untouched handles (s.calls id) { s.calls id with caller := .refused } :=
        ⟨rfl, rfl, fun _ => rfl, fun _ => rfl, fun _ _ => rfl⟩
      exact .modify s id id' fun _ => hrefused.deliver (by decide) (by simp) _
    · exact .modify { s with st := s.st.emplaceInflight id' } id id' fun _ =>
        ⟨rfl, rfl, fun _ => rfl, fun _ => rfl, fun _ _ => rfl⟩
  · cases h

theorem untouched_sendCallAsync (hi : Inv s) (h : next obj s (.sendCallAsync id') = some s') :
    Untouched handles (s.calls id) (s'.calls id) := by
  simp only [next] at h
  split at h
  · rename_i hregistered
    cases h
    refine .modify s id id' fun hid => ⟨rfl, rfl, fun _ => rfl, fun _ => rfl, fun hawaits => ?_⟩
    subst hid
    rw [(hi.call id).sound.unregistered (by simp [hregistered])] at hawaits
    exact hawaits.elim
  · cases h

theorem untouched_answer {res : Reply} (h : next obj s (.answer id' res) = some s') :
    Untouched (id = id') (s.calls id) (s'.calls id) := by
  simp only [next] at h
  split at h
  · rename_i hpending
    cases h
    exact .modify s id id' fun hid => by
      subst hid
      exact .handle rfl (by simp [hpending, HandlerPc.Active]) rfl rfl rfl
  · cases h

theorem untouched_handleReply (h : next obj s (.handleReply id') = some s') :
    Untouched (id = id') (s.calls id) (s'.calls id) := by
  simp only [next] at h
  split at h
  · rename_i hanswered
    cases h
    refine .modify s id id' fun hid => ?_
    subst hid
    refine .handle rfl (by simp [hanswered, HandlerPc.Active]) ?_ ?_ ?_
    all_goals
      unfold AsyncCall.handleReply
      simp only
      split
      · rfl
      split
      · rfl
      split <;> rfl
  · cases h

theorem untouched_loadDelivered (h : next obj s (.loadDelivered id') = some s') :
    Untouched (id = id') (s.calls id) (s'.calls id) := by
  simp only [next] at h
  split at h
  · rename_i hdeferring
    cases h
    exact .modify s id id' fun hid => by
      subst hid
      exact .handle rfl (by simp [hdeferring, HandlerPc.Active]) rfl rfl rfl
  · cases h

theorem untouched_fileDeferred (h : next obj s (.fileDeferred id') = some s') :
    Untouched (id = id') (s.calls id) (s'.calls id) := by
  simp only [next] at h
  split at h
  · rename_i callId hfiling
    cases h
    have hhandle : ∀ {call' : AsyncCall}, id = id' → call'.delivered = (s.calls id).delivered →
        call'.posted = (s.calls id).posted →
        call'.resolver .completion = (s.calls id).resolver .completion →
        Untouched (id = id') (s.calls id) call' := by
      intro call' hid
      subst hid
      exact .handle rfl (by simp [hfiling, HandlerPc.Active])
    unfold State.fileDeferred
    split
    · rename_i buffered st htake
      exact .modify { s with st := st } id id' fun hid => hhandle hid rfl rfl rfl
    · split
      · exact .modify s id id' fun hid => hhandle hid rfl rfl rfl
      · exact .modify { s with st := { s.st with deferred := s.st.deferred.insert callId id' } }
          id id' fun hid => hhandle hid rfl rfl rfl
  · cases h

theorem untouched_rearm (h : next obj s (.rearm id') = some s') :
    Untouched handles (s.calls id) (s'.calls id) := by
  simp only [next] at h
  split at h
  · rename_i hfiled
    cases h
    refine .modify s id id' fun hid => ⟨rfl, rfl, fun _ => rfl, fun _ => rfl, fun hawaits => ?_⟩
    subst hid
    rw [hfiled] at hawaits
    exact hawaits.elim
  · cases h

theorem untouched_expire (h : next obj s (.expire id') = some s') :
    Untouched handles (s.calls id) (s'.calls id) := by
  simp only [next] at h
  split at h <;> cases h
  exact .modify s id id' fun _ => ⟨rfl, rfl, fun _ => rfl, fun _ => rfl, fun _ _ => rfl⟩

theorem untouched_runStrand (h : next obj s (.runStrand id') = some s') :
    Untouched handles (s.calls id) (s'.calls id) := by
  obtain ⟨call, hstep, rfl⟩ := Option.map_eq_some_iff.mp h
  exact .modify s id id' fun hid => .runStrand (hid ▸ hstep)

theorem untouched_completion {callId : QString} {value : QVariant}
    (h : next obj s (.completion callId value) = some s') :
    Untouched handles (s.calls id) (s'.calls id) := by
  simp only [next] at h
  split at h
  · cases h
    exact .refl ..
  split at h
  · cases h
    exact .refl ..
  · rename_i id' hlookup
    split at h <;> cases h
    rename_i hidle
    exact .modify { s with st := { s.st with deferred := s.st.deferred.erase callId } } id id'
      fun hid => .deliver (.refl ..) (by decide) (fun _ => hid ▸ hidle) _

/-- The step is on another call, or its resolver is not in `deliver()`. -/
theorem untouched_deliver {r : Resolver} (h : next obj s (.deliver id' r) = some s')
    (hidle : id = id' → (s.calls id).resolver r = .idle) :
    Untouched handles (s.calls id) (s'.calls id) := by
  simp only [next] at h
  split at h
  · rename_i o hentered
    cases h
    rw [← s.calls_leaveRegistries id']
    refine .modify (s.leaveRegistries id') id id' fun hid => ?_
    subst hid
    rw [hidle rfl] at hentered
    cases hentered
  · obtain ⟨call, hstep, rfl⟩ := Option.map_eq_some_iff.mp h
    refine .modify s id id' fun hid => ?_
    subst hid
    rw [hidle rfl] at hstep
    cases hstep

theorem untouched_fail {reason : Bytes} (h : next obj s (.fail reason) = some s') :
    Untouched True (s.calls id) (s'.calls id) := by
  cases h
  exact .sweep (s.calls id) reason

theorem untouched_cancelNext (h : next obj s .cancelNext = some s') :
    Untouched handles (s.calls id) (s'.calls id) := by
  simp only [next] at h
  split at h
  · cases h
    exact .refl ..
  · rename_i id' outstanding hteardown
    cases h
    exact .modify { s with teardown := .delivering id' outstanding } id id' fun _ =>
      .deliver (.refl ..) (by decide) (by simp) _
  · split at h <;> cases h
    exact .refl ..
  · cases h

end actions

/-- **Only a `deliver()` on a call claims it, or hands its callback over.** -/
theorem untouched_next (hi : Inv s) (h : next obj s a = some s') {id : UInt64}
    (hdeliver : ∀ r, a = .deliver id r → (s.calls id).resolver r = .idle) :
    Untouched (a.Handles id) (s.calls id) (s'.calls id) := by
  cases a with
  | callAsync id' method timeoutMs => exact untouched_callAsync h
  | register id' => exact untouched_register h
  | sendCallAsync id' => exact untouched_sendCallAsync hi h
  | answer id' res => exact untouched_answer h
  | handleReply id' => exact untouched_handleReply h
  | loadDelivered id' => exact untouched_loadDelivered h
  | fileDeferred id' => exact untouched_fileDeferred h
  | rearm id' => exact untouched_rearm h
  | expire id' => exact untouched_expire h
  | runStrand id' => exact untouched_runStrand h
  | completion callId value => exact untouched_completion h
  | deliver id' r => exact untouched_deliver h fun hid => hdeliver r (hid ▸ rfl)
  | fail reason => exact untouched_fail h
  | cancelNext => exact untouched_cancelNext h
  | stopAndCancelCalls =>
    simp only [next] at h
    split at h <;> cases h <;> exact .refl ..
  | enterSync =>
    cases h
    exact .refl ..
  | awaitCompletion callId =>
    simp only [next] at h
    split at h <;> cases h <;> exact .refl ..
  | leaveSync | dropState =>
    simp only [next, Option.ite_none_right_eq_some, Option.some.injEq] at h
    obtain ⟨-, rfl⟩ := h
    exact .refl ..

end frames

/-! ## A call that is being resolved with its completion -/

/-- What a `deliver()` hands over. -/
def DeliverPc.outcome : DeliverPc → Option Outcome
  | idle => none
  | entered o | left o | claimed o | took _ o | withdrew _ o | cancelled _ o => some o

/-- Who gives a call its completion: its reply handler, when it finds the completion there, or the
completion handler, when it finds the call filed. -/
def Resolver.Completes : Resolver → Prop
  | reply | completion => True
  | _ => False

/-- A resolver is in `deliver()` with the value, or the callback was given it. -/
inductive AsyncCall.Resolves (r : Resolver) (value : QVariant) (call : AsyncCall) : Prop
  | underWay (houtcome : (call.resolver r).outcome = some { value := value })
      (hahead : call.delivered = false ∨ (call.resolver r).Won)
  | posted (hposted : call.posted = [{ value := value }])

section resolving
variable {obj : Bytes} {s s' : State} {a : Action} {call call' : AsyncCall} {value : QVariant}
  {r : Resolver}

/-- Who finds the call claimed returns. -/
theorem resolve_loser {pc : DeliverPc} (hwon : ¬ pc.Won) (hdelivered : call.delivered = true)
    (hstep : call.resolve r pc = some call') : call' = call.complete r := by
  cases pc with
  | left o =>
    simp only [AsyncCall.resolve, hdelivered, if_true, Option.some.injEq] at hstep
    exact hstep.symm
  | idle => cases hstep
  | entered o => cases hstep
  | _ => exact absurd trivial hwon

/-- The resolver has won the claim. -/
theorem AsyncCall.Resolves.won (pc : DeliverPc) (hpc : call.resolver r = pc)
    (houtcome : pc.outcome = some { value := value }) (hwon : pc.Won) : call.Resolves r value :=
  .underWay (hpc ▸ houtcome) (.inr (hpc ▸ hwon))

/-- The resolver goes on. -/
theorem AsyncCall.Sound.resolves_self (h : call.Sound) {pc : DeliverPc} (hpc : call.resolver r = pc)
    (houtcome : pc.outcome = some { value := value })
    (hahead : call.delivered = false ∨ pc.Won) (hstep : call.resolve r pc = some call') :
    call'.Resolves r value := by
  cases pc with
  | idle => cases hstep
  | entered o => cases hstep
  | left o =>
    have hopen : call.delivered = false := hahead.resolve_right False.elim
    simp only [AsyncCall.resolve, hopen, Bool.false_eq_true, if_false, Option.some.injEq] at hstep
    rw [← hstep]
    exact .won (.claimed o) (call.resolver_setResolver_self r _) houtcome trivial
  | claimed o =>
    cases hstep
    exact .won (.took call.callback o) (call.resolver_setResolver_self r _) houtcome trivial
  | took cb o =>
    cases hstep
    exact .won (.withdrew cb o) (call.cancelPending.resolver_setResolver_self ..) houtcome trivial
  | withdrew cb o =>
    cases hstep
    exact .won (.cancelled cb o) (call.cancelTimer.resolver_setResolver_self ..) houtcome trivial
  | cancelled cb o =>
    have hcb : cb = true := by
      have hcarries := h.carries r
      rwa [hpc] at hcarries
    have hnone : call.posted.length = 0 := (h.gate.eq_held (r := r) (by rw [hpc]; trivial)).2.2
    cases hstep
    refine .posted ?_
    simp only [DeliverPc.outcome, Option.some.injEq] at houtcome
    simp [hcb, houtcome, List.length_eq_zero_iff.mp hnone]

/-- Behind the gate there is nobody else. -/
theorem AsyncCall.Sound.resolves_loser (h : call.Sound) {l : Resolver} (hl : l ≠ r)
    (houtcome : (call.resolver r).outcome = some { value := value })
    (hwon : (call.resolver r).Won) (hstep : call.resolve l (call.resolver l) = some call') :
    call'.Resolves r value := by
  have hlost : ¬ (call.resolver l).Won := fun hother => hl (h.gate.unique hwon hother)
  rw [resolve_loser hlost (h.gate.eq_held hwon).1 hstep]
  exact .won _ (call.resolver_setResolver_of_ne hl.symm _) houtcome hwon

/-- A call whose callback has been handed over is claimed. -/
theorem AsyncCall.Sound.delivered_of_posted (h : call.Sound) {o : Outcome}
    (hposted : call.posted = [o]) : call.delivered = true := by
  by_contra hopen
  have hgate := h.gate
  rw [Bool.eq_false_iff.mpr hopen, hposted] at hgate
  cases hgate.handed_eq_zero

/-- The callback is handed over once. -/
theorem AsyncCall.Sound.posted_resolve (h : call.Sound) {o : Outcome} (hposted : call.posted = [o])
    (hstep : call.resolve r (call.resolver r) = some call') : call'.posted = [o] := by
  have hlost : ¬ (call.resolver r).Won := by
    intro hwon
    have hnone := (h.gate.eq_held hwon).2.2
    simp [hposted] at hnone
  rw [resolve_loser hlost (h.delivered_of_posted hposted) hstep]
  exact hposted

theorem busy_of_outcome {pc : DeliverPc} (houtcome : pc.outcome = some { value := value }) :
    pc ≠ .idle := by
  rintro rfl
  cases houtcome

/-- While a call is given its completion, only its deadline and teardown can come before it. -/
theorem AsyncCall.Resolves.idle (hi : Inv s) (hp : Parked s) {id : UInt64} {l : Resolver}
    (hr : r.Completes) (hresolves : (s.calls id).Resolves r value)
    (hopen : (s.calls id).delivered = false) (hl : l ≠ r) (hdeadline : l ≠ .deadline)
    (hteardown : l ≠ .teardown) : (s.calls id).resolver l = .idle := by
  have hsound := (hi.call id).sound
  have hbusy : (s.calls id).resolver r ≠ .idle := by
    cases hresolves with
    | underWay houtcome hahead => exact busy_of_outcome houtcome
    | posted hposted =>
      rw [hsound.delivered_of_posted hposted] at hopen
      cases hopen
  cases l with
  | caller =>
    refine hsound.caller_idle ?_
    have hsent : (s.calls id).handler ≠ .unregistered := by
      intro hunregistered
      cases r with
      | reply =>
        have hreturned : (s.calls id).handler = .returned := hsound.entitled .reply hbusy
        rw [hunregistered] at hreturned
        cases hreturned
      | completion =>
        refine hbusy (hp.undeferred id (.inl ?_)).1
        rw [hunregistered]
        trivial
      | _ => exact hr.elim
    rw [hsound.sent hsent]
    simp
  | completion =>
    cases r with
    | reply => exact (hp.undeferred id (.inr hbusy)).1
    | completion => exact absurd rfl hl
    | _ => exact hr.elim
  | reply =>
    cases r with
    | reply => exact absurd rfl hl
    | completion =>
      by_contra hreply
      exact hbusy (hp.undeferred id (.inr hreply)).1
    | _ => exact hr.elim
  | deadline => exact absurd rfl hdeadline
  | teardown => exact absurd rfl hteardown

/-- A step of another call, or of none, leaves who gives a call its completion as it is. -/
theorem Untouched.completes {handles : Prop} (h : Untouched handles call call')
    (hsound : call.Sound) (hr : r.Completes) (hbusy : call.resolver r ≠ .idle) :
    call'.resolver r = call.resolver r := by
  cases r with
  | reply =>
    have hreturned : call.handler = .returned := hsound.entitled .reply hbusy
    exact h.reply (by simp [hreturned, HandlerPc.Active])
  | completion => exact h.completion hbusy
  | _ => exact hr.elim

/-- The resolver claims the call with its next step. -/
def AsyncCall.Claiming (call : AsyncCall) (l : Resolver) : Prop :=
  call.delivered = false ∧ ∃ o, call.resolver l = .left o

/-- Another resolver that goes on, once it has left the registries, finds the call claimed. -/
theorem AsyncCall.Resolves.delivered (hi : Inv s) (hp : Parked s) {id : UInt64} {l : Resolver}
    (hr : r.Completes) (hresolves : (s.calls id).Resolves r value)
    (hahead : l = .deadline ∨ l = .teardown → ¬ (s.calls id).Claiming l) (hl : l ≠ r)
    (hentered : ∀ o, (s.calls id).resolver l ≠ .entered o)
    (hbusy : (s.calls id).resolver l ≠ .idle) : (s.calls id).delivered = true := by
  by_contra hnot
  have hopen : (s.calls id).delivered = false := by simpa using hnot
  have hlate : l = .deadline ∨ l = .teardown := by
    by_contra hneither
    rw [not_or] at hneither
    exact hbusy (hresolves.idle hi hp hr hopen hl hneither.1 hneither.2)
  have hwon : ¬ ((s.calls id).resolver l).Won := by
    intro hwon
    rw [((hi.call id).sound.gate.eq_held hwon).1] at hopen
    cases hopen
  cases hpc : (s.calls id).resolver l with
  | idle => exact hbusy hpc
  | entered o => exact hentered o hpc
  | left o => exact hahead hlate ⟨hopen, o, hpc⟩
  | claimed o | took cb o | withdrew cb o | cancelled cb o =>
    rw [hpc] at hwon
    exact hwon trivial

/-- A resolver leaves the registries. -/
theorem AsyncCall.Resolves.leave {l : Resolver} {o : Outcome} (hresolves : call.Resolves r value)
    (hentered : call.resolver l = .entered o) :
    (call.setResolver l (.left o)).Resolves r value := by
  cases hresolves with
  | underWay houtcome hahead =>
    by_cases hl : l = r
    · subst hl
      rw [hentered] at houtcome hahead
      refine .underWay ?_ (.inl (hahead.resolve_right False.elim))
      rw [AsyncCall.resolver_setResolver_self]
      exact houtcome
    · have hsame := call.resolver_setResolver_of_ne (Ne.symm hl) (.left o)
      refine .underWay (hsame ▸ houtcome) ?_
      rw [hsame]
      exact hahead
  | posted hposted => exact .posted hposted

/-- **A call that is being resolved with its completion is resolved with it**, unless its deadline
or teardown claims it first. -/
theorem AsyncCall.Resolves.next (hi : Inv s) (hp : Parked s) {id : UInt64} (hr : r.Completes)
    (hresolves : (s.calls id).Resolves r value)
    (hahead : ∀ l, l = .deadline ∨ l = .teardown → a = .deliver id l → ¬ (s.calls id).Claiming l)
    (h : next obj s a = some s') : (s'.calls id).Resolves r value := by
  have hsound := (hi.call id).sound
  by_cases hown : ∃ l, a = .deliver id l ∧ (s.calls id).resolver l ≠ .idle
  · obtain ⟨l, rfl, hbusy⟩ := hown
    simp only [Async.next] at h
    split at h
    · rename_i o hentered
      cases h
      rw [State.calls_modify_self, State.calls_leaveRegistries]
      exact hresolves.leave hentered
    · rename_i hentered
      obtain ⟨call, hstep, rfl⟩ := Option.map_eq_some_iff.mp h
      rw [State.calls_modify_self]
      have hclaimed : l ≠ r → (s.calls id).delivered = true := fun hl =>
        hresolves.delivered hi hp hr (fun hlate => hahead l hlate rfl) hl hentered hbusy
      cases hresolves with
      | underWay houtcome hahead =>
        by_cases hl : l = r
        · subst hl
          exact hsound.resolves_self rfl houtcome hahead hstep
        · have hwon := hahead.resolve_left (by simp [hclaimed hl])
          exact hsound.resolves_loser hl houtcome hwon hstep
      | posted hposted => exact .posted (hsound.posted_resolve hposted hstep)
  · have hsame : Untouched (a.Handles id) (s.calls id) (s'.calls id) := untouched_next hi h (by
      intro l ha
      by_contra hbusy
      exact hown ⟨l, ha, hbusy⟩)
    cases hresolves with
    | underWay houtcome hahead =>
      have hresolver := hsame.completes hsound hr (busy_of_outcome houtcome)
      refine .underWay ?_ ?_
      · rw [hresolver, houtcome]
      · rwa [hresolver, hsame.delivered]
    | posted hposted => exact .posted (hsame.posted.trans hposted)

end resolving

end Async

end LogosProtocol
