import LogosProtocol.Async.ExactlyOnce
import LogosProtocol.Lib.Staging

/-!
# Parked completions

A completion that nobody waits for yet is parked while the handle has a call outstanding, and
what is parked is dropped when the last one is over.  The completions and the order they came in
are a bounded stage, whatever the order of the steps.

## Main definitions

* `CallState.staged` — the parked completions as a stage.
* `Parked` — the invariant.
* `State.CouldClaim` — some call could still claim what is parked.
* `AtRest` — no handler is part-way through.
-/

namespace LogosProtocol

namespace CallState

/-- The parked completions, and the order they came in. -/
def staged (st : CallState) : Stage QString QVariant := ⟨st.completions, st.completionOrder⟩

theorem evict_eq_trim (completions : Dict QString QVariant) (order : List QString) :
    (⟨(evict completions order).1, (evict completions order).2⟩ : Stage QString QVariant) =
      Stage.trim kParkedCompletionCap completions order := by
  induction order generalizing completions with
  | nil => rfl
  | cons oldest order ih =>
    rw [evict, Stage.trim]
    split_ifs
    · exact ih (completions.erase oldest)
    · rfl

section staging
variable (st : CallState) (callId : QString) (value : QVariant)

/-- Parking stages the completion, if it can be anybody's. -/
theorem staged_parkCompletion : (st.parkCompletion callId value).staged =
    if st.busy then st.staged.park kParkedCompletionCap callId value else st.staged := by
  unfold parkCompletion
  by_cases hbusy : st.busy = true
  · rw [if_neg (by simp [hbusy]), if_pos hbusy]
    by_cases hin : callId ∈ st.completions
    · rw [if_pos hin, Stage.park_of_mem hin]
      rfl
    · have hnot : callId ∉ st.staged.entries := hin
      rw [if_neg hin, Stage.park, if_neg hnot]
      exact evict_eq_trim _ _
  · rw [if_pos (by simpa using hbusy), if_neg hbusy]

@[simp] theorem staged_dropUnclaimedIfIdle :
    st.dropUnclaimedIfIdle.staged = if st.busy then st.staged else {} := by
  unfold dropUnclaimedIfIdle
  split_ifs <;> rfl

@[simp] theorem busy_dropUnclaimedIfIdle : st.dropUnclaimedIfIdle.busy = st.busy := by
  unfold dropUnclaimedIfIdle
  split_ifs <;> rfl

@[simp] theorem busy_parkCompletion : (st.parkCompletion callId value).busy = st.busy := by
  unfold parkCompletion
  split_ifs <;> rfl

@[simp] theorem syncOutstanding_dropUnclaimedIfIdle :
    st.dropUnclaimedIfIdle.syncOutstanding = st.syncOutstanding := by
  unfold dropUnclaimedIfIdle
  split_ifs <;> rfl

@[simp] theorem syncOutstanding_parkCompletion :
    (st.parkCompletion callId value).syncOutstanding = st.syncOutstanding := by
  unfold parkCompletion
  split_ifs <;> rfl

@[simp] theorem staged_stop : st.stop.staged = {} := rfl

variable {st callId value}

/-- Claiming takes the completion off the stage. -/
theorem staged_takeCompletion {st' : CallState} (h : st.takeCompletion callId = some (value, st')) :
    st.staged.entries.lookup callId = some value ∧ st'.staged = st.staged.drop callId ∧
      st'.busy = st.busy := by
  unfold takeCompletion at h
  split at h
  · cases h
  · rename_i value' hlookup
    cases h
    refine ⟨hlookup, ?_, rfl⟩
    simp only [staged, Stage.drop]
    congr
    exact lawful_beq_subsingleton _ _

theorem syncOutstanding_takeCompletion {taken : QVariant × CallState}
    (h : st.takeCompletion callId = some taken) : taken.2.syncOutstanding = st.syncOutstanding := by
  unfold takeCompletion at h
  split at h
  · cases h
  · cases h
    rfl

/-- What is staged is claimed. -/
theorem takeCompletion_of_lookup (h : st.staged.entries.lookup callId = some value) :
    ∃ st', st.takeCompletion callId = some (value, st') := by
  unfold takeCompletion
  have hlookup : st.completions.lookup callId = some value := h
  rw [hlookup]
  exact ⟨_, rfl⟩

/-- Claiming stages nothing. -/
theorem lookup_takeCompletion_of_none {other : QString} {taken : QVariant × CallState}
    (hnone : st.staged.entries.lookup callId = none)
    (htake : st.takeCompletion other = some taken) :
    taken.2.staged.entries.lookup callId = none := by
  rw [(staged_takeCompletion htake).2.1]
  exact Stage.lookup_drop_of_none hnone other

theorem lookup_dropUnclaimedIfIdle_of_none (hnone : st.staged.entries.lookup callId = none) :
    st.dropUnclaimedIfIdle.staged.entries.lookup callId = none := by
  rw [staged_dropUnclaimedIfIdle]
  split_ifs
  · exact hnone
  · exact AList.lookup_empty callId

/-- With nothing outstanding, nothing is left on the stage. -/
theorem idle_dropUnclaimedIfIdle (hidle : st.dropUnclaimedIfIdle.busy = false) :
    st.dropUnclaimedIfIdle.staged = {} := by
  rw [busy_dropUnclaimedIfIdle] at hidle
  simp [hidle]

theorem WellFormed.dropUnclaimedIfIdle (h : st.staged.WellFormed kParkedCompletionCap) :
    st.dropUnclaimedIfIdle.staged.WellFormed kParkedCompletionCap := by
  rw [staged_dropUnclaimedIfIdle]
  split_ifs
  · exact h
  · exact Stage.wellFormed_empty

end staging

end CallState

namespace Async

/-! ## What is parked -/

/-- The reply handler has not looked for a completion yet. -/
def HandlerPc.Early : HandlerPc → Prop
  | withdrawn | filed | returned => False
  | _ => True

/-- The handler of the call has not looked, or it has called `deliver()` itself. -/
def AsyncCall.Undeferred (call : AsyncCall) : Prop :=
  call.handler.Early ∨ call.resolver .reply ≠ .idle

/-- What is parked is a bounded stage, and with nothing outstanding there is nothing on it unless
the completion handler has just taken the last call out of `deferred`. -/
structure Parked (s : State) : Prop where
  staged : s.st.staged.WellFormed kParkedCompletionCap
  idle : s.st.busy = false → s.st.staged = {} ∨
    s.st.stopping = false ∧ ∃ id o, (s.calls id).resolver .completion = .entered o
  stopped : s.st.stopping = true → ∀ key, s.st.deferred.lookup key = none
  gone : s.stateGone = true → s.st.stopping = true
  undeferred : ∀ id, (s.calls id).Undeferred → (s.calls id).resolver .completion = .idle ∧
    ∀ key, s.st.deferred.lookup key ≠ some id

/-- What a step may do to one call. -/
structure Moves (call call' : AsyncCall) : Prop where
  undeferred : call'.Undeferred → call.Undeferred
  idle : call'.Undeferred → call.resolver .completion = .idle →
    call'.resolver .completion = .idle
  entered : ∀ o, call.resolver .completion = .entered o → call'.resolver .completion = .entered o

section moves
variable {call call' : AsyncCall} {s : State} {id : UInt64}

theorem Moves.of_same (hearly : call'.handler.Early → call.handler.Early)
    (hsame : call'.resolver = call.resolver) : Moves call call' where
  undeferred h := h.imp hearly fun hreply => hsame ▸ hreply
  idle _ h := hsame ▸ h
  entered _ h := hsame ▸ h

/-- Another resolver than those of the reply and of the completion moves. -/
theorem Moves.deliver {r : Resolver} (hcompletion : r ≠ .completion) (hreply : r ≠ .reply)
    (o : Outcome) : Moves call (call.deliver r o) where
  undeferred h := h.imp_right fun hbusy =>
    (call.resolver_setResolver_of_ne hreply.symm (.entered o)) ▸ hbusy
  idle _ h := (call.resolver_setResolver_of_ne hcompletion.symm _).trans h
  entered _ h := (call.resolver_setResolver_of_ne hcompletion.symm _).trans h

/-- The handler calls `deliver()` without having deferred the call. -/
theorem Moves.deliverReply (hearly : call.handler.Early) (o : Outcome) :
    Moves call ({ call with handler := .returned }.deliver .reply o) where
  undeferred _ := .inl hearly
  idle _ h := (AsyncCall.resolver_setResolver_of_ne _ (by decide) _).trans h
  entered _ h := (AsyncCall.resolver_setResolver_of_ne _ (by decide) _).trans h

theorem Moves.trans {call'' : AsyncCall} (h : Moves call call') (h' : Moves call' call'') :
    Moves call call'' where
  undeferred hearly := h.undeferred (h'.undeferred hearly)
  idle hearly hidle := h'.idle hearly (h.idle (h'.undeferred hearly) hidle)
  entered o ho := h'.entered o (h.entered o ho)

/-- One call moves, and the call state stays as it is. -/
theorem Parked.modifyCall (hp : Parked s) (id : UInt64) {f : AsyncCall → AsyncCall}
    (hmoves : Moves (s.calls id) (f (s.calls id))) : Parked (s.modify id f) where
  staged := hp.staged
  idle hidle := by
    refine (hp.idle hidle).imp_right fun ⟨hstop, id', o, hentered⟩ => ⟨hstop, id', o, ?_⟩
    by_cases hid : id' = id
    · rw [hid, State.calls_modify_self]
      exact hmoves.entered o (hid ▸ hentered)
    · rw [State.calls_modify_of_ne _ hid]
      exact hentered
  stopped := hp.stopped
  gone := hp.gone
  undeferred id' hearly := by
    by_cases hid : id' = id
    · rw [hid, State.calls_modify_self] at hearly ⊢
      obtain ⟨hcompletion, hnone⟩ := hp.undeferred id (hmoves.undeferred hearly)
      exact ⟨hmoves.idle hearly hcompletion, hnone⟩
    · rw [State.calls_modify_of_ne _ hid] at hearly ⊢
      exact hp.undeferred id' hearly

/-- One call moves when nothing is parked, or something is outstanding. -/
theorem Parked.modifySettled (hp : Parked s) (hsettled : s.st.busy = false → s.st.staged = {})
    (id : UInt64) {f : AsyncCall → AsyncCall}
    (hmoves : (f (s.calls id)).Undeferred → (s.calls id).Undeferred ∧
      ((s.calls id).resolver .completion = .idle → (f (s.calls id)).resolver .completion = .idle)) :
    Parked (s.modify id f) where
  staged := hp.staged
  idle hidle := .inl (hsettled hidle)
  stopped := hp.stopped
  gone := hp.gone
  undeferred id' hearly := by
    by_cases hid : id' = id
    · rw [hid, State.calls_modify_self] at hearly ⊢
      obtain ⟨hbefore, hidle⟩ := hmoves hearly
      obtain ⟨hcompletion, hnone⟩ := hp.undeferred id hbefore
      exact ⟨hidle hcompletion, hnone⟩
    · rw [State.calls_modify_of_ne _ hid] at hearly ⊢
      exact hp.undeferred id' hearly

/-- The call state changes, and the calls stay as they are. -/
theorem Parked.withState (hp : Parked s) {c : CallState}
    (hstaged : c.staged.WellFormed kParkedCompletionCap)
    (hidle : c.busy = false → c.staged = {} ∨
      s.st.busy = false ∧ (s.st.staged = {} → c.staged = {}))
    (hstopping : c.stopping = s.st.stopping)
    (hstopped : c.stopping = true → ∀ key, c.deferred.lookup key = none)
    (hearly : ∀ id, (s.calls id).Undeferred → ∀ key,
      c.deferred.lookup key = some id → s.st.deferred.lookup key = some id) :
    Parked { s with st := c } where
  staged := hstaged
  idle hbusy := by
    rcases hidle hbusy with hempty | ⟨hbefore, hsame⟩
    · exact .inl hempty
    · rcases hp.idle hbefore with hempty | ⟨hrunning, hentered⟩
      · exact .inl (hsame hempty)
      · exact .inr ⟨hstopping.trans hrunning, hentered⟩
  stopped := hstopped
  gone hgone := hstopping.trans (hp.gone hgone)
  undeferred id hpc := by
    obtain ⟨hcompletion, hnone⟩ := hp.undeferred id hpc
    exact ⟨hcompletion, fun key hlookup => hnone key (hearly id hpc key hlookup)⟩

/-- The stage changes, and the registries stay as they are. -/
theorem Parked.withStage (hp : Parked s) {c : CallState}
    (hstaged : c.staged.WellFormed kParkedCompletionCap)
    (hidle : c.busy = false → c.staged = {} ∨
      s.st.busy = false ∧ (s.st.staged = {} → c.staged = {}))
    (hstopping : c.stopping = s.st.stopping) (hdeferred : c.deferred = s.st.deferred) :
    Parked { s with st := c } :=
  hp.withState hstaged hidle hstopping
    (fun hstop key => by rw [hdeferred, hp.stopped (hstopping ▸ hstop)])
    fun _ _ _ hlookup => hdeferred ▸ hlookup

/-- A `deliver()` that has left the registries withdraws the handler, and does not register it. -/
theorem handler_resolve {r : Resolver} {pc : DeliverPc} (hstep : call.resolve r pc = some call') :
    call'.handler = call.handler ∨ call'.handler = .withdrawn := by
  cases pc with
  | idle => cases hstep
  | entered o => cases hstep
  | left o =>
    simp only [AsyncCall.resolve] at hstep
    split at hstep <;> cases hstep <;> exact .inl rfl
  | took cb o =>
    cases hstep
    show call.cancelPending.handler = call.handler ∨ call.cancelPending.handler = .withdrawn
    unfold AsyncCall.cancelPending
    split
    · exact .inr rfl
    · exact .inl rfl
  | claimed o | withdrew cb o | cancelled cb o =>
    cases hstep
    exact .inl rfl

theorem Moves.resolve {r : Resolver} {pc : DeliverPc} (hpc : call.resolver r = pc)
    (hstep : call.resolve r pc = some call') : Moves call call' := by
  have hmoves : ∀ o : Outcome, pc ≠ .entered o ∧ pc ≠ .idle := by
    intro o
    constructor <;> rintro rfl <;> cases hstep
  refine ⟨fun hundeferred => ?_, fun _ hidle => ?_, fun o hentered => ?_⟩
  · refine hundeferred.imp (fun hearly => ?_) fun hreply => ?_
    · rcases handler_resolve hstep with hsame | hwithdrawn
      · rwa [hsame] at hearly
      · rw [hwithdrawn] at hearly
        exact hearly.elim
    · by_cases hr : r = .reply
      · rw [← hr, hpc]
        exact (hmoves {}).2
      · rwa [(AsyncCall.resolve_frame hstep).2 .reply (Ne.symm hr)] at hreply
  · by_cases hr : r = .completion
    · rw [← hr, hpc] at hidle
      exact absurd hidle (hmoves {}).2
    · rw [(AsyncCall.resolve_frame hstep).2 .completion (Ne.symm hr), hidle]
  · by_cases hr : r = .completion
    · rw [← hr, hpc] at hentered
      exact absurd hentered (hmoves o).1
    · rw [(AsyncCall.resolve_frame hstep).2 .completion (Ne.symm hr), hentered]

end moves

/-! ### Every action -/

section actions
variable {obj : Bytes} {s s' : State} {id : UInt64}

theorem parked_initial : Parked {} where
  staged := Stage.wellFormed_empty
  idle _ := .inl rfl
  stopped h := by cases h
  gone h := by cases h
  undeferred _ _ := ⟨rfl, fun key hlookup => by cases hlookup⟩

theorem parked_register (hp : Parked s) (h : next obj s (.register id) = some s') : Parked s' := by
  simp only [next] at h
  split at h
  · split at h
    · cases h
      refine hp.modifyCall id ?_
      have hrefused : Moves (s.calls id) { s.calls id with caller := .refused } :=
        .of_same (fun hearly => hearly) rfl
      exact hrefused.trans (.deliver (by decide) (by decide) _)
    · cases h
      have hi := hp.withStage (c := s.st.emplaceInflight id) hp.staged ?_ rfl rfl
      · exact hi.modifyCall id (.of_same (fun hearly => hearly) rfl)
      · intro hidle
        have hin : id ∈ (s.st.emplaceInflight id).inflight :=
          (CallState.mem_inflight_emplaceInflight ..).mpr (.inl rfl)
        simp [CallState.busy, List.ne_nil_of_mem hin] at hidle
  · cases h

theorem parked_handleReply (hp : Parked s) (h : next obj s (.handleReply id) = some s') :
    Parked s' := by
  simp only [next] at h
  split at h
  · rename_i res hanswered
    cases h
    have hearly : (s.calls id).handler.Early := by
      rw [hanswered]
      trivial
    refine hp.modifyCall id ?_
    unfold AsyncCall.handleReply
    simp only
    split
    · exact .deliverReply hearly _
    split
    · exact .deliverReply hearly _
    split
    · exact .deliverReply hearly _
    · exact .of_same (fun _ => hearly) rfl
  · cases h

/-- A parked completion is claimed. -/
theorem Parked.take (hp : Parked s) {callId : QString} {value : QVariant} {st : CallState}
    (htake : s.st.takeCompletion callId = some (value, st)) : Parked { s with st := st } := by
  obtain ⟨-, hdeferred, hstopping⟩ := CallState.registries_of_takeCompletion htake
  obtain ⟨-, hstaged, hbusy⟩ := CallState.staged_takeCompletion htake
  refine hp.withStage ?_ (fun hidle => .inr ⟨hbusy ▸ hidle, fun hempty => ?_⟩) hstopping hdeferred
  · rw [hstaged]
    exact hp.staged.drop callId
  · rw [hstaged, hempty]
    rfl

/-- The handler takes its completion off the stage, or files the call. -/
theorem parked_fileDeferred (hsound : (s.calls id).Sound) (hp : Parked s)
    (h : next obj s (.fileDeferred id) = some s') : Parked s' := by
  simp only [next] at h
  split at h
  · rename_i callId hfiling
    cases h
    have hearly : (s.calls id).handler.Early := by
      rw [hfiling]
      trivial
    have hreply : (s.calls id).resolver .reply = .idle :=
      hsound.reply_idle (by simp [hfiling, HandlerPc.Active])
    unfold State.fileDeferred
    split
    · rename_i buffered st htake
      exact (hp.take htake).modifyCall id (.deliverReply hearly _)
    split_ifs with hstopping
    · exact hp.modifyCall id (.deliverReply hearly _)
    · have hfiled : Moves (s.calls id) { s.calls id with callId := callId, handler := .filed } :=
        .of_same False.elim rfl
      have hi := hp.modifyCall id
        (f := fun call => { call with callId := callId, handler := .filed }) hfiled
      refine hi.withState (c := { s.st with deferred := s.st.deferred.insert callId id }) hp.staged
        ?_ rfl (fun hstop => absurd hstop hstopping) fun id' hundeferred key hlookup => ?_
      · intro hidle
        simp [CallState.busy, AList.entries_insert] at hidle
      · have hne : id' ≠ id := by
          rintro rfl
          rw [State.calls_modify_self] at hundeferred
          exact hundeferred.resolve_left False.elim hreply
        by_cases hkey : key = callId
        · subst hkey
          rw [AList.lookup_insert] at hlookup
          exact absurd (Option.some.inj hlookup).symm hne
        · rwa [AList.lookup_insert_ne hkey] at hlookup
  · cases h

/-- A completion is handed to the call that is deferred for it, or parked. -/
theorem parked_completion (hp : Parked s) {callId : QString} {value : QVariant}
    (h : next obj s (.completion callId value) = some s') : Parked s' := by
  simp only [next] at h
  split at h
  · cases h
    exact hp
  split at h
  · cases h
    refine hp.withStage ?_ (fun hidle => ?_) (CallState.stopping_parkCompletion ..)
      (CallState.deferred_parkCompletion ..)
    · rw [CallState.staged_parkCompletion]
      split_ifs
      · exact hp.staged.park (by decide) callId value
      · exact hp.staged
    · rw [CallState.busy_parkCompletion] at hidle
      refine .inr ⟨hidle, fun hempty => ?_⟩
      rw [CallState.staged_parkCompletion, if_neg (by simp [hidle]), hempty]
  · rename_i id hlookup
    split at h
    · rename_i hidle
      cases h
      have hrunning : s.st.stopping = false := by
        by_contra hstop
        have hnone := hp.stopped (by simpa using hstop) callId
        rw [hlookup] at hnone
        cases hnone
      have hentered :=
        (s.calls id).resolver_setResolver_self .completion (.entered { value := value })
      refine ⟨hp.staged, fun _ => .inr ⟨hrunning, id, { value := value }, ?_⟩,
        fun hstop => ?_, hp.gone, fun id' hearly => ?_⟩
      · rw [State.calls_modify_self]
        exact hentered
      · exact absurd hstop (by simp [hrunning])
      · by_cases hid : id' = id
        · -- The call was deferred.
          subst hid
          rw [State.calls_modify_self] at hearly
          have hreply : Resolver.reply ≠ .completion := by decide
          have hundeferred : (s.calls id').Undeferred := hearly.imp_right fun hbusy =>
            (s.calls id').resolver_setResolver_of_ne hreply (.entered { value := value }) ▸ hbusy
          exact absurd hlookup ((hp.undeferred id' hundeferred).2 callId)
        · rw [State.calls_modify_of_ne _ hid] at hearly ⊢
          obtain ⟨hcompletion, hnone⟩ := hp.undeferred id' hearly
          refine ⟨hcompletion, fun key hkey => ?_⟩
          by_cases hsame : key = callId
          · subst hsame
            simp at hkey
          · exact hnone key (by rwa [State.st_modify, AList.lookup_erase_ne hsame] at hkey)
    · cases h

/-- A call leaves the registries, and what is parked is dropped if it was the last. -/
theorem Parked.leaveRegistries (hp : Parked s) (id : UInt64) : Parked (s.leaveRegistries id) ∧
    ((s.leaveRegistries id).st.busy = false → (s.leaveRegistries id).st.staged = {}) := by
  unfold State.leaveRegistries
  split_ifs with hgone
  · refine ⟨hp, fun hidle => (hp.idle hidle).resolve_right ?_⟩
    rintro ⟨hrunning, -⟩
    rw [hp.gone hgone] at hrunning
    cases hrunning
  · have hsettled : (s.st.leave id (s.calls id).callId).busy = false →
        (s.st.leave id (s.calls id).callId).staged = {} := CallState.idle_dropUnclaimedIfIdle
    refine ⟨hp.withState ?_ (fun hidle => .inl (hsettled hidle)) (CallState.stopping_leave ..)
      (fun hstop key => ?_) fun id' _ key hlookup => ?_, hsettled⟩
    · refine CallState.WellFormed.dropUnclaimedIfIdle ?_
      split_ifs <;> exact hp.staged
    · cases hlookup : (s.st.leave id (s.calls id).callId).deferred.lookup key with
      | none => rfl
      | some id' =>
        rw [CallState.stopping_leave] at hstop
        have hbefore := (CallState.lookup_deferred_leave _ hlookup).1
        rw [hp.stopped hstop key] at hbefore
        cases hbefore
    · exact (CallState.lookup_deferred_leave _ hlookup).1

theorem parked_deliver (hp : Parked s) {r : Resolver} (h : next obj s (.deliver id r) = some s') :
    Parked s' := by
  simp only [next] at h
  split at h
  · rename_i o hentered
    cases h
    have hmoves : ((s.calls id).setResolver r (.left o)).Undeferred →
        (s.calls id).Undeferred ∧ ((s.calls id).resolver .completion = .idle →
          ((s.calls id).setResolver r (.left o)).resolver .completion = .idle) := by
      refine fun hundeferred => ⟨hundeferred.imp_right fun hreply => ?_, fun hidle => ?_⟩
      · by_cases hr : r = .reply
        · rw [← hr, hentered]
          simp
        · rwa [AsyncCall.resolver_setResolver_of_ne _ (Ne.symm hr)] at hreply
      have hr : r ≠ .completion := by
        rintro rfl
        rw [hidle] at hentered
        cases hentered
      rw [AsyncCall.resolver_setResolver_of_ne _ hr.symm, hidle]
    obtain ⟨hleft, hsettled⟩ := hp.leaveRegistries id
    refine hleft.modifySettled hsettled id ?_
    rw [State.calls_leaveRegistries]
    exact hmoves
  · simp only [Option.map_eq_some_iff] at h
    obtain ⟨call, hstep, rfl⟩ := h
    exact hp.modifyCall id (.resolve rfl hstep)

theorem parked_stopAndCancelCalls (hp : Parked s) (h : next obj s .stopAndCancelCalls = some s') :
    Parked s' := by
  have hstopped : ∀ teardown, Parked { s with st := s.st.stop, teardown := teardown } := by
    intro teardown
    refine ⟨Stage.wellFormed_empty, fun _ => .inl rfl, fun _ key => rfl, fun _ => rfl,
      fun id hearly => ⟨(hp.undeferred id hearly).1, fun key hlookup => ?_⟩⟩
    cases hlookup
  simp only [next] at h
  split at h
  · cases h
    exact hstopped _
  · cases h
    exact hstopped _
  · cases h

theorem parked_cancelNext (hp : Parked s) (h : next obj s .cancelNext = some s') : Parked s' := by
  have hteardown : ∀ teardown, Parked { s with teardown := teardown } := fun teardown =>
    ⟨hp.staged, hp.idle, hp.stopped, hp.gone, hp.undeferred⟩
  simp only [next] at h
  split at h
  · cases h
    exact hteardown _
  · cases h
    exact (hteardown _).modifyCall _ (.deliver (by decide) (by decide) _)
  · split at h
    · cases h
      exact hteardown _
    · cases h
  · cases h

/-- **The invariant is kept by every step.** -/
theorem Parked.next {a : Action} (hi : Inv s) (hp : Parked s) (h : Async.next obj s a = some s') :
    Parked s' := by
  cases a with
  | callAsync id method timeoutMs =>
    simp only [Async.next] at h
    split at h
    · cases h
      exact hp.modifyCall id (.of_same (fun hearly => hearly) rfl)
    · cases h
  | register id => exact parked_register hp h
  | sendCallAsync id =>
    simp only [Async.next] at h
    split at h
    · rename_i hregistered
      cases h
      have hunregistered := (hi.call id).sound.unregistered (by simp [hregistered])
      refine hp.modifyCall id (.of_same (fun _ => ?_) rfl)
      rw [hunregistered]
      trivial
    · cases h
  | answer id res =>
    simp only [Async.next] at h
    split at h
    · rename_i hpending
      cases h
      refine hp.modifyCall id (.of_same (fun _ => ?_) rfl)
      rw [hpending]
      trivial
    · cases h
  | fail reason =>
    cases h
    have hresolver : ∀ id, ((s.calls id).sweep reason).resolver = (s.calls id).resolver := by
      intro id
      unfold AsyncCall.sweep
      split <;> rfl
    have hearly : ∀ id, ((s.calls id).sweep reason).handler.Early → (s.calls id).handler.Early := by
      intro id
      unfold AsyncCall.sweep
      split
      · rename_i hpending
        intro _
        rw [hpending]
        trivial
      · exact fun hearly => hearly
    refine ⟨hp.staged, fun hidle => ?_, hp.stopped, hp.gone, fun id hswept => ?_⟩
    · simp only [hresolver]
      exact hp.idle hidle
    · simp only [hresolver]
      refine hp.undeferred id (hswept.imp (hearly id) fun hreply => ?_)
      rwa [← hresolver]
  | handleReply id => exact parked_handleReply hp h
  | loadDelivered id =>
    simp only [Async.next] at h
    split at h
    · rename_i callId hdeferring
      cases h
      refine hp.modifyCall id (.of_same (fun _ => ?_) rfl)
      rw [hdeferring]
      trivial
    · cases h
  | fileDeferred id => exact parked_fileDeferred (hi.call id).sound hp h
  | rearm id =>
    simp only [Async.next] at h
    split at h
    · cases h
      exact hp.modifyCall id (.of_same False.elim rfl)
    · cases h
  | runStrand id =>
    simp only [Async.next, Option.map_eq_some_iff] at h
    obtain ⟨call, hstep, rfl⟩ := h
    refine hp.modifyCall id ?_
    unfold AsyncCall.runStrand at hstep
    split at hstep
    · cases hstep
      exact .of_same (fun hearly => hearly) rfl
    · cases hstep
      exact .of_same (fun hearly => hearly) rfl
    · rename_i rest _ _
      cases hstep
      have hrun : Moves (s.calls id) { s.calls id with strand := rest } :=
        .of_same (fun hearly => hearly) rfl
      exact hrun.trans (.deliver (by decide) (by decide) _)
    · cases hstep
  | expire id =>
    simp only [Async.next] at h
    split at h
    · cases h
      exact hp.modifyCall id (.of_same (fun hearly => hearly) rfl)
    · cases h
  | completion callId value => exact parked_completion hp h
  | deliver id r => exact parked_deliver hp h
  | stopAndCancelCalls => exact parked_stopAndCancelCalls hp h
  | cancelNext => exact parked_cancelNext hp h
  | enterSync =>
    cases h
    refine hp.withStage (c := s.st.enterSync) hp.staged (fun hidle => ?_) rfl rfl
    simp [CallState.busy, CallState.enterSync] at hidle
  | awaitCompletion callId =>
    simp only [Async.next] at h
    split at h
    · rename_i value st htake
      cases h
      exact hp.take htake
    · cases h
      exact hp
  | leaveSync =>
    simp only [Async.next, Option.ite_none_right_eq_some, Option.some.injEq] at h
    obtain ⟨-, rfl⟩ := h
    refine hp.withStage (c := s.st.leaveSync) (CallState.WellFormed.dropUnclaimedIfIdle hp.staged)
      (fun hidle => .inl (CallState.idle_dropUnclaimedIfIdle hidle))
      (CallState.stopping_dropUnclaimedIfIdle _) (CallState.deferred_dropUnclaimedIfIdle _)
  | dropState =>
    simp only [Async.next, Option.ite_none_right_eq_some, Option.some.injEq] at h
    obtain ⟨hfinished, rfl⟩ := h
    have hstopping := hi.stopping (by simp [hfinished])
    exact ⟨hp.staged, hp.idle, hp.stopped, fun _ => hstopping, hp.undeferred⟩

theorem parked_of_reachable (h : (handle obj).Reachable s) : Parked s := by
  have hboth := h.invariant (I := fun s => Inv s ∧ Parked s) ?_ ?_
  · exact hboth.2
  · rintro s rfl
    exact ⟨inv_initial, parked_initial⟩
  · intro s a s' hinv hstep
    exact ⟨hinv.1.next hstep, hinv.2.next hinv.1 hstep⟩

/-- Some call is outstanding: `busy()` says so, or the completion handler has just taken the call
out of `deferred` and is still at the start of its `deliver()`. -/
def State.CouldClaim (s : State) : Prop :=
  s.st.busy = true ∨ ∃ id o, (s.calls id).resolver .completion = .entered o

/-- With nothing outstanding, nothing is parked. -/
theorem Parked.empty (hp : Parked s) (hnone : ¬ s.CouldClaim) :
    s.st.completions = ∅ ∧ s.st.completionOrder = [] := by
  have hidle : s.st.busy = false := by
    by_contra hbusy
    exact hnone (.inl (by simpa using hbusy))
  rcases hp.idle hidle with hempty | ⟨-, hentered⟩
  · exact ⟨congrArg Stage.entries hempty, congrArg Stage.order hempty⟩
  · exact absurd (.inr hentered) hnone

/-- No `deliver()` is under way. -/
def AtRest (s : State) : Prop := ∀ id r, (s.calls id).resolver r = .idle

/-- At rest, `busy()` alone says what is outstanding. -/
theorem AtRest.not_couldClaim (hrest : AtRest s) (hidle : s.st.busy = false) : ¬ s.CouldClaim := by
  rintro (hbusy | ⟨id, o, hentered⟩)
  · rw [hidle] at hbusy
    cases hbusy
  · rw [hrest id .completion] at hentered
    cases hentered

end actions

end Async

end LogosProtocol
