import LogosProtocol.Async.Resolution

/-!
# Completions that come before their sentinel

A provider that defers a call answers it with a sentinel and pushes the completion later; the
completion can be on the wire before the sentinel.  It is parked until the call that it belongs to
has seen its sentinel, an asynchronous call in its reply handler and a synchronous one in
`awaitCompletion`.

## Main definitions

* `Crowds` — a completion is parked behind which there is no room left for an older one.
* `Undisturbed` — a step that neither ends the call, nor crowds out its completion.
* `Served` — the completion waits for the call, or the call is resolved with it.
-/

namespace LogosProtocol

namespace Async

/-! ## Before the sentinel is handled -/

section parked
variable {obj : Bytes} {s : State} {a : Action}

/-- A completion is parked behind which there is no room left for an older one. -/
def Crowds (callId : QString) (s : State) : Action → Prop
  | .completion other _ => other ≠ callId ∧ other ∉ s.st.completions ∧
      s.st.deferred.lookup other = none ∧
      kParkedCompletionCap ≤ (s.st.staged.newer callId).length + 1
  | _ => False

/-- The step claims a completion. -/
def Claims (callId : QString) (s : State) : Action → Prop
  | .fileDeferred id => (s.calls id).handler = .filing callId
  | .awaitCompletion callId' => callId' = callId
  | _ => False

/-- The completion that arrives under a call id. -/
def Action.announced (callId : QString) : Action → Option QVariant
  | .completion callId' value => if callId' = callId then some value else none
  | _ => none

/-- What is dropped when nothing is outstanding is kept while something is. -/
theorem staged_dropUnclaimedIfIdle_of_busy {st : CallState}
    (hbusy : st.dropUnclaimedIfIdle.busy = true) : st.dropUnclaimedIfIdle.staged = st.staged := by
  rw [CallState.busy_dropUnclaimedIfIdle] at hbusy
  rw [CallState.staged_dropUnclaimedIfIdle, if_pos hbusy]

/-- **A parked completion stays**, while something is outstanding, until it is claimed or crowded
out. -/
theorem lookup_effect (hp : Parked s) {callId : QString} {value : QVariant}
    (hkept : s.st.staged.entries.lookup callId = some value)
    (hunfiled : s.st.deferred.lookup callId = none) (hgone : s.stateGone = false)
    (hstop : a ≠ .stopAndCancelCalls) (hclaims : ¬ Claims callId s a) (hroom : ¬ Crowds callId s a)
    (hbusy : s.st.busy = true) (hbusy' : (effect s a).busy = true) :
    (effect s a).staged.entries.lookup callId = some ((a.announced callId).getD value) := by
  have htaken : ∀ {other : QString} {taken : QVariant × CallState}, other ≠ callId →
      s.st.takeCompletion other = some taken →
        taken.2.staged.entries.lookup callId = some value := by
    intro other taken hne htake
    rw [(CallState.staged_takeCompletion htake).2.1, Stage.lookup_drop_of_ne hne, hkept]
  cases a with
  | register id =>
    simp only [effect]
    split_ifs <;> exact hkept
  | fileDeferred id =>
    simp only [effect, Action.announced]
    split
    · rename_i other hfiling
      have hne : other ≠ callId := by
        rintro rfl
        exact hclaims hfiling
      cases htake : s.st.takeCompletion other with
      | some taken => exact htaken hne htake
      | none =>
        dsimp only
        split_ifs <;> exact hkept
    · exact hkept
  | completion other value' =>
    simp only [effect, hgone, Bool.false_eq_true, if_false, Action.announced]
    cases hlookup : s.st.deferred.lookup other with
    | none =>
      dsimp only
      rw [CallState.staged_parkCompletion, if_pos hbusy]
      split_ifs with hsame
      · rw [hsame]
        exact hp.staged.lookup_park_self (by decide) callId value'
      · have hfew : other ∈ s.st.staged.entries ∨
            (s.st.staged.newer callId).length + 1 < kParkedCompletionCap := by
          by_contra hcrowded
          push Not at hcrowded
          exact hroom ⟨hsame, hcrowded.1, hlookup, hcrowded.2⟩
        rw [hp.staged.lookup_park_of_ne (by decide) hsame hfew, hkept]
        rfl
    | some id =>
      have hne : other ≠ callId := by
        rintro rfl
        rw [hunfiled] at hlookup
        cases hlookup
      rw [if_neg hne]
      exact hkept
  | deliver id r =>
    simp only [effect, Action.announced] at hbusy' ⊢
    split at hbusy'
    · have hleave : (s.leaveRegistries id).st = s.st.leave id (s.calls id).callId := by
        simp [State.leaveRegistries, hgone]
      rw [hleave] at hbusy' ⊢
      unfold CallState.leave at hbusy' ⊢
      rw [staged_dropUnclaimedIfIdle_of_busy hbusy']
      split_ifs <;> exact hkept
    · exact hkept
  | stopAndCancelCalls => exact absurd rfl hstop
  | awaitCompletion other =>
    simp only [effect, Action.announced]
    cases htake : s.st.takeCompletion other with
    | some taken => exact htaken hclaims htake
    | none => exact hkept
  | leaveSync =>
    simp only [effect] at hbusy' ⊢
    unfold CallState.leaveSync at hbusy' ⊢
    rw [staged_dropUnclaimedIfIdle_of_busy hbusy']
    exact hkept
  | _ => exact hkept

end parked

/-- Whose call it is. -/
inductive Owner
  | async (id : UInt64)
  | sync (n : ℕ)
  deriving DecidableEq

/-- The reply is not there, or is a sentinel with this id. -/
def SyncPc.Awaits (callId : QString) : SyncPc → Prop
  | waiting => True
  | awaiting callId' => callId' = callId
  | _ => False

/-- The call has been sent, and its sentinel has not been handled. -/
def Unhandled (callId : QString) (c : Calls) : Owner → Prop
  | .async id => (c.state.calls id).handler.Awaits callId
  | .sync n => (c.sync n).pc.Awaits callId

/-- Nothing has ended the call: it is in flight and nobody has claimed its delivery, or the handle
is not being torn down under it. -/
def Outstanding (c : Calls) : Owner → Prop
  | .async id => id ∈ c.state.st.inflight ∧ (c.state.calls id).delivered = false
  | .sync _ => c.state.st.stopping = false

/-- The completion is there, for a call that has not seen its sentinel. -/
structure Waits (callId : QString) (value : QVariant) (c : Calls) (owner : Owner) : Prop where
  unhandled : Unhandled callId c owner
  outstanding : Outstanding c owner
  staged : c.state.st.staged.entries.lookup callId = some value

/-- The value is what the call is given, or returns. -/
def Resolved (value : QVariant) (c : Calls) : Owner → Prop
  | .async id => (c.state.calls id).Resolves .reply value
  | .sync n =>
    (c.sync n).pc = .leaving { value := value } ∨ (c.sync n).pc = .returned { value := value }

/-- The completion waits for the call, or the call is resolved with it. -/
def Served (callId : QString) (value : QVariant) (c : Calls) (owner : Owner) : Prop :=
  Waits callId value c owner ∨ Resolved value c owner

/-- Call ids are distinct: no other call waits under this one. -/
structure Names (callId : QString) (owner : Owner) (c : Calls) : Prop where
  filing : ∀ id, (c.state.calls id).handler = .filing callId → owner = .async id
  awaiting : ∀ n, (c.sync n).pc = .awaiting callId → owner = .sync n
  deferred : ∀ id, c.state.st.deferred.lookup callId = some id → owner = .async id

/-- The deadline of the call is up, or the handle is torn down. -/
def Interrupts (owner : Owner) : CallsAction → Prop
  | .async .stopAndCancelCalls => True
  | .async (.deliver id r) => owner = .async id ∧ (r = .deadline ∨ r = .teardown)
  | .syncTimeout n => owner = .sync n
  | _ => False

/-- The call is answered with something else than the sentinel. -/
def Diverts (callId : QString) (owner : Owner) (c : Calls) : CallsAction → Prop
  | .async (.answer id res) =>
    owner = .async id ∧ ¬ (res.ok = true ∧ isPendingCallSentinel res.value = some callId)
  | .async (.fail _) => ∃ id, owner = .async id ∧ (c.state.calls id).handler = .pending
  | .syncReply n res =>
    owner = .sync n ∧ ¬ (res.ok = true ∧ isPendingCallSentinel res.value = some callId)
  | _ => False

/-- A step that neither ends the call, nor crowds out its completion. -/
structure Undisturbed (callId : QString) (owner : Owner) (c : Calls) (a : CallsAction) : Prop where
  names : Names callId owner c
  goesOn : ¬ Interrupts owner a
  sentinel : ¬ Diverts callId owner c a
  room : ∀ a', a = .async a' → ¬ Crowds callId c.state a'

/-- Nobody has claimed the delivery of the call. -/
def Unresolved (c : Calls) : Owner → Prop
  | .async id => (c.state.calls id).delivered = false
  | .sync n => (c.sync n).pc = .waiting ∨ ∃ callId, (c.sync n).pc = .awaiting callId

/-- Until the call is resolved, nothing disturbs it. -/
def Quiet (callId : QString) (owner : Owner) (c : Calls) (a : CallsAction) : Prop :=
  Unresolved c owner → Undisturbed callId owner c a

/-- The deadline of the call, or teardown, claims it. -/
def Preempts (owner : Owner) (c : Calls) : CallsAction → Prop
  | .async (.deliver id r) =>
    owner = .async id ∧ (r = .deadline ∨ r = .teardown) ∧ (c.state.calls id).Claiming r
  | _ => False

def CallsAction.announced (callId : QString) : CallsAction → Option QVariant
  | .async a => a.announced callId
  | _ => none

section early
variable {obj : Bytes} {c c' : Calls} {a : CallsAction} {callId : QString} {owner : Owner}
  {value : QVariant}

theorem HandlerPc.Awaits.active {pc : HandlerPc} (h : pc.Awaits callId) : pc.Active := by
  cases pc <;> trivial

theorem HandlerPc.Awaits.early {pc : HandlerPc} (h : pc.Awaits callId) : pc.Early := by
  cases pc <;> trivial

/-- A call whose sentinel is not handled keeps the handle busy. -/
theorem CallsInv.busy (hi : CallsInv obj c) (hunhandled : Unhandled callId c owner)
    (houtstanding : Outstanding c owner) : c.state.st.busy = true := by
  cases owner with
  | async id => simp [CallState.busy, List.ne_nil_of_mem houtstanding.1]
  | sync n =>
    have hpos : 0 < c.state.st.syncOutstanding := by
      refine hi.pos (n := n) ?_
      have hawaits : (c.sync n).pc.Awaits callId := hunhandled
      cases hpc : (c.sync n).pc <;> rw [hpc] at hawaits <;> first
        | rfl
        | exact hawaits.elim
    simp [CallState.busy, hpos]

/-- Nor is its state gone. -/
theorem CallsInv.present (hi : CallsInv obj c) (houtstanding : Outstanding c owner) :
    c.state.stateGone = false := by
  by_contra hgone
  have hstopping := (parked_of_reachable hi.reachable).gone (by simpa using hgone)
  cases owner with
  | async id =>
    have hnone := (inv_of_reachable hi.reachable).stopped hstopping
    rw [Outstanding, hnone] at houtstanding
    cases houtstanding.1
  | sync n =>
    rw [Outstanding, hstopping] at houtstanding
    cases houtstanding

/-- Before its sentinel is handled, only the deadline of a call and teardown call `deliver()`. -/
theorem CallsInv.resolver_idle (hi : CallsInv obj c) {id : UInt64}
    (hawaits : (c.state.calls id).handler.Awaits callId) {r : Resolver} (hdeadline : r ≠ .deadline)
    (hteardown : r ≠ .teardown) : (c.state.calls id).resolver r = .idle := by
  have hsound := ((inv_of_reachable hi.reachable).call id).sound
  cases r with
  | caller =>
    refine hsound.caller_idle ?_
    rw [hsound.sent fun hnot => by rw [hnot] at hawaits; exact hawaits]
    simp
  | reply => exact hsound.reply_idle hawaits.active
  | completion => exact ((parked_of_reachable hi.reachable).undeferred id (.inl hawaits.early)).1
  | deadline => exact absurd rfl hdeadline
  | teardown => exact absurd rfl hteardown

/-- Nobody is deferred under the id of a call whose sentinel is not handled. -/
theorem CallsInv.unfiled (hi : CallsInv obj c) (hunhandled : Unhandled callId c owner)
    (hnames : Names callId owner c) : c.state.st.deferred.lookup callId = none := by
  cases hlookup : c.state.st.deferred.lookup callId with
  | none => rfl
  | some id =>
    have howner := hnames.deferred id hlookup
    subst howner
    have hearly := HandlerPc.Awaits.early hunhandled
    exact absurd hlookup (((parked_of_reachable hi.reachable).undeferred id (.inl hearly)).2 callId)

/-- The step in which a call takes its completion. -/
def Owner.claim : Owner → CallsAction
  | .async id => .async (.fileDeferred id)
  | .sync n => .wake n

/-- **Until it is filed, an asynchronous call awaits its sentinel.** -/
theorem awaits_next {s s' : State} {a : Action} {id : UInt64} (hi : Inv s)
    (hawaits : (s.calls id).handler.Awaits callId) (hopen : (s.calls id).delivered = false)
    (hgone : s.stateGone = false)
    (hidle : ∀ r, a = .deliver id r → (s.calls id).resolver r = .idle)
    (hfile : a ≠ .fileDeferred id)
    (hsentinel : ∀ res, a = .answer id res →
      res.ok = true ∧ isPendingCallSentinel res.value = some callId)
    (hfail : ∀ reason, a = .fail reason → (s.calls id).handler ≠ .pending)
    (h : Async.next obj s a = some s') : (s'.calls id).handler.Awaits callId := by
  by_cases hhandles : a.Handles id
  · cases a with
    | answer id' res =>
      obtain rfl : id = id' := hhandles
      simp only [Async.next] at h
      split at h <;> cases h
      rw [State.calls_modify_self]
      exact hsentinel res rfl
    | handleReply id' =>
      obtain rfl : id = id' := hhandles
      simp only [Async.next] at h
      split at h
      · rename_i res hanswered
        cases h
        rw [hanswered] at hawaits
        obtain ⟨hok, hpending⟩ := hawaits
        rw [State.calls_modify_self]
        simp [AsyncCall.handleReply, hok, hpending, hgone, HandlerPc.Awaits]
      · cases h
    | loadDelivered id' =>
      obtain rfl : id = id' := hhandles
      simp only [Async.next] at h
      split at h
      · rename_i callId' hdeferring
        cases h
        rw [hdeferring] at hawaits
        rw [State.calls_modify_self]
        simpa [hopen, HandlerPc.Awaits] using hawaits
      · cases h
    | fileDeferred id' =>
      obtain rfl : id = id' := hhandles
      exact absurd rfl hfile
    | fail reason =>
      cases h
      have hsame : (s.calls id).sweep reason = s.calls id := by
        unfold AsyncCall.sweep
        split
        · rename_i hpending
          exact absurd hpending (hfail reason rfl)
        · rfl
      show ((s.calls id).sweep reason).handler.Awaits callId
      rwa [hsame]
    | _ => exact hhandles.elim
  · rw [(untouched_next hi h hidle).handler hawaits hhandles]
    exact hawaits

/-- The completion arrives. -/
theorem CallsInv.arrive (hi : CallsInv obj c) (hunhandled : Unhandled callId c owner)
    (houtstanding : Outstanding c owner) (hnames : Names callId owner c)
    (h : c.next obj (.async (.completion callId value)) = some c') :
    Waits callId value c' owner := by
  have hbusy := hi.busy hunhandled houtstanding
  simp only [Calls.next, Action.isSync, Bool.false_eq_true, if_false, Async.next,
    hi.present houtstanding, hi.unfiled hunhandled hnames, Option.map_some, Option.some.injEq] at h
  subst h
  refine ⟨?_, ?_, ?_⟩
  · cases owner <;> exact hunhandled
  · cases owner with
    | async id =>
      exact ⟨(CallState.inflight_parkCompletion ..).symm ▸ houtstanding.1, houtstanding.2⟩
    | sync n => exact (CallState.stopping_parkCompletion ..).trans houtstanding
  · show ((c.state.st.parkCompletion callId value).staged).entries.lookup callId = some value
    rw [CallState.staged_parkCompletion, if_pos hbusy]
    exact (parked_of_reachable hi.reachable).staged.lookup_park_self (by decide) callId value

/-- An asynchronous call takes its completion in its reply handler. -/
theorem Waits.fileDeferred {id : UInt64} (hw : Waits callId value c (.async id))
    (h : c.next obj (.async (.fileDeferred id)) = some c') : Resolved value c' (.async id) := by
  obtain ⟨st, htake⟩ := CallState.takeCompletion_of_lookup hw.staged
  have hawaits : (c.state.calls id).handler.Awaits callId := hw.unhandled
  simp only [Calls.next, Action.isSync, Bool.false_eq_true, if_false, Async.next] at h
  split at h
  · rename_i callId' hfiling
    rw [hfiling] at hawaits
    obtain rfl : callId' = callId := hawaits
    simp only [Option.map_some, Option.some.injEq, State.fileDeferred, htake] at h
    subst h
    show AsyncCall.Resolves .reply value (State.calls _ id)
    rw [State.calls_modify_self]
    refine .underWay ?_ (.inl hw.outstanding.2)
    rw [AsyncCall.deliver, AsyncCall.resolver_setResolver_self]
    rfl
  · cases h

/-- A synchronous call takes its completion when its wait is over. -/
theorem Waits.wake {n : ℕ} (hw : Waits callId value c (.sync n))
    (h : c.next obj (.wake n) = some c') : Resolved value c' (.sync n) := by
  obtain ⟨st, htake⟩ := CallState.takeCompletion_of_lookup hw.staged
  have hawaits : (c.sync n).pc.Awaits callId := hw.unhandled
  simp only [Calls.next] at h
  split at h
  · rename_i callId' hawaiting
    rw [hawaiting] at hawaits
    obtain rfl : callId' = callId := hawaits
    simp only [Calls.awaitCompletion, htake, Option.some.injEq] at h
    subst h
    exact .inl (Calls.pc_setSync_self ..)
  · cases h

/-- Which step of the handle is behind a step of the call state. -/
theorem stateAction_eq {a' : Action} (h : c.stateAction a = some a') :
    a = .async a' ∨ a'.isSync = true ∧
      ∀ callId, a' = .awaitCompletion callId →
        ∃ n, a = .wake n ∧ (c.sync n).pc = .awaiting callId := by
  cases a with
  | async a =>
    cases h
    exact .inl rfl
  | callSync n method timeoutMs =>
    cases h
    exact .inr ⟨rfl, fun callId heq => by cases heq⟩
  | returnSync n =>
    cases h
    exact .inr ⟨rfl, fun callId heq => by cases heq⟩
  | wake n =>
    simp only [Calls.stateAction] at h
    split at h
    · rename_i callId hawaiting
      cases h
      refine .inr ⟨rfl, fun callId' heq => ⟨n, rfl, ?_⟩⟩
      cases heq
      exact hawaiting
    · cases h
  | syncTimeout n | syncReply n res => cases h

/-- Completions arrive in steps of the call state. -/
theorem announced_eq {a' : Action} (h : c.stateAction a = some a') :
    a.announced callId = a'.announced callId := by
  rcases stateAction_eq h with rfl | ⟨hsync, -⟩
  · rfl
  · cases a with
    | async a =>
      cases h
      rfl
    | _ =>
      cases a' with
      | completion callId' value => cases hsync
      | _ => rfl

/-- **Until its wait is over, a synchronous call awaits its sentinel.** -/
theorem syncAwaits_next {n : ℕ} (hawaits : (c.sync n).pc.Awaits callId)
    (hclaim : a ≠ .wake n) (hgoesOn : ¬ Interrupts (.sync n) a)
    (hsentinel : ¬ Diverts callId (.sync n) c a) (h : c.next obj a = some c') :
    (c'.sync n).pc.Awaits callId := by
  by_cases hown : a.syncCall = some n
  · cases a with
    | async a => cases hown
    | callSync m method timeoutMs =>
      obtain rfl := Option.some.inj hown
      simp only [Calls.next] at h
      split at h
      · rename_i hidle
        rw [hidle] at hawaits
        exact hawaits.elim
      · cases h
    | syncTimeout m =>
      obtain rfl := Option.some.inj hown
      exact absurd rfl hgoesOn
    | syncReply m res =>
      obtain rfl := Option.some.inj hown
      simp only [Calls.next] at h
      split at h
      · cases h
        have hdefers : res.ok = true ∧ isPendingCallSentinel res.value = some callId := by
          by_contra hnot
          exact hsentinel ⟨rfl, hnot⟩
        rw [Calls.pc_setSync_self]
        simp [syncResult, hdefers.1, hdefers.2, SyncPc.Awaits]
      · cases h
    | wake m =>
      obtain rfl := Option.some.inj hown
      exact absurd rfl hclaim
    | returnSync m =>
      obtain rfl := Option.some.inj hown
      simp only [Calls.next] at h
      split at h
      · rename_i o hleaving
        rw [hleaving] at hawaits
        exact hawaits.elim
      · cases h
  · rwa [sync_next h hown]

/-- A synchronous call returns what it has. -/
theorem syncResolved_next {n : ℕ} {o : Outcome}
    (hresolved : (c.sync n).pc = .leaving o ∨ (c.sync n).pc = .returned o)
    (h : c.next obj a = some c') :
    (c'.sync n).pc = .leaving o ∨ (c'.sync n).pc = .returned o := by
  by_cases hown : a.syncCall = some n
  · cases a with
    | async a => cases hown
    | returnSync m =>
      obtain rfl := Option.some.inj hown
      simp only [Calls.next] at h
      split at h
      · rename_i o' hleaving
        cases h
        rw [hleaving] at hresolved
        refine .inr ?_
        rw [Calls.pc_setSync_self]
        rcases hresolved with hsame | hreturned
        · cases hsame
          rfl
        · cases hreturned
      · cases h
    | callSync m | syncTimeout m | syncReply m | wake m =>
      obtain rfl := Option.some.inj hown
      simp only [Calls.next] at h
      split at h
      · rename_i hpc
        rw [hpc] at hresolved
        rcases hresolved with hleaving | hreturned
        · cases hleaving
        · cases hreturned
      · cases h
  · rwa [sync_next h hown]

/-- Only the deadline of a call and teardown call `deliver()` on it. -/
theorem Undisturbed.idle (hi : CallsInv obj c) {id : UInt64}
    (hunhandled : Unhandled callId c (.async id)) (hq : Undisturbed callId (.async id) c a)
    {a' : Action} (ha : c.stateAction a = some a') (r : Resolver) (hdeliver : a' = .deliver id r) :
    (c.state.calls id).resolver r = .idle := by
  subst hdeliver
  rcases stateAction_eq ha with rfl | ⟨hsync, -⟩
  · refine hi.resolver_idle hunhandled ?_ ?_
    · exact fun hr => hq.goesOn ⟨rfl, .inl hr⟩
    · exact fun hr => hq.goesOn ⟨rfl, .inr hr⟩
  · cases hsync

/-- The step does not tear the handle down. -/
theorem Undisturbed.running (hq : Undisturbed callId owner c a) {a' : Action}
    (ha : c.stateAction a = some a') : a' ≠ .stopAndCancelCalls := by
  rintro rfl
  rcases stateAction_eq ha with rfl | ⟨hsync, -⟩
  · exact hq.goesOn trivial
  · cases hsync

/-- The call goes on. -/
theorem Undisturbed.unhandled_next (hi : CallsInv obj c) (hunhandled : Unhandled callId c owner)
    (houtstanding : Outstanding c owner) (hq : Undisturbed callId owner c a)
    (hclaim : a ≠ owner.claim) (h : c.next obj a = some c') : Unhandled callId c' owner := by
  cases owner with
  | async id =>
    rcases hi.next_state h with ⟨a', ha, hstep⟩ | ⟨-, hsame⟩
    · have hasync : a'.isSync = false → a = .async a' := by
        intro hsync
        refine (stateAction_eq ha).resolve_right fun hnot => ?_
        rw [hsync] at hnot
        cases hnot.1
      refine awaits_next (inv_of_reachable hi.reachable) hunhandled houtstanding.2
        (hi.present houtstanding) (hq.idle hi hunhandled ha) ?_ ?_ ?_ hstep
      · rintro rfl
        exact hclaim (hasync rfl)
      · rintro res rfl
        obtain rfl := hasync rfl
        by_contra hnot
        exact hq.sentinel ⟨rfl, hnot⟩
      · rintro reason rfl hpending
        obtain rfl := hasync rfl
        exact hq.sentinel ⟨id, rfl, hpending⟩
    · show (c'.state.calls id).handler.Awaits callId
      rw [hsame]
      exact hunhandled
  | sync n => exact syncAwaits_next hunhandled hclaim hq.goesOn hq.sentinel h

/-- Nothing ends a call but a `deliver()` on it, or teardown. -/
theorem Undisturbed.outstanding_next (hi : CallsInv obj c) (houtstanding : Outstanding c owner)
    (hq : Undisturbed callId owner c a)
    (hidle : ∀ id, owner = .async id → ∀ a', c.stateAction a = some a' → ∀ r, a' = .deliver id r →
      (c.state.calls id).resolver r = .idle)
    (h : c.next obj a = some c') : Outstanding c' owner := by
  rcases hi.next_state h with ⟨a', ha, hstep⟩ | ⟨-, hsame⟩
  · cases owner with
    | async id =>
      refine ⟨?_, ?_⟩
      · rw [st_next hstep]
        exact mem_inflight_effect c.state houtstanding.1 (hidle id rfl a' ha) (hq.running ha)
      · rw [(untouched_next (inv_of_reachable hi.reachable) hstep (hidle id rfl a' ha)).delivered]
        exact houtstanding.2
    | sync n =>
      show c'.state.st.stopping = false
      rw [st_next hstep, stopping_effect c.state (hq.running ha)]
      exact houtstanding
  · cases owner <;> simpa only [Outstanding, hsame] using houtstanding

/-- A call whose sentinel is not handled is not ended. -/
theorem Undisturbed.unhandled_outstanding (hi : CallsInv obj c)
    (hunhandled : Unhandled callId c owner) (houtstanding : Outstanding c owner)
    (hq : Undisturbed callId owner c a) (h : c.next obj a = some c') : Outstanding c' owner := by
  refine hq.outstanding_next hi houtstanding ?_ h
  rintro id rfl a' ha r hdeliver
  exact hq.idle hi hunhandled ha r hdeliver

/-- **The completion waits for its call.** -/
theorem Waits.next (hi : CallsInv obj c) (hw : Waits callId value c owner)
    (hq : Undisturbed callId owner c a) (hclaim : a ≠ owner.claim) (h : c.next obj a = some c') :
    Waits callId ((a.announced callId).getD value) c' owner := by
  have hunhandled := hq.unhandled_next hi hw.unhandled hw.outstanding hclaim h
  have houtstanding := hq.unhandled_outstanding hi hw.unhandled hw.outstanding h
  refine ⟨hunhandled, houtstanding, ?_⟩
  rcases hi.next_state h with ⟨a', ha, hstep⟩ | ⟨hnone, hsame⟩
  · have hbusy := (hi.next h).busy hunhandled houtstanding
    rw [st_next hstep] at hbusy ⊢
    have hclaims : ¬ Claims callId c.state a' := by
      intro hnot
      rcases stateAction_eq ha with rfl | ⟨hsync, hwake⟩
      · cases a' with
        | fileDeferred id => exact hclaim ((hq.names.filing id hnot) ▸ rfl)
        | awaitCompletion callId' => simp [Calls.next, Action.isSync] at h
        | _ => exact hnot.elim
      · cases a' with
        | awaitCompletion callId' =>
          obtain ⟨n, rfl, hawaiting⟩ := hwake callId' rfl
          obtain rfl : callId' = callId := hnot
          exact hclaim ((hq.names.awaiting n hawaiting) ▸ rfl)
        | fileDeferred id => cases hsync
        | _ => exact hnot.elim
    have hroom : ¬ Crowds callId c.state a' := by
      intro hcrowds
      rcases stateAction_eq ha with rfl | ⟨hsync, -⟩
      · exact hq.room a' rfl hcrowds
      · cases a' with
        | completion callId' value' => cases hsync
        | _ => exact hcrowds.elim
    rw [announced_eq ha]
    exact lookup_effect (parked_of_reachable hi.reachable) hw.staged
      (hi.unfiled hw.unhandled hq.names) (hi.present hw.outstanding) (hq.running ha) hclaims hroom
      (hi.busy hw.unhandled hw.outstanding) hbusy
  · have hannounced : a.announced callId = none := by
      cases a with
      | async a => cases hnone
      | _ => rfl
    rw [hannounced, hsame]
    exact hw.staged

theorem Preempts.unresolved (h : Preempts owner c a) : Unresolved c owner ∧ Interrupts owner a := by
  cases a with
  | async a =>
    cases a with
    | deliver id r =>
      obtain ⟨rfl, hr, hclaiming⟩ := h
      exact ⟨hclaiming.1, rfl, hr⟩
    | _ => exact h.elim
  | _ => exact h.elim

theorem Unhandled.unresolved (hunhandled : Unhandled callId c owner)
    (houtstanding : Outstanding c owner) : Unresolved c owner := by
  cases owner with
  | async id => exact houtstanding.2
  | sync n =>
    have hawaits : (c.sync n).pc.Awaits callId := hunhandled
    cases hpc : (c.sync n).pc with
    | waiting => exact .inl hpc
    | awaiting callId' => exact .inr ⟨callId', hpc⟩
    | idle | leaving o | returned o =>
      rw [hpc] at hawaits
      exact hawaits.elim

/-- **A call on which a handler has called `deliver()` is resolved by it**, unless it is claimed
first. -/
theorem CallsInv.resolves_next (hi : CallsInv obj c) {id : UInt64} {r : Resolver} (hr : r.Completes)
    (hresolves : (c.state.calls id).Resolves r value) (hahead : ¬ Preempts (.async id) c a)
    (h : c.next obj a = some c') : (c'.state.calls id).Resolves r value := by
  rcases hi.next_state h with ⟨a', ha, hstep⟩ | ⟨-, hsame⟩
  · refine AsyncCall.Resolves.next (inv_of_reachable hi.reachable)
      (parked_of_reachable hi.reachable) hr hresolves (fun l hl hdeliver hclaiming => ?_) hstep
    subst hdeliver
    rcases stateAction_eq ha with rfl | ⟨hsync, -⟩
    · exact hahead ⟨rfl, hl, hclaiming⟩
    · cases hsync
  · rwa [hsame]

theorem Resolved.next (hi : CallsInv obj c) (hresolved : Resolved value c owner)
    (hahead : ¬ Preempts owner c a) (h : c.next obj a = some c') : Resolved value c' owner := by
  cases owner with
  | async id => exact hi.resolves_next trivial hresolved hahead h
  | sync n => exact syncResolved_next hresolved h

/-- **A call is served with its completion**, step by step. -/
theorem Served.next (hi : CallsInv obj c) (hs : Served callId value c owner)
    (hq : Waits callId value c owner → Undisturbed callId owner c a)
    (hahead : Resolved value c owner → ¬ Preempts owner c a) (h : c.next obj a = some c') :
    ∃ v, (v = value ∨ a.announced callId = some v) ∧ Served callId v c' owner := by
  rcases hs with hw | hresolved
  · by_cases hclaim : a = owner.claim
    · refine ⟨value, .inl rfl, .inr ?_⟩
      subst hclaim
      cases owner with
      | async id => exact hw.fileDeferred h
      | sync n => exact hw.wake h
    · refine ⟨_, ?_, .inl (hw.next hi (hq hw) hclaim h)⟩
      cases a.announced callId with
      | none => exact .inl rfl
      | some v => exact .inr rfl
  · exact ⟨value, .inl rfl, .inr (hresolved.next hi (hahead hresolved) h)⟩

/-- **A call is served with its completion** at every point of its run. -/
theorem Served.run {as : List CallsAction} (hi : CallsInv obj c) (hs : Served callId value c owner)
    (hrun : ((calls obj).restrict (Quiet callId owner)).Run c as c') :
    CallsInv obj c' ∧ ∃ v ∈ value :: as.filterMap (CallsAction.announced callId),
      Served callId v c' owner := by
  induction hrun with
  | nil => exact ⟨hi, value, List.mem_cons_self, hs⟩
  | snoc hrun hstep ih =>
    obtain ⟨hi', v, hv, hserved⟩ := ih
    obtain ⟨v', hv', hserved'⟩ := hserved.next hi'
      (fun hw => hstep.2 (hw.unhandled.unresolved hw.outstanding)) (fun _ hpreempts =>
        (hstep.2 hpreempts.unresolved.1).goesOn hpreempts.unresolved.2) hstep.1
    refine ⟨hi'.next hstep.1, v', ?_, hserved'⟩
    rw [List.filterMap_append, ← List.cons_append]
    rcases hv' with rfl | hannounced
    · exact List.mem_append_left _ hv
    · exact List.mem_append_right _ (by simp [hannounced])

/-- The steps of the call itself, from the moment that its reply is there. -/
def Owner.steps : Owner → List CallsAction
  | .async id => [.async (.handleReply id), .async (.loadDelivered id), .async (.fileDeferred id),
      .async (.deliver id .reply)]
  | .sync n => [.wake n, .returnSync n]

/-- The reply is not there yet. -/
def Unanswered (c : Calls) : Owner → Prop
  | .async id => (c.state.calls id).handler = .pending
  | .sync n => (c.sync n).pc = .waiting

/-- The callback has been given the value, or the call has returned it. -/
def Finished (value : QVariant) (c : Calls) : Owner → Prop
  | .async id => (c.state.calls id).posted = [{ value := value }]
  | .sync n => (c.sync n).pc = .returned { value := value }

/-- A resolver in `deliver()` goes on. -/
theorem AsyncCall.Resolves.goesOn {id : UInt64} {r : Resolver}
    (hresolves : (c.state.calls id).Resolves r value) :
    (c.state.calls id).posted = [{ value := value }] ∨
      (c.next obj (.async (.deliver id r))).isSome := by
  rcases hresolves with ⟨houtcome, -⟩ | hposted
  · right
    cases hpc : (c.state.calls id).resolver r with
    | idle =>
      rw [hpc] at houtcome
      cases houtcome
    | left o =>
      cases hdelivered : (c.state.calls id).delivered <;>
        simp [Calls.next, Async.next, Action.isSync, hpc, AsyncCall.resolve, hdelivered]
    | _ => simp [Calls.next, Async.next, Action.isSync, hpc, AsyncCall.resolve]
  · exact .inl hposted

/-- A call that is served does not stop before it has its completion. -/
theorem Served.goesOn (hs : Served callId value c owner) :
    Unanswered c owner ∨ Finished value c owner ∨ ∃ a ∈ owner.steps, (c.next obj a).isSome := by
  rcases hs with hw | hresolved
  · cases owner with
    | async id =>
      have hawaits : (c.state.calls id).handler.Awaits callId := hw.unhandled
      cases hpc : (c.state.calls id).handler with
      | pending => exact .inl hpc
      | answered res =>
        refine .inr (.inr ⟨.async (.handleReply id), by simp [Owner.steps], ?_⟩)
        simp [Calls.next, Async.next, Action.isSync, hpc]
      | deferring callId' =>
        refine .inr (.inr ⟨.async (.loadDelivered id), by simp [Owner.steps], ?_⟩)
        simp [Calls.next, Async.next, Action.isSync, hpc]
      | filing callId' =>
        refine .inr (.inr ⟨.async (.fileDeferred id), by simp [Owner.steps], ?_⟩)
        simp [Calls.next, Async.next, Action.isSync, hpc]
      | unregistered | withdrawn | filed | returned =>
        rw [hpc] at hawaits
        exact hawaits.elim
    | sync n =>
      have hawaits : (c.sync n).pc.Awaits callId := hw.unhandled
      cases hpc : (c.sync n).pc with
      | waiting => exact .inl hpc
      | awaiting callId' =>
        refine .inr (.inr ⟨.wake n, by simp [Owner.steps], ?_⟩)
        simp [Calls.next, hpc]
      | idle | leaving o | returned o =>
        rw [hpc] at hawaits
        exact hawaits.elim
  · cases owner with
    | async id =>
      rcases AsyncCall.Resolves.goesOn hresolved with hposted | hsome
      · exact .inr (.inl hposted)
      · exact .inr (.inr ⟨.async (.deliver id .reply), by simp [Owner.steps], hsome⟩)
    | sync n =>
      rcases hresolved with hleaving | hreturned
      · refine .inr (.inr ⟨.returnSync n, by simp [Owner.steps], ?_⟩)
        simp [Calls.next, hleaving]
      · exact .inr (.inl hreturned)

/-- **Parked completions.**  The order lists what is parked, once each and within the bound, and
when nothing is outstanding and no handler is part-way through, nothing is parked.  A completion
that arrives after its call was sent and before its sentinel is handled waits for the call and is
what the call is resolved with, unless the deadline of the call or teardown comes first, or so many
newer completions are parked behind it that it has to go. -/
theorem completions_parked (h : (calls obj).Reachable c) :
    c.state.st.completionOrder.Nodup ∧
    (∀ key, key ∈ c.state.st.completionOrder ↔ key ∈ c.state.st.completions) ∧
    c.state.st.completionOrder.length ≤ kParkedCompletionCap ∧
    (AtRest c.state → c.state.st.busy = false →
      c.state.st.completions = ∅ ∧ c.state.st.completionOrder = []) ∧
    ∀ callId owner value, Unhandled callId c owner → Outstanding c owner → Names callId owner c →
      ∃ c₁, c.next obj (.async (.completion callId value)) = some c₁ ∧
        ∀ as c₂, ((calls obj).restrict (Quiet callId owner)).Run c₁ as c₂ →
          ∃ v ∈ value :: as.filterMap (CallsAction.announced callId),
            Served callId v c₂ owner ∧
            (Unanswered c₂ owner ∨ Finished v c₂ owner ∨
              ∃ a ∈ owner.steps, (c₂.next obj a).isSome) := by
  have hi := callsInv_of_reachable h
  have hp := parked_of_reachable hi.reachable
  refine ⟨hp.staged.nodup, hp.staged.keys, hp.staged.bound,
    fun hrest hidle => hp.empty (hrest.not_couldClaim hidle), ?_⟩
  intro callId owner value hunhandled houtstanding hnames
  have hstep : ∃ c₁, c.next obj (.async (.completion callId value)) = some c₁ := by
    simp [Calls.next, Action.isSync, Async.next, hi.present houtstanding,
      hi.unfiled hunhandled hnames]
  obtain ⟨c₁, hstep⟩ := hstep
  refine ⟨c₁, hstep, fun as c₂ hrun => ?_⟩
  have hw := hi.arrive hunhandled houtstanding hnames hstep
  obtain ⟨-, v, hv, hserved⟩ := Served.run (hi.next hstep) (.inl hw) hrun
  exact ⟨v, hv, hserved, hserved.goesOn⟩

end early

/-- The completion of a synchronous call is there before its sentinel. -/
theorem completions_parked_early :
    ∃ c, Served (qstr "c") (.bool true) c (.sync 0) ∧ Finished (.bool true) c (.sync 0) := by
  have hcalled : (calls (bstr "o")).Reachable _ :=
    TransitionSystem.Reachable.step (.init rfl) (a := .callSync 0 (bstr "m") 20) rfl
  have halone : ∀ {c : Calls}, (∀ id, (c.state.calls id).handler = .unregistered) →
      (∀ n, n ≠ 0 → (c.sync n).pc = .idle) → c.state.st.deferred = ∅ →
      Names (qstr "c") (.sync 0) c := by
    intro c hcalls hsync hdeferred
    refine ⟨fun id hfiling => ?_, fun n hawaiting => ?_, fun id hlookup => ?_⟩
    · rw [hcalls id] at hfiling
      cases hfiling
    · by_contra hne
      rw [hsync n fun heq => hne (congrArg Owner.sync heq.symm)] at hawaiting
      cases hawaiting
    · rw [hdeferred] at hlookup
      cases hlookup
  obtain ⟨-, -, -, -, hearly⟩ := completions_parked hcalled
  obtain ⟨c₁, hparked, hserved⟩ := hearly (qstr "c") (.sync 0) (.bool true) trivial rfl
    (halone (fun _ => rfl) (fun n hn => by simp [hn]) rfl)
  have hrun : ∃ as c₂, ((calls (bstr "o")).restrict (Quiet (qstr "c") (.sync 0))).Run c₁ as c₂ ∧
      as.filterMap (CallsAction.announced (qstr "c")) = [] ∧
      Finished (.bool true) c₂ (.sync 0) := by
    obtain rfl := Option.some.inj hparked
    let answer : Reply := { ok := true, value := .map [(pendingCallKey, .string (qstr "c"))] }
    refine ⟨_, _, (((TransitionSystem.Run.nil _).next (.syncReply 0 answer) ?_ rfl).next
      (.wake 0) ?_ rfl).next (.returnSync 0) ?_ rfl, rfl, ?_⟩
    · exact fun _ => ⟨halone (fun _ => rfl) (fun n hn => by simp [hn]) rfl, id,
        fun h => h.2 ⟨rfl, rfl⟩, fun a' ha => by cases ha⟩
    · exact fun _ => ⟨halone (fun _ => rfl) (fun n hn => by simp [hn, Calls.setSync]) rfl, id, id,
        fun a' ha => by cases ha⟩
    · exact fun hunresolved => by rcases hunresolved with h | ⟨callId, h⟩ <;> cases h
    · exact Calls.pc_setSync_self ..
  obtain ⟨as, c₂, hrun, hnone, hfinished⟩ := hrun
  obtain ⟨v, hv, hserves, -⟩ := hserved as c₂ hrun
  rw [hnone, List.mem_singleton] at hv
  exact ⟨c₂, hv ▸ hserves, hfinished⟩

end Async

end LogosProtocol
