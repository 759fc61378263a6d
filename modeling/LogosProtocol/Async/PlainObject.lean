import LogosProtocol.Async.Filed
import LogosProtocol.Rpc.EventDispatch

/-!
# The completion channel of a plain handle

A handle of the plain transport hears of its completions through a registration on its connection,
which its first call makes.  The registration is listed with those of `onEvent`, so
`disconnectEvents` withdraws it with them, and no later call makes it again.

The connection is open and the handle is not released.  Other handles use the connection as well.

## Main definitions

* `State`, `Action`, `next`, `handle` — a handle, its calls and its registrations.
* `Live` — the registration for completions is there, and the handle owns it.
* `Keeps` — a step that leaves it to whoever needs it.
* `Answers` — what then holds of deferred calls whose completion comes before their deadline.
-/

namespace LogosProtocol

open Async Subscriptions

def callCompleteEvent : QString := qstr "__logos_call_complete__"

namespace PlainObject

structure State where
  calls : Calls := {}
  /-- The consumer's end of the connection. -/
  peer : Peer := {}
  /-- What the handle has registered, by its ids. -/
  subs : List ℕ := []
  /-- Taken out of `subs` by `disconnectEvents`, and still to be withdrawn. -/
  withdrawing : List ℕ := []
  completionSubscribed : Bool := false
  /-- The calls that are past `ensureCompletionSub`. -/
  entered : Owner → Bool := fun _ => false

/-- The callback that `subscribeToCompletions` registers.  Those of the users come after it. -/
def completionHandler : ℕ := 0

/-- `onEvent`, in the critical section of the handle. -/
def State.onEvent (objectName : Bytes) (s : State) (eventName : QString) (callback : ℕ) : State :=
  { s with
    peer := s.peer.onEvent objectName eventName callback
    subs := s.subs ++ [s.peer.nextSubId] }

/-- Whoever comes first subscribes, and the others wait for it. -/
def State.ensureCompletionSub (objectName : Bytes) (s : State) : State :=
  if s.completionSubscribed then s
  else
    { s.onEvent objectName callCompleteEvent completionHandler with completionSubscribed := true }

inductive Action
  /-- A call begins. -/
  | ensureCompletionSub (owner : Owner)
  /-- The next step of a call. -/
  | call (a : CallsAction)
  /-- An event arrives whose data are the id and the value of a completion. -/
  | callComplete (data : List RpcValue) (callId : QString) (value : QVariant)
  | onEvent (eventName : QString) (callback : ℕ)
  /-- `disconnectEvents` up to its loop. -/
  | disconnectEvents
  /-- The loop of a `disconnectEvents`. -/
  | sendUnsubscribe (sid : ℕ)
  /-- Another handle of the connection registers. -/
  | otherOnEvent (object : Bytes) (eventName : QString) (callback : ℕ)
  /-- Another handle withdraws what it has registered. -/
  | otherUnsubscribe (sid : ℕ)

/-- The step builds the call. -/
def enters : CallsAction → Option Owner
  | .async (.callAsync id _ _) => some (.async id)
  | .callSync n _ _ => some (.sync n)
  | _ => none

/-- The connection fails or the handle is released, or a completion comes without an event. -/
def excluded : CallsAction → Bool
  | .async (.fail _) | .async .stopAndCancelCalls | .async .cancelNext | .async .dropState => true
  | .async (.completion _ _) => true
  | _ => false

/-- The event invokes the completion handler. -/
def State.hears (objectName : Bytes) (s : State) (data : List RpcValue) : Bool :=
  (s.peer.eventCallbacks objectName callCompleteEvent data).contains completionHandler

def next (objectName : Bytes) (s : State) : Action → Option State
  | .ensureCompletionSub owner =>
    if s.entered owner then none
    else
      let s := s.ensureCompletionSub objectName
      some { s with entered := Function.update s.entered owner true }
  | .call a =>
    if excluded a || (enters a).any fun owner => !s.entered owner then none
    else (s.calls.next objectName a).map fun calls => { s with calls := calls }
  | .callComplete data callId value =>
    if s.hears objectName data then
      (s.calls.next objectName (.async (.completion callId value))).map fun calls =>
        { s with calls := calls }
    else some s
  | .onEvent eventName callback => some (s.onEvent objectName eventName (callback + 1))
  | .disconnectEvents => some { s with subs := [], withdrawing := s.withdrawing ++ s.subs }
  | .sendUnsubscribe sid =>
    if sid ∈ s.withdrawing then
      some { s with
        peer := (s.peer.sendUnsubscribe sid).1
        withdrawing := s.withdrawing.erase sid }
    else none
  | .otherOnEvent object eventName callback =>
    some { s with peer := s.peer.onEvent object eventName (callback + 1) }
  | .otherUnsubscribe sid =>
    -- The ids of this handle are known to nobody else.
    if sid ∈ s.subs ∨ sid ∈ s.withdrawing then none
    else some { s with peer := (s.peer.sendUnsubscribe sid).1 }

/-- The handle, from the moment it is built. -/
def handle (objectName : Bytes) : TransitionSystem State Action := .ofNext {} (next objectName)

/-! ## Who needs the registration -/

/-- The registration for completions is there, and the handle owns it. -/
def Live (objectName : Bytes) (s : State) : Prop :=
  ∃ sid ∈ s.subs, ((objectName, callCompleteEvent.toUtf8), ⟨sid, completionHandler⟩) ∈
    s.peer.collect (objectName, callCompleteEvent.toUtf8)

/-- What the call is resolved with is settled. -/
def Settled (c : Calls) : Owner → Prop
  | .async id => (c.state.calls id).delivered = true
  | .sync n => ∃ o, (c.sync n).pc = .leaving o ∨ (c.sync n).pc = .returned o

/-- The call has begun, and is not resolved. -/
structure Open (s : State) (owner : Owner) : Prop where
  entered : s.entered owner = true
  unsettled : ¬ Settled s.calls owner

/-- No call begins after the registration has gone, and it does not go while a call is open. -/
def Keeps (objectName : Bytes) (s : State) : Action → Prop
  | .ensureCompletionSub _ => s.completionSubscribed = true → Live objectName s
  | .disconnectEvents => ∀ owner, ¬ Open s owner
  | _ => True

/-- What holds of the handle in every run. -/
structure Inv (objectName : Bytes) (s : State) : Prop where
  calls : (Async.calls objectName).Reachable s.calls
  /-- Whatever is registered goes under its own id. -/
  distinct : (s.subs ++ s.withdrawing).Nodup
  issued : ∀ sid ∈ s.subs ++ s.withdrawing, sid < s.peer.nextSubId
  async : ∀ id, (s.calls.state.calls id).caller ≠ .idle → s.entered (.async id) = true
  sync : ∀ n, (s.calls.sync n).pc ≠ .idle → s.entered (.sync n) = true

section steps
variable {obj : Bytes} {s s' : State} {a : Action} {c c' : Calls} {b : CallsAction} {owner : Owner}

/-- A claim is not taken back. -/
theorem delivered_next {t t' : Async.State} {b : Async.Action} (hi : Async.Inv t)
    (h : Async.next obj t b = some t') {id : UInt64} (hdelivered : (t.calls id).delivered = true) :
    (t'.calls id).delivered = true := by
  by_cases hown : ∃ r, b = .deliver id r
  · obtain ⟨r, rfl⟩ := hown
    simp only [Async.next] at h
    split at h
    · cases h
      rw [Async.State.calls_modify_self, Async.State.calls_leaveRegistries]
      exact hdelivered
    · obtain ⟨call, hstep, rfl⟩ := Option.map_eq_some_iff.mp h
      rw [Async.State.calls_modify_self]
      by_cases hwon : ((t.calls id).resolver r).Won
      · generalize (t.calls id).resolver r = pc at hstep hwon
        cases pc with
        | took cb o =>
          cases hstep
          show (t.calls id).cancelPending.delivered = true
          unfold AsyncCall.cancelPending
          split <;> exact hdelivered
        | idle | entered o | left o => exact hwon.elim
        | claimed o | withdrew cb o | cancelled cb o =>
          cases hstep
          exact hdelivered
      · rw [resolve_loser hwon hdelivered hstep]
        exact hdelivered
  · refine (untouched_next hi h fun r heq => ?_).delivered.trans hdelivered
    exact absurd ⟨r, heq⟩ hown

/-- **What is settled stays settled.** -/
theorem settled_next (hi : CallsInv obj c) (h : c.next obj b = some c')
    (hsettled : Settled c owner) : Settled c' owner := by
  cases owner with
  | async id =>
    rcases hi.next_state h with ⟨b', -, hstep⟩ | ⟨-, hsame⟩
    · exact delivered_next (inv_of_reachable hi.reachable) hstep hsettled
    · show (c'.state.calls id).delivered = true
      rw [hsame]
      exact hsettled
  | sync n =>
    obtain ⟨o, hpc⟩ := hsettled
    exact ⟨o, syncResolved_next hpc h⟩

/-- A call that is sent is not settled before it has its completion. -/
theorem not_settled_of_unresolved (hopen : Unresolved c owner) : ¬ Settled c owner := by
  cases owner with
  | async id =>
    intro hsettled
    have hdelivered : (c.state.calls id).delivered = true := hsettled
    have hfalse : (c.state.calls id).delivered = false := hopen
    rw [hfalse] at hdelivered
    cases hdelivered
  | sync n =>
    rintro ⟨o, hpc⟩
    rcases hopen with hwaiting | ⟨callId, hawaiting⟩
    · rw [hwaiting] at hpc
      rcases hpc with hpc | hpc <;> cases hpc
    · rw [hawaiting] at hpc
      rcases hpc with hpc | hpc <;> cases hpc

/-- The registration is invoked. -/
theorem hears_of_live (hlive : Live obj s) (data : List RpcValue) : s.hears obj data = true := by
  obtain ⟨sid, -, hin⟩ := hlive
  exact List.elem_eq_true_of_mem (s.peer.mem_eventCallbacks hin data)

/-- The registration is made. -/
theorem live_onEvent (s : State) : Live obj (s.onEvent obj callCompleteEvent completionHandler) :=
  ⟨s.peer.nextSubId, List.mem_append_right _ (List.mem_singleton_self _),
    s.peer.mem_collect_onEvent obj callCompleteEvent completionHandler⟩

/-- A call that has been built has begun. -/
theorem Inv.async_next (hi : Inv obj s)
    (hguard : ∀ owner, enters b = some owner → s.entered owner = true)
    (h : s.calls.next obj b = some c') (id : UInt64) (hbuilt : (c'.state.calls id).caller ≠ .idle) :
    s.entered (.async id) = true := by
  have hcalls := callsInv_of_reachable hi.calls
  by_cases hbegins : ∃ method timeoutMs, b = .async (.callAsync id method timeoutMs)
  · obtain ⟨method, timeoutMs, rfl⟩ := hbegins
    exact hguard _ rfl
  refine hi.async id fun hidle => hbuilt ?_
  rcases hcalls.next_state h with ⟨b', hb, hstep⟩ | ⟨-, hsame⟩
  · refine (steady_next (inv_of_reachable hcalls.reachable) hstep id).caller (fun hid => ?_) hidle
    rcases stateAction_eq hb with rfl | ⟨hsync, -⟩
    · cases b' with
      | callAsync id' method timeoutMs =>
        obtain rfl : id = id' := hid
        exact hbegins ⟨method, timeoutMs, rfl⟩
      | _ => exact hid.elim
    · cases b' with
      | callAsync id' method timeoutMs => cases hsync
      | _ => exact hid.elim
  · rw [hsame, hidle]

theorem Inv.sync_next (hi : Inv obj s)
    (hguard : ∀ owner, enters b = some owner → s.entered owner = true)
    (h : s.calls.next obj b = some c') (n : ℕ) (hbuilt : (c'.sync n).pc ≠ .idle) :
    s.entered (.sync n) = true := by
  by_cases hbegins : ∃ method timeoutMs, b = .callSync n method timeoutMs
  · obtain ⟨method, timeoutMs, rfl⟩ := hbegins
    exact hguard _ rfl
  refine hi.sync n fun hidle => hbuilt ?_
  by_cases hown : b.syncCall = some n
  · cases b with
    | async b => cases hown
    | callSync m method timeoutMs =>
      obtain rfl := Option.some.inj hown
      exact absurd ⟨method, timeoutMs, rfl⟩ hbegins
    | syncTimeout m | syncReply m | wake m | returnSync m =>
      obtain rfl := Option.some.inj hown
      simp [Calls.next, hidle] at h
  · rw [Async.sync_next h hown, hidle]

/-- A step of the calls. -/
theorem Inv.calls_next (hi : Inv obj s)
    (hguard : ∀ owner, enters b = some owner → s.entered owner = true)
    (h : s.calls.next obj b = some c') : Inv obj { s with calls := c' } where
  calls := hi.calls.step h
  distinct := hi.distinct
  issued := hi.issued
  async := hi.async_next hguard h
  sync := hi.sync_next hguard h

theorem Inv.onEvent (hi : Inv obj s) (eventName : QString) (callback : ℕ) :
    Inv obj (s.onEvent obj eventName callback) where
  calls := hi.calls
  distinct := by
    have hfresh : s.peer.nextSubId ∉ s.subs ++ s.withdrawing := fun hin =>
      absurd (hi.issued _ hin) (Nat.lt_irrefl _)
    have hperm : (s.subs ++ [s.peer.nextSubId] ++ s.withdrawing).Perm
        (s.peer.nextSubId :: (s.subs ++ s.withdrawing)) := by
      rw [List.append_assoc]
      exact List.perm_middle
    exact hperm.nodup_iff.mpr (List.nodup_cons.mpr ⟨hfresh, hi.distinct⟩)
  issued := by
    intro sid hin
    have hsid : sid ∈ s.subs ++ s.withdrawing ∨ sid = s.peer.nextSubId := by
      simp only [State.onEvent, List.mem_append, List.mem_singleton] at hin ⊢
      tauto
    show sid < s.peer.nextSubId + 1
    rcases hsid with hold | rfl
    · exact Nat.lt_succ_of_lt (hi.issued sid hold)
    · exact Nat.lt_succ_self _
  async := hi.async
  sync := hi.sync

theorem Inv.ensureCompletionSub (hi : Inv obj s) : Inv obj (s.ensureCompletionSub obj) := by
  unfold State.ensureCompletionSub
  split_ifs
  · exact hi
  · have hi' := hi.onEvent callCompleteEvent completionHandler
    exact ⟨hi'.calls, hi'.distinct, hi'.issued, hi'.async, hi'.sync⟩

/-- Less is registered, on a connection that has not handed out fewer ids. -/
theorem Inv.mono (hi : Inv obj s) (hcalls : s'.calls = s.calls) (hentered : s'.entered = s.entered)
    (hsids : (s'.subs ++ s'.withdrawing).Subperm (s.subs ++ s.withdrawing))
    (hpeer : s.peer.nextSubId ≤ s'.peer.nextSubId) : Inv obj s' where
  calls := hcalls ▸ hi.calls
  distinct := by
    obtain ⟨sids, hperm, hsub⟩ := hsids
    exact hperm.nodup_iff.mp (hi.distinct.sublist hsub)
  issued sid hin := Nat.lt_of_lt_of_le (hi.issued sid (hsids.subset hin)) hpeer
  async := by
    rw [hcalls, hentered]
    exact hi.async
  sync := by
    rw [hcalls, hentered]
    exact hi.sync

theorem guard_of_next (h : next obj s (.call b) = some s') :
    excluded b = false ∧ (∀ owner, enters b = some owner → s.entered owner = true) ∧
      ∃ c', s.calls.next obj b = some c' ∧ s' = { s with calls := c' } := by
  simp only [next] at h
  split at h
  · cases h
  · rename_i hguard
    obtain ⟨c', hc', rfl⟩ := Option.map_eq_some_iff.mp h
    simp only [Bool.or_eq_true, not_or, Bool.not_eq_true] at hguard
    refine ⟨hguard.1, fun owner howner => ?_, c', hc', rfl⟩
    simpa [howner] using hguard.2

theorem Inv.next (hi : Inv obj s) (h : PlainObject.next obj s a = some s') : Inv obj s' := by
  cases a with
  | ensureCompletionSub owner =>
    simp only [PlainObject.next] at h
    split at h <;> cases h
    have hi' := hi.ensureCompletionSub
    have hmono : ∀ owner', (s.ensureCompletionSub obj).entered owner' = true →
        Function.update (s.ensureCompletionSub obj).entered owner true owner' = true := by
      intro owner' hentered
      by_cases heq : owner' = owner
      · subst heq
        exact Function.update_self ..
      · rwa [Function.update_of_ne heq]
    exact ⟨hi'.calls, hi'.distinct, hi'.issued, fun id hbuilt => hmono _ (hi'.async id hbuilt),
      fun n hbuilt => hmono _ (hi'.sync n hbuilt)⟩
  | call b =>
    obtain ⟨-, hguard, c', hc', rfl⟩ := guard_of_next h
    exact hi.calls_next hguard hc'
  | callComplete data callId value =>
    simp only [PlainObject.next] at h
    split at h
    · obtain ⟨c', hc', rfl⟩ := Option.map_eq_some_iff.mp h
      exact hi.calls_next (fun owner howner => by cases howner) hc'
    · cases h
      exact hi
  | onEvent eventName callback =>
    cases h
    exact hi.onEvent eventName (callback + 1)
  | disconnectEvents =>
    cases h
    have hswap : (s.withdrawing ++ s.subs).Subperm (s.subs ++ s.withdrawing) :=
      List.perm_append_comm.subperm
    exact hi.mono rfl rfl hswap le_rfl
  | sendUnsubscribe sid =>
    simp only [PlainObject.next] at h
    split at h <;> cases h
    refine hi.mono rfl rfl (List.Sublist.subperm ?_) (s.peer.nextSubId_sendUnsubscribe sid).ge
    exact (List.Sublist.refl _).append List.erase_sublist
  | otherOnEvent object eventName callback =>
    cases h
    exact hi.mono rfl rfl (List.Subperm.refl _) (Nat.le_succ _)
  | otherUnsubscribe sid =>
    simp only [PlainObject.next] at h
    split at h <;> cases h
    exact hi.mono rfl rfl (List.Subperm.refl _) (s.peer.nextSubId_sendUnsubscribe sid).ge

/-- **The registration stays**, until `disconnectEvents` takes it. -/
theorem live_next (hi : Inv obj s) (hlive : Live obj s) (hdisconnect : a ≠ .disconnectEvents)
    (h : PlainObject.next obj s a = some s') : Live obj s' := by
  obtain ⟨sid, hsid, hin⟩ := hlive
  have honEvent : ∀ eventName callback, Live obj (s.onEvent obj eventName callback) :=
    fun eventName callback => ⟨sid, List.mem_append_left _ hsid,
      s.peer.mem_collect_onEvent_of_mem hin obj eventName callback⟩
  cases a with
  | ensureCompletionSub owner =>
    simp only [PlainObject.next] at h
    split at h <;> cases h
    unfold State.ensureCompletionSub
    split_ifs
    · exact ⟨sid, hsid, hin⟩
    · exact honEvent callCompleteEvent completionHandler
  | call b =>
    obtain ⟨-, -, c', -, rfl⟩ := guard_of_next h
    exact ⟨sid, hsid, hin⟩
  | callComplete data callId value =>
    simp only [PlainObject.next] at h
    split at h
    · obtain ⟨c', -, rfl⟩ := Option.map_eq_some_iff.mp h
      exact ⟨sid, hsid, hin⟩
    · cases h
      exact ⟨sid, hsid, hin⟩
  | onEvent eventName callback =>
    cases h
    exact honEvent eventName (callback + 1)
  | disconnectEvents => exact absurd rfl hdisconnect
  | sendUnsubscribe sid' =>
    simp only [PlainObject.next] at h
    split at h <;> cases h
    rename_i hwithdrawing
    refine ⟨sid, hsid, s.peer.mem_collect_sendUnsubscribe hin ?_⟩
    rintro rfl
    exact (List.nodup_append'.mp hi.distinct).2.2 hsid hwithdrawing
  | otherOnEvent object eventName callback =>
    cases h
    exact ⟨sid, hsid, s.peer.mem_collect_onEvent_of_mem hin object eventName (callback + 1)⟩
  | otherUnsubscribe sid' =>
    simp only [PlainObject.next] at h
    split at h <;> cases h
    rename_i hother
    refine ⟨sid, hsid, s.peer.mem_collect_sendUnsubscribe hin ?_⟩
    rintro rfl
    exact hother (.inl hsid)

/-- A call opens when it begins. -/
theorem open_of_next (hi : Inv obj s) (hbegins : ∀ owner, a ≠ .ensureCompletionSub owner)
    (h : PlainObject.next obj s a = some s') (hopen : Open s' owner) : Open s owner := by
  have hcalls := callsInv_of_reachable hi.calls
  cases a with
  | ensureCompletionSub owner' => exact absurd rfl (hbegins owner')
  | call b =>
    obtain ⟨-, -, c', hc', rfl⟩ := guard_of_next h
    exact ⟨hopen.entered, fun hsettled => hopen.unsettled (settled_next hcalls hc' hsettled)⟩
  | callComplete data callId value =>
    simp only [PlainObject.next] at h
    split at h
    · obtain ⟨c', hc', rfl⟩ := Option.map_eq_some_iff.mp h
      exact ⟨hopen.entered, fun hsettled => hopen.unsettled (settled_next hcalls hc' hsettled)⟩
    · cases h
      exact hopen
  | onEvent eventName callback | disconnectEvents | otherOnEvent object eventName callback =>
    cases h
    exact ⟨hopen.entered, hopen.unsettled⟩
  | sendUnsubscribe sid | otherUnsubscribe sid =>
    simp only [PlainObject.next] at h
    split at h <;> cases h
    exact ⟨hopen.entered, hopen.unsettled⟩

/-- **While a call is open, the registration is there.** -/
theorem Keeps.live (hi : Inv obj s) (hlive : ∀ owner, Open s owner → Live obj s)
    (hkeeps : Keeps obj s a) (h : PlainObject.next obj s a = some s') (owner : Owner)
    (hopen : Open s' owner) : Live obj s' := by
  cases a with
  | ensureCompletionSub owner' =>
    by_cases hsubscribed : s.completionSubscribed = true
    · exact live_next hi (hkeeps hsubscribed) (by simp) h
    · simp only [PlainObject.next] at h
      split at h <;> cases h
      rw [State.ensureCompletionSub, if_neg hsubscribed]
      exact live_onEvent s
  | disconnectEvents =>
    have hbefore := open_of_next hi (by simp) h hopen
    exact absurd hbefore (hkeeps owner)
  | _ =>
    have hbefore := open_of_next hi (by simp) h hopen
    exact live_next hi (hlive owner hbefore) (by simp) h

/-- What holds in every run that keeps the registration. -/
theorem inv_of_kept (h : ((handle obj).restrict (Keeps obj)).Reachable s) :
    Inv obj s ∧ ∀ owner, Open s owner → Live obj s := by
  apply h.invariant
  · rintro s rfl
    refine ⟨⟨.init rfl, List.nodup_nil, fun sid hin => (by cases hin), ?_, ?_⟩, ?_⟩
    · exact fun id hbuilt => absurd rfl hbuilt
    · exact fun n hbuilt => absurd rfl hbuilt
    · rintro owner ⟨hentered, -⟩
      cases hentered
  · rintro s a s' ⟨hi, hlive⟩ ⟨hstep, hkeeps⟩
    exact ⟨hi.next hstep, hkeeps.live hi hlive hstep⟩

end steps

/-! ## Deferred calls -/

/-- The completion of a call that arrives. -/
def Action.announced (callId : QString) : Action → Option QVariant
  | .callComplete _ callId' value => if callId' = callId then some value else none
  | _ => none

/-- The step of the calls behind a step of the handle. -/
def Action.callsAction : Action → Option CallsAction
  | .call a => some a
  | .callComplete _ callId value => some (.async (.completion callId value))
  | _ => none

/-- Until the call is resolved, call ids are distinct, and it is answered with its sentinel. -/
def Deferring (callId : QString) (owner : Owner) (s : State) (a : Action) : Prop :=
  ∀ b, a.callsAction = some b → Unresolved s.calls owner → Defers callId owner s.calls b

/-- Until the call is resolved, its deadline does not pass. -/
def InTime (callId : QString) (owner : Owner) (s : State) (a : Action) : Prop :=
  ∀ b, a.callsAction = some b → Unresolved s.calls owner → ¬ Late callId owner s.calls b

/-- The registration is left to whoever needs it, and the completion of the call to the call. -/
structure Condition (objectName : Bytes) (callId : QString) (owner : Owner) (s : State)
    (a : Action) : Prop where
  keeps : Keeps objectName s a
  spares : ∀ b, a.callsAction = some b → Unresolved s.calls owner →
    Spares callId owner s.calls b

/-- The steps of `C` while the call is deferred, until its deadline passes. -/
def untilDeadline (objectName : Bytes) (C : QString → Owner → State → Action → Prop)
    (callId : QString) (owner : Owner) : TransitionSystem State Action :=
  (handle objectName).restrict fun s a =>
    C callId owner s a ∧ Deferring callId owner s a ∧ InTime callId owner s a

/-- The steps of `C` while the call is deferred, whatever its deadline does. -/
def anyDeadline (objectName : Bytes) (C : QString → Owner → State → Action → Prop)
    (callId : QString) (owner : Owner) : TransitionSystem State Action :=
  (handle objectName).restrict fun s a => C callId owner s a ∧ Deferring callId owner s a

/-- **Deferred calls are answered.**  A registration for completions is there while a call is open.
Of a call that has been sent and is not resolved, let a completion come under its id before its
deadline passes.  Then one of the completions that come under its id is what it is resolved with, in
every run that takes only the steps of `C`, whenever its deadline passes from then on. -/
structure Answers (objectName : Bytes) (C : QString → Owner → State → Action → Prop)
    (s : State) : Prop where
  live : ∀ owner, Open s owner → Live objectName s
  answered : ∀ callId owner, Unhandled callId s.calls owner → Outstanding s.calls owner →
    ∀ before s₁ data value s₂ after s',
      (untilDeadline objectName C callId owner).Run s before s₁ →
      (anyDeadline objectName C callId owner).step s₁ (.callComplete data callId value) s₂ →
      (anyDeadline objectName C callId owner).Run s₂ after s' →
      ∃ v ∈ (s.calls.state.st.staged.entries.lookup callId).toList ++
          (before ++ .callComplete data callId value :: after).filterMap (Action.announced callId),
        Answered callId v s'.calls owner ∧
        (Unanswered s'.calls owner ∨ Finished v s'.calls owner ∨
          ∃ a ∈ owner.settling, (next objectName s' (.call a)).isSome)

section deferred
variable {obj : Bytes} {s s' : State} {a : Action} {callId : QString} {owner : Owner}
  {came : List QVariant}

/-- A call that is sent has begun. -/
theorem Inv.entered (hi : Inv obj s) (hunhandled : Unhandled callId s.calls owner) :
    s.entered owner = true := by
  cases owner with
  | async id =>
    have hawaits : (s.calls.state.calls id).handler.Awaits callId := hunhandled
    refine hi.async id ?_
    have hsound := ((inv_of_reachable (callsInv_of_reachable hi.calls).reachable).call id).sound
    rw [hsound.sent fun hnot => by rw [hnot] at hawaits; exact hawaits]
    simp
  | sync n =>
    have hawaits : (s.calls.sync n).pc.Awaits callId := hunhandled
    refine hi.sync n fun hidle => ?_
    rw [hidle] at hawaits
    exact hawaits

theorem entered_next (h : next obj s a = some s') (hentered : s.entered owner = true) :
    s'.entered owner = true := by
  cases a with
  | ensureCompletionSub owner' =>
    simp only [next] at h
    split at h <;> cases h
    have hsame : (s.ensureCompletionSub obj).entered = s.entered := by
      unfold State.ensureCompletionSub
      split_ifs <;> rfl
    by_cases heq : owner = owner'
    · subst heq
      exact Function.update_self ..
    · dsimp only
      rwa [Function.update_of_ne heq, hsame]
  | call b =>
    obtain ⟨-, -, c', -, rfl⟩ := guard_of_next h
    exact hentered
  | callComplete data callId value =>
    simp only [next] at h
    split at h
    · obtain ⟨c', -, rfl⟩ := Option.map_eq_some_iff.mp h
      exact hentered
    · cases h
      exact hentered
  | onEvent eventName callback | disconnectEvents | otherOnEvent object eventName callback =>
    cases h
    exact hentered
  | sendUnsubscribe sid | otherUnsubscribe sid =>
    simp only [next] at h
    split at h <;> cases h
    exact hentered

/-- A step of the handle is one of its calls, or leaves them as they are; a completion that is heard
comes to them. -/
theorem calls_of_next (callId : QString) (h : next obj s a = some s') :
    (∃ b, a.callsAction = some b ∧ s.calls.next obj b = some s'.calls ∧
        b.announced callId = a.announced callId) ∨
      s'.calls = s.calls ∧ (a.announced callId = none ∨ ¬ Live obj s) := by
  cases a with
  | ensureCompletionSub owner' =>
    refine .inr ⟨?_, .inl rfl⟩
    simp only [next] at h
    split at h <;> cases h
    unfold State.ensureCompletionSub
    split_ifs <;> rfl
  | call b =>
    obtain ⟨hexcluded, -, c', hc', rfl⟩ := guard_of_next h
    refine .inl ⟨b, rfl, hc', ?_⟩
    cases hannounced : b.announced callId with
    | none => rfl
    | some v =>
      rw [announced_eq_some hannounced] at hexcluded
      cases hexcluded
  | callComplete data callId' value =>
    simp only [next] at h
    split at h
    · obtain ⟨c', hc', rfl⟩ := Option.map_eq_some_iff.mp h
      exact .inl ⟨_, rfl, hc', rfl⟩
    · rename_i hdeaf
      cases h
      exact .inr ⟨rfl, .inr fun hlive => hdeaf (hears_of_live hlive data)⟩
  | onEvent eventName callback | disconnectEvents | otherOnEvent object eventName callback =>
    cases h
    exact .inr ⟨rfl, .inl rfl⟩
  | sendUnsubscribe sid | otherUnsubscribe sid =>
    simp only [next] at h
    split at h <;> cases h
    exact .inr ⟨rfl, .inl rfl⟩

/-- **One step of a call that has a completion.** -/
theorem answered_next (hi : Inv obj s) (ha : ∃ v ∈ came, Answered callId v s.calls owner)
    (hcondition : Condition obj callId owner s a) (hdefers : Deferring callId owner s a)
    (h : next obj s a = some s') :
    ∃ v ∈ came ++ (a.announced callId).toList, Answered callId v s'.calls owner := by
  obtain ⟨v, hv, hanswered⟩ := ha
  rcases calls_of_next callId h with ⟨b, hb, hstep, hannounced⟩ | ⟨hsame, -⟩
  · rw [← hannounced]
    exact hanswered.announce (callsInv_of_reachable hi.calls) hv (hdefers b hb)
      (hcondition.spares b hb) hstep
  · rw [hsame]
    exact ⟨v, List.mem_append_left _ hv, hanswered⟩

/-- **One step of a call that is sent**, before its deadline. -/
theorem settles_next (hi : Inv obj s) (hlive : Open s owner → Live obj s)
    (hentered : s.entered owner = true) (hs : Settles callId came s.calls owner)
    (hcondition : Condition obj callId owner s a) (hdefers : Deferring callId owner s a)
    (hintime : InTime callId owner s a) (h : next obj s a = some s') :
    Settles callId (came ++ (a.announced callId).toList) s'.calls owner := by
  rcases hs with ⟨rfl, hexpects⟩ | hanswered
  · rcases calls_of_next callId h with ⟨b, hb, hstep, hannounced⟩ | ⟨hsame, hnone | hdeaf⟩
    · rw [← hannounced]
      exact Settles.next (callsInv_of_reachable hi.calls) (.inl ⟨rfl, hexpects⟩) (hdefers b hb)
        (hcondition.spares b hb) (hintime b hb) hstep
    · rw [hsame, hnone]
      exact .inl ⟨rfl, hexpects⟩
    · have hopen : Open s owner := ⟨hentered, not_settled_of_unresolved hexpects.unresolved⟩
      exact absurd (hlive hopen) hdeaf
  · exact .inr (answered_next hi hanswered hcondition hdefers h)

/-- What holds of a call of the handle until its completion has come. -/
structure Waiting (objectName : Bytes) (callId : QString) (owner : Owner) (came : List QVariant)
    (s : State) : Prop where
  inv : Inv objectName s
  live : ∀ owner, Open s owner → Live objectName s
  entered : s.entered owner = true
  settles : Settles callId came s.calls owner

theorem Waiting.next (hw : Waiting obj callId owner came s)
    (hcondition : Condition obj callId owner s a) (hdefers : Deferring callId owner s a)
    (hintime : InTime callId owner s a) (h : next obj s a = some s') :
    Waiting obj callId owner (came ++ (a.announced callId).toList) s' where
  inv := hw.inv.next h
  live := hcondition.keeps.live hw.inv hw.live h
  entered := entered_next h hw.entered
  settles := settles_next hw.inv (hw.live owner) hw.entered hw.settles hcondition hdefers hintime h

/-- **A whole run of a call that is sent**, before its deadline. -/
theorem Waiting.run {as : List Action} (hw : Waiting obj callId owner came s)
    (hrun : (untilDeadline obj (Condition obj) callId owner).Run s as s') :
    Waiting obj callId owner (came ++ as.filterMap (Action.announced callId)) s' := by
  induction hrun with
  | nil => simpa using hw
  | snoc hrun hstep ih =>
    obtain ⟨hnext, hcondition, hdefers, hintime⟩ := hstep
    rw [TransitionSystem.filterMap_snoc, ← List.append_assoc]
    exact ih.next hcondition hdefers hintime hnext

/-- **A whole run of a call that has a completion.** -/
theorem answered_run {as : List Action} (hi : Inv obj s)
    (ha : ∃ v ∈ came, Answered callId v s.calls owner)
    (hrun : (anyDeadline obj (Condition obj) callId owner).Run s as s') :
    Inv obj s' ∧ ∃ v ∈ came ++ as.filterMap (Action.announced callId),
      Answered callId v s'.calls owner := by
  induction hrun with
  | nil => exact ⟨hi, by simpa using ha⟩
  | snoc hrun hstep ih =>
    obtain ⟨hi', ha'⟩ := ih
    obtain ⟨hnext, hcondition, hdefers⟩ := hstep
    refine ⟨hi'.next hnext, ?_⟩
    rw [TransitionSystem.filterMap_snoc, ← List.append_assoc]
    exact answered_next hi' ha' hcondition hdefers hnext

/-- The completion is no deadline. -/
theorem inTime_callComplete (data : List RpcValue) (value : QVariant) :
    InTime callId owner s (.callComplete data callId value) := by
  rintro b hb - (hinterrupts | ⟨n, -, hwake, -⟩)
  · cases hb
    exact hinterrupts
  · cases hb
    cases hwake

/-- The steps that settle a call are steps of the handle. -/
theorem isSome_call {b : CallsAction} (hin : b ∈ owner.settling)
    (hsome : (s.calls.next obj b).isSome) : (next obj s (.call b)).isSome := by
  have hguard : excluded b = false ∧ enters b = none := by
    cases owner with
    | async id =>
      simp only [Owner.settling, Owner.steps, List.mem_cons, List.not_mem_nil, or_false] at hin
      rcases hin with rfl | rfl | rfl | rfl | rfl <;> exact ⟨rfl, rfl⟩
    | sync n =>
      simp only [Owner.settling, Owner.steps, List.mem_cons, List.not_mem_nil, or_false] at hin
      rcases hin with rfl | rfl <;> exact ⟨rfl, rfl⟩
  simpa [next, hguard.1, hguard.2] using hsome

/-- **In every run that keeps the registration, deferred calls are answered.** -/
theorem answers_of_kept (h : ((handle obj).restrict (Keeps obj)).Reachable s) :
    Answers obj (Condition obj) s := by
  obtain ⟨hi, hlive⟩ := inv_of_kept h
  refine ⟨hlive, fun callId owner hunhandled houtstanding before s₁ data value s₂ after s' hbefore
    hcomes hafter => ?_⟩
  have hstart : Waiting obj callId owner (s.calls.state.st.staged.entries.lookup callId).toList s :=
    ⟨hi, hlive, hi.entered hunhandled, .start hunhandled houtstanding⟩
  obtain ⟨hnext, hcondition, hdefers⟩ := hcomes
  have hcame := (hstart.run hbefore).next hcondition hdefers (inTime_callComplete data value) hnext
  have hanswered : ∃ v ∈ (s.calls.state.st.staged.entries.lookup callId).toList ++
      before.filterMap (Action.announced callId) ++ [value],
      Answered callId v s₂.calls owner := by
    have hvalue : (Action.callComplete data callId value).announced callId = some value := by
      simp [Action.announced]
    rw [hvalue] at hcame
    rcases hcame.settles with ⟨hnone, -⟩ | hanswered
    · simp at hnone
    · exact hanswered
  obtain ⟨-, v, hv, hanswered'⟩ := answered_run hcame.inv hanswered hafter
  refine ⟨v, by simpa [Action.announced] using hv, hanswered', ?_⟩
  rcases hanswered'.goesOn with hwaits | hfinished | ⟨b, hin, hsome⟩
  · exact .inl hwaits
  · exact .inr (.inl hfinished)
  · exact .inr (.inr ⟨b, hin, isSome_call hin hsome⟩)

end deferred

end PlainObject

end LogosProtocol
