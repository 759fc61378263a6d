import LogosProtocol.Qt.LocalCallbacks
import Mathlib.Data.List.Perm.Basic

/-!
# When the local transport answers every callback

Every call is held in one place until its callback is invoked: by a function on the event
loop, by a method that the provider is in, or by the completion ledger, and whoever waits in
the ledger has a deadline on the event loop.  So an event loop that has nothing left to run
has invoked every callback once.  A call is lost where its place goes without it: the handle
disconnects while someone waits, a helper is deleted with what it owes, or two calls wait
under one id.

## Main definitions

* `State.pending`, `State.answered` — the calls that are held, and those whose callback was
  invoked.
* `Condition` — the steps on which no call is lost.
* `Inv` — the invariant, with a call that is on its way from one place to another.
-/

namespace LogosProtocol

namespace Qt

open Async

namespace LocalCallbacks

open TransitionSystem (Run exec)

/-! ## Where a call is held -/

/-- The call that a posted function answers or takes on. -/
def Posted.call? (p : Posted) : Option ℕ :=
  match p.work with
  | .gone n => some n
  | .dispatch r => some r.call
  | .deliver n _ => some n
  | .deadline _ _ => none

def Event.answered? : Event → Option ℕ
  | .invoked n _ => some n
  | _ => none

/-- The calls that are still to be answered, each where it is held. -/
def State.pending (s : State) : List ℕ :=
  s.posted.filterMap Posted.call? ++ s.running.map Request.call ++ Dict.values s.asyncWaiters

/-- The calls whose callback was invoked. -/
def State.answered (s : State) : List ℕ := s.log.filterMap Event.answered?

/-- A call has been made, and has returned. -/
def State.issued (s : State) : State :=
  ({ s with calls := s.calls + 1 }.record (.called s.calls)).record (.returned s.calls)

/-- A callback is invoked after its call has returned. -/
def Later (before : List Event) : Event → Prop
  | .invoked n _ => .returned n ∈ before
  | _ => True

/-! ## Where a call is lost -/

/-- What is posted is needed: it holds a call, or bounds the wait of one. -/
def State.Owes (s : State) (p : Posted) : Prop :=
  match p.work with
  | .deadline r callId => s.asyncWaiters.lookup callId = some r.call
  | _ => True

/-- The handle does not disconnect while a callback waits, no helper is deleted while anything
needs it, and a call that is to wait has its helper and an id of its own. -/
def Condition (s : State) : Action → Prop
  | .disconnectEvents => s.helper = none ∨ s.asyncWaiters = ∅
  | .deleteHelper helper => ∀ p ∈ s.posted, p.context = some helper → ¬ s.Owes p
  | .reply i result => ∀ r callId, s.running[i]? = some r →
      isPendingCallSentinel result = some callId → s.values.lookup callId = none →
      r.helper ∈ s.helpers ∧ s.asyncWaiters.lookup callId = none
  | _ => True

/-! ## The invariant -/

/-- The invariant, with a call in hand. -/
structure Inv (s : State) (hand : Option ℕ) : Prop where
  balanced : Obligations s.calls (hand.toList ++ s.pending) s.answered
  returned : ∀ n < s.calls, .returned n ∈ s.log
  later : Justified Later s.log
  timed : ∀ callId n, s.asyncWaiters.lookup callId = some n →
    ∃ p ∈ s.posted, ∃ r, p.work = .deadline r callId ∧ r.call = n
  helper : ∀ h, s.helper = some h → h ∈ s.helpers

theorem perm_cons_eraseIdx {α : Type} {l : List α} {i : ℕ} {a : α} (h : l[i]? = some a) :
    l.Perm (a :: l.eraseIdx i) := by
  obtain ⟨hi, rfl⟩ := List.getElem?_eq_some_iff.mp h
  exact (List.getElem_cons_eraseIdx_perm hi).symm

namespace Inv
variable {s s' : State} {hand : Option ℕ} {n : ℕ}

/-- **The frame rule**: no place changes, and the helper is one that is there. -/
theorem frame (h : Inv s hand) (hcalls : s'.calls = s.calls) (hposted : s'.posted = s.posted)
    (hrunning : s'.running = s.running) (hwaiters : s'.asyncWaiters = s.asyncWaiters)
    (hlog : s'.log = s.log) (hhelper : ∀ x, s'.helper = some x → x ∈ s'.helpers) :
    Inv s' hand where
  balanced := by
    have hpending : s'.pending = s.pending := by
      rw [State.pending, hposted, hrunning, hwaiters, State.pending]
    have hanswered : s'.answered = s.answered := by rw [State.answered, hlog, State.answered]
    rw [hcalls, hpending, hanswered]
    exact h.balanced
  returned := by
    rw [hcalls, hlog]
    exact h.returned
  later := by
    rw [hlog]
    exact h.later
  timed := by
    rw [hwaiters, hposted]
    exact h.timed
  helper := hhelper

/-! ## Taking a call in hand -/

/-- What is posted is taken from the event loop. -/
theorem take_posted (h : Inv s none) {i : ℕ} {p : Posted} (hp : s.posted[i]? = some p)
    (hcall : p.call? = some n) : Inv { s with posted := s.posted.eraseIdx i } (some n) where
  balanced := by
    refine h.balanced.hand_on ?_
    have hperm := (perm_cons_eraseIdx hp).filterMap Posted.call?
    rw [List.filterMap_cons_some hcall] at hperm
    exact (hperm.symm.append_right _).append_right _
  returned := h.returned
  later := h.later
  timed := by
    intro callId m hm
    obtain ⟨q, hq, r, hwork, hrest⟩ := h.timed callId m hm
    have hne : q ≠ p := by
      rintro rfl
      simp [Posted.call?, hwork] at hcall
    have hq' := (perm_cons_eraseIdx hp).subset hq
    exact ⟨q, (List.mem_cons.mp hq').resolve_left hne, r, hwork, hrest⟩
  helper := h.helper

/-- A deadline with nobody to wake is taken from the event loop. -/
theorem drop_deadline (h : Inv s hand) {i : ℕ} {p : Posted} {r : Request} {callId : QString}
    (hp : s.posted[i]? = some p) (hwork : p.work = .deadline r callId)
    (hnone : s.asyncWaiters.lookup callId = none) :
    Inv { s with posted := s.posted.eraseIdx i } hand where
  balanced := by
    refine h.balanced.hand_on ?_
    have hperm := (perm_cons_eraseIdx hp).filterMap Posted.call?
    rw [List.filterMap_cons_none (by simp [Posted.call?, hwork])] at hperm
    exact ((hperm.symm.append_right _).append_right _).append_left _
  returned := h.returned
  later := h.later
  timed := by
    intro callId' m hm
    obtain ⟨q, hq, r', hwork', hrest⟩ := h.timed callId' m hm
    have hne : q ≠ p := by
      rintro rfl
      rw [hwork] at hwork'
      obtain ⟨-, rfl⟩ := Work.deadline.inj hwork'
      rw [hnone] at hm
      cases hm
    have hq' := (perm_cons_eraseIdx hp).subset hq
    exact ⟨q, (List.mem_cons.mp hq').resolve_left hne, r', hwork', hrest⟩
  helper := h.helper

/-- The provider returns from a method. -/
theorem take_running (h : Inv s none) {i : ℕ} {r : Request} (hr : s.running[i]? = some r) :
    Inv { s with running := s.running.eraseIdx i } (some r.call) where
  balanced := by
    refine h.balanced.hand_on ?_
    have hperm := (perm_cons_eraseIdx hr).map Request.call
    have hmiddle := (hperm.append_left (s.posted.filterMap Posted.call?)).append_right
      (Dict.values s.asyncWaiters)
    refine List.Perm.trans ?_ hmiddle.symm
    simp only [State.pending, List.map_cons, Option.toList_some, List.append_assoc,
      List.cons_append, List.nil_append]
    exact List.perm_middle.symm
  returned := h.returned
  later := h.later
  timed := h.timed
  helper := h.helper

/-- A callback is taken from the ledger. -/
theorem take_waiter (h : Inv s none) {callId : QString}
    (hn : s.asyncWaiters.lookup callId = some n) :
    Inv { s with asyncWaiters := s.asyncWaiters.erase callId } (some n) where
  balanced := by
    refine h.balanced.hand_on ?_
    have hperm := (Dict.values_erase hn).append_left
      (s.posted.filterMap Posted.call? ++ s.running.map Request.call)
    refine List.Perm.trans ?_ hperm.symm
    simp only [State.pending, Option.toList_some, List.cons_append, List.nil_append]
    exact List.perm_middle.symm
  returned := h.returned
  later := h.later
  timed := by
    intro callId' m hm
    by_cases hid : callId' = callId
    · subst hid
      simp at hm
    · rw [AList.lookup_erase_ne hid] at hm
      exact h.timed callId' m hm
  helper := h.helper

/-! ## Putting it somewhere -/

/-- The call in hand is answered. -/
theorem invoke (h : Inv s (some n)) (o : Outcome) : Inv (s.invoke n o) none where
  balanced := by
    have hanswered : (s.invoke n o).answered = s.answered ++ [n] := by
      simp [State.answered, State.invoke, State.record, Event.answered?]
    rw [hanswered]
    exact h.balanced.settle (List.Perm.refl _)
  returned := fun m hm => List.mem_append_left _ (h.returned m hm)
  later := by
    rw [State.invoke, State.record, Justified.concat_iff]
    have hlt : n < s.calls := h.balanced.lt_of_held (by simp)
    exact ⟨h.later, h.returned n hlt⟩
  timed := h.timed
  helper := h.helper

/-- The call in hand is posted. -/
theorem post (h : Inv s (some n)) {context : Option ℕ} {work : Work}
    (hcall : Posted.call? ⟨context, work⟩ = some n)
    (hcontext : ∀ x, context = some x → x ∈ s.helpers) : Inv (s.post context work) none := by
  have hpost : s.post context work = { s with posted := s.posted ++ [⟨context, work⟩] } := by
    cases context with
    | none => rfl
    | some x => rw [State.post, if_pos (hcontext x rfl)]
  rw [hpost]
  exact {
    balanced := by
      refine h.balanced.hand_on ?_
      have hlast : [(⟨context, work⟩ : Posted)].filterMap Posted.call? = [n] := by simp [hcall]
      simp only [State.pending, List.filterMap_append, hlast, Option.toList_none,
        Option.toList_some, List.nil_append, List.append_assoc, List.cons_append]
      exact List.perm_middle
    returned := h.returned
    later := h.later
    timed := by
      intro callId m hm
      obtain ⟨p, hp, hrest⟩ := h.timed callId m hm
      exact ⟨p, List.mem_append_left _ hp, hrest⟩
    helper := h.helper }

/-- The provider takes the call in hand on. -/
theorem run {r : Request} (h : Inv s (some r.call)) :
    Inv { s with running := s.running ++ [r] } none where
  balanced := by
    refine h.balanced.hand_on ?_
    simp only [State.pending, List.map_append, List.map_cons, List.map_nil, Option.toList_none,
      Option.toList_some, List.nil_append, List.append_assoc, List.cons_append]
    rw [← List.append_assoc, ← List.append_assoc]
    exact List.perm_middle
  returned := h.returned
  later := h.later
  timed := h.timed
  helper := h.helper

/-- The callback of the call in hand waits, with a deadline of its own. -/
theorem wait {r : Request} {callId : QString} (h : Inv s (some r.call))
    (hr : r.helper ∈ s.helpers) (hnone : s.asyncWaiters.lookup callId = none) :
    Inv ({ s with asyncWaiters := s.asyncWaiters.insert callId r.call }.post (some r.helper)
      (.deadline r callId)) none := by
  rw [State.post, if_pos (show r.helper ∈ ({ s with
    asyncWaiters := s.asyncWaiters.insert callId r.call } : State).helpers from hr)]
  exact {
    balanced := by
      refine h.balanced.hand_on ?_
      simp only [State.pending, Dict.values_insert r.call hnone, List.filterMap_append,
        List.filterMap_cons, List.filterMap_nil, Posted.call?, List.append_nil, Option.toList_none,
        Option.toList_some, List.nil_append, List.cons_append]
      exact List.perm_middle
    returned := h.returned
    later := h.later
    timed := by
      intro callId' m hm
      by_cases hid : callId' = callId
      · subst hid
        have hm' : r.call = m := by simpa using hm
        exact ⟨⟨some r.helper, .deadline r callId'⟩, List.mem_append_right _ (by simp), r, rfl, hm'⟩
      · rw [AList.lookup_insert_ne hid] at hm
        obtain ⟨p, hp, hrest⟩ := h.timed callId' m hm
        exact ⟨p, List.mem_append_left _ hp, hrest⟩
    helper := h.helper }

/-! ## The functions of the handle -/

theorem ensureCompletionChannel (h : Inv s hand) : Inv s.ensureCompletionChannel hand := by
  rw [State.ensureCompletionChannel]
  split
  · refine h.frame rfl rfl rfl rfl rfl ?_
    intro x hx
    rw [← Option.some.inj hx]
    exact List.mem_cons_self ..
  · exact h

/-- A call is made, and returns. -/
theorem issue (h : Inv s none) : Inv s.issued (some s.calls) where
  balanced := by
    have hanswered : s.issued.answered = s.answered := by
      simp [State.answered, State.issued, State.record, Event.answered?]
    rw [hanswered]
    exact h.balanced.issue
  returned := by
    intro m hm
    by_cases hlast : m = s.calls
    · rw [hlast]
      exact List.mem_append_right _ (by simp)
    · have hlt : m < s.calls + 1 := hm
      exact List.mem_append_left _ (List.mem_append_left _ (h.returned m (by omega)))
  later := by
    rw [State.issued, State.record, State.record, Justified.concat_iff, Justified.concat_iff]
    exact ⟨⟨h.later, trivial⟩, trivial⟩
  timed := h.timed
  helper := h.helper

end Inv

/-! ## The steps -/

/-- With a proxy there is a channel. -/
theorem exists_helper {s : State} (hproxy : s.proxy = true) :
    ∃ x, s.ensureCompletionChannel.helper = some x := by
  rw [State.ensureCompletionChannel]
  cases hhelper : s.helper with
  | none =>
    rw [hproxy]
    exact ⟨s.made, rfl⟩
  | some x => exact ⟨x, hhelper⟩

theorem record_post (s : State) (context : Option ℕ) (work : Work) (e : Event) :
    (s.post context work).record e = (s.record e).post context work := by
  cases context with
  | none => rfl
  | some x =>
    by_cases hx : x ∈ s.helpers
    · rw [State.post, if_pos hx, State.post, if_pos (show x ∈ (s.record e).helpers from hx)]
      rfl
    · rw [State.post, if_neg hx, State.post, if_neg (show x ∉ (s.record e).helpers from hx)]

theorem record_ensureCompletionChannel (s : State) (e : Event) :
    s.ensureCompletionChannel.record e = (s.record e).ensureCompletionChannel := by
  cases hhelper : s.helper with
  | some x => simp [State.ensureCompletionChannel, State.record, hhelper]
  | none => cases hproxy : s.proxy <;>
      simp [State.ensureCompletionChannel, State.record, hhelper, hproxy]

theorem record_postDispatch (s : State) (call : ℕ) (method : Bytes) (timeoutMs : Int) (e : Event) :
    (s.postDispatch call method timeoutMs).record e =
      (s.record e).postDispatch call method timeoutMs := record_post ..

namespace Inv
variable {s : State} {i n : ℕ}

/-- A call posts its dispatch, or the error where the proxy is gone; nothing else is done
inside of it. -/
theorem call (h : Inv s none) (method : Bytes) (timeoutMs : Int) :
    Inv (s.callMethodAsyncWithError method timeoutMs) none := by
  have hissued := h.issue
  rw [State.callMethodAsyncWithError]
  split_ifs with hproxy
  · have hchannel := hissued.ensureCompletionChannel
    obtain ⟨x, hx⟩ := exists_helper (s := s.issued) hproxy
    rw [record_postDispatch, record_ensureCompletionChannel, State.postDispatch]
    refine hchannel.post rfl ?_
    intro y hy
    obtain rfl : x = y := by
      rw [← Option.some.inj hy]
      exact (congrArg (Option.getD · 0) hx).symm
    exact hchannel.helper x hx
  · rw [record_post]
    exact hissued.post rfl (fun x hx => by cases hx)

/-- The event loop runs what is posted. -/
theorem perform (h : Inv s none) (origin : Bytes) {p : Posted} (hp : s.posted[i]? = some p) :
    Inv ({ s with posted := s.posted.eraseIdx i }.perform origin p.work) none := by
  cases hwork : p.work with
  | gone n => exact (h.take_posted hp (by simp [Posted.call?, hwork])).invoke _
  | dispatch r =>
    have htaken := h.take_posted (n := r.call) hp (by simp [Posted.call?, hwork])
    rw [State.perform]
    split_ifs
    · exact htaken.run
    · exact htaken.invoke _
  | deliver n result => exact (h.take_posted hp (by simp [Posted.call?, hwork])).invoke _
  | deadline r callId =>
    rw [State.perform]
    cases hwaiter : s.asyncWaiters.lookup callId with
    | none => exact h.drop_deadline hp hwork hwaiter
    | some n =>
      have htaken := (h.take_waiter hwaiter).drop_deadline hp hwork (AList.lookup_erase _ _)
      exact htaken.invoke _

/-- The call in hand has what the provider returned: it is answered, or its callback waits. -/
theorem handleResult {r : Request} {result : QVariant} (h : Inv s (some r.call))
    (hwait : ∀ callId, isPendingCallSentinel result = some callId →
      s.values.lookup callId = none → r.helper ∈ s.helpers ∧ s.asyncWaiters.lookup callId = none) :
    Inv (s.handleResult r result) none := by
  rw [State.handleResult]
  cases hpending : isPendingCallSentinel result with
  | none => exact h.invoke _
  | some callId =>
    cases hlanded : s.values.lookup callId with
    | some landed =>
      have hconsumed : Inv { s with values := s.values.erase callId } (some r.call) :=
        h.frame rfl rfl rfl rfl rfl h.helper
      simpa only [hlanded] using hconsumed.invoke _
    | none =>
      obtain ⟨hhelper, hnone⟩ := hwait callId hpending hlanded
      simpa only [hlanded] using h.wait hhelper hnone

/-- The completion sink posts the delivery, or banks the value. -/
theorem complete (h : Inv s none) {helper : ℕ} (hhelper : s.helper = some helper) (id : QString)
    (result : QVariant) : Inv (s.complete helper id result) none := by
  rw [State.complete]
  cases hwaiter : s.asyncWaiters.lookup id with
  | none => exact h.frame rfl rfl rfl rfl rfl h.helper
  | some n =>
    refine (h.take_waiter hwaiter).post rfl ?_
    intro x hx
    rw [← Option.some.inj hx]
    exact h.helper helper hhelper

/-- The channel goes while nobody waits on it. -/
theorem disconnectEvents (h : Inv s none) (hC : Condition s .disconnectEvents) :
    Inv s.disconnectEvents none := by
  rw [State.disconnectEvents]
  split
  · exact h
  · next x hx =>
    have hnobody : s.asyncWaiters = ∅ := hC.resolve_left (by simp [hx])
    exact h.frame rfl rfl rfl hnobody.symm rfl (fun y hy => by cases hy)

/-- A helper is deleted that holds no call and bounds the wait of none. -/
theorem deleteHelper (h : Inv s none) {helper : ℕ} (hother : s.helper ≠ some helper)
    (hC : Condition s (.deleteHelper helper)) : Inv (s.deleteHelper helper) none where
  balanced := by
    have hpending : (s.deleteHelper helper).pending = s.pending := by
      simp only [State.pending, State.deleteHelper, List.filterMap_filter]
      congr 2
      refine List.filterMap_congr fun p hp => ?_
      by_cases hcontext : p.context = some helper
      · have hfree := hC p hp hcontext
        cases hwork : p.work <;> simp_all [State.Owes, Posted.call?]
      · simp [hcontext]
    rw [hpending]
    exact h.balanced
  returned := h.returned
  later := h.later
  timed := by
    intro callId n hn
    obtain ⟨p, hp, r, hwork, rfl⟩ := h.timed callId n hn
    have howes : s.Owes p := by
      rw [State.Owes, hwork]
      exact hn
    have hkept : p.context ≠ some helper := fun hcontext => hC p hp hcontext howes
    exact ⟨p, List.mem_filter.mpr ⟨hp, by simpa using hkept⟩, r, hwork, rfl⟩
  helper := by
    intro x hx
    refine List.mem_filter.mpr ⟨h.helper x hx, ?_⟩
    have hne : x ≠ helper := by
      rintro rfl
      exact hother hx
    simpa using hne

/-- **The step rule**: a step that loses no call keeps the invariant. -/
theorem step {origin : Bytes} {a : Action} {s' : State} (h : Inv s none)
    (hstep : (handle origin).step s a s') (hC : Condition s a) : Inv s' none := by
  change next origin s a = some s' at hstep
  cases a with
  | callMethodAsyncWithError method timeoutMs =>
    obtain rfl := Option.some.inj hstep
    exact h.call method timeoutMs
  | run i =>
    rw [next] at hstep
    split at hstep
    · next p hp =>
      obtain rfl := Option.some.inj hstep
      exact h.perform origin hp
    · cases hstep
  | reply i result =>
    rw [next] at hstep
    split at hstep
    · next r hr =>
      obtain rfl := Option.some.inj hstep
      exact (h.take_running hr).handleResult fun callId => hC r callId hr
    · cases hstep
  | eventResponse id result =>
    rw [next] at hstep
    split at hstep
    · next helper hhelper =>
      obtain rfl := Option.some.inj hstep
      split_ifs
      · exact h.complete hhelper id result
      · exact h
    · obtain rfl := Option.some.inj hstep
      exact h
  | onEvent =>
    obtain rfl := Option.some.inj hstep
    split_ifs
    · exact h.ensureCompletionChannel
    · exact h
  | disconnectEvents =>
    obtain rfl := Option.some.inj hstep
    exact h.disconnectEvents hC
  | deleteHelper helper =>
    rw [next] at hstep
    split_ifs at hstep with hguard
    obtain rfl := Option.some.inj hstep
    exact h.deleteHelper (fun hhelper => hguard (.inl hhelper)) hC
  | unload =>
    obtain rfl := Option.some.inj hstep
    exact h.frame rfl rfl rfl rfl rfl h.helper

end Inv

/-- **The run rule**: no run whose steps lose no call breaks the invariant. -/
theorem inv_of_reachable {origin : Bytes} {s : State}
    (h : ((handle origin).restrict Condition).Reachable s) : Inv s none := by
  refine h.invariant (I := fun s => Inv s none) ?_ ?_
  · rintro s rfl
    exact {
      balanced := .none_issued
      returned := fun n hn => absurd hn (Nat.not_lt_zero n)
      later := .nil
      timed := by
        intro callId n hn
        cases hn
      helper := by
        rintro x ⟨⟩
        exact List.mem_singleton_self _ }
  · intro s a s' hi hstep
    exact hi.step hstep.1 hstep.2

/-! ## An event loop that runs dry -/

/-- What the event loop and the provider do by themselves. -/
def Action.IsLoop : Action → Prop
  | .run _ | .reply _ _ => True
  | _ => False

/-- The event loop has nothing left to run, and the provider nothing to return from. -/
def Dry (origin : Bytes) (s : State) : Prop :=
  ∀ a t, a.IsLoop → ¬ (handle origin).step s a t

theorem dry_iff {origin : Bytes} {s : State} : Dry origin s ↔ s.posted = [] ∧ s.running = [] := by
  constructor
  · intro h
    constructor
    · cases hposted : s.posted with
      | nil => rfl
      | cons p posted =>
        have hstep : next origin s (.run 0) =
            some ({ s with posted := s.posted.eraseIdx 0 }.perform origin p.work) := by
          rw [next, hposted]
          rfl
        exact absurd hstep (h _ _ trivial)
    · cases hrunning : s.running with
      | nil => rfl
      | cons r running =>
        have hstep : next origin s (.reply 0 .invalid) =
            some ({ s with running := s.running.eraseIdx 0 }.handleResult r .invalid) := by
          rw [next, hrunning]
          rfl
        exact absurd hstep (h _ _ trivial)
  · rintro ⟨hposted, hrunning⟩ a t hloop hstep
    change next origin s a = some t at hstep
    cases a with
    | run i => simp [next, hposted] at hstep
    | reply i result => simp [next, hrunning] at hstep
    | _ => cases hloop

/-- Nobody waits without a deadline, so a dry event loop has answered every call. -/
theorem Inv.answered_perm {origin : Bytes} {s : State} (h : Inv s none) (hdry : Dry origin s) :
    s.answered.Perm (List.range s.calls) := by
  obtain ⟨hposted, hrunning⟩ := dry_iff.mp hdry
  have hwaiters : Dict.values s.asyncWaiters = [] := by
    refine Dict.values_eq_nil fun callId => ?_
    cases hn : s.asyncWaiters.lookup callId with
    | none => rfl
    | some n =>
      obtain ⟨p, hp, -⟩ := h.timed callId n hn
      rw [hposted] at hp
      cases hp
  have hpending : s.pending = [] := by
    rw [State.pending, hposted, hrunning, hwaiters]
    rfl
  have hbalanced := h.balanced
  rw [hpending] at hbalanced
  exact hbalanced.settled_perm

/-! ## It does run dry -/

/-- A dispatch is run, returned from and timed out; anything else is run. -/
def Work.weight : Work → ℕ
  | .dispatch _ => 3
  | _ => 1

/-- How often the event loop and the provider may still have their turn. -/
def State.load (s : State) : ℕ :=
  (s.posted.map fun p => p.work.weight).sum + 2 * s.running.length

theorem load_post_le (s : State) (context : Option ℕ) (work : Work) :
    (s.post context work).load ≤ s.load + work.weight := by
  have hload : ∀ p : Posted, ({ s with posted := s.posted ++ [p] } : State).load =
      s.load + p.work.weight := by
    intro p
    simp only [State.load, List.map_append, List.sum_append, List.map_cons, List.map_nil,
      List.sum_singleton]
    omega
  cases context with
  | none => exact (hload _).le
  | some x =>
    rw [State.post]
    split_ifs
    · exact (hload _).le
    · omega

theorem load_perform_lt (s : State) (origin : Bytes) (work : Work) :
    (s.perform origin work).load < s.load + work.weight := by
  cases work with
  | gone n => exact Nat.lt_succ_self _
  | dispatch r =>
    rw [State.perform]
    split_ifs
    · simp only [State.load, Work.weight, List.length_append, List.length_singleton]
      omega
    · exact Nat.lt_add_of_pos_right (Nat.succ_pos 2)
  | deliver n result => exact Nat.lt_succ_self _
  | deadline r callId =>
    rw [State.perform]
    split <;> exact Nat.lt_succ_self _

theorem load_handleResult_lt (s : State) (r : Request) (result : QVariant) :
    (s.handleResult r result).load < s.load + 2 := by
  rw [State.handleResult]
  split
  · exact Nat.lt_add_of_pos_right (Nat.succ_pos 1)
  · next callId _ =>
    split
    · exact Nat.lt_add_of_pos_right (Nat.succ_pos 1)
    · exact Nat.lt_succ_of_le (load_post_le
        { s with asyncWaiters := s.asyncWaiters.insert callId r.call } _ (.deadline r callId))

/-- A turn of the event loop or of the provider lowers the load. -/
theorem load_lt {origin : Bytes} {s s' : State} {a : Action} (hloop : a.IsLoop)
    (hstep : (handle origin).step s a s') : s'.load < s.load := by
  change next origin s a = some s' at hstep
  cases a with
  | run i =>
    rw [next] at hstep
    split at hstep
    · next p hp =>
      obtain rfl := Option.some.inj hstep
      have hsum := ((perm_cons_eraseIdx hp).map fun p => p.work.weight).sum_eq
      rw [List.map_cons, List.sum_cons] at hsum
      have hrest : s.load =
          ({ s with posted := s.posted.eraseIdx i } : State).load + p.work.weight := by
        simp only [State.load, hsum]
        omega
      rw [hrest]
      exact load_perform_lt _ _ _
    · cases hstep
  | reply i result =>
    rw [next] at hstep
    split at hstep
    · next r hr =>
      obtain rfl := Option.some.inj hstep
      have hlength := (perm_cons_eraseIdx hr).length_eq
      rw [List.length_cons] at hlength
      have hrest : s.load = ({ s with running := s.running.eraseIdx i } : State).load + 2 := by
        simp only [State.load, hlength]
        omega
      rw [hrest]
      exact load_handleResult_lt _ _ _
    · cases hstep
  | _ => cases hloop

/-! ## The contract -/

/-- **Every callback is invoked once, after its call.**  In a run whose steps lose no call, no
callback is invoked twice, and none before its call has returned; the event loop runs dry when
it is left alone, and then every callback has been invoked. -/
theorem callbacks_served (origin : Bytes) {s : State}
    (h : ((handle origin).restrict Condition).Reachable s) :
    (∀ n, s.answered.count n ≤ 1) ∧ Justified Later s.log ∧
    (∀ as t, Run ((handle origin).restrict fun _ a => a.IsLoop) s as t → as.length ≤ s.load) ∧
    (Dry origin s → ∀ n < s.calls, s.answered.count n = 1) := by
  have hi := inv_of_reachable h
  refine ⟨hi.balanced.count_le_one, hi.later, ?_, ?_⟩
  · intro as t hrun
    refine hrun.length_le ?_
    intro s a s' hstep
    exact load_lt hstep.2 hstep.1
  · intro hdry n hn
    rw [(hi.answered_perm hdry).count_eq]
    exact List.count_eq_one_of_mem List.nodup_range (List.mem_range.mpr hn)

/-- A call that waits for its completion is answered by its deadline. -/
theorem callbacks_served_deadline :
    ∃ s, ((handle (bstr "o")).restrict Condition).Reachable s ∧ s.calls = 1 ∧
      s.answered.count 0 = 1 := by
  let sentinel : QVariant := .map [(pendingCallKey, .string (qstr "c"))]
  have hinit : ((handle (bstr "o")).restrict Condition).Reachable {} := .init rfl
  have hcalled := hinit.next (.callMethodAsyncWithError (bstr "m") 20) trivial rfl
  have hdispatched := hcalled.next (.run 0) trivial rfl
  have hreplied := hdispatched.next (.reply 0 sentinel) (fun r callId hr _ _ => by
    obtain rfl := Option.some.inj hr
    exact ⟨by decide, rfl⟩) rfl
  have hexpired := hreplied.next (.run 0) trivial rfl
  have hserved := (callbacks_served (bstr "o") hexpired).2.2.2 (dry_iff.mpr ⟨rfl, rfl⟩)
  exact ⟨_, hexpired, rfl, hserved 0 (by decide)⟩

/-- A handle that disconnects while a callback waits never invokes it. -/
theorem disconnect_loses_callback :
    ¬ ∀ origin s, (handle origin).Reachable s → Dry origin s →
      ∀ n < s.calls, s.answered.count n = 1 := by
  intro hserved
  let sentinel : QVariant := .map [(pendingCallKey, .string (qstr "c"))]
  have hinit : (handle (bstr "o")).Reachable {} := .init rfl
  have hreleased := hinit.of_exec (show exec (next (bstr "o")) {}
    [.callMethodAsyncWithError (bstr "m") 20, .run 0, .reply 0 sentinel, .disconnectEvents,
      .deleteHelper 0] = some _ from rfl)
  have hone := hserved _ _ hreleased (dry_iff.mpr ⟨rfl, rfl⟩) 0 (by decide)
  exact absurd hone (by decide)

end LocalCallbacks

end Qt

end LogosProtocol
