import LogosProtocol.Rpc.PendingCalls

/-!
# Every handler is called once

A handler that was registered is in exactly one place: in a pending map, in the hands of
the reply, of its own send or of `fail()`, called, or cancelled.  Each step moves a handler
from one place to another, so the number of places is kept; that no handler is called
twice, and that none is lost, are two readings of it.

What makes the send's second look at `m_stopped` enough is `Inv.late`: once the maps have
been swept, a handler found in them belongs to a send that has yet to look, or has looked
and will take it back.

## Main definitions

* `State.places` — in how many places a handler is.
* `Inv` — the invariant of the peer.
-/

namespace LogosProtocol.PendingCalls

namespace Event

/-- The event is a call of this handler. -/
def invokes (r : Request) : Event → Bool
  | invoked r' _ => r' = r
  | _ => false

/-- The event is the cancellation of this handler. -/
def cancels (r : Request) : Event → Bool
  | cancelled r' => r' = r
  | _ => false

def isClose : Event → Bool
  | closeTransport => true
  | _ => false

def isClosedNotice : Event → Bool
  | onConnectionClosed => true
  | _ => false

def isErrorCall : Event → Bool
  | errorHandler _ => true
  | _ => false

end Event

namespace FailPc

/-- Handlers swept and not called yet. -/
def todo : FailPc → List Request
  | answering _ todo _ => todo
  | _ => []

/-- The maps have been swept. -/
def Swept : FailPc → Prop
  | notCalled => False
  | sweeping _ => False
  | _ => True

/-- How often the transport has been closed so far; the next two likewise. -/
def closes : FailPc → ℕ
  | closed _ _ => 1
  | notified _ _ => 1
  | returned => 1
  | _ => 0

def notices : FailPc → ℕ
  | notified _ _ => 1
  | returned => 1
  | _ => 0

def errorCalls : FailPc → ℕ
  | returned => 1
  | _ => 0

end FailPc

/-- How often a handler is in the maps. -/
def pendingCount (pending : Kind → List (UInt64 × Request)) (r : Request) : ℕ :=
  (pending r.kind).count (r.id, r)

/-- How often it is in the hands of a dispatch. -/
def inHandCount (inHand : List (Request × AnyMessage)) (r : Request) : ℕ :=
  (inHand.map Prod.fst).count r

/-- Whether its own send has taken it back. -/
def answeringCount (send : Request → SendPc) (r : Request) : ℕ :=
  if send r = .answering r then 1 else 0

/-- How often it was called. -/
def invocations (log : List Event) (r : Request) : ℕ := log.countP (Event.invokes r)

/-- How often it was cancelled. -/
def cancellations (log : List Event) (r : Request) : ℕ := log.countP (Event.cancels r)

/-- How many handlers the send has registered. -/
def SendPc.handlers : SendPc → ℕ
  | idle => 0
  | ignored => 0
  | _ => 1

namespace State

/-- In how many places a handler is. -/
def places (s : State) (r : Request) : ℕ :=
  pendingCount s.pending r + inHandCount s.inHand r + answeringCount s.send r +
    s.fail.todo.count r + invocations s.log r + cancellations s.log r

/-- No send is part-way. -/
def SendsReturned (s : State) : Prop :=
  ∀ r, s.send r = .idle ∨ s.send r = .ignored ∨ s.send r = .returned

end State

/-- The maps are ordered and file each handler under its own id. -/
structure Indexed (pending : Kind → List (UInt64 × Request)) : Prop where
  ordered : ∀ k, Fields.Ordered (pending k)
  keyed : ∀ k, ∀ e ∈ pending k, e.2 = ⟨k, e.1⟩

/-- What every reachable state satisfies. -/
structure Inv (s : State) : Prop where
  indexed : Indexed s.pending
  /-- A send takes back its own handler only. -/
  own : ∀ r mine, s.send r = .answering mine → mine = r
  /-- A registered handler is in one place, any other in none. -/
  conserved : ∀ r, s.places r = (s.send r).handlers
  /-- `fail()` only runs on a stopped peer. -/
  stopped : s.stopped = false → s.fail = .notCalled
  /-- After the sweep, the maps only hold handlers of sends that will take them back. -/
  late : s.fail.Swept → ∀ r, Fields.get? r.id (s.pending r.kind) ≠ none →
    s.send r = .registered ∨ s.send r = .reclaiming
  closes : s.log.countP Event.isClose = s.fail.closes
  notices : s.log.countP Event.isClosedNotice ≤ s.fail.notices
  errorCalls : s.log.countP Event.isErrorCall ≤ s.fail.errorCalls

/-! ## The maps -/

section maps
variable {pending : Kind → List (UInt64 × Request)}

theorem Indexed.eq_of_get? (hp : Indexed pending) {r h : Request}
    (hget : Fields.get? r.id (pending r.kind) = some h) : h = r :=
  hp.keyed r.kind _ (Fields.mem_of_get? hget)

theorem Indexed.erase (hp : Indexed pending) (k : Kind) (id : UInt64) :
    Indexed (Function.update pending k (Fields.erase id (pending k))) where
  ordered k' := by
    by_cases hk : k' = k
    · rw [hk, Function.update_self]
      exact (hp.ordered k).erase id
    · rw [Function.update_of_ne hk]
      exact hp.ordered k'
  keyed k' e he := by
    by_cases hk : k' = k
    · rw [hk, Function.update_self] at he
      rw [hk]
      exact hp.keyed k e (List.mem_of_mem_filter he)
    · rw [Function.update_of_ne hk] at he
      exact hp.keyed k' e he

theorem Indexed.set (hp : Indexed pending) (r : Request) :
    Indexed (Function.update pending r.kind (Fields.set r.id r (pending r.kind))) where
  ordered k' := by
    by_cases hk : k' = r.kind
    · rw [hk, Function.update_self]
      exact (hp.ordered r.kind).set r.id r
    · rw [Function.update_of_ne hk]
      exact hp.ordered k'
  keyed k' := by
    by_cases hk : k' = r.kind
    · rw [hk, Function.update_self]
      exact Fields.forall_mem_set rfl (hp.keyed r.kind)
    · rw [Function.update_of_ne hk]
      exact hp.keyed k'

/-- Taking a handler out of a map takes it out of one place. -/
theorem Indexed.pendingCount_erase (hp : Indexed pending) {r : Request}
    (hget : Fields.get? r.id (pending r.kind) = some r) (r' : Request) :
    pendingCount (Function.update pending r.kind (Fields.erase r.id (pending r.kind))) r' +
      (if r' = r then 1 else 0) = pendingCount pending r' := by
  unfold pendingCount
  by_cases hk : r'.kind = r.kind
  · rw [hk, Function.update_self, ((hp.ordered r.kind).perm_erase hget).count_eq, List.count_cons]
    by_cases hr : r' = r
    · simp [hr]
    · have hr' : r ≠ r' := fun h => hr h.symm
      simp [hr, hr']
  · have hr : r' ≠ r := fun h => hk (by rw [h])
    simp [Function.update_of_ne hk, hr]

/-- Filing a handler under a free id puts it in one more place. -/
theorem pendingCount_set {r : Request} (hget : Fields.get? r.id (pending r.kind) = none)
    (r' : Request) :
    pendingCount (Function.update pending r.kind (Fields.set r.id r (pending r.kind))) r' =
      pendingCount pending r' + if r' = r then 1 else 0 := by
  unfold pendingCount
  by_cases hk : r'.kind = r.kind
  · rw [hk, Function.update_self, (Fields.perm_set r hget).count_eq, List.count_cons]
    by_cases hr : r' = r
    · simp [hr]
    · have hr' : r ≠ r' := fun h => hr h.symm
      simp [hr, hr']
  · have hr : r' ≠ r := fun h => hk (by rw [h])
    simp [Function.update_of_ne hk, hr]

/-- A handler in no place has left its id free. -/
theorem Indexed.get?_eq_none (hp : Indexed pending) {r : Request}
    (hcount : pendingCount pending r = 0) : Fields.get? r.id (pending r.kind) = none := by
  rw [Fields.get?_eq_none_iff]
  intro e he heq
  have hhandler : e.2 = r := by rw [hp.keyed r.kind e he, heq]
  have hentry : e = (r.id, r) := Prod.ext heq hhandler
  rw [hentry] at he
  exact absurd hcount (Nat.ne_of_gt (List.count_pos_iff.mpr he))

/-- The handlers of a map, as often as the map holds them. -/
theorem count_handlers {k : Kind} {entries : List (UInt64 × Request)}
    (hkeyed : ∀ e ∈ entries, e.2 = ⟨k, e.1⟩) (r : Request) :
    (entries.map Prod.snd).count r = if r.kind = k then entries.count (r.id, r) else 0 := by
  induction entries with
  | nil => simp
  | cons e entries ih =>
    have he : e.2 = ⟨k, e.1⟩ := hkeyed e (List.mem_cons_self ..)
    have htail := ih fun e' he' => hkeyed e' (List.mem_cons_of_mem e he')
    have hsame : e.2 = r ↔ r.kind = k ∧ e = (r.id, r) := by
      constructor
      · intro h
        rw [← h, he]
        exact ⟨rfl, Prod.ext rfl he⟩
      · intro h
        rw [h.2]
    rw [List.map_cons, List.count_cons, htail, List.count_cons]
    by_cases hr : e.2 = r
    · have h := hsame.mp hr
      simp [h.1, h.2]
    · by_cases hk : r.kind = k
      · have hne : e ≠ (r.id, r) := fun h => hr (hsame.mpr ⟨hk, h⟩)
        simp [hk, hr, hne]
      · simp [hk, hr]

/-- The ids still in use after one was given up. -/
theorem get?_update_erase_ne_none {r r' : Request}
    (h : Fields.get? r'.id
      (Function.update pending r.kind (Fields.erase r.id (pending r.kind)) r'.kind) ≠ none) :
    r' ≠ r ∧ Fields.get? r'.id (pending r'.kind) ≠ none := by
  by_cases hk : r'.kind = r.kind
  · rw [hk, Function.update_self, Fields.get?_erase] at h
    split_ifs at h with hid
    · exact absurd rfl h
    · exact ⟨fun hr => hid (by rw [hr]), by rwa [hk]⟩
  · rw [Function.update_of_ne hk] at h
    exact ⟨fun hr => hk (by rw [hr]), h⟩

/-- The ids in use after one was taken. -/
theorem get?_update_set_ne_none {r r' : Request}
    (h : Fields.get? r'.id
      (Function.update pending r.kind (Fields.set r.id r (pending r.kind)) r'.kind) ≠ none) :
    r' = r ∨ Fields.get? r'.id (pending r'.kind) ≠ none := by
  by_cases hk : r'.kind = r.kind
  · rw [hk, Function.update_self, Fields.get?_set] at h
    by_cases hid : r'.id = r.id
    · left
      obtain ⟨k, id⟩ := r'
      obtain ⟨k', id'⟩ := r
      simp only at hk hid
      rw [hk, hid]
    · right
      rw [hk]
      rwa [if_neg hid] at h
  · rw [Function.update_of_ne hk] at h
    exact .inr h

theorem extract_cases {s : State} (hp : Indexed s.pending) (r : Request) :
    (Fields.get? r.id (s.pending r.kind) = none ∧ s.extract r = (none, s)) ∨
      (Fields.get? r.id (s.pending r.kind) = some r ∧
        s.extract r =
          (some r, s.setPending r.kind (Fields.erase r.id (s.pending r.kind)))) := by
  cases hget : Fields.get? r.id (s.pending r.kind) with
  | none =>
    left
    simp [State.extract, hget]
  | some h =>
    right
    have hh : h = r := hp.eq_of_get? hget
    simp [State.extract, hget, hh]

end maps

/-! ## Sends and the log -/

theorem answeringCount_update (send : Request → SendPc) (r r' : Request) (pc : SendPc) :
    answeringCount (Function.update send r pc) r' =
      if r' = r then (if pc = .answering r then 1 else 0) else answeringCount send r' := by
  by_cases hr : r' = r
  · simp [answeringCount, hr]
  · simp [answeringCount, hr]

@[simp] theorem invocations_append (log : List Event) (e : Event) (r : Request) :
    invocations (log ++ [e]) r = invocations log r + if e.invokes r then 1 else 0 := by
  simp [invocations, List.countP_append, List.countP_singleton]

@[simp] theorem cancellations_append (log : List Event) (e : Event) (r : Request) :
    cancellations (log ++ [e]) r = cancellations log r + if e.cancels r then 1 else 0 := by
  simp [cancellations, List.countP_append, List.countP_singleton]

/-! ## One step -/

section step
variable {s : State}

/-- What `fail()` has told the outside so far is not changed by any other event. -/
theorem Inv.told_append (hi : Inv s) {e : Event} (hclose : e.isClose = false)
    (hnotice : e.isClosedNotice = false) (herror : e.isErrorCall = false) :
    (s.log ++ [e]).countP Event.isClose = s.fail.closes ∧
      (s.log ++ [e]).countP Event.isClosedNotice ≤ s.fail.notices ∧
      (s.log ++ [e]).countP Event.isErrorCall ≤ s.fail.errorCalls := by
  simp only [List.countP_append, List.countP_singleton, hclose, hnotice, herror,
    Bool.false_eq_true, if_false, Nat.add_zero]
  exact ⟨hi.closes, hi.notices, hi.errorCalls⟩

/-- A send goes on without touching its handler. -/
theorem Inv.setSend (hi : Inv s) {r : Request} {pc : SendPc}
    (hbefore : s.send r ≠ .answering r) (hafter : ∀ mine, pc ≠ .answering mine)
    (hregistered : pc.handlers = (s.send r).handlers)
    (hlate : s.fail.Swept → Fields.get? r.id (s.pending r.kind) ≠ none →
      pc = .registered ∨ pc = .reclaiming) : Inv (s.setSend r pc) where
  indexed := hi.indexed
  stopped := hi.stopped
  closes := hi.closes
  notices := hi.notices
  errorCalls := hi.errorCalls
  own := by
    intro r' mine h
    by_cases hr : r' = r
    · rw [hr, State.send_setSend_self] at h
      exact absurd h (hafter mine)
    · rw [State.send_setSend_of_ne s hr] at h
      exact hi.own r' mine h
  conserved := by
    intro r'
    have hanswering :
        answeringCount (Function.update s.send r pc) r' = answeringCount s.send r' := by
      rw [answeringCount_update]
      by_cases hr : r' = r
      · simp [hr, hafter r, answeringCount, hbefore]
      · simp [hr]
    have hsame : ((s.setSend r pc).send r').handlers = (s.send r').handlers := by
      by_cases hr : r' = r
      · rw [hr, State.send_setSend_self, hregistered]
      · rw [State.send_setSend_of_ne s hr]
    have hr' := hi.conserved r'
    simp only [State.places, hsame] at hr' ⊢
    simp only [State.setSend, hanswering]
    exact hr'
  late := by
    intro hswept r' hmem
    by_cases hr : r' = r
    · rw [hr] at hmem
      rw [hr, State.send_setSend_self]
      exact hlate hswept hmem
    · rw [State.send_setSend_of_ne s hr]
      exact hi.late hswept r' hmem

theorem inv_register (hi : Inv s) {r : Request} (hidle : s.send r = .idle) :
    Inv ((s.setPending r.kind (Fields.set r.id r (s.pending r.kind))).setSend r .registered) := by
  have hplaces := hi.conserved r
  simp only [SendPc.handlers, hidle, State.places]
    at hplaces
  have hfresh : Fields.get? r.id (s.pending r.kind) = none :=
    hi.indexed.get?_eq_none (by omega)
  refine { hi with
    indexed := hi.indexed.set r
    own := ?own
    conserved := ?conserved
    late := ?late }
  case own =>
    intro r' mine h
    by_cases hr : r' = r
    · rw [hr, State.send_setSend_self] at h
      cases h
    · rw [State.send_setSend_of_ne _ hr] at h
      exact hi.own r' mine h
  case conserved =>
    intro r'
    have hcount := pendingCount_set hfresh r'
    have hr' := hi.conserved r'
    simp only [State.places] at hr'
    simp only [State.places, State.setSend, State.setPending, answeringCount_update, hcount]
    by_cases hr : r' = r
    · simp [hr, hidle, SendPc.handlers, answeringCount] at hr' ⊢
      omega
    · simp only [hr, if_false, Function.update_of_ne hr, Nat.add_zero]
      exact hr'
  case late =>
    intro hswept r' hmem
    by_cases hr : r' = r
    · rw [hr, State.send_setSend_self]
      exact .inl rfl
    · rw [State.send_setSend_of_ne _ hr]
      exact hi.late hswept r' ((get?_update_set_ne_none hmem).resolve_left hr)

theorem inv_loadStopped (hi : Inv s) {r : Request} (hpc : s.send r = .registered) :
    Inv (s.setSend r (if s.stopped then .reclaiming else .emitting)) := by
  apply hi.setSend
  · simp [hpc]
  · intro mine
    split_ifs <;> simp
  · rw [hpc]
    split_ifs <;> simp [SendPc.handlers]
  · -- A sweep only happens on a stopped peer, which this load sees.
    intro hswept _
    cases hstopped : s.stopped with
    | true => exact .inr (by simp)
    | false =>
      rw [hi.stopped hstopped] at hswept
      exact hswept.elim

theorem inv_reclaim (hi : Inv s) {r : Request} (hpc : s.send r = .reclaiming)
    (hget : Fields.get? r.id (s.pending r.kind) = some r) :
    Inv ((s.setPending r.kind (Fields.erase r.id (s.pending r.kind))).setSend r
      (.answering r)) := by
  refine { hi with
    indexed := hi.indexed.erase r.kind r.id
    own := ?own
    conserved := ?conserved
    late := ?late }
  case own =>
    intro r' mine h
    by_cases hr : r' = r
    · rw [hr, State.send_setSend_self] at h
      rw [hr]
      exact (SendPc.answering.inj h).symm
    · rw [State.send_setSend_of_ne _ hr] at h
      exact hi.own r' mine h
  case conserved =>
    intro r'
    have hcount := hi.indexed.pendingCount_erase hget r'
    have hr' := hi.conserved r'
    simp only [State.places] at hr'
    simp only [State.places, State.setSend, State.setPending, answeringCount_update]
    by_cases hr : r' = r
    · simp [hr, hpc, SendPc.handlers, answeringCount] at hr' hcount ⊢
      omega
    · simp only [hr, if_false, Function.update_of_ne hr] at hcount ⊢
      omega
  case late =>
    intro hswept r' hmem
    have hold := get?_update_erase_ne_none hmem
    rw [State.send_setSend_of_ne _ hold.1]
    exact hi.late hswept r' hold.2

theorem inv_answerStopped (hi : Inv s) {r mine : Request} (hpc : s.send r = .answering mine) :
    Inv ((s.emitEvent (.invoked mine (stoppedAnswer r))).setSend r .returned) := by
  have hmine : mine = r := hi.own r mine hpc
  rw [hmine] at hpc ⊢
  obtain ⟨hcloses, hnotices, herrors⟩ :=
    hi.told_append (e := .invoked r (stoppedAnswer r)) rfl rfl rfl
  refine { hi with
    own := ?own
    conserved := ?conserved
    late := ?late
    closes := hcloses
    notices := hnotices
    errorCalls := herrors }
  case own =>
    intro r' mine h
    by_cases hr : r' = r
    · rw [hr, State.send_setSend_self] at h
      cases h
    · rw [State.send_setSend_of_ne _ hr] at h
      exact hi.own r' mine h
  case conserved =>
    intro r'
    have hr' := hi.conserved r'
    simp only [State.places] at hr'
    simp only [State.places, State.setSend, State.emitEvent, answeringCount_update,
      invocations_append, cancellations_append]
    by_cases hr : r' = r
    · simp [hr, hpc, SendPc.handlers, answeringCount, Event.invokes, Event.cancels] at hr' ⊢
      omega
    · have hne : r ≠ r' := fun h => hr h.symm
      simp [hr, hne, Event.invokes, Event.cancels] at hr' ⊢
      exact hr'
  case late =>
    intro hswept r' hmem
    by_cases hr : r' = r
    · rw [hr] at hmem
      have hlate := hi.late hswept r hmem
      simp [hpc] at hlate
    · rw [State.send_setSend_of_ne _ hr]
      exact hi.late hswept r' hmem

/-- An event that is no call, no cancellation and no part of `fail()`. -/
theorem Inv.wire (hi : Inv s) {e : Event} (he : (∃ r, e = .emitted r) ∨ ∃ m, e = .received m) :
    Inv (s.emitEvent e) := by
  have hnone : (∀ r, e.invokes r = false ∧ e.cancels r = false) ∧ e.isClose = false ∧
      e.isClosedNotice = false ∧ e.isErrorCall = false := by
    obtain ⟨r, rfl⟩ | ⟨m, rfl⟩ := he
    · simp [Event.invokes, Event.cancels, Event.isClose, Event.isClosedNotice, Event.isErrorCall]
    · simp [Event.invokes, Event.cancels, Event.isClose, Event.isClosedNotice, Event.isErrorCall]
  obtain ⟨hneutral, hclose, hnotice, herror⟩ := hnone
  obtain ⟨hcloses, hnotices, herrors⟩ := hi.told_append hclose hnotice herror
  exact { hi with
    conserved := by
      intro r'
      have hr' := hi.conserved r'
      simp only [State.places] at hr'
      simpa [State.places, State.emitEvent, hneutral r'] using hr'
    closes := hcloses
    notices := hnotices
    errorCalls := herrors }

theorem inv_emit (hi : Inv s) {r : Request} (hpc : s.send r = .emitting) :
    Inv ((s.emitEvent (.emitted r)).setSend r .returned) := by
  have hsend : (s.emitEvent (.emitted r)).send r = .emitting := hpc
  apply (hi.wire (.inl ⟨r, rfl⟩)).setSend
  · simp [hsend]
  · simp
  · simp [hsend, SendPc.handlers]
  · intro hswept hmem
    have hlate := hi.late hswept r hmem
    simp [hpc] at hlate

theorem inv_dispatch (hi : Inv s) {r : Request} (m : AnyMessage)
    (hget : Fields.get? r.id (s.pending r.kind) = some r) :
    Inv { s.setPending r.kind (Fields.erase r.id (s.pending r.kind)) with
      inHand := (r, m) :: s.inHand } := by
  refine { hi with
    indexed := hi.indexed.erase r.kind r.id
    conserved := ?conserved
    late := ?late }
  case conserved =>
    intro r'
    have hcount := hi.indexed.pendingCount_erase hget r'
    have hr' := hi.conserved r'
    simp only [State.places, inHandCount] at hr'
    simp only [State.places, State.setPending, inHandCount, List.map_cons, List.count_cons]
    by_cases hr : r' = r
    · simp only [hr, if_true, beq_self_eq_true] at hr' hcount ⊢
      omega
    · have hne : ¬ r = r' := fun h => hr h.symm
      simp only [hr, if_false, beq_iff_eq, hne] at hcount ⊢
      omega
  case late =>
    intro hswept r' hmem
    exact hi.late hswept r' (get?_update_erase_ne_none hmem).2

theorem inv_invoke (hi : Inv s) {i : ℕ} {r : Request} {m : AnyMessage}
    (hget : s.inHand[i]? = some (r, m)) :
    Inv ({ s with inHand := s.inHand.eraseIdx i }.emitEvent (.invoked r m)) := by
  obtain ⟨hlt, hi'⟩ := List.getElem?_eq_some_iff.mp hget
  have hperm := List.getElem_cons_eraseIdx_perm hlt
  rw [hi'] at hperm
  obtain ⟨hcloses, hnotices, herrors⟩ := hi.told_append (e := .invoked r m) rfl rfl rfl
  refine { hi with
    conserved := ?conserved
    closes := hcloses
    notices := hnotices
    errorCalls := herrors }
  case conserved =>
    intro r'
    have hcount : inHandCount s.inHand r' =
        inHandCount (s.inHand.eraseIdx i) r' + if r = r' then 1 else 0 := by
      rw [inHandCount, ← (hperm.map Prod.fst).count_eq, List.map_cons, List.count_cons]
      simp [inHandCount]
    have hr' := hi.conserved r'
    simp only [State.places, hcount] at hr'
    simp only [State.places, State.emitEvent, invocations_append, cancellations_append,
      Event.invokes, Event.cancels, decide_eq_true_eq]
    simp only [Bool.false_eq_true, if_false]
    omega

theorem inv_cancelOne (hi : Inv s) (r : Request) : Inv (s.cancelOne r) := by
  obtain ⟨_, hextract⟩ | ⟨hget, hextract⟩ := extract_cases hi.indexed r
  · simp only [State.cancelOne, hextract]
    exact hi
  · simp only [State.cancelOne, hextract]
    obtain ⟨hcloses, hnotices, herrors⟩ := hi.told_append (e := .cancelled r) rfl rfl rfl
    refine { hi with
      indexed := hi.indexed.erase r.kind r.id
      conserved := ?conserved
      late := ?late
      closes := hcloses
      notices := hnotices
      errorCalls := herrors }
    case conserved =>
      intro r'
      have hcount := hi.indexed.pendingCount_erase hget r'
      have hr' := hi.conserved r'
      simp only [State.places] at hr'
      simp only [State.places, State.setPending, State.emitEvent, invocations_append,
        cancellations_append, Event.invokes, Event.cancels, Bool.false_eq_true, if_false,
        decide_eq_true_eq]
      by_cases hr : r' = r
      · simp only [hr, if_true] at hr' hcount ⊢
        omega
      · have hne : ¬ r = r' := fun h => hr h.symm
        simp only [hr, if_false, hne] at hcount ⊢
        omega
    case late =>
      intro hswept r' hmem
      exact hi.late hswept r' (get?_update_erase_ne_none hmem).2

theorem inv_failEnter (hi : Inv s) (hstopped : s.stopped = false) (reason : Bytes) :
    Inv { s with stopped := true, fail := .sweeping reason } := by
  have hfail := hi.stopped hstopped
  refine { hi with
    conserved := ?conserved
    stopped := by simp
    late := by simp [FailPc.Swept]
    closes := ?closes
    notices := ?notices
    errorCalls := ?errorCalls }
  case conserved =>
    intro r
    have hr := hi.conserved r
    simpa [State.places, hfail, FailPc.todo] using hr
  case closes => simpa [hfail, FailPc.closes] using hi.closes
  case notices => simpa [hfail, FailPc.notices] using hi.notices
  case errorCalls => simpa [hfail, FailPc.errorCalls] using hi.errorCalls

theorem inv_failSweep (hi : Inv s) {reason : Bytes} (hfail : s.fail = .sweeping reason) :
    Inv { s with
      pending := fun _ => []
      error := false
      fail := .answering reason ((s.pending .call).map Prod.snd ++ (s.pending .methods).map Prod.snd)
        s.error } := by
  have hnot : s.stopped ≠ false := by
    intro hstopped
    rw [hi.stopped hstopped] at hfail
    cases hfail
  refine { hi with
    indexed := ⟨fun _ => .nil, by simp⟩
    conserved := ?conserved
    stopped := fun h => absurd h hnot
    late := by simp [Fields.get?]
    closes := ?closes
    notices := ?notices
    errorCalls := ?errorCalls }
  case conserved =>
    intro r
    have hr := hi.conserved r
    have hcalls := count_handlers (hi.indexed.keyed .call) r
    have hmethods := count_handlers (hi.indexed.keyed .methods) r
    simp only [State.places, hfail, FailPc.todo, List.count_nil] at hr
    simp only [State.places, FailPc.todo, List.count_append, hcalls, hmethods]
    have hempty : pendingCount (fun _ => []) r = 0 := rfl
    have hpending : pendingCount s.pending r = (s.pending r.kind).count (r.id, r) := rfl
    cases hk : r.kind with
    | call =>
      rw [hk] at hpending
      simp only [if_true, reduceCtorEq, if_false]
      omega
    | methods =>
      rw [hk] at hpending
      simp only [if_true, reduceCtorEq, if_false]
      omega
  case closes => simpa [hfail, FailPc.closes] using hi.closes
  case notices => simpa [hfail, FailPc.notices] using hi.notices
  case errorCalls => simpa [hfail, FailPc.errorCalls] using hi.errorCalls

theorem inv_failAnswer (hi : Inv s) {reason : Bytes} {r : Request} {todo : List Request}
    {errCb : Bool} (hfail : s.fail = .answering reason (r :: todo) errCb) :
    Inv ({ s with fail := .answering reason todo errCb }.emitEvent
      (.invoked r (failedAnswer reason r))) := by
  have hnot : s.stopped ≠ false := by
    intro hstopped
    rw [hi.stopped hstopped] at hfail
    cases hfail
  have htold := hi.told_append (e := .invoked r (failedAnswer reason r)) rfl rfl rfl
  rw [hfail] at htold
  refine { hi with
    conserved := ?conserved
    stopped := fun h => absurd h hnot
    late := fun _ => hi.late (by rw [hfail]; trivial)
    closes := htold.1
    notices := htold.2.1
    errorCalls := htold.2.2 }
  case conserved =>
    intro r'
    have hr' := hi.conserved r'
    simp only [State.places, hfail, FailPc.todo, List.count_cons, beq_iff_eq] at hr'
    simp only [State.places, State.emitEvent, FailPc.todo, invocations_append,
      cancellations_append, Event.invokes, Event.cancels, Bool.false_eq_true, if_false,
      decide_eq_true_eq]
    omega

/-- The steps of `fail()` after the last answer only add what they tell the outside. -/
theorem Inv.closing (hi : Inv s) {pc : FailPc} {es : List Event} (hswept : s.fail.Swept)
    (htodo : pc.todo = s.fail.todo)
    (hneutral : ∀ e ∈ es, ∀ r, e.invokes r = false ∧ e.cancels r = false)
    (hcloses : s.fail.closes + es.countP Event.isClose = pc.closes)
    (hnotices : s.fail.notices + es.countP Event.isClosedNotice ≤ pc.notices)
    (herrors : s.fail.errorCalls + es.countP Event.isErrorCall ≤ pc.errorCalls) :
    Inv { s with fail := pc, log := s.log ++ es } where
  indexed := hi.indexed
  own := hi.own
  conserved := by
    intro r
    have hr := hi.conserved r
    have hinvokes : es.countP (Event.invokes r) = 0 := by
      rw [List.countP_eq_zero]
      intro e he
      simp [(hneutral e he r).1]
    have hcancels : es.countP (Event.cancels r) = 0 := by
      rw [List.countP_eq_zero]
      intro e he
      simp [(hneutral e he r).2]
    simp only [State.places, invocations, cancellations] at hr
    simp only [State.places, invocations, cancellations, htodo, List.countP_append, hinvokes,
      hcancels]
    omega
  stopped := by
    intro hstopped
    rw [hi.stopped hstopped] at hswept
    exact hswept.elim
  late := fun _ => hi.late hswept
  closes := by
    have h := hi.closes
    simp only [List.countP_append]
    omega
  notices := by
    have h := hi.notices
    simp only [List.countP_append]
    omega
  errorCalls := by
    have h := hi.errorCalls
    simp only [List.countP_append]
    omega

theorem inv_failClose (hi : Inv s) {reason : Bytes} {errCb : Bool}
    (hfail : s.fail = .answering reason [] errCb) :
    Inv ({ s with fail := .closed reason errCb }.emitEvent .closeTransport) := by
  apply hi.closing
  · rw [hfail]
    trivial
  · rw [hfail]
    rfl
  · simp [Event.invokes, Event.cancels]
  · simp [hfail, FailPc.closes, Event.isClose]
  · simp [hfail, FailPc.notices, Event.isClosedNotice]
  · simp [hfail, FailPc.errorCalls, Event.isErrorCall]

theorem inv_failNotify (hi : Inv s) {reason : Bytes} {errCb : Bool}
    (hfail : s.fail = .closed reason errCb) (hasHandler : Bool) :
    Inv (if hasHandler then
        { s with fail := .notified reason errCb }.emitEvent .onConnectionClosed
      else { s with fail := .notified reason errCb }) := by
  have hlog : (if hasHandler then
        { s with fail := .notified reason errCb }.emitEvent .onConnectionClosed
      else { s with fail := .notified reason errCb }) =
      { s with fail := .notified reason errCb,
               log := s.log ++ if hasHandler then [.onConnectionClosed] else [] } := by
    cases hasHandler <;> simp [State.emitEvent]
  rw [hlog]
  apply hi.closing
  · rw [hfail]
    trivial
  · rw [hfail]
    rfl
  · cases hasHandler <;> simp [Event.invokes, Event.cancels]
  · cases hasHandler <;> simp [hfail, FailPc.closes, Event.isClose]
  · cases hasHandler <;> simp [hfail, FailPc.notices, Event.isClosedNotice]
  · cases hasHandler <;> simp [hfail, FailPc.errorCalls, Event.isErrorCall]

theorem inv_failError (hi : Inv s) {reason : Bytes} {errCb : Bool}
    (hfail : s.fail = .notified reason errCb) :
    Inv (if errCb then { s with fail := .returned }.emitEvent (.errorHandler reason)
      else { s with fail := .returned }) := by
  have hlog : (if errCb then { s with fail := .returned }.emitEvent (.errorHandler reason)
      else { s with fail := .returned }) =
      { s with fail := .returned, log := s.log ++ if errCb then [.errorHandler reason] else [] } := by
    cases errCb <;> simp [State.emitEvent]
  rw [hlog]
  apply hi.closing
  · rw [hfail]
    trivial
  · rw [hfail]
    rfl
  · cases errCb <;> simp [Event.invokes, Event.cancels]
  · cases errCb <;> simp [hfail, FailPc.closes, Event.isClose]
  · cases errCb <;> simp [hfail, FailPc.notices, Event.isClosedNotice]
  · cases errCb <;> simp [hfail, FailPc.errorCalls, Event.isErrorCall]

end step

/-! ## Every run -/

theorem inv_initial : Inv {} where
  indexed := ⟨fun _ => .nil, by simp⟩
  own := by simp
  conserved _ := rfl
  stopped _ := rfl
  late h := h.elim
  closes := rfl
  notices := Nat.le_refl _
  errorCalls := Nat.le_refl _

/-- Every step keeps the invariant. -/
theorem Inv.next {hasHandler : Bool} {s s' : State} {a : Action} (hi : Inv s)
    (h : next hasHandler s a = some s') : Inv s' := by
  cases a with
  | ignore id =>
    simp only [PendingCalls.next, Option.ite_none_right_eq_some, Option.some.injEq] at h
    obtain ⟨hpc, rfl⟩ := h
    apply hi.setSend
    · simp [hpc]
    · simp
    · simp [hpc, SendPc.handlers]
    · intro hswept hmem
      have hlate := hi.late hswept ⟨.call, id⟩ hmem
      simp [hpc] at hlate
  | register r =>
    simp only [PendingCalls.next, Option.ite_none_right_eq_some, Option.some.injEq] at h
    obtain ⟨hpc, rfl⟩ := h
    exact inv_register hi hpc
  | loadStopped r =>
    simp only [PendingCalls.next, Option.ite_none_right_eq_some, Option.some.injEq] at h
    obtain ⟨hpc, rfl⟩ := h
    exact inv_loadStopped hi hpc
  | reclaim r =>
    simp only [PendingCalls.next] at h
    split_ifs at h with hpc
    obtain ⟨hget, hextract⟩ | ⟨hget, hextract⟩ := extract_cases hi.indexed r
    · rw [hextract] at h
      cases h
      apply hi.setSend
      · simp [hpc]
      · simp
      · simp [hpc, SendPc.handlers]
      · intro _ hmem
        exact absurd hget hmem
    · rw [hextract] at h
      cases h
      exact inv_reclaim hi hpc hget
  | answerStopped r =>
    simp only [PendingCalls.next] at h
    split at h
    · rename_i mine hpc
      cases h
      exact inv_answerStopped hi hpc
    · cases h
  | emit r =>
    simp only [PendingCalls.next, Option.ite_none_right_eq_some, Option.some.injEq] at h
    obtain ⟨hpc, rfl⟩ := h
    exact inv_emit hi hpc
  | dispatchIncoming m =>
    have hreceived : Inv (s.emitEvent (.received m)) := hi.wire (.inr ⟨m, rfl⟩)
    simp only [PendingCalls.next] at h
    cases hm : answeredBy m with
    | none =>
      rw [hm] at h
      cases h
      exact hreceived
    | some r =>
      obtain ⟨_, hextract⟩ | ⟨hget, hextract⟩ := extract_cases hreceived.indexed r
      · simp only [hm, hextract, Option.some.injEq] at h
        rw [← h]
        exact hreceived
      · simp only [hm, hextract, Option.some.injEq] at h
        rw [← h]
        exact inv_dispatch hreceived m hget
  | invoke i =>
    simp only [PendingCalls.next] at h
    split at h
    · rename_i r m hget
      cases h
      exact inv_invoke hi hget
    · cases h
  | cancelPending id =>
    simp only [PendingCalls.next, Option.some.injEq] at h
    rw [← h]
    exact inv_cancelOne (inv_cancelOne hi _) _
  | setErrorHandler installed =>
    cases h
    exact { hi with }
  | failEnter reason =>
    simp only [PendingCalls.next] at h
    cases hstopped : s.stopped with
    | true =>
      rw [hstopped] at h
      cases h
      exact hi
    | false =>
      rw [hstopped] at h
      cases h
      exact inv_failEnter hi hstopped reason
  | failSweep =>
    simp only [PendingCalls.next] at h
    split at h
    · rename_i reason hfail
      cases h
      exact inv_failSweep hi hfail
    · cases h
  | failAnswer =>
    simp only [PendingCalls.next] at h
    split at h
    · rename_i reason r todo errCb hfail
      cases h
      exact inv_failAnswer hi hfail
    · cases h
  | failClose =>
    simp only [PendingCalls.next] at h
    split at h
    · rename_i reason errCb hfail
      cases h
      exact inv_failClose hi hfail
    · cases h
  | failNotify =>
    simp only [PendingCalls.next] at h
    split at h
    · rename_i reason errCb hfail
      cases h
      exact inv_failNotify hi hfail hasHandler
    · cases h
  | failError =>
    simp only [PendingCalls.next] at h
    split at h
    · rename_i reason errCb hfail
      cases h
      exact inv_failError hi hfail
    · cases h

/-- Every reachable state has the invariant. -/
theorem inv_of_reachable {hasHandler : Bool} {s : State} (h : (peer hasHandler).Reachable s) :
    Inv s := by
  apply TransitionSystem.Reachable.invariant _ _ h
  · intro s₀ h₀
    rw [h₀]
    exact inv_initial
  · intro s₀ a s₁ hi hstep
    exact hi.next hstep

end LogosProtocol.PendingCalls
