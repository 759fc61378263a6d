import LogosProtocol.Rpc.ExactlyOnce

/-!
# What a handler is called with

A handler is called with a message that answers its request: one that came in, or one of
the two errors a stopped peer makes up.  With the count of the places a handler can be in,
this settles every request once `fail()` and the sends have returned.

## Main definitions

* `IsAnswer` — what a handler may be called with.
* `Settled` — how a registered request ends.
-/

namespace LogosProtocol.PendingCalls

/-- What a handler may be called with. -/
def IsAnswer (log : List Event) (r : Request) (m : AnyMessage) : Prop :=
  (answeredBy m = some r ∧ .received m ∈ log) ∨ m = stoppedAnswer r ∨
    ∃ reason, m = failedAnswer reason r

theorem IsAnswer.append {log : List Event} {r : Request} {m : AnyMessage}
    (h : IsAnswer log r m) (es : List Event) : IsAnswer (log ++ es) r m := by
  obtain ⟨hm, hlog⟩ | h := h
  · exact .inl ⟨hm, List.mem_append_left es hlog⟩
  · exact .inr h

/-- Every answer given or about to be given is one. -/
structure Answered (s : State) : Prop where
  inHand : ∀ r m, (r, m) ∈ s.inHand → answeredBy m = some r ∧ .received m ∈ s.log
  log : ∀ r m, .invoked r m ∈ s.log → IsAnswer s.log r m

/-- A step that takes out no handler and only calls one with an answer. -/
theorem Answered.extend {s s' : State} (ha : Answered s) (es : List Event)
    (hlog : s'.log = s.log ++ es) (hin : ∀ p ∈ s'.inHand, p ∈ s.inHand)
    (hes : ∀ r m, .invoked r m ∈ es → IsAnswer s'.log r m) : Answered s' where
  inHand r m hmem := by
    have h := ha.inHand r m (hin (r, m) hmem)
    rw [hlog]
    exact ⟨h.1, List.mem_append_left es h.2⟩
  log r m hmem := by
    rw [hlog, List.mem_append] at hmem
    cases hmem with
    | inl hmem =>
      rw [hlog]
      exact (ha.log r m hmem).append es
    | inr hmem => exact hes r m hmem

/-- A step that neither takes out nor calls a handler. -/
theorem Answered.quiet {s s' : State} (ha : Answered s) (hlog : s'.log = s.log)
    (hin : s'.inHand = s.inHand) : Answered s' := by
  apply ha.extend []
  · simp [hlog]
  · simp [hin]
  · simp

/-- A handler is called with an answer. -/
theorem Answered.invoke {s s' : State} {r : Request} {m : AnyMessage} (ha : Answered s)
    (hlog : s'.log = s.log ++ [.invoked r m]) (hin : ∀ p ∈ s'.inHand, p ∈ s.inHand)
    (hm : IsAnswer s'.log r m) : Answered s' := by
  apply ha.extend [.invoked r m] hlog hin
  intro r' m' hmem
  obtain ⟨rfl, rfl⟩ := Event.invoked.inj (List.mem_singleton.mp hmem)
  exact hm

/-- An event that calls no handler. -/
theorem Answered.event {s s' : State} {e : Event} (ha : Answered s)
    (he : ∀ r m, e ≠ .invoked r m) (hlog : s'.log = s.log ++ [e])
    (hin : s'.inHand = s.inHand) : Answered s' := by
  apply ha.extend [e] hlog
  · simp [hin]
  · intro r m hmem
    exact absurd (List.mem_singleton.mp hmem).symm (he r m)

theorem Answered.cancelOne {s : State} (ha : Answered s) (hi : Inv s) (r : Request) :
    Answered (s.cancelOne r) := by
  obtain ⟨_, hextract⟩ | ⟨_, hextract⟩ := extract_cases hi.indexed r
  · simp only [State.cancelOne, hextract]
    exact ha
  · simp only [State.cancelOne, hextract]
    exact ha.event (by simp) rfl rfl

section actions
variable {hasHandler : Bool} {s s' : State}

theorem answered_reclaim (ha : Answered s) (hi : Inv s) {r : Request}
    (h : next hasHandler s (.reclaim r) = some s') : Answered s' := by
  simp only [next] at h
  split_ifs at h
  obtain ⟨_, hextract⟩ | ⟨_, hextract⟩ := extract_cases hi.indexed r
  · rw [hextract] at h
    cases h
    exact ha.quiet rfl rfl
  · rw [hextract] at h
    cases h
    exact ha.quiet rfl rfl

theorem answered_answerStopped (ha : Answered s) (hi : Inv s) {r : Request}
    (h : next hasHandler s (.answerStopped r) = some s') : Answered s' := by
  simp only [next] at h
  split at h
  · rename_i mine hpc
    cases h
    have hmine : mine = r := hi.own r mine hpc
    exact ha.invoke rfl (fun p hp => hp) (.inr (.inl (by rw [hmine])))
  · cases h

/-- The section of a dispatch: the handler it takes out is that of the message. -/
theorem answered_dispatchIncoming (ha : Answered s) (hi : Inv s) {m : AnyMessage}
    (h : next hasHandler s (.dispatchIncoming m) = some s') : Answered s' := by
  have hreceived : Answered (s.emitEvent (.received m)) := ha.event (by simp) rfl rfl
  have hindexed : Indexed (s.emitEvent (.received m)).pending := hi.indexed
  simp only [next] at h
  cases hm : answeredBy m with
  | none =>
    rw [hm] at h
    cases h
    exact hreceived
  | some r =>
    obtain ⟨_, hextract⟩ | ⟨_, hextract⟩ := extract_cases hindexed r
    · simp only [hm, hextract, Option.some.injEq] at h
      rw [← h]
      exact hreceived
    · simp only [hm, hextract, Option.some.injEq] at h
      rw [← h]
      refine { hreceived with inHand := ?_ }
      intro r' m' hmem
      rw [List.mem_cons] at hmem
      cases hmem with
      | inl heq =>
        obtain ⟨rfl, rfl⟩ := Prod.mk.inj heq
        exact ⟨hm, List.mem_append_right _ (List.mem_singleton.mpr rfl)⟩
      | inr hmem => exact hreceived.inHand r' m' hmem

theorem answered_invoke (ha : Answered s) {i : ℕ}
    (h : next hasHandler s (.invoke i) = some s') : Answered s' := by
  simp only [next] at h
  split at h
  · rename_i r m hget
    cases h
    have hheld := ha.inHand r m (List.mem_of_getElem? hget)
    apply ha.invoke rfl
    · intro p hp
      exact List.mem_of_mem_eraseIdx hp
    · exact .inl ⟨hheld.1, List.mem_append_left _ hheld.2⟩
  · cases h

theorem answered_cancelPending (ha : Answered s) (hi : Inv s) {id : UInt64}
    (h : next hasHandler s (.cancelPending id) = some s') : Answered s' := by
  simp only [next, Option.some.injEq] at h
  rw [← h]
  exact (ha.cancelOne hi _).cancelOne (inv_cancelOne hi _) _

theorem answered_failEnter (ha : Answered s) {reason : Bytes}
    (h : next hasHandler s (.failEnter reason) = some s') : Answered s' := by
  simp only [next] at h
  split_ifs at h
  · cases h
    exact ha
  · cases h
    exact ha.quiet rfl rfl

theorem answered_failSweep (ha : Answered s) (h : next hasHandler s .failSweep = some s') :
    Answered s' := by
  simp only [next] at h
  split at h
  · cases h
    exact ha.quiet rfl rfl
  · cases h

theorem answered_failAnswer (ha : Answered s) (h : next hasHandler s .failAnswer = some s') :
    Answered s' := by
  simp only [next] at h
  split at h
  · rename_i reason r todo errCb _
    cases h
    exact ha.invoke rfl (fun p hp => hp) (.inr (.inr ⟨reason, rfl⟩))
  · cases h

theorem answered_failClose (ha : Answered s) (h : next hasHandler s .failClose = some s') :
    Answered s' := by
  simp only [next] at h
  split at h
  · cases h
    exact ha.event (by simp) rfl rfl
  · cases h

theorem answered_failNotify (ha : Answered s) (h : next hasHandler s .failNotify = some s') :
    Answered s' := by
  simp only [next] at h
  split at h
  · cases h
    cases hasHandler with
    | true => exact ha.event (by simp) rfl rfl
    | false => exact ha.quiet rfl rfl
  · cases h

theorem answered_failError (ha : Answered s) (h : next hasHandler s .failError = some s') :
    Answered s' := by
  simp only [next] at h
  split at h
  · rename_i reason errCb _
    cases h
    cases errCb with
    | true => exact ha.event (by simp) rfl rfl
    | false => exact ha.quiet rfl rfl
  · cases h

/-- Every step keeps it. -/
theorem Answered.next {a : Action} (ha : Answered s) (hi : Inv s)
    (h : next hasHandler s a = some s') : Answered s' := by
  cases a with
  | ignore id | register r | loadStopped r =>
    simp only [PendingCalls.next, Option.ite_none_right_eq_some, Option.some.injEq] at h
    obtain ⟨_, rfl⟩ := h
    exact ha.quiet rfl rfl
  | reclaim r => exact answered_reclaim ha hi h
  | answerStopped r => exact answered_answerStopped ha hi h
  | emit r =>
    simp only [PendingCalls.next, Option.ite_none_right_eq_some, Option.some.injEq] at h
    obtain ⟨_, rfl⟩ := h
    exact ha.event (by simp) rfl rfl
  | dispatchIncoming m => exact answered_dispatchIncoming ha hi h
  | invoke i => exact answered_invoke ha h
  | cancelPending id => exact answered_cancelPending ha hi h
  | setErrorHandler installed =>
    cases h
    exact ha.quiet rfl rfl
  | failEnter reason => exact answered_failEnter ha h
  | failSweep => exact answered_failSweep ha h
  | failAnswer => exact answered_failAnswer ha h
  | failClose => exact answered_failClose ha h
  | failNotify => exact answered_failNotify ha h
  | failError => exact answered_failError ha h

end actions

theorem answered_of_reachable {hasHandler : Bool} {s : State}
    (h : (peer hasHandler).Reachable s) : Answered s := by
  have hboth : Inv s ∧ Answered s := by
    apply TransitionSystem.Reachable.invariant _ _ h
    · intro s₀ h₀
      rw [h₀]
      exact ⟨inv_initial, ⟨by simp, by simp⟩⟩
    · intro s₀ a s₁ hs hstep
      exact ⟨hs.1.next hstep, hs.2.next hs.1 hstep⟩
  exact hboth.2

/-! ## How a request ends -/

/-- A registered handler was called once and not cancelled, or cancelled and never called;
it was only ever called with an answer. -/
def Settled (s : State) (r : Request) : Prop :=
  ((invocations s.log r = 1 ∧ cancellations s.log r = 0) ∨
    (invocations s.log r = 0 ∧ cancellations s.log r = 1)) ∧
  ∀ m, .invoked r m ∈ s.log → IsAnswer s.log r m

/-- In every state of every run, no handler has been called twice, and the transport, the
dispatch handler and the error handler have each heard of the end at most once. -/
theorem at_most_once {hasHandler : Bool} {s : State} (h : (peer hasHandler).Reachable s) :
    (∀ r, invocations s.log r ≤ 1) ∧ s.log.countP Event.isClose ≤ 1 ∧
      s.log.countP Event.isClosedNotice ≤ 1 ∧ s.log.countP Event.isErrorCall ≤ 1 := by
  have hi := inv_of_reachable h
  refine ⟨?_, ?_, ?_, ?_⟩
  · intro r
    have hr := hi.conserved r
    have hle : (s.send r).handlers ≤ 1 := by cases s.send r <;> simp [SendPc.handlers]
    simp only [State.places] at hr
    omega
  · have hle : s.fail.closes ≤ 1 := by cases s.fail <;> simp [FailPc.closes]
    have := hi.closes
    omega
  · have hle : s.fail.notices ≤ 1 := by cases s.fail <;> simp [FailPc.notices]
    have := hi.notices
    omega
  · have hle : s.fail.errorCalls ≤ 1 := by cases s.fail <;> simp [FailPc.errorCalls]
    have := hi.errorCalls
    omega

/-- Once `fail()` and the sends have returned, the maps are empty, and a registered handler
is settled or in the hands of the dispatch of its answer. -/
theorem settled_or_inHand {hasHandler : Bool} {s : State} (h : (peer hasHandler).Reachable s)
    (hfail : s.fail = .returned) (hsends : s.SendsReturned) :
    (∀ k, s.pending k = []) ∧ ∀ r, (s.send r).handlers = 1 →
      invocations s.log r + cancellations s.log r + inHandCount s.inHand r = 1 := by
  have hi := inv_of_reachable h
  have hempty : ∀ k, s.pending k = [] := by
    intro k
    rw [List.eq_nil_iff_forall_not_mem]
    intro e he
    have hget : Fields.get? e.1 (s.pending k) = some e.2 :=
      (Fields.get?_eq_some_iff (hi.indexed.ordered k) e.1 e.2).mpr he
    have hlate := hi.late (by rw [hfail]; trivial) ⟨k, e.1⟩ (by simp [hget])
    have hreturned := hsends ⟨k, e.1⟩
    grind
  refine ⟨hempty, ?_⟩
  intro r hr
  have hplaces := hi.conserved r
  have hpending : pendingCount s.pending r = 0 := by simp [pendingCount, hempty]
  have hanswering : answeringCount s.send r = 0 := by
    have hreturned := hsends r
    have hne : s.send r ≠ .answering r := by
      intro heq
      rw [heq] at hreturned
      simp at hreturned
    simp [answeringCount, hne]
  simp only [State.places, hfail, FailPc.todo, List.count_nil] at hplaces
  omega

/-! ## Critical sections -/

@[simp] theorem inHand_extract (s : State) (r : Request) : (s.extract r).2.inHand = s.inHand := by
  unfold State.extract
  cases Fields.get? r.id (s.pending r.kind) with
  | none => rfl
  | some h => rfl

@[simp] theorem inHand_cancelOne (s : State) (r : Request) :
    (s.cancelOne r).inHand = s.inHand := by
  unfold State.cancelOne State.extract
  cases Fields.get? r.id (s.pending r.kind) with
  | none => rfl
  | some h => rfl

/-- No step but the section of a dispatch takes a handler in hand. -/
theorem inHand_next {hasHandler : Bool} {s s' : State} {a : Action}
    (h : next hasHandler s a = some s') (hdispatch : ∀ m, a ≠ .dispatchIncoming m)
    (hempty : s.inHand = []) : s'.inHand = [] := by
  cases a with
  | dispatchIncoming m => exact absurd rfl (hdispatch m)
  | invoke i => simp [next, hempty] at h
  | cancelPending id =>
    simp only [next, Option.some.injEq] at h
    rw [← h, inHand_cancelOne, inHand_cancelOne, hempty]
  | reclaim r =>
    have hextract := inHand_extract s r
    simp only [next] at h
    split_ifs at h
    split at h
    · rename_i heq
      rw [heq] at hextract
      cases h
      exact hextract.trans hempty
    · rename_i heq
      rw [heq] at hextract
      cases h
      exact hextract.trans hempty
  | setErrorHandler installed =>
    cases h
    exact hempty
  | _ =>
    -- What is left changes a program counter, the maps or the log.
    simp only [next] at h
    split at h
    all_goals
      cases h <;> first
        | exact hempty
        | (split_ifs <;> exact hempty)

/-- A dispatch takes at most one handler in hand. -/
theorem inHand_dispatch {hasHandler : Bool} {s s' : State} {m : AnyMessage}
    (h : next hasHandler s (.dispatchIncoming m) = some s') (hempty : s.inHand = []) :
    s'.inHand.length ≤ 1 := by
  simp only [next] at h
  split at h
  · rename_i r _
    have hextract := inHand_extract (s.emitEvent (.received m)) r
    have hemit : (s.emitEvent (.received m)).inHand = [] := hempty
    rw [hemit] at hextract
    split at h
    · rename_i handler rest heq
      rw [heq] at hextract
      have hrest : rest.inHand = [] := hextract
      cases h
      simp [hrest]
    · rename_i rest heq
      rw [heq] at hextract
      have hrest : rest.inHand = [] := hextract
      cases h
      simp [hrest]
  · cases h
    simp [State.emitEvent, hempty]

/-- Calling the only handler in hand leaves none. -/
theorem inHand_invoke {hasHandler : Bool} {s s' : State}
    (h : next hasHandler s (.invoke 0) = some s') (hone : s.inHand.length ≤ 1) :
    s'.inHand = [] := by
  simp only [next] at h
  split at h
  · cases h
    rw [State.emitEvent, ← List.length_eq_zero_iff, List.length_eraseIdx]
    split_ifs
    · omega
    · omega
  · cases h

/-- The state after a section is reached by the finer steps, with no handler in hand. -/
theorem reachable_of_sectionPeer {hasHandler : Bool} {s : State}
    (h : (sectionPeer hasHandler).Reachable s) :
    (peer hasHandler).Reachable s ∧ s.inHand = [] := by
  apply TransitionSystem.Reachable.invariant _ _ h
  · intro s₀ h₀
    rw [h₀]
    exact ⟨.init rfl, rfl⟩
  · intro s₀ a s₁ hs hstep
    obtain ⟨hreach, hempty⟩ := hs
    change nextSection hasHandler s₀ a = some s₁ at hstep
    by_cases hdispatch : ∃ m, a = .dispatchIncoming m
    · obtain ⟨m, rfl⟩ := hdispatch
      simp only [nextSection, Option.bind_eq_bind, Option.bind_eq_some_iff] at hstep
      obtain ⟨s', hs', hcall⟩ := hstep
      have hreach' : (peer hasHandler).Reachable s' := hreach.step hs'
      split at hcall
      · rename_i hnone
        cases hcall
        exact ⟨hreach', hnone⟩
      · exact ⟨hreach'.step hcall, inHand_invoke hcall (inHand_dispatch hs' hempty)⟩
    · have hfine : next hasHandler s₀ a = some s₁ := by
        cases a with
        | dispatchIncoming m => exact absurd ⟨m, rfl⟩ hdispatch
        | invoke i => cases hstep
        | _ => exact hstep
      refine ⟨hreach.step hfine, inHand_next hfine ?_ hempty⟩
      intro m heq
      exact hdispatch ⟨m, heq⟩

/-- **No handler is called twice, and none is lost.**  Over every interleaving of sends,
inbound messages, cancellations and calls of `fail()`: a handler is called at most once;
`closeTransport`, `onConnectionClosed` and the error handler run at most once; and once
`fail()` and the sends have returned, the maps are empty and every registered handler was
called once, with an answer, or cancelled. -/
theorem pendingCalls_exactly_once (hasHandler : Bool) (s : State)
    (h : (sectionPeer hasHandler).Reachable s) :
    (∀ r, invocations s.log r ≤ 1) ∧
      (s.log.countP Event.isClose ≤ 1 ∧ s.log.countP Event.isClosedNotice ≤ 1 ∧
        s.log.countP Event.isErrorCall ≤ 1) ∧
      (s.fail = .returned → s.SendsReturned →
        (∀ k, s.pending k = []) ∧ ∀ r, (s.send r).handlers = 1 → Settled s r) := by
  obtain ⟨hreach, hempty⟩ := reachable_of_sectionPeer h
  obtain ⟨hinvocations, honce⟩ := at_most_once hreach
  refine ⟨hinvocations, honce, ?_⟩
  intro hfail hsends
  obtain ⟨hmaps, hplaces⟩ := settled_or_inHand hreach hfail hsends
  refine ⟨hmaps, ?_⟩
  intro r hr
  have hone := hplaces r hr
  have hnone : inHandCount s.inHand r = 0 := by simp [inHandCount, hempty]
  have hanswers := (answered_of_reachable hreach).log r
  exact ⟨by omega, hanswers⟩

/-- A call is registered, `fail()` sweeps it and answers it, and the send returns late: it
finds the peer stopped and its handler gone. -/
def sweptRun : List Action :=
  [.register ⟨.call, 1⟩, .failEnter (bstr "gone"), .failSweep, .failAnswer, .failClose,
    .loadStopped ⟨.call, 1⟩, .failNotify, .failError, .reclaim ⟨.call, 1⟩]

theorem pendingCalls_exactly_once_swept :
    ∃ s, (sectionPeer true).Reachable s ∧ s.fail = .returned ∧ s.SendsReturned ∧
      (s.send ⟨.call, 1⟩).handlers = 1 ∧ (∀ k, s.pending k = []) ∧ Settled s ⟨.call, 1⟩ := by
  let final := (TransitionSystem.exec (nextSection true) {} sweptRun).getD {}
  have hexec : TransitionSystem.exec (nextSection true) {} sweptRun = some final := rfl
  have hreach : (sectionPeer true).Reachable final := .of_exec (.init rfl) hexec
  have hsends : final.SendsReturned := by
    intro r
    by_cases hr : r = ⟨.call, 1⟩
    · rw [hr]
      exact .inr (.inr rfl)
    · left
      have hsend : final.send = Function.update (Function.update (Function.update
          (fun _ => .idle) ⟨.call, 1⟩ .registered) ⟨.call, 1⟩ .reclaiming) ⟨.call, 1⟩ .returned :=
        rfl
      simp [hsend, hr]
  have hdone := (pendingCalls_exactly_once true final hreach).2.2 rfl hsends
  exact ⟨final, hreach, rfl, hsends, rfl, hdone.1, hdone.2 _ rfl⟩

end LogosProtocol.PendingCalls
