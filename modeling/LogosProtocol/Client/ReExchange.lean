import LogosProtocol.Client.Rejections
import LogosProtocol.Lib.Errands
import LogosProtocol.Lib.History

/-!
# One re-exchange for a call

A call that its target rejects is made again with another token, once.  Both paths are refined
here to a machine that knows of one call alone: it waits for a token, is sent, and may be rejected;
each stage carries the retries that are left.  What happens to any one call, with any others in
between, is a course of that machine.

## Main definitions

* `CallEvent`, `Stage`, `oneCall` — the machine of one call.
* `holdings` — where the calls of a client are, and at which stage.
* `happenings` — what happens to the calls in a run.

## Main results

* `reexchange_bounded` — how often a call is sent and made again, and what it is told.
-/

namespace LogosProtocol.ApiClient

open TransitionSystem (Run)
open Dict (values)

/-! ## One call -/

/-- What can happen to a call. -/
inductive CallEvent
  | dispatched
  /-- The consumer hands over what the target has answered. -/
  | received (value : QVariant)
  /-- The readiness gate says that the target cannot be acquired. -/
  | refused
  | rejected
  /-- The rejected call asks, or waits, for another token. -/
  | reexchanged
  | answered (value : QVariant) (err : Option CallError)

namespace CallEvent

def isDispatched : CallEvent → Bool
  | .dispatched => true
  | _ => false

def isRejected : CallEvent → Bool
  | .rejected => true
  | _ => false

def isReexchanged : CallEvent → Bool
  | .reexchanged => true
  | _ => false

def isAnswered : CallEvent → Bool
  | .answered .. => true
  | _ => false

/-- The target has answered with the sentinel. -/
def Unauthorized : CallEvent → Prop
  | .received value => isUnauthorizedSentinel value = true
  | _ => False

/-- What decides what the caller is told. -/
def Outcome : CallEvent → Prop
  | .received _ | .refused => True
  | _ => False

end CallEvent

/-- The sentinel was received, and no other outcome has followed it. -/
def Unrecovered (history : List CallEvent) : Prop :=
  Since CallEvent.Unauthorized CallEvent.Outcome history

/-- The caller is not given the sentinel, and is told `unauthorized` exactly when the sentinel was
the last outcome. -/
def Truthful (before : List CallEvent) : CallEvent → Prop
  | .answered value err => isUnauthorizedSentinel value = false ∧
      ∀ e ∈ err, e.code = bstr "unauthorized" ↔ Unrecovered before
  | _ => True

/-- Where a call stands, and how many retries it has left. -/
inductive Stage
  /-- For a token. -/
  | waiting (retries : ℕ)
  | sent (retries : ℕ)
  /-- Rejected, and about to be made again. -/
  | again (retries : ℕ)
  /-- Rejected, and waiting for another token. -/
  | reminting

/-- What one call may do. -/
inductive Stage.Moves : Stage → List CallEvent → Option Stage → Prop
  | wait (retries : ℕ) : Moves (.waiting retries) [] (some (.waiting retries))
  | dispatch (retries : ℕ) : Moves (.waiting retries) [.dispatched] (some (.sent retries))
  | refuse (retries : ℕ) {err : Option CallError} (herr : ∀ e ∈ err, e.code ≠ bstr "unauthorized") :
    Moves (.waiting retries) [.refused, .answered .invalid err] none
  | deliver (retries : ℕ) {value : QVariant} {err : Option CallError}
      (hvalue : isUnauthorizedSentinel value = false)
      (herr : ∀ e ∈ err, e.code ≠ bstr "unauthorized") :
    Moves (.sent retries) [.received value, .answered value err] none
  | giveUp (retries : ℕ) {value : QVariant} {err : Option CallError}
      (hvalue : isUnauthorizedSentinel value = true)
      (herr : ∀ e ∈ err, e.code = bstr "unauthorized") :
    Moves (.sent retries) [.received value, .answered .invalid err] none
  | retry (retries : ℕ) {value : QVariant} (hvalue : isUnauthorizedSentinel value = true) :
    Moves (.sent (retries + 1)) [.received value, .rejected] (some (.again retries))
  | remint {value : QVariant} (hvalue : isUnauthorizedSentinel value = true) :
    Moves (.sent 1) [.received value, .rejected, .reexchanged] (some .reminting)
  | rejoin (retries : ℕ) : Moves (.again retries) [.reexchanged] (some (.waiting retries))
  | redispatch (retries : ℕ) : Moves (.again retries) [.dispatched] (some (.sent retries))
  | reminted : Moves .reminting [.dispatched] (some (.sent 0))
  | unminted {err : Option CallError} (herr : ∀ e ∈ err, e.code = bstr "unauthorized") :
    Moves .reminting [.answered .invalid err] none

/-- A call has one retry when it is made. -/
def oneCall : Errand Stage CallEvent where
  begins es stage := es = [] ∧ stage = .waiting 1 ∨ es = [.dispatched] ∧ stage = .sent 1
  moves := Stage.Moves

section courses
variable {history : List CallEvent} {stage : Option Stage}

/-- How often a call may still be sent. -/
def dispatchesLeft : Option Stage → ℕ
  | some (.waiting retries) | some (.again retries) => retries + 1
  | some (.sent retries) => retries
  | some .reminting => 1
  | none => 0

theorem dispatched_le (h : oneCall.Course history stage) :
    history.countP CallEvent.isDispatched ≤ 2 := by
  have hbudget := h.budget CallEvent.isDispatched dispatchesLeft (k := 2) ?_ ?_
  · omega
  · rintro es st (⟨rfl, rfl⟩ | ⟨rfl, rfl⟩)
    · decide
    · decide
  · intro st es next hmove
    cases hmove <;> simp +arith [List.countP_cons, CallEvent.isDispatched, dispatchesLeft]

/-- How often it may still be rejected. -/
def rejectionsLeft : Option Stage → ℕ
  | some (.waiting retries) | some (.again retries) | some (.sent retries) => retries
  | some .reminting | none => 0

theorem rejected_le (h : oneCall.Course history stage) :
    history.countP CallEvent.isRejected ≤ 1 := by
  have hbudget := h.budget CallEvent.isRejected rejectionsLeft (k := 1) ?_ ?_
  · omega
  · rintro es st (⟨rfl, rfl⟩ | ⟨rfl, rfl⟩)
    · decide
    · decide
  · intro st es next hmove
    cases hmove <;> simp +arith [List.countP_cons, CallEvent.isRejected, rejectionsLeft]

/-- How often it may still ask for another token. -/
def reexchangesLeft : Option Stage → ℕ
  | some (.waiting retries) | some (.sent retries) => retries
  | some (.again retries) => retries + 1
  | some .reminting | none => 0

theorem reexchanged_le (h : oneCall.Course history stage) :
    history.countP CallEvent.isReexchanged ≤ 1 := by
  have hbudget := h.budget CallEvent.isReexchanged reexchangesLeft (k := 1) ?_ ?_
  · omega
  · rintro es st (⟨rfl, rfl⟩ | ⟨rfl, rfl⟩)
    · decide
    · decide
  · intro st es next hmove
    cases hmove <;> simp +arith [List.countP_cons, CallEvent.isReexchanged, reexchangesLeft]

/-- A call is answered when it is over, and once. -/
theorem answered_eq (h : oneCall.Course history stage) :
    history.countP CallEvent.isAnswered + (stage.map fun _ => 1).getD 0 = 1 := by
  refine h.balance CallEvent.isAnswered (fun stage => (stage.map fun _ => 1).getD 0) ?_ ?_
  · rintro es st (⟨rfl, rfl⟩ | ⟨rfl, rfl⟩)
    · decide
    · decide
  · intro st es next hmove
    cases hmove <;> simp [CallEvent.isAnswered]

theorem unrecovered_received (past : List CallEvent) (value : QVariant) :
    Unrecovered (past ++ [.received value]) ↔ isUnauthorizedSentinel value = true := by
  simp [Unrecovered, Since.concat_iff, CallEvent.Unauthorized, CallEvent.Outcome]

theorem unrecovered_refused (past : List CallEvent) : ¬ Unrecovered (past ++ [.refused]) := by
  simp [Unrecovered, Since.concat_iff, CallEvent.Unauthorized, CallEvent.Outcome]

/-- What is no outcome changes nothing. -/
theorem Unrecovered.keep {past : List CallEvent} (h : Unrecovered past) {e : CallEvent}
    (he : ¬ e.Outcome) : Unrecovered (past ++ [e]) :=
  (Since.concat_iff past e).mpr (.inr ⟨h, he⟩)

/-- A call that is told nothing is told nothing wrong. -/
theorem justified_quiet {past : List CallEvent} (h : Justified Truthful past) {e : CallEvent}
    (he : e.isAnswered = false) : Justified Truthful (past ++ [e]) := by
  refine (Justified.concat_iff e).mpr ⟨h, ?_⟩
  cases e with
  | answered => cases he
  | dispatched | received | refused | rejected | reexchanged => trivial

/-- A call is told what the last outcome was. -/
theorem justified_answered {past : List CallEvent} (h : Justified Truthful past) {value : QVariant}
    {err : Option CallError} (hvalue : isUnauthorizedSentinel value = false)
    (herr : ∀ e ∈ err, e.code = bstr "unauthorized" ↔ Unrecovered past) :
    Justified Truthful (past ++ [.answered value err]) :=
  (Justified.concat_iff _).mpr ⟨h, hvalue, herr⟩

/-- **A call is told the truth.**  While it waits for another token the sentinel still stands. -/
theorem justified_of_course (h : oneCall.Course history stage) :
    Justified Truthful history ∧ (stage = some .reminting → Unrecovered history) := by
  induction h with
  | begins h =>
    rcases h with ⟨rfl, rfl⟩ | ⟨rfl, rfl⟩
    · exact ⟨.nil, nofun⟩
    · exact ⟨justified_quiet .nil rfl, nofun⟩
  | @moves past es st next _ hmove ih =>
    obtain ⟨hpast, hreminting⟩ := ih
    have hmove : Stage.Moves st es next := hmove
    cases hmove with
    | wait => exact ⟨by rwa [List.append_nil], nofun⟩
    | dispatch | rejoin | redispatch | reminted => exact ⟨justified_quiet hpast rfl, nofun⟩
    | refuse _ herr =>
      refine ⟨?_, nofun⟩
      rw [List.append_cons]
      refine justified_answered (justified_quiet hpast rfl) rfl fun e he => ?_
      exact iff_of_false (herr e he) (unrecovered_refused past)
    | @deliver _ value err hvalue herr =>
      refine ⟨?_, nofun⟩
      rw [List.append_cons]
      refine justified_answered (justified_quiet hpast rfl) hvalue fun e he => ?_
      rw [unrecovered_received, hvalue]
      exact iff_of_false (herr e he) Bool.false_ne_true
    | @giveUp _ value err hvalue herr =>
      refine ⟨?_, nofun⟩
      rw [List.append_cons]
      refine justified_answered (justified_quiet hpast rfl) rfl fun e he => ?_
      exact iff_of_true (herr e he) ((unrecovered_received past value).mpr hvalue)
    | retry =>
      refine ⟨?_, nofun⟩
      rw [List.append_cons]
      exact justified_quiet (justified_quiet hpast rfl) rfl
    | @remint value hvalue =>
      rw [List.append_cons, List.append_cons]
      refine ⟨justified_quiet (justified_quiet (justified_quiet hpast rfl) rfl) rfl, fun _ => ?_⟩
      have hreceived := (unrecovered_received past value).mpr hvalue
      exact (hreceived.keep (e := .rejected) id).keep (e := .reexchanged) id
    | unminted herr =>
      refine ⟨justified_answered hpast rfl fun e he => ?_, nofun⟩
      exact iff_of_true (herr e he) (hreminting rfl)

end courses

/-! ## Where the calls are -/

/-- The call that an instruction is about, and where it stands. -/
def Instr.holding : Instr → Option (ℕ × Stage)
  | .invoke call => some (call.number, .again call.retriesLeft)
  | .run k _ _ => some (k.call.number, .waiting k.call.retriesLeft)
  | .ensureTarget call _ => some (call.number, .waiting 1)
  | .mint call _ retried => some (call.number, if retried then .reminting else .waiting 1)
  | .callTarget call _ retried => some (call.number, .sent (if retried then 0 else 1))
  | .callback | .transport | .registering _ => none

def Continuation.holding (k : Continuation) : ℕ × Stage :=
  (k.call.number, .waiting k.call.retriesLeft)

def Dispatch.holding (d : Dispatch) : ℕ × Stage := (d.call.number, .sent d.call.retriesLeft)

/-- The calls that are queued, and those that the consumer has. -/
def Client.held (c : Client) : List (ℕ × Stage) :=
  (values c.pendingHandshakes).flatten.map Continuation.holding ++
    c.dispatches.map Dispatch.holding

/-- The calls of a client, with what is left to do. -/
def holdings (c : Client) (k : List Instr) : List (ℕ × Stage) :=
  k.filterMap Instr.holding ++ c.held

/-- What the log says of the calls. -/
def Event.happening : Event → Option (ℕ × CallEvent)
  | .dispatched n _ _ => some (n, .dispatched)
  | .rejected n _ _ => some (n, .rejected)
  | .answered n value err => some (n, .answered value err)
  | .queued _ _ | .drained _ _ _ _ _ | .ran _ _ _ | .exchanged _ => none

/-- A part of the code adds to the log, and to the calls that a client has. -/
structure Adds (c : Client) (es : List (ℕ × CallEvent)) (hs : List (ℕ × Stage)) (c' : Client)
    (l : List Instr) : Prop where
  log : ∃ more, c'.log = c.log ++ more ∧ more.filterMap Event.happening = es
  next : c.nextNumber ≤ c'.nextNumber
  held : (holdings c' l).Perm (hs ++ c.held)

namespace Adds
variable {c c₁ c' : Client} {es es' : List (ℕ × CallEvent)} {hs hs' : List (ℕ × Stage)}
  {l : List Instr}

theorem of_same (hlog : c'.log = c.log) (hnext : c.nextNumber ≤ c'.nextNumber)
    (hhandshakes : c'.pendingHandshakes = c.pendingHandshakes)
    (hdispatches : c'.dispatches = c.dispatches) (hl : l.filterMap Instr.holding = []) :
    Adds c [] [] c' l where
  log := ⟨[], by simp [hlog], rfl⟩
  next := hnext
  held := by simp [holdings, Client.held, hl, hhandshakes, hdispatches]

theorem trans (h : Adds c es hs c₁ []) (h' : Adds c₁ es' hs' c' l) :
    Adds c (es ++ es') (hs' ++ hs) c' l where
  log := by
    obtain ⟨more, hlog, rfl⟩ := h.log
    obtain ⟨more', hlog', rfl⟩ := h'.log
    exact ⟨more ++ more', by rw [hlog', hlog, List.append_assoc], List.filterMap_append ..⟩
  next := h.next.trans h'.next
  held := by
    rw [List.append_assoc]
    exact h'.held.trans (h.held.append_left hs')

/-- Something was done before that adds nothing. -/
theorem after (h : Adds c [] [] c₁ []) (h' : Adds c₁ es hs c' l) : Adds c es hs c' l := by
  simpa using h.trans h'

/-- Something is done then that adds nothing. -/
theorem andThen (h : Adds c es hs c₁ []) (h' : Adds c₁ [] [] c' l) : Adds c es hs c' l := by
  simpa using h.trans h'

theorem emit (c : Client) (e : Event) : Adds c e.happening.toList [] (c.emit e) [] where
  log := ⟨[e], rfl, by cases e <;> rfl⟩
  next := le_rfl
  held := List.Perm.refl _

/-- What is seen of it in the log. -/
theorem seen (h : Adds c es hs c' l) :
    (c'.log.drop c.log.length).filterMap Event.happening = es := by
  obtain ⟨more, hlog, rfl⟩ := h.log
  rw [hlog, List.drop_left]

end Adds

/-! ## What the code adds -/

section adds
variable (s : Setup) (c : Client) (name : QString) {r : Client × List Instr}

theorem adds_dispatch (call : AsyncCall) (token : QString) :
    Adds c [(call.number, .dispatched)] [(call.number, .sent call.retriesLeft)]
      (c.dispatch call token).1 (c.dispatch call token).2 where
  log := ⟨_, rfl, rfl⟩
  next := Nat.le_succ _
  held := by
    simp only [Client.dispatch, holdings, Client.held, Client.emit, List.map_append,
      ← List.append_assoc]
    exact List.perm_append_singleton _ _

theorem adds_enqueue (call : AsyncCall) :
    Adds c [] [(call.number, .waiting call.retriesLeft)]
      (c.enqueue name ⟨c.nextNumber, call⟩) [] where
  log := ⟨_, rfl, rfl⟩
  next := Nat.le_succ _
  held := by
    have hpush := Dict.flatten_values_push (d := c.pendingHandshakes) (k := name)
      (⟨c.nextNumber, call⟩ : Continuation)
    exact (hpush.map Continuation.holding).append_right _

theorem adds_begin (timeout : Int) : Adds c [] [] (c.beginReadinessGatedHandshake name timeout).1
    (c.beginReadinessGatedHandshake name timeout).2 :=
  .of_same rfl (Nat.le_succ _) rfl rfl rfl

/-- A call is queued, or is sent with the token that is there. -/
theorem adds_invoke (call : AsyncCall) :
    if c.getToken call.objectName = [] ∧ s.eligible call.objectName then
      Adds c [] [(call.number, .waiting call.retriesLeft)] (c.invokeRemoteMethodAsyncImpl s call).1
        (c.invokeRemoteMethodAsyncImpl s call).2
    else
      Adds c [(call.number, .dispatched)] [(call.number, .sent call.retriesLeft)]
        (c.invokeRemoteMethodAsyncImpl s call).1 (c.invokeRemoteMethodAsyncImpl s call).2 := by
  have henqueue := adds_enqueue c call.objectName call
  split_ifs with htoken
  · have hqueued : c.invokeRemoteMethodAsyncImpl s call =
        if 1 < (c.queue call.objectName ++ [(⟨c.nextNumber, call⟩ : Continuation)]).length then
          (c.enqueue call.objectName ⟨c.nextNumber, call⟩, [])
        else (c.enqueue call.objectName ⟨c.nextNumber, call⟩).beginReadinessGatedHandshake
          call.objectName call.request.timeout := if_pos htoken
    rw [hqueued]
    split_ifs
    · exact henqueue
    · exact henqueue.andThen (adds_begin _ call.objectName call.request.timeout)
  · have hsent : c.invokeRemoteMethodAsyncImpl s call =
        c.dispatch call (c.getToken call.objectName) := if_neg htoken
    rw [hsent]
    exact adds_dispatch c call _

theorem adds_setWait (n : ℕ) (f : Readiness → Readiness) : Adds c [] [] (c.setWait n f) [] :=
  .of_same rfl le_rfl rfl rfl rfl

theorem adds_finishReadiness : Adds c [] [] (c.finishReadiness name) [] := by
  unfold Client.finishReadiness
  split
  · exact .of_same rfl le_rfl rfl rfl rfl
  · exact .of_same rfl le_rfl rfl rfl rfl

/-- What a queue has goes to the loop that drains it. -/
theorem adds_drain (edge : Edge) (token : QString) (reachable : Bool) :
    Adds c [] [] (c.drainPendingHandshakes name edge token reachable).1
      (c.drainPendingHandshakes name edge token reachable).2 := by
  unfold Client.drainPendingHandshakes
  split
  · exact .of_same rfl le_rfl rfl rfl rfl
  · rename_i calls hlookup
    refine ⟨⟨_, rfl, rfl⟩, le_rfl, ?_⟩
    have hall := ((Dict.values_erase hlookup).flatten.map Continuation.holding).append_right
      (c.dispatches.map Dispatch.holding)
    have hloop : (calls.map fun k => Instr.run k token reachable).filterMap Instr.holding =
        calls.map Continuation.holding := by
      simp [List.filterMap_map, Function.comp_def, Instr.holding, Continuation.holding]
    simp only [holdings, hloop, Client.held, Client.emit]
    rw [List.flatten_cons, List.map_append, List.append_assoc] at hall
    exact hall.symm

theorem adds_exchange (timeout : Int) : Adds c [] [] (c.startCapabilityHandshake name timeout).1
    (c.startCapabilityHandshake name timeout).2 where
  log := ⟨_, rfl, rfl⟩
  next := Nat.le_succ _
  held := List.Perm.refl _

theorem adds_registered {n id : ℕ} (h : c.registered n id = some r) : Adds c [] [] r.1 r.2 := by
  obtain ⟨w, -, rfl⟩ := Option.map_eq_some_iff.mp h
  split_ifs
  · exact .of_same rfl le_rfl rfl rfl rfl
  · refine .after ?_ (adds_drain _ w.objectName .refused [] false)
    exact .of_same rfl le_rfl rfl rfl rfl
  · exact adds_setWait c n _

theorem adds_ready {n : ℕ} {b : Bool} (h : c.ready n b = some r) : Adds c [] [] r.1 r.2 := by
  obtain ⟨w, -, rfl⟩ := Option.map_eq_some_iff.mp h
  have hfinish := (adds_setWait c n fun w => { w with done := true }).after
    (adds_finishReadiness _ w.objectName)
  split_ifs
  · exact .of_same rfl le_rfl rfl rfl rfl
  · exact hfinish.after (adds_exchange _ w.objectName w.timeout)
  · exact hfinish.after (adds_drain _ w.objectName _ _ _)

theorem adds_deadline {n : ℕ} (h : c.deadline n = some r) : Adds c [] [] r.1 r.2 := by
  obtain ⟨w, -, h⟩ := Option.bind_eq_some_iff.mp h
  have hstop := adds_setWait c n fun w => { w with timer := none }
  split_ifs at h
  · cases h
    exact hstop
  · cases h
    exact hstop.after ((adds_setWait _ n fun w => { w with done := true }).after
      ((adds_finishReadiness _ w.objectName).after (adds_drain _ w.objectName _ _ _)))

theorem adds_reply {n : ℕ} {token : QString} (h : c.reply n token = some r) :
    Adds c [] [] r.1 r.2 := by
  obtain ⟨e, -, rfl⟩ := Option.map_eq_some_iff.mp h
  refine .after ?_ (adds_drain _ e.objectName .minted token true)
  exact .of_same rfl le_rfl rfl rfl rfl

end adds

/-! ## What becomes of a call -/

/-- The errors that a consumer hands over are made by the constructors that all transports share. -/
inductive Canonical : CallError → Prop
  | ok : Canonical {}
  | timeout (origin method : Bytes) (timeoutMs : Int) :
    Canonical (callErrorTimeout origin method timeoutMs)
  | objectUnavailable (origin detail : Bytes) :
    Canonical (callErrorObjectUnavailable origin detail)
  | transport (origin detail : Bytes) : Canonical (callErrorTransport origin detail)
  | callFailed (origin detail : Bytes) : Canonical (callErrorCallFailed origin detail)

theorem Canonical.code_ne {err : CallError} (h : Canonical err) :
    err.code ≠ bstr "unauthorized" := by
  cases h with
  | ok => exact ne_of_beq_false rfl
  | timeout => exact ne_of_beq_false rfl
  | objectUnavailable => exact ne_of_beq_false rfl
  | transport => exact ne_of_beq_false rfl
  | callFailed => exact ne_of_beq_false rfl

section outcomes
variable (s : Setup) (c : Client) {err : CallError}

theorem adds_answer (call : AsyncCall) (value : QVariant) (err : CallError) :
    Adds c [(call.number, .answered value (some err))] [] (c.answer call value err).1
      (c.answer call value err).2 where
  log := ⟨_, rfl, rfl⟩
  next := le_rfl
  held := List.Perm.refl _

/-- A call that was sent is made again, or is answered. -/
theorem adds_onResult (call : AsyncCall) (sent : QString) (value : QVariant)
    (herr : err.code ≠ bstr "unauthorized") :
    ∃ es next, Stage.Moves (.sent call.retriesLeft) (.received value :: es) next ∧
      Adds c (es.map (call.number, ·)) (next.map (call.number, ·)).toList
        (c.onResult s call sent value err).1 (c.onResult s call sent value err).2 := by
  unfold Client.onResult
  split_ifs with hretry hvalue
  · obtain ⟨retries, hretries⟩ := Nat.exists_eq_succ_of_ne_zero hretry.1.ne'
    refine ⟨[.rejected], some (.again retries), ?_, ⟨_, rfl, rfl⟩, le_rfl, ?_⟩
    · rw [hretries]
      exact .retry retries hretry.2.2
    · rw [hretries]
      exact List.Perm.refl _
  · exact ⟨_, none, .giveUp _ hvalue (by rintro e ⟨⟩; rfl), adds_answer c call _ _⟩
  · exact ⟨_, none, .deliver _ (by simpa using hvalue) (by rintro e ⟨⟩; exact herr),
      adds_answer c call _ _⟩

theorem adds_returns (call : SyncCall) (value : QVariant) (err : CallError) :
    Adds c [(call.number, .answered value (if call.hasErr then some err else none))] []
      (c.returns call value err).1 (c.returns call value err).2 where
  log := ⟨_, rfl, rfl⟩
  next := le_rfl
  held := List.Perm.refl _

theorem adds_callTarget (call : SyncCall) (token : QString) (retried : Bool) :
    Adds c [(call.number, .dispatched)] [(call.number, .sent (if retried then 0 else 1))]
      (c.callTarget call token retried).1 (c.callTarget call token retried).2 where
  log := ⟨_, rfl, rfl⟩
  next := le_rfl
  held := List.Perm.refl _

theorem adds_mintAndCacheToken (call : SyncCall) (timeout : Int) (retried : Bool) :
    Adds c [] [(call.number, if retried then .reminting else .waiting 1)]
      (c.mintAndCacheToken call timeout retried).1
      (c.mintAndCacheToken call timeout retried).2 where
  log := ⟨_, rfl, rfl⟩
  next := le_rfl
  held := List.Perm.refl _

/-- A synchronous call that is rejected asks for another token at once. -/
theorem adds_remint (store : TokenManager) (call : SyncCall) (sent : QString) (timeout : Int) :
    Adds c [(call.number, .rejected)] [(call.number, .reminting)]
      (({ c with store := store }.emit (.rejected call.number call.objectName sent)
        ).mintAndCacheToken call timeout true).1
      (({ c with store := store }.emit (.rejected call.number call.objectName sent)
        ).mintAndCacheToken call timeout true).2 where
  log := ⟨[.rejected call.number call.objectName sent, .exchanged call.objectName],
    List.append_assoc .., rfl⟩
  next := le_rfl
  held := List.Perm.refl _

/-- A synchronous call waits for its target, or is sent with the token that is there. -/
theorem adds_invokeRemoteMethod (call : SyncCall) : ∃ es stage, oneCall.begins es stage ∧
    Adds c (es.map (call.number, ·)) [(call.number, stage)] (c.invokeRemoteMethod s call).1
      (c.invokeRemoteMethod s call).2 := by
  unfold Client.invokeRemoteMethod
  simp only
  split_ifs
  · exact ⟨[], _, .inl ⟨rfl, rfl⟩, ⟨[], by simp, rfl⟩, le_rfl, List.Perm.refl _⟩
  · exact ⟨_, _, .inr ⟨rfl, rfl⟩, adds_callTarget c call _ false⟩

end outcomes

/-- A synchronous call is told of an error if it was given somewhere to put it. -/
theorem told_eq {b : Bool} {err e : CallError}
    (h : e ∈ (if b then some err else none : Option CallError)) : e = err := by
  cases b with
  | true => exact (Option.some.inj h).symm
  | false => cases h

/-- What an instruction makes of the call that it is about. -/
inductive Advances : Option (ℕ × Stage) → List (ℕ × CallEvent) → List (ℕ × Stage) → Prop
  | idle : Advances none [] []
  | moves (n : ℕ) {stage : Stage} {es : List CallEvent} {next : Option Stage}
      (hmove : stage.Moves es next) :
    Advances (some (n, stage)) (es.map (n, ·)) (next.map (n, ·)).toList

/-- What the environment hands over to an instruction for its call. -/
def Instr.receipt (o : Oracle) : Instr → Option (ℕ × CallEvent)
  | .callTarget call _ _ => some (call.number, .received o.value)
  | .ensureTarget call _ => if o.found then none else some (call.number, .refused)
  | .run k _ reachable => if reachable then none else some (k.call.number, .refused)
  | _ => none

/-- A call that was rejected goes for another token: a synchronous one at once, an asynchronous
one if there is no token when it is made again. -/
def Instr.reexchange (s : Setup) (c : Client) (o : Oracle) : Instr → Option (ℕ × CallEvent)
  | .callTarget call _ retried =>
    if ¬ retried ∧ s.eligible call.objectName ∧ isUnauthorizedSentinel o.value then
      some (call.number, .reexchanged)
    else none
  | .invoke call =>
    if (c.pass o).getToken call.objectName = [] ∧ s.eligible call.objectName then
      some (call.number, .reexchanged)
    else none
  | _ => none

section advances
variable {s : Setup} {c : Client} {o : Oracle} {r : Client × List Instr}

/-- **One instruction moves one call.** -/
theorem advances_exec {i : Instr} (herr : Canonical o.err) (hexec : exec s c i o = some r) :
    ∃ es hs, Adds (c.pass o) es hs r.1 r.2 ∧
      Advances i.holding ((i.receipt o).toList ++ es ++ (i.reexchange s c o).toList) hs := by
  cases i with
  | callback =>
    cases hexec
    exact ⟨[], [], .of_same rfl le_rfl rfl rfl rfl, .idle⟩
  | transport =>
    cases hexec
    exact ⟨[], [], .of_same rfl le_rfl rfl rfl rfl, .idle⟩
  | registering n => exact ⟨[], [], adds_registered _ hexec, .idle⟩
  | invoke call =>
    cases hexec
    have hinvoke := adds_invoke s (c.pass o) call
    simp only [Instr.holding, Instr.receipt, Instr.reexchange]
    split_ifs at hinvoke ⊢
    · exact ⟨_, _, hinvoke, .moves call.number (.rejoin call.retriesLeft)⟩
    · exact ⟨_, _, hinvoke, .moves call.number (.redispatch call.retriesLeft)⟩
  | run k token reachable =>
    cases hexec
    have hran := Adds.emit (c.pass o) (.ran k.number token reachable)
    cases reachable with
    | true =>
      exact ⟨_, _, hran.after (adds_dispatch _ k.call token),
        .moves k.call.number (.dispatch k.call.retriesLeft)⟩
    | false =>
      have hrefused : (c.pass o).runContinuation s k token false =
          ((c.pass o).emit (.ran k.number token false)).answer k.call .invalid
            (errObjectUnavailable k.call.objectName) := by
        simp [Client.runContinuation, Client.onResult]
      rw [hrefused]
      refine ⟨_, _, hran.after (adds_answer _ k.call .invalid _),
        .moves k.call.number (.refuse k.call.retriesLeft ?_)⟩
      rintro e ⟨⟩
      exact ne_of_beq_false rfl
  | ensureTarget call start =>
    cases hexec
    by_cases hfound : o.found = true
    · by_cases htoken : (c.pass o).getToken call.objectName = []
      · simp only [Instr.receipt, Client.ensured, hfound, htoken, not_true_eq_false, if_true,
          if_false]
        exact ⟨_, _, adds_mintAndCacheToken _ call _ false, .moves call.number (.wait 1)⟩
      · simp only [Instr.receipt, Client.ensured, hfound, htoken, not_true_eq_false, if_true,
          if_false]
        exact ⟨_, _, adds_callTarget _ call _ false, .moves call.number (.dispatch 1)⟩
    · rw [Bool.not_eq_true] at hfound
      simp only [Instr.receipt, Client.ensured, hfound, Bool.false_eq_true, not_false_eq_true,
        if_true, if_false]
      refine ⟨_, _, adds_returns _ call .invalid _, .moves call.number (.refuse 1 ?_)⟩
      intro e he
      rw [told_eq he]
      exact ne_of_beq_false rfl
  | mint call timeout retried =>
    cases hexec
    have hsaved : Adds (c.pass o) [] [] (if o.token = [] then c.pass o
        else { c.pass o with store := (c.pass o).store.saveToken call.objectName o.token }) [] := by
      split_ifs
      · exact .of_same rfl le_rfl rfl rfl rfl
      · exact .of_same rfl le_rfl rfl rfl rfl
    by_cases hsent : ¬ retried ∨ o.token ≠ []
    · simp only [Client.minted, if_pos hsent]
      refine ⟨_, _, hsaved.after (adds_callTarget _ call o.token retried), ?_⟩
      cases retried with
      | true => exact .moves call.number .reminted
      | false => exact .moves call.number (.dispatch 1)
    · simp only [Client.minted, if_neg hsent]
      obtain rfl : retried = true := by simpa using not_or.mp hsent |>.1
      refine ⟨_, _, hsaved.after (adds_returns _ call .invalid _),
        .moves call.number (.unminted ?_)⟩
      intro e he
      rw [told_eq he]
      rfl
  | callTarget call token retried =>
    cases hexec
    have hreturned := adds_returns (c.pass o) call
    simp only [Instr.holding, Instr.receipt, Instr.reexchange, Client.returned]
    by_cases hretry : ¬ retried ∧ s.eligible call.objectName ∧ isUnauthorizedSentinel o.value
    · obtain rfl : retried = false := by simpa using hretry.1
      simp only [if_pos hretry]
      exact ⟨_, _, adds_remint _ _ call token _, .moves call.number (.remint hretry.2.2)⟩
    · simp only [if_neg hretry]
      by_cases hvalue : isUnauthorizedSentinel o.value = true
      · simp only [if_pos hvalue]
        refine ⟨_, _, adds_returns _ call .invalid _, .moves call.number (.giveUp _ hvalue ?_)⟩
        intro e he
        rw [told_eq he]
        rfl
      · simp only [if_neg hvalue]
        refine ⟨_, _, adds_returns _ call o.value _, .moves call.number
          (.deliver _ (by simpa using hvalue) ?_)⟩
        intro e he
        rw [told_eq he]
        exact herr.code_ne

end advances

/-! ## What happens in a run -/

/-- What the environment hands over to a call. -/
def receipt (c : Program.Config Client Instr) :
    Program.Action Op Oracle → Option (ℕ × CallEvent)
  | .call (.result n value _) _ =>
    (c.data.dispatches.find? fun d => d.number = n).map fun d => (d.call.number, .received value)
  | .call _ _ => none
  | .step o => c.stack.head?.bind (Instr.receipt o)

/-- The call that goes for another token. -/
def reexchange (s : Setup) (c : Program.Config Client Instr) :
    Program.Action Op Oracle → Option (ℕ × CallEvent)
  | .call _ _ => none
  | .step o => c.stack.head?.bind (Instr.reexchange s c.data o)

/-- What happens to the calls in a step: what they are handed, what the log says, and whether one
goes for another token. -/
def seen (s : Setup) (c : Program.Config Client Instr) (a : Program.Action Op Oracle)
    (c' : Program.Config Client Instr) : List (ℕ × CallEvent) :=
  (receipt c a).toList ++ (c'.data.log.drop c.data.log.length).filterMap Event.happening ++
    (reexchange s c a).toList

/-- What happens to the calls in a run. -/
def happenings (s : Setup) (store : TokenManager) (as : List (Program.Action Op Oracle)) :
    List (ℕ × CallEvent) :=
  TransitionSystem.seenAlong (program s store).next (seen s) ⟨{ store := store }, []⟩ as

/-- The error that comes with an action is one that a consumer makes. -/
def FromConsumer : Program.Action Op Oracle → Prop
  | .call (.result _ _ err) _ => Canonical err
  | .call _ _ => True
  | .step o => Canonical o.err

section runs
variable {s : Setup} {store : TokenManager} {c c' : Program.Config Client Instr}
  {a : Program.Action Op Oracle} {log : List (ℕ × CallEvent)}

theorem Adds.frame {c c' : Client} {es : List (ℕ × CallEvent)} {hs : List (ℕ × Stage)}
    {l : List Instr} (h : Adds c es hs c' l) (k : List Instr) :
    (holdings c' (l ++ k)).Perm (hs ++ holdings c k) := by
  have hleft : (holdings c' (l ++ k)).Perm (k.filterMap Instr.holding ++ holdings c' l) := by
    simp only [holdings, List.filterMap_append, ← List.append_assoc]
    exact List.perm_append_comm.append_right _
  have hright : (k.filterMap Instr.holding ++ (hs ++ c.held)).Perm (hs ++ holdings c k) := by
    simp only [holdings, ← List.append_assoc]
    exact List.perm_append_comm.append_right _
  exact hleft.trans ((h.held.append_left _).trans hright)

/-- A call that is held moves on. -/
theorem errands_advances {next : ℕ} {p : Option (ℕ × Stage)} {es : List (ℕ × CallEvent)}
    {hs rest : List (ℕ × Stage)} (h : Errands oneCall next (p.toList ++ rest) log)
    (hadvances : Advances p es hs) : Errands oneCall next (hs ++ rest) (log ++ es) := by
  cases hadvances with
  | idle => simpa using h
  | moves n hmove => exact h.move hmove

/-- A call is taken on. -/
theorem errands_begins {o : Oracle} {r : Client × List Instr} {es : List CallEvent} {stage : Stage}
    (h : Errands oneCall c.data.nextNumber (holdings c.data c.stack) log)
    (hbegins : oneCall.begins es stage)
    (hadds : Adds { c.data.pass o with nextNumber := c.data.nextNumber + 1 }
      (es.map (c.data.nextNumber, ·)) [(c.data.nextNumber, stage)] r.1 r.2) :
    Errands oneCall r.1.nextNumber (holdings r.1 (r.2 ++ c.stack))
      (log ++ (r.1.log.drop c.data.log.length).filterMap Event.happening) := by
  have hbegun := h.begin le_rfl (Nat.lt_succ_self _) hbegins
  have hlog := hadds.seen
  exact hlog ▸ hbegun.hand_on hadds.next (hadds.frame c.stack)

/-- The calls are handed on. -/
theorem errands_quiet {o : Oracle} {r : Client × List Instr}
    (h : Errands oneCall c.data.nextNumber (holdings c.data c.stack) log)
    (hadds : Adds (c.data.pass o) [] [] r.1 r.2) :
    Errands oneCall r.1.nextNumber (holdings r.1 (r.2 ++ c.stack))
      (log ++ (r.1.log.drop c.data.log.length).filterMap Event.happening) := by
  have hlog : (r.1.log.drop c.data.log.length).filterMap Event.happening = [] := hadds.seen
  rw [hlog, List.append_nil]
  exact h.hand_on hadds.next (hadds.frame c.stack)

/-- What the consumer has for a call is taken from it. -/
theorem held_answered {c : Client} {n : ℕ} {d : Dispatch}
    (h : (c.dispatches.find? fun d => d.number = n) = some d) :
    c.held.Perm (d.holding ::
      { c with dispatches := c.dispatches.eraseP fun d => d.number = n }.held) := by
  obtain ⟨d', l₁, l₂, hbefore, hd', hsplit, herase⟩ :=
    List.exists_of_eraseP (List.mem_of_find?_eq_some h) (List.find?_some h)
  have hsame : d' = d := by
    rw [hsplit, List.find?_append, List.find?_eq_none.mpr hbefore, Option.none_or,
      List.find?_cons, hd'] at h
    exact Option.some.inj h
  subst hsame
  simp only [Client.held]
  rw [herase, hsplit, List.map_append, List.map_cons, List.map_append]
  refine (List.perm_middle.append_left _).trans ?_
  exact List.perm_middle

theorem errands_call {op : Op} {o : Oracle} {r : Client × List Instr}
    (hfrom : FromConsumer (.call op o))
    (h : Errands oneCall c.data.nextNumber (holdings c.data c.stack) log)
    (hcall : call s c.data op o = some r) :
    Errands oneCall r.1.nextNumber (holdings r.1 (r.2 ++ c.stack))
      (log ++ seen s c (.call op o) ⟨r.1, r.2 ++ c.stack⟩) := by
  simp only [seen, reexchange, Option.toList_none, List.append_nil]
  cases op with
  | invokeRemoteMethod request hasErr =>
    cases hcall
    obtain ⟨es, stage, hbegins, hadds⟩ := adds_invokeRemoteMethod s
      { c.data.pass o with nextNumber := c.data.nextNumber + 1 }
      ⟨c.data.nextNumber, request, hasErr⟩
    exact errands_begins h hbegins hadds
  | invokeRemoteMethodAsync request callback =>
    cases callback with
    | none =>
      cases hcall
      exact errands_quiet (o := o) h (.of_same rfl le_rfl rfl rfl rfl)
    | some callback =>
      cases hcall
      have hadds := adds_invoke s { c.data.pass o with nextNumber := c.data.nextNumber + 1 }
        ⟨c.data.nextNumber, request, callback, 1⟩
      split_ifs at hadds
      · have hbegins : oneCall.begins [] (.waiting 1) := .inl ⟨rfl, rfl⟩
        exact errands_begins h hbegins hadds
      · have hbegins : oneCall.begins [.dispatched] (.sent 1) := .inr ⟨rfl, rfl⟩
        exact errands_begins h hbegins hadds
  | ready n b => exact errands_quiet h (adds_ready _ hcall)
  | deadline n => exact errands_quiet h (adds_deadline _ hcall)
  | reply n token => exact errands_quiet h (adds_reply _ hcall)
  | result n value err =>
    obtain ⟨d, hd, rfl⟩ := Option.map_eq_some_iff.mp hcall
    obtain ⟨es, next, hmove, hadds⟩ := adds_onResult s { c.data.pass o with
      dispatches := c.data.dispatches.eraseP fun d => d.number = n } d.call d.token value
        (Canonical.code_ne hfrom)
    have hheld : (d.holding :: holdings { c.data with
        dispatches := c.data.dispatches.eraseP fun d => d.number = n } c.stack).Perm
          (holdings c.data c.stack) :=
      List.perm_middle.symm.trans ((held_answered hd).symm.append_left _)
    have hreceipt : receipt c (.call (.result n value err) o) =
        some (d.call.number, .received value) := congrArg (Option.map _) hd
    have hlog := hadds.seen
    have hmoved := (h.hand_on le_rfl hheld).move hmove
    rw [hreceipt]
    exact hlog ▸ hmoved.hand_on hadds.next (hadds.frame c.stack)

/-- **One step, one call.** -/
theorem errands_next (hfrom : FromConsumer a)
    (h : Errands oneCall c.data.nextNumber (holdings c.data c.stack) log)
    (hstep : (program s store).next c a = some c') :
    Errands oneCall c'.data.nextNumber (holdings c'.data c'.stack) (log ++ seen s c a c') := by
  cases a with
  | call op o =>
    obtain ⟨r, hr, rfl⟩ := Program.next_call hstep
    exact errands_call hfrom h hr
  | step o =>
    obtain ⟨i, k, r, hstack, hexec, rfl⟩ := Program.next_step hstep
    obtain ⟨es, hs, hadds, hadvances⟩ := advances_exec hfrom hexec
    have hseen : seen s c (.step o) ⟨r.1, r.2 ++ k⟩ =
        (i.receipt o).toList ++ es ++ (i.reexchange s c.data o).toList := by
      have hlog : (r.1.log.drop c.data.log.length).filterMap Event.happening = es := hadds.seen
      simp only [seen, receipt, reexchange, hstack, List.head?_cons, Option.bind_some, hlog]
    have hheld : holdings c.data (i :: k) = i.holding.toList ++ holdings c.data k := by
      cases hi : i.holding <;> simp [holdings, hi]
    rw [hstack, hheld] at h
    rw [hseen]
    exact (errands_advances h hadvances).hand_on hadds.next (hadds.frame k)

/-- **Every call follows its course**, in every run. -/
theorem errands_run {as : List (Program.Action Op Oracle)}
    (h : (program s store).system.Run ⟨{ store := store }, []⟩ as c)
    (hfrom : ∀ a ∈ as, FromConsumer a) :
    Errands oneCall c.data.nextNumber (holdings c.data c.stack) (happenings s store as) := by
  induction h with
  | nil => exact .none_begun
  | @snoc c c' as a hrun hstep ih =>
    have hlast : happenings s store (as ++ [a]) = happenings s store as ++ seen s c a c' :=
      hrun.seenAlong_snoc (seen s) hstep
    rw [hlast]
    refine errands_next (hfrom a (by simp)) (ih fun a ha => hfrom a ?_) hstep
    exact List.mem_append_left _ ha

/-- A call is sent at most twice and goes for another token at most once, after the one rejection
that is handled; it is answered at most once, and is told the truth. -/
structure Bounded (history : List CallEvent) : Prop where
  dispatched : history.countP CallEvent.isDispatched ≤ 2
  rejected : history.countP CallEvent.isRejected ≤ 1
  reexchanged : history.countP CallEvent.isReexchanged ≤ 1
  answered : history.countP CallEvent.isAnswered ≤ 1
  truthful : Justified Truthful history

theorem Bounded.of_course {history : List CallEvent} {stage : Option Stage}
    (h : oneCall.Course history stage) : Bounded history where
  dispatched := dispatched_le h
  rejected := rejected_le h
  reexchanged := reexchanged_le h
  answered := Nat.le_of_add_right_le (answered_eq h).le
  truthful := (justified_of_course h).1

/-- **One re-exchange for a call**, whatever the target and capability_module answer and whatever
else the client does.  A call that something has happened to and that is nowhere any more has been
answered. -/
theorem reexchange_bounded {as : List (Program.Action Op Oracle)}
    (h : (program s store).system.Run ⟨{ store := store }, []⟩ as c)
    (hfrom : ∀ a ∈ as, FromConsumer a) (n : ℕ) :
    Bounded (eventsOf n (happenings s store as)) ∧
      (eventsOf n (happenings s store as) ≠ [] → n ∉ (holdings c.data c.stack).map Prod.fst →
        (eventsOf n (happenings s store as)).countP CallEvent.isAnswered = 1) := by
  rcases (errands_run h hfrom).course n with hnone | ⟨stage, hcourse, hover⟩
  · rw [hnone]
    exact ⟨⟨Nat.zero_le _, Nat.zero_le _, Nat.zero_le _, Nat.zero_le _, .nil⟩,
      fun hsome => absurd rfl hsome⟩
  · refine ⟨.of_course hcourse, fun _ hnot => ?_⟩
    have hanswered := answered_eq hcourse
    rwa [hover hnot] at hanswered

/-- A call is rejected with its token, and rejected again with what is granted then. -/
def rejectedTwice : List (Program.Action Op Oracle) :=
  [.call (.invokeRemoteMethodAsync getBalance (some 7)) {}, .step {},
    .call (.result 1 makeUnauthorizedSentinel {}) {}, .step {}, .step { id := 1 },
    .call (.ready 3 true) {}, .step {}, .call (.reply 4 []) {}, .step {}, .step {},
    .call (.result 5 makeUnauthorizedSentinel {}) {}]

/-- It is told so. -/
theorem reexchange_bounded_twice :
    eventsOf 0 (happenings app walletStore rejectedTwice) =
      [.dispatched, .received makeUnauthorizedSentinel, .rejected, .reexchanged, .dispatched,
        .received makeUnauthorizedSentinel,
        .answered .invalid (some (errUnauthorized (qstr "wallet")))] ∧
      Bounded (eventsOf 0 (happenings app walletStore rejectedTwice)) := by
  have hrun : (program app walletStore).system.Run ⟨{ store := walletStore }, []⟩ rejectedTwice _ :=
    TransitionSystem.run_of_exec rfl
  have hfrom : ∀ a ∈ rejectedTwice, FromConsumer a := by
    simp [rejectedTwice, FromConsumer, Canonical.ok]
  exact ⟨rfl, (reexchange_bounded hrun hfrom 0).1⟩

end runs

end LogosProtocol.ApiClient
