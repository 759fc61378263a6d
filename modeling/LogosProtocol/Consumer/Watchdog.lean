import LogosProtocol.Consumer.Attachment
import LogosProtocol.Consumer.Cancel

/-!
# The watchdog of the registry

One timer chases what waits and watches what is armed.  It is stopped wherever a vector may have
become empty and started again at the end of whatever puts entries back, so while an operation is
under way it may stand still with work to do; then the instruction that starts it is still to
come.  What stands behind an instruction that arms an entry or drops a handle is such an
instruction.

A tick first drops the handles that are no longer valid, and then asks for every object that
something waits for.  Callbacks come in between, so each of these is shown of the whole run from
the tick until it is over.

## Main definitions

* `Registry.Watches` — there is something for the timer to do.
* `Awake` — the invariant of the timer.
* `HandleFlow` — what a step does to the stored handles.

## Main results

* `watchdog_awake` — the timer runs, and ticks do what they are for.
-/

namespace LogosProtocol.PendingSubscriptions

/-- There is something for the timer to do: something is armed, or an entry waits with no acquire
in flight or with a warning still to come. -/
def Registry.Watches (r : Registry) : Prop :=
  r.armed ≠ [] ∨ ∃ e ∈ r.entries, r.acquiring e.objectName = false ∨ e.warnLevel < 2

/-- An instruction after which the timer may be needed and stand still. -/
def Instr.Unsettles : Instr → Prop
  | .arm _ _ | .pushArmed _ | .drop _ => True
  | _ => False

/-- Whatever unsettles the timer has a start of it behind. -/
def Covered : List Instr → Prop
  | [] => True
  | i :: k => (i.Unsettles → .ensureTimer ∈ k) ∧ Covered k

theorem covered_append_start (pre : List Instr) {k : List Instr} (h : Covered k) :
    Covered (pre ++ .ensureTimer :: k) := by
  induction pre with
  | nil => exact ⟨fun hunsettles => hunsettles.elim, h⟩
  | cons i pre ih => exact ⟨fun _ => by simp, ih⟩

theorem covered_append_quiet {pre k : List Instr} (hpre : ∀ i ∈ pre, ¬ i.Unsettles)
    (h : Covered k) : Covered (pre ++ k) := by
  induction pre with
  | nil => exact h
  | cons i pre ih =>
    refine ⟨fun hunsettles => absurd hunsettles (hpre i (List.mem_cons_self ..)), ?_⟩
    exact ih fun j hj => hpre j (List.mem_cons_of_mem i hj)

/-- The same behind an instruction that was covered itself. -/
theorem covered_append_of_mem {pre k : List Instr} (hstart : .ensureTimer ∈ k) (h : Covered k) :
    Covered (pre ++ k) := by
  induction pre with
  | nil => exact h
  | cons i pre ih => exact ⟨fun _ => List.mem_append_right pre hstart, ih⟩

/-- **The invariant of the timer.** -/
structure Awake (r : Registry) (k : List Instr) : Prop where
  running : r.Watches → r.timer.running = true ∨ .ensureTimer ∈ k
  created : r.timer.running = true → r.timer.created = true
  covered : Covered k

/-- What leaves the timer no more to do than it had, and leaves it running. -/
structure Steady (r r' : Registry) : Prop where
  watches : r'.Watches → r'.timer.running = true ∨
    r.Watches ∧ (r.timer.running = true → r'.timer.running = true)
  created : (r.timer.running = true → r.timer.created = true) → r'.timer.running = true →
    r'.timer.created = true

namespace Steady
variable {r r' r'' : Registry}

theorem trans (h : Steady r r') (h' : Steady r' r'') : Steady r r'' where
  watches hwatches := by
    rcases h'.watches hwatches with hrunning | ⟨hwatches, hkept'⟩
    · exact .inl hrunning
    · rcases h.watches hwatches with hrunning | ⟨hwatches, hkept⟩
      · exact .inl (hkept' hrunning)
      · exact .inr ⟨hwatches, fun hrunning => hkept' (hkept hrunning)⟩
  created hcreated := h'.created (h.created hcreated)

/-- The timer is left alone, with no more to do. -/
theorem of_timer_eq (hwatches : r'.Watches → r.Watches) (htimer : r'.timer = r.timer) :
    Steady r r' where
  watches h := .inr ⟨hwatches h, fun hrunning => htimer ▸ hrunning⟩
  created hcreated := htimer ▸ hcreated

/-- The parts the timer is about are left alone. -/
theorem of_same (hentries : r'.entries = r.entries) (harmed : r'.armed = r.armed)
    (hacquiring : r'.acquiring = r.acquiring) (htimer : r'.timer = r.timer) : Steady r r' := by
  refine of_timer_eq ?_ htimer
  simp only [Registry.Watches, hentries, harmed, hacquiring, imp_self]

end Steady

namespace Registry
variable (r : Registry)

theorem timerNeeded_of_watches (h : r.Watches) : r.timerNeeded = true := by
  simp only [timerNeeded, decide_eq_true_eq]
  rcases h with harmed | ⟨e, he, -⟩
  · exact .inr harmed
  · exact .inl (List.ne_nil_of_mem he)

theorem steady_ensureTimer : Steady r r.ensureTimer := by
  unfold ensureTimer
  split
  · exact ⟨fun _ => .inl rfl, fun _ _ => rfl⟩
  · exact .of_same rfl rfl rfl rfl

/-- After a start of the timer it runs if it is needed. -/
theorem running_ensureTimer (h : r.ensureTimer.Watches) : r.ensureTimer.timer.running = true := by
  have hsame := r.ensureTimer_eq
  have hneeded : r.timerNeeded = true := by
    rw [hsame] at h
    exact timerNeeded_of_watches r h
  rw [ensureTimer, if_pos hneeded]
  rfl

theorem steady_stopTimerIfIdle : Steady r r.stopTimerIfIdle := by
  unfold stopTimerIfIdle
  split
  · exact .of_same rfl rfl rfl rfl
  · rename_i hidle
    exact ⟨fun h => absurd (timerNeeded_of_watches r h) hidle, fun _ h => by cases h⟩

theorem steady_takeMatching (name : QString) : Steady r (r.takeMatching name).2 := by
  let r₁ : Registry := { r with entries := r.entries.filter fun e => e.objectName ≠ name }
  have hwatches : r₁.Watches → r.Watches := by
    rintro (harmed | ⟨e, he, hbusy⟩)
    · exact .inl harmed
    · exact .inr ⟨e, (List.mem_filter.mp he).1, hbusy⟩
  exact .trans (.of_timer_eq hwatches rfl) r₁.steady_stopTimerIfIdle

/-- A warning given leaves one less to come. -/
theorem steady_reportStillPending (elapsed : ℕ → ℕ) : Steady r (r.reportStillPending elapsed) := by
  refine .of_timer_eq ?_ rfl
  rintro (harmed | ⟨e, he, hbusy⟩)
  · exact .inl harmed
  · obtain ⟨e₀, he₀, rfl⟩ := List.mem_map.mp he
    refine .inr ⟨e₀, he₀, ?_⟩
    split_ifs at hbusy
    · omega
    · exact hbusy.imp_right fun h => by simp at h
    · exact hbusy

/-- The timer is only stopped when it has nothing to do. -/
theorem steady_rescheduleOrStop : Steady r r.rescheduleOrStop := by
  unfold rescheduleOrStop
  split_ifs with hcreated hneeded hentries hbusy hinterval harmed
  · exact ⟨fun _ => .inl rfl, fun _ _ => rfl⟩
  · exact ⟨fun _ => .inl rfl, fun _ _ => rfl⟩
  · exact .of_same rfl rfl rfl rfl
  · exact ⟨fun _ => .inl rfl, fun _ _ => rfl⟩
  · refine ⟨fun h => ?_, fun _ h => by cases h⟩
    rcases h with h | ⟨e, he, h⟩
    · exact absurd h harmed
    · refine absurd (List.any_eq_true.mpr ⟨e, he, ?_⟩) hbusy
      simpa [stopTimer] using h
  · exact ⟨fun h => absurd (timerNeeded_of_watches r h) hneeded, fun _ h => by cases h⟩
  · exact .of_same rfl rfl rfl rfl

/-- Abandoning takes out what no acquire is in flight for any more. -/
theorem steady_abandon_acquired (name : QString) (inFlight : List QString) :
    Steady r ({ r with inFlight := inFlight, acquiring := Function.update r.acquiring name false }
      |>.abandon name).1 := by
  let r₁ : Registry := { r with
    inFlight := inFlight
    acquiring := Function.update r.acquiring name false
    entries := r.entries.filter fun e => e.objectName ≠ name }
  have hwatches : r₁.Watches → r.Watches := by
    rintro (harmed | ⟨e, he, hbusy⟩)
    · exact .inl harmed
    · obtain ⟨he, hname⟩ := List.mem_filter.mp he
      rw [decide_eq_true_eq] at hname
      refine .inr ⟨e, he, ?_⟩
      rwa [show r₁.acquiring e.objectName = r.acquiring e.objectName from
        Function.update_of_ne hname ..] at hbusy
  exact .trans (.of_timer_eq hwatches rfl) r₁.steady_stopTimerIfIdle

/-- A cancelled entry needs no timer. -/
theorem steady_cancel (n : ℕ) : Steady r (r.cancel n).1 := by
  unfold cancel
  split_ifs
  · let r₁ : Registry := { r with entries := r.entries.eraseP fun e => e.id = n }
    have hwatches : r₁.Watches → r.Watches := by
      rintro (harmed | ⟨e, he, hbusy⟩)
      · exact .inl harmed
      · exact .inr ⟨e, List.mem_of_mem_eraseP he, hbusy⟩
    exact .trans (.trans (.of_timer_eq hwatches rfl) r₁.steady_stopTimerIfIdle)
      (.of_same rfl rfl rfl rfl)
  · refine .of_timer_eq ?_ rfl
    rintro (harmed | hbusy)
    · refine .inl fun hnone => harmed ?_
      simp [hnone, emit]
    · exact .inr hbusy
  · exact .of_same rfl rfl rfl rfl
  · exact .of_same rfl rfl rfl rfl

end Registry

/-! ## What a step does -/

/-- What a step does to the stored handles: one that goes is released, and at most one is new. -/
structure HandleFlow (r r' : Registry) : Prop where
  log : ∃ es, r'.log = r.log ++ es
  nextHandle : r.nextHandle ≤ r'.nextHandle
  stored : ∃ name, ∀ n h, r'.handles.lookup n = some h → r.handles.lookup n = some h ∨
    n = name ∧ h = r.nextHandle ∧ r.nextHandle < r'.nextHandle
  released : ∀ n h, r.handles.lookup n = some h →
    r'.handles.lookup n = some h ∨ .released h ∈ r'.log

theorem HandleFlow.of_same {r r' : Registry} (hlog : ∃ es, r'.log = r.log ++ es)
    (hnext : r'.nextHandle = r.nextHandle) (hhandles : r'.handles = r.handles) :
    HandleFlow r r' where
  log := hlog
  nextHandle := hnext.ge
  stored := ⟨[], fun _ _ h => .inl (hhandles ▸ h)⟩
  released _ _ h := .inl (hhandles ▸ h)

/-- The same from before a step that leaves the handles alone. -/
theorem HandleFlow.after {r r₁ r' : Registry} (h : HandleFlow r₁ r')
    (hlog : ∃ es, r₁.log = r.log ++ es) (hnext : r₁.nextHandle = r.nextHandle)
    (hhandles : r₁.handles = r.handles) : HandleFlow r r' where
  log := by
    obtain ⟨es, hes⟩ := hlog
    obtain ⟨es', hes'⟩ := h.log
    exact ⟨es ++ es', by rw [hes', hes, List.append_assoc]⟩
  nextHandle := hnext ▸ h.nextHandle
  stored := hnext ▸ hhandles ▸ h.stored
  released := hhandles ▸ h.released

/-- An acquire that is noted is one that the transport has accepted. -/
def InFlight (r : Registry) : Prop := ∀ name, r.acquiring name = true → name ∈ r.inFlight

/-- What a step leaves to do, and what it does to the timer and the handles.  `i` is the
instruction that it runs, if it runs one. -/
structure Effect (i : Option Instr) (r r' : Registry) (k : List Instr) : Prop where
  created : (r.timer.running = true → r.timer.created = true) → r'.timer.running = true →
    r'.timer.created = true
  awake : (∃ pre, k = pre ++ [.ensureTimer]) ∨ (∃ j ∈ i, j.Unsettles) ∨
    (∀ j ∈ k, ¬ j.Unsettles) ∧ (r'.Watches → r'.timer.running = true ∨
      i ≠ some .ensureTimer ∧ r.Watches ∧ (r.timer.running = true → r'.timer.running = true))
  handles : HandleFlow r r'
  inFlight : InFlight r → InFlight r'

namespace Effect
variable {i : Option Instr} {r r' : Registry} {k : List Instr}

theorem of_steady (hi : i ≠ some .ensureTimer) (hsteady : Steady r r')
    (hk : ∀ j ∈ k, ¬ j.Unsettles) (hhandles : HandleFlow r r')
    (hinFlight : InFlight r → InFlight r') : Effect i r r' k where
  created := hsteady.created
  awake := .inr (.inr ⟨hk, fun h => (hsteady.watches h).imp_right fun ⟨h, hkept⟩ =>
    ⟨hi, h, hkept⟩⟩)
  handles := hhandles
  inFlight := hinFlight

/-- Nothing the watchdog is about changes. -/
theorem of_same (hi : i ≠ some .ensureTimer) (hk : ∀ j ∈ k, ¬ j.Unsettles)
    (hentries : r'.entries = r.entries) (harmed : r'.armed = r.armed)
    (hacquiring : r'.acquiring = r.acquiring) (htimer : r'.timer = r.timer)
    (hlog : ∃ es, r'.log = r.log ++ es) (hnext : r'.nextHandle = r.nextHandle)
    (hhandles : r'.handles = r.handles) (hinFlight : r'.inFlight = r.inFlight) :
    Effect i r r' k := by
  refine of_steady hi (.of_same hentries harmed hacquiring htimer) hk
    (.of_same hlog hnext hhandles) fun h name hname => ?_
  rw [hacquiring] at hname
  rw [hinFlight]
  exact h name hname

/-- The timer is started at the end of what is left. -/
theorem of_start {pre : List Instr} (hcreated : (r.timer.running = true → r.timer.created = true) →
      r'.timer.running = true → r'.timer.created = true)
    (hhandles : HandleFlow r r') (hinFlight : InFlight r → InFlight r') :
    Effect i r r' (pre ++ [.ensureTimer]) where
  created := hcreated
  awake := .inl ⟨pre, rfl⟩
  handles := hhandles
  inFlight := hinFlight

/-- The instruction is covered itself. -/
theorem of_unsettles {j : Instr} (hj : j.Unsettles) (htimer : r'.timer = r.timer)
    (hhandles : HandleFlow r r') (hinFlight : InFlight r → InFlight r') :
    Effect (some j) r r' k where
  created hcreated := htimer ▸ hcreated
  awake := .inr (.inl ⟨j, rfl, hj⟩)
  handles := hhandles
  inFlight := hinFlight

/-- With a start of the timer behind, it does not matter what else was done before. -/
theorem restart {r₁ : Registry} (h : Effect i r₁ r' k) (htimer : r₁.timer = r.timer)
    (hacquiring : r₁.acquiring = r.acquiring) (hinFlight : r₁.inFlight = r.inFlight)
    (hlog : ∃ es, r₁.log = r.log ++ es) (hnext : r₁.nextHandle = r.nextHandle)
    (hhandles : r₁.handles = r.handles) : Effect i r r' (k ++ [.ensureTimer]) := by
  refine of_start (htimer ▸ h.created) (h.handles.after hlog hnext hhandles) fun hI => h.inFlight ?_
  intro name hname
  rw [hacquiring] at hname
  rw [hinFlight]
  exact hI name hname

/-- The timer is started at once. -/
theorem ensured (h : Effect none r r' [.ensureTimer]) : Effect none r r'.ensureTimer [] := by
  have hsteady := r'.steady_ensureTimer
  have hsame := r'.ensureTimer_eq
  refine ⟨fun hcreated => hsteady.created (h.created hcreated), .inr (.inr ⟨by simp, fun hneeded =>
    .inl (r'.running_ensureTimer hneeded)⟩), ?_, fun hI => ?_⟩
  · rw [hsame]
    exact ⟨h.handles.log, h.handles.nextHandle, h.handles.stored, h.handles.released⟩
  · rw [hsame]
    exact h.inFlight hI

/-- **One step keeps the invariant of the timer.** -/
theorem awake_exec {j : Instr} {k' : List Instr} (h : Effect (some j) r r' k)
    (hI : Awake r (j :: k')) : Awake r' (k ++ k') := by
  obtain ⟨hcover, hrest⟩ := hI.covered
  have hcreated := h.created hI.created
  rcases h.awake with ⟨pre, rfl⟩ | ⟨j', hj', hunsettles⟩ | ⟨hquiet, hwatches⟩
  · refine ⟨fun _ => .inr (by simp), hcreated, ?_⟩
    rw [List.append_assoc]
    exact covered_append_start pre hrest
  · obtain rfl := Option.some.inj hj'
    have hstart := hcover hunsettles
    exact ⟨fun _ => .inr (List.mem_append_right k hstart), hcreated,
      covered_append_of_mem hstart hrest⟩
  · refine ⟨fun hneeded => ?_, hcreated, covered_append_quiet hquiet hrest⟩
    rcases hwatches hneeded with hrunning | ⟨hj, hneeded, hkept⟩
    · exact .inl hrunning
    · rcases hI.running hneeded with hrunning | hstart
      · exact .inl (hkept hrunning)
      · refine .inr (List.mem_append_right k ((List.mem_cons.mp hstart).resolve_left ?_))
        exact fun heq => hj (congrArg some heq.symm)

theorem awake_call {k' : List Instr} (h : Effect none r r' k) (hI : Awake r k') :
    Awake r' (k ++ k') := by
  have hcreated := h.created hI.created
  rcases h.awake with ⟨pre, rfl⟩ | ⟨j', hj', -⟩ | ⟨hquiet, hwatches⟩
  · refine ⟨fun _ => .inr (by simp), hcreated, ?_⟩
    rw [List.append_assoc]
    exact covered_append_start pre hI.covered
  · cases hj'
  · refine ⟨fun hneeded => ?_, hcreated, covered_append_quiet hquiet hI.covered⟩
    rcases hwatches hneeded with hrunning | ⟨-, hneeded, hkept⟩
    · exact .inl hrunning
    · rcases hI.running hneeded with hrunning | hstart
      · exact .inl (hkept hrunning)
      · exact .inr (List.mem_append_right k hstart)

end Effect

section operations
variable (i : Option Instr) (r : Registry) (name : QString)

/-- Storing a handle leaves the timer and the acquires alone. -/
theorem storeHandle_kept (obj : ℕ) : (r.storeHandle name obj).1.timer = r.timer ∧
    (r.storeHandle name obj).1.acquiring = r.acquiring ∧
    (r.storeHandle name obj).1.inFlight = r.inFlight ∧
    (r.storeHandle name obj).1.nextHandle = r.nextHandle := by
  rcases r.storeHandle_cases name obj with ⟨-, h⟩ | ⟨-, h⟩ | ⟨_, -, -, -, h⟩ | ⟨_, -, -, -, h⟩
  all_goals
    rw [h]
    exact ⟨rfl, rfl, rfl, rfl⟩

/-- A new handle is stored, is given back, or takes the place of a dead one. -/
theorem flow_storeHandle : HandleFlow r (r.newHandle.2.storeHandle name r.newHandle.1).1 := by
  have hinsert : ∀ n h, (r.handles.insert name r.nextHandle).lookup n = some h →
      r.handles.lookup n = some h ∨ n = name ∧ h = r.nextHandle ∧
        r.nextHandle < r.nextHandle + 1 := by
    intro n h hlookup
    by_cases hn : n = name
    · rw [hn, AList.lookup_insert, Option.some.injEq] at hlookup
      exact .inr ⟨hn, hlookup.symm, Nat.lt_succ_self _⟩
    · rw [AList.lookup_insert_ne hn] at hlookup
      exact .inl hlookup
  rcases r.newHandle.2.storeHandle_cases name r.newHandle.1 with
    ⟨hnone, h⟩ | ⟨-, h⟩ | ⟨old, -, -, -, h⟩ | ⟨old, hold, -, -, h⟩
  · rw [h]
    refine ⟨⟨[], (List.append_nil _).symm⟩, Nat.le_succ _, ⟨name, hinsert⟩, fun n old hold => ?_⟩
    have hn : n ≠ name := by
      rintro rfl
      exact absurd (hold.symm.trans hnone) (by simp)
    exact .inl ((AList.lookup_insert_ne hn).trans hold)
  · rw [h]
    exact ⟨⟨[], (List.append_nil _).symm⟩, Nat.le_succ _, ⟨name, fun _ _ h => .inl h⟩,
      fun _ _ h => .inl h⟩
  · rw [h]
    exact ⟨⟨_, rfl⟩, Nat.le_succ _, ⟨name, fun _ _ h => .inl h⟩, fun _ _ h => .inl h⟩
  · rw [h]
    refine ⟨⟨_, rfl⟩, Nat.le_succ _, ⟨name, hinsert⟩, fun n old' hold' => ?_⟩
    by_cases hn : n = name
    · subst hn
      obtain rfl : old = old' := Option.some.inj (hold.symm.trans hold')
      exact .inr (List.mem_append_right _ (List.mem_singleton.mpr rfl))
    · exact .inl ((AList.lookup_insert_ne hn).trans hold')

/-- Arming starts the timer at its end. -/
theorem effect_armAgainst {r₀ : Registry} (obj : ℕ) (htimer : r.timer = r₀.timer)
    (hinFlight : InFlight r₀ → InFlight r)
    (hflow : HandleFlow r₀ (r.storeHandle name obj).1) :
    Effect i r₀ (r.armAgainst name obj).1 (r.armAgainst name obj).2 := by
  obtain ⟨hstimer, hsacquiring, hsinFlight, -⟩ := storeHandle_kept r name obj
  have hcreated := ((r.storeHandle name obj).1.steady_takeMatching name).created
  rw [hstimer, htimer] at hcreated
  have hkept : (r.armAgainst name obj).1.timer =
        ((r.storeHandle name obj).1.takeMatching name).2.timer := by
    simp only [Registry.armAgainst]
    split_ifs <;> rfl
  obtain ⟨timer, harm⟩ := r.armAgainst_eq name obj
  have hshape : (r.armAgainst name obj).2 = Registry.arming name (r.storeHandle name obj).2
      ((r.storeHandle name obj).1.entries.filter fun e => e.objectName = name) := by rw [harm]
  rw [hshape, Registry.arming]
  refine Effect.of_start (fun h => hkept ▸ hcreated h) ?_ ?_
  · rw [harm]
    exact ⟨hflow.log, hflow.nextHandle, hflow.stored, hflow.released⟩
  · rw [harm]
    intro h n hn
    have hbefore : r.acquiring n = true := hsacquiring ▸ hn
    show n ∈ (r.storeHandle name obj).1.inFlight
    rw [hsinFlight]
    exact hinFlight h n hbefore

theorem effect_arrive : Effect i r (r.newHandle.2.armAgainst name r.newHandle.1).1
    (r.newHandle.2.armAgainst name r.newHandle.1).2 :=
  effect_armAgainst i r.newHandle.2 name r.newHandle.1 rfl (fun hI => hI)
    (flow_storeHandle r name)

/-- A live handle is the one that is stored. -/
theorem effect_live {r₀ : Registry} {obj : ℕ} (hlive : r.liveHandle name = some obj)
    (htimer : r.timer = r₀.timer) (hinFlight : InFlight r₀ → InFlight r)
    (hlog : ∃ es, r.log = r₀.log ++ es) (hnext : r.nextHandle = r₀.nextHandle)
    (hhandles : r.handles = r₀.handles) :
    Effect i r₀ (r.armAgainst name obj).1 (r.armAgainst name obj).2 := by
  refine effect_armAgainst i r name obj htimer hinFlight ?_
  rw [storeHandle_self name (lookup_of_liveHandle name hlive)]
  exact .of_same hlog hnext hhandles

/-- What is not there at once is noted as acquired if the transport accepts it. -/
theorem beginAcquire_waits {async : Bool} {o : Oracle} (h : ¬ r.offers async name o) :
    (r.beginAcquire async name o).1 = (r, []) ∨ (r.beginAcquire async name o).1 =
      ({ r with acquiring := Function.update r.acquiring name true,
                inFlight := name :: r.inFlight }, []) := by
  simp only [Registry.beginAcquire, Registry.startAcquire, Registry.offers] at h ⊢
  cases async with
  | true =>
    cases hacquiring : r.acquiring name with
    | true => exact .inl (by simp)
    | false =>
      have hnow : o.now = false := by simpa [hacquiring] using h
      cases o.accepted with
      | true => exact .inr (by simp [hnow])
      | false => exact .inl (by simp [hnow])
  | false =>
    have hfound : o.found = false := by simpa using h
    exact .inl (by simp [hfound])

theorem effect_beginAcquire (hi : i ≠ some .ensureTimer) (async : Bool) (o : Oracle) :
    Effect i r (r.beginAcquire async name o).1.1 (r.beginAcquire async name o).1.2 := by
  rcases r.beginAcquire_cases async name o with ⟨-, h⟩ | ⟨hnone, -⟩
  · rw [h]
    exact effect_arrive i r name
  · rcases beginAcquire_waits r name hnone with h | h
    · rw [h]
      exact .of_same hi (by simp) rfl rfl rfl rfl ⟨[], (List.append_nil _).symm⟩ rfl rfl rfl
    · rw [h]
      refine .of_steady hi (.of_timer_eq ?_ rfl) (by simp)
        (.of_same ⟨[], (List.append_nil _).symm⟩ rfl rfl) fun hI n hn => ?_
      · -- Fewer objects are without an acquire.
        rintro (harmed | ⟨e, he, hbusy⟩)
        · exact .inl harmed
        · refine .inr ⟨e, he, hbusy.imp_left fun h => ?_⟩
          have hafter : Function.update r.acquiring name true e.objectName = false := h
          by_cases hname : e.objectName = name
          · simp [hname] at hafter
          · rwa [Function.update_of_ne hname] at hafter
      · by_cases hname : n = name
        · exact hname ▸ List.mem_cons_self ..
        · have hafter : Function.update r.acquiring name true n = true := hn
          rw [Function.update_of_ne hname] at hafter
          exact List.mem_cons_of_mem _ (hI n hafter)

/-- A dead handle is released and its entries are moved. -/
theorem effect_dropHandle :
    Effect (some (.drop name)) r (r.dropHandle name).1 (r.dropHandle name).2 := by
  rw [r.dropHandle_eq name]
  refine .of_unsettles trivial rfl ⟨⟨_, rfl⟩, le_rfl, ⟨[], fun n h hlookup => .inl ?_⟩,
    fun n h hlookup => ?_⟩ fun hI n hn => ?_
  · by_cases hn : n = name
    · subst hn
      simp [AList.lookup_erase] at hlookup
    · exact (AList.lookup_erase_ne hn).symm.trans hlookup
  · by_cases hn : n = name
    · subst hn
      exact .inr (by simp [hlookup])
    · exact .inl ((AList.lookup_erase_ne hn).trans hlookup)
  · have hafter : Function.update r.acquiring name false n = true := hn
    by_cases hname : n = name
    · simp [hname] at hafter
    · rw [Function.update_of_ne hname] at hafter
      exact hI n hafter

theorem effect_report (hi : i ≠ some .ensureTimer) (event : SubscriptionEvent)
    (reason : QString) :
    Effect i r (r.report name event reason).1 (r.report name event reason).2 := by
  unfold Registry.report
  split_ifs
  · exact .of_same hi (by simp [Instr.Unsettles]) rfl rfl rfl rfl ⟨_, rfl⟩ rfl rfl rfl
  · exact .of_same hi (by simp) rfl rfl rfl rfl ⟨[], (List.append_nil _).symm⟩ rfl rfl rfl

end operations

section steps
variable {async : Bool} {r : Registry} {o : Oracle} {r' : Registry × List Instr}

/-- **What an instruction does.** -/
theorem effect_exec {i : Instr} (hexec : exec async r i o = some r') :
    Effect (some i) r r'.1 r'.2 := by
  have hlog : ∃ es, r.log = r.log ++ es := ⟨[], (List.append_nil _).symm⟩
  cases i with
  | callback =>
    cases hexec
    exact .of_same (by simp) (by simp) rfl rfl rfl rfl hlog rfl rfl rfl
  | arm handle e =>
    cases hprobe : e.readinessOnly with
    | true =>
      rw [exec_arm_probe r handle o hprobe] at hexec
      cases hexec
      exact .of_unsettles trivial rfl (.of_same ⟨_, rfl⟩ rfl rfl) fun hI => hI
    | false =>
      rw [exec_arm_real r handle o hprobe] at hexec
      cases hexec
      exact .of_unsettles trivial rfl (.of_same ⟨_, rfl⟩ rfl rfl) fun hI => hI
  | pushArmed e =>
    cases hexec
    exact .of_unsettles trivial rfl (.of_same hlog rfl rfl) fun hI => hI
  | abandon e =>
    rw [exec_abandon] at hexec
    cases hexec
    refine .of_same (by simp) ?_ rfl rfl rfl rfl ⟨_, rfl⟩ rfl rfl rfl
    intro j hj
    unfold userCode at hj
    split_ifs at hj
    · simp [List.mem_singleton.mp hj, Instr.Unsettles]
    · cases hj
  | report name event reason =>
    cases hexec
    exact effect_report _ r name (by simp) event reason
  | ensureTimer =>
    cases hexec
    have hsteady := r.steady_ensureTimer
    have hsame := r.ensureTimer_eq
    refine ⟨hsteady.created, .inr (.inr ⟨by simp, fun hneeded =>
      .inl (r.running_ensureTimer hneeded)⟩), ?_, fun hI => ?_⟩
    · rw [hsame]
      exact .of_same hlog rfl rfl
    · rw [hsame]
      exact hI
  | beginAcquire name =>
    cases hexec
    exact effect_beginAcquire _ r name (by simp) async o
  | checkLiveness =>
    simp only [exec] at hexec
    split_ifs at hexec
    · cases hexec
      exact .of_same (by simp) (by simp) rfl rfl rfl rfl hlog rfl rfl rfl
    · cases hexec
      exact .of_start (fun hcreated => hcreated) (.of_same hlog rfl rfl) fun hI => hI
  | drop name =>
    cases hexec
    exact effect_dropHandle r name
  | chase name =>
    simp only [exec] at hexec
    split_ifs at hexec
    · cases hexec
      exact effect_beginAcquire _ r name (by simp) async o
    · cases hexec
      exact .of_same (by simp) (by simp) rfl rfl rfl rfl hlog rfl rfl rfl
  | chaseWanted =>
    simp only [exec, Option.ite_none_right_eq_some, Option.some.injEq] at hexec
    obtain ⟨-, rfl⟩ := hexec
    refine .of_same (by simp) ?_ rfl rfl rfl rfl hlog rfl rfl rfl
    intro j hj
    obtain ⟨n, -, rfl⟩ := List.mem_map.mp hj
    exact fun h => h
  | finishTick =>
    cases hexec
    have hsame := (r.reportStillPending o.elapsed).rescheduleOrStop_eq
    refine .of_steady (by simp) ((r.steady_reportStillPending o.elapsed).trans
      (Registry.steady_rescheduleOrStop _)) (by simp) ?_ fun hI => ?_
    · rw [hsame]
      exact .of_same hlog rfl rfl
    · rw [hsame]
      exact hI

/-- A new entry is armed at once, or the timer is started for it. -/
theorem effect_add (e : Entry) : Effect none r (r.add async e o).1 (r.add async e o).2 := by
  have hpushed : ∃ es, (r.push e).log = r.log ++ es := ⟨_, rfl⟩
  unfold Registry.add
  simp only
  cases hlive : (r.push e).liveHandle e.objectName with
  | some obj => exact effect_live none _ e.objectName hlive rfl (fun hI => hI) hpushed rfl rfl
  | none =>
    have heffect := effect_beginAcquire none (r.push e) e.objectName (by simp) async o
    rcases (r.push e).beginAcquire_cases async e.objectName o with
      ⟨-, h⟩ | ⟨-, acquiring, inFlight, h⟩
    · simp only [h]
      exact effect_armAgainst none _ e.objectName _ rfl (fun hI => hI)
        ((flow_storeHandle (r.push e) e.objectName).after hpushed rfl rfl)
    · simp only [h] at heffect ⊢
      exact (heffect.restart (r := r) rfl rfl rfl hpushed rfl rfl).ensured

theorem effect_refuse (onArmed : Option ℕ) :
    Effect none r (r.refuse onArmed).1 (r.refuse onArmed).2 := by
  refine .of_same (by simp) ?_ rfl rfl rfl rfl ⟨[], (List.append_nil _).symm⟩ rfl rfl rfl
  intro j hj
  simp only [Registry.refuse] at hj
  split_ifs at hj
  · simp [List.mem_singleton.mp hj, Instr.Unsettles]
  · cases hj

theorem effect_setStatusCallback (name : QString) (installed : Bool) :
    Effect none r (r.setStatusCallback name installed).1
      (r.setStatusCallback name installed).2 := by
  have hlog : ∃ es, r.log = r.log ++ es := ⟨[], (List.append_nil _).symm⟩
  unfold Registry.setStatusCallback Registry.report
  simp only
  split_ifs
  all_goals first
    | exact .of_same (by simp) (by simp [Instr.Unsettles]) rfl rfl rfl rfl ⟨_, rfl⟩ rfl rfl rfl
    | exact .of_same (by simp) (by simp) rfl rfl rfl rfl hlog rfl rfl rfl

/-- Entries that are chased again have a start of the timer behind. -/
theorem effect_rearm (name : QString) :
    Effect none r (r.rearm async name o).1.1 (r.rearm async name o).1.2 := by
  have hlog : ∃ es, r.log = r.log ++ es := ⟨[], (List.append_nil _).symm⟩
  unfold Registry.rearm Registry.reviveHeld
  simp only
  split_ifs
  · exact .of_same (by simp) (by simp) rfl rfl rfl rfl hlog rfl rfl rfl
  · simp only
    split
    · rename_i hlive
      exact (effect_live none _ name hlive rfl (fun hI => hI) ⟨[], (List.append_nil _).symm⟩ rfl
        rfl).restart rfl rfl rfl hlog rfl rfl
    · exact (effect_beginAcquire none _ name (by simp) async o).restart rfl rfl rfl hlog rfl rfl

/-- A new connection has none of the old handles and acquires. -/
theorem effect_reconnected (h : r.reconnected o = some r') : Effect none r r'.1 r'.2 := by
  simp only [Registry.reconnected, Option.ite_none_right_eq_some, Option.some.injEq] at h
  obtain ⟨-, rfl⟩ := h
  refine .of_start (fun hcreated => hcreated) ⟨⟨_, rfl⟩, le_rfl, ⟨[], ?_⟩, ?_⟩ ?_
  · intro n h hlookup
    have hnone : (∅ : Dict QString ℕ).lookup n = some h := hlookup
    cases hnone
  · intro n h hlookup
    refine .inr (List.mem_append_right _ (List.mem_map.mpr ⟨⟨n, h⟩, ?_, rfl⟩))
    exact AList.mem_lookup_iff.mp hlookup
  · intro _ n hn
    cases hn

/-- The callback of an acquire arms or abandons what waits for it. -/
theorem effect_acquired (name : QString) (ok : Bool) :
    Effect none r (r.acquired name ok).1 (r.acquired name ok).2 := by
  have hinFlight : InFlight r → InFlight { r with
      inFlight := r.inFlight.erase name
      acquiring := Function.update r.acquiring name false } := by
    intro hI n hn
    have hafter : Function.update r.acquiring name false n = true := hn
    by_cases hname : n = name
    · simp [hname] at hafter
    · rw [Function.update_of_ne hname] at hafter
      exact (List.mem_erase_of_ne hname).mpr (hI n hafter)
  have hlog : ∃ es, r.log = r.log ++ es := ⟨[], (List.append_nil _).symm⟩
  cases ok with
  | true =>
    exact effect_armAgainst none _ name _ rfl hinFlight
      ((flow_storeHandle _ name).after hlog rfl rfl)
  | false =>
    let r₁ : Registry := { r with
      inFlight := r.inFlight.erase name
      acquiring := Function.update r.acquiring name false }
    obtain ⟨timer, htake⟩ := r₁.takeMatching_eq name
    have habandon : (r.acquired name false).1 =
        { r₁ with entries := r₁.entries.filter fun e => e.objectName ≠ name, timer := timer } :=
      congrArg Prod.snd htake
    refine .of_steady (by simp) (r.steady_abandon_acquired name _) ?_ ?_ ?_
    · intro j hj
      rcases List.mem_append.mp hj with hj | hj
      · obtain ⟨e, -, rfl⟩ := List.mem_map.mp hj
        exact fun h => h
      · split_ifs at hj
        · cases hj
        · rw [List.mem_singleton.mp hj]
          exact fun h => h
    · rw [habandon]
      exact .of_same hlog rfl rfl
    · rw [habandon]
      exact hinFlight

theorem effect_cancel (n : ℕ) : Effect none r (r.cancel n).1 [] := by
  have hkept : HandleFlow r (r.cancel n).1 ∧ (InFlight r → InFlight (r.cancel n).1) := by
    have hlog : ∃ es, r.log = r.log ++ es := ⟨[], (List.append_nil _).symm⟩
    unfold Registry.cancel
    split_ifs
    · rw [Registry.stopTimerIfIdle_eq]
      exact ⟨.of_same ⟨_, rfl⟩ rfl rfl, fun hI => hI⟩
    · exact ⟨.of_same ⟨_, rfl⟩ rfl rfl, fun hI => hI⟩
    · exact ⟨.of_same ⟨_, rfl⟩ rfl rfl, fun hI => hI⟩
    · exact ⟨.of_same hlog rfl rfl, fun hI => hI⟩
  exact .of_steady (by simp) (r.steady_cancel n) (by simp) hkept.1 hkept.2

/-- **What a call does.** -/
theorem effect_call {op : Op} (hcall : call async r op o = some r') :
    Effect none r r'.1 r'.2 := by
  have hlog : ∃ es, r.log = r.log ++ es := ⟨[], (List.append_nil _).symm⟩
  have hsame : Effect none r r [] :=
    .of_same (by simp) (by simp) rfl rfl rfl rfl hlog rfl rfl rfl
  cases op with
  | onEventWhenAvailable objectName eventName callback onArmed =>
    simp only [call] at hcall
    split_ifs at hcall
    · cases hcall
      exact effect_refuse onArmed
    · cases hcall
      exact effect_add _
  | whenObjectAvailable objectName onReady =>
    simp only [call] at hcall
    split_ifs at hcall
    · cases hcall
      exact effect_refuse _
    · cases hcall
      exact effect_add _
  | cancelEventSubscription n =>
    cases hcall
    exact effect_cancel n
  | setSubscriptionStatusCallback objectName installed =>
    simp only [call] at hcall
    split_ifs at hcall
    · cases hcall
      exact hsame
    · cases hcall
      exact effect_setStatusCallback objectName installed
  | setSubscriptionRestartPolicy objectName policy =>
    simp only [call] at hcall
    split_ifs at hcall
    · cases hcall
      exact hsame
    · cases hcall
      exact .of_same (by simp) (by simp) rfl rfl rfl rfl hlog rfl rfl rfl
  | rearmSubscriptions objectName =>
    simp only [call] at hcall
    split_ifs at hcall
    · cases hcall
      exact hsame
    · cases hcall
      exact effect_rearm objectName
  | reconnect => exact effect_reconnected hcall
  | tick =>
    cases hcall
    exact .of_same (by simp) (by simp [Instr.Unsettles]) rfl rfl rfl rfl hlog rfl rfl rfl
  | acquired objectName ok =>
    simp only [call, Option.ite_none_right_eq_some, Option.some.injEq] at hcall
    obtain ⟨-, rfl⟩ := hcall
    exact effect_acquired objectName ok
  | setValid handle valid =>
    cases hcall
    exact .of_same (by simp) (by simp) rfl rfl rfl rfl hlog rfl rfl rfl

end steps

/-! ## Handles over a run -/

/-- Every stored handle has been issued, and for one object. -/
structure Stored (r : Registry) : Prop where
  issued : ∀ n h, r.handles.lookup n = some h → h < r.nextHandle
  injective : ∀ n n' h, r.handles.lookup n = some h → r.handles.lookup n' = some h → n = n'

/-- The handle was released and is stored nowhere. -/
structure Dropped (handle : ℕ) (r : Registry) : Prop where
  issued : handle < r.nextHandle
  nowhere : ∀ n, r.handles.lookup n ≠ some handle
  released : .released handle ∈ r.log

namespace HandleFlow
variable {r r' : Registry} {handle : ℕ}

theorem keeps_stored (h : HandleFlow r r') (hstored : Stored r) : Stored r' := by
  obtain ⟨name, hflow⟩ := h.stored
  have hle := h.nextHandle
  constructor
  · intro n k hlookup
    rcases hflow n k hlookup with hold | ⟨-, rfl, hlt⟩
    · exact (hstored.issued n k hold).trans_le hle
    · exact hlt
  · intro n n' k hlookup hlookup'
    rcases hflow n k hlookup with hold | ⟨hn, hk, -⟩
    · rcases hflow n' k hlookup' with hold' | ⟨-, hk, -⟩
      · exact hstored.injective n n' k hold hold'
      · exact absurd (hstored.issued n k hold) hk.ge.not_gt
    · rcases hflow n' k hlookup' with hold' | ⟨hn', -, -⟩
      · exact absurd (hstored.issued n' k hold') hk.ge.not_gt
      · rw [hn, hn']

/-- A handle that is nowhere is not stored again. -/
theorem keeps_dropped (h : HandleFlow r r') (hdropped : Dropped handle r) : Dropped handle r' := by
  obtain ⟨name, hflow⟩ := h.stored
  refine ⟨hdropped.issued.trans_le h.nextHandle, fun n hlookup => ?_, ?_⟩
  · rcases hflow n handle hlookup with hold | ⟨-, hnew, -⟩
    · exact hdropped.nowhere n hold
    · exact absurd hdropped.issued hnew.ge.not_gt
  · obtain ⟨es, hes⟩ := h.log
    rw [hes]
    exact List.mem_append_left es hdropped.released

/-- A stored handle stays with its object until it is dropped. -/
theorem tracks (h : HandleFlow r r') (hstored : Stored r) {name : QString}
    (hlookup : r.handles.lookup name = some handle) :
    r'.handles.lookup name = some handle ∨ Dropped handle r' := by
  by_cases hkept : r'.handles.lookup name = some handle
  · exact .inl hkept
  · have hissued := hstored.issued name handle hlookup
    obtain ⟨name', hflow⟩ := h.stored
    refine .inr ⟨hissued.trans_le h.nextHandle, fun n hn => ?_,
      (h.released name handle hlookup).resolve_left hkept⟩
    rcases hflow n handle hn with hold | ⟨-, hnew, -⟩
    · exact hkept (hstored.injective n name handle hold hlookup ▸ hn)
    · exact absurd hissued hnew.ge.not_gt

end HandleFlow

section runs
variable {async : Bool} {c c' c₁ c₂ : Program.Config Registry Instr}
  {as : List (Program.Action Op Oracle)}

theorem flow_next {a : Program.Action Op Oracle} (h : (program async).system.step c a c') :
    HandleFlow c.data c'.data := by
  cases a with
  | call op o =>
    obtain ⟨r, hr, rfl⟩ := Program.next_call h
    exact (effect_call hr).handles
  | step o =>
    obtain ⟨i, k, r, -, hr, rfl⟩ := Program.next_step h
    exact (effect_exec hr).handles

theorem stored_run (h : (program async).system.Run c as c') (hstored : Stored c.data) :
    Stored c'.data := by
  refine h.invariant (I := fun s => Stored s.data) ?_ hstored
  intro s a s' hs hstep
  exact (flow_next hstep).keeps_stored hs

theorem dropped_run {handle : ℕ} (h : (program async).system.Run c as c')
    (hdropped : Dropped handle c.data) : Dropped handle c'.data := by
  refine h.invariant (I := fun s => Dropped handle s.data) ?_ hdropped
  intro s a s' hs hstep
  exact (flow_next hstep).keeps_dropped hs

/-- A stored handle is followed along a run. -/
theorem tracks_run {handle : ℕ} {name : QString} (h : (program async).system.Run c as c')
    (hstored : Stored c.data) (hlookup : c.data.handles.lookup name = some handle) :
    c'.data.handles.lookup name = some handle ∨ Dropped handle c'.data := by
  have htracked := h.invariant (I := fun s => Stored s.data ∧
    (s.data.handles.lookup name = some handle ∨ Dropped handle s.data)) ?_ ⟨hstored, .inl hlookup⟩
  · exact htracked.2
  · intro s a s' hs hstep
    obtain ⟨hstored, hlookup | hdropped⟩ := hs
    · exact ⟨(flow_next hstep).keeps_stored hstored, (flow_next hstep).tracks hstored hlookup⟩
    · exact ⟨(flow_next hstep).keeps_stored hstored,
        .inr ((flow_next hstep).keeps_dropped hdropped)⟩

/-- **The timer, over every run**, callbacks calling back or not. -/
theorem awake_of_reachable (h : (program async).system.Reachable c) : Awake c.data c.stack ∧
    InFlight c.data ∧ Stored c.data := by
  refine Program.invariant (I := fun r k => Awake r k ∧ InFlight r ∧ Stored r) ?_ ?_ ?_ h
  · refine ⟨⟨?_, (fun h => by cases h), trivial⟩, ?_, ?_, ?_⟩
    · rintro (harmed | ⟨e, he, -⟩)
      · exact absurd rfl harmed
      · cases he
    · intro n hn
      cases hn
    · intro n h hlookup
      cases hlookup
    · intro n n' h hlookup
      cases hlookup
  · intro r i k o r' ⟨hawake, hinFlight, hstored⟩ hexec
    have heffect := effect_exec hexec
    exact ⟨heffect.awake_exec hawake, heffect.inFlight hinFlight,
      heffect.handles.keeps_stored hstored⟩
  · intro r k op o r' ⟨hawake, hinFlight, hstored⟩ hcall
    have heffect := effect_call hcall
    exact ⟨heffect.awake_call hawake, heffect.inFlight hinFlight,
      heffect.handles.keeps_stored hstored⟩

/-! ## Ticks -/

/-- While anything is armed, every handle that is stored and not valid is dropped. -/
def DropsDead (r r' : Registry) : Prop :=
  r.armed ≠ [] → ∀ name handle, r.handles.lookup name = some handle → r.valid handle = false →
    Dropped handle r'

/-- The run comes to where the tick has watched its handles, and from there asks for every object
that something waits for with no acquire in flight. -/
def ChasesWanted (async : Bool) (k : List Instr) (c : Program.Config Registry Instr)
    (as : List (Program.Action Op Oracle)) (c' : Program.Config Registry Instr) : Prop :=
  ∃ as₁ o as₂ d r, as = as₁ ++ .step o :: as₂ ∧
    (program async).system.Run c as₁ ⟨d, .chaseWanted :: .finishTick :: k⟩ ∧
    exec async d .chaseWanted o = some r ∧
    (program async).system.Run ⟨r.1, r.2 ++ .finishTick :: k⟩ as₂ c' ∧
    ∀ e ∈ d.entries, d.acquiring e.objectName = false →
      ∃ more, (program async).Passes ⟨r.1, r.2 ++ .finishTick :: k⟩ as₂ c'
        (.beginAcquire e.objectName) more

theorem mem_deadObjects {r : Registry} {name : QString} {handle : ℕ}
    (hlookup : r.handles.lookup name = some handle) (hvalid : r.valid handle = false) :
    name ∈ r.deadObjects := by
  refine List.mem_map.mpr ⟨⟨name, handle⟩, List.mem_filter.mpr ⟨?_, ?_⟩, rfl⟩
  · exact AList.mem_lookup_iff.mp hlookup
  · simp [hvalid]

theorem mem_wantedObjects {r : Registry} {e : Entry} (he : e ∈ r.entries)
    (hacquiring : r.acquiring e.objectName = false) : e.objectName ∈ r.wantedObjects := by
  rw [Registry.wantedObjects, List.mem_dedup]
  exact List.mem_map.mpr ⟨e, List.mem_filter.mpr ⟨he, by simp [hacquiring]⟩, rfl⟩

/-- An instruction that has drops put in front drops what is stored under their names. -/
theorem dropped_of_drop {name : QString} {handle : ℕ} {k : List Instr} (hstored : Stored c₁.data)
    (hlookup : c₁.data.handles.lookup name = some handle)
    (hpasses : (program async).Passes c₁ as c₂ (.drop name) k) : Dropped handle c₂.data := by
  obtain ⟨as₁, o, as₂, d, r, rfl, hbefore, hexec, hafter⟩ := hpasses
  have hexec : exec async d (.drop name) o = some r := hexec
  have hreleased : r.1.handles.lookup name ≠ some handle := by
    cases hexec
    rw [d.dropHandle_eq name]
    simp [AList.lookup_erase]
  have hdropped : Dropped handle r.1 := by
    have hflow := (effect_exec hexec).handles
    rcases tracks_run hbefore hstored hlookup with hlookup | hdropped
    · exact (hflow.tracks (stored_run hbefore hstored) hlookup).resolve_left hreleased
    · exact hflow.keeps_dropped hdropped
  exact dropped_run hafter hdropped

/-- **Every tick drops what is dead.** -/
theorem dropsDead_of_tick {k : List Instr} {r : Registry} (hstored : Stored r)
    (hrun : (program async).system.Run ⟨r, [.checkLiveness, .chaseWanted, .finishTick] ++ k⟩ as c₂)
    (hdone : c₂.stack = k) : DropsDead r c₂.data := by
  intro harmed name handle hlookup hvalid
  have hmoved : c₂ ≠ ⟨r, [.checkLiveness, .chaseWanted, .finishTick] ++ k⟩ := by
    rintro rfl
    have hlength := congrArg List.length hdone
    simp only [List.length_append, List.length_cons, List.length_nil] at hlength
    omega
  obtain ⟨o, bs, r', rfl, hexec, hrest⟩ := Program.run_of_instr hrun rfl rfl hmoved
  have hdead := mem_deadObjects hlookup hvalid
  have hexec : exec async r .checkLiveness o = some r' := hexec
  simp only [exec, harmed, List.ne_nil_of_mem hdead, or_self, if_false,
    Option.ite_none_right_eq_some, Option.some.injEq] at hexec
  obtain ⟨horder, rfl⟩ := hexec
  -- The drop of this object stands between others, with the rest of the tick behind.
  obtain ⟨before, after, hsplit⟩ := List.append_of_mem (horder.mem_iff.mpr hdead)
  have hpasses := Program.passes_of_popped hrest (l := before.map .drop) (i := .drop name)
    (k := after.map .drop ++ .ensureTimer :: .chaseWanted :: .finishTick :: k)
    (by simp [hsplit]) (by simp [hdone]; omega)
  exact dropped_of_drop hstored hlookup hpasses

theorem chasesWanted_of_tick {k : List Instr} {r : Registry}
    (hrun : (program async).system.Run ⟨r, [.checkLiveness, .chaseWanted, .finishTick] ++ k⟩ as c₂)
    (hdone : c₂.stack = k) :
    ChasesWanted async k ⟨r, [.checkLiveness, .chaseWanted, .finishTick] ++ k⟩ as c₂ := by
  obtain ⟨as₁, o, as₂, d, r', rfl, hbefore, hexec, hafter⟩ :=
    Program.passes_of_popped hrun (l := [.checkLiveness]) (i := .chaseWanted)
      (k := .finishTick :: k) rfl (by simp [hdone])
  refine ⟨as₁, o, as₂, d, r', rfl, hbefore, hexec, hafter, fun e he hacquiring => ?_⟩
  have hexec : exec async d .chaseWanted o = some r' := hexec
  simp only [exec, Option.ite_none_right_eq_some, Option.some.injEq] at hexec
  obtain ⟨horder, rfl⟩ := hexec
  obtain ⟨before, after, hsplit⟩ :=
    List.append_of_mem (horder.mem_iff.mpr (mem_wantedObjects he hacquiring))
  have hpasses := Program.passes_of_popped hafter (l := before.map .beginAcquire)
    (i := .beginAcquire e.objectName) (k := after.map .beginAcquire ++ .finishTick :: k)
    (by simp [hsplit]) (by simp [hdone]; omega)
  exact ⟨_, hpasses⟩

/-- **The watchdog does not go blind.**  Between operations the timer runs if it is needed, an
acquire that is noted is in flight, and once a tick is over it has dropped what was dead and has
asked for everything that waited. -/
theorem watchdog_awake (h : (program async).system.Reachable c) :
    (c.stack = [] → c.data.Watches → c.data.timer.running = true) ∧ InFlight c.data ∧
    ∀ o c₁ as c₂, (program async).next c (.call .tick o) = some c₁ →
      (program async).system.Run c₁ as c₂ → c₂.stack = c.stack →
      DropsDead c.data c₂.data ∧ ChasesWanted async c.stack c₁ as c₂ := by
  obtain ⟨hawake, hinFlight, hstored⟩ := awake_of_reachable h
  refine ⟨fun hidle hneeded => ?_, hinFlight, fun o c₁ as c₂ htick hrun hdone => ?_⟩
  · rcases hawake.running hneeded with hrunning | hstart
    · exact hrunning
    · rw [hidle] at hstart
      cases hstart
  · obtain ⟨r, hr, rfl⟩ := Program.next_call htick
    cases hr
    exact ⟨dropsDead_of_tick hstored hrun hdone, chasesWanted_of_tick hrun hdone⟩

/-- A subscription to a wallet is armed, and the wallet goes. -/
def orphanedWallet : Program.Config Registry Instr :=
  (TransitionSystem.exec (program true).next ⟨{}, []⟩
    [.call (.onEventWhenAvailable (qstr "wallet") [] 7 none) { accepted := true },
      .call (.acquired (qstr "wallet") true) {}, .step {}, .step {}, .step {}, .step {},
      .call (.setValid 0 false) {}]).get rfl

/-- The timer runs, and a tick drops the dead handle and asks for the wallet again. -/
theorem watchdog_awake_orphaned : orphanedWallet.data.timer.running = true ∧
    ∃ as c₁ c₂, (program true).next orphanedWallet (.call .tick {}) = some c₁ ∧
      (program true).system.Run c₁ as c₂ ∧ Dropped 0 c₂.data ∧
      ChasesWanted true [] c₁ as c₂ := by
  have hinit : (program true).system.Reachable ⟨{}, []⟩ := .init rfl
  have hexec : TransitionSystem.exec (program true).next ⟨{}, []⟩
      [.call (.onEventWhenAvailable (qstr "wallet") [] 7 none) { accepted := true },
        .call (.acquired (qstr "wallet") true) {}, .step {}, .step {}, .step {}, .step {},
        .call (.setValid 0 false) {}] = some orphanedWallet := rfl
  obtain ⟨hrunning, -, htick⟩ := watchdog_awake (hinit.of_exec hexec)
  have hrun : (program true).system.Run
      ⟨orphanedWallet.data, [.checkLiveness, .chaseWanted, .finishTick]⟩
      [.step { order := [qstr "wallet"] }, .step {}, .step {}, .step { accepted := true },
        .step {}, .step {}, .step {}] _ :=
    TransitionSystem.run_of_exec rfl
  obtain ⟨hdrops, hchases⟩ := htick {} _ _ _ rfl hrun rfl
  exact ⟨hrunning rfl (.inl (by decide)), _, _, _, rfl, hrun,
    hdrops (by decide) (qstr "wallet") 0 rfl rfl, hchases⟩

end runs

end LogosProtocol.PendingSubscriptions
