import LogosProtocol.Consumer.Arming

/-!
# The Manual restart policy

A subscription that has armed is armed again only by way of the waiting entries.  While the
policy of its object is Manual, the liveness tick and a reconnect take it to the held entries,
and only a rearm brings it back from there.  But a new handle that replaces a dead one takes it
to the waiting entries without asking the policy.

## Main definitions

* `Overrides` — a dead handle is replaced while the subscription is armed on it.
* `Parked` — the invariant: the subscription is not among those that wait.
-/

namespace LogosProtocol.PendingSubscriptions

section policy
variable (x : QString) (n : ℕ)

/-- The action does not rearm the object, nor make its policy Automatic. -/
def StaysManual : Program.Action Op Oracle → Prop
  | .call (.rearmSubscriptions name) _ => name ≠ x
  | .call (.setSubscriptionRestartPolicy name policy) _ => name = x → policy = .manual
  | _ => True

/-- `armAgainst` replaces the object's dead handle while the subscription is armed on it. -/
structure Arming.Overrides (a : Arming) : Prop where
  objectName : a.objectName = x
  dead : a.registry.Dead x
  armed : ∃ e ∈ a.registry.armed, e.id = n ∧ e.objectName = x

/-- The step does that. -/
def Overrides (async : Bool) (c : Program.Config Registry Instr)
    (action : Program.Action Op Oracle) : Prop :=
  ∃ a, arming async c action = some a ∧ a.Overrides x n

/-- Armed, or attached and about to be. -/
def HasArmed (r : Registry) (k : List Instr) : Prop :=
  (∃ e ∈ r.armed, e.id = n ∧ e.objectName = x) ∨
    ∃ e, .pushArmed e ∈ k ∧ e.id = n ∧ e.objectName = x

/-- The object's handle stops being valid, or goes with its connection. -/
def Loses (r : Registry) (op : Op) : Prop :=
  (∃ handle, r.handles.lookup x = some handle ∧ op = .setValid handle false) ∨ op = .reconnect

/-- What an instruction has in hand is not the subscription, unless it is attached. -/
def Instr.Parks : Instr → Prop
  | .arm _ e => e.id ≠ n
  | .pushArmed e => e.id = n → e.objectName = x
  | _ => True

/-- The subscription does not wait to be armed. -/
structure Parked (r : Registry) : Prop where
  manual : r.manual x = true
  issued : n < r.nextId
  entries : ∀ e ∈ r.entries, e.id ≠ n
  armed : ∀ e ∈ r.armed, e.id = n → e.objectName = x
  held : ∀ e ∈ r.held, e.id = n → e.objectName = x ∨ e.objectName = []

end policy

theorem Instr.parks_of_entry {x : QString} {n : ℕ} {i : Instr} (h : i.entry = none) :
    i.Parks x n := by
  cases i <;> trivial

namespace Parked
variable {x : QString} {n : ℕ} {r r' : Registry}

/-- What no entry and no policy notices. -/
theorem of_same (h : Parked x n r) (hentries : r'.entries = r.entries) (harmed : r'.armed = r.armed)
    (hheld : r'.held = r.held) (htargets : r'.targets = r.targets) (hnext : r'.nextId = r.nextId) :
    Parked x n r' where
  manual := by
    have hmanual := h.manual
    simp only [Registry.manual] at hmanual ⊢
    rw [htargets]
    exact hmanual
  issued := hnext ▸ h.issued
  entries := hentries ▸ h.entries
  armed := harmed ▸ h.armed
  held := hheld ▸ h.held

/-- Some entries leave. -/
theorem of_subset (h : Parked x n r) (hentries : ∀ e ∈ r'.entries, e ∈ r.entries)
    (harmed : ∀ e ∈ r'.armed, e ∈ r.armed) (hheld : ∀ e ∈ r'.held, e ∈ r.held)
    (htargets : r'.targets = r.targets) (hnext : r'.nextId = r.nextId) : Parked x n r' where
  manual := by
    have hmanual := h.manual
    simp only [Registry.manual] at hmanual ⊢
    rw [htargets]
    exact hmanual
  issued := hnext ▸ h.issued
  entries e he := h.entries e (hentries e he)
  armed e he := h.armed e (harmed e he)
  held e he := h.held e (hheld e he)

/-- A change to targets that keeps every policy. -/
theorem setTarget (h : Parked x n r) {name : QString} {t : Target}
    (ht : name = x → t.restart = .manual) : Parked x n (r.setTarget name t) where
  manual := by
    by_cases hname : name = x
    · subst hname
      simp [Registry.manual, Registry.setTarget, ht rfl]
    · have hmanual := h.manual
      simp only [Registry.manual, Registry.setTarget, Function.update_of_ne (Ne.symm hname)] at hmanual ⊢
      exact hmanual
  issued := h.issued
  entries := h.entries
  armed := h.armed
  held := h.held

theorem restart (h : Parked x n r) : (r.targets x).restart = .manual := by
  simpa [Registry.manual] using h.manual

theorem push (h : Parked x n r) (e : Entry) : Parked x n (r.push e) where
  manual := h.manual
  issued := Nat.lt_succ_of_lt h.issued
  entries e' he := by
    rcases List.mem_append.mp he with he | he
    · exact h.entries e' he
    · rw [List.mem_singleton.mp he]
      exact h.issued.ne'
  armed := h.armed
  held := h.held

/-- The armed entries of another object wait again. -/
theorem reviveArmed (h : Parked x n r) (name : QString)
    (hname : name = x → ∀ e ∈ r.armed, e.id = n → e.objectName ≠ x) :
    Parked x n (r.reviveArmed name) where
  manual := h.manual
  issued := h.issued
  entries e he := by
    rcases List.mem_append.mp he with he | he
    · exact h.entries e he
    · obtain ⟨he, hobject⟩ := List.mem_filter.mp he
      intro hid
      have hx := h.armed e he hid
      have hsame : e.objectName = name := by simpa using hobject
      exact hname (hsame.symm.trans hx) e he hid hx
  armed e he := h.armed e (List.mem_filter.mp he).1
  held := h.held

theorem storeHandle (h : Parked x n r) (name : QString) (obj : ℕ)
    (hok : ¬ Arming.Overrides x n ⟨r, name, obj⟩) : Parked x n (r.storeHandle name obj).1 := by
  rcases r.storeHandle_cases name obj with
    ⟨-, hstore⟩ | ⟨-, hstore⟩ | ⟨_, -, -, -, hstore⟩ | ⟨old, hlookup, -, hvalid, hstore⟩
  · rw [hstore]
    exact h.of_same rfl rfl rfl rfl rfl
  · rw [hstore]
    exact h
  · rw [hstore]
    exact h.of_same rfl rfl rfl rfl rfl
  · rw [hstore]
    have hrevive : Parked x n (r.reviveArmed name) := by
      refine h.reviveArmed name ?_
      rintro rfl e he hid hname
      exact hok ⟨rfl, ⟨old, hlookup, hvalid⟩, e, he, hid, hname⟩
    exact hrevive.of_same rfl rfl rfl rfl rfl

/-- A call of `armAgainst` that does not override. -/
theorem arm {a : Arming} (h : Parked x n a.registry) (hok : ¬ a.Overrides x n) :
    Parked x n a.run.1 ∧ ∀ i ∈ a.run.2, i.Parks x n := by
  obtain ⟨timer, harm⟩ := a.registry.armAgainst_eq a.objectName a.obj
  rw [Arming.run, harm]
  have hstore := h.storeHandle a.objectName a.obj hok
  generalize a.registry.storeHandle a.objectName a.obj = stored at hstore ⊢
  refine ⟨?_, fun i hi => ?_⟩
  · refine ⟨?_, hstore.issued, fun e he => hstore.entries e (List.mem_filter.mp he).1,
      hstore.armed, hstore.held⟩
    simp only [Registry.manual, Registry.bumped_apply]
    exact hstore.manual
  · simp only [Registry.arming, List.mem_append, List.mem_map, List.mem_singleton] at hi
    rcases hi with (⟨e, he, rfl⟩ | hi) | rfl
    · exact hstore.entries e (List.mem_filter.mp he).1
    · split at hi
      · rw [List.mem_singleton.mp hi]
        trivial
      · cases hi
    · trivial

/-- The held entries of another object wait again, or none does. -/
theorem reviveHeld (h : Parked x n r) {name : QString} (hname : name ≠ x) (hne : name ≠ []) :
    Parked x n (r.reviveHeld name).1 := by
  simp only [Registry.reviveHeld]
  split
  · refine ⟨h.manual, h.issued, h.entries, h.armed, fun e he _ => .inr ?_⟩
    obtain ⟨e₀, -, rfl⟩ := List.mem_map.mp he
    rfl
  · refine ⟨h.manual, h.issued, fun e he => ?_, h.armed, fun e he => h.held e (List.mem_filter.mp he).1⟩
    rcases List.mem_append.mp he with he | he
    · exact h.entries e he
    · obtain ⟨e₀, he₀, rfl⟩ := List.mem_map.mp he
      obtain ⟨he₀, hobject⟩ := List.mem_filter.mp he₀
      have hsame : e₀.objectName = name := by simpa using hobject
      intro hid
      rcases h.held e₀ he₀ hid with hx | hx
      · exact hname (hsame.symm.trans hx)
      · exact hne (hsame.symm.trans hx)

/-- A loss that the tick notices. -/
theorem dropHandle (h : Parked x n r) (name : QString) : Parked x n (r.dropHandle name).1 := by
  rw [Registry.dropHandle_eq]
  have hfrom : ∀ e ∈ r.armed.filter fun e => e.objectName = name, e.id = n → name = x := by
    intro e he hid
    obtain ⟨he, hobject⟩ := List.mem_filter.mp he
    have hsame : e.objectName = name := by simpa using hobject
    exact hsame.symm.trans (h.armed e he hid)
  refine ⟨h.manual, h.issued, fun e he => ?_, fun e he => h.armed e (List.mem_filter.mp he).1,
    fun e he => ?_⟩
  · rcases List.mem_append.mp he with he | he
    · exact h.entries e he
    · intro hid
      split_ifs at he with hmanual
      · cases he
      · rw [hfrom e he hid] at hmanual
        exact hmanual h.manual
  · rcases List.mem_append.mp he with he | he
    · exact h.held e he
    · intro hid
      split_ifs at he
      · exact .inl (h.armed e (List.mem_filter.mp he).1 hid)
      · cases he

/-- A loss that a reconnect notices. -/
theorem reviveAll (h : Parked x n r) : Parked x n r.reviveAll.1 where
  manual := h.manual
  issued := h.issued
  entries e he := by
    rcases List.mem_append.mp he with he | he
    · exact h.entries e he
    · obtain ⟨e₀, he₀, rfl⟩ := List.mem_map.mp he
      obtain ⟨he₀, hmanual⟩ := List.mem_filter.mp he₀
      intro hid
      have hx := h.armed e₀ he₀ hid
      simp [hx, h.manual] at hmanual
  armed e he := by cases he
  held e he := by
    rcases List.mem_append.mp he with he | he
    · exact h.held e he
    · exact fun hid => .inl (h.armed e (List.mem_filter.mp he).1 hid)

theorem cancel (h : Parked x n r) (m : ℕ) : Parked x n (r.cancel m).1 := by
  simp only [Registry.cancel]
  split_ifs
  · rw [Registry.stopTimerIfIdle_eq]
    exact h.of_subset (fun e he => List.mem_of_mem_eraseP he) (fun e he => he) (fun e he => he)
      rfl rfl
  · exact h.of_subset (fun e he => he) (fun e he => List.mem_of_mem_eraseP he) (fun e he => he)
      rfl rfl
  · exact h.of_subset (fun e he => he) (fun e he => he) (fun e he => List.mem_of_mem_eraseP he)
      rfl rfl
  · exact h

theorem report (h : Parked x n r) (name : QString) (event : SubscriptionEvent)
    (reason : QString) : Parked x n (r.report name event reason).1 ∧
      ∀ i ∈ (r.report name event reason).2, i.Parks x n := by
  simp only [Registry.report]
  split_ifs
  · exact ⟨h.of_same rfl rfl rfl rfl rfl, by simp [Instr.Parks]⟩
  · exact ⟨h, by simp⟩

theorem reportStillPending (h : Parked x n r) (elapsed : ℕ → ℕ) :
    Parked x n (r.reportStillPending elapsed) := by
  refine ⟨h.manual, h.issued, fun e he => ?_, h.armed, h.held⟩
  obtain ⟨e₀, he₀, rfl⟩ := List.mem_map.mp he
  have hid := h.entries e₀ he₀
  split_ifs <;> exact hid

theorem beginAcquire (h : Parked x n r) (async : Bool) (name : QString) (o : Oracle)
    (hok : ∀ a, r.acquireArming async name o = some a → ¬ a.Overrides x n) :
    Parked x n (r.beginAcquire async name o).1.1 ∧
      ∀ i ∈ (r.beginAcquire async name o).1.2, i.Parks x n := by
  rcases beginAcquire_arming async r name o with
    ⟨a, ha, hobj, hacquire⟩ | ⟨-, acquiring, inFlight, hacquire⟩
  · rw [hacquire]
    subst hobj
    have hnew : Parked x n r.newHandle.2 := h.of_same rfl rfl rfl rfl rfl
    exact hnew.arm (hok _ ha)
  · rw [hacquire]
    exact ⟨h.of_same rfl rfl rfl rfl rfl, by simp⟩

theorem liveOrAcquire (h : Parked x n r) {async : Bool} {name : QString} {o : Oracle} {a : Arming}
    (ha : r.liveOrAcquire async name o = some a) : Parked x n a.registry := by
  rcases liveOrAcquire_cases ha with ⟨obj, -, rfl⟩ | rfl
  · exact h
  · exact h.of_same rfl rfl rfl rfl rfl

/-- What `abandon` takes out has never armed. -/
theorem abandon (h : Parked x n r) (name : QString) : Parked x n (r.abandon name).1 ∧
    ∀ i ∈ (r.abandon name).2, i.Parks x n := by
  obtain ⟨timer, htake⟩ := r.takeMatching_eq name
  simp only [Registry.abandon, htake]
  refine ⟨h.of_subset (fun e he => (List.mem_filter.mp he).1) (fun e he => he) (fun e he => he)
    rfl rfl, fun i hi => ?_⟩
  rcases List.mem_append.mp hi with hi | hi
  · obtain ⟨e, -, rfl⟩ := List.mem_map.mp hi
    trivial
  · split at hi
    · cases hi
    · rw [List.mem_singleton.mp hi]
      trivial

end Parked

/-! ## Steps and runs -/

/-- The subscription, and what is left to do. -/
structure ParkedIn (x : QString) (n : ℕ) (r : Registry) (k : List Instr) : Prop where
  parked : Parked x n r
  stack : ∀ i ∈ k, i.Parks x n

theorem ParkedIn.append {x : QString} {n : ℕ} {r : Registry} {k k' : List Instr}
    (h : Parked x n r ∧ ∀ i ∈ k', i.Parks x n) (hk : ∀ i ∈ k, i.Parks x n) :
    ParkedIn x n r (k' ++ k) where
  parked := h.1
  stack i hi := (List.mem_append.mp hi).elim (h.2 i) (hk i)

theorem parks_userCode {x : QString} {n : ℕ} {e : Entry} {i : Instr} (h : i ∈ userCode e) :
    i.Parks x n := by
  unfold userCode at h
  split at h
  · rw [List.mem_singleton.mp h]
    trivial
  · cases h

theorem parked_exec {async : Bool} {x : QString} {n : ℕ} {r : Registry} {i : Instr}
    {k : List Instr} {o : Oracle} {r' : Registry × List Instr} (h : ParkedIn x n r (i :: k))
    (hok : ∀ a, i.arming async r o = some a → ¬ a.Overrides x n)
    (hexec : exec async r i o = some r') : ParkedIn x n r'.1 (r'.2 ++ k) := by
  have hrest : ∀ j ∈ k, j.Parks x n := fun j hj => h.stack j (List.mem_cons_of_mem i hj)
  have hsame : Parked x n r := h.parked
  refine .append ?_ hrest
  cases i with
  | callback =>
    cases hexec
    exact ⟨hsame, by simp⟩
  | arm handle e =>
    have hid := h.stack _ List.mem_cons_self
    cases hprobe : e.readinessOnly with
    | true =>
      rw [exec_arm_probe r handle o hprobe] at hexec
      cases hexec
      exact ⟨hsame.of_same rfl rfl rfl rfl rfl, fun i => parks_userCode⟩
    | false =>
      rw [exec_arm_real r handle o hprobe] at hexec
      cases hexec
      refine ⟨hsame.of_same rfl rfl rfl rfl rfl, fun i hi => ?_⟩
      rcases List.mem_append.mp hi with hi | hi
      · exact parks_userCode hi
      · rw [List.mem_singleton.mp hi]
        exact fun heq => absurd heq hid
  | pushArmed e =>
    cases hexec
    refine ⟨⟨hsame.manual, hsame.issued, hsame.entries, fun e' he => ?_, hsame.held⟩, by simp⟩
    rcases List.mem_append.mp he with he | he
    · exact hsame.armed e' he
    · rw [List.mem_singleton.mp he]
      exact h.stack _ List.mem_cons_self
  | abandon e =>
    rw [exec_abandon] at hexec
    cases hexec
    exact ⟨hsame.of_same rfl rfl rfl rfl rfl, fun i => parks_userCode⟩
  | report name event reason =>
    cases hexec
    exact hsame.report name event reason
  | ensureTimer =>
    cases hexec
    rw [Registry.ensureTimer_eq]
    exact ⟨hsame.of_same rfl rfl rfl rfl rfl, by simp⟩
  | beginAcquire name =>
    cases hexec
    exact hsame.beginAcquire async name o hok
  | checkLiveness =>
    simp only [exec] at hexec
    split_ifs at hexec
    · cases hexec
      exact ⟨hsame, by simp⟩
    · cases hexec
      refine ⟨hsame, fun j hj => ?_⟩
      simp only [List.mem_append, List.mem_map, List.mem_singleton] at hj
      rcases hj with ⟨name, -, rfl⟩ | rfl <;> trivial
  | drop name =>
    cases hexec
    refine ⟨hsame.dropHandle name, fun j hj => ?_⟩
    exact j.parks_of_entry (entry_dropHandle hj)
  | chase name =>
    simp only [exec] at hexec
    split_ifs at hexec with hpending
    · cases hexec
      exact hsame.beginAcquire async name o fun a ha => hok a ((if_pos hpending).trans ha)
    · cases hexec
      exact ⟨hsame, by simp⟩
  | chaseWanted =>
    simp only [exec, Option.ite_none_right_eq_some, Option.some.injEq] at hexec
    obtain ⟨-, rfl⟩ := hexec
    refine ⟨hsame, fun j hj => ?_⟩
    obtain ⟨name, -, rfl⟩ := List.mem_map.mp hj
    trivial
  | finishTick =>
    cases hexec
    rw [Registry.rescheduleOrStop_eq]
    exact ⟨(hsame.reportStillPending o.elapsed).of_same rfl rfl rfl rfl rfl, by simp⟩

theorem parked_call {async : Bool} {x : QString} {n : ℕ} {r : Registry} {op : Op}
    {k : List Instr} {o : Oracle} {r' : Registry × List Instr} (h : ParkedIn x n r k)
    (hstays : StaysManual x (.call op o))
    (hok : ∀ a, op.arming async r o = some a → ¬ a.Overrides x n)
    (hcall : call async r op o = some r') : ParkedIn x n r'.1 (r'.2 ++ k) := by
  have hsame : Parked x n r := h.parked
  have hadd : ∀ e : Entry, (∀ a, r.addArming async e o = some a → ¬ a.Overrides x n) →
      Parked x n (r.add async e o).1 ∧ ∀ i ∈ (r.add async e o).2, i.Parks x n := by
    intro e hnot
    have hpush := hsame.push e
    rcases add_arming async r e o with ⟨a, ha, hr⟩ | ⟨-, _, _, _, hr⟩
    · rw [hr]
      exact (hpush.liveOrAcquire ha).arm (hnot a ha)
    · rw [hr]
      exact ⟨hpush.of_same rfl rfl rfl rfl rfl, by simp⟩
  refine .append ?_ h.stack
  cases op with
  | onEventWhenAvailable objectName eventName callback onArmed =>
    simp only [call] at hcall
    split_ifs at hcall with hname
    · cases hcall
      exact ⟨hsame, fun i hi => i.parks_of_entry (entry_refuse hi)⟩
    · cases hcall
      exact hadd _ fun a ha => hok a ((if_neg hname).trans ha)
  | whenObjectAvailable objectName onReady =>
    simp only [call] at hcall
    split_ifs at hcall with hname
    · cases hcall
      exact ⟨hsame, fun i hi => i.parks_of_entry (entry_refuse hi)⟩
    · cases hcall
      exact hadd _ fun a ha => hok a ((if_neg hname).trans ha)
  | cancelEventSubscription m =>
    cases hcall
    exact ⟨hsame.cancel m, by simp⟩
  | setSubscriptionStatusCallback objectName installed =>
    simp only [call] at hcall
    split_ifs at hcall
    · cases hcall
      exact ⟨hsame, by simp⟩
    · cases hcall
      have htarget : Parked x n (r.setTarget objectName
          { r.targets objectName with onStatus := installed }) :=
        hsame.setTarget fun hname => hname ▸ hsame.restart
      simp only [Registry.setStatusCallback]
      split_ifs
      · exact htarget.report objectName _ _
      · exact htarget.report objectName _ _
      · exact ⟨htarget, by simp⟩
  | setSubscriptionRestartPolicy objectName policy =>
    simp only [call] at hcall
    split_ifs at hcall
    · cases hcall
      exact ⟨hsame, by simp⟩
    · cases hcall
      exact ⟨hsame.setTarget hstays, by simp⟩
  | rearmSubscriptions objectName =>
    simp only [call] at hcall
    split_ifs at hcall with hname
    · cases hcall
      exact ⟨hsame, by simp⟩
    · cases hcall
      have hrevive := hsame.reviveHeld hstays hname
      rcases rearm_arming async r objectName o with
        ⟨-, -, hr⟩ | ⟨a, ha, hr⟩ | ⟨-, _, _, hr⟩
      · rw [hr]
        exact ⟨hrevive, by simp⟩
      · rw [hr]
        have hlive := (Option.ite_none_right_eq_some.mp ha).2
        obtain ⟨harm, hk⟩ := (hrevive.liveOrAcquire hlive).arm (hok a ((if_neg hname).trans ha))
        refine ⟨harm, fun i hi => ?_⟩
        rcases List.mem_append.mp hi with hi | hi
        · exact hk i hi
        · rw [List.mem_singleton.mp hi]
          trivial
      · rw [hr]
        exact ⟨hrevive.of_same rfl rfl rfl rfl rfl, by simp [Instr.Parks]⟩
  | reconnect =>
    simp only [call, Registry.reconnected, Option.ite_none_right_eq_some, Option.some.injEq] at hcall
    obtain ⟨-, rfl⟩ := hcall
    have hflight : Parked x n { r with inFlight := [] } := hsame.of_same rfl rfl rfl rfl rfl
    refine ⟨hflight.reviveAll, fun i hi => ?_⟩
    simp only [List.mem_append, List.mem_map, List.mem_singleton] at hi
    rcases hi with (⟨name, -, rfl⟩ | ⟨name, -, rfl⟩) | rfl <;> trivial
  | tick =>
    cases hcall
    exact ⟨hsame, by simp [Instr.Parks]⟩
  | acquired objectName ok =>
    simp only [call, Option.ite_none_right_eq_some, Option.some.injEq] at hcall
    obtain ⟨-, rfl⟩ := hcall
    simp only [Registry.acquired]
    split_ifs with hhandle
    · have hdone : Parked x n (r.acquiredArming objectName).registry :=
        hsame.of_same rfl rfl rfl rfl rfl
      exact hdone.arm (hok _ (if_pos hhandle))
    · have hdone : Parked x n { r with
          inFlight := r.inFlight.erase objectName
          acquiring := Function.update r.acquiring objectName false } :=
        hsame.of_same rfl rfl rfl rfl rfl
      exact hdone.abandon objectName
  | setValid handle valid =>
    cases hcall
    exact ⟨hsame.of_same rfl rfl rfl rfl rfl, by simp⟩

/-- Two instructions that have the same entry in hand are one. -/
theorem eq_of_entry {k : List Instr} (h : ((inHand k).map Entry.id).Nodup) {i j : Instr}
    {e e' : Entry} (hi : i ∈ k) (hj : j ∈ k) (he : i.entry = some e) (he' : j.entry = some e')
    (hid : e.id = e'.id) : i = j := by
  induction k with
  | nil => cases hi
  | cons l k ih =>
    have hin : ∀ {j : Instr} {e : Entry}, j ∈ k → j.entry = some e → e.id ∈ (inHand k).map Entry.id :=
      fun hj he => List.mem_map_of_mem (List.mem_filterMap.mpr ⟨_, hj, he⟩)
    rw [inHand_cons, List.map_append] at h
    obtain ⟨-, hk, hdisjoint⟩ := List.nodup_append'.mp h
    rcases List.mem_cons.mp hi with rfl | hik <;> rcases List.mem_cons.mp hj with rfl | hjk
    · rfl
    · exact absurd (hin hjk he') (hdisjoint (by simp [he, hid]))
    · exact absurd (hin hik he) (hdisjoint (by simp [he', hid]))
    · exact ih hk hik hjk

/-- A subscription that has armed does not wait. -/
theorem parked_of_hasArmed {x : QString} {n : ℕ} {r : Registry} {k : List Instr}
    (hpart : Partitioned r k) (harmed : HasArmed x n r k) (hmanual : r.manual x = true) :
    ParkedIn x n r k := by
  have hnodup : (r.entries.map Entry.id ++ r.armed.map Entry.id ++ r.held.map Entry.id ++
      (inHand k).map Entry.id).Nodup := by
    simpa [Partitioned, ids, place, ticketsOf, Function.comp_def, Entry.ticket] using hpart.nodup
  simp only [List.nodup_append', List.disjoint_append_left] at hnodup
  obtain ⟨⟨⟨-, harmedNodup, hea⟩, -, heh, hah⟩, hhand, ⟨hek, hak⟩, hhk⟩ := hnodup
  have hmem : ∀ {es : List Entry} {e : Entry}, e ∈ es → e.id = n → n ∈ es.map Entry.id :=
    fun he hid => hid ▸ List.mem_map_of_mem he
  have hin : ∀ {i : Instr} {e : Entry}, i ∈ k → i.entry = some e → e.id = n →
      n ∈ (inHand k).map Entry.id :=
    fun hi he hid => hmem (List.mem_filterMap.mpr ⟨_, hi, he⟩) hid
  rcases harmed with ⟨e₀, he₀, hid₀, hname₀⟩ | ⟨e₀, he₀, hid₀, hname₀⟩
  · have hn := hmem he₀ hid₀
    refine ⟨⟨hmanual, Partition.lt hpart ?_, fun e he hid => hea (hmem he hid) hn,
      fun e he hid => ?_, fun e he hid => absurd (hmem he hid) (hah hn)⟩, fun i hi => ?_⟩
    · simp only [ids, place, Multiset.map_add, Multiset.mem_add]
      exact .inl (.inl (.inr (by simpa [ticketsOf, Entry.ticket] using ⟨e₀, he₀, hid₀⟩)))
    · rw [List.inj_on_of_nodup_map harmedNodup he he₀ (hid.trans hid₀.symm)]
      exact hname₀
    · cases i with
      | arm handle e => exact fun hid => hak hn (hin hi rfl hid)
      | pushArmed e => exact fun hid => absurd (hin hi rfl hid) (hak hn)
      | _ => trivial
  · have hn := hin he₀ rfl hid₀
    refine ⟨⟨hmanual, Partition.lt hpart ?_, fun e he hid => hek (hmem he hid) hn,
      fun e he hid => absurd hn (hak (hmem he hid)),
      fun e he hid => absurd hn (hhk (hmem he hid))⟩, fun i hi => ?_⟩
    · simp only [ids, place, Multiset.map_add, Multiset.mem_add]
      obtain ⟨e, he, hid⟩ := List.mem_map.mp hn
      exact .inr (by simpa [ticketsOf, Entry.ticket] using ⟨e, he, hid⟩)
    · cases i with
      | arm handle e =>
        intro hid
        cases eq_of_entry hhand hi he₀ rfl rfl (hid.trans hid₀.symm)
      | pushArmed e =>
        intro hid
        cases eq_of_entry hhand hi he₀ rfl rfl (hid.trans hid₀.symm)
        exact hname₀
      | _ => trivial

/-- One step of a run that stays Manual. -/
theorem parked_next {async : Bool} {x : QString} {n : ℕ} {c c' : Program.Config Registry Instr}
    {a : Program.Action Op Oracle} (h : ParkedIn x n c.data c.stack) (hstays : StaysManual x a)
    (hok : ¬ Overrides x n async c a) (hstep : (program async).next c a = some c') :
    ParkedIn x n c'.data c'.stack ∧
      ∃ es, c'.data.log = c.data.log ++ es ∧ ∀ name handle, .attached n name handle ∉ es := by
  cases a with
  | call op o =>
    obtain ⟨r, hr, rfl⟩ := Program.next_call hstep
    obtain ⟨es, hlog, hnone⟩ := call_attaches hr
    exact ⟨parked_call h hstays (fun a ha hover => hok ⟨a, ha, hover⟩) hr, es, hlog, hnone n⟩
  | step o =>
    obtain ⟨i, k, r, hstack, hr, rfl⟩ := Program.next_step hstep
    rw [hstack] at h
    have harming : ∀ a, i.arming async c.data o = some a → arming async c (.step o) = some a := by
      intro a ha
      simp [arming, hstack, ha]
    obtain ⟨es, hlog, hattaches⟩ := exec_attaches hr
    refine ⟨parked_exec h (fun a ha hover => hok ⟨a, harming a ha, hover⟩) hr, es, hlog, ?_⟩
    intro name handle hin
    obtain ⟨e, rfl, hid, -⟩ := hattaches n name handle hin
    exact h.stack _ List.mem_cons_self hid

/-- **The Manual policy holds when no dead handle is replaced under it.**  A subscription that has
armed loses its handle while the policy of its object is Manual; in every run from there that
neither rearms the object nor changes the policy, and in which no step arms the object against
a new handle while the subscription is still on the dead one, it is attached to nothing. -/
theorem manual_not_rearmed {async : Bool} {x : QString} {n : ℕ}
    {c₀ c₁ c : Program.Config Registry Instr} {op : Op} {o : Oracle}
    {as : List (Program.Action Op Oracle)} (h : (program async).system.Reachable c₀)
    (harmed : HasArmed x n c₀.data c₀.stack) (hmanual : c₀.data.manual x = true)
    (hloss : Loses x c₀.data op) (hstep : (program async).system.step c₀ (.call op o) c₁)
    (hrun : ((program async).system.restrict fun c a =>
      StaysManual x a ∧ ¬ Overrides x n async c a).Run c₁ as c) :
    ∃ es, c.data.log = c₁.data.log ++ es ∧ ∀ name handle, .attached n name handle ∉ es := by
  have hstart : ParkedIn x n c₀.data c₀.stack :=
    parked_of_hasArmed (partitioned_of_reachable h) harmed hmanual
  have hlost : ParkedIn x n c₁.data c₁.stack := by
    have hstays : StaysManual x (.call op o) := by
      rcases hloss with ⟨handle, -, rfl⟩ | rfl <;> trivial
    have hok : ¬ Overrides x n async c₀ (.call op o) := by
      rintro ⟨a, ha, -⟩
      rcases hloss with ⟨handle, -, rfl⟩ | rfl <;> cases ha
    exact (parked_next hstart hstays hok hstep).1
  refine (hrun.invariant (I := fun c => ParkedIn x n c.data c.stack ∧
    ∃ es, c.data.log = c₁.data.log ++ es ∧ ∀ name handle, .attached n name handle ∉ es) ?_
    ⟨hlost, [], (List.append_nil _).symm, by simp⟩).2
  rintro s a s' ⟨hs, es, hlog, hnone⟩ ⟨hnext, hstays, hok⟩
  obtain ⟨hs', es', hlog', hnone'⟩ := parked_next hs hstays hok hnext
  refine ⟨hs', es ++ es', by rw [hlog', hlog, List.append_assoc], fun name handle hin => ?_⟩
  exact (List.mem_append.mp hin).elim (hnone name handle) (hnone' name handle)

def armManually : List (Program.Action Op Oracle) :=
  [.call (.setSubscriptionRestartPolicy (qstr "wallet") .manual) {},
   .call (.onEventWhenAvailable (qstr "wallet") [] 7 none) { now := true },
   .step {}, .step {}, .step {}, .step {}]

/-- A subscription to a wallet, armed under the Manual policy. -/
def armedManual : Program.Config Registry Instr :=
  (TransitionSystem.exec (program true).next ⟨{}, []⟩ armManually).get rfl

theorem armedManual_reachable : (program true).system.Reachable armedManual := by
  have hinit : (program true).system.Reachable ⟨{}, []⟩ := .init rfl
  have hexec : TransitionSystem.exec (program true).next ⟨{}, []⟩ armManually = some armedManual :=
    rfl
  exact hinit.of_exec hexec

/-- Its connection is rebuilt. -/
def reconnectedManual : Program.Config Registry Instr :=
  ((program true).next armedManual (.call .reconnect { order := [qstr "wallet"] })).get rfl

/-- After that another subscription arms against a new handle; the first does not. -/
theorem manual_not_rearmed_reconnected : ∃ c : Program.Config Registry Instr,
    .attached 2 (qstr "wallet") 1 ∈ c.data.log ∧
    ∃ es, c.data.log = reconnectedManual.data.log ++ es ∧
      ∀ name handle, .attached 1 name handle ∉ es := by
  have hr₀ : ((program true).system.restrict fun c a => StaysManual (qstr "wallet") a ∧
      ¬ Overrides (qstr "wallet") 1 true c a).Run reconnectedManual [] _ := .nil _
  have hr₁ := hr₀.next (.step {}) ⟨trivial, by rintro ⟨a, ha, -⟩; cases ha⟩ rfl
  have hr₂ := hr₁.next (.step {}) ⟨trivial, by rintro ⟨a, ha, -⟩; cases ha⟩ rfl
  have hr₃ := hr₂.next (.call (.onEventWhenAvailable (qstr "wallet") [] 8 none) { now := true })
    ⟨trivial, by
      rintro ⟨a, ha, hover⟩
      cases ha
      obtain ⟨e, he, -⟩ := hover.armed
      cases he⟩ rfl
  have hr₄ := hr₃.next (.step {}) ⟨trivial, by rintro ⟨a, ha, -⟩; cases ha⟩ rfl
  have hloss : (program true).system.step armedManual
      (.call .reconnect { order := [qstr "wallet"] }) reconnectedManual := rfl
  have hnot := manual_not_rearmed armedManual_reachable
    (.inl ⟨_, List.mem_cons_self, rfl, rfl⟩) rfl (.inr rfl) hloss hr₄
  exact ⟨_, by decide, hnot⟩

/-- Its handle stops being valid. -/
def lostManual : Program.Config Registry Instr :=
  ((program true).next armedManual (.call (.setValid 0 false) {})).get rfl

/-- Before the tick another subscription arms: the policy is Manual and nobody rearms, and the
first subscription is attached to the new handle. -/
theorem manual_rearmed : ∃ c as, (program true).system.Reachable armedManual ∧
    HasArmed (qstr "wallet") 1 armedManual.data armedManual.stack ∧
    armedManual.data.manual (qstr "wallet") = true ∧
    Loses (qstr "wallet") armedManual.data (.setValid 0 false) ∧
    (program true).system.step armedManual (.call (.setValid 0 false) {}) lostManual ∧
    ((program true).system.restrict fun _ a => StaysManual (qstr "wallet") a).Run lostManual as c ∧
    ¬ ∃ es, c.data.log = lostManual.data.log ++ es ∧
      ∀ name handle, .attached 1 name handle ∉ es := by
  have hr₀ : ((program true).system.restrict fun _ a => StaysManual (qstr "wallet") a).Run
      lostManual [] _ := .nil _
  have hr₁ := hr₀.next (.call (.onEventWhenAvailable (qstr "wallet") [] 8 none) { now := true })
    trivial rfl
  have hr₂ := hr₁.next (.step {}) trivial rfl
  have hr₃ := hr₂.next (.step {}) trivial rfl
  have hr₄ := hr₃.next (.step {}) trivial rfl
  refine ⟨_, _, armedManual_reachable, .inl ⟨_, List.mem_cons_self, rfl, rfl⟩, rfl,
    .inl ⟨0, rfl, rfl⟩, rfl, hr₄, ?_⟩
  rintro ⟨es, hlog, hnone⟩
  have hin : Event.attached 1 (qstr "wallet") 1 ∈ lostManual.data.log ++ es := by
    rw [← hlog]
    decide
  have hbefore : Event.attached 1 (qstr "wallet") 1 ∉ lostManual.data.log := by decide
  exact hnone _ _ ((List.mem_append.mp hin).resolve_left hbefore)

end LogosProtocol.PendingSubscriptions
