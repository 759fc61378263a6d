import LogosProtocol.Consumer.Registry

/-!
# `rearmSubscriptions`: other objects, and failure

`rearm` moves the held entries of other objects into a local vector while it looks for its own,
and puts that vector back only if it found one.  So it keeps to its object when something is
held for it; when nothing is, it returns `false` and every held entry is left moved from.

## Main definitions

* `SameApart` — the three vectors agree on the entries of other objects.
* `Framed` — other objects are left alone, and so is everything when the answer is `false`.
-/

namespace LogosProtocol.PendingSubscriptions

/-- The entries of other objects, in their vectors, are the same. -/
structure SameApart (name : QString) (r r' : Registry) : Prop where
  entries : (r'.entries.filter fun e => e.objectName ≠ name) =
    r.entries.filter fun e => e.objectName ≠ name
  armed : (r'.armed.filter fun e => e.objectName ≠ name) =
    r.armed.filter fun e => e.objectName ≠ name
  held : (r'.held.filter fun e => e.objectName ≠ name) =
    r.held.filter fun e => e.objectName ≠ name

namespace SameApart
variable {name : QString} {r r' r'' : Registry}

theorem refl (name : QString) (r : Registry) : SameApart name r r := ⟨rfl, rfl, rfl⟩

theorem trans (h : SameApart name r r') (h' : SameApart name r' r'') : SameApart name r r'' :=
  ⟨h'.entries.trans h.entries, h'.armed.trans h.armed, h'.held.trans h.held⟩

end SameApart

/-- An instruction about one object that leaves the entries of others alone. -/
def Instr.About (name : QString) : Instr → Prop
  | .callback | .report .. | .ensureTimer => True
  | .arm _ e | .pushArmed e => e.objectName = name
  | _ => False

section frame
variable (name : QString) (r : Registry)

/-- Entries of the object itself, wherever they are added. -/
theorem filter_append_own {es es' : List Entry} (h : ∀ e ∈ es', e.objectName = name) :
    ((es ++ es').filter fun e => e.objectName ≠ name) = es.filter fun e => e.objectName ≠ name := by
  have hown : (es'.filter fun e => e.objectName ≠ name) = [] :=
    List.filter_eq_nil_iff.mpr fun e he => by simp [h e he]
  rw [List.filter_append, hown, List.append_nil]

theorem filter_filter_ne (es : List Entry) :
    ((es.filter fun e => e.objectName ≠ name).filter fun e => e.objectName ≠ name) =
      es.filter fun e => e.objectName ≠ name := by
  simp [List.filter_filter]

theorem objectName_of_mem_filter {es : List Entry} {e : Entry}
    (h : e ∈ es.filter fun e => e.objectName = name) : e.objectName = name := by
  simpa using (List.mem_filter.mp h).2

theorem sameApart_storeHandle (obj : ℕ) : SameApart name r (r.storeHandle name obj).1 := by
  rcases r.storeHandle_cases name obj with ⟨-, h⟩ | ⟨-, h⟩ | ⟨_, -, -, -, h⟩ | ⟨_, -, -, -, h⟩
  · rw [h]
    exact ⟨rfl, rfl, rfl⟩
  · rw [h]
    exact .refl name r
  · rw [h]
    exact ⟨rfl, rfl, rfl⟩
  · rw [h]
    exact ⟨filter_append_own name fun e => objectName_of_mem_filter name,
      filter_filter_ne name r.armed, rfl⟩

theorem sameApart_armAgainst (obj : ℕ) : SameApart name r (r.armAgainst name obj).1 := by
  obtain ⟨timer, harm⟩ := r.armAgainst_eq name obj
  rw [harm]
  exact (sameApart_storeHandle name r obj).trans ⟨filter_filter_ne name _, rfl, rfl⟩

/-- What is left of an arming is about the object. -/
theorem about_arming {es : List Entry} (handle : ℕ) (hes : ∀ e ∈ es, e.objectName = name) :
    ∀ i ∈ Registry.arming name handle es, i.About name := by
  intro i hi
  simp only [Registry.arming, List.mem_append, List.mem_map, List.mem_singleton] at hi
  rcases hi with (⟨e, he, rfl⟩ | hi) | rfl
  · exact hes e he
  · split at hi
    · rw [List.mem_singleton.mp hi]
      trivial
    · cases hi
  · trivial

theorem about_armAgainst (obj : ℕ) : ∀ i ∈ (r.armAgainst name obj).2, i.About name := by
  obtain ⟨timer, harm⟩ := r.armAgainst_eq name obj
  rw [harm]
  exact about_arming name _ fun e => objectName_of_mem_filter name

theorem sameApart_beginAcquire (async : Bool) (o : Oracle) :
    SameApart name r (r.beginAcquire async name o).1.1 ∧
      ∀ i ∈ (r.beginAcquire async name o).1.2, i.About name := by
  rcases r.beginAcquire_cases async name o with
    ⟨-, h⟩ | ⟨-, acquiring, inFlight, h⟩
  · rw [h]
    have hnew : SameApart name r r.newHandle.2 := ⟨rfl, rfl, rfl⟩
    exact ⟨hnew.trans (sameApart_armAgainst name _ _), about_armAgainst name _ _⟩
  · rw [h]
    exact ⟨⟨rfl, rfl, rfl⟩, by simp⟩

/-- The scan, when it finds something. -/
theorem sameApart_reviveHeld (h : ∃ e ∈ r.held, e.objectName = name) :
    SameApart name r (r.reviveHeld name).1 ∧ (r.reviveHeld name).2 = true := by
  obtain ⟨e, he, hname⟩ := h
  have hmatch : (r.held.filter fun e => e.objectName = name) ≠ [] :=
    List.ne_nil_of_mem (List.mem_filter.mpr ⟨he, by simpa using hname⟩)
  have hrevive : r.reviveHeld name = ({ r with
      entries := r.entries ++ (r.held.filter fun e => e.objectName = name).map
        fun e => { e with warnLevel := 0 }
      held := r.held.filter fun e => e.objectName ≠ name }, true) := if_neg hmatch
  rw [hrevive]
  refine ⟨⟨filter_append_own name fun e he => ?_, rfl, filter_filter_ne name r.held⟩, rfl⟩
  obtain ⟨e₀, he₀, rfl⟩ := List.mem_map.mp he
  have hname₀ : e₀.objectName = name := objectName_of_mem_filter name he₀
  exact hname₀

/-- What a scan leaves of entries that are moved from already. -/
theorem map_movedFrom_eq {es : List Entry} :
    es.map Entry.movedFrom = es ↔ ∀ e ∈ es, e.movedFrom = e := by
  conv_lhs => rhs; rw [← List.map_id es]
  exact List.map_inj_left

/-- The scan, when it does not. -/
theorem reviveHeld_of_none (h : ¬ ∃ e ∈ r.held, e.objectName = name) :
    r.reviveHeld name = ({ r with held := r.held.map Entry.movedFrom }, false) := by
  have hnone : (r.held.filter fun e => e.objectName = name) = [] :=
    List.filter_eq_nil_iff.mpr fun e he hname => h ⟨e, he, by simpa using hname⟩
  simp [Registry.reviveHeld, hnone]

end frame

/-- An instruction about an object leaves others alone, and so does what takes its place. -/
theorem about_exec {async : Bool} {name : QString} {r : Registry} {i : Instr} {o : Oracle}
    {r' : Registry × List Instr} (hi : i.About name) (hexec : exec async r i o = some r') :
    SameApart name r r'.1 ∧ ∀ j ∈ r'.2, j.About name := by
  cases i with
  | callback =>
    cases hexec
    exact ⟨.refl name r, by simp⟩
  | arm handle e =>
    simp only [exec] at hexec
    split_ifs at hexec <;> cases hexec
    · exact ⟨⟨rfl, rfl, rfl⟩, by simp [Instr.About]⟩
    · exact ⟨⟨rfl, rfl, rfl⟩, by simp⟩
    · exact ⟨⟨rfl, rfl, rfl⟩, by simpa [Instr.About] using hi⟩
    · exact ⟨⟨rfl, rfl, rfl⟩, by simpa [Instr.About] using hi⟩
  | pushArmed e =>
    cases hexec
    refine ⟨⟨rfl, filter_append_own name fun e' he' => ?_, rfl⟩, by simp⟩
    rw [List.mem_singleton.mp he']
    exact hi
  | report other event reason =>
    cases hexec
    simp only [Registry.report]
    split_ifs
    · exact ⟨⟨rfl, rfl, rfl⟩, by simp [Instr.About]⟩
    · exact ⟨.refl name r, by simp⟩
  | ensureTimer =>
    cases hexec
    rw [Registry.ensureTimer_eq]
    exact ⟨⟨rfl, rfl, rfl⟩, by simp⟩
  | _ => cases hi

/-! ## The call -/

/-- The call of that name, with what it returns. -/
def rearmSubscriptions (async : Bool) (r : Registry) (objectName : QString) (o : Oracle) :
    (Registry × List Instr) × Bool :=
  if objectName = [] then ((r, []), false) else r.rearm async objectName o

/-- What `rearmSubscriptions` does for an object, in a state of the registry. -/
structure Framed (async : Bool) (r : Registry) (name : QString) : Prop where
  /-- Other objects are left alone until the call is done. -/
  others : ∀ o c, (program async).Steps ⟨(rearmSubscriptions async r name o).1.1,
    (rearmSubscriptions async r name o).1.2⟩ c → SameApart name r c.data
  /-- An answer of `false` leaves everything alone. -/
  atomic : ∀ o, (rearmSubscriptions async r name o).2 = false →
    (rearmSubscriptions async r name o).1.1 = r
  /-- After it, what is held can still be revived. -/
  later : ∀ o, (rearmSubscriptions async r name o).2 = false →
    ∀ other o', other ≠ [] → ∀ e ∈ r.held, e.objectName = other →
      (rearmSubscriptions async (rearmSubscriptions async r name o).1.1 other o').2 = true ∧
      { e with warnLevel := 0 } ∈
        ((rearmSubscriptions async r name o).1.1.reviveHeld other).1.entries

section cases
variable {async : Bool} {r : Registry} {name : QString}

/-- The call, when something is held for its object. -/
theorem rearmSubscriptions_of_held (async : Bool)
    (h : ∃ e ∈ r.held, e.objectName = name) (hname : name ≠ [])
    (o : Oracle) : (rearmSubscriptions async r name o).2 = true ∧
      SameApart name r (rearmSubscriptions async r name o).1.1 ∧
      ∀ i ∈ (rearmSubscriptions async r name o).1.2, i.About name := by
  obtain ⟨hsame, htrue⟩ := sameApart_reviveHeld name r h
  simp only [rearmSubscriptions, if_neg hname, Registry.rearm]
  generalize r.reviveHeld name = revived at hsame htrue ⊢
  obtain ⟨r₁, found⟩ := revived
  obtain rfl : found = true := htrue
  have hmore : ∀ k : List Instr, (∀ i ∈ k, i.About name) →
      ∀ i ∈ k ++ [.ensureTimer], i.About name := by
    intro k hk i hi
    rcases List.mem_append.mp hi with hi | hi
    · exact hk i hi
    · rw [List.mem_singleton.mp hi]
      trivial
  dsimp only
  cases r₁.liveHandle name with
  | some obj =>
    exact ⟨rfl, hsame.trans (sameApart_armAgainst name r₁ obj),
      hmore _ (about_armAgainst name r₁ obj)⟩
  | none =>
    obtain ⟨hacquire, habout⟩ := sameApart_beginAcquire name r₁ async o
    exact ⟨rfl, hsame.trans hacquire, hmore _ habout⟩

/-- The call, when nothing is. -/
theorem rearmSubscriptions_of_none (h : ¬ ∃ e ∈ r.held, e.objectName = name) (hname : name ≠ [])
    (o : Oracle) : rearmSubscriptions async r name o =
      (({ r with held := r.held.map Entry.movedFrom }, []), false) := by
  simp only [rearmSubscriptions, if_neg hname, Registry.rearm, reviveHeld_of_none name r h]

/-- A call that changes nothing and has nothing left to do. -/
theorem framed_of_same (h : ∀ o, rearmSubscriptions async r name o = ((r, []), false)) :
    Framed async r name where
  others o c hsteps := by
    rw [h o] at hsteps
    refine hsteps.invariant (I := fun r' k => k = [] ∧ SameApart name r r') ?_ ⟨rfl, .refl name r⟩ |>.2
    rintro d i k o r' ⟨hk, -⟩
    cases hk
  atomic o _ := by rw [h o]
  later o _ other o' hother e he hname := by
    rw [h o]
    refine ⟨(rearmSubscriptions_of_held async ⟨e, he, hname⟩ hother o').1, ?_⟩
    have hmem : e ∈ r.held.filter fun e => e.objectName = other :=
      List.mem_filter.mpr ⟨he, by simpa using hname⟩
    simp only [Registry.reviveHeld, if_neg (List.ne_nil_of_mem hmem)]
    exact List.mem_append_right _ (List.mem_map_of_mem hmem)

end cases

/-- **`rearmSubscriptions` keeps to its object exactly when it is refused before the scan, when
something is held for the object, or when nothing is held that the scan would empty.** -/
theorem rearmSubscriptions_framed_iff (async : Bool) (r : Registry) (name : QString) :
    Framed async r name ↔
      name = [] ∨ (∃ e ∈ r.held, e.objectName = name) ∨ ∀ e ∈ r.held, e.movedFrom = e := by
  by_cases hname : name = []
  · refine ⟨fun _ => .inl hname, fun _ => framed_of_same fun o => ?_⟩
    simp [rearmSubscriptions, hname]
  by_cases hheld : ∃ e ∈ r.held, e.objectName = name
  · refine ⟨fun _ => .inr (.inl hheld), fun _ => ⟨fun o c hsteps => ?_, fun o hfalse => ?_,
      fun o hfalse => ?_⟩⟩
    · obtain ⟨-, hsame, habout⟩ := rearmSubscriptions_of_held async hheld hname o
      refine (hsteps.invariant
        (I := fun r' k => SameApart name r r' ∧ ∀ i ∈ k, i.About name) ?_ ⟨hsame, habout⟩).1
      rintro d i k o' r' ⟨hd, hk⟩ hexec
      obtain ⟨hstep, hnew⟩ := about_exec (hk i List.mem_cons_self) hexec
      refine ⟨hd.trans hstep, fun j hj => ?_⟩
      exact (List.mem_append.mp hj).elim (hnew j) fun hj => hk j (List.mem_cons_of_mem i hj)
    · rw [(rearmSubscriptions_of_held async hheld hname o).1] at hfalse
      cases hfalse
    · rw [(rearmSubscriptions_of_held async hheld hname o).1] at hfalse
      cases hfalse
  · constructor
    · intro h
      have hsame := h.atomic {} (by rw [rearmSubscriptions_of_none hheld hname])
      rw [rearmSubscriptions_of_none hheld hname] at hsame
      have hfixed : r.held.map Entry.movedFrom = r.held := congrArg Registry.held hsame
      exact .inr (.inr (map_movedFrom_eq.mp hfixed))
    · rintro (h | h | h)
      · exact absurd h hname
      · exact absurd h hheld
      · refine framed_of_same fun o => ?_
        rw [rearmSubscriptions_of_none hheld hname, map_movedFrom_eq.mpr h]

/-- One subscription is held for a wallet, and the clock is asked to rearm: the answer is `false`,
and the wallet's can no longer be revived. -/
theorem rearmSubscriptions_not_framed : ∃ c, (program true).system.Reachable c ∧ c.stack = [] ∧
    ¬ Framed true c.data (qstr "clock") ∧
    (rearmSubscriptions true c.data (qstr "wallet") {}).2 = true ∧
    (rearmSubscriptions true c.data (qstr "clock") {}).2 = false ∧
    (rearmSubscriptions true (rearmSubscriptions true c.data (qstr "clock") {}).1.1
      (qstr "wallet") {}).2 = false := by
  have h₀ : (program true).system.Reachable ⟨{}, []⟩ := .init rfl
  have hrun : TransitionSystem.exec (program true).next ⟨{}, []⟩
      [.call (.setSubscriptionRestartPolicy (qstr "wallet") .manual) {},
       .call (.onEventWhenAvailable (qstr "wallet") [] 7 none) { now := true },
       .step {}, .step {}, .step {}, .step {},
       .call .reconnect { order := [qstr "wallet"] },
       .step {}, .step {}] = some _ := rfl
  refine ⟨_, h₀.of_exec hrun, rfl, ?_, rfl, rfl, rfl⟩
  intro h
  have hsame := congrArg Registry.held (h.atomic {} rfl)
  cases hsame

end LogosProtocol.PendingSubscriptions
