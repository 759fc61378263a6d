import Mathlib.Logic.Relation
import Mathlib.Data.List.Basic

/-!
# Labelled transition systems and their runs

A `TransitionSystem` is a set of initial states and a step relation labelled by
actions.  Concurrency is interleaving: each atomic section of the program is one
action, and a run is any finite sequence of enabled actions.

An invariant is proved once for the initial states and once for a step; the
induction over runs is done here.  `restrict` keeps only the steps that meet a
side condition, so a statement about the runs whose steps all meet it is again a
statement about reachable states.

## Main definitions

* `TransitionSystem σ α` — initial states and labelled steps.
* `TransitionSystem.Run` — finite runs with their action sequence.
* `TransitionSystem.Reachable` — states at the end of a run from an initial state.
* `TransitionSystem.restrict` — the system with a side condition on its steps.
* `TransitionSystem.remember` — the system with a history variable.
* `TransitionSystem.seenAlong` — what is seen of the steps of a replay.
-/

namespace LogosProtocol

universe u v

/-- Initial states and a step relation labelled by actions. -/
structure TransitionSystem (σ : Type u) (α : Type v) where
  /-- The states a run may start in. -/
  init : σ → Prop
  /-- `step s a s'`: action `a` is enabled in `s` and may lead to `s'`. -/
  step : σ → α → σ → Prop

namespace TransitionSystem
variable {σ : Type u} {α : Type v} {T : TransitionSystem σ α}

/-- A finite run, with the actions taken in order. -/
inductive Run (T : TransitionSystem σ α) : σ → List α → σ → Prop
  | nil (s : σ) : Run T s [] s
  | snoc {s t u : σ} {as : List α} {a : α} :
      Run T s as t → T.step t a u → Run T s (as ++ [a]) u

/-- The states reached from an initial state by some run. -/
def Reachable (T : TransitionSystem σ α) (s : σ) : Prop :=
  ∃ s₀ as, T.init s₀ ∧ Run T s₀ as s

theorem Reachable.init {s : σ} (h : T.init s) : T.Reachable s :=
  ⟨s, [], h, .nil s⟩

theorem Reachable.step {s s' : σ} {a : α} (h : T.Reachable s) (hs : T.step s a s') :
    T.Reachable s' := by
  obtain ⟨s₀, as, h₀, hr⟩ := h
  exact ⟨s₀, as ++ [a], h₀, hr.snoc hs⟩

/-- **The invariant rule.** What holds initially and is kept by every step holds of
every reachable state. -/
theorem Reachable.invariant {I : σ → Prop} (h₀ : ∀ s, T.init s → I s)
    (hstep : ∀ s a s', I s → T.step s a s' → I s') {s : σ} (h : T.Reachable s) : I s := by
  obtain ⟨s₀, as, hi, hr⟩ := h
  induction hr with
  | nil => exact h₀ _ hi
  | snoc _ hs ih => exact hstep _ _ _ ih hs

/-- What a further action of a run adds to what its actions say. -/
theorem filterMap_snoc {β : Type*} (f : α → Option β) (as : List α) (a : α) :
    (as ++ [a]).filterMap f = as.filterMap f ++ (f a).toList := by
  rw [List.filterMap_append, List.filterMap_cons]
  cases f a <;> rfl

theorem Run.single {s s' : σ} {a : α} (h : T.step s a s') : Run T s [a] s' := .snoc (.nil s) h

theorem Run.trans {s t u : σ} {as bs : List α} (h : Run T s as t) (h' : Run T t bs u) :
    Run T s (as ++ bs) u := by
  induction h' with
  | nil => simpa using h
  | snoc _ hs ih =>
    rw [← List.append_assoc]
    exact ih.snoc hs

/-- A run is empty or starts with a step. -/
theorem Run.head {s s' : σ} {as : List α} (h : Run T s as s') :
    (as = [] ∧ s = s') ∨ ∃ a bs t, as = a :: bs ∧ T.step s a t ∧ Run T t bs s' := by
  induction h with
  | nil => exact .inl ⟨rfl, rfl⟩
  | snoc _ hs ih =>
    rcases ih with ⟨rfl, rfl⟩ | ⟨a, bs, t, rfl, hfirst, hrest⟩
    · exact .inr ⟨_, [], _, rfl, hs, .nil _⟩
    · exact .inr ⟨a, bs ++ [_], t, rfl, hfirst, hrest.snoc hs⟩

/-- An invariant is kept along a run from any state that has it. -/
theorem Run.invariant {I : σ → Prop} (hstep : ∀ s a s', I s → T.step s a s' → I s')
    {s s' : σ} {as : List α} (h : Run T s as s') (hI : I s) : I s' := by
  induction h with
  | nil => exact hI
  | snoc _ hs ih => exact hstep _ _ _ ih hs

/-- **The variant rule.** Where every step lowers a measure, no run is longer than the measure of
the state it starts in. -/
theorem Run.length_le {μ : σ → ℕ} (hstep : ∀ s a s', T.step s a s' → μ s' < μ s) {s s' : σ}
    {as : List α} (h : Run T s as s') : as.length ≤ μ s := by
  have hspent : as.length + μ s' ≤ μ s := by
    induction h with
    | nil => simp
    | snoc _ hs ih =>
      have hlt := hstep _ _ _ hs
      rw [List.length_append, List.length_singleton]
      omega
  omega

/-- The system whose steps additionally meet `C`. -/
def restrict (T : TransitionSystem σ α) (C : σ → α → Prop) : TransitionSystem σ α where
  init := T.init
  step s a s' := T.step s a s' ∧ C s a

theorem Reachable.of_restrict {C : σ → α → Prop} {s : σ} (h : (T.restrict C).Reachable s) :
    T.Reachable s :=
  h.invariant (fun _ hinit => .init hinit) fun _ _ _ hr hstep => hr.step hstep.1

/-! ## History variables -/

/-- The system that remembers beside its state whether a step of this kind has been taken. -/
def remember (T : TransitionSystem σ α) (kind : σ → α → Bool) : TransitionSystem (σ × Bool) α where
  init w := T.init w.1 ∧ w.2 = false
  step w a w' := T.step w.1 a w'.1 ∧ w'.2 = (w.2 || kind w.1 a)

section remember
variable {kind : σ → α → Bool}

/-- What is remembered gets in the way of no step. -/
theorem Run.remember {s s' : σ} {as : List α} (h : Run T s as s') (past : Bool) :
    ∃ past', Run (T.remember kind) (s, past) as (s', past') := by
  induction h with
  | nil => exact ⟨past, .nil _⟩
  | snoc _ hs ih =>
    obtain ⟨past', hrun⟩ := ih
    exact ⟨_, hrun.snoc ⟨hs, rfl⟩⟩

end remember

/-! ## Systems given by an executable step function -/

/-- The system that starts in `s₀` and steps by a partial function. -/
def ofNext (s₀ : σ) (next : σ → α → Option σ) : TransitionSystem σ α where
  init s := s = s₀
  step s a s' := next s a = some s'

/-- Replay a list of actions. -/
def exec (next : σ → α → Option σ) : σ → List α → Option σ
  | s, [] => some s
  | s, a :: as => (next s a).bind fun s' => exec next s' as

/-- A replay continues a run. -/
theorem Run.of_exec {s₀ : σ} {next : σ → α → Option σ} {s t u : σ} {as bs : List α}
    (h : Run (ofNext s₀ next) s as t) (he : exec next t bs = some u) :
    Run (ofNext s₀ next) s (as ++ bs) u := by
  induction bs generalizing as t with
  | nil =>
    obtain rfl : t = u := by simpa [exec] using he
    simpa using h
  | cons b bs ih =>
    obtain ⟨t', ht, he⟩ := Option.bind_eq_some_iff.mp he
    have hrest := ih (h.snoc ht) he
    rwa [List.append_assoc, List.singleton_append] at hrest

/-- A replay is a run. -/
theorem run_of_exec {s₀ : σ} {next : σ → α → Option σ} {s s' : σ} {as : List α}
    (h : exec next s as = some s') : Run (ofNext s₀ next) s as s' := by
  simpa using Run.of_exec (.nil s) h

/-- A run is replayed to where it ends. -/
theorem Run.exec_eq {s₀ : σ} {next : σ → α → Option σ} {s s' : σ} {as : List α}
    (h : Run (ofNext s₀ next) s as s') : exec next s as = some s' := by
  have happend : ∀ as bs s, exec next s (as ++ bs) = (exec next s as).bind (exec next · bs) := by
    intro as bs s
    induction as generalizing s with
    | nil => rfl
    | cons a as ih =>
      cases hs : next s a with
      | none => simp [exec, hs]
      | some t => simp [exec, hs, ih]
  induction h with
  | nil => rfl
  | @snoc t u as a _ hs ih =>
    have hs : next t a = some u := hs
    rw [happend, ih, Option.bind_some, exec, hs]
    rfl

/-- A state that a replay ends in is reachable. -/
theorem Reachable.of_exec {s₀ : σ} {next : σ → α → Option σ} {s s' : σ} {as : List α}
    (h : (ofNext s₀ next).Reachable s) (he : exec next s as = some s') :
    (ofNext s₀ next).Reachable s' := by
  obtain ⟨t, bs, ht, hr⟩ := h
  exact ⟨t, bs ++ as, ht, hr.of_exec he⟩

/-- What is seen of the steps of a replay. -/
def seenAlong {β : Type*} (next : σ → α → Option σ) (seen : σ → α → σ → List β) :
    σ → List α → List β
  | _, [] => []
  | s, a :: as =>
    match next s a with
    | none => []
    | some s' => seen s a s' ++ seenAlong next seen s' as

/-- What is seen of a further step comes last. -/
theorem Run.seenAlong_snoc {β : Type*} {s₀ : σ} {next : σ → α → Option σ} {s t u : σ}
    {as : List α} {a : α} (seen : σ → α → σ → List β) (h : Run (ofNext s₀ next) s as t)
    (hs : next t a = some u) :
    seenAlong next seen s (as ++ [a]) = seenAlong next seen s as ++ seen t a u := by
  have hexec : exec next s as = some t := h.exec_eq
  clear h
  induction as generalizing s with
  | nil =>
    obtain rfl : s = t := by simpa [exec] using hexec
    simp [seenAlong, hs]
  | cons b bs ih =>
    obtain ⟨s', hs', hexec⟩ := Option.bind_eq_some_iff.mp hexec
    simp only [List.cons_append, seenAlong, hs', ih hexec, List.append_assoc]

/-- A run goes on with a step of an executable system that meets a side condition. -/
theorem Run.next {C : σ → α → Prop} {s₀ : σ} {next : σ → α → Option σ} {s t u : σ} {as : List α}
    (h : Run ((ofNext s₀ next).restrict C) s as t) (a : α) (hC : C t a)
    (hs : next t a = some u) : Run ((ofNext s₀ next).restrict C) s (as ++ [a]) u :=
  h.snoc ⟨hs, hC⟩

/-- One step of an executable system that meets a side condition. -/
theorem Reachable.next {C : σ → α → Prop} {s₀ : σ} {next : σ → α → Option σ} {s s' : σ}
    (h : ((ofNext s₀ next).restrict C).Reachable s) (a : α) (hC : C s a)
    (hs : next s a = some s') : ((ofNext s₀ next).restrict C).Reachable s' :=
  h.step ⟨hs, hC⟩

end TransitionSystem

end LogosProtocol
