import LogosProtocol.Lib.TransitionSystem

/-!
# Programs that run user callbacks

A program with callbacks is modelled by its data and a stack of what is left to do.  The top
instruction runs and leaves the instructions that replace it; some instructions stand for
user code, during which, as when nothing is left to do, the program may be called again.  A
call puts its own instructions in front, so it finishes before what it interrupted.

An instruction sees the data and not the rest of the stack.  An invariant of data and stack
is shown for one instruction in front of an arbitrary rest.

## Main definitions

* `Program σ ι α ω` — data, instructions, calls, and what the environment answers.
* `Program.next`, `Program.system` — the machine.
* `Program.flat` — the runs in which no callback calls back.
* `Program.Passes` — a run comes to an instruction and runs it.
-/

namespace LogosProtocol

universe u v w x

/-- Data `σ`, instructions `ι`, calls `α`, and answers `ω` of the environment. -/
structure Program (σ : Type u) (ι : Type v) (α : Type w) (ω : Type x) where
  init : σ
  /-- Run an instruction; the list is what takes its place. -/
  exec : σ → ι → ω → Option (σ × List ι)
  /-- Accept a call; the list is what it leaves to do. -/
  call : σ → α → ω → Option (σ × List ι)
  /-- The instruction is user code. -/
  isCallback : ι → Bool

namespace Program
variable {σ : Type u} {ι : Type v} {α : Type w} {ω : Type x} (P : Program σ ι α ω)

/-- The data and what is left to do, next first. -/
structure Config (σ : Type u) (ι : Type v) where
  data : σ
  stack : List ι := []

inductive Action (α : Type w) (ω : Type x)
  | call (a : α) (o : ω)
  | step (o : ω)

/-- What the environment answers to an action. -/
def Action.answer : Action α ω → ω
  | .call _ o | .step o => o

/-- Nothing is left to do, or user code is running. -/
def Accepts (k : List ι) : Prop := ∀ i ∈ k.head?, P.isCallback i = true

instance (k : List ι) : Decidable (P.Accepts k) :=
  match k with
  | [] => .isTrue nofun
  | i :: k =>
    if h : P.isCallback i = true then .isTrue fun j hj => by
      obtain rfl : i = j := Option.some.inj hj
      exact h
    else .isFalse fun hall => h (hall i rfl)

def next (c : Config σ ι) : Action α ω → Option (Config σ ι)
  | .call a o =>
    if P.Accepts c.stack then (P.call c.data a o).map fun r => ⟨r.1, r.2 ++ c.stack⟩ else none
  | .step o =>
    match c.stack with
    | [] => none
    | i :: k => (P.exec c.data i o).map fun r => ⟨r.1, r.2 ++ k⟩

/-- The machine, with nothing to do yet. -/
def system : TransitionSystem (Config σ ι) (Action α ω) :=
  TransitionSystem.ofNext ⟨P.init, []⟩ P.next

/-- What a configuration comes to with no further calls. -/
def Steps : Config σ ι → Config σ ι → Prop :=
  Relation.ReflTransGen fun c c' => ∃ o, P.next c (.step o) = some c'

/-- A call comes while user code is running. -/
def Nested (c : Config σ ι) : Action α ω → Prop
  | .call _ _ => c.stack ≠ []
  | .step _ => False

/-- The machine when no callback calls back. -/
def flat : TransitionSystem (Config σ ι) (Action α ω) :=
  P.system.restrict fun c a => ¬ Nested c a

variable {P}

theorem next_call {c c' : Config σ ι} {a : α} {o : ω} (h : P.next c (.call a o) = some c') :
    ∃ r, P.call c.data a o = some r ∧ c' = ⟨r.1, r.2 ++ c.stack⟩ := by
  simp only [next, Option.ite_none_right_eq_some, Option.map_eq_some_iff] at h
  obtain ⟨-, r, hr, rfl⟩ := h
  exact ⟨r, hr, rfl⟩

/-- A call that is accepted. -/
theorem next_of_call {c : Config σ ι} {a : α} {o : ω} {r : σ × List ι} (haccepts : P.Accepts c.stack)
    (hr : P.call c.data a o = some r) : P.next c (.call a o) = some ⟨r.1, r.2 ++ c.stack⟩ := by
  simp only [next, if_pos haccepts, hr, Option.map_some]

theorem next_step {c c' : Config σ ι} {o : ω} (h : P.next c (.step o) = some c') :
    ∃ i k r, c.stack = i :: k ∧ P.exec c.data i o = some r ∧ c' = ⟨r.1, r.2 ++ k⟩ := by
  simp only [next] at h
  split at h
  · cases h
  · rename_i i k hstack
    obtain ⟨r, hr, rfl⟩ := Option.map_eq_some_iff.mp h
    exact ⟨i, k, r, hstack, hr, rfl⟩

/-- **One step.**  What instructions and calls keep, a step keeps. -/
theorem next_invariant {I : σ → List ι → Prop} {c c' : Config σ ι} {a : Action α ω}
    (hexec : ∀ i k o r, c.stack = i :: k → I c.data (i :: k) → P.exec c.data i o = some r →
      I r.1 (r.2 ++ k))
    (hcall : ∀ b o r, a = .call b o → I c.data c.stack → P.call c.data b o = some r →
      I r.1 (r.2 ++ c.stack))
    (hI : I c.data c.stack) (h : P.next c a = some c') : I c'.data c'.stack := by
  cases a with
  | call b o =>
    obtain ⟨r, hr, rfl⟩ := next_call h
    exact hcall b o r rfl hI hr
  | step o =>
    obtain ⟨i, k, r, hstack, hr, rfl⟩ := next_step h
    exact hexec i k o r hstack (hstack ▸ hI) hr

/-- The invariant rule for the steps that follow a call. -/
theorem Steps.invariant {I : σ → List ι → Prop}
    (hexec : ∀ d i k o r, I d (i :: k) → P.exec d i o = some r → I r.1 (r.2 ++ k))
    {c c' : Config σ ι} (h : P.Steps c c') (hI : I c.data c.stack) : I c'.data c'.stack := by
  induction h with
  | refl => exact hI
  | tail _ hstep ih =>
    obtain ⟨o, hstep⟩ := hstep
    obtain ⟨i, k, r, hstack, hr, rfl⟩ := next_step hstep
    exact hexec _ i k o r (hstack ▸ ih) hr

/-- **The invariant rule.** -/
theorem invariant {I : σ → List ι → Prop} (h₀ : I P.init [])
    (hexec : ∀ d i k o r, I d (i :: k) → P.exec d i o = some r → I r.1 (r.2 ++ k))
    (hcall : ∀ d k a o r, I d k → P.call d a o = some r → I r.1 (r.2 ++ k))
    {c : Config σ ι} (h : P.system.Reachable c) : I c.data c.stack := by
  refine h.invariant (I := fun c => I c.data c.stack) ?_ ?_
  · rintro c rfl
    exact h₀
  · intro c a c' hI hstep
    exact next_invariant (fun i k o r _ hI hr => hexec _ i k o r hI hr)
      (fun b o r _ hI hr => hcall _ _ b o r hI hr) hI hstep

/-- The invariant rule for runs in which no callback calls back. -/
theorem flat_invariant {I : σ → List ι → Prop} (h₀ : I P.init [])
    (hexec : ∀ d i k o r, I d (i :: k) → P.exec d i o = some r → I r.1 (r.2 ++ k))
    (hcall : ∀ d a o r, I d [] → P.call d a o = some r → I r.1 r.2)
    {c : Config σ ι} (h : P.flat.Reachable c) : I c.data c.stack := by
  refine h.invariant (I := fun c => I c.data c.stack) ?_ ?_
  · rintro c rfl
    exact h₀
  · rintro c a c' hI ⟨hstep, hflat⟩
    refine next_invariant (fun i k o r _ hI hr => hexec _ i k o r hI hr) ?_ hI hstep
    rintro b o r rfl hI hr
    have hidle : c.stack = [] := not_not.mp hflat
    rw [hidle] at hI ⊢
    simpa using hcall _ b o r hI hr

/-! ## Instructions that are run -/

/-- A run from `c` to `c'` comes to an instruction with just this behind it, and runs it. -/
def Passes (P : Program σ ι α ω) (c : Config σ ι) (as : List (Action α ω)) (c' : Config σ ι)
    (i : ι) (k : List ι) : Prop :=
  ∃ as₁ o as₂ d r, as = as₁ ++ .step o :: as₂ ∧ P.system.Run c as₁ ⟨d, i :: k⟩ ∧
    P.exec d i o = some r ∧ P.system.Run ⟨r.1, r.2 ++ k⟩ as₂ c'

/-- An instruction that is no callback is run before anything else. -/
theorem run_of_instr {c c' : Config σ ι} {as : List (Action α ω)} {i : ι} {k : List ι}
    (h : P.system.Run c as c') (hstack : c.stack = i :: k) (hi : P.isCallback i = false)
    (hmoved : c' ≠ c) :
    ∃ o bs r, as = .step o :: bs ∧ P.exec c.data i o = some r ∧
      P.system.Run ⟨r.1, r.2 ++ k⟩ bs c' := by
  rcases h.head with ⟨-, hsame⟩ | ⟨a, bs, t, rfl, hfirst, hrest⟩
  · exact absurd hsame.symm hmoved
  · cases a with
    | call b o =>
      simp only [system, TransitionSystem.ofNext, next, Option.ite_none_right_eq_some] at hfirst
      have hcallback := hfirst.1 i (by simp [hstack])
      rw [hi] at hcallback
      cases hcallback
    | step o =>
      obtain ⟨j, k', r, hstack', hexec, rfl⟩ := next_step hfirst
      obtain ⟨rfl, rfl⟩ := List.cons.inj (hstack.symm.trans hstack')
      exact ⟨o, bs, r, rfl, hexec, hrest⟩

theorem Passes.snoc {c d d' : Config σ ι} {as : List (Action α ω)} {a : Action α ω} {i : ι}
    {k : List ι} (h : P.Passes c as d i k) (hstep : P.system.step d a d') :
    P.Passes c (as ++ [a]) d' i k := by
  obtain ⟨as₁, o, as₂, data, r, rfl, hrun, hexec, hrest⟩ := h
  exact ⟨as₁, o, as₂ ++ [a], data, r, by simp, hrun, hexec, hrest.snoc hstep⟩

/-- **The stack rule.**  What stands on the stack has been run once nothing above it is left. -/
theorem passes_of_popped {c c' : Config σ ι} {as : List (Action α ω)} {l k : List ι} {i : ι}
    (h : P.system.Run c as c') (hstack : c.stack = l ++ i :: k)
    (hpopped : c'.stack.length ≤ k.length) : P.Passes c as c' i k := by
  have hcases : (∃ l', c'.stack = l' ++ i :: k) ∨ P.Passes c as c' i k := by
    clear hpopped
    induction h with
    | nil => exact .inl ⟨l, hstack⟩
    | @snoc d d' as a hrun hstep ih =>
      rcases ih with ⟨l', hd⟩ | hpassed
      · cases a with
        | call b o =>
          obtain ⟨r, -, rfl⟩ := next_call hstep
          exact .inl ⟨r.2 ++ l', by rw [hd, List.append_assoc]⟩
        | step o =>
          obtain ⟨j, k', r, hd', hexec, rfl⟩ := next_step hstep
          cases l' with
          | nil =>
            obtain ⟨rfl, rfl⟩ := List.cons.inj (hd'.symm.trans hd)
            refine .inr ⟨as, o, [], d.data, r, rfl, ?_, hexec, .nil _⟩
            rw [← hd']
            exact hrun
          | cons j' l' =>
            obtain ⟨-, rfl⟩ := List.cons.inj (hd'.symm.trans hd)
            exact .inl ⟨r.2 ++ l', (List.append_assoc ..).symm⟩
      · exact .inr (hpassed.snoc hstep)
  rcases hcases with ⟨l', hc'⟩ | hpassed
  · rw [hc', List.length_append, List.length_cons] at hpopped
    omega
  · exact hpassed

end Program

end LogosProtocol
