import Mathlib.Data.List.Basic

/-!
# Scopes around computations that may throw

A computation reads and writes an ambient value, may throw, and leaves a log of what it saw.  A
scope gives its body a value of its own and puts back the former one on every way out, as a guard
object on the C++ stack does.

`Restores pre good c` says that from every ambient value that meets `pre` the computation ends
with the same value, whether it returns or throws, and logs nothing but what is `good`.  It is
closed under the ways to build a computation, and a scope has it from any value.

## Main definitions

* `Scoped.Comp` — computations; `scope`, `attempt`, `read`, `log`.
* `Scoped.Restores` — the triple.
-/

namespace LogosProtocol.Scoped

universe u

/-- How a computation ended: what it returns or throws, the ambient value, and the log. -/
structure Ran (σ ε ω : Type) (α : Type u) where
  outcome : Except ε α
  ambient : σ
  log : List ω

/-- A computation over an ambient value `σ`, with exceptions `ε` and log entries `ω`. -/
def Comp (σ ε ω : Type) (α : Type u) : Type u := σ → Ran σ ε ω α

namespace Comp
variable {σ ε ω : Type} {α β : Type}

/-- Return, or throw. -/
def ofExcept (outcome : Except ε α) : Comp σ ε ω α := fun s => ⟨outcome, s, []⟩

def pure (a : α) : Comp σ ε ω α := ofExcept (.ok a)

/-- Go on with what is returned; what is thrown ends it. -/
def bind (c : Comp σ ε ω α) (f : α → Comp σ ε ω β) : Comp σ ε ω β := fun s =>
  let r := c s
  match r.outcome with
  | .error e => ⟨.error e, r.ambient, r.log⟩
  | .ok a =>
    let r' := f a r.ambient
    { r' with log := r.log ++ r'.log }

instance : Monad (Comp σ ε ω) where
  pure := pure
  bind := bind

/-- The ambient value. -/
def read : Comp σ ε ω σ := fun s => ⟨.ok s, s, []⟩

def log (entry : ω) : Comp σ ε ω Unit := fun s => ⟨.ok (), s, [entry]⟩

/-- Catch what is thrown. -/
def attempt (c : Comp σ ε ω α) : Comp σ ε ω (Except ε α) := fun s =>
  let r := c s
  ⟨.ok r.outcome, r.ambient, r.log⟩

/-- Run a body under a value of its own, and put back the former one on every way out. -/
def scope (value : σ) (body : Comp σ ε ω α) : Comp σ ε ω α := fun former =>
  { body value with ambient := former }

end Comp

/-! ## The triple -/

variable {σ ε ω : Type} {α β : Type} {pre : σ → Prop} {good : ω → Prop}

/-- From a value that meets `pre` the computation ends with that value, and logs what is good. -/
def Restores (pre : σ → Prop) (good : ω → Prop) (c : Comp σ ε ω α) : Prop :=
  ∀ s, pre s → (c s).ambient = s ∧ ∀ entry ∈ (c s).log, good entry

namespace Restores

theorem ofExcept (outcome : Except ε α) :
    Restores pre good (Comp.ofExcept outcome : Comp σ ε ω α) := by
  intro s _
  exact ⟨rfl, by simp [Comp.ofExcept]⟩

theorem pure (a : α) : Restores pre good (Pure.pure a : Comp σ ε ω α) := ofExcept _

theorem bind {c : Comp σ ε ω α} {f : α → Comp σ ε ω β} (hc : Restores pre good c)
    (hf : ∀ a, Restores pre good (f a)) : Restores pre good (c >>= f) := by
  intro s hs
  obtain ⟨hambient, hlog⟩ := hc s hs
  simp only [Bind.bind, Comp.bind]
  cases (c s).outcome with
  | error e => exact ⟨hambient, hlog⟩
  | ok a =>
    dsimp only
    rw [hambient]
    obtain ⟨hambient', hlog'⟩ := hf a s hs
    refine ⟨hambient', ?_⟩
    intro entry hentry
    exact (List.mem_append.mp hentry).elim (hlog entry) (hlog' entry)

/-- What is read is a value that meets the precondition. -/
theorem read_bind {f : σ → Comp σ ε ω β} (hf : ∀ s, pre s → Restores (· = s) good (f s)) :
    Restores pre good (Comp.read >>= f) := by
  intro s hs
  exact hf s hs s rfl

theorem log {entry : ω} (h : good entry) :
    Restores pre good (Comp.log entry : Comp σ ε ω Unit) := by
  intro s _
  refine ⟨rfl, ?_⟩
  intro entry' hentry
  rwa [List.mem_singleton.mp hentry]

theorem attempt {c : Comp σ ε ω α} (hc : Restores pre good c) : Restores pre good c.attempt := hc

/-- **The scope rule.** Whatever the value outside, the body runs under the scope's own, and the
value outside is put back. -/
theorem scope {value : σ} {c : Comp σ ε ω α} (hc : Restores (· = value) good c) :
    Restores pre good (c.scope value) := by
  intro s _
  exact ⟨rfl, (hc value rfl).2⟩

end Restores

end LogosProtocol.Scoped
