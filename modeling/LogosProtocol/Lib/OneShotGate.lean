import Mathlib.Data.Nat.Notation
import Mathlib.Logic.ExistsUnique
import Mathlib.Tactic.ByContra

/-!
# A gate that lets one contender through

Any number of contenders race to hand something over.  A flag that the first of them sets
is the gate: who finds it set turns back, who sets it hands over and leaves.

`OneShot flag inside handed` says that the flag, the contenders behind the gate and the
number of handovers belong together.  The three rules are the three things a contender can
do behind the gate: enter, move, and leave with a handover.

## Main definitions

* `Phase` — open, held by one contender, or spent.
* `OneShot` — the flag, the contenders and the count agree with some phase.
-/

namespace LogosProtocol

universe u

/-- What has become of the gate. -/
inductive Phase (ρ : Type u)
  | open
  | held (r : ρ)
  | spent

/-- A flag, the contenders behind it and the number of handovers are those of a phase. -/
def Phase.Agrees {ρ : Type u} (flag : Bool) (inside : ρ → Prop) (handed : ℕ) : Phase ρ → Prop
  | .open => flag = false ∧ (∀ r, ¬ inside r) ∧ handed = 0
  | .held r => flag = true ∧ (∀ r', inside r' ↔ r' = r) ∧ handed = 0
  | .spent => flag = true ∧ (∀ r, ¬ inside r) ∧ handed = 1

/-- At most one contender has passed, and has handed over at most once. -/
def OneShot {ρ : Type u} (flag : Bool) (inside : ρ → Prop) (handed : ℕ) : Prop :=
  ∃ phase : Phase ρ, phase.Agrees flag inside handed

namespace OneShot
variable {ρ : Type u} {flag : Bool} {inside : ρ → Prop} {handed : ℕ}

/-- Nobody has tried yet. -/
theorem fresh (h : ∀ r, ¬ inside r) : OneShot false inside 0 := ⟨.open, rfl, h, rfl⟩

theorem handed_le_one (h : OneShot flag inside handed) : handed ≤ 1 := by
  obtain ⟨phase, hphase⟩ := h
  cases phase with
  | «open» => simp [hphase.2.2]
  | held r => simp [hphase.2.2]
  | spent => simp [hphase.2.2]

/-- Before the flag is set nobody is behind the gate. -/
theorem not_inside (h : OneShot false inside handed) (r : ρ) : ¬ inside r := by
  obtain ⟨phase, hphase⟩ := h
  cases phase with
  | «open» => exact hphase.2.1 r
  | held r' => exact absurd hphase.1 (by simp)
  | spent => exact hphase.2.1 r

/-- Nor has anybody handed over. -/
theorem handed_eq_zero (h : OneShot false inside handed) : handed = 0 := by
  obtain ⟨phase, hphase⟩ := h
  cases phase with
  | «open» => exact hphase.2.2
  | held r => exact hphase.2.2
  | spent => exact absurd hphase.1 (by simp)

/-- The contender behind the gate is alone there, and has not handed over yet. -/
theorem eq_held (h : OneShot flag inside handed) {r : ρ} (hr : inside r) :
    flag = true ∧ (∀ r', inside r' ↔ r' = r) ∧ handed = 0 := by
  obtain ⟨phase, hphase⟩ := h
  cases phase with
  | «open» => exact absurd hr (hphase.2.1 r)
  | held r' =>
    obtain ⟨hflag, hinside, hhanded⟩ := hphase
    have hrr' : r = r' := (hinside r).mp hr
    rw [hrr']
    exact ⟨hflag, hinside, hhanded⟩
  | spent => exact absurd hr (hphase.2.1 r)

theorem unique (h : OneShot flag inside handed) {r r' : ρ} (hr : inside r) (hr' : inside r') :
    r' = r :=
  ((h.eq_held hr).2.1 r').mp hr'

/-- Once the flag is set, the handover has happened or one contender is about to do it. -/
theorem handed_or_held (h : OneShot true inside handed) :
    handed = 1 ∨ handed = 0 ∧ ∃! r, inside r := by
  obtain ⟨phase, hphase⟩ := h
  cases phase with
  | «open» => exact absurd hphase.1 (by simp)
  | held r =>
    obtain ⟨-, hinside, hhanded⟩ := hphase
    exact .inr ⟨hhanded, r, (hinside r).mpr rfl, fun r' hr' => (hinside r').mp hr'⟩
  | spent => exact .inl hphase.2.2

/-- Only who is behind the gate matters. -/
theorem congr {inside' : ρ → Prop} (h : OneShot flag inside handed)
    (hinside : ∀ r, inside' r ↔ inside r) : OneShot flag inside' handed := by
  have heq : inside' = inside := funext fun r => propext (hinside r)
  rwa [heq]

/-- The contender that sets the flag is behind the gate. -/
theorem enter {inside' : ρ → Prop} (h : OneShot false inside handed) (r : ρ)
    (hself : inside' r) (hothers : ∀ r', r' ≠ r → (inside' r' ↔ inside r')) :
    OneShot true inside' handed := by
  have hempty := h.not_inside
  refine ⟨.held r, rfl, ?_, h.handed_eq_zero⟩
  intro r'
  constructor
  · intro hr'
    by_contra hne
    exact hempty r' ((hothers r' hne).mp hr')
  · intro heq
    rwa [heq]

/-- The contender behind the gate hands over and leaves. -/
theorem leave {inside' : ρ → Prop} (h : OneShot flag inside handed) {r : ρ} (hr : inside r)
    (hself : ¬ inside' r) (hothers : ∀ r', r' ≠ r → (inside' r' ↔ inside r')) :
    OneShot flag inside' (handed + 1) := by
  obtain ⟨hflag, hinside, hhanded⟩ := h.eq_held hr
  refine ⟨.spent, hflag, ?_, by omega⟩
  intro r'
  by_cases hne : r' = r
  · rwa [hne]
  · intro hr'
    exact hne ((hinside r').mp ((hothers r' hne).mp hr'))

end OneShot

end LogosProtocol
