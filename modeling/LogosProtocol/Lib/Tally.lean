import Mathlib.Algebra.BigOperators.Ring.Finset
import Mathlib.Algebra.Order.BigOperators.Group.Finset

/-!
# A counter over any number of holders

A counter is the sum of what its holders weigh, of which all but finitely many weigh nothing.
When one holder changes its weight the counter changes by the difference, so a counter that
every holder raises and lowers for itself stays the sum.

## Main definitions

* `Tally count weight` — the counter is the sum of the weights.
-/

namespace LogosProtocol

/-- The counter is the sum of the weights, of which finitely many are not zero. -/
def Tally {ι : Type*} (count : ℕ) (weight : ι → ℕ) : Prop :=
  ∃ support : Finset ι, (∀ i, i ∉ support → weight i = 0) ∧ count = ∑ i ∈ support, weight i

namespace Tally
variable {ι : Type*} {count count' : ℕ} {weight weight' : ι → ℕ}

theorem zero (h : ∀ i, weight i = 0) : Tally 0 weight := ⟨∅, fun i _ => h i, rfl⟩

theorem le (h : Tally count weight) (i : ι) : weight i ≤ count := by
  obtain ⟨support, hout, hsum⟩ := h
  by_cases hi : i ∈ support
  · rw [hsum]
    exact Finset.single_le_sum (fun _ _ => Nat.zero_le _) hi
  · have := hout i hi
    omega

theorem eq_zero (h : Tally 0 weight) (i : ι) : weight i = 0 := Nat.le_zero.mp (h.le i)

/-- Some holder accounts for a counter that is not zero. -/
theorem exists_pos (h : Tally count weight) (hne : count ≠ 0) : ∃ i, weight i ≠ 0 := by
  obtain ⟨support, hout, hsum⟩ := h
  by_contra hall
  push Not at hall
  exact hne (hsum.trans (Finset.sum_eq_zero fun i _ => hall i))

/-- Two holders weigh no more together than the counter says. -/
theorem add_le [DecidableEq ι] (h : Tally count weight) {i j : ι} (hne : i ≠ j) :
    weight i + weight j ≤ count := by
  obtain ⟨support, hout, hsum⟩ := h
  by_cases hi : i ∈ support
  · by_cases hj : j ∈ support
    · have hpair := Finset.sum_le_sum_of_subset (f := weight)
        (Finset.insert_subset hi (Finset.singleton_subset_iff.mpr hj))
      rw [Finset.sum_pair hne] at hpair
      omega
    · have hle := Finset.single_le_sum (f := weight) (fun _ _ => Nat.zero_le _) hi
      have := hout j hj
      omega
  · by_cases hj : j ∈ support
    · have hle := Finset.single_le_sum (f := weight) (fun _ _ => Nat.zero_le _) hj
      have := hout i hi
      omega
    · have := hout i hi
      have := hout j hj
      omega

/-- A counter of lighter holders is smaller. -/
theorem mono (h : Tally count weight) (h' : Tally count' weight')
    (hle : ∀ i, weight' i ≤ weight i) : count' ≤ count := by
  classical
  obtain ⟨support, hout, hsum⟩ := h
  obtain ⟨support', hout', hsum'⟩ := h'
  have hinner : ∑ i ∈ support', weight' i ≤ ∑ i ∈ support ∪ support', weight i :=
    (Finset.sum_le_sum fun i _ => hle i).trans
      (Finset.sum_le_sum_of_subset Finset.subset_union_right)
  have houter : ∑ i ∈ support ∪ support', weight i = ∑ i ∈ support, weight i :=
    (Finset.sum_subset Finset.subset_union_left fun i _ hi => hout i hi).symm
  omega

/-- **The update rule.** One holder changes its weight, and the counter by as much. -/
theorem update [DecidableEq ι] (h : Tally count weight) {i : ι} {k : ℕ}
    (hcount : count' + weight i = count + k) : Tally count' (Function.update weight i k) := by
  obtain ⟨support, hout, hsum⟩ := h
  refine ⟨insert i support, ?_, ?_⟩
  · intro j hj
    have hne : j ≠ i := fun heq => hj (heq ▸ Finset.mem_insert_self i support)
    rw [Function.update_of_ne hne]
    exact hout j fun hmem => hj (Finset.mem_insert_of_mem hmem)
  · have hrest : ∑ j ∈ support.erase i, Function.update weight i k j =
        ∑ j ∈ support.erase i, weight j :=
      Finset.sum_congr rfl fun j hj => Function.update_of_ne (Finset.ne_of_mem_erase hj) _ _
    have hsupport : ∑ j ∈ support.erase i, weight j + weight i = count := by
      by_cases hi : i ∈ support
      · rw [hsum, Finset.sum_erase_add _ _ hi]
      · rw [Finset.erase_eq_of_notMem hi, hout i hi, hsum, Nat.add_zero]
    rw [← Finset.insert_erase (Finset.mem_insert_self i support),
      Finset.sum_insert (Finset.notMem_erase i _), Finset.erase_insert_eq_erase, hrest,
      Function.update_self]
    omega

end Tally

end LogosProtocol
