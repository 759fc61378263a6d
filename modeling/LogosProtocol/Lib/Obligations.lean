import Mathlib.Data.List.Range
import Mathlib.Data.List.Nodup
import Mathlib.Data.List.AList

/-!
# Obligations

Obligations are numbered as they are taken on.  Each is held in one place until it is
settled, and places may hand it on, so at any time the held and the settled ones together are
all there have been, each once.

## Main definitions

* `Obligations issued held settled` — the books balance.
-/

namespace LogosProtocol

/-- What is held and what is settled is what was issued, each once. -/
def Obligations (issued : ℕ) (held settled : List ℕ) : Prop :=
  (held ++ settled).Perm (List.range issued)

namespace Obligations
variable {issued n : ℕ} {held held' settled : List ℕ}

theorem none_issued : Obligations 0 [] [] := List.Perm.refl _

/-- **The issue rule**: the next number is taken on. -/
theorem issue (h : Obligations issued held settled) :
    Obligations (issued + 1) (issued :: held) settled := by
  rw [Obligations, List.range_succ, List.cons_append]
  exact (h.cons issued).trans (List.perm_append_singleton issued (List.range issued)).symm

/-- **The hand-on rule**: what is held may be held elsewhere. -/
theorem hand_on (h : Obligations issued held settled) (hperm : held'.Perm held) :
    Obligations issued held' settled :=
  (hperm.append_right settled).trans h

/-- **The settle rule**: one that is held is settled, and is held no more. -/
theorem settle (h : Obligations issued held settled) (hperm : held.Perm (n :: held')) :
    Obligations issued held' (settled ++ [n]) := by
  have hmiddle : (held' ++ (settled ++ [n])).Perm (n :: (held' ++ settled)) := by
    rw [← List.append_assoc]
    exact List.perm_append_singleton n (held' ++ settled)
  exact hmiddle.trans ((hperm.symm.append_right settled).trans h)

theorem nodup (h : Obligations issued held settled) : (held ++ settled).Nodup :=
  h.nodup_iff.mpr List.nodup_range

theorem lt_of_held (h : Obligations issued held settled) (hn : n ∈ held) : n < issued :=
  List.mem_range.mp (h.subset (List.mem_append_left settled hn))

/-- Nothing is settled twice. -/
theorem count_le_one (h : Obligations issued held settled) (n : ℕ) : settled.count n ≤ 1 :=
  List.nodup_iff_count_le_one.mp (List.Nodup.of_append_right h.nodup) n

/-- Once nothing is held, everything is settled. -/
theorem settled_perm (h : Obligations issued [] settled) : settled.Perm (List.range issued) := h

end Obligations

end LogosProtocol
