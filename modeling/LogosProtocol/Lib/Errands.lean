import LogosProtocol.Lib.Grouped
import Mathlib.Data.List.Nodup

/-!
# Numbered errands

Errands are numbered as they are taken on.  Each is held in one place, at some stage, until it is
over, and a step of the system moves at most one of them.  What has happened to one errand is then
a course of a machine that knows of this errand alone, however the steps of others fall between
its own.

## Main definitions

* `Errand σ ε` — how an errand begins, moves on and ends.
* `Errand.Course` — what may have happened to one errand, and its stage.
* `Errands` — the errands of a system follow their courses.
-/

namespace LogosProtocol

variable {σ ε : Type*}

/-- How an errand begins, and how it moves on or ends, with what happens then. -/
structure Errand (σ ε : Type*) where
  begins : List ε → σ → Prop
  moves : σ → List ε → Option σ → Prop

namespace Errand
variable {E : Errand σ ε}

/-- What may have happened to an errand at a stage, or to one that is over. -/
inductive Course (E : Errand σ ε) : List ε → Option σ → Prop
  | begins {es : List ε} {stage : σ} (h : E.begins es stage) : Course E es (some stage)
  | moves {past es : List ε} {stage : σ} {next : Option σ} (h : Course E past (some stage))
      (hmove : E.moves stage es next) : Course E (past ++ es) next

namespace Course
variable {history : List ε} {stage : Option σ}

/-- **The budget rule.**  What a stage may still spend is spent by its moves. -/
theorem budget (p : ε → Bool) (left : Option σ → ℕ) {k : ℕ}
    (hbegins : ∀ es st, E.begins es st → es.countP p + left (some st) ≤ k)
    (hmoves : ∀ st es next, E.moves st es next → es.countP p + left next ≤ left (some st))
    (h : E.Course history stage) : history.countP p + left stage ≤ k := by
  induction h with
  | begins h => exact hbegins _ _ h
  | moves _ hmove ih =>
    have hspent := hmoves _ _ _ hmove
    rw [List.countP_append]
    omega

/-- The same where nothing is left over. -/
theorem balance (p : ε → Bool) (left : Option σ → ℕ) {k : ℕ}
    (hbegins : ∀ es st, E.begins es st → es.countP p + left (some st) = k)
    (hmoves : ∀ st es next, E.moves st es next → es.countP p + left next = left (some st))
    (h : E.Course history stage) : history.countP p + left stage = k := by
  induction h with
  | begins h => exact hbegins _ _ h
  | moves _ hmove ih =>
    have hspent := hmoves _ _ _ hmove
    rw [List.countP_append]
    omega

end Course

end Errand

/-! ## Many errands -/

/-- What has happened to one errand. -/
def eventsOf (n : ℕ) (log : List (ℕ × ε)) : List ε := Dict.entriesOf Prod.fst Prod.snd log n

theorem eventsOf_append_self (n : ℕ) (log : List (ℕ × ε)) (es : List ε) :
    eventsOf n (log ++ es.map (n, ·)) = eventsOf n log ++ es := by
  simp [eventsOf, Dict.entriesOf, List.filter_map, Function.comp_def]

theorem eventsOf_append_ne {n m : ℕ} (h : n ≠ m) (log : List (ℕ × ε)) (es : List ε) :
    eventsOf n (log ++ es.map (m, ·)) = eventsOf n log := by
  simp [eventsOf, Dict.entriesOf, List.filter_map, Function.comp_def, Ne.symm h]

/-- Of the errands with a number below `next`, those that are held are under way, and those that
are not have not begun or are over. -/
structure Errands (E : Errand σ ε) (next : ℕ) (held : List (ℕ × σ)) (log : List (ℕ × ε)) :
    Prop where
  nodup : (held.map Prod.fst).Nodup
  held_lt : ∀ p ∈ held, p.1 < next
  log_lt : ∀ p ∈ log, p.1 < next
  running : ∀ p ∈ held, E.Course (eventsOf p.1 log) (some p.2)
  ended : ∀ n, n ∉ held.map Prod.fst → eventsOf n log = [] ∨ E.Course (eventsOf n log) none

namespace Errands
variable {E : Errand σ ε} {next next' n : ℕ} {held held' rest : List (ℕ × σ)} {log : List (ℕ × ε)}

theorem none_begun : Errands E 0 [] [] where
  nodup := List.nodup_nil
  held_lt _ h := absurd h List.not_mem_nil
  log_lt _ h := absurd h List.not_mem_nil
  running _ h := absurd h List.not_mem_nil
  ended _ _ := .inl rfl

/-- **The hand-on rule**: what is held may be held elsewhere. -/
theorem hand_on (h : Errands E next held log) (hle : next ≤ next') (hperm : held'.Perm held) :
    Errands E next' held' log where
  nodup := (hperm.map Prod.fst).nodup_iff.mpr h.nodup
  held_lt p hp := (h.held_lt p (hperm.mem_iff.mp hp)).trans_le hle
  log_lt p hp := (h.log_lt p hp).trans_le hle
  running p hp := h.running p (hperm.mem_iff.mp hp)
  ended m hm := h.ended m fun hin => hm ((hperm.map Prod.fst).mem_iff.mpr hin)

/-- Nothing has happened under a number that is not in use. -/
theorem eventsOf_fresh (h : Errands E next held log) (hn : next ≤ n) : eventsOf n log = [] := by
  rw [List.eq_nil_iff_forall_not_mem]
  intro e he
  obtain ⟨p, hp, rfl, -⟩ := Dict.mem_entriesOf.mp he
  exact absurd (h.log_lt p hp) hn.not_gt

/-- **The begin rule**: an errand is taken on under a new number. -/
theorem begin (h : Errands E next held log) {es : List ε} {stage : σ} (hn : next ≤ n)
    (hlt : n < next') (hbegins : E.begins es stage) :
    Errands E next' ((n, stage) :: held) (log ++ es.map (n, ·)) := by
  have hfresh : n ∉ held.map Prod.fst := by
    intro hin
    obtain ⟨p, hp, rfl⟩ := List.mem_map.mp hin
    exact absurd (h.held_lt p hp) hn.not_gt
  have hcourse : eventsOf n (log ++ es.map (n, ·)) = es := by
    rw [eventsOf_append_self, h.eventsOf_fresh hn, List.nil_append]
  refine ⟨List.nodup_cons.mpr ⟨hfresh, h.nodup⟩, fun p hp => ?_, fun p hp => ?_, fun p hp => ?_,
    fun m hm => ?_⟩
  · rcases List.mem_cons.mp hp with rfl | hp
    · exact hlt
    · exact (h.held_lt p hp).trans (hn.trans_lt hlt)
  · rcases List.mem_append.mp hp with hp | hp
    · exact (h.log_lt p hp).trans (hn.trans_lt hlt)
    · obtain ⟨e, -, rfl⟩ := List.mem_map.mp hp
      exact hlt
  · rcases List.mem_cons.mp hp with rfl | hp
    · rw [hcourse]
      exact .begins hbegins
    · have hne : p.1 ≠ n := fun heq => hfresh (heq ▸ List.mem_map_of_mem hp)
      rw [eventsOf_append_ne hne]
      exact h.running p hp
  · rw [List.map_cons, List.mem_cons, not_or] at hm
    rw [eventsOf_append_ne hm.1]
    exact h.ended m hm.2

/-- **The move rule**: one that is held moves on, or is over and held no more. -/
theorem move {es : List ε} {stage : σ} {stage' : Option σ}
    (h : Errands E next ((n, stage) :: rest) log) (hmove : E.moves stage es stage') :
    Errands E next ((stage'.map (n, ·)).toList ++ rest) (log ++ es.map (n, ·)) := by
  obtain ⟨hfresh, hrest⟩ := List.nodup_cons.mp h.nodup
  have hlt : n < next := h.held_lt (n, stage) (List.mem_cons_self ..)
  have hcourse : E.Course (eventsOf n (log ++ es.map (n, ·))) stage' := by
    rw [eventsOf_append_self]
    exact (h.running (n, stage) (List.mem_cons_self ..)).moves hmove
  have hlog : ∀ p ∈ log ++ es.map (n, ·), p.1 < next := by
    intro p hp
    rcases List.mem_append.mp hp with hp | hp
    · exact h.log_lt p hp
    · obtain ⟨e, -, rfl⟩ := List.mem_map.mp hp
      exact hlt
  have hrunning : ∀ p ∈ rest, E.Course (eventsOf p.1 (log ++ es.map (n, ·))) (some p.2) := by
    intro p hp
    have hin : p.1 ∈ rest.map Prod.fst := List.mem_map_of_mem hp
    have hne : p.1 ≠ n := fun heq => hfresh (heq ▸ hin)
    rw [eventsOf_append_ne hne]
    exact h.running p (List.mem_cons_of_mem _ hp)
  have hover : ∀ m, m ≠ n → m ∉ rest.map Prod.fst → eventsOf m (log ++ es.map (n, ·)) = [] ∨
      E.Course (eventsOf m (log ++ es.map (n, ·))) none := by
    intro m hne hm
    rw [eventsOf_append_ne hne]
    exact h.ended m (by simpa [hne] using hm)
  cases stage' with
  | some stage' =>
    refine ⟨h.nodup, fun p hp => ?_, hlog, fun p hp => ?_, fun m hm => ?_⟩
    · rcases List.mem_cons.mp hp with rfl | hp
      · exact hlt
      · exact h.held_lt p (List.mem_cons_of_mem _ hp)
    · rcases List.mem_cons.mp hp with rfl | hp
      · exact hcourse
      · exact hrunning p hp
    · obtain ⟨hne, hm⟩ := not_or.mp fun hin => hm (List.mem_cons.mpr hin)
      exact hover m hne hm
  | none =>
    refine ⟨hrest, fun p hp => h.held_lt p (List.mem_cons_of_mem _ hp), hlog, hrunning,
      fun m hm => ?_⟩
    by_cases hne : m = n
    · exact .inr (hne ▸ hcourse)
    · exact hover m hne hm

/-- **One errand alone**: nothing has happened to it, or it has followed its course; if it is not
held, to the end. -/
theorem course (h : Errands E next held log) (n : ℕ) : eventsOf n log = [] ∨
    ∃ stage, E.Course (eventsOf n log) stage ∧ (n ∉ held.map Prod.fst → stage = none) := by
  by_cases hn : n ∈ held.map Prod.fst
  · obtain ⟨p, hp, rfl⟩ := List.mem_map.mp hn
    exact .inr ⟨some p.2, h.running p hp, fun hnot => absurd hn hnot⟩
  · exact (h.ended n hn).imp_right fun hcourse => ⟨none, hcourse, fun _ => rfl⟩

end Errands

end LogosProtocol
