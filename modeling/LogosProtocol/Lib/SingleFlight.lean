import Mathlib.Data.List.Nodup
import Mathlib.Logic.Function.Basic
import Mathlib.Tactic.Common

/-!
# Single flight

Jobs that need the same thing queue behind one attempt to get it.  The first job of a key starts
a flight; the others wait.  A flight may go on as another one, and when it lands the whole queue
is taken out, with one outcome for all of it, and its jobs are run in order.  A job that comes
while the jobs of a landed flight are run starts a new one.

## Main definitions

* `SingleFlight.View` — queues, flights, and the jobs that were taken out.
* `SingleFlight.Step` — what may happen.
* `SingleFlight.Inv` — one flight for each queue that is not empty, and each job in one place.
-/

namespace LogosProtocol.SingleFlight

universe u v w x

/-- Keys `K`, jobs `J`, flights `F` and outcomes `O`. -/
structure View (K : Type u) (J : Type v) (F : Type w) (O : Type x) where
  queue : K → List J
  flights : K → List F
  /-- Taken out, and not run yet. -/
  loop : List (J × O)
  ran : List (J × O)
  /-- What each landing took out. -/
  landings : List (List J × O)
  issued : List J

section
variable {K : Type u} {J : Type v} {F : Type w} {O : Type x} [DecidableEq K]

/-- What may happen. -/
inductive Step : View K J F O → View K J F O → Prop
  | stutter (v) : Step v v
  | wait (v) (k : K) (j : J) (hj : j ∉ v.issued) (hk : v.queue k ≠ []) :
    Step v { v with
      queue := Function.update v.queue k (v.queue k ++ [j]), issued := v.issued ++ [j] }
  | start (v) (k : K) (j : J) (f : F) (hj : j ∉ v.issued) (hk : v.queue k = []) :
    Step v { v with
      queue := Function.update v.queue k [j]
      flights := Function.update v.flights k (v.flights k ++ [f])
      issued := v.issued ++ [j] }
  | goOn (v) (k : K) (f f' : F) (hf : v.flights k = [f]) :
    Step v { v with flights := Function.update v.flights k [f'] }
  | land (v) (k : K) (f : F) (o : O) (hf : v.flights k = [f]) :
    Step v { v with
      queue := Function.update v.queue k []
      flights := Function.update v.flights k []
      loop := (v.queue k).map (·, o) ++ v.loop
      landings := v.landings ++ [(v.queue k, o)] }
  | run (v) (j : J) (o : O) (rest : List (J × O)) (hloop : v.loop = (j, o) :: rest) :
    Step v { v with loop := rest, ran := v.ran ++ [(j, o)] }

/-- One flight for each queue that is not empty, and each job in one place. -/
structure Inv (v : View K J F O) : Prop where
  flights : ∀ k, v.queue k = [] ∧ v.flights k = [] ∨ v.queue k ≠ [] ∧ ∃ f, v.flights k = [f]
  /-- A job is taken out once, and run once. -/
  once : ((v.loop ++ v.ran).map Prod.fst).Nodup
  queued : ∀ k, (v.queue k).Nodup
  /-- It waits for one key. -/
  apart : ∀ k k' j, j ∈ v.queue k → j ∈ v.queue k' → k = k'
  /-- What waits was not taken out. -/
  waits : ∀ k, ∀ j ∈ v.queue k, j ∉ (v.loop ++ v.ran).map Prod.fst
  /-- No job is lost. -/
  issued : ∀ j, j ∈ v.issued ↔ j ∈ (v.loop ++ v.ran).map Prod.fst ∨ ∃ k, j ∈ v.queue k
  /-- It is run with the outcome of the landing that took it out. -/
  outcome : ∀ p ∈ v.loop ++ v.ran, ∃ l ∈ v.landings, p.1 ∈ l.1 ∧ l.2 = p.2
  /-- One landing takes it out. -/
  landed : (v.landings.flatMap Prod.fst).Nodup
  taken : ∀ j, j ∈ v.landings.flatMap Prod.fst ↔ j ∈ (v.loop ++ v.ran).map Prod.fst

variable {v v' : View K J F O}

omit [DecidableEq K] in
/-- A flight is in the air for a queue that is not empty. -/
theorem Inv.flights_eq (h : Inv v) {k : K} {f : F} (hf : f ∈ v.flights k) :
    v.flights k = [f] ∧ v.queue k ≠ [] := by
  rcases h.flights k with ⟨-, hnone⟩ | ⟨hqueue, f', hf'⟩
  · rw [hnone] at hf
    cases hf
  · rw [hf', List.mem_singleton] at hf
    exact ⟨hf ▸ hf', hqueue⟩

/-- A new job at the end of its queue. -/
theorem Inv.enqueue (h : Inv v) {k : K} {j : J} (flights : K → List F) (hj : j ∉ v.issued)
    (hf : ∀ k', k' ≠ k → flights k' = v.flights k') (hk : ∃ f, flights k = [f]) :
    Inv { v with
      queue := Function.update v.queue k (v.queue k ++ [j])
      flights := flights
      issued := v.issued ++ [j] } := by
  have hnot : j ∉ (v.loop ++ v.ran).map Prod.fst := fun hin => hj ((h.issued j).mpr (.inl hin))
  have hfresh : ∀ k', j ∉ v.queue k' := fun k' hin => hj ((h.issued j).mpr (.inr ⟨k', hin⟩))
  have hmem : ∀ k' j', j' ∈ Function.update v.queue k (v.queue k ++ [j]) k' ↔
      j' ∈ v.queue k' ∨ k' = k ∧ j' = j := by
    intro k' j'
    by_cases hk' : k' = k
    · subst hk'
      simp
    · simp [hk']
  refine ⟨fun k' => ?_, h.once, fun k' => ?_, fun k' k'' j' hin hin' => ?_, fun k' j' hin => ?_,
    fun j' => ?_, h.outcome, h.landed, h.taken⟩
  · by_cases hk' : k' = k
    · subst hk'
      exact .inr ⟨by simp, hk⟩
    · simpa [hk', hf k' hk'] using h.flights k'
  · by_cases hk' : k' = k
    · subst hk'
      have hqueue := h.queued k'
      simp only [Function.update_self, List.nodup_append, List.nodup_singleton]
      grind
    · simpa [hk'] using h.queued k'
  · rcases (hmem k' j').mp hin with hin | ⟨hkey, hjob⟩ <;>
      rcases (hmem k'' j').mp hin' with hin' | ⟨hkey', hjob'⟩
    · exact h.apart k' k'' j' hin hin'
    · exact absurd (hjob' ▸ hin) (hfresh k')
    · exact absurd (hjob ▸ hin') (hfresh k'')
    · exact hkey.trans hkey'.symm
  · rcases (hmem k' j').mp hin with hin | ⟨-, rfl⟩
    · exact h.waits k' j' hin
    · exact hnot
  · rw [List.mem_append, List.mem_singleton, h.issued]
    simp only [hmem]
    grind

/-- What a landing took out is in the hands of its loop, or was run. -/
theorem Step.kept (h : Step v v') {p : J × O} (hp : p ∈ v.loop ++ v.ran) :
    p ∈ v'.loop ++ v'.ran := by
  cases h with
  | stutter | wait | start | goOn => exact hp
  | land k f o hf =>
    rw [List.append_assoc]
    exact List.mem_append_right _ hp
  | run j o rest hloop =>
    rw [hloop, List.mem_append, List.mem_cons] at hp
    rw [List.mem_append, List.mem_append, List.mem_singleton]
    rcases hp with (hp | hp) | hp
    · exact .inr (.inr hp)
    · exact .inl hp
    · exact .inr (.inl hp)

theorem Inv.step (h : Inv v) (hstep : Step v v') : Inv v' := by
  cases hstep with
  | stutter => exact h
  | wait k j hj hk =>
    refine h.enqueue v.flights hj (fun _ _ => rfl) ?_
    rcases h.flights k with ⟨hnone, -⟩ | ⟨-, hf⟩
    · exact absurd hnone hk
    · exact hf
  | start k j f hj hk =>
    have hnone : v.flights k = [] := by
      rcases h.flights k with ⟨-, hnone⟩ | ⟨hsome, -⟩
      · exact hnone
      · exact absurd hk hsome
    have hstart := h.enqueue (k := k) (j := j) (Function.update v.flights k [f]) hj
      (fun k' hk' => by simp [hk']) ⟨f, by simp⟩
    rw [hk, List.nil_append] at hstart
    rwa [hnone, List.nil_append]
  | goOn k f f' hf =>
    refine ⟨fun k' => ?_, h.once, h.queued, h.apart, h.waits, h.issued, h.outcome, h.landed, h.taken⟩
    by_cases hk' : k' = k
    · subst hk'
      exact .inr ⟨(h.flights_eq (hf ▸ List.mem_singleton_self f)).2, f', by simp⟩
    · simpa [hk'] using h.flights k'
  | land k f o hf =>
    have hmem : ∀ k' j, j ∈ Function.update v.queue k [] k' ↔ k' ≠ k ∧ j ∈ v.queue k' := by
      intro k' j
      by_cases hk' : k' = k
      · subst hk'
        simp
      · simp [hk']
    have htaken : ∀ j, j ∈ (((v.queue k).map (·, o) ++ v.loop) ++ v.ran).map Prod.fst ↔
        j ∈ v.queue k ∨ j ∈ (v.loop ++ v.ran).map Prod.fst := by
      intro j
      simp
    refine ⟨fun k' => ?_, ?_, fun k' => ?_, fun k' k'' j hin hin' => ?_, fun k' j hin => ?_,
      fun j => ?_, fun p hp => ?_, ?_, fun j => ?_⟩
    · by_cases hk' : k' = k
      · subst hk'
        exact .inl ⟨by simp, by simp⟩
      · simpa [hk'] using h.flights k'
    · rw [List.append_assoc, List.map_append, List.map_map, List.nodup_append]
      refine ⟨by simpa [Function.comp_def] using h.queued k, h.once, ?_⟩
      rintro j hj j' hj' rfl
      have hin : j ∈ v.queue k := by simpa [Function.comp_def] using hj
      exact h.waits k j hin hj'
    · by_cases hk' : k' = k
      · subst hk'
        simp
      · simpa [hk'] using h.queued k'
    · exact h.apart k' k'' j ((hmem k' j).mp hin).2 ((hmem k'' j).mp hin').2
    · rw [htaken]
      obtain ⟨hk', hin⟩ := (hmem k' j).mp hin
      rintro (hin' | hin')
      · exact hk' (h.apart k' k j hin hin')
      · exact h.waits k' j hin hin'
    · rw [htaken, h.issued]
      simp only [hmem]
      grind
    · rw [List.append_assoc, List.mem_append] at hp
      rcases hp with hp | hp
      · obtain ⟨j, hj, rfl⟩ := List.mem_map.mp hp
        exact ⟨_, List.mem_append_right _ (List.mem_singleton_self _), hj, rfl⟩
      · obtain ⟨l, hl, hrest⟩ := h.outcome p hp
        exact ⟨l, List.mem_append_left _ hl, hrest⟩
    · simp only [List.flatMap_append, List.flatMap_cons, List.flatMap_nil, List.append_nil]
      rw [List.nodup_append]
      refine ⟨h.landed, h.queued k, ?_⟩
      rintro j hj j' hj' rfl
      exact h.waits k j hj' ((h.taken j).mp hj)
    · rw [htaken, List.flatMap_append, List.mem_append, h.taken]
      simp [or_comm]
  | run j o rest hloop =>
    have hperm : (rest ++ (v.ran ++ [(j, o)])).Perm (v.loop ++ v.ran) := by
      rw [hloop, ← List.append_assoc, List.cons_append]
      exact List.perm_append_singleton _ _
    have hmem : ∀ j', j' ∈ (rest ++ (v.ran ++ [(j, o)])).map Prod.fst ↔
        j' ∈ (v.loop ++ v.ran).map Prod.fst := fun j' => (hperm.map Prod.fst).mem_iff
    exact ⟨h.flights, (hperm.map Prod.fst).nodup_iff.mpr h.once, h.queued, h.apart,
      fun k j' hin => (hmem j').not.mpr (h.waits k j' hin), fun j' => by rw [hmem, h.issued],
      fun p hp => h.outcome p (hperm.mem_iff.mp hp), h.landed, fun j' => by rw [hmem, h.taken]⟩

end

end LogosProtocol.SingleFlight
