import LogosProtocol.Consumer.Registry
import Mathlib.Data.Multiset.Filter
import Mathlib.Tactic.Abel

/-!
# Every subscription is in one place

An entry is in one of the three vectors or in the hands of a loop that will put it back.
Every operation moves entries between these places, so the multiset of tickets in all of them
changes only when an id is added, cancelled, abandoned or, for a probe, answered.

## Main definitions

* `place` — the tickets in the vectors and in the loops, with multiplicity.
* `Moves` — what an operation does that only moves entries.
* `Partition` — the invariant.
-/

namespace LogosProtocol.PendingSubscriptions

/-- The entry an instruction has in its hands. -/
def Instr.entry : Instr → Option Entry
  | .arm _ e | .pushArmed e | .abandon e => some e
  | _ => none

/-- The entries that loops have taken out. -/
def inHand (k : List Instr) : List Entry := k.filterMap Instr.entry

@[simp] theorem inHand_nil : inHand [] = [] := rfl

@[simp] theorem inHand_append (k k' : List Instr) : inHand (k ++ k') = inHand k ++ inHand k' :=
  List.filterMap_append

theorem inHand_cons (i : Instr) (k : List Instr) :
    inHand (i :: k) = i.entry.toList ++ inHand k := by
  cases h : i.entry <;> simp [inHand, h]

@[simp] theorem inHand_map_arm (handle : ℕ) (es : List Entry) :
    inHand (es.map (.arm handle)) = es := by
  simp [inHand, List.filterMap_map, Function.comp_def, Instr.entry]

@[simp] theorem inHand_map_abandon (es : List Entry) : inHand (es.map .abandon) = es := by
  simp [inHand, List.filterMap_map, Function.comp_def, Instr.entry]

/-- Instructions without an entry. -/
theorem inHand_eq_nil {k : List Instr} (h : ∀ i ∈ k, i.entry = none) : inHand k = [] :=
  List.filterMap_eq_nil_iff.mpr h

/-- What an entry keeps wherever it is: its id, and whether it is a probe. -/
def Entry.ticket (e : Entry) : ℕ × Bool := (e.id, e.readinessOnly)

/-- Tickets, with multiplicity. -/
def ticketsOf (es : List Entry) : Multiset (ℕ × Bool) := ↑(es.map Entry.ticket)

@[simp] theorem ticketsOf_nil : ticketsOf [] = 0 := rfl

@[simp] theorem ticketsOf_append (es es' : List Entry) : ticketsOf (es ++ es') = ticketsOf es + ticketsOf es' := by
  simp [ticketsOf]

@[simp] theorem ticketsOf_cons (e : Entry) (es : List Entry) : ticketsOf (e :: es) = e.ticket ::ₘ ticketsOf es := by
  simp [ticketsOf]

/-- A change that keeps tickets. -/
theorem ticketsOf_map {f : Entry → Entry} (hf : ∀ e, (f e).ticket = e.ticket) (es : List Entry) :
    ticketsOf (es.map f) = ticketsOf es := by
  simp [ticketsOf, Function.comp_def, hf]

/-- The entries that meet a condition and those that do not. -/
theorem ticketsOf_filter_add (p : Entry → Prop) [DecidablePred p] (es : List Entry) :
    ticketsOf (es.filter fun e => p e) + ticketsOf (es.filter fun e => ¬ p e) = ticketsOf es := by
  induction es with
  | nil => rfl
  | cons e es ih =>
    by_cases he : p e
    · simp [he, ← ih]
    · simp [he, ← ih]

theorem ticketsOf_split (name : QString) (es : List Entry) :
    ticketsOf (es.filter fun e => e.objectName = name) +
      ticketsOf (es.filter fun e => e.objectName ≠ name) = ticketsOf es :=
  ticketsOf_filter_add (fun e => e.objectName = name) es

/-- The tickets in the vectors and in the loops. -/
def place (r : Registry) (k : List Instr) : Multiset (ℕ × Bool) :=
  ticketsOf r.entries + ticketsOf r.armed + ticketsOf r.held + ticketsOf (inHand k)

@[simp] theorem place_emit (r : Registry) (e : Event) (k : List Instr) :
    place (r.emit e) k = place r k := rfl

theorem place_append (r : Registry) (k k' : List Instr) :
    place r (k ++ k') = place r k + ticketsOf (inHand k') := by
  simp [place, add_assoc]

/-! ## What the log says -/

/-- The id that an event adds or removes. -/
def Event.moved : Event → Option ℕ
  | .added id | .cancelled id | .abandoned id | .answered id => some id
  | _ => none

/-- An event that leaves every id where it is. -/
def Event.Silent (e : Event) : Prop := e.moved = none

/-- The id that an event is about. -/
def Event.subject : Event → Option ℕ
  | .added id | .cancelled id | .abandoned id | .answered id | .attached id .. | .onArmed id _ =>
    some id
  | .edge .. | .released _ => none

theorem Event.subject_of_moved {e : Event} {n : ℕ} (h : e.moved = some n) : e.subject = some n := by
  cases e <;> first | exact h | cases h

/-- An event that is about no entry. -/
def Event.Quiet (e : Event) : Prop := e.subject = none

theorem Event.Quiet.silent {e : Event} (h : e.Quiet) : e.Silent := by
  cases e <;> first | rfl | cases h

/-- Added and still to be kept. -/
structure Live (log : List Event) (id : ℕ) : Prop where
  added : .added id ∈ log
  cancelled : .cancelled id ∉ log
  abandoned : .abandoned id ∉ log
  answered : .answered id ∉ log

/-- A loud event is in the extended log only if it was there before. -/
theorem mem_append_silent (log : List Event) {es : List Event} (h : ∀ e ∈ es, e.Silent) {e : Event}
    (he : ¬ e.Silent) : e ∈ log ++ es ↔ e ∈ log := by
  rw [List.mem_append]
  exact ⟨fun hin => hin.resolve_right fun hes => he (h e hes), .inl⟩

theorem live_append_silent {log es : List Event} (h : ∀ e ∈ es, e.Silent) (n : ℕ) :
    Live (log ++ es) n ↔ Live log n := by
  have hadd := mem_append_silent log h (e := .added n) nofun
  have hcancel := mem_append_silent log h (e := .cancelled n) nofun
  have habandon := mem_append_silent log h (e := .abandoned n) nofun
  have hanswer := mem_append_silent log h (e := .answered n) nofun
  constructor
  · rintro ⟨h₁, h₂, h₃, h₄⟩
    exact ⟨hadd.mp h₁, fun h => h₂ (hcancel.mpr h), fun h => h₃ (habandon.mpr h),
      fun h => h₄ (hanswer.mpr h)⟩
  · rintro ⟨h₁, h₂, h₃, h₄⟩
    exact ⟨hadd.mpr h₁, fun h => h₂ (hcancel.mp h), fun h => h₃ (habandon.mp h),
      fun h => h₄ (hanswer.mp h)⟩

/-! ## Operations that only move entries -/

/-- The tickets stay, and nothing is logged about an entry. -/
structure Moves (r r' : Registry) (k : List Instr) : Prop where
  place : place r' k = place r []
  log : ∃ es, r'.log = r.log ++ es ∧ ∀ e ∈ es, e.Quiet
  nextId : r'.nextId = r.nextId

namespace Moves
variable {r r' r'' : Registry} {k k' : List Instr}

/-- What leaves the vectors, the log and the ids alone. -/
theorem of_same (hentries : r'.entries = r.entries) (harmed : r'.armed = r.armed)
    (hheld : r'.held = r.held) (hlog : r'.log = r.log) (hnext : r'.nextId = r.nextId)
    (hk : inHand k = []) : Moves r r' k where
  place := by simp [PendingSubscriptions.place, hentries, harmed, hheld, hk]
  log := ⟨[], by simp [hlog], by simp⟩
  nextId := hnext

theorem trans (h : Moves r r' []) (h' : Moves r' r'' k) : Moves r r'' k where
  place := h'.place.trans h.place
  log := by
    obtain ⟨es, hes, hquiet⟩ := h.log
    obtain ⟨es', hes', hquiet'⟩ := h'.log
    refine ⟨es ++ es', by rw [hes', hes, List.append_assoc], fun e he => ?_⟩
    exact (List.mem_append.mp he).elim (hquiet e) (hquiet' e)
  nextId := h'.nextId.trans h.nextId

/-- What happens behind the entries' back. -/
theorem then_same (h : Moves r r' k) (hentries : r''.entries = r'.entries)
    (harmed : r''.armed = r'.armed) (hheld : r''.held = r'.held) (hlog : r''.log = r'.log)
    (hnext : r''.nextId = r'.nextId) : Moves r r'' k where
  place := by
    rw [← h.place]
    simp only [PendingSubscriptions.place, hentries, harmed, hheld]
  log := by rw [hlog]; exact h.log
  nextId := hnext.trans h.nextId

/-- Further instructions with no entry in hand. -/
theorem more (h : Moves r r' k) (hk : inHand k' = []) : Moves r r' (k ++ k') where
  place := by rw [place_append, hk, ticketsOf_nil, add_zero, h.place]
  log := h.log
  nextId := h.nextId

theorem then_nil (h : Moves r r' []) (hk : inHand k = []) : Moves r r' k := h.more hk

/-- In front of what is left to do. -/
theorem place_append (h : Moves r r' k') (k : List Instr) :
    PendingSubscriptions.place r' (k' ++ k) = PendingSubscriptions.place r k := by
  rw [PendingSubscriptions.place_append, h.place, ← PendingSubscriptions.place_append,
    List.nil_append]

theorem emit (r : Registry) {e : Event} (he : e.Quiet) : Moves r (r.emit e) [] where
  place := rfl
  log := ⟨[e], rfl, by simpa using he⟩
  nextId := rfl

end Moves

section operations
variable (r : Registry) (name : QString)

theorem moves_ensureTimer : Moves r r.ensureTimer [] := by
  rw [r.ensureTimer_eq]
  exact .of_same rfl rfl rfl rfl rfl rfl

theorem moves_reviveArmed : Moves r (r.reviveArmed name) [] where
  place := by
    have hsplit := ticketsOf_split name r.armed
    simp only [place, Registry.reviveArmed, ticketsOf_append, ← hsplit]
    abel
  log := ⟨[], by simp [Registry.reviveArmed], by simp⟩
  nextId := rfl

theorem moves_holdArmed : Moves r (r.holdArmed name) [] := by
  unfold Registry.holdArmed
  split
  · refine ⟨?_, ⟨[], by simp, by simp⟩, rfl⟩
    have hsplit := ticketsOf_split name r.armed
    simp only [place, ticketsOf_append, ← hsplit]
    abel
  · exact .of_same rfl rfl rfl rfl rfl rfl

/-- What is taken out is in the hands of the caller. -/
theorem moves_takeMatching {k : List Instr} (hk : inHand k = (r.takeMatching name).1) :
    Moves r (r.takeMatching name).2 k := by
  have hsplit := ticketsOf_split name r.entries
  simp only [Registry.takeMatching] at hk ⊢
  rw [Registry.stopTimerIfIdle_eq]
  refine ⟨?_, ⟨[], by simp, by simp⟩, rfl⟩
  simp only [place, hk, ← hsplit, inHand_nil, ticketsOf_nil]
  abel

theorem moves_storeHandle (obj : ℕ) : Moves r (r.storeHandle name obj).1 [] := by
  rcases r.storeHandle_cases name obj with
    ⟨-, h⟩ | ⟨-, h⟩ | ⟨_, -, -, -, h⟩ | ⟨old, -, -, -, h⟩
  · rw [h]
    exact .of_same rfl rfl rfl rfl rfl rfl
  · rw [h]
    exact .of_same rfl rfl rfl rfl rfl rfl
  · rw [h]
    exact .emit r rfl
  · rw [h]
    have hreleased : Moves (r.reviveArmed name) ((r.reviveArmed name).emit (.released old)) [] :=
      .emit _ rfl
    exact ((moves_reviveArmed r name).trans hreleased).trans (.of_same rfl rfl rfl rfl rfl rfl)

theorem moves_setTarget (t : Target) : Moves r (r.setTarget name t) [] :=
  .of_same rfl rfl rfl rfl rfl rfl

theorem moves_newHandle : Moves r r.newHandle.2 [] := .of_same rfl rfl rfl rfl rfl rfl

theorem moves_armAgainst (obj : ℕ) :
    Moves r (r.armAgainst name obj).1 (r.armAgainst name obj).2 := by
  simp only [Registry.armAgainst]
  have hstore := moves_storeHandle r name obj
  generalize r.storeHandle name obj = stored at hstore ⊢
  obtain ⟨r₁, handle⟩ := stored
  have htake : Moves r₁ (r₁.takeMatching name).2
      ((r₁.takeMatching name).1.map (.arm handle)) :=
    moves_takeMatching r₁ name (inHand_map_arm ..)
  have htail : ∀ b : Bool, inHand ((if b then [Instr.report name .armed []] else []) ++
      [.ensureTimer]) = [] := by
    intro b
    cases b <;> rfl
  rw [List.append_assoc]
  refine hstore.trans (.more ?_ (htail _))
  split
  · exact htake.then_same rfl rfl rfl rfl rfl
  · exact htake

theorem moves_abandon : Moves r (r.abandon name).1 (r.abandon name).2 := by
  simp only [Registry.abandon]
  refine (moves_takeMatching r name (inHand_map_abandon _)).more ?_
  split <;> rfl

theorem moves_beginAcquire (async : Bool) (o : Oracle) :
    Moves r (r.beginAcquire async name o).1.1 (r.beginAcquire async name o).1.2 := by
  rcases r.beginAcquire_cases async name o with
    ⟨-, h⟩ | ⟨-, acquiring, inFlight, h⟩
  · rw [h]
    exact (moves_newHandle r).trans (moves_armAgainst _ name _)
  · rw [h]
    exact .of_same rfl rfl rfl rfl rfl rfl

theorem moves_releaseHandle : Moves r (r.releaseHandle name) [] := by
  unfold Registry.releaseHandle
  cases r.handles.lookup name with
  | none => exact .of_same rfl rfl rfl rfl rfl rfl
  | some h =>
    have herased : Moves r { r with handles := r.handles.erase name } [] :=
      .of_same rfl rfl rfl rfl rfl rfl
    exact herased.trans (.emit _ rfl)

theorem moves_reportStillPending (elapsed : ℕ → ℕ) :
    Moves r (r.reportStillPending elapsed) [] where
  place := by
    simp only [place, Registry.reportStillPending]
    rw [ticketsOf_map]
    intro e
    split_ifs <;> rfl
  log := ⟨[], by simp [Registry.reportStillPending], by simp⟩
  nextId := rfl

theorem moves_dropHandle : Moves r (r.dropHandle name).1 (r.dropHandle name).2 := by
  simp only [Registry.dropHandle]
  have hrelease := moves_releaseHandle r name
  generalize r.releaseHandle name = r₁ at hrelease ⊢
  have hacquiring : Moves r₁ { r₁ with acquiring := Function.update r₁.acquiring name false } [] :=
    .of_same rfl rfl rfl rfl rfl rfl
  have hmoves := ((hrelease.trans hacquiring).trans (moves_holdArmed _ name)).trans
    (moves_reviveArmed _ name)
  refine hmoves.trans ?_
  refine .of_same rfl rfl rfl rfl rfl ?_
  split <;> rfl

theorem moves_report (event : SubscriptionEvent) (reason : QString) :
    Moves r (r.report name event reason).1 (r.report name event reason).2 := by
  unfold Registry.report
  split
  · exact Moves.then_nil (.emit r rfl) rfl
  · exact .of_same rfl rfl rfl rfl rfl rfl

theorem moves_setStatusCallback (installed : Bool) :
    Moves r (r.setStatusCallback name installed).1 (r.setStatusCallback name installed).2 := by
  simp only [Registry.setStatusCallback]
  have htarget := moves_setTarget r name { r.targets name with onStatus := installed }
  split_ifs
  · exact htarget.trans (moves_report _ name _ _)
  · exact htarget.trans (moves_report _ name _ _)
  · exact htarget

theorem moves_reviveHeld : Moves r (r.reviveHeld name).1 [] := by
  simp only [Registry.reviveHeld]
  split
  · refine ⟨?_, ⟨[], by simp, by simp⟩, rfl⟩
    simp only [place, ticketsOf_map (f := Entry.movedFrom) fun _ => rfl]
  · refine ⟨?_, ⟨[], by simp, by simp⟩, rfl⟩
    have hsplit := ticketsOf_split name r.held
    simp only [place, ticketsOf_append, ticketsOf_map (f := fun e => { e with warnLevel := 0 }) fun _ => rfl,
      ← hsplit]
    abel

theorem moves_rearm (async : Bool) (o : Oracle) :
    Moves r (r.rearm async name o).1.1 (r.rearm async name o).1.2 := by
  simp only [Registry.rearm]
  have hrevive := moves_reviveHeld r name
  generalize r.reviveHeld name = revived at hrevive ⊢
  obtain ⟨r₁, any⟩ := revived
  cases any with
  | false => exact hrevive
  | true =>
    dsimp only
    cases r₁.liveHandle name with
    | some obj => exact (hrevive.trans (moves_armAgainst r₁ name obj)).more rfl
    | none => exact (hrevive.trans (moves_beginAcquire r₁ name async o)).more rfl

theorem moves_reviveAll : Moves r r.reviveAll.1 [] where
  place := by
    have hsplit := ticketsOf_filter_add (fun e => r.manual e.objectName = true) r.armed
    simp only [place, Registry.reviveAll, ticketsOf_append, ticketsOf_nil,
      ticketsOf_map (f := fun e => { e with warnLevel := 0 }) fun _ => rfl]
    simp only [Bool.decide_eq_true, Bool.not_eq_true] at hsplit ⊢
    rw [← hsplit]
    abel
  log := by
    refine ⟨_, rfl, fun e he => ?_⟩
    obtain ⟨stored, -, rfl⟩ := List.mem_map.mp he
    rfl
  nextId := rfl

theorem moves_reconnected {o : Oracle} {r' : Registry × List Instr}
    (h : r.reconnected o = some r') : Moves r r'.1 r'.2 := by
  simp only [Registry.reconnected, Option.ite_none_right_eq_some, Option.some.injEq] at h
  obtain ⟨-, rfl⟩ := h
  have hflight : Moves r { r with inFlight := [] } [] := .of_same rfl rfl rfl rfl rfl rfl
  refine (hflight.trans (moves_reviveAll _)).then_nil (inHand_eq_nil ?_)
  intro i hi
  simp only [List.mem_append, List.mem_map, List.mem_singleton] at hi
  rcases hi with (⟨n, -, rfl⟩ | ⟨n, -, rfl⟩) | rfl <;> rfl

theorem moves_acquired (ok : Bool) :
    Moves r (r.acquired name ok).1 (r.acquired name ok).2 := by
  simp only [Registry.acquired]
  have hdone : Moves r { r with
      inFlight := r.inFlight.erase name
      acquiring := Function.update r.acquiring name false } [] := .of_same rfl rfl rfl rfl rfl rfl
  split
  · exact (hdone.trans (moves_newHandle _)).trans (moves_armAgainst _ name _)
  · exact hdone.trans (moves_abandon _ name)

end operations

/-! ## The invariant -/

/-- Every id that was added and not removed is in one place, once; no other id is anywhere. -/
structure Partition (ids : Multiset ℕ) (log : List Event) (nextId : ℕ) : Prop where
  nodup : ids.Nodup
  live : ∀ n, n ∈ ids ↔ Live log n
  issued : ∀ e ∈ log, ∀ n, e.subject = some n → n < nextId

namespace Partition
variable {ids : Multiset ℕ} {log : List Event} {nextId n : ℕ}

theorem lt (h : Partition ids log nextId) (hn : n ∈ ids) : n < nextId :=
  h.issued _ ((h.live n).mp hn).added n rfl

/-- An id that is not issued yet is the subject of nothing. -/
theorem fresh (h : Partition ids log nextId) {e : Event} (he : e.subject = some nextId) :
    e ∉ log :=
  fun hin => absurd (h.issued e hin nextId he) (lt_irrefl _)

theorem silent (h : Partition ids log nextId) {es : List Event} (hes : ∀ e ∈ es, e.Silent)
    (hissued : ∀ e ∈ es, ∀ n, e.subject = some n → n < nextId) :
    Partition ids (log ++ es) nextId where
  nodup := h.nodup
  live n := by rw [live_append_silent hes, h.live]
  issued e he n hn := by
    rcases List.mem_append.mp he with he | he
    · exact h.issued e he n hn
    · exact hissued e he n hn

/-- A new id. -/
theorem add (h : Partition ids log nextId) :
    Partition (nextId ::ₘ ids) (log ++ [.added nextId]) (nextId + 1) := by
  refine ⟨?_, fun n => ?_, fun e he n hn => ?_⟩
  · rw [Multiset.nodup_cons, h.live]
    exact ⟨fun hlive => h.fresh rfl hlive.added, h.nodup⟩
  · rw [Multiset.mem_cons, h.live]
    constructor
    · rintro (rfl | ⟨h₁, h₂, h₃, h₄⟩)
      · have hcancelled := h.fresh (e := .cancelled n) rfl
        have habandoned := h.fresh (e := .abandoned n) rfl
        have hanswered := h.fresh (e := .answered n) rfl
        exact ⟨by simp, by simp [hcancelled], by simp [habandoned], by simp [hanswered]⟩
      · exact ⟨by simp [h₁], by simp [h₂], by simp [h₃], by simp [h₄]⟩
    · rintro ⟨h₁, h₂, h₃, h₄⟩
      simp only [List.mem_append, List.mem_singleton, Event.added.injEq, reduceCtorEq,
        or_false] at h₁ h₂ h₃ h₄
      exact h₁.symm.imp id fun h₁ => ⟨h₁, h₂, h₃, h₄⟩
  · rcases List.mem_append.mp he with he | he
    · exact Nat.lt_succ_of_lt (h.issued e he n hn)
    · rw [List.mem_singleton.mp he] at hn
      obtain rfl : nextId = n := Option.some.inj hn
      exact Nat.lt_succ_self _

/-- An id leaves. -/
theorem remove (h : Partition (n ::ₘ ids) log nextId) {e : Event}
    (he : e = .cancelled n ∨ e = .abandoned n ∨ e = .answered n) :
    Partition ids (log ++ [e]) nextId := by
  obtain ⟨hnot, hnodup⟩ := Multiset.nodup_cons.mp h.nodup
  have hlive : Live log n := (h.live n).mp (Multiset.mem_cons_self n ids)
  have hmoved : e.moved = some n := by rcases he with rfl | rfl | rfl <;> rfl
  refine ⟨hnodup, fun m => ?_, fun e' he' m hm => ?_⟩
  · by_cases hmn : m = n
    · subst hmn
      refine ⟨fun hin => absurd hin hnot, fun hl => ?_⟩
      obtain ⟨-, h₂, h₃, h₄⟩ := hl
      rcases he with rfl | rfl | rfl <;> simp at h₂ h₃ h₄
    · have hids : m ∈ ids ↔ m ∈ n ::ₘ ids := by simp [hmn]
      have hkeeps : ∀ e' : Event, e'.moved = some m → (e' ∈ log ++ [e] ↔ e' ∈ log) := by
        intro e' he'
        rw [List.mem_append, List.mem_singleton]
        refine ⟨fun hin => hin.resolve_right ?_, .inl⟩
        rintro rfl
        rw [hmoved] at he'
        exact hmn (Option.some.inj he').symm
      rw [hids, h.live]
      constructor
      · rintro ⟨h₁, h₂, h₃, h₄⟩
        exact ⟨(hkeeps _ rfl).mpr h₁, fun h => h₂ ((hkeeps _ rfl).mp h),
          fun h => h₃ ((hkeeps _ rfl).mp h), fun h => h₄ ((hkeeps _ rfl).mp h)⟩
      · rintro ⟨h₁, h₂, h₃, h₄⟩
        exact ⟨(hkeeps _ rfl).mp h₁, fun h => h₂ ((hkeeps _ rfl).mpr h),
          fun h => h₃ ((hkeeps _ rfl).mpr h), fun h => h₄ ((hkeeps _ rfl).mpr h)⟩
  · rcases List.mem_append.mp he' with he' | he'
    · exact h.issued e' he' m hm
    · rw [List.mem_singleton.mp he', Event.subject_of_moved hmoved] at hm
      obtain rfl : n = m := Option.some.inj hm
      exact h.lt (Multiset.mem_cons_self n ids)

end Partition

/-- The ids in the vectors and in the loops. -/
def ids (r : Registry) (k : List Instr) : Multiset ℕ := (place r k).map Prod.fst

/-- The invariant of the registry and what is left to do. -/
def Partitioned (r : Registry) (k : List Instr) : Prop := Partition (ids r k) r.log r.nextId

theorem Partitioned.moves {r r' : Registry} {k k' : List Instr} (h : Partitioned r k)
    (hmoves : Moves r r' k') : Partitioned r' (k' ++ k) := by
  obtain ⟨es, hlog, hquiet⟩ := hmoves.log
  rw [Partitioned, ids, hmoves.place_append, hlog, hmoves.nextId]
  refine h.silent (fun e he => (hquiet e he).silent) fun e he n hn => ?_
  rw [hquiet e he] at hn
  cases hn

/-- An entry that leaves a vector, or the hands of a loop. -/
theorem place_cons (r : Registry) (i : Instr) (k : List Instr) :
    place r (i :: k) = ticketsOf i.entry.toList + place r k := by
  simp only [place, inHand_cons, ticketsOf_append]
  abel

theorem Partitioned.of_cons {r : Registry} {i : Instr} {k : List Instr}
    (h : Partitioned r (i :: k)) (hi : i.entry = none) : Partitioned r k := by
  rwa [Partitioned, ids, place_cons, hi, Option.toList_none, ticketsOf_nil, zero_add] at h

/-- The instruction's entry is put down, or handed on. -/
theorem Partitioned.hand {r r' : Registry} {i : Instr} {k k' : List Instr} {e : Entry}
    (h : Partitioned r (i :: k)) (es : List Event) (hi : i.entry = some e)
    (hplace : place r' k' = e.ticket ::ₘ place r []) (hlog : r'.log = r.log ++ es)
    (hes : ∀ ev ∈ es, ev.Silent ∧ ev.subject = some e.id) (hnext : r'.nextId = r.nextId) :
    Partitioned r' (k' ++ k) := by
  have hall : place r' (k' ++ k) = place r (i :: k) := by
    rw [place_append, hplace, place_cons, hi, Option.toList_some, ticketsOf_cons, ticketsOf_nil,
      Multiset.cons_add, Multiset.cons_add, zero_add, ← place_append, List.nil_append]
  have hin : e.id ∈ ids r (i :: k) := by
    simp [ids, place_cons, hi, Entry.ticket]
  rw [Partitioned, ids, hall, hlog, hnext]
  refine h.silent (fun ev hev => (hes ev hev).1) fun ev hev n hn => ?_
  rw [(hes ev hev).2] at hn
  obtain rfl : e.id = n := Option.some.inj hn
  exact Partition.lt h hin

/-- The instruction's entry is forgotten. -/
theorem Partitioned.forget {r : Registry} {i : Instr} {k : List Instr} {e : Entry} {ev : Event}
    (h : Partitioned r (i :: k)) (hi : i.entry = some e)
    (hev : ev = .cancelled e.id ∨ ev = .abandoned e.id ∨ ev = .answered e.id) :
    Partitioned (r.emit ev) k := by
  rw [Partitioned, ids, place_cons, hi, Option.toList_some, ticketsOf_cons, ticketsOf_nil,
    Multiset.cons_add, zero_add, Multiset.map_cons] at h
  exact h.remove hev

/-! ## What instructions do -/

/-- A drop leaves an edge and a chase. -/
theorem entry_dropHandle {r : Registry} {name : QString} {i : Instr}
    (h : i ∈ (r.dropHandle name).2) : i.entry = none := by
  rw [Registry.dropHandle_eq] at h
  rcases List.mem_append.mp h with h | h
  · split at h
    · rw [List.mem_singleton.mp h]
      rfl
    · cases h
  · rw [List.mem_singleton.mp h]
    rfl

theorem entry_refuse {r : Registry} {onArmed : Option ℕ} {i : Instr}
    (h : i ∈ (r.refuse onArmed).2) : i.entry = none := by
  simp only [Registry.refuse] at h
  split at h
  · rw [List.mem_singleton.mp h]
    rfl
  · cases h

/-- An instruction with no entry in hand moves entries. -/
theorem exec_moves {async : Bool} {r : Registry} {i : Instr} {o : Oracle}
    {r' : Registry × List Instr} (hi : i.entry = none) (hexec : exec async r i o = some r') :
    Moves r r'.1 r'.2 := by
  cases i with
  | callback =>
    cases hexec
    exact .of_same rfl rfl rfl rfl rfl rfl
  | arm handle e => cases hi
  | pushArmed e => cases hi
  | abandon e => cases hi
  | report name event reason =>
    cases hexec
    exact moves_report r name event reason
  | ensureTimer =>
    cases hexec
    exact moves_ensureTimer r
  | beginAcquire name =>
    cases hexec
    exact moves_beginAcquire r name async o
  | checkLiveness =>
    simp only [exec] at hexec
    split_ifs at hexec
    · cases hexec
      exact .of_same rfl rfl rfl rfl rfl rfl
    · cases hexec
      refine .of_same rfl rfl rfl rfl rfl (inHand_eq_nil ?_)
      intro i hi
      simp only [List.mem_append, List.mem_map, List.mem_singleton] at hi
      rcases hi with ⟨n, -, rfl⟩ | rfl <;> rfl
  | drop name =>
    cases hexec
    exact moves_dropHandle r name
  | chase name =>
    simp only [exec] at hexec
    split_ifs at hexec
    · cases hexec
      exact moves_beginAcquire r name async o
    · cases hexec
      exact .of_same rfl rfl rfl rfl rfl rfl
  | chaseWanted =>
    simp only [exec, Option.ite_none_right_eq_some, Option.some.injEq] at hexec
    obtain ⟨-, rfl⟩ := hexec
    refine .of_same rfl rfl rfl rfl rfl (inHand_eq_nil ?_)
    intro i hi
    obtain ⟨n, -, rfl⟩ := List.mem_map.mp hi
    rfl
  | finishTick =>
    cases hexec
    refine .trans (moves_reportStillPending r o.elapsed) ?_
    rw [Registry.rescheduleOrStop_eq]
    exact .of_same rfl rfl rfl rfl rfl rfl

/-- The call of an entry's callback, if it has one. -/
def firing (e : Entry) (ok : Bool) : List Event :=
  if e.onArmed.isSome then [.onArmed e.id ok] else []

/-- The user code that goes with it. -/
def userCode (e : Entry) : List Instr := if e.onArmed.isSome then [.callback] else []

@[simp] theorem inHand_userCode (e : Entry) : inHand (userCode e) = [] := by
  unfold userCode
  split <;> rfl

theorem eq_of_mem_firing {e : Entry} {ok : Bool} {ev : Event} (h : ev ∈ firing e ok) :
    ev = .onArmed e.id ok := by
  unfold firing at h
  split at h
  · exact List.mem_singleton.mp h
  · cases h

/-- The loop of `armAgainst`, on a probe. -/
theorem exec_arm_probe {async : Bool} (r : Registry) (handle : ℕ) {e : Entry} (o : Oracle)
    (he : e.readinessOnly = true) : exec async r (.arm handle e) o =
      some ({ r with log := r.log ++ .answered e.id :: firing e true }, userCode e) := by
  by_cases hfire : e.onArmed.isSome = true
  · simp [exec, he, firing, userCode, hfire, Registry.emit]
  · simp [exec, he, firing, userCode, hfire, Registry.emit]

/-- The loop of `armAgainst`, on a subscription. -/
theorem exec_arm_real {async : Bool} (r : Registry) (handle : ℕ) {e : Entry} (o : Oracle)
    (he : e.readinessOnly = false) : exec async r (.arm handle e) o =
      some ({ r with log := r.log ++ .attached e.id e.objectName handle :: firing e true },
        userCode e ++ [.pushArmed { e with everArmed := true }]) := by
  by_cases hfire : e.onArmed.isSome = true
  · simp [exec, he, firing, userCode, hfire, Registry.emit]
  · simp [exec, he, firing, userCode, hfire, Registry.emit]

theorem exec_abandon {async : Bool} (r : Registry) (e : Entry) (o : Oracle) :
    exec async r (.abandon e) o =
      some ({ r with log := r.log ++ .abandoned e.id :: firing e false }, userCode e) := by
  simp only [exec, firing, userCode]
  split_ifs <;> simp [Registry.emit]

theorem partitioned_exec {async : Bool} {r : Registry} {i : Instr} {k : List Instr} {o : Oracle}
    {r' : Registry × List Instr} (h : Partitioned r (i :: k))
    (hexec : exec async r i o = some r') : Partitioned r'.1 (r'.2 ++ k) := by
  have hfired : ∀ (e : Entry) (ok : Bool), ∀ ev ∈ firing e ok,
      ev.Silent ∧ ev.subject = some e.id := fun e ok ev hev => by
    rw [eq_of_mem_firing hev]
    exact ⟨rfl, rfl⟩
  -- An entry that is forgotten: the event that says so, and then the callback.
  have hforget : ∀ (e : Entry) (ev : Event) (ok : Bool), i.entry = some e →
      ev = .abandoned e.id ∨ ev = .answered e.id →
      Partitioned { r with log := r.log ++ ev :: firing e ok } (userCode e ++ k) := by
    intro e ev ok hi hev
    have hgone : Partitioned (r.emit ev) k := h.forget hi (.inr hev)
    have hids : ids { r with log := r.log ++ ev :: firing e ok } (userCode e ++ k) = ids r k := by
      simp [ids, place]
    have hin : e.id ∈ ids r (i :: k) := by
      simp [ids, place_cons, hi, Entry.ticket]
    rw [Partitioned, hids, List.append_cons]
    refine Partition.silent hgone (fun ev hfire => (hfired e ok ev hfire).1) fun ev hfire n hn => ?_
    rw [(hfired e ok ev hfire).2] at hn
    obtain rfl : e.id = n := Option.some.inj hn
    exact Partition.lt h hin
  cases hi : i.entry with
  | none => exact (h.of_cons hi).moves (exec_moves hi hexec)
  | some e =>
    cases i with
    | arm handle e' =>
      obtain rfl : e' = e := Option.some.inj hi
      cases hprobe : e'.readinessOnly with
      | true =>
        rw [exec_arm_probe r handle o hprobe] at hexec
        cases hexec
        exact hforget e' _ true hi (.inr rfl)
      | false =>
        rw [exec_arm_real r handle o hprobe] at hexec
        cases hexec
        refine h.hand (.attached e'.id e'.objectName handle :: firing e' true) hi ?_ rfl ?_ rfl
        · simp only [place, inHand_append, inHand_userCode, inHand_cons, inHand_nil, Instr.entry,
            Option.toList_some, List.nil_append, List.append_nil, ticketsOf_cons, ticketsOf_nil,
            Entry.ticket, ← Multiset.singleton_add]
          abel
        · intro ev hev
          rcases List.mem_cons.mp hev with rfl | hev
          · exact ⟨rfl, rfl⟩
          · exact hfired e' true ev hev
    | pushArmed e' =>
      obtain rfl : e' = e := Option.some.inj hi
      cases hexec
      refine h.hand [] hi ?_ (by simp) (by simp) rfl
      simp only [place, ticketsOf_append, ticketsOf_cons, ticketsOf_nil, inHand_nil,
        ← Multiset.singleton_add]
      abel
    | abandon e' =>
      obtain rfl : e' = e := Option.some.inj hi
      rw [exec_abandon] at hexec
      cases hexec
      exact hforget e' _ false hi (.inl rfl)
    | _ => cases hi

theorem ticketsOf_eraseP {es : List Entry} {n : ℕ} (h : es.any fun e => e.id = n) :
    ∃ b, ticketsOf es = (n, b) ::ₘ ticketsOf (es.eraseP fun e => e.id = n) := by
  induction es with
  | nil => simp at h
  | cons e es ih =>
    by_cases he : e.id = n
    · exact ⟨e.readinessOnly, by simp [he, Entry.ticket]⟩
    · have hrest : es.any fun e => e.id = n := by simpa [he] using h
      obtain ⟨b, hb⟩ := ih hrest
      refine ⟨b, ?_⟩
      rw [List.eraseP_cons_of_neg (by simpa using he), ticketsOf_cons, ticketsOf_cons, hb,
        Multiset.cons_swap]

/-- A cancel takes one ticket out, or it does nothing. -/
theorem cancel_cases (r : Registry) (k : List Instr) (n : ℕ) :
    (∃ b, place r k = (n, b) ::ₘ place (r.cancel n).1 k ∧
      (r.cancel n).1.log = r.log ++ [.cancelled n] ∧ (r.cancel n).1.nextId = r.nextId ∧
      (r.cancel n).2 = true) ∨
    r.cancel n = (r, false) := by
  simp only [Registry.cancel]
  split_ifs with hentries harmed hheld
  · obtain ⟨b, hb⟩ := ticketsOf_eraseP hentries
    refine .inl ⟨b, ?_⟩
    rw [Registry.stopTimerIfIdle_eq]
    refine ⟨?_, rfl, rfl, rfl⟩
    simp only [place, Registry.emit, hb, Multiset.cons_add]
  · obtain ⟨b, hb⟩ := ticketsOf_eraseP harmed
    refine .inl ⟨b, ?_, rfl, rfl, rfl⟩
    simp only [place, Registry.emit, hb, Multiset.cons_add, Multiset.add_cons]
  · obtain ⟨b, hb⟩ := ticketsOf_eraseP hheld
    refine .inl ⟨b, ?_, rfl, rfl, rfl⟩
    simp only [place, Registry.emit, hb, Multiset.cons_add, Multiset.add_cons]
  · exact .inr rfl

/-- A cancelled id leaves the one place it was in. -/
theorem partitioned_cancel {r : Registry} {k : List Instr} (n : ℕ) (h : Partitioned r k) :
    Partitioned (r.cancel n).1 k := by
  rcases cancel_cases r k n with ⟨b, hplace, hlog, hnext, -⟩ | hnone
  · rw [Partitioned, ids, hplace, Multiset.map_cons] at h
    rw [Partitioned, hlog, hnext]
    exact h.remove (.inl rfl)
  · rw [hnone]
    exact h

/-- A new entry is one more ticket. -/
theorem place_push (r : Registry) (e : Entry) (k : List Instr) :
    place (r.push e) k = (r.nextId, e.readinessOnly) ::ₘ place r k := by
  simp only [place, Registry.push, Registry.emit, ticketsOf_append, ticketsOf_cons, ticketsOf_nil,
    ← Multiset.singleton_add, Entry.ticket]
  abel

theorem partitioned_push {r : Registry} {k : List Instr} (e : Entry) (h : Partitioned r k) :
    Partitioned (r.push e) k := by
  rw [Partitioned, ids, place_push, Multiset.map_cons]
  exact Partition.add h

/-! ## What calls do -/

theorem moves_refuse (r : Registry) (onArmed : Option ℕ) :
    Moves r (r.refuse onArmed).1 (r.refuse onArmed).2 := by
  refine .of_same rfl rfl rfl rfl rfl ?_
  unfold Registry.refuse
  split <;> rfl

theorem moves_add (async : Bool) (r : Registry) (e : Entry) (o : Oracle) :
    Moves (r.push e) (r.add async e o).1 (r.add async e o).2 := by
  rcases r.add_cases async e o with
    ⟨obj, -, hadd⟩ | ⟨-, -, hadd⟩ | ⟨-, -, _, _, _, hadd⟩
  · rw [hadd]
    exact moves_armAgainst _ e.objectName obj
  · rw [hadd]
    exact (moves_newHandle _).trans (moves_armAgainst _ e.objectName _)
  · rw [hadd]
    exact .of_same rfl rfl rfl rfl rfl rfl

/-- A call moves entries, after a new one or not, or it is a cancel. -/
theorem call_cases {async : Bool} {r : Registry} {op : Op} {o : Oracle}
    {r' : Registry × List Instr} (hcall : call async r op o = some r') :
    Moves r r'.1 r'.2 ∨ (∃ e, e.objectName ≠ [] ∧ r' = r.add async e o) ∨
      ∃ n, op = .cancelEventSubscription n ∧ r' = ((r.cancel n).1, []) := by
  have hsame : Moves r r [] := .of_same rfl rfl rfl rfl rfl rfl
  cases op with
  | onEventWhenAvailable objectName eventName callback onArmed =>
    simp only [call] at hcall
    split_ifs at hcall with hname
    · cases hcall
      exact .inl (moves_refuse r onArmed)
    · cases hcall
      exact .inr (.inl ⟨_, hname, rfl⟩)
  | whenObjectAvailable objectName onReady =>
    simp only [call] at hcall
    split_ifs at hcall with hname
    · cases hcall
      exact .inl (moves_refuse r _)
    · cases hcall
      exact .inr (.inl ⟨_, hname, rfl⟩)
  | cancelEventSubscription n =>
    cases hcall
    exact .inr (.inr ⟨n, rfl, rfl⟩)
  | setSubscriptionStatusCallback objectName installed =>
    simp only [call] at hcall
    split_ifs at hcall
    · cases hcall
      exact .inl hsame
    · cases hcall
      exact .inl (moves_setStatusCallback r objectName installed)
  | setSubscriptionRestartPolicy objectName policy =>
    simp only [call] at hcall
    split_ifs at hcall
    · cases hcall
      exact .inl hsame
    · cases hcall
      exact .inl (moves_setTarget r objectName _)
  | rearmSubscriptions objectName =>
    simp only [call] at hcall
    split_ifs at hcall
    · cases hcall
      exact .inl hsame
    · cases hcall
      exact .inl (moves_rearm r objectName async o)
  | reconnect => exact .inl (moves_reconnected r hcall)
  | tick =>
    cases hcall
    exact .inl (.of_same rfl rfl rfl rfl rfl rfl)
  | acquired objectName ok =>
    simp only [call, Option.ite_none_right_eq_some, Option.some.injEq] at hcall
    obtain ⟨-, rfl⟩ := hcall
    exact .inl (moves_acquired r objectName ok)
  | setValid handle valid =>
    cases hcall
    exact .inl (.of_same rfl rfl rfl rfl rfl rfl)

theorem partitioned_call {async : Bool} {r : Registry} {op : Op} {k : List Instr} {o : Oracle}
    {r' : Registry × List Instr} (h : Partitioned r k) (hcall : call async r op o = some r') :
    Partitioned r'.1 (r'.2 ++ k) := by
  rcases call_cases hcall with hmoves | ⟨e, -, rfl⟩ | ⟨n, -, rfl⟩
  · exact h.moves hmoves
  · exact (partitioned_push e h).moves (moves_add async r e o)
  · exact partitioned_cancel n h

theorem partitioned_initial : Partitioned {} [] where
  nodup := Multiset.nodup_zero
  live n := by
    refine ⟨fun h => absurd h (Multiset.notMem_zero n), fun h => ?_⟩
    exact absurd h.added List.not_mem_nil
  issued := by simp

/-- **Partition.**  In every run, callbacks calling back or not. -/
theorem partitioned_of_reachable {async : Bool} {c : Program.Config Registry Instr}
    (h : (program async).system.Reachable c) : Partitioned c.data c.stack :=
  Program.invariant (P := program async) (I := Partitioned) partitioned_initial
    (fun _ _ _ _ _ hI hexec => partitioned_exec hI hexec)
    (fun _ _ _ _ _ hI hcall => partitioned_call hI hcall) h

end LogosProtocol.PendingSubscriptions
