import Mathlib.Data.List.Forall2
import Mathlib.Data.Set.Image
import Mathlib.Tactic.Common

/-!
# Two machines that answer in step

A machine answers one call at a time.  Two machines are compared by a relation between their
states: if every pair of calls that may stand in the same place is answered alike and keeps the
relation, all their answers are alike, over sequences of any length.  With one machine and two
sequences of calls this is noninterference; with two machines and one sequence it is a
refinement, and `forall₂_trace_iff` says for which sequences it holds.

## Main definitions

* `trace` — the calls with their answers.
* `Paired` — two sequences of calls, compared in the states the first machine goes through.
* `answersTo` — the answers to the calls of a kind.
* `upTo` — the traces of a machine whose answers are determined up to a relation only.
-/

namespace LogosProtocol.Lockstep

variable {σ τ α β γ δ : Type*}

/-- Each call with its answer. -/
def trace (f : σ → α → γ × σ) : σ → List α → List (α × γ)
  | _, [] => []
  | s, a :: as => (a, (f s a).1) :: trace f (f s a).2 as

/-- The two sequences are of one length, and what stands in the same place is paired in the
state that the first machine is in. -/
inductive Paired (f : σ → α → γ × σ) (P : σ → α → β → Prop) : σ → List α → List β → Prop
  | nil (s : σ) : Paired f P s [] []
  | cons {s : σ} {a : α} {b : β} {as : List α} {bs : List β} :
      P s a b → Paired f P (f s a).2 as bs → Paired f P s (a :: as) (b :: bs)

variable {f : σ → α → γ × σ} {g : τ → β → δ × τ} {R : σ → τ → Prop}

/-- **The lockstep rule.** What is paired is answered alike and keeps the relation. -/
theorem Paired.forall₂_trace {P : σ → α → β → Prop} {A : α × γ → β × δ → Prop}
    (hstep : ∀ s t a b, R s t → P s a b →
      A (a, (f s a).1) (b, (g t b).1) ∧ R (f s a).2 (g t b).2)
    {s : σ} {t : τ} {as : List α} {bs : List β} (h : Paired f P s as bs) (hR : R s t) :
    List.Forall₂ A (trace f s as) (trace g t bs) := by
  induction h generalizing t with
  | nil => exact .nil
  | cons hP _ ih =>
    have hnext := hstep _ t _ _ hR hP
    exact .cons hnext.1 (ih hnext.2)

/-- **The lockstep rule, both ways.** If the answers to a call are alike exactly when the call
is good, and a good call keeps the relation, the answers to a sequence are alike exactly when
all of its calls are good. -/
theorem forall₂_trace_iff {g : τ → α → δ × τ} {A : α × γ → α × δ → Prop} {V Good : α → Prop}
    (hanswer : ∀ s t a, R s t → V a → (A (a, (f s a).1) (a, (g t a).1) ↔ Good a))
    (hstep : ∀ s t a, R s t → V a → Good a → R (f s a).2 (g t a).2)
    {s : σ} {t : τ} (hR : R s t) {as : List α} (hV : ∀ a ∈ as, V a) :
    List.Forall₂ A (trace f s as) (trace g t as) ↔ ∀ a ∈ as, Good a := by
  induction as generalizing s t with
  | nil => simp [trace]
  | cons a as ih =>
    obtain ⟨ha, has⟩ := List.forall_mem_cons.mp hV
    rw [trace, trace, List.forall₂_cons, hanswer s t a hR ha, List.forall_mem_cons]
    refine and_congr_right fun hgood => ?_
    exact ih (hstep s t a hR ha hgood) has

/-! ## The answers to some of the calls -/

/-- The answers to the calls that `p` selects. -/
def answersTo (p : α → Bool) (tr : List (α × γ)) : List γ :=
  (tr.filter fun x => p x.1).map Prod.snd

theorem answersTo_cons (p : α → Bool) (x : α × γ) (tr : List (α × γ)) :
    answersTo p (x :: tr) = if p x.1 then x.2 :: answersTo p tr else answersTo p tr := by
  cases hp : p x.1 <;> simp [answersTo, hp]

/-- The traces with the same calls and answers that are related. -/
def upTo (E : γ → γ → Prop) (tr : List (α × γ)) : Set (List (α × γ)) :=
  {tr' | List.Forall₂ (fun x y => x.1 = y.1 ∧ E x.2 y.2) tr tr'}

theorem forall₂_answersTo {p : α → Bool} {q : β → Bool} {E : γ → δ → Prop}
    {tr : List (α × γ)} {tr' : List (β × δ)}
    (h : List.Forall₂ (fun x y => p x.1 = q y.1 ∧ (p x.1 = true → E x.2 y.2)) tr tr') :
    List.Forall₂ E (answersTo p tr) (answersTo q tr') := by
  induction h with
  | nil => exact .nil
  | @cons x y _ _ hxy _ ih =>
    rw [answersTo_cons, answersTo_cons, ← hxy.1]
    cases hp : p x.1 with
    | true => exact .cons (hxy.2 hp) ih
    | false => exact ih

/-- The answers to the selected calls may be any that are related to those of the machine. -/
theorem answersTo_image_upTo {E : γ → γ → Prop} (hrefl : ∀ c, E c c) (p : α → Bool)
    (tr : List (α × γ)) :
    answersTo p '' upTo E tr = {cs | List.Forall₂ E (answersTo p tr) cs} := by
  ext cs
  constructor
  · rintro ⟨tr', htr', rfl⟩
    refine forall₂_answersTo (htr'.imp fun x y hxy => ?_)
    exact ⟨congrArg p hxy.1, fun _ => hxy.2⟩
  · intro h
    induction tr generalizing cs with
    | nil => exact ⟨[], .nil, (List.forall₂_nil_left_iff.mp h).symm⟩
    | cons x tr ih =>
      cases hp : p x.1 with
      | true =>
        rw [Set.mem_ofPred_eq, answersTo_cons, if_pos hp, List.forall₂_cons_left_iff] at h
        obtain ⟨c, cs', hc, hcs', rfl⟩ := h
        obtain ⟨tr', htr', heq⟩ := ih cs' hcs'
        exact ⟨(x.1, c) :: tr', .cons ⟨rfl, hc⟩ htr', by simp [answersTo_cons, hp, heq]⟩
      | false =>
        rw [Set.mem_ofPred_eq, answersTo_cons, if_neg (by simp [hp])] at h
        obtain ⟨tr', htr', heq⟩ := ih cs h
        exact ⟨x :: tr', .cons ⟨rfl, hrefl x.2⟩ htr', by simp [answersTo_cons, hp, heq]⟩

theorem forall₂_equivalence {E : γ → γ → Prop} (hE : Equivalence E) :
    Equivalence (List.Forall₂ E) where
  refl cs := List.forall₂_same.mpr fun c _ => hE.refl c
  symm h := (h.imp fun _ _ hE' => hE.symm hE').flip
  trans := by
    intro as bs cs h h'
    induction h generalizing cs with
    | nil => exact h'
    | cons hab _ ih =>
      obtain ⟨c, cs', hbc, hcs', rfl⟩ := List.forall₂_cons_left_iff.mp h'
      exact .cons (hE.trans hab hbc) (ih hcs')

/-- If the answers of two machines are related, what they may answer is the same. -/
theorem answersTo_image_upTo_eq {E : γ → γ → Prop} (hE : Equivalence E) {p : α → Bool}
    {tr tr' : List (α × γ)} (h : List.Forall₂ E (answersTo p tr) (answersTo p tr')) :
    answersTo p '' upTo E tr = answersTo p '' upTo E tr' := by
  have hlists := forall₂_equivalence hE
  rw [answersTo_image_upTo hE.refl, answersTo_image_upTo hE.refl]
  ext cs
  constructor
  · exact fun hcs => hlists.trans (hlists.symm h) hcs
  · exact fun hcs => hlists.trans h hcs

end LogosProtocol.Lockstep
