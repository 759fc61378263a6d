import Mathlib.Data.Set.Insert
import Mathlib.Tactic.Common
import Mathlib.Algebra.Order.Group.Nat

/-!
# Establishments and losses of a provider

What a subscriber is told of a provider: it is established, for the first time or again, under
a number that counts establishments, and it is lost.  A provider stands behind a handle.  A
handle that has carried a subscription is used, and only an unused one establishes the provider
again.

Between two establishments that a subscriber is told of, it is told of one loss, if it stays
subscribed.

## Main definitions

* `Establishment.View` — what matters of one provider.
* `Establishment.Step` — what may happen to it.
* `Establishment.Tracked` — a subscriber since an establishment it was told of.
-/

namespace LogosProtocol.Establishment

universe u

/-- What a subscriber is told. -/
inductive Edge
  | established
  | lost
  | abandoned
  deriving DecidableEq, Repr

/-- One provider, its subscribers `S` and its handles `H`. -/
structure View (S H : Type u) where
  generation : ℕ
  /-- Subscribers that are attached. -/
  armed : Set S
  /-- Losses that are not told yet. -/
  losses : ℕ
  handle : Option H
  used : Set H
  /-- What was told, with the generation it was told under. -/
  edges : List (Edge × ℕ)
  cancelled : List S

section
variable {S H : Type u}

/-- What may happen to a provider. -/
inductive Step : View S H → View S H → Prop
  | stutter (v) : Step v v
  | cancel (v) (n : S) (armed : Set S) (hsub : armed ⊆ v.armed)
      (hkeeps : ∀ m ∈ v.armed, m ≠ n → m ∈ armed) :
    Step v { v with armed := armed, cancelled := v.cancelled ++ [n] }
  /-- A handle is there, and nobody subscribes. -/
  | store (v) (h : H) (hused : h ∉ v.used) (harmed : v.armed = ∅) :
    Step v { v with handle := some h }
  /-- The first subscribers of a handle. -/
  | establish (v) (h : H) (hused : h ∉ v.used) (harmed : v.armed = ∅) (hlosses : v.losses = 0) :
    Step v { v with
      generation := v.generation + 1, handle := some h, used := insert h v.used }
  | push (v) (n : S) (h : H) (hstored : v.handle = some h) (hused : h ∈ v.used) :
    Step v { v with armed := insert n v.armed }
  | lose (v) (losses : ℕ) (hsome : v.armed.Nonempty → losses = v.losses + 1)
      (hnone : v.armed = ∅ → losses = v.losses) :
    Step v { v with handle := none, armed := ∅, losses := losses }
  | tellLoss (v) (losses : ℕ) (hlosses : v.losses = losses + 1) :
    Step v { v with losses := losses, edges := v.edges ++ [(.lost, v.generation)] }
  | tell (v) (e : Edge) (he : e ≠ .lost) : Step v { v with edges := v.edges ++ [(e, v.generation)] }

/-- Subscribers are attached to the handle that is stored, and nobody is while a loss is not
told. -/
structure Inv (v : View S H) : Prop where
  carried : v.armed.Nonempty → ∃ h, v.handle = some h ∧ h ∈ v.used
  untold : v.losses ≠ 0 → v.armed = ∅ ∧ ∀ h, v.handle = some h → h ∉ v.used
  one : v.losses ≤ 1

theorem Inv.step {v v' : View S H} (h : Inv v) (hstep : Step v v') : Inv v' := by
  cases hstep with
  | stutter => exact h
  | cancel n armed hsub hkeeps =>
    refine ⟨fun hsome => h.carried (hsome.mono hsub), fun hlosses => ?_, h.one⟩
    obtain ⟨harmed, hunused⟩ := h.untold hlosses
    exact ⟨Set.subset_eq_empty hsub harmed, hunused⟩
  | store handle hused harmed =>
    refine ⟨fun hsome => absurd harmed hsome.ne_empty, fun _ => ⟨harmed, fun h' hstored => ?_⟩, h.one⟩
    exact Option.some.inj hstored ▸ hused
  | establish handle hused harmed hlosses =>
    exact ⟨fun hsome => absurd harmed hsome.ne_empty, fun hne => absurd hlosses hne, h.one⟩
  | push n handle hstored hused =>
    refine ⟨fun _ => ⟨handle, hstored, hused⟩, fun hlosses => ?_, h.one⟩
    exact absurd hused ((h.untold hlosses).2 handle hstored)
  | lose losses hsome hnone =>
    refine ⟨fun hne => absurd rfl hne.ne_empty, fun _ => ⟨rfl, nofun⟩, ?_⟩
    rcases v.armed.eq_empty_or_nonempty with harmed | harmed
    · exact (hnone harmed).le.trans h.one
    · have hzero : v.losses = 0 := by
        by_contra hne
        exact harmed.ne_empty (h.untold hne).1
      have hlosses := hsome harmed
      dsimp only
      omega
  | tellLoss losses hlosses =>
    have hone := h.one
    refine ⟨h.carried, fun hne => h.untold (by omega), ?_⟩
    dsimp only
    omega
  | tell e he => exact ⟨h.carried, h.untold, h.one⟩

/-- **The generation counts establishments.**  It goes up by one when a handle is used for the
first time, and otherwise it stays. -/
theorem Step.generation {v v' : View S H} (hstep : Step v v') :
    (v'.generation = v.generation + 1 ∧ ∃ h, h ∉ v.used ∧ v'.used = insert h v.used) ∨
      (v'.generation = v.generation ∧ v'.used = v.used) := by
  cases hstep with
  | establish h hused _ _ => exact .inl ⟨rfl, h, hused, rfl⟩
  | _ => exact .inr ⟨rfl, rfl⟩

/-- A handle that comes into use is the one that is stored. -/
theorem Step.used {v v' : View S H} (hstep : Step v v') {h : H} (hused : h ∈ v'.used) :
    h ∈ v.used ∨ v'.handle = some h := by
  cases hstep with
  | establish h' _ _ _ =>
    rcases Set.mem_insert_iff.mp hused with rfl | hused
    · exact .inr rfl
    · exact .inl hused
  | _ => exact .inl hused

/-- What is told is told under the generation there is, to those who are attached. -/
theorem Step.told {v v' : View S H} (hstep : Step v v') {e : Edge} {g : ℕ}
    (h : v'.edges = v.edges ++ [(e, g)]) (he : e ≠ .lost) :
    v.generation = g ∧ v'.generation = g ∧ v'.armed = v.armed := by
  cases hstep with
  | tell e' he' =>
    have hlast := List.append_cancel_left h
    simp only [List.cons.injEq, Prod.mk.injEq, and_true] at hlast
    exact ⟨hlast.2, hlast.2, rfl⟩
  | tellLoss losses hlosses =>
    have hlast := List.append_cancel_left h
    simp only [List.cons.injEq, Prod.mk.injEq, and_true] at hlast
    exact absurd hlast.1.symm he
  | _ => simp at h

/-- A loss told under a generation. -/
def isLoss (g : ℕ) : Edge × ℕ → Bool
  | (.lost, g') => g' = g
  | _ => false

def lossesTold (edges : List (Edge × ℕ)) (g : ℕ) : ℕ := edges.countP (isLoss g)

theorem lossesTold_append (edges edges' : List (Edge × ℕ)) (g : ℕ) :
    lossesTold (edges ++ edges') g = lossesTold edges g + lossesTold edges' g :=
  List.countP_append

/-- A subscriber since it was told of an establishment: it is attached; or the provider is lost,
and it was told or is about to be; or the provider is established again. -/
def Tracked (g : ℕ) (n : S) (edges : List (Edge × ℕ)) (v : View S H) : Prop :=
  (v.generation = g ∧ n ∈ v.armed ∧ lossesTold edges g = 0) ∨
  (v.generation = g ∧ v.armed = ∅ ∧ (∀ h, v.handle = some h → h ∉ v.used) ∧
    v.losses + lossesTold edges g = 1) ∨
  (g < v.generation ∧ lossesTold edges g = 1)

/-- One step, and what is told in it. -/
theorem Tracked.step {g : ℕ} {n : S} {edges : List (Edge × ℕ)} {v v' : View S H}
    (h : Tracked g n edges v) (hinv : Inv v) (hstep : Step v v') (hn : n ∉ v'.cancelled) :
    ∃ told, v'.edges = v.edges ++ told ∧ Tracked g n (edges ++ told) v' := by
  have hnothing : ∀ w : View S H, w.edges = v.edges → Tracked g n edges w →
      ∃ told, w.edges = v.edges ++ told ∧ Tracked g n (edges ++ told) w :=
    fun w hw ht => ⟨[], by rw [hw, List.append_nil], by rwa [List.append_nil]⟩
  cases hstep with
  | stutter => exact hnothing v rfl h
  | cancel m armed hsub hkeeps =>
    have hne : n ≠ m := by
      rintro rfl
      simp at hn
    refine hnothing _ rfl ?_
    rcases h with ⟨hg, harmed, hnone⟩ | ⟨hg, harmed, hunused, hone⟩ | h
    · exact .inl ⟨hg, hkeeps n harmed hne, hnone⟩
    · exact .inr (.inl ⟨hg, Set.subset_eq_empty hsub harmed, hunused, hone⟩)
    · exact .inr (.inr h)
  | store handle hused harmed =>
    refine hnothing _ rfl ?_
    rcases h with ⟨hg, hin, hnone⟩ | ⟨hg, -, -, hone⟩ | h
    · simp [harmed] at hin
    · exact .inr (.inl ⟨hg, harmed, fun h' hstored => Option.some.inj hstored ▸ hused, hone⟩)
    · exact .inr (.inr h)
  | establish handle hused harmed hlosses =>
    refine hnothing _ rfl ?_
    rcases h with ⟨hg, hin, hnone⟩ | ⟨hg, -, -, hone⟩ | ⟨hg, hone⟩
    · simp [harmed] at hin
    · refine .inr (.inr ⟨?_, ?_⟩)
      · dsimp only
        omega
      · omega
    · exact .inr (.inr ⟨Nat.lt_succ_of_lt hg, hone⟩)
  | push m handle hstored hused =>
    refine hnothing _ rfl ?_
    rcases h with ⟨hg, harmed, hnone⟩ | ⟨-, -, hunused, -⟩ | h
    · exact .inl ⟨hg, Set.mem_insert_of_mem m harmed, hnone⟩
    · exact absurd hused (hunused handle hstored)
    · exact .inr (.inr h)
  | lose losses hsome hnone =>
    refine hnothing _ rfl ?_
    rcases h with ⟨hg, harmed, hzero⟩ | ⟨hg, harmed, -, hone⟩ | h
    · have huntold : v.losses = 0 := by
        by_contra hne
        simp [(hinv.untold hne).1] at harmed
      have hlosses := hsome ⟨n, harmed⟩
      exact .inr (.inl ⟨hg, rfl, nofun, by dsimp only; omega⟩)
    · have hlosses := hnone harmed
      exact .inr (.inl ⟨hg, rfl, nofun, by dsimp only; omega⟩)
    · exact .inr (.inr h)
  | tellLoss losses hlosses =>
    refine ⟨_, rfl, ?_⟩
    have hcount : lossesTold (edges ++ [(.lost, v.generation)]) g =
        lossesTold edges g + if v.generation = g then 1 else 0 := by
      rw [lossesTold_append]
      simp [lossesTold, isLoss, List.countP_cons]
    rcases h with ⟨hg, harmed, hzero⟩ | ⟨hg, harmed, hunused, hone⟩ | ⟨hg, hone⟩
    · simp [(hinv.untold (by omega)).1] at harmed
    · rw [if_pos hg] at hcount
      exact .inr (.inl ⟨hg, harmed, hunused, by dsimp only; omega⟩)
    · rw [if_neg hg.ne'] at hcount
      exact .inr (.inr ⟨hg, by omega⟩)
  | tell e he =>
    refine ⟨_, rfl, ?_⟩
    have hcount : lossesTold (edges ++ [(e, v.generation)]) g = lossesTold edges g := by
      rw [lossesTold_append]
      cases e with
      | lost => exact absurd rfl he
      | _ => simp [lossesTold, isLoss]
    simpa only [Tracked, hcount] using h

/-- Told of a later establishment, the subscriber was told of one loss since. -/
theorem Tracked.lossesTold_eq {g : ℕ} {n : S} {edges : List (Edge × ℕ)} {v : View S H}
    (h : Tracked g n edges v) (hg : g < v.generation) : lossesTold edges g = 1 := by
  rcases h with ⟨hsame, -⟩ | ⟨hsame, -⟩ | ⟨-, hone⟩
  · omega
  · omega
  · exact hone

end

end LogosProtocol.Establishment
