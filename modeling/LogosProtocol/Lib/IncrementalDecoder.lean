import Mathlib.Data.List.Induction

/-!
# Incremental decoders

A reader is fed a stream in chunks of any size and pulls complete items off the front
of its buffer.  `IncrementalDecoder` names what makes the result independent of the
chunking: an item or an error, once the buffer determines it, is not changed by bytes
that arrive later, and an item consumes something.

`drain` pulls until the buffer is short or corrupt; `feed` is the state of a reader that
drains after every chunk and stops at the first error.

## Main results

* `drain_append` — draining a longer buffer is draining the shorter one and going on.
* `feedAll_eq_drain` — any chunking delivers what draining the whole stream delivers.
* `Drains.iff_drain` — the draining loop ends, with the outcome of `drain`.
-/

namespace LogosProtocol

universe u v w

/-- One attempt to take an item from the front of a buffer. -/
inductive Pull (β : Type u) (α : Type v) (ε : Type w)
  /-- A complete item, and the rest of the buffer. -/
  | item (a : α) (rest : List β)
  /-- The buffer does not hold a complete item yet. -/
  | more
  /-- The buffer cannot be continued to an item. -/
  | fail (e : ε)

/-- A decoder whose answers are stable under more input. -/
structure IncrementalDecoder (β : Type u) (α : Type v) (ε : Type w) where
  pull : List β → Pull β α ε
  pull_consumes : ∀ {b a rest}, pull b = .item a rest → rest.length < b.length
  pull_item_append : ∀ {b a rest} (c), pull b = .item a rest → pull (b ++ c) = .item a (rest ++ c)
  pull_fail_append : ∀ {b e} (c), pull b = .fail e → pull (b ++ c) = .fail e

/-- What a reader has delivered, the error that stopped it, and what is left. -/
structure Drained (β : Type u) (α : Type v) (ε : Type w) where
  delivered : List α
  error : Option ε
  buf : List β
  deriving DecidableEq

namespace IncrementalDecoder
variable {β : Type u} {α : Type v} {ε : Type w} (D : IncrementalDecoder β α ε)

/-- Pull items until the buffer is short or corrupt. -/
def drain (b : List β) : Drained β α ε :=
  match h : D.pull b with
  | .item a rest =>
    have := D.pull_consumes h
    let d := drain rest
    { d with delivered := a :: d.delivered }
  | .more => ⟨[], none, b⟩
  | .fail e => ⟨[], some e, b⟩
termination_by b.length

variable {D}

theorem drain_item {b : List β} {a : α} {rest : List β} (h : D.pull b = .item a rest) :
    D.drain b = { D.drain rest with delivered := a :: (D.drain rest).delivered } := by
  rw [drain]
  split <;> simp_all

theorem drain_more {b : List β} (h : D.pull b = .more) : D.drain b = ⟨[], none, b⟩ := by
  rw [drain]
  split <;> simp_all

theorem drain_fail {b : List β} {e : ε} (h : D.pull b = .fail e) :
    D.drain b = ⟨[], some e, b⟩ := by
  rw [drain]
  split <;> simp_all

/-- The induction that follows the draining loop. -/
theorem drain_induction {P : List β → Prop}
    (item : ∀ b a rest, D.pull b = .item a rest → P rest → P b)
    (more : ∀ b, D.pull b = .more → P b)
    (fail : ∀ b e, D.pull b = .fail e → P b) (b : List β) : P b := by
  induction hn : b.length using Nat.strongRecOn generalizing b with
  | ind n ih =>
    subst hn
    cases h : D.pull b with
    | item a rest => exact item b a rest h (ih _ (D.pull_consumes h) rest rfl)
    | more => exact more b h
    | fail e => exact fail b e h

/-! ## The loop itself -/

/-- Big-step semantics of `while (next()) deliver`, with an error leaving the loop. -/
inductive Drains (D : IncrementalDecoder β α ε) : List β → Drained β α ε → Prop
  | item {b rest : List β} {a : α} {d : Drained β α ε} : D.pull b = .item a rest →
      Drains D rest d → Drains D b { d with delivered := a :: d.delivered }
  | more {b : List β} : D.pull b = .more → Drains D b ⟨[], none, b⟩
  | fail {b : List β} {e : ε} : D.pull b = .fail e → Drains D b ⟨[], some e, b⟩

/-- **The loop ends on every buffer, with the outcome of `drain` and no other.** -/
theorem Drains.iff_drain {b : List β} {d : Drained β α ε} : D.Drains b d ↔ d = D.drain b := by
  constructor
  · intro h
    induction h with
    | item hp _ ih => rw [drain_item hp, ih]
    | more hp => rw [drain_more hp]
    | fail hp => rw [drain_fail hp]
  · rintro rfl
    induction b using drain_induction (D := D) with
    | item b a rest hp ih => rw [drain_item hp]; exact .item hp ih
    | more b hp => rw [drain_more hp]; exact .more hp
    | fail b e hp => rw [drain_fail hp]; exact .fail hp

/-! ## Feeding a stream in chunks -/

/-- Append a chunk and drain, unless an error has stopped the reader. -/
def feed (D : IncrementalDecoder β α ε) (s : Drained β α ε) (chunk : List β) :
    Drained β α ε :=
  match s.error with
  | some _ => s
  | none =>
    let d := D.drain (s.buf ++ chunk)
    { d with delivered := s.delivered ++ d.delivered }

/-- The reader after a list of chunks. -/
def feedAll (D : IncrementalDecoder β α ε) (chunks : List (List β)) : Drained β α ε :=
  chunks.foldl D.feed ⟨[], none, []⟩

/-- Draining a longer buffer is draining the shorter one and, unless that met an error,
going on with what it left. -/
theorem drain_append (b c : List β) :
    (D.drain (b ++ c)).delivered = (D.feed (D.drain b) c).delivered ∧
      (D.drain (b ++ c)).error = (D.feed (D.drain b) c).error ∧
      ((D.drain (b ++ c)).error = none → (D.drain (b ++ c)).buf = (D.feed (D.drain b) c).buf) := by
  induction b using drain_induction (D := D) with
  | item b a rest hp ih =>
    obtain ⟨h₁, h₂, h₃⟩ := ih
    rw [drain_item (D.pull_item_append c hp), drain_item hp]
    simp only [feed] at h₁ h₂ h₃ ⊢
    cases he : (D.drain rest).error <;> simp_all
  | more b hp => simp [drain_more hp, feed]
  | fail b e hp => simp [drain_fail hp, drain_fail (D.pull_fail_append c hp), feed]

theorem feedAll_concat (chunks : List (List β)) (chunk : List β) :
    D.feedAll (chunks ++ [chunk]) = D.feed (D.feedAll chunks) chunk := by
  simp [feedAll]

/-- **Chunking does not matter**: the items, the first error and, when there is none, the
residual buffer are those of draining the whole stream at once. -/
theorem feedAll_eq_drain (hnil : D.pull [] = .more) (chunks : List (List β)) :
    (D.feedAll chunks).delivered = (D.drain chunks.flatten).delivered ∧
      (D.feedAll chunks).error = (D.drain chunks.flatten).error ∧
      ((D.feedAll chunks).error = none →
        (D.feedAll chunks).buf = (D.drain chunks.flatten).buf) := by
  induction chunks using List.reverseRecOn with
  | nil => simp [feedAll, drain_more hnil]
  | append_singleton chunks chunk ih =>
    obtain ⟨h₁, h₂, h₃⟩ := ih
    obtain ⟨g₁, g₂, g₃⟩ := drain_append (D := D) chunks.flatten chunk
    rw [feedAll_concat, List.flatten_append, List.flatten_singleton, g₁, g₂]
    simp only [feed, h₂] at g₂ g₃ ⊢
    cases he : (D.drain chunks.flatten).error with
    | some e => simp [h₁, h₂, he]
    | none =>
      have hbuf := h₃ (h₂.trans he)
      simp only [he] at g₂ g₃
      simp only [h₁, hbuf, true_and]
      intro hnone
      exact (g₃ (g₂.trans hnone)).symm

end IncrementalDecoder

end LogosProtocol
