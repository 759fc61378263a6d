import Mathlib.Data.List.Basic

/-!
# Histories

A history is the list of what has happened, oldest first.  Rules say what must have happened
before an event, so they are checked for one event at a time and hold for good.

## Main definitions

* `Justified rule log` — the rule held of each event when it happened.
* `Since begins ends log` — something has begun and has not ended since.
-/

namespace LogosProtocol

variable {ε : Type*}

/-- Each event of the history met the rule, given what had happened before. -/
def Justified (rule : List ε → ε → Prop) (log : List ε) : Prop :=
  ∀ before e after, log = before ++ e :: after → rule before e

namespace Justified
variable {rule : List ε → ε → Prop} {log : List ε}

theorem nil : Justified rule [] := by
  intro before e after h
  simp at h

/-- **The extension rule**: one more event has to meet the rule now. -/
theorem concat_iff (e : ε) :
    Justified rule (log ++ [e]) ↔ Justified rule log ∧ rule log e := by
  constructor
  · intro h
    constructor
    · rintro before e' after rfl
      exact h before e' (after ++ [e]) (by simp)
    · exact h log e [] rfl
  · rintro ⟨hlog, he⟩ before e' after h
    rcases List.eq_nil_or_concat after with rfl | ⟨after, last, rfl⟩
    · obtain ⟨rfl, h⟩ := List.append_inj' h rfl
      obtain rfl : e = e' := by simpa using h
      exact he
    · rw [List.concat_eq_append, ← List.cons_append, ← List.append_assoc] at h
      exact hlog before e' after (List.append_inj' h rfl).1

end Justified

/-- An event of the history begins something, and no event after it ends it. -/
def Since (begins ends : ε → Prop) (log : List ε) : Prop :=
  ∃ before e after, log = before ++ e :: after ∧ begins e ∧ ∀ e' ∈ after, ¬ ends e'

namespace Since
variable {begins ends : ε → Prop}

theorem not_nil : ¬ Since begins ends [] := by
  rintro ⟨before, e, after, h, -⟩
  simp at h

/-- **The extension rule**: the last event begins it, or it went on and this one does not end
it. -/
theorem concat_iff (log : List ε) (e : ε) :
    Since begins ends (log ++ [e]) ↔ begins e ∨ (Since begins ends log ∧ ¬ ends e) := by
  constructor
  · rintro ⟨before, e', after, h, hbegins, hends⟩
    rcases List.eq_nil_or_concat after with rfl | ⟨after, last, rfl⟩
    · obtain ⟨rfl, h⟩ := List.append_inj' h rfl
      obtain rfl : e = e' := by simpa using h
      exact .inl hbegins
    · rw [List.concat_eq_append, ← List.cons_append, ← List.append_assoc] at h
      obtain ⟨rfl, h⟩ := List.append_inj' h rfl
      obtain rfl : e = last := by simpa using h
      rw [List.concat_eq_append] at hends
      refine .inr ⟨⟨before, e', after, rfl, hbegins, ?_⟩, hends e (by simp)⟩
      intro e'' he''
      exact hends e'' (List.mem_append_left _ he'')
  · rintro (hbegins | ⟨⟨before, e', after, rfl, hbegins, hends⟩, hlast⟩)
    · exact ⟨log, e, [], rfl, hbegins, by simp⟩
    · refine ⟨before, e', after ++ [e], by simp, hbegins, ?_⟩
      intro e'' he''
      rcases List.mem_append.mp he'' with he'' | he''
      · exact hends e'' he''
      · rw [List.mem_singleton.mp he'']
        exact hlast

end Since

end LogosProtocol
