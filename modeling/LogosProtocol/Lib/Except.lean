import Mathlib.Tactic.Common

/-!
# Computations that may throw

`Succeeds x` says that `x` returns.  The rules below take it apart along the computation,
so a proof never has to look at which exception was thrown.
-/

namespace LogosProtocol

variable {ε α β : Type}

/-- The computation returns a value. -/
def Succeeds (x : Except ε α) : Prop := ∃ a, x = .ok a

@[simp] theorem succeeds_ok (a : α) : Succeeds (.ok a : Except ε α) := ⟨a, rfl⟩

@[simp] theorem succeeds_pure (a : α) : Succeeds (pure a : Except ε α) := ⟨a, rfl⟩

@[simp] theorem not_succeeds_error (e : ε) : ¬ Succeeds (.error e : Except ε α) := by
  intro ⟨a, h⟩
  cases h

@[simp] theorem ok_bind (a : α) (f : α → Except ε β) : (Except.ok a >>= f) = f a := rfl

@[simp] theorem error_bind (e : ε) (f : α → Except ε β) :
    ((Except.error e : Except ε α) >>= f) = .error e := rfl

@[simp] theorem map_ok (a : α) (f : α → β) : (Except.ok a : Except ε α).map f = .ok (f a) := rfl

@[simp] theorem map_functor_map {γ : Type} (x : Except ε α) (f : α → β) (g : β → γ) :
    (f <$> x).map g = (fun a => g (f a)) <$> x := by
  cases x with
  | ok a => rfl
  | error e => rfl

/-- What follows a computation and always returns does not matter. -/
theorem succeeds_bind_iff {x : Except ε α} {f : α → Except ε β} (hf : ∀ a, Succeeds (f a)) :
    Succeeds (x >>= f) ↔ Succeeds x := by
  cases x with
  | ok a =>
    have h := hf a
    simp [h]
  | error e => simp

/-- Nor does what a computation returns, where what follows does not depend on it. -/
theorem succeeds_bind_iff_and {x : Except ε α} {f : α → Except ε β} {p : Prop}
    (hf : ∀ a, Succeeds (f a) ↔ p) : Succeeds (x >>= f) ↔ Succeeds x ∧ p := by
  cases x with
  | ok a =>
    have h := hf a
    simp [h]
  | error e => simp

theorem bind_eq_ok_iff {x : Except ε α} {f : α → Except ε β} {b : β} :
    (x >>= f) = .ok b ↔ ∃ a, x = .ok a ∧ f a = .ok b := by
  cases x with
  | ok a => simp
  | error e => simp

@[simp] theorem succeeds_map_iff (x : Except ε α) (f : α → β) :
    Succeeds (x.map f) ↔ Succeeds x := by
  cases x with
  | ok a => simp
  | error e => simp [Except.map]

@[simp] theorem succeeds_functor_map_iff (x : Except ε α) (f : α → β) :
    Succeeds (f <$> x) ↔ Succeeds x :=
  succeeds_map_iff x f

theorem map_eq_ok_iff (x : Except ε α) (f : α → β) (b : β) :
    x.map f = .ok b ↔ ∃ a, x = .ok a ∧ f a = b := by
  cases x with
  | ok a => simp
  | error e => simp [Except.map]

@[simp] theorem mapError_eq_ok_iff {ε' : Type} (x : Except ε α) (f : ε → ε') (a : α) :
    x.mapError f = .ok a ↔ x = .ok a := by
  cases x with
  | ok b => simp [Except.mapError]
  | error e => simp [Except.mapError]

/-- A list is processed exactly when each of its members is. -/
@[simp] theorem succeeds_mapM_iff (l : List α) (f : α → Except ε β) :
    Succeeds (l.mapM f) ↔ ∀ a ∈ l, Succeeds (f a) := by
  induction l with
  | nil => simp
  | cons a l ih =>
    rw [List.mapM_cons]
    cases h : f a with
    | error e => simp [h]
    | ok b =>
      rw [ok_bind, succeeds_bind_iff fun bs => succeeds_pure (b :: bs), ih]
      simp [h]

/-- A list whose members are each left as they are. -/
theorem mapM_eq_ok_self {l : List α} {f : α → Except ε α} (h : ∀ a ∈ l, f a = .ok a) :
    l.mapM f = .ok l := by
  induction l with
  | nil => rfl
  | cons a l ih =>
    have ha : f a = .ok a := h a (List.mem_cons_self ..)
    have hl : l.mapM f = .ok l := ih fun b hb => h b (List.mem_cons_of_mem a hb)
    rw [List.mapM_cons, ha, hl]
    rfl

end LogosProtocol
