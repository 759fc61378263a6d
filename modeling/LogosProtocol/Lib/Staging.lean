import LogosProtocol.Lib.Dict

/-!
# A bounded staging area

Values that arrive before anyone asks for them are kept under their keys, with the order in which
the keys came, so that the oldest can go when there are too many.  A value that is staged stays
until it is claimed, or until as many newer ones are staged as there is room for.

## Main definitions

* `Stage` — the values and the order of their keys.
* `Stage.park`, `Stage.drop` — stage a value, and claim or discard one.
* `Stage.WellFormed` — the order lists the keys, once each, within the bound.
* `Stage.newer` — what was staged after a key and is still there.
-/

namespace LogosProtocol

universe u v

structure Stage (K : Type u) (V : Type v) where
  entries : Dict K V := ∅
  order : List K := []

namespace Stage
variable {K : Type u} {V : Type v}

/-- The order lists the keys, once each, within the bound. -/
structure WellFormed (cap : ℕ) (s : Stage K V) : Prop where
  nodup : s.order.Nodup
  keys : ∀ k, k ∈ s.order ↔ k ∈ s.entries
  bound : s.order.length ≤ cap

theorem wellFormed_empty {cap : ℕ} : WellFormed cap ({} : Stage K V) where
  nodup := List.nodup_nil
  keys k := by simp
  bound := Nat.zero_le cap

/-- No more is staged than there is room for. -/
theorem WellFormed.card_le {cap : ℕ} {s : Stage K V} (h : WellFormed cap s) :
    s.entries.keys.length ≤ cap := by
  have hperm : s.entries.keys.Perm s.order := by
    refine (List.perm_ext_iff_of_nodup s.entries.keys_nodup h.nodup).mpr fun k => ?_
    rw [h.keys k, AList.mem_keys]
  rw [hperm.length_eq]
  exact h.bound

/-- Whether the oldest has to go for a new value. -/
theorem WellFormed.room_or_full {cap : ℕ} {s : Stage K V} (h : WellFormed cap s) (hcap : 0 < cap) :
    s.order.length < cap ∨ ∃ oldest rest, s.order = oldest :: rest ∧ s.order.length = cap := by
  rcases h.bound.lt_or_eq with hroom | hfull
  · exact .inl hroom
  · cases horder : s.order with
    | nil =>
      rw [horder, List.length_nil] at hfull
      omega
    | cons oldest rest => exact .inr ⟨oldest, rest, rfl, horder ▸ hfull⟩

variable [DecidableEq K]

/-- Drop the oldest while there are more than the bound allows. -/
def trim (cap : ℕ) (entries : Dict K V) : List K → Stage K V
  | [] => ⟨entries, []⟩
  | oldest :: order =>
    if cap < (oldest :: order).length then trim cap (entries.erase oldest) order
    else ⟨entries, oldest :: order⟩

/-- Stage a value; one that is there already is overwritten in its place. -/
def park (cap : ℕ) (s : Stage K V) (k : K) (v : V) : Stage K V :=
  if k ∈ s.entries then { s with entries := s.entries.insert k v }
  else trim cap (s.entries.insert k v) (s.order ++ [k])

/-- Claim or discard a value. -/
def drop (s : Stage K V) (k : K) : Stage K V := ⟨s.entries.erase k, s.order.erase k⟩

/-- What was staged after a key and is still there. -/
def newer (s : Stage K V) (k : K) : List K := (s.order.dropWhile fun k' => k' ≠ k).tail

variable {cap : ℕ} {s : Stage K V} {k k' : K} {v : V}

theorem WellFormed.drop (h : WellFormed cap s) (k : K) : WellFormed cap (s.drop k) where
  nodup := h.nodup.erase k
  keys k' := by
    simp only [Stage.drop]
    rw [h.nodup.mem_erase_iff, AList.mem_erase, h.keys]
  bound := (List.length_erase_le).trans h.bound

/-- With room left, nothing is dropped. -/
theorem trim_of_le {order : List K} (entries : Dict K V) (hlen : order.length ≤ cap) :
    trim cap entries order = ⟨entries, order⟩ := by
  cases order with
  | nil => rfl
  | cons oldest order => rw [trim, if_neg (Nat.not_lt.mpr hlen)]

/-- One too many, and the oldest is dropped. -/
theorem trim_of_full {oldest : K} {order : List K} (entries : Dict K V)
    (hlen : order.length = cap) :
    trim cap entries (oldest :: order) = ⟨entries.erase oldest, order⟩ := by
  rw [trim, if_pos (by rw [List.length_cons]; omega), trim_of_le _ hlen.le]

theorem park_of_mem (h : k ∈ s.entries) (v : V) :
    s.park cap k v = { s with entries := s.entries.insert k v } := if_pos h

theorem park_of_room (hk : k ∉ s.entries) (hroom : s.order.length < cap) (v : V) :
    s.park cap k v = ⟨s.entries.insert k v, s.order ++ [k]⟩ := by
  rw [park, if_neg hk, trim_of_le]
  simpa using hroom

theorem park_of_full {oldest : K} {rest : List K} (hk : k ∉ s.entries)
    (horder : s.order = oldest :: rest) (hfull : s.order.length = cap) (v : V) :
    s.park cap k v = ⟨(s.entries.insert k v).erase oldest, rest ++ [k]⟩ := by
  have hlen : (rest ++ [k]).length = cap := by
    rw [horder, List.length_cons] at hfull
    rw [List.length_append, List.length_singleton]
    exact hfull
  rw [park, if_neg hk, horder, List.cons_append, trim_of_full _ hlen]

theorem WellFormed.park (h : WellFormed cap s) (hcap : 0 < cap) (k : K) (v : V) :
    WellFormed cap (s.park cap k v) := by
  by_cases hk : k ∈ s.entries
  · rw [park_of_mem hk]
    refine ⟨h.nodup, fun k' => ?_, h.bound⟩
    rw [AList.mem_insert, h.keys]
    exact ⟨.inr, fun hin => hin.elim (fun heq => heq ▸ hk) id⟩
  · have hnot : k ∉ s.order := fun hin => hk ((h.keys k).mp hin)
    rcases h.room_or_full hcap with hroom | ⟨oldest, rest, horder, hfull⟩
    · rw [park_of_room hk hroom]
      refine ⟨?_, fun k' => ?_, by simpa using hroom⟩
      · rw [← List.concat_eq_append]
        exact h.nodup.concat hnot
      · rw [List.mem_append, List.mem_singleton, AList.mem_insert, h.keys, or_comm]
    · rw [park_of_full hk horder hfull]
      have hnodup := horder ▸ h.nodup
      obtain ⟨holdest, hrest⟩ := List.nodup_cons.mp hnodup
      have hold : oldest ∈ s.entries := (h.keys oldest).mp (horder ▸ List.mem_cons_self)
      have hne : oldest ≠ k := fun heq => hk (heq ▸ hold)
      have hrest' : k ∉ rest := fun hin => hnot (horder ▸ List.mem_cons_of_mem _ hin)
      refine ⟨?_, fun k' => ?_, ?_⟩
      · rw [← List.concat_eq_append]
        exact hrest.concat hrest'
      · have hkeys := h.keys k'
        rw [horder, List.mem_cons] at hkeys
        rw [List.mem_append, List.mem_singleton, AList.mem_erase, AList.mem_insert, ← hkeys]
        grind
      · rw [horder, List.length_cons] at hfull
        rw [List.length_append, List.length_singleton]
        omega

/-- What is staged can be claimed. -/
theorem WellFormed.lookup_park_self (h : WellFormed cap s) (hcap : 0 < cap) (k : K) (v : V) :
    (s.park cap k v).entries.lookup k = some v := by
  by_cases hk : k ∈ s.entries
  · rw [park_of_mem hk, AList.lookup_insert]
  · rcases h.room_or_full hcap with hroom | ⟨oldest, rest, horder, hfull⟩
    · rw [park_of_room hk hroom, AList.lookup_insert]
    · have hold : oldest ∈ s.entries := (h.keys oldest).mp (horder ▸ List.mem_cons_self)
      have hne : k ≠ oldest := fun heq => hk (heq ▸ hold)
      rw [park_of_full hk horder hfull, AList.lookup_erase_ne hne, AList.lookup_insert]

/-- The oldest has everything else behind it. -/
theorem newer_oldest {rest : List K} (horder : s.order = k :: rest) : s.newer k = rest := by
  simp [newer, horder]

/-- **A staged value stays until the bound is reached behind it.** -/
theorem WellFormed.lookup_park_of_ne (h : WellFormed cap s) (hcap : 0 < cap) (hne : k' ≠ k)
    (hroom : k' ∈ s.entries ∨ (s.newer k).length + 1 < cap) (v : V) :
    (s.park cap k' v).entries.lookup k = s.entries.lookup k := by
  by_cases hk : k' ∈ s.entries
  · rw [park_of_mem hk, AList.lookup_insert_ne hne.symm]
  · have hfew := hroom.resolve_left hk
    rcases h.room_or_full hcap with hspace | ⟨oldest, rest, horder, hfull⟩
    · rw [park_of_room hk hspace, AList.lookup_insert_ne hne.symm]
    · have hold : k ≠ oldest := by
        rintro rfl
        rw [newer_oldest horder] at hfew
        rw [horder, List.length_cons] at hfull
        omega
      rw [park_of_full hk horder hfull, AList.lookup_erase_ne hold, AList.lookup_insert_ne hne.symm]

/-- Making room stages nothing. -/
theorem lookup_trim_of_none {entries : Dict K V} {order : List K} (h : entries.lookup k = none) :
    (trim cap entries order).entries.lookup k = none := by
  induction order generalizing entries with
  | nil => exact h
  | cons oldest order ih =>
    rw [trim]
    split_ifs
    · refine ih (AList.lookup_eq_none.mpr fun hin => ?_)
      exact AList.lookup_eq_none.mp h (AList.mem_erase.mp hin).2
    · exact h

/-- Nothing else is staged with a value. -/
theorem lookup_park_of_none (hne : k' ≠ k) (h : s.entries.lookup k = none) (v : V) :
    (s.park cap k' v).entries.lookup k = none := by
  have hinsert : (s.entries.insert k' v).lookup k = none := by
    rw [AList.lookup_insert_ne hne.symm, h]
  unfold park
  split_ifs
  · exact hinsert
  · exact lookup_trim_of_none hinsert

theorem lookup_drop_of_none (h : s.entries.lookup k = none) (k' : K) :
    (s.drop k').entries.lookup k = none := by
  refine AList.lookup_eq_none.mpr fun hin => ?_
  exact AList.lookup_eq_none.mp h (AList.mem_erase.mp hin).2

/-- Others are claimed. -/
theorem lookup_drop_of_ne (hne : k' ≠ k) : (s.drop k').entries.lookup k = s.entries.lookup k :=
  AList.lookup_erase_ne hne.symm

end Stage

end LogosProtocol
