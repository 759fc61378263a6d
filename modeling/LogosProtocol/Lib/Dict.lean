import Mathlib.Data.List.AList
import Mathlib.Data.Set.Card

/-!
# Finite dictionaries

A dictionary is a list of entries with distinct keys, in the order the container
iterates them.  `Dict.Reordered` relates two dictionaries with the same entries in
any two orders, so a statement proved for every reordering holds for every
iteration order of a hash table.
-/

namespace LogosProtocol

universe u v

/-- A finite map with its iteration order. -/
abbrev Dict (K : Type u) (V : Type v) := AList (fun _ : K => V)

namespace Dict
variable {K : Type u} {V : Type v}

section lookup
variable [DecidableEq K]

/-- In a map of maps, keeping an inner map only if it has entries reads the same as keeping
it in any case. -/
theorem getD_lookup_prune {K' : Type u} (d : Dict K (Dict K' V)) (k k' : K) (t : Dict K' V) :
    ((if t.entries = [] then d.erase k else d.insert k t).lookup k').getD ∅ =
      if k' = k then t else (d.lookup k').getD ∅ := by
  split_ifs with hempty hk hk
  · have ht : t = ∅ := AList.ext hempty
    rw [hk, AList.lookup_erase, ht]
    rfl
  · rw [AList.lookup_erase_ne hk]
  · rw [hk, AList.lookup_insert]
    rfl
  · rw [AList.lookup_insert_ne hk]

end lookup

/-- The same entries, iterated in another order. -/
def Reordered (d d' : Dict K V) : Prop := d.entries.Perm d'.entries

theorem Reordered.refl (d : Dict K V) : Reordered d d := List.Perm.refl _

theorem Reordered.mem_iff {d d' : Dict K V} (h : Reordered d d') (k : K) : k ∈ d ↔ k ∈ d' :=
  (h.map Sigma.fst).mem_iff

theorem Reordered.lookup [DecidableEq K] {d d' : Dict K V} (h : Reordered d d') (k : K) :
    d.lookup k = d'.lookup k :=
  AList.perm_lookup h

theorem lookup_isSome_iff [DecidableEq K] {d : Dict K V} {k : K} :
    (d.lookup k).isSome ↔ k ∈ d := AList.lookup_isSome

/-! ## Lists of values under a key -/

section push
variable [DecidableEq K]

/-- Append a value to the list under a key. -/
def push (d : Dict K (List V)) (k : K) (v : V) : Dict K (List V) :=
  d.insert k ((d.lookup k).getD [] ++ [v])

theorem getD_lookup_push (d : Dict K (List V)) (k k' : K) (v : V) :
    ((d.push k v).lookup k').getD [] =
      (d.lookup k').getD [] ++ if k' = k then [v] else [] := by
  by_cases hk : k' = k
  · subst hk
    simp [push, AList.lookup_insert]
  · simp [push, AList.lookup_insert_ne hk, hk]

/-- What is pushed one entry after the other stands under each key in that order. -/
theorem getD_lookup_foldl_push (entries : List (K × V)) (d : Dict K (List V)) (k : K) :
    ((entries.foldl (fun d e => d.push e.1 e.2) d).lookup k).getD [] =
      (d.lookup k).getD [] ++ (entries.filter fun e => k = e.1).map Prod.snd := by
  induction entries generalizing d with
  | nil => simp
  | cons e entries ih =>
    rw [List.foldl_cons, ih, getD_lookup_push, List.append_assoc]
    by_cases hk : k = e.1
    · simp [hk]
    · simp [hk]

end push

/-! ## Values -/

/-- The values, in the order of the entries. -/
def values (d : Dict K V) : List V := d.entries.map Sigma.snd

@[simp] theorem values_empty : values (∅ : Dict K V) = [] := rfl

section values
variable [DecidableEq K] {d : Dict K V} {k : K}

/-- A new key brings its value. -/
theorem values_insert (v : V) (h : d.lookup k = none) : values (d.insert k v) = v :: values d := by
  rw [values, AList.entries_insert_of_notMem (AList.lookup_eq_none.mp h)]
  rfl

/-- A value that is written goes first, and takes the place of what was there. -/
theorem values_insert_erase (v : V) : values (d.insert k v) = v :: values (d.erase k) := rfl

theorem values_eq_nil (h : ∀ k, d.lookup k = none) : values d = [] := by
  rw [List.eq_nil_iff_forall_not_mem]
  intro v hv
  obtain ⟨e, he, -⟩ := List.mem_map.mp hv
  have hlookup : d.lookup e.1 = some e.2 := AList.mem_lookup_iff.mpr he
  rw [h] at hlookup
  cases hlookup

/-- A key that goes takes its value along. -/
theorem values_erase {v : V} (h : d.lookup k = some v) :
    (values d).Perm (v :: values (d.erase k)) := by
  have hmem : k ∈ d.keys := AList.lookup_isSome.mp (by rw [h]; rfl)
  obtain ⟨v', l₁, l₂, -, hentries, herase⟩ := List.exists_of_kerase hmem
  have hv : v' = v := by
    have hin : (⟨k, v'⟩ : Sigma fun _ : K => V) ∈ d.entries := by
      rw [hentries]
      simp
    have hlookup : d.lookup k = some v' := AList.mem_lookup_iff.mpr hin
    rw [h] at hlookup
    exact (Option.some.inj hlookup).symm
  have hleft : values d = (l₁ ++ ⟨k, v⟩ :: l₂).map Sigma.snd := by rw [values, hentries, hv]
  have hright : values (d.erase k) = (l₁ ++ l₂).map Sigma.snd := congrArg (List.map _) herase
  rw [hleft, hright]
  simp

/-- What is pushed is one more of all there is. -/
theorem flatten_values_push {d : Dict K (List V)} (v : V) :
    (values (d.push k v)).flatten.Perm (v :: (values d).flatten) := by
  rw [push, values_insert_erase, List.flatten_cons]
  cases hlookup : d.lookup k with
  | none =>
    have herase : d.erase k = d :=
      AList.ext (List.kerase_of_notMem_keys (AList.lookup_eq_none.mp hlookup))
    rw [herase]
    rfl
  | some vs =>
    have hall := (values_erase hlookup).flatten
    rw [List.flatten_cons] at hall
    rw [Option.getD_some, List.append_assoc]
    exact List.perm_middle.trans (hall.symm.cons v)

end values

/-! ## Sweeps -/

section sweep
variable [DecidableEq K]

/-- What a sweep leaves of one entry. -/
def sweepEntry (f : V → V) (dead : V → Bool) (e : Sigma fun _ : K => V) :
    Option (Sigma fun _ : K => V) :=
  if dead (f e.2) then none else some ⟨e.1, f e.2⟩

/-- Walk over the entries, change each value, and erase the entries whose value is dead then. -/
def sweep (f : V → V) (dead : V → Bool) (d : Dict K V) : Dict K V where
  entries := d.entries.filterMap (sweepEntry f dead)
  nodupKeys := by
    have hkeys : (d.entries.filterMap (sweepEntry f dead)).keys.Sublist d.entries.keys := by
      generalize d.entries = entries
      induction entries with
      | nil => exact List.Sublist.refl _
      | cons e entries ih =>
        rw [List.filterMap_cons, sweepEntry]
        split_ifs
        · exact ih.cons e.1
        · exact ih.cons_cons e.1
    exact d.keys_nodup.sublist hkeys

theorem lookup_sweep (f : V → V) (dead : V → Bool) (d : Dict K V) (k : K) :
    (d.sweep f dead).lookup k =
      (d.lookup k).bind fun v => if dead (f v) then none else some (f v) := by
  ext w
  rw [← Option.mem_def, AList.mem_lookup_iff, Option.bind_eq_some_iff]
  simp only [sweep, List.mem_filterMap, sweepEntry, Option.ite_none_left_eq_some,
    Option.some.injEq]
  constructor
  · rintro ⟨⟨k', v⟩, he, hdead, heq⟩
    cases heq
    exact ⟨v, AList.mem_lookup_iff.mpr he, hdead, rfl⟩
  · rintro ⟨v, hv, hdead, rfl⟩
    exact ⟨⟨k, v⟩, AList.mem_lookup_iff.mp hv, hdead, rfl⟩

end sweep

/-- A duplicate-free listing of a set has as many entries as the set. -/
theorem ncard_of_listing {α : Type u} {l : List α} {S : Set α} (hn : l.Nodup)
    (hm : ∀ a, a ∈ l ↔ a ∈ S) : S.ncard = l.length := by
  classical
  have hS : S = (l.toFinset : Set α) := by
    ext a
    simp [hm]
  rw [hS, Set.ncard_coe_finset, List.toFinset_card_of_nodup hn]

end Dict

end LogosProtocol
