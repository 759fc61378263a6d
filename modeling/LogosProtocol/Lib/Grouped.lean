import LogosProtocol.Lib.Dict

/-!
# A log filed by key

A dictionary of lists files a log when it holds, under each key, the log's entries of that key in
the order of the log, and has no key without entries.  Appending to one key's list files one more
entry; filtering one key's list, and dropping the key with its last entry, files the log with the
same entries filtered out.

## Main definitions

* `Dict.Files` — the dictionary files the log.
* `Dict.refile` — keep a key's list only if it has entries.
-/

namespace LogosProtocol.Dict

universe u v w

variable {K : Type u} {V : Type v} {R : Type w} [DecidableEq K]

/-- The entries of one key, in the order of the log. -/
def entriesOf (key : R → K) (val : R → V) (log : List R) (k : K) : List V :=
  (log.filter fun r => key r = k).map val

/-- Under each key the dictionary holds the log's entries of that key, if there are any. -/
def Files (d : Dict K (List V)) (key : R → K) (val : R → V) (log : List R) : Prop :=
  ∀ k, d.lookup k = if entriesOf key val log k = [] then none else some (entriesOf key val log k)

/-- Keep a key's list only if it has entries. -/
def refile (d : Dict K (List V)) (k : K) (vs : List V) : Dict K (List V) :=
  if vs = [] then d.erase k else d.insert k vs

section entriesOf
variable {key : R → K} {val : R → V}

@[simp] theorem entriesOf_nil (k : K) : entriesOf key val [] k = [] := rfl

theorem entriesOf_concat (log : List R) (r : R) (k : K) :
    entriesOf key val (log ++ [r]) k =
      entriesOf key val log k ++ if k = key r then [val r] else [] := by
  by_cases hk : k = key r
  · simp [entriesOf, hk]
  · simp [entriesOf, hk, Ne.symm hk]

/-- What is filtered out of the log under other keys does not concern this one. -/
theorem entriesOf_filter_of_forall {keep : R → Bool} {log : List R} {k : K}
    (h : ∀ r ∈ log, key r = k → keep r = true) :
    entriesOf key val (log.filter keep) k = entriesOf key val log k := by
  have hsame : (log.filter keep).filter (fun r => key r = k) = log.filter fun r => key r = k := by
    rw [List.filter_filter]
    refine List.filter_congr ?_
    intro r hr
    by_cases hk : key r = k
    · simp [hk, h r hr hk]
    · simp [hk]
  rw [entriesOf, hsame, entriesOf]

/-- Filtering the log by what is filed filters every list. -/
theorem entriesOf_filter_val (keep : V → Bool) (log : List R) (k : K) :
    entriesOf key val (log.filter fun r => keep (val r)) k =
      (entriesOf key val log k).filter keep := by
  rw [entriesOf, entriesOf, List.filter_map, List.filter_filter, List.filter_filter]
  congr 2
  funext r
  exact Bool.and_comm _ _

theorem mem_entriesOf {log : List R} {k : K} {v : V} :
    v ∈ entriesOf key val log k ↔ ∃ r ∈ log, key r = k ∧ val r = v := by
  simp [entriesOf, and_assoc]

end entriesOf

theorem lookup_refile (d : Dict K (List V)) (k k' : K) (vs : List V) :
    (d.refile k vs).lookup k' =
      if k' = k then (if vs = [] then none else some vs) else d.lookup k' := by
  unfold refile
  split_ifs with hempty hk hk
  · rw [hk, AList.lookup_erase]
  · rw [AList.lookup_erase_ne hk]
  · rw [hk, AList.lookup_insert]
  · rw [AList.lookup_insert_ne hk]

namespace Files
variable {d : Dict K (List V)} {key : R → K} {val : R → V} {log : List R}

theorem empty : Files (∅ : Dict K (List V)) key val [] := by
  intro k
  simp

theorem getD_lookup (h : Files d key val log) (k : K) :
    (d.lookup k).getD [] = entriesOf key val log k := by
  rw [h k]
  split_ifs with hempty
  · rw [hempty, Option.getD_none]
  · rw [Option.getD_some]

/-- No key is there without entries. -/
theorem ne_nil (h : Files d key val log) {k : K} {vs : List V} (hk : d.lookup k = some vs) :
    vs ≠ [] := by
  rw [h k, Option.ite_none_left_eq_some, Option.some.injEq] at hk
  exact hk.2 ▸ hk.1

/-- **One more entry** goes to the end of its key's list. -/
theorem push (h : Files d key val log) (r : R) :
    Files (d.push (key r) (val r)) key val (log ++ [r]) := by
  intro k
  rw [entriesOf_concat, Dict.push]
  by_cases hk : k = key r
  · subst hk
    rw [AList.lookup_insert, h.getD_lookup, if_pos rfl, if_neg (by simp)]
  · rw [AList.lookup_insert_ne hk, h k, if_neg hk, List.append_nil]

/-- **Entries of one key are withdrawn** by filtering that key's list. -/
theorem filter (h : Files d key val log) {k : K} {keep : R → Bool}
    (hother : ∀ r ∈ log, key r ≠ k → keep r = true) :
    Files (d.refile k (entriesOf key val (log.filter keep) k)) key val (log.filter keep) := by
  intro k'
  rw [lookup_refile]
  by_cases hk : k' = k
  · rw [if_pos hk, hk]
  · have hsame : entriesOf key val (log.filter keep) k' = entriesOf key val log k' := by
      refine entriesOf_filter_of_forall ?_
      intro r hr hkey
      exact hother r hr fun heq => hk (hkey.symm.trans heq)
    rw [if_neg hk, h k', hsame]

end Files

end LogosProtocol.Dict
