import Mathlib.Tactic.Common

/-!
# Association lists in key order

An ordered map as the list of its entries in increasing key order: what a container with
sorted iteration looks like from outside.  `set` inserts or replaces; a list of entries
set one after the other keeps the last value given for each key.

## Main definitions

* `Fields.Ordered` — keys strictly increase.
* `Fields.set`, `Fields.erase`, `Fields.get?` — insert or replace, remove, and look up.
* `Fields.setAll` — set a list of entries one after the other.
* `Fields.lastValue` — the value a list of entries leaves under a key.
-/

namespace LogosProtocol.Fields

variable {K V W : Type}

/-! ## Looking up -/

section lookup
variable [DecidableEq K]

/-- The value of a key. -/
def get? (k : K) : List (K × V) → Option V
  | [] => none
  | (k', v) :: rest => if k = k' then some v else get? k rest

/-- Remove a key. -/
def erase (k : K) (l : List (K × V)) : List (K × V) := l.filter fun e => e.1 ≠ k

/-- The value of the last entry with a key. -/
def lastValue (k : K) : List (K × V) → Option V
  | [] => none
  | (k', v) :: entries => (lastValue k entries).or (if k = k' then some v else none)

attribute [grind =] get? erase lastValue

theorem get?_eq_none_iff {l : List (K × V)} {k : K} :
    get? k l = none ↔ ∀ e ∈ l, e.1 ≠ k := by
  induction l with
  | nil => simp [get?]
  | cons e l ih => grind

@[simp] theorem get?_erase (l : List (K × V)) (k k' : K) :
    get? k' (erase k l) = if k' = k then none else get? k' l := by
  induction l with
  | nil => simp [erase, get?]
  | cons e l ih => grind

theorem mem_of_get? {l : List (K × V)} {k : K} {v : V} (h : get? k l = some v) :
    (k, v) ∈ l := by
  induction l with
  | nil => cases h
  | cons e l ih => grind

theorem isSome_get?_iff {l : List (K × V)} {k : K} :
    (get? k l).isSome ↔ k ∈ l.map Prod.fst := by
  induction l with
  | nil => simp [get?]
  | cons e l ih =>
    simp only [get?, List.map_cons, List.mem_cons, ← ih]
    split_ifs with h <;> simp [h]

/-- Removing a key that is not there changes nothing. -/
theorem erase_of_get?_eq_none {l : List (K × V)} {k : K} (h : get? k l = none) :
    erase k l = l := by
  rw [erase, List.filter_eq_self]
  intro e he
  simpa using get?_eq_none_iff.mp h e he

theorem lastValue_eq_none_iff {entries : List (K × V)} (k : K) :
    lastValue k entries = none ↔ ∀ e ∈ entries, e.1 ≠ k := by
  induction entries with
  | nil => simp [lastValue]
  | cons e entries ih => grind

theorem mem_of_lastValue {entries : List (K × V)} {k : K} {v : V}
    (h : lastValue k entries = some v) : (k, v) ∈ entries := by
  induction entries with
  | nil => cases h
  | cons e entries ih =>
    rw [lastValue, Option.or_eq_some_iff] at h
    cases h with
    | inl h => exact List.mem_cons_of_mem e (ih h)
    | inr h =>
      have hk : k = e.1 ∧ e.2 = v := by simpa using h.2
      rw [hk.1, ← hk.2]
      exact List.mem_cons_self ..

/-- The later list has the last word. -/
theorem lastValue_append (entries entries' : List (K × V)) (k : K) :
    lastValue k (entries ++ entries') = (lastValue k entries').or (lastValue k entries) := by
  induction entries with
  | nil => simp [lastValue]
  | cons e entries ih => rw [List.cons_append, lastValue, ih, lastValue, Option.or_assoc]

/-- Mapping the values commutes with taking the last one. -/
theorem lastValue_map (f : V → W) (entries : List (K × V)) (k : K) :
    lastValue k (entries.map fun e => (e.1, f e.2)) = (lastValue k entries).map f := by
  induction entries with
  | nil => rfl
  | cons e entries ih =>
    simp only [List.map_cons, lastValue, ih]
    cases lastValue k entries with
    | some v => simp
    | none => split_ifs <;> simp

end lookup

/-! ## Setting -/

section set
variable [LT K] [DecidableLT K] [DecidableEq K]

/-- Keys strictly increase. -/
def Ordered (l : List (K × V)) : Prop := l.Pairwise fun a b => a.1 < b.1

/-- Insert an entry in key order, or replace the value of its key. -/
def set (k : K) (v : V) : List (K × V) → List (K × V)
  | [] => [(k, v)]
  | (k', v') :: rest =>
    if k < k' then (k, v) :: (k', v') :: rest
    else if k = k' then (k, v) :: rest
    else (k', v') :: set k v rest

/-- Set a list of entries one after the other. -/
def setAll (acc : List (K × V)) : List (K × V) → List (K × V)
  | [] => acc
  | (k, v) :: entries => setAll (set k v acc) entries

theorem forall_mem_set {P : K × V → Prop} {k : K} {v : V} {l : List (K × V)} (hnew : P (k, v))
    (hold : ∀ e ∈ l, P e) : ∀ e ∈ set k v l, P e := by
  induction l with
  | nil => simpa [set] using hnew
  | cons e l ih =>
    intro e' he'
    simp only [set] at he'
    split_ifs at he' <;> grind

/-- Inserting a new key adds one entry. -/
theorem perm_set {l : List (K × V)} {k : K} (v : V) (h : get? k l = none) :
    (set k v l).Perm ((k, v) :: l) := by
  induction l with
  | nil => exact .refl _
  | cons e l ih =>
    have hne : k ≠ e.1 := Ne.symm (get?_eq_none_iff.mp h e (List.mem_cons_self ..))
    have htail : get? k l = none := by simpa [get?, hne] using h
    simp only [set, hne, if_false]
    split_ifs
    · exact .refl _
    · exact ((ih htail).cons e).trans (.swap ..)

theorem map_set (f : V → W) (k : K) (v : V) (l : List (K × V)) :
    (set k v l).map (fun e => (e.1, f e.2)) = set k (f v) (l.map fun e => (e.1, f e.2)) := by
  induction l with
  | nil => rfl
  | cons e l ih =>
    simp only [set, List.map_cons]
    split_ifs
    · rfl
    · rfl
    · rw [List.map_cons, ih]

/-- Mapping the values commutes with setting them. -/
theorem map_setAll (f : V → W) (acc entries : List (K × V)) :
    (setAll acc entries).map (fun e => (e.1, f e.2)) =
      setAll (acc.map fun e => (e.1, f e.2)) (entries.map fun e => (e.1, f e.2)) := by
  induction entries generalizing acc with
  | nil => rfl
  | cons e entries ih => rw [setAll, ih, map_set, List.map_cons, setAll]

/-- Entries under keys of their own are all there in the end. -/
theorem perm_setAll (acc : List (K × V)) {entries : List (K × V)}
    (h : ((acc ++ entries).map Prod.fst).Nodup) : (setAll acc entries).Perm (acc ++ entries) := by
  induction entries generalizing acc with
  | nil => simp [setAll]
  | cons e entries ih =>
    have hmiddle : (acc ++ e :: entries).Perm (e :: (acc ++ entries)) := List.perm_middle
    have hnodup := (hmiddle.map Prod.fst).nodup_iff.mp h
    have hnew : get? e.1 acc = none := by
      rw [get?_eq_none_iff]
      intro e' he' heq
      apply (List.nodup_cons.mp hnodup).1
      rw [← heq]
      exact List.mem_map_of_mem (List.mem_append_left entries he')
    have hset : (set e.1 e.2 acc ++ entries).Perm (e :: (acc ++ entries)) :=
      (perm_set e.2 hnew).append_right entries
    rw [setAll]
    exact (ih _ ((hset.map Prod.fst).nodup_iff.mpr hnodup)).trans (hset.trans hmiddle.symm)

/-- Looking up after an insertion. -/
@[simp] theorem get?_set {l : List (K × V)} (k k' : K) (v : V) :
    get? k' (set k v l) = if k' = k then some v else get? k' l := by
  induction l with
  | nil => rfl
  | cons e l ih =>
    simp only [set]
    split_ifs <;> grind

/-- The last value given for a key is the one that stays. -/
theorem get?_setAll {acc : List (K × V)} (entries : List (K × V)) (k : K) :
    get? k (setAll acc entries) = (lastValue k entries).or (get? k acc) := by
  induction entries generalizing acc with
  | nil => simp [setAll, lastValue]
  | cons e entries ih =>
    rw [setAll, ih, get?_set, lastValue]
    cases lastValue k entries with
    | some v => simp
    | none => split_ifs <;> simp

end set

/-! ## Key order -/

section order
variable [LE K] [LT K] [Std.IsLinearOrder K] [Std.LawfulOrderLT K] [DecidableLT K]
  [DecidableEq K]

theorem Ordered.set {l : List (K × V)} (h : Ordered l) (k : K) (v : V) :
    Ordered (set k v l) := by
  induction l with
  | nil => exact List.pairwise_singleton _ _
  | cons e l ih =>
    have hhead : ∀ e' ∈ l, e.1 < e'.1 := (List.pairwise_cons.mp h).1
    have htail : Ordered l := List.Pairwise.of_cons h
    simp only [Fields.set]
    split_ifs with hlt heq
    · exact List.pairwise_cons.mpr ⟨by grind, h⟩
    · exact List.pairwise_cons.mpr ⟨by grind, htail⟩
    · have hlast : e.1 < k := by grind
      exact List.pairwise_cons.mpr ⟨forall_mem_set hlast hhead, ih htail⟩

omit [Std.IsLinearOrder K] [DecidableLT K] [DecidableEq K] in
theorem Ordered.nodup_keys {l : List (K × V)} (h : Ordered l) : (l.map Prod.fst).Nodup := by
  refine (List.pairwise_map.mpr h).imp fun hlt heq => ?_
  rw [heq] at hlt
  exact Std.lt_irrefl hlt

omit [DecidableLT K] in
theorem get?_eq_some_iff {l : List (K × V)} (h : Ordered l) (k : K) (v : V) :
    get? k l = some v ↔ (k, v) ∈ l := by
  induction l with
  | nil => simp [get?]
  | cons e l ih =>
    have hhead : ∀ e' ∈ l, e.1 < e'.1 := (List.pairwise_cons.mp h).1
    have htail : Ordered l := List.Pairwise.of_cons h
    have := ih htail
    grind

omit [DecidableLT K] in
/-- Removing a key takes one entry out. -/
theorem Ordered.perm_erase {l : List (K × V)} (h : Ordered l) {k : K} {v : V}
    (hk : get? k l = some v) : l.Perm ((k, v) :: erase k l) := by
  induction l with
  | nil => cases hk
  | cons e l ih =>
    have hhead : ∀ e' ∈ l, e.1 < e'.1 := (List.pairwise_cons.mp h).1
    by_cases hke : k = e.1
    · have hnone : get? k l = none := by
        rw [get?_eq_none_iff]
        intro e' he'
        have := hhead e' he'
        grind
      have hv : e.2 = v := by simpa [get?, hke] using hk
      have hdrop : erase k (e :: l) = l := by
        rw [erase, List.filter_cons_of_neg (by simp [hke]), ← erase, erase_of_get?_eq_none hnone]
      rw [hdrop, hke, ← hv]
    · have htail : get? k l = some v := by simpa [get?, hke] using hk
      have hkeep : erase k (e :: l) = e :: erase k l :=
        List.filter_cons_of_pos (by simpa using Ne.symm hke)
      rw [hkeep]
      exact ((ih (List.Pairwise.of_cons h) htail).cons e).trans (.swap ..)

omit [DecidableLT K] [Std.IsLinearOrder K] [Std.LawfulOrderLT K] [LE K] in
theorem Ordered.erase {l : List (K × V)} (h : Ordered l) (k : K) : Ordered (erase k l) :=
  List.Pairwise.filter _ h

/-- Setting a key to the value it has changes nothing. -/
theorem Ordered.set_of_get? {l : List (K × V)} (h : Ordered l) {k : K} {v : V} (hk : get? k l = some v) :
    Fields.set k v l = l := by
  induction l with
  | nil => cases hk
  | cons e l ih =>
    have hhead : ∀ e' ∈ l, e.1 < e'.1 := (List.pairwise_cons.mp h).1
    have htail : Ordered l := List.Pairwise.of_cons h
    by_cases hke : k = e.1
    · have hlt : ¬ k < k := by grind
      have hv : e.2 = v := by simpa [get?, hke] using hk
      obtain rfl : e = (k, v) := Prod.ext hke.symm hv
      simp only [Fields.set, hlt, if_false, if_true]
    · have hrest : get? k l = some v := by simpa [get?, hke] using hk
      have hlt : ¬ k < e.1 := by
        have := hhead _ (mem_of_get? hrest)
        grind
      simp only [Fields.set, hlt, hke, if_false]
      rw [ih htail hrest]

/-- A key above all others goes to the end. -/
theorem set_of_forall_lt {k : K} (v : V) {l : List (K × V)} (h : ∀ e ∈ l, e.1 < k) :
    set k v l = l ++ [(k, v)] := by
  induction l with
  | nil => rfl
  | cons e l ih =>
    have hhead : e.1 < k := h e (List.mem_cons_self ..)
    have hlt : ¬ k < e.1 := by grind
    have hne : k ≠ e.1 := by grind
    simp only [set, hlt, hne, if_false, List.cons_append]
    rw [ih fun e' he' => h e' (List.mem_cons_of_mem e he')]

theorem Ordered.setAll {acc : List (K × V)} (h : Ordered acc) (entries : List (K × V)) :
    Ordered (setAll acc entries) := by
  induction entries generalizing acc with
  | nil => exact h
  | cons e entries ih => exact ih (h.set e.1 e.2)

/-- Entries whose keys increase are set in place. -/
theorem setAll_of_ordered {acc entries : List (K × V)} (h : Ordered (acc ++ entries)) :
    setAll acc entries = acc ++ entries := by
  induction entries generalizing acc with
  | nil => simp [setAll]
  | cons e entries ih =>
    have hlt : ∀ e' ∈ acc, e'.1 < e.1 := by
      intro e' he'
      exact (List.pairwise_append.mp h).2.2 e' he' e (List.mem_cons_self ..)
    rw [setAll, set_of_forall_lt e.2 hlt, ih (by simpa using h)]
    simp

omit [DecidableLT K] in
/-- Lists in key order with the same values are the same. -/
theorem Ordered.ext {l l' : List (K × V)} (h : Ordered l) (h' : Ordered l')
    (hget : ∀ k, get? k l = get? k l') : l = l' := by
  induction l generalizing l' with
  | nil =>
    cases l' with
    | nil => rfl
    | cons e' l' => simpa [get?] using hget e'.1
  | cons e l ih =>
    cases l' with
    | nil => simpa [get?] using hget e.1
    | cons e' l' =>
      have hhead : ∀ x ∈ l, e.1 < x.1 := (List.pairwise_cons.mp h).1
      have hhead' : ∀ x ∈ l', e'.1 < x.1 := (List.pairwise_cons.mp h').1
      have hfirst : get? e.1 (e' :: l') = some e.2 := by
        rw [← hget]
        simp [get?]
      have hfirst' : get? e'.1 (e :: l) = some e'.2 := by
        rw [hget]
        simp [get?]
      have hmem := mem_of_get? hfirst
      have hmem' := mem_of_get? hfirst'
      -- Neither first key is below the other.
      have hee : e = e' := by
        rcases List.mem_cons.mp hmem with heq | htail
        · exact heq
        · rcases List.mem_cons.mp hmem' with heq | htail'
          · exact heq.symm
          · have hlt := hhead' _ htail
            have hlt' := hhead _ htail'
            grind
      subst hee
      rw [ih (List.Pairwise.of_cons h) (List.Pairwise.of_cons h')]
      intro k
      have hk := hget k
      by_cases hke : k = e.1
      · have hnone : get? k l = none := get?_eq_none_iff.mpr fun x hx => by
          have := hhead x hx
          grind
        have hnone' : get? k l' = none := get?_eq_none_iff.mpr fun x hx => by
          have := hhead' x hx
          grind
        rw [hnone, hnone']
      · simpa [get?, hke] using hk

omit [DecidableLT K] in
/-- There is one way to put entries in key order. -/
theorem Ordered.eq_of_perm {l l' : List (K × V)} (h : Ordered l) (h' : Ordered l')
    (hperm : l.Perm l') : l = l' := by
  apply Ordered.ext h h'
  intro k
  apply Option.ext
  intro v
  rw [get?_eq_some_iff h, get?_eq_some_iff h', hperm.mem_iff]

/-- Two lists of entries set the same values exactly when each key ends on the same one. -/
theorem setAll_nil_eq_iff {entries entries' : List (K × V)} :
    setAll [] entries = setAll [] entries' ↔
      ∀ k, lastValue k entries = lastValue k entries' := by
  have hget : ∀ (l : List (K × V)) k, get? k (setAll [] l) = lastValue k l := by
    intro l k
    rw [get?_setAll]
    simp [get?]
  constructor
  · intro h k
    rw [← hget, ← hget, h]
  · intro h
    apply Ordered.ext (Ordered.setAll .nil entries) (Ordered.setAll .nil entries')
    intro k
    rw [hget, hget, h]

theorem mem_setAll_nil_iff {entries : List (K × V)} (k : K) (v : V) :
    (k, v) ∈ setAll [] entries ↔ lastValue k entries = some v := by
  have hordered : Ordered (setAll ([] : List (K × V)) entries) := Ordered.setAll .nil entries
  rw [← get?_eq_some_iff hordered, get?_setAll]
  simp [get?]

theorem mem_of_mem_setAll_nil {entries : List (K × V)} {e : K × V} (h : e ∈ setAll [] entries) :
    e ∈ entries :=
  mem_of_lastValue ((mem_setAll_nil_iff e.1 e.2).mp h)

/-- The list sets exactly one key iff all its entries have that key. -/
theorem setAll_nil_eq_singleton_iff {entries : List (K × V)} (k : K) (v : V) :
    setAll [] entries = [(k, v)] ↔
      (∀ e ∈ entries, e.1 = k) ∧ lastValue k entries = some v := by
  have hordered : Ordered (setAll ([] : List (K × V)) entries) := Ordered.setAll .nil entries
  constructor
  · intro h
    constructor
    · intro e he
      have hsome : lastValue e.1 entries ≠ none := by
        intro hnone
        exact (lastValue_eq_none_iff e.1).mp hnone e he rfl
      obtain ⟨v', hv'⟩ := Option.ne_none_iff_exists'.mp hsome
      have hmem := (mem_setAll_nil_iff e.1 v').mpr hv'
      rw [h] at hmem
      exact (Prod.mk.inj (List.mem_singleton.mp hmem)).1
    · rw [← mem_setAll_nil_iff, h]
      exact List.mem_singleton.mpr rfl
  · intro ⟨hkeys, hlast⟩
    have hmem := (mem_setAll_nil_iff k v).mpr hlast
    have hall : ∀ e ∈ setAll [] entries, e = (k, v) := by
      intro e he
      have hsome := (mem_setAll_nil_iff e.1 e.2).mp he
      have hkey : e.1 = k := by
        by_contra hne
        have hnone : lastValue e.1 entries = none :=
          (lastValue_eq_none_iff e.1).mpr fun e' he' heq => hne (heq ▸ hkeys e' he')
        simp [hnone] at hsome
      rw [hkey, hlast] at hsome
      exact Prod.ext hkey (Option.some.inj hsome).symm
    match hfields : setAll [] entries with
    | [] => simp [hfields] at hmem
    | [e] => simp [hall e (by simp [hfields])]
    | e :: e' :: rest =>
      rw [hfields] at hordered hall
      have hlt : e.1 < e'.1 := List.rel_of_pairwise_cons hordered (by simp)
      have he := hall e (by simp)
      have he' := hall e' (by simp)
      rw [he, he'] at hlt
      exact absurd hlt (by grind)

end order

end LogosProtocol.Fields
