import LogosProtocol.Token.HostAnchor

/-!
# The identities that share the host's anchor

`identitiesSharingHostAnchor` is to list the isolated identities that hold a value which
`instance()` holds under a bootstrap key.  It compares `credential()` of the two stores, which is
the first non-empty value of the two keys.  A store whose second key holds another value than its
first hides that value, and what is hidden on either side is not compared.

## Main definitions

* `TokenManager.Holds`, `TokenManager.Hides` — a value under a bootstrap key, and one that
  `credential()` passes over.
* `TokenStores.Shares`, `TokenStores.Missed` — what is to be listed, and what is not compared.
* `TokenStores.ListsSharers` — the listing is exact.
* `KeepsAnchors` — a call that does not bring the two bootstrap values of any store apart.
-/

namespace LogosProtocol

namespace TokenManager

/-- A bootstrap key holds the value, which is not empty. -/
def Holds (m : TokenManager) (value : QString) : Prop :=
  value ≠ [] ∧ ∃ key ∈ bootstrapKeys, m.tokens.lookup key = some value

/-- The value stands under "capability_module" behind another one under "core". -/
def Hides (m : TokenManager) (value : QString) : Prop :=
  value ≠ [] ∧ m.getToken (qstr "capability_module") = value ∧ m.getToken (qstr "core") ≠ [] ∧
    m.getToken (qstr "core") ≠ value

variable {m : TokenManager} {value : QString}

theorem holds_iff_getToken : m.Holds value ↔ value ≠ [] ∧
    (value = m.getToken (qstr "core") ∨ value = m.getToken (qstr "capability_module")) := by
  have hget : ∀ key ∈ bootstrapKeys, value ≠ [] →
      (m.tokens.lookup key = some value ↔ value = m.getToken key) := by
    intro key hkey hne
    rw [m.getToken_of_bootstrap hkey]
    cases m.tokens.lookup key with
    | none => simpa using hne
    | some v => simp [eq_comm]
  constructor
  · intro ⟨hne, key, hkey, hlookup⟩
    have hvalue := (hget key hkey hne).mp hlookup
    have hkeys : key = qstr "core" ∨ key = qstr "capability_module" := by
      simpa [bootstrapKeys] using hkey
    rcases hkeys with rfl | rfl
    · exact ⟨hne, .inl hvalue⟩
    · exact ⟨hne, .inr hvalue⟩
  · rintro ⟨hne, hvalue | hvalue⟩
    · exact ⟨hne, qstr "core", by decide, (hget _ (by decide) hne).mpr hvalue⟩
    · exact ⟨hne, qstr "capability_module", by decide, (hget _ (by decide) hne).mpr hvalue⟩

/-- What a store holds is its credential, or hidden behind it. -/
theorem holds_iff : m.Holds value ↔ (value ≠ [] ∧ value = m.credential) ∨ m.Hides value := by
  rw [holds_iff_getToken, credential_eq, Hides]
  by_cases hcore : m.getToken (qstr "core") = []
  · rw [if_pos hcore, hcore]
    constructor
    · rintro ⟨hne, heq | heq⟩
      · exact absurd heq hne
      · exact .inl ⟨hne, heq⟩
    · rintro (⟨hne, heq⟩ | ⟨-, -, hnot, -⟩)
      · exact ⟨hne, .inr heq⟩
      · exact absurd rfl hnot
  · rw [if_neg hcore]
    constructor
    · rintro ⟨hne, heq | heq⟩
      · exact .inl ⟨hne, heq⟩
      · by_cases hsame : m.getToken (qstr "core") = value
        · exact .inl ⟨hne, hsame.symm⟩
        · exact .inr ⟨hne, heq.symm, hcore, hsame⟩
    · rintro (⟨hne, heq⟩ | ⟨hne, heq, -, -⟩)
      · exact ⟨hne, .inl heq⟩
      · exact ⟨hne, .inr heq.symm⟩

/-- A store that hides a value has a credential. -/
theorem Hides.credential_ne_nil (h : m.Hides value) : m.credential ≠ [] := by
  rw [credential_eq, if_neg h.2.2.1]
  exact h.2.2.1

/-- A store whose bootstrap values agree hides nothing. -/
theorem AnchorsAgree.not_hides (h : m.AnchorsAgree) : ¬ m.Hides value := by
  rintro ⟨hne, hvalue, hcore, hother⟩
  rcases h with hempty | hempty | heq
  · exact hcore hempty
  · exact hne (hvalue.symm.trans hempty)
  · exact hother (heq.trans hvalue)

end TokenManager

namespace TokenStores

/-! ## What the loop lists -/

/-- The identity's store has the host's credential. -/
def seen (s : TokenStores) (n : QString) : Bool :=
  match s.registry.stores.lookup n with
  | none => false
  | some store => s.isHostAnchorValue (s.contents store).credential

/-- Asking for the store of an isolated identity does not change what is seen. -/
theorem seen_forIdentity (s : TokenStores) {m : QString} (hm : m ∈ s.registry.isolated)
    (n : QString) : (s.forIdentity m).2.seen n = s.seen n := by
  have hne : m ≠ [] := fun heq => s.registry.named (heq ▸ hm)
  cases hlookup : s.registry.stores.lookup m with
  | some store =>
    have hsame : s.forIdentity m = (store, s) := by simp [forIdentity, hm, hne, hlookup]
    rw [hsame]
  | none =>
    have hhost := s.hostStore_forIdentity m
    have hstores : (s.forIdentity m).2.registry.stores =
        s.registry.stores.insert m s.registry.nextAddr := by
      simp [forIdentity, hm, hne, hlookup, StoreRegistry.allocate]
    have hnew : (s.forIdentity m).2.contents s.registry.nextAddr = .empty := by
      simp [forIdentity, hm, hne, hlookup]
    by_cases hn : n = m
    · -- A store that did not exist is born empty.
      subst hn
      rw [seen, seen, hstores, AList.lookup_insert, hlookup]
      simp only [hnew]
      rfl
    · rw [seen, seen, hstores, AList.lookup_insert_ne hn]
      cases hlookupn : s.registry.stores.lookup n with
      | none => rfl
      | some store =>
        simp only [isHostAnchorValue, hhost,
          s.contents_forIdentity m (s.registry.allocated n store hlookupn).2]

/-- A store that was not there is not that of the host, and holds nothing. -/
theorem visitIdentity_eq (out : List QString) (s : TokenStores) {n : QString}
    (hn : n ∈ s.registry.isolated) :
    visitIdentity (out, s) n =
      (out ++ if s.seen n then [n] else [], (s.forIdentity n).2) := by
  obtain ⟨hprivate, hstore⟩ := s.forIdentity_isolated hn
  have hseen : s.seen n = (s.forIdentity n).2.isHostAnchorValue
      ((s.forIdentity n).2.contents (s.forIdentity n).1).credential := by
    rw [← s.seen_forIdentity hn, seen, hstore]
  simp only [visitIdentity]
  rw [if_neg hprivate.ne', ← hseen]
  split_ifs
  · rfl
  · rw [List.append_nil]

/-- The loop lists the names that are seen. -/
theorem foldl_visitIdentity (names : List QString) (out : List QString) (s : TokenStores)
    (hnames : ∀ n ∈ names, n ∈ s.registry.isolated) :
    (names.foldl visitIdentity (out, s)).1 = out ++ names.filter s.seen := by
  induction names generalizing out s with
  | nil => simp
  | cons n names ih =>
    have hn := hnames n List.mem_cons_self
    have hrest : ∀ m ∈ names, m ∈ (s.forIdentity n).2.registry.isolated := by
      intro m hm
      rw [s.isolated_forIdentity]
      exact hnames m (List.mem_cons_of_mem n hm)
    have hseen : (s.forIdentity n).2.seen = s.seen := funext fun m => s.seen_forIdentity hn m
    rw [List.foldl_cons, visitIdentity_eq out s hn, ih _ _ hrest, hseen, List.filter_cons]
    split_ifs
    · simp
    · simp

/-- **What is listed**: the isolated identities that are seen, each once, in order. -/
theorem identitiesSharingHostAnchor_spec (s : TokenStores) :
    s.identitiesSharingHostAnchor.1.Pairwise (· ≤ ·) ∧ s.identitiesSharingHostAnchor.1.Nodup ∧
      ∀ n, n ∈ s.identitiesSharingHostAnchor.1 ↔ n ∈ s.registry.isolated ∧ s.seen n = true := by
  have hloop : (s.registry.isolated.keys.foldl visitIdentity ([], s)).1 =
      s.registry.isolated.keys.filter s.seen := by
    rw [foldl_visitIdentity _ _ _ fun n hn => AList.mem_keys.mp hn, List.nil_append]
  have hlist : s.identitiesSharingHostAnchor.1 =
      (s.registry.isolated.keys.filter s.seen).mergeSort fun a b => decide (a ≤ b) := by
    rw [← hloop]
    rfl
  have hperm := List.mergeSort_perm (s.registry.isolated.keys.filter s.seen)
    (fun a b => decide (a ≤ b))
  refine ⟨?_, ?_, ?_⟩
  · rw [hlist]
    have htrans : ∀ a b c : QString, decide (a ≤ b) = true → decide (b ≤ c) = true →
        decide (a ≤ c) = true := fun a b c hab hbc =>
      decide_eq_true (List.le_trans (of_decide_eq_true hab) (of_decide_eq_true hbc))
    have htotal : ∀ a b : QString, (decide (a ≤ b) || decide (b ≤ a)) = true := fun a b => by
      simpa using List.le_total a b
    have hsorted := List.pairwise_mergeSort htrans htotal (s.registry.isolated.keys.filter s.seen)
    exact hsorted.imp fun h => of_decide_eq_true h
  · rw [hlist]
    exact hperm.nodup_iff.mpr (s.registry.isolated.keys_nodup.filter _)
  · intro n
    rw [hlist, hperm.mem_iff, List.mem_filter, AList.mem_keys]

/-! ## What is to be listed -/

/-- The identity's store and `instance()` hold one value, each under some bootstrap key. -/
def Shares (s : TokenStores) (n : QString) : Prop :=
  ∃ store, s.registry.stores.lookup n = some store ∧
    ∃ value, (s.contents store).Holds value ∧ s.hostStore.Holds value

/-- The two stores have different credentials, and one of them hides a value that the other
holds. -/
def Missed (s : TokenStores) (n : QString) : Prop :=
  ∃ store, s.registry.stores.lookup n = some store ∧
    (s.contents store).credential ≠ s.hostStore.credential ∧
    ∃ value, ((s.contents store).Hides value ∧ s.hostStore.Holds value) ∨
      ((s.contents store).Holds value ∧ s.hostStore.Hides value)

/-- The listing is exact: sorted, without duplicates, the isolated identities that share a value
with the host. -/
def ListsSharers (s : TokenStores) : Prop :=
  s.identitiesSharingHostAnchor.1.Pairwise (· ≤ ·) ∧ s.identitiesSharingHostAnchor.1.Nodup ∧
    ∀ n, n ∈ s.identitiesSharingHostAnchor.1 ↔ n ∈ s.registry.isolated ∧ s.Shares n

theorem seen_iff (s : TokenStores) (n : QString) : s.seen n = true ↔
    ∃ store, s.registry.stores.lookup n = some store ∧
      (s.contents store).credential = s.hostStore.credential ∧ s.hostStore.credential ≠ [] := by
  rw [seen]
  cases s.registry.stores.lookup n with
  | none => simp
  | some store =>
    simp only [isHostAnchorValue, Option.some.injEq, exists_eq_left', List.isEmpty_iff]
    by_cases hempty : (s.contents store).credential = []
    · rw [if_pos hempty, hempty]
      refine iff_of_false Bool.false_ne_true ?_
      rintro ⟨heq, hne⟩
      exact hne heq.symm
    · rw [if_neg hempty, beq_iff_eq]
      constructor
      · intro heq
        exact ⟨heq.symm, heq ▸ hempty⟩
      · rintro ⟨heq, -⟩
        exact heq.symm

/-- A sharer is seen, or it is missed. -/
theorem shares_iff (s : TokenStores) (n : QString) :
    s.Shares n ↔ s.seen n = true ∨ s.Missed n := by
  rw [seen_iff]
  constructor
  · intro ⟨store, hstore, value, hprivate, hhost⟩
    by_cases heq : (s.contents store).credential = s.hostStore.credential
    · have hne : s.hostStore.credential ≠ [] := by
        rcases TokenManager.holds_iff.mp hhost with ⟨hne, hvalue⟩ | hhides
        · exact hvalue ▸ hne
        · exact hhides.credential_ne_nil
      exact .inl ⟨store, hstore, heq, hne⟩
    · refine .inr ⟨store, hstore, heq, value, ?_⟩
      rcases TokenManager.holds_iff.mp hprivate with ⟨-, hvalue⟩ | hhides
      · rcases TokenManager.holds_iff.mp hhost with ⟨-, hvalue'⟩ | hhides
        · exact absurd (hvalue.symm.trans hvalue') heq
        · exact .inr ⟨hprivate, hhides⟩
      · exact .inl ⟨hhides, hhost⟩
  · rintro (⟨store, hstore, heq, hne⟩ |
      ⟨store, hstore, -, value, ⟨hhides, hholds⟩ | ⟨hholds, hhides⟩⟩)
    · refine ⟨store, hstore, s.hostStore.credential, ?_, ?_⟩
      · exact TokenManager.holds_iff.mpr (.inl ⟨hne, heq.symm⟩)
      · exact TokenManager.holds_iff.mpr (.inl ⟨hne, rfl⟩)
    · exact ⟨store, hstore, value, TokenManager.holds_iff.mpr (.inr hhides), hholds⟩
    · exact ⟨store, hstore, value, hholds, TokenManager.holds_iff.mpr (.inr hhides)⟩

/-- What is missed is not seen. -/
theorem Missed.not_seen {s : TokenStores} {n : QString} (h : s.Missed n) : ¬ s.seen n = true := by
  rw [seen_iff]
  rintro ⟨store, hstore, heq, -⟩
  obtain ⟨store', hstore', hne, -⟩ := h
  obtain rfl : store = store' := Option.some.inj (hstore.symm.trans hstore')
  exact hne heq

theorem listsSharers_iff (s : TokenStores) :
    s.ListsSharers ↔ ∀ n ∈ s.registry.isolated, ¬ s.Missed n := by
  obtain ⟨hsorted, hnodup, hmem⟩ := s.identitiesSharingHostAnchor_spec
  constructor
  · intro ⟨_, _, hexact⟩ n hn hmissed
    have hlisted := (hexact n).mpr ⟨hn, (s.shares_iff n).mpr (.inr hmissed)⟩
    exact hmissed.not_seen ((hmem n).mp hlisted).2
  · intro hnone
    refine ⟨hsorted, hnodup, ?_⟩
    intro n
    rw [hmem, s.shares_iff]
    constructor
    · intro ⟨hn, hseen⟩
      exact ⟨hn, .inl hseen⟩
    · rintro ⟨hn, hseen | hmissed⟩
      · exact ⟨hn, hseen⟩
      · exact absurd hmissed (hnone n hn)

end TokenStores

/-! ## Runs -/

/-- A save of one bootstrap key of a store leaves one of the two empty or writes the value that
the other holds. -/
def KeepsAnchors (s : TokenStores) (call : IdentityOp × IdentityAnswer) : Prop :=
  ∀ store key token, call.1 = .onStore store (.saveToken key token) → key ∈ bootstrapKeys →
    ∀ other ∈ bootstrapKeys, other ≠ key →
      token = [] ∨ (s.contents store).getToken other = [] ∨
        token = (s.contents store).getToken other

namespace TokenStores

/-- The bootstrap values of every store agree. -/
def AllAgree (s : TokenStores) : Prop := ∀ store, (s.contents store).AnchorsAgree

variable {s : TokenStores}

theorem AllAgree.forIdentity (h : s.AllAgree) (n : QString) : (s.forIdentity n).2.AllAgree := by
  intro store
  unfold TokenStores.forIdentity
  split
  · exact h store
  split
  · exact h store
  · by_cases hstore : store = s.registry.nextAddr
    · simp only [hstore, Function.update_self]
      exact .inl rfl
    · simp only [Function.update_of_ne hstore]
      exact h store

theorem AllAgree.modify (h : s.AllAgree) (store : ℕ) {f : TokenManager → TokenManager}
    (hf : (f (s.contents store)).AnchorsAgree) : (s.modify store f).AllAgree := by
  intro store'
  by_cases heq : store' = store
  · simp only [heq, TokenStores.modify, Function.update_self]
    exact hf
  · simp only [TokenStores.modify, Function.update_of_ne heq]
    exact h store'

theorem AllAgree.foldl_visitIdentity (names : List QString) (acc : List QString × TokenStores)
    (h : acc.2.AllAgree) : (names.foldl visitIdentity acc).2.AllAgree := by
  induction names generalizing acc with
  | nil => exact h
  | cons name names ih =>
    refine ih _ ?_
    have hvend := h.forIdentity name
    simp only [visitIdentity]
    split_ifs <;> exact hvend

/-- Only a save on a store can bring its bootstrap values apart. -/
theorem AllAgree.apply (h : s.AllAgree) (op : IdentityOp)
    (hsave : ∀ store key token, op = .onStore store (.saveToken key token) → key ∈ bootstrapKeys →
      ∀ other ∈ bootstrapKeys, other ≠ key →
        token = [] ∨ (s.contents store).getToken other = [] ∨
          token = (s.contents store).getToken other) : (s.apply op).2.AllAgree := by
  cases op with
  | forIdentity n => exact h.forIdentity n
  | isolateIdentity n =>
    rcases s.isolateIdentity_cases n with ⟨b, heq⟩ | ⟨hne, hv, heq⟩
    · simp only [TokenStores.apply, heq]
      exact h
    · simp only [TokenStores.apply, heq]
      exact h
  | isIsolated n => exact h
  | adoptCredentialFor n c =>
    rcases s.adoptCredentialFor_cases n c with ⟨heq, -⟩ | ⟨heq, -⟩
    · simp only [TokenStores.apply, heq]
      exact h
    · have hadopt : (((s.forIdentity n).2.contents (s.forIdentity n).1).adoptCredential
          c).AnchorsAgree := by
        refine @TokenManager.AnchorsAgree.apply _ (h.forIdentity n _) (.adoptCredential c) ?_
        intro key token hsaved
        cases hsaved
      simp only [TokenStores.apply, heq]
      exact (h.forIdentity n).modify (s.forIdentity n).1 (f := fun m => m.adoptCredential c) hadopt
  | resetIdentity n =>
    rcases s.resetIdentity_cases n with ⟨heq, -⟩ | ⟨heq, -⟩
    · simp only [TokenStores.apply, heq]
      exact h
    · simp only [TokenStores.apply, heq]
      exact (h.forIdentity n).modify (s.forIdentity n).1 (.inl rfl)
  | identitiesSharingHostAnchor => exact AllAgree.foldl_visitIdentity _ ([], s) h
  | onStore store call =>
    have hcall : ((s.contents store).apply call).2.AnchorsAgree := by
      refine (h store).apply ?_
      rintro key token rfl
      exact hsave store key token rfl
    exact h.modify store (f := fun _ => ((s.contents store).apply call).2) hcall

/-- Stores whose bootstrap values agree miss nothing. -/
theorem AllAgree.not_missed (h : s.AllAgree) (n : QString) : ¬ s.Missed n := by
  rintro ⟨store, -, -, value, ⟨hhides, -⟩ | ⟨-, hhides⟩⟩
  · exact (h store).not_hides hhides
  · exact (h instanceAddr).not_hides hhides

end TokenStores

theorem allAgree_of_run {s : TokenStores} {calls : List (IdentityOp × IdentityAnswer)}
    (h : (identityStores.restrict KeepsAnchors).Run .fresh calls s) : s.AllAgree := by
  refine h.invariant (I := TokenStores.AllAgree) ?_ fun _ => .inl rfl
  rintro t ⟨op, answer⟩ t' hagree ⟨hstep, hkeeps⟩
  have ht' : t' = (t.apply op).2 := congrArg Prod.snd (Eq.symm hstep)
  rw [ht']
  exact hagree.apply op hkeeps

/-- **The identities that share the host's anchor are listed exactly when none is missed.**  In
every state the listing is sorted, has no duplicates, and consists of the isolated identities
whose store holds, under some bootstrap key, a value that `instance()` holds under some bootstrap
key, if and only if no isolated identity has another credential than the host while one of the
two stores hides a value that the other holds; and it is exact in every state that a run from a
fresh image leads to whose saves keep the two bootstrap values of every store together. -/
theorem identitiesSharingHostAnchor_exact_iff (s : TokenStores) :
    (s.ListsSharers ↔ ∀ n ∈ s.registry.isolated, ¬ s.Missed n) ∧
    ∀ calls, (identityStores.restrict KeepsAnchors).Run .fresh calls s → s.ListsSharers := by
  refine ⟨s.listsSharers_iff, ?_⟩
  intro calls hrun
  rw [s.listsSharers_iff]
  intro n _
  exact (allAgree_of_run hrun).not_missed n

/-- The host saves "a" under "core" and "b" under "capability_module", and a copy of "b" is saved
by hand in the store of the isolated identity "view": the listing is empty. -/
theorem identitiesSharingHostAnchor_missed :
    ∃ s, identityStores.Reachable s ∧ s.identitiesSharingHostAnchor.1 = [] ∧
      qstr "view" ∈ s.registry.isolated ∧ s.Shares (qstr "view") ∧ ¬ s.ListsSharers := by
  let isolate : IdentityOp := .isolateIdentity (qstr "view")
  let vend : IdentityOp := .forIdentity (qstr "view")
  let core : IdentityOp := .onStore instanceAddr (.saveToken (qstr "core") (qstr "a"))
  let capability : IdentityOp :=
    .onStore instanceAddr (.saveToken (qstr "capability_module") (qstr "b"))
  let copy : IdentityOp := .onStore 1 (.saveToken (qstr "core") (qstr "b"))
  let s₁ := (TokenStores.fresh.apply isolate).2
  let s₂ := (s₁.apply vend).2
  let s₃ := (s₂.apply core).2
  let s₄ := (s₃.apply capability).2
  let s₅ := (s₄.apply copy).2
  have hfresh : identityStores.Reachable .fresh := .init rfl
  have h₁ : identityStores.Reachable s₁ := hfresh.step (a := (isolate, _)) rfl
  have h₂ : identityStores.Reachable s₂ := h₁.step (a := (vend, _)) rfl
  have h₃ : identityStores.Reachable s₃ := h₂.step (a := (core, _)) rfl
  have h₄ : identityStores.Reachable s₄ := h₃.step (a := (capability, _)) rfl
  have h₅ : identityStores.Reachable s₅ := h₄.step (a := (copy, _)) rfl
  have hisolated : qstr "view" ∈ s₅.registry.isolated := by decide
  have hshares : s₅.Shares (qstr "view") :=
    ⟨1, by decide, qstr "b", ⟨by decide, qstr "core", by decide, by decide⟩,
      ⟨by decide, qstr "capability_module", by decide, by decide⟩⟩
  have hunseen : s₅.seen (qstr "view") = false := by decide
  have hnone : s₅.identitiesSharingHostAnchor.1 = [] := by
    rw [List.eq_nil_iff_forall_not_mem]
    intro n hn
    obtain ⟨hmem, hseen⟩ := (s₅.identitiesSharingHostAnchor_spec.2.2 n).mp hn
    have hview : n = qstr "view" := by
      have hkeys : s₅.registry.isolated.keys = [qstr "view"] := by decide
      have hmem' : n ∈ s₅.registry.isolated.keys := AList.mem_keys.mp hmem
      rwa [hkeys, List.mem_singleton] at hmem'
    rw [hview, hunseen] at hseen
    cases hseen
  refine ⟨s₅, h₅, hnone, hisolated, hshares, ?_⟩
  intro hexact
  have hlisted := (hexact.2.2 _).mpr ⟨hisolated, hshares⟩
  rw [hnone] at hlisted
  cases hlisted

end LogosProtocol
