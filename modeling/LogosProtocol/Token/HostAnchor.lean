import LogosProtocol.Token.IdentityStores

/-!
# Adopting the host's anchor

`adoptCredentialFor` refuses a value that equals `credential()` of `instance()`: the first
non-empty value under the two bootstrap keys, and only that one.  The store lets the two keys be
written one at a time, so a value under the second key that differs from the first is adopted.

## Main definitions

* `TokenStores.HoldsAnchor` — `instance()` holds a value under a bootstrap key.
* `KeepsAnchor` — a call that does not bring the two bootstrap values apart.
-/

namespace LogosProtocol

namespace TokenManager

/-- The two bootstrap keys hold one value, or one of them holds none. -/
def AnchorsAgree (m : TokenManager) : Prop :=
  m.getToken (qstr "core") = [] ∨ m.getToken (qstr "capability_module") = [] ∨
    m.getToken (qstr "core") = m.getToken (qstr "capability_module")

theorem getToken_of_bootstrap {key : QString} (h : key ∈ bootstrapKeys) (m : TokenManager) :
    m.getToken key = (m.tokens.lookup key).getD [] := by
  simp [getToken, not_reserved_of_mem_bootstrapKeys h]

/-- The credential is what "core" holds, or else what "capability_module" holds. -/
theorem credential_eq (m : TokenManager) :
    m.credential = if m.getToken (qstr "core") = [] then m.getToken (qstr "capability_module")
      else m.getToken (qstr "core") := by
  rw [m.getToken_of_bootstrap (by decide), m.getToken_of_bootstrap (by decide), credential]
  by_cases hcore : (m.tokens.lookup (qstr "core")).getD [] = []
  · by_cases hcapability : (m.tokens.lookup (qstr "capability_module")).getD [] = []
    · simp [bootstrapKeys, hcore, hcapability]
    · simp [bootstrapKeys, hcore, hcapability]
  · simp [bootstrapKeys, hcore]

/-- What the outbound readers see of an operation is what it does to the outbound map. -/
theorem getToken_apply (m : TokenManager) (op : TokenOp) (key : QString) :
    (m.apply op).2.getToken key = ((m.maps.apply op).2.outbound key).getD [] := by
  rw [(m.apply op).2.reads_maps.getToken, ← m.maps_apply]

theorem getToken_saveToken {key : QString} (hkey : key ∈ bootstrapKeys) (m : TokenManager)
    (key' token : QString) :
    (m.apply (.saveToken key' token)).2.getToken key =
      if key = key' then token else m.getToken key := by
  rw [getToken_apply, m.reads_maps.getToken]
  simp only [TokenMaps.apply, TokenMaps.save]
  split_ifs with hreserved heq heq
  · rw [← heq, not_reserved_of_mem_bootstrapKeys hkey] at hreserved
    cases hreserved
  · rfl
  · simp [heq]
  · simp [heq]

end TokenManager

namespace TokenStores

/-- The host's store holds the value under a bootstrap key. -/
def HoldsAnchor (s : TokenStores) (value : QString) : Prop :=
  ∃ key ∈ bootstrapKeys, s.hostStore.tokens.lookup key = some value

theorem HoldsAnchor.eq_or_eq {s : TokenStores} {value : QString} (h : s.HoldsAnchor value) :
    value = s.hostStore.getToken (qstr "core") ∨
      value = s.hostStore.getToken (qstr "capability_module") := by
  obtain ⟨key, hkey, hvalue⟩ := h
  have hget : s.hostStore.getToken key = value := by
    rw [s.hostStore.getToken_of_bootstrap hkey, hvalue]
    rfl
  have hkeys : key = qstr "core" ∨ key = qstr "capability_module" := by
    simpa [bootstrapKeys] using hkey
  rcases hkeys with rfl | rfl
  · exact .inl hget.symm
  · exact .inr hget.symm

/-- An anchor is refused unless an isolated identity offers it while "core" holds another. -/
theorem adoptCredentialFor_eq_iff {s : TokenStores} {credential : QString}
    (h : s.HoldsAnchor credential) (identity : QString) :
    s.adoptCredentialFor identity credential = (false, s) ↔
      identity ∉ s.registry.isolated ∨ credential = [] ∨
        s.hostStore.getToken (qstr "core") = [] ∨
        credential = s.hostStore.getToken (qstr "core") := by
  rcases s.adoptCredentialFor_cases identity credential with
    ⟨heq, hrefused⟩ | ⟨heq, hisolated, hne, hother⟩
  · refine iff_of_true heq ?_
    rcases hrefused with hn | hc | hanchor
    · exact .inl hn
    · exact .inr (.inl hc)
    · rw [TokenManager.credential_eq] at hanchor
      split_ifs at hanchor with hcore
      · exact .inr (.inr (.inl hcore))
      · exact .inr (.inr (.inr hanchor.symm))
  · refine iff_of_false (by simp [heq]) ?_
    rw [TokenManager.credential_eq] at hother
    rintro (hn | hc | hcore | hc)
    · exact hn hisolated
    · exact hne hc
    · rw [if_pos hcore] at hother
      rcases h.eq_or_eq with hvalue | hvalue
      · exact hne (hvalue.trans hcore)
      · exact hother hvalue.symm
    · rw [if_neg (hc ▸ hne)] at hother
      exact hother hc.symm

theorem adoptCredentialFor_of_agree {s : TokenStores} (hagree : s.hostStore.AnchorsAgree)
    {credential : QString} (h : s.HoldsAnchor credential) (identity : QString) :
    s.adoptCredentialFor identity credential = (false, s) := by
  rw [adoptCredentialFor_eq_iff h]
  rcases hagree with hcore | hcapability | heq
  · exact .inr (.inr (.inl hcore))
  · rcases h.eq_or_eq with hvalue | hvalue
    · exact .inr (.inr (.inr hvalue))
    · exact .inr (.inl (hvalue.trans hcapability))
  · rcases h.eq_or_eq with hvalue | hvalue
    · exact .inr (.inr (.inr hvalue))
    · exact .inr (.inr (.inr (hvalue.trans heq.symm)))

theorem hostStore_foldl_visitIdentity (names : List QString) (acc : List QString × TokenStores) :
    (names.foldl visitIdentity acc).2.hostStore = acc.2.hostStore := by
  induction names generalizing acc with
  | nil => rfl
  | cons name names ih =>
    have hvisit : (visitIdentity acc name).2.hostStore = acc.2.hostStore := by
      have hvend := acc.2.hostStore_forIdentity name
      simp only [visitIdentity]
      split_ifs <;> exact hvend
    rw [List.foldl_cons, ih, hvisit]

/-- Only a call on `instance()` itself writes to it. -/
theorem hostStore_apply (s : TokenStores) {op : IdentityOp}
    (h : ∀ call, op ≠ .onStore instanceAddr call) : (s.apply op).2.hostStore = s.hostStore := by
  cases op with
  | forIdentity n => exact s.hostStore_forIdentity n
  | isolateIdentity n =>
    rcases s.isolateIdentity_cases n with ⟨b, heq⟩ | ⟨hne, hv, heq⟩
    · simp only [apply, heq]
      rfl
    · simp only [apply, heq]
      rfl
  | isIsolated n => rfl
  | adoptCredentialFor n c =>
    rcases s.adoptCredentialFor_cases n c with ⟨heq, -⟩ | ⟨heq, hn, -⟩
    · simp only [apply, heq]
      rfl
    · simp only [apply, heq, Prod.map_snd, id]
      exact (s.contents_modify_forIdentity hn _).1
  | resetIdentity n =>
    rcases s.resetIdentity_cases n with ⟨heq, -⟩ | ⟨heq, hn⟩
    · simp only [apply, heq]
      rfl
    · simp only [apply, heq, Prod.map_snd, id]
      exact (s.contents_modify_forIdentity hn _).1
  | identitiesSharingHostAnchor => exact hostStore_foldl_visitIdentity _ ([], s)
  | onStore store call =>
    have hne : instanceAddr ≠ store := fun heq => h call (heq ▸ rfl)
    exact Function.update_of_ne hne _ _

end TokenStores

/-- A save of one bootstrap key of `instance()` leaves one of the two empty or writes the value
that the other holds. -/
def KeepsAnchor (s : TokenStores) (call : IdentityOp × IdentityAnswer) : Prop :=
  ∀ key token, call.1 = .onStore instanceAddr (.saveToken key token) → key ∈ bootstrapKeys →
    ∀ other ∈ bootstrapKeys, other ≠ key →
      token = [] ∨ s.hostStore.getToken other = [] ∨ token = s.hostStore.getToken other

/-- Of the operations on a store, only a save can bring its anchors apart. -/
theorem TokenManager.AnchorsAgree.apply {m : TokenManager} (h : m.AnchorsAgree) {op : TokenOp}
    (hsave : ∀ key token, op = .saveToken key token → key ∈ bootstrapKeys →
      ∀ other ∈ bootstrapKeys, other ≠ key →
        token = [] ∨ m.getToken other = [] ∨ token = m.getToken other) :
    (m.apply op).2.AnchorsAgree := by
  have hcore : qstr "core" ∈ bootstrapKeys := by decide
  have hcapability : qstr "capability_module" ∈ bootstrapKeys := by decide
  have hne : qstr "core" ≠ qstr "capability_module" := by decide
  cases op with
  | saveToken key token =>
    simp only [AnchorsAgree, getToken_saveToken hcore, getToken_saveToken hcapability]
    by_cases hc : qstr "core" = key
    · have hother := hsave key token rfl (hc ▸ hcore) _ hcapability (hc ▸ hne.symm)
      simpa [hc, show qstr "capability_module" ≠ key from hc ▸ hne.symm] using hother
    by_cases hm : qstr "capability_module" = key
    · have hother := hsave key token rfl (hm ▸ hcapability) _ hcore (hm ▸ hne)
      simp only [hc, hm, if_true, if_false]
      rcases hother with htoken | hempty | heq
      · exact .inr (.inl htoken)
      · exact .inl hempty
      · exact .inr (.inr heq.symm)
    · simp only [hc, hm, if_false]
      exact h
  | removeToken key =>
    simp only [AnchorsAgree, getToken_apply, TokenMaps.apply]
    by_cases hc : qstr "core" = key
    · exact .inl (by simp [hc])
    by_cases hm : qstr "capability_module" = key
    · exact .inr (.inl (by simp [hm]))
    · rw [Function.update_of_ne hc, Function.update_of_ne hm, ← m.reads_maps.getToken,
        ← m.reads_maps.getToken]
      exact h
  | adoptCredential credential =>
    by_cases hempty : credential.isEmpty = true
    · simpa [TokenManager.apply, adoptCredential, hempty] using h
    · refine .inr (.inr ?_)
      simp only [getToken_apply, TokenMaps.apply, hempty, bootstrapKeys, List.foldl_cons,
        List.foldl_nil, TokenMaps.save, not_reserved_of_mem_bootstrapKeys hcore,
        not_reserved_of_mem_bootstrapKeys hcapability]
      simp [Function.update_of_ne hne]
  | saveInboundToken caller token =>
    simp only [AnchorsAgree, getToken_apply, TokenMaps.apply_outbound]
    simp only [← m.reads_maps.getToken]
    exact h
  | clearAllTokens => exact .inl (by rw [getToken_apply]; rfl)

theorem anchorsAgree_of_run {s : TokenStores} {calls : List (IdentityOp × IdentityAnswer)}
    (h : (identityStores.restrict KeepsAnchor).Run .fresh calls s) :
    s.hostStore.AnchorsAgree := by
  refine h.invariant (I := fun s => s.hostStore.AnchorsAgree) ?_ (.inl rfl)
  rintro t ⟨op, answer⟩ t' hagree ⟨hstep, hkeeps⟩
  have ht' : t' = (t.apply op).2 := congrArg Prod.snd (Eq.symm hstep)
  rw [ht']
  by_cases hop : ∃ call, op = .onStore instanceAddr call
  · obtain ⟨call, rfl⟩ := hop
    have hstore : (t.apply (.onStore instanceAddr call)).2.hostStore =
        (t.hostStore.apply call).2 := by
      simp [TokenStores.apply, TokenStores.modify, TokenStores.hostStore]
    rw [hstore]
    refine hagree.apply fun key token hsave => ?_
    subst hsave
    exact hkeeps key token rfl
  · rw [t.hostStore_apply (not_exists.mp hop)]
    exact hagree

/-- **The host's anchor is refused exactly when "core" does not hold another.** A value that
`instance()` holds under a bootstrap key is refused, and nothing is written, if and only if the
identity is not isolated, the value is empty, "core" holds nothing, or "core" holds the value;
so in every run from a fresh image whose saves keep the two bootstrap values together, every
such value is refused to every identity. -/
theorem hostAnchor_refused_iff (s : TokenStores) (identity credential : QString)
    (h : s.HoldsAnchor credential) :
    (s.adoptCredentialFor identity credential = (false, s) ↔
      identity ∉ s.registry.isolated ∨ credential = [] ∨
        s.hostStore.getToken (qstr "core") = [] ∨
        credential = s.hostStore.getToken (qstr "core")) ∧
    ∀ calls, (identityStores.restrict KeepsAnchor).Run .fresh calls s →
      s.adoptCredentialFor identity credential = (false, s) := by
  refine ⟨TokenStores.adoptCredentialFor_eq_iff h identity, ?_⟩
  intro calls hrun
  exact TokenStores.adoptCredentialFor_of_agree (anchorsAgree_of_run hrun) h identity

/-- The host saves its anchor "a" under "core" alone, and the isolated identity "view" is refused
it. -/
theorem hostAnchor_refused_core :
    ∃ s, identityStores.Reachable s ∧ s.HoldsAnchor (qstr "a") ∧ s.isIsolated (qstr "view") ∧
      s.adoptCredentialFor (qstr "view") (qstr "a") = (false, s) := by
  let core : IdentityOp := .onStore instanceAddr (.saveToken (qstr "core") (qstr "a"))
  let isolate : IdentityOp := .isolateIdentity (qstr "view")
  let s₁ := (TokenStores.fresh.apply core).2
  have hfresh : identityStores.Reachable .fresh := .init rfl
  have h₁ : identityStores.Reachable s₁ := hfresh.step (a := (core, _)) rfl
  have h₂ : identityStores.Reachable (s₁.apply isolate).2 := h₁.step (a := (isolate, _)) rfl
  have hholds : (s₁.apply isolate).2.HoldsAnchor (qstr "a") :=
    ⟨qstr "core", by decide, by decide⟩
  refine ⟨_, h₂, hholds, by decide, ?_⟩
  exact (hostAnchor_refused_iff _ _ _ hholds).1.mpr (.inr (.inr (.inr (by decide))))

/-- The host saves its anchor "a" under "core" and "b" under "capability_module"; the isolated
identity "view" then adopts "b". -/
theorem hostAnchor_adopted :
    ∃ s, identityStores.Reachable s ∧ s.HoldsAnchor (qstr "b") ∧
      (s.adoptCredentialFor (qstr "view") (qstr "b")).1 = true := by
  let core : IdentityOp := .onStore instanceAddr (.saveToken (qstr "core") (qstr "a"))
  let capability : IdentityOp :=
    .onStore instanceAddr (.saveToken (qstr "capability_module") (qstr "b"))
  let isolate : IdentityOp := .isolateIdentity (qstr "view")
  let s₁ := (TokenStores.fresh.apply core).2
  let s₂ := (s₁.apply capability).2
  have hfresh : identityStores.Reachable .fresh := .init rfl
  have h₁ : identityStores.Reachable s₁ := hfresh.step (a := (core, _)) rfl
  have h₂ : identityStores.Reachable s₂ := h₁.step (a := (capability, _)) rfl
  have h₃ : identityStores.Reachable (s₂.apply isolate).2 := h₂.step (a := (isolate, _)) rfl
  exact ⟨_, h₃, ⟨qstr "capability_module", by decide, by decide⟩, by decide⟩

end LogosProtocol
