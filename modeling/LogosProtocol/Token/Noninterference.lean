import LogosProtocol.Token.Authorize

/-!
# Outbound tokens do not interfere with authorization

Both directions of trust share one hash, so that a token kept in order to call a peer
does not let that peer in is a statement about two stores: if they agree on the
inbound half and on the credential, `authorize` cannot tell them apart, whatever else
they hold.
-/

namespace LogosProtocol

/-- The call writes to the outbound half, under a key that is not a role label. -/
def TokenOp.NonBootstrapOutbound : TokenOp → Prop
  | .saveToken key _ | .removeToken key => key ∉ bootstrapKeys
  | _ => False

/-- The credential is a function of the outbound map. -/
theorem TokenManager.credential_eq_of_outbound {m m' : TokenManager}
    (h : ∀ k ∈ bootstrapKeys, m.maps.outbound k = m'.maps.outbound k) :
    m.credential = m'.credential := by
  have hlookup : ∀ k ∈ bootstrapKeys, m.tokens.lookup k = m'.tokens.lookup k := by
    intro k hk
    have hr := not_reserved_of_mem_bootstrapKeys hk
    rw [← maps_outbound hr m, ← maps_outbound hr m', h k hk]
  have hmap : bootstrapKeys.map (fun key => (m.tokens.lookup key).getD []) =
      bootstrapKeys.map (fun key => (m'.tokens.lookup key).getD []) :=
    List.map_congr_left fun k hk => by rw [hlookup k hk]
  rw [credential, credential, hmap]

/-- A write under another key does not touch a role label. -/
theorem TokenMaps.apply_nonBootstrap {op : TokenOp} (h : op.NonBootstrapOutbound)
    (p : TokenMaps) : (p.apply op).2.inbound = p.inbound ∧
      ∀ k ∈ bootstrapKeys, (p.apply op).2.outbound k = p.outbound k := by
  cases op with
  | saveToken key token =>
    refine ⟨p.save_inbound key token, fun k hk => ?_⟩
    have hne : k ≠ key := fun he => h (he ▸ hk)
    simp only [apply, save]
    split <;> simp [hne]
  | removeToken key =>
    refine ⟨rfl, fun k hk => ?_⟩
    have hne : k ≠ key := fun he => h (he ▸ hk)
    simp [apply, hne]
  | adoptCredential credential => exact h.elim
  | saveInboundToken caller token => exact h.elim
  | clearAllTokens => exact h.elim

namespace ModuleProxy

/-- Two proxies that differ only in what their stores present to others. -/
structure LowEquivalent (p q : ModuleProxy) : Prop where
  tokens : ∀ k, p.tokens.lookup k = q.tokens.lookup k
  validator : p.validator = q.validator
  inbound : p.store.maps.inbound = q.store.maps.inbound
  credential : p.store.credential = q.store.credential

theorem LowEquivalent.grants_eq {p q : ModuleProxy} (h : p.LowEquivalent q) :
    p.grants = q.grants := by
  simp only [grants, h.validator, h.inbound, h.credential, funext h.tokens]

/-- A hash has as many entries as keys with a value. -/
theorem length_entries_eq_ncard (d : QHash QString QString) :
    d.entries.length = {k | (d.lookup k).isSome}.ncard := by
  have hkeys : d.keys.length = d.entries.length := by simp [AList.keys, List.keys]
  rw [← hkeys, Dict.ncard_of_listing (S := {k | (d.lookup k).isSome}) d.keys_nodup]
  intro k
  exact AList.mem_keys.symm.trans Dict.lookup_isSome_iff.symm

theorem LowEquivalent.comparisonCount_eq {p q : ModuleProxy} (h : p.LowEquivalent q) :
    p.comparisonCount = q.comparisonCount := by
  have hinbound : p.store.inboundCount = q.store.inboundCount := by
    rw [p.store.reads_maps.inboundCount, q.store.reads_maps.inboundCount, h.inbound]
  simp only [comparisonCount, length_entries_eq_ncard, h.tokens, hinbound]

/-- Low-equivalent proxies give the same verdict, the same caller document and make the
same number of comparisons. -/
theorem LowEquivalent.authorize_eq {p q : ModuleProxy} (h : p.LowEquivalent q)
    (t transport : QString) : p.authorize t transport = q.authorize t transport := by
  rw [ModuleProxy.authorize_eq, ModuleProxy.authorize_eq, h.grants_eq, h.comparisonCount_eq]

/-- A run of outbound writes under other keys leads to a low-equivalent proxy. -/
theorem lowEquivalent_of_run (p : ModuleProxy) {m m' : TokenManager}
    {calls : List (TokenOp × Option Bool)} (hrun : tokenStore.Run m calls m')
    (hcalls : ∀ c ∈ calls, c.1.NonBootstrapOutbound) :
    LowEquivalent { p with store := m } { p with store := m' } := by
  suffices h : m'.maps.inbound = m.maps.inbound ∧
      ∀ k ∈ bootstrapKeys, m'.maps.outbound k = m.maps.outbound k from
    ⟨fun _ => rfl, rfl, h.1.symm,
      TokenManager.credential_eq_of_outbound fun k hk => (h.2 k hk).symm⟩
  induction hrun with
  | nil => exact ⟨rfl, fun _ _ => rfl⟩
  | @snoc t u as call _ hs ih =>
    obtain ⟨hin, hout⟩ := ih fun c hc => hcalls c (List.mem_append_left _ hc)
    have hop := hcalls call (by simp)
    have hu : u.maps = (t.maps.apply call.1).2 := congrArg Prod.snd (tokenStore_step_maps hs)
    obtain ⟨hin', hout'⟩ := TokenMaps.apply_nonBootstrap hop t.maps
    refine ⟨by rw [hu, hin', hin], fun k hk => ?_⟩
    rw [hu, hout' k hk, hout k hk]

/-- **Noninterference.** Two proxies that agree on their own record, on the inbound half
of their stores and on the credential give every token the same verdict, the same caller
document and the same number of comparisons, which for a non-empty token is one for each
issued token and one for the credential; so no run of outbound writes under keys that
are not role labels changes any answer. -/
theorem authorize_noninterference {p q : ModuleProxy} (h : p.LowEquivalent q) :
    (∀ t transport, p.authorize t transport = q.authorize t transport) ∧
    (∀ t transport, t ≠ [] → (p.authorize t transport).comparisons =
      p.tokens.entries.length + p.store.inboundCount + 1) ∧
    ∀ calls m', tokenStore.Run p.store calls m' → (∀ c ∈ calls, c.1.NonBootstrapOutbound) →
      ∀ t transport, (p.authorize t transport).authorized = false →
        (authorize { p with store := m' } t transport).authorized = false := by
  refine ⟨h.authorize_eq, fun t transport ht => ?_, fun calls m' hrun hcalls t transport href => ?_⟩
  · rw [ModuleProxy.authorize_eq, if_neg ht]
    split <;> rfl
  · rw [← (lowEquivalent_of_run p hrun hcalls).authorize_eq t transport]
    exact href

/-- A store with and without a token for calling `chat` refuse that token alike. -/
theorem authorize_noninterference_outbound :
    let chat : TokenManager := TokenManager.empty.saveToken (qstr "chat") (qstr "t")
    (authorize ⟨∅, chat, none⟩ (qstr "t") []).authorized = false ∧
      ∀ t transport, authorize ⟨∅, chat, none⟩ t transport =
        authorize ⟨∅, .empty, none⟩ t transport := by
  refine ⟨by decide, ?_⟩
  refine (authorize_noninterference ⟨fun _ => rfl, rfl, ?_, by decide⟩).1
  rw [TokenManager.maps_saveToken, TokenMaps.save_inbound]

end ModuleProxy

end LogosProtocol
