import LogosProtocol.Lib.TransitionSystem
import LogosProtocol.Token.TokenManager

/-!
# The token store is a pair of independent maps

`TokenMaps` says what the store is for: one map of the tokens presented to peers and
one of the tokens issued to callers, which share nothing.  `TokenManager.maps` reads
the two halves out of the shared hash, every operation commutes with it, and every
reader is a reader of one of the two maps.

A hash may be rehashed whenever it is touched, so a run of the store may reorder the
entries after each operation.
-/

namespace LogosProtocol

/-- One mutating call on a store. -/
inductive TokenOp
  | saveToken (key token : QString)
  | removeToken (key : QString)
  | adoptCredential (credential : QString)
  | saveInboundToken (caller token : QString)
  | clearAllTokens
  deriving DecidableEq

/-- The operation writes to the outbound half only. -/
def TokenOp.isOutbound : TokenOp → Bool
  | .saveToken .. | .removeToken .. | .adoptCredential .. => true
  | .saveInboundToken .. | .clearAllTokens => false

/-- The two directions of trust, as independent maps. -/
@[ext] structure TokenMaps where
  /-- peer ↦ the token presented when calling it. -/
  outbound : QString → Option QString
  /-- caller ↦ the token it was issued. -/
  inbound : QString → Option QString

namespace TokenMaps

def empty : TokenMaps := ⟨fun _ => none, fun _ => none⟩

/-- Names that carry the namespace character are refused by every door. -/
def save (p : TokenMaps) (key token : QString) : TokenMaps :=
  if isReservedKey key then p
  else { p with outbound := Function.update p.outbound key (some token) }

/-- The operations on the two maps, with the value each returns (none for `void`). -/
def apply (p : TokenMaps) : TokenOp → Option Bool × TokenMaps
  | .saveToken key token => (none, p.save key token)
  | .removeToken key =>
    (some (p.outbound key).isSome,
      { p with outbound := Function.update p.outbound key none })
  | .adoptCredential credential =>
    (none, if credential.isEmpty then p
      else bootstrapKeys.foldl (fun p key => p.save key credential) p)
  | .saveInboundToken caller token =>
    if caller.isEmpty || token.isEmpty || isReservedKey caller then (some false, p)
    else (some true, { p with inbound := Function.update p.inbound caller (some token) })
  | .clearAllTokens => (none, empty)

/-- The maps after a sequence of operations. -/
def run (p : TokenMaps) (ops : List TokenOp) : TokenMaps :=
  ops.foldl (fun p op => (p.apply op).2) p

theorem run_concat (p : TokenMaps) (ops : List TokenOp) (op : TokenOp) :
    p.run (ops ++ [op]) = ((p.run ops).apply op).2 := by
  simp [run]

theorem save_inbound (p : TokenMaps) (key token : QString) :
    (p.save key token).inbound = p.inbound := by
  unfold save
  split <;> rfl

/-- An outbound operation leaves the inbound map alone. -/
theorem apply_inbound {op : TokenOp} (h : op.isOutbound = true) (p : TokenMaps) :
    (p.apply op).2.inbound = p.inbound := by
  cases op with
  | saveToken key token => exact p.save_inbound key token
  | removeToken key => rfl
  | adoptCredential credential =>
    by_cases hc : credential.isEmpty = true
    · simp [apply, hc]
    · simp [apply, hc, bootstrapKeys, save_inbound]
  | saveInboundToken caller token => simp [TokenOp.isOutbound] at h
  | clearAllTokens => simp [TokenOp.isOutbound] at h

/-- Recording an inbound token leaves the outbound map alone. -/
theorem apply_outbound (p : TokenMaps) (caller token : QString) :
    (p.apply (.saveInboundToken caller token)).2.outbound = p.outbound := by
  simp only [apply]
  split <;> rfl

end TokenMaps

namespace TokenManager

/-- The calls of the concrete store, with the value each returns. -/
def apply (m : TokenManager) : TokenOp → Option Bool × TokenManager
  | .saveToken key token => (none, m.saveToken key token)
  | .removeToken key => ((m.removeToken key).map some id)
  | .adoptCredential credential => (none, m.adoptCredential credential)
  | .saveInboundToken caller token => ((m.saveInboundToken caller token).map some id)
  | .clearAllTokens => (none, m.clearAllTokens)

/-- The two maps a store holds. -/
def maps (m : TokenManager) : TokenMaps where
  outbound k := if isReservedKey k then none else m.tokens.lookup k
  inbound c := if isReservedKey c then none else m.tokens.lookup (inboundKey c)

theorem maps_outbound {k : QString} (h : isReservedKey k = false) (m : TokenManager) :
    m.maps.outbound k = m.tokens.lookup k := by simp [maps, h]

theorem maps_outbound_reserved {k : QString} (h : isReservedKey k = true) (m : TokenManager) :
    m.maps.outbound k = none := by simp [maps, h]

theorem maps_inbound {c : QString} (h : isReservedKey c = false) (m : TokenManager) :
    m.maps.inbound c = m.tokens.lookup (inboundKey c) := by simp [maps, h]

theorem maps_inbound_reserved {c : QString} (h : isReservedKey c = true) (m : TokenManager) :
    m.maps.inbound c = none := by simp [maps, h]

@[simp] theorem maps_empty : empty.maps = TokenMaps.empty := by
  ext1 <;> funext k <;> simp [maps, empty, TokenMaps.empty]

/-- Rehashing changes neither map. -/
theorem maps_congr {m m' : TokenManager} (h : m.tokens.Reordered m'.tokens) :
    m.maps = m'.maps := by
  ext1 <;> funext k <;> simp only [maps, h.lookup]

/-! ## Each operation commutes with `maps` -/

theorem maps_saveToken (m : TokenManager) (key token : QString) :
    (m.saveToken key token).maps = m.maps.save key token := by
  cases hk : isReservedKey key with
  | true => simp [tokens_saveToken_of_reserved hk, TokenMaps.save, hk]
  | false =>
    simp only [TokenMaps.save, hk, Bool.false_eq_true, if_false]
    ext1
    · funext k
      simp only [maps, tokens_saveToken hk]
      by_cases hkk : k = key
      · subst hkk
        simp [hk]
      · simp [Function.update_of_ne hkk, AList.lookup_insert_ne hkk]
    · funext c
      simp only [maps, tokens_saveToken hk]
      rw [AList.lookup_insert_ne (ne_inboundKey hk c).symm]

theorem maps_removeToken (m : TokenManager) (key : QString) :
    (m.removeToken key).1 = (m.maps.outbound key).isSome ∧
      (m.removeToken key).2.maps =
        { m.maps with outbound := Function.update m.maps.outbound key none } := by
  cases hk : isReservedKey key with
  | true =>
    have hup : Function.update m.maps.outbound key none = m.maps.outbound := by
      rw [Function.update_eq_self_iff, maps_outbound_reserved hk]
    simp [removeToken, hk, maps_outbound_reserved hk, hup]
  | false =>
    refine ⟨?_, ?_⟩
    · rw [maps_outbound hk]
      by_cases hm : key ∈ m.tokens
      · simp [removeToken, hk, hm, Dict.lookup_isSome_iff.mpr hm]
      · simp [removeToken, hk, hm, AList.lookup_eq_none.mpr hm]
    · ext1
      · funext k
        simp only [maps, tokens_removeToken hk]
        by_cases hkk : k = key
        · subst hkk
          simp
        · simp [Function.update_of_ne hkk, AList.lookup_erase_ne hkk]
      · funext c
        simp only [maps, tokens_removeToken hk]
        rw [AList.lookup_erase_ne (ne_inboundKey hk c).symm]

theorem maps_adoptCredential (m : TokenManager) (credential : QString) :
    (m.adoptCredential credential).maps = (m.maps.apply (.adoptCredential credential)).2 := by
  by_cases hc : credential.isEmpty = true
  · simp [adoptCredential, TokenMaps.apply, hc]
  · simp [adoptCredential, TokenMaps.apply, hc, bootstrapKeys, maps_saveToken]

theorem maps_saveInboundToken (m : TokenManager) (caller token : QString) :
    (some (m.saveInboundToken caller token).1, (m.saveInboundToken caller token).2.maps) =
      m.maps.apply (.saveInboundToken caller token) := by
  by_cases he : caller = [] ∨ token = []
  · have hb : (caller.isEmpty || token.isEmpty) = true := by simpa using he
    simp [saveInboundToken, TokenMaps.apply, hb]
  obtain ⟨hc, ht⟩ := not_or.mp he
  cases hr : isReservedKey caller with
  | true => simp [saveInboundToken, TokenMaps.apply, hc, ht, hr]
  | false =>
    have hret : (m.saveInboundToken caller token).1 = true := by
      simp [saveInboundToken, hc, ht, hr]
    have hmaps : (m.saveInboundToken caller token).2.maps =
        { m.maps with inbound := Function.update m.maps.inbound caller (some token) } := by
      ext1
      · funext k
        simp only [maps, tokens_saveInboundToken hc ht hr]
        cases hk : isReservedKey k with
        | true => simp
        | false => simp [AList.lookup_insert_ne (ne_inboundKey hk caller)]
      · funext c
        simp only [maps, tokens_saveInboundToken hc ht hr]
        by_cases hcc : c = caller
        · subst hcc
          simp [hr]
        · have hne : inboundKey c ≠ inboundKey caller := fun h => hcc (inboundKey_injective h)
          simp [Function.update_of_ne hcc, AList.lookup_insert_ne hne]
    simp [hret, hmaps, TokenMaps.apply, hc, ht, hr]

/-- **Every operation is the same operation on the two maps**, with the same return
value. -/
theorem maps_apply (m : TokenManager) (op : TokenOp) :
    ((m.apply op).1, (m.apply op).2.maps) = m.maps.apply op := by
  cases op with
  | saveToken key token => simp [apply, TokenMaps.apply, maps_saveToken]
  | removeToken key =>
    obtain ⟨h₁, h₂⟩ := m.maps_removeToken key
    simp [apply, TokenMaps.apply, h₁, h₂]
  | adoptCredential credential =>
    rw [Prod.ext_iff]
    exact ⟨rfl, m.maps_adoptCredential credential⟩
  | saveInboundToken caller token => exact m.maps_saveInboundToken caller token
  | clearAllTokens => simp [apply, TokenMaps.apply, clearAllTokens]

/-! ## Each reader reads one of the two maps -/

/-- What the readers of a store say about a pair of maps. -/
structure Reads (m : TokenManager) (p : TokenMaps) : Prop where
  getToken : ∀ k, m.getToken k = (p.outbound k).getD []
  hasToken : ∀ k, m.hasToken k = (p.outbound k).isSome
  getTokenKeys_nodup : m.getTokenKeys.Nodup
  mem_getTokenKeys : ∀ k, k ∈ m.getTokenKeys ↔ (p.outbound k).isSome
  tokenCount : m.tokenCount = {k | (p.outbound k).isSome}.ncard
  inboundValue : ∀ c, m.inboundValue c = (p.inbound c).getD []
  inboundContains : ∀ c, m.inboundContains c = (p.inbound c).isSome
  inboundKeyList_nodup : m.inboundKeyList.Nodup
  mem_inboundKeyList : ∀ c, c ∈ m.inboundKeyList ↔ (p.inbound c).isSome
  inboundCount : m.inboundCount = {c | (p.inbound c).isSome}.ncard

theorem mem_getTokenKeys_iff (m : TokenManager) (k : QString) :
    k ∈ m.getTokenKeys ↔ (m.maps.outbound k).isSome := by
  cases hk : isReservedKey k with
  | true => simp [getTokenKeys, hk, maps_outbound_reserved hk]
  | false =>
    simp [getTokenKeys, hk, maps_outbound hk, AList.mem_keys, Dict.lookup_isSome_iff]

theorem mem_inboundKeyList_iff (m : TokenManager) (c : QString) :
    c ∈ m.inboundKeyList ↔ (m.maps.inbound c).isSome := by
  rw [mem_inboundKeyList]
  cases hc : isReservedKey c with
  | true => simp [maps_inbound_reserved hc]
  | false => simp [maps_inbound hc, Dict.lookup_isSome_iff]

theorem reads_maps (m : TokenManager) : m.Reads m.maps := by
  have hkeys : m.getTokenKeys.Nodup := m.tokens.keys_nodup.filter _
  refine ⟨?_, ?_, hkeys, m.mem_getTokenKeys_iff, ?_, ?_, ?_, m.nodup_inboundKeyList,
    m.mem_inboundKeyList_iff, ?_⟩
  · intro k
    cases hk : isReservedKey k <;> simp [TokenManager.getToken, maps, hk]
  · intro k
    cases hk : isReservedKey k with
    | true => simp [TokenManager.hasToken, maps, hk]
    | false =>
      rw [maps_outbound hk, Bool.eq_iff_iff, Dict.lookup_isSome_iff]
      simp [TokenManager.hasToken, hk]
  · rw [Dict.ncard_of_listing (S := {k | (m.maps.outbound k).isSome}) hkeys
      m.mem_getTokenKeys_iff]
    simp [TokenManager.tokenCount, getTokenKeys, List.countP_eq_length_filter]
  · intro c
    cases hc : isReservedKey c <;> simp [TokenManager.inboundValue, maps, hc]
  · intro c
    cases hc : isReservedKey c with
    | true => simp [TokenManager.inboundContains, maps, hc]
    | false =>
      rw [maps_inbound hc, Bool.eq_iff_iff, Dict.lookup_isSome_iff]
      simp [TokenManager.inboundContains, hc]
  · rw [Dict.ncard_of_listing (S := {c | (m.maps.inbound c).isSome}) m.nodup_inboundKeyList
      m.mem_inboundKeyList_iff]
    simp [TokenManager.inboundCount, inboundKeyList, List.countP_eq_length_filter]

end TokenManager

/-! ## Runs of the store -/

/-- A store under any sequence of calls, rehashed at will after each one. -/
def tokenStore : TransitionSystem TokenManager (TokenOp × Option Bool) where
  init m := m = TokenManager.empty
  step m call m' := (m.apply call.1).1 = call.2 ∧ (m.apply call.1).2.tokens.Reordered m'.tokens

theorem tokenStore_step_maps {m m' : TokenManager} {call : TokenOp × Option Bool}
    (h : tokenStore.step m call m') : (call.2, m'.maps) = m.maps.apply call.1 := by
  obtain ⟨hret, hre⟩ := h
  rw [← m.maps_apply, hret, TokenManager.maps_congr hre]

theorem tokenStore_run_maps {m₀ m : TokenManager} {calls : List (TokenOp × Option Bool)}
    (h : tokenStore.Run m₀ calls m) : m.maps = m₀.maps.run (calls.map Prod.fst) := by
  induction h with
  | nil => rfl
  | snoc _ hs ih =>
    rw [List.map_append, List.map_cons, List.map_nil, TokenMaps.run_concat, ← ih,
      ← tokenStore_step_maps hs]

/-- **The store refines two independent maps.** After any sequence of calls, from any
store, the outbound readers read the outbound map and the inbound readers the inbound
map; and the next call returns what it returns on the maps and, `clearAllTokens` apart,
leaves the other map unchanged. -/
theorem tokenStore_refines_maps {m₀ m : TokenManager} {calls : List (TokenOp × Option Bool)}
    (h : tokenStore.Run m₀ calls m) :
    m.Reads (m₀.maps.run (calls.map Prod.fst)) ∧
      ∀ op ret m', tokenStore.step m (op, ret) m' →
        (ret, m'.maps) = (m₀.maps.run (calls.map Prod.fst)).apply op ∧
        (op.isOutbound = true → m'.maps.inbound = m.maps.inbound) ∧
        (∀ caller token, op = .saveInboundToken caller token →
          m'.maps.outbound = m.maps.outbound) := by
  have hmaps := tokenStore_run_maps h
  refine ⟨hmaps ▸ m.reads_maps, fun op ret m' hs => ?_⟩
  have hstep := tokenStore_step_maps hs
  have hm' : m'.maps = (m.maps.apply op).2 := congrArg Prod.snd hstep
  refine ⟨hmaps ▸ hstep, fun hop => ?_, ?_⟩
  · rw [hm', TokenMaps.apply_inbound hop]
  · rintro caller token rfl
    rw [hm', TokenMaps.apply_outbound]

/-- A caller filed in a fresh store is listed as a caller and is not a peer. -/
theorem tokenStore_refines_maps_inbound :
    ∃ m : TokenManager, tokenStore.Run .empty
        [(.saveInboundToken (qstr "chat") (qstr "t"), some true)] m ∧
      m.inboundKeyList = [qstr "chat"] ∧ m.Reads
        (TokenManager.empty.maps.run [.saveInboundToken (qstr "chat") (qstr "t")]) := by
  have hrun : tokenStore.Run .empty [(.saveInboundToken (qstr "chat") (qstr "t"), some true)]
      (TokenManager.empty.saveInboundToken (qstr "chat") (qstr "t")).2 :=
    .snoc (.nil _) ⟨rfl, Dict.Reordered.refl _⟩
  exact ⟨_, hrun, by decide, (tokenStore_refines_maps hrun).1⟩

end LogosProtocol
