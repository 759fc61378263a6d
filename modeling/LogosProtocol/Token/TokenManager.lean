import LogosProtocol.Qt

/-!
# The token store

`TokenManager` keeps the tokens this identity presents (outbound) and the tokens it
issued to its callers (inbound) in one hash.  An inbound entry is filed under
`inboundKey caller`, which starts with a character that no public door accepts in a
key; the structure carries that fact, so every reachable store has it.

Signals and locking are left out: each operation is one critical section.

## Main definitions

* `TokenManager` — the hash, with the namespace invariant.
* `TokenManager.saveToken`, `removeToken`, `adoptCredential`, `saveInboundToken`,
  `clearAllTokens` — the writers.
* `TokenManager.getToken`, `hasToken`, `getTokenKeys`, `tokenCount` — the outbound
  readers.
* `TokenManager.inboundValue`, `inboundKeyList`, `inboundContains`, `inboundCount` — the
  inbound readers, behind `InboundView`.
* `TokenManager.credential` — this store's own host-issued credential.
-/

namespace LogosProtocol

/-- The character that marks a key of the inbound namespace. -/
def namespaceChar : QChar := 1

/-- A key that carries the namespace character, anywhere. -/
def isReservedKey (key : QString) : Bool := key.contains namespaceChar

/-- The key an inbound entry is filed under. -/
def inboundKey (caller : QString) : QString :=
  [namespaceChar] ++ qstr "in" ++ [namespaceChar] ++ caller

/-- The keys an identity's own credential is installed under. -/
def bootstrapKeys : List QString := [qstr "core", qstr "capability_module"]

@[simp] theorem isReservedKey_inboundKey (c : QString) : isReservedKey (inboundKey c) = true := by
  simp [isReservedKey, inboundKey]

theorem not_reserved_of_mem_bootstrapKeys {k : QString} (h : k ∈ bootstrapKeys) :
    isReservedKey k = false := by
  revert k
  decide

theorem inboundKey_injective : Function.Injective inboundKey := fun _ _ h => by
  simpa [inboundKey] using h

/-- Stripping the fixed-width prefix gives back the caller. -/
@[simp] theorem drop_inboundKey (c : QString) :
    (inboundKey c).drop (inboundKey []).length = c := by
  simp [inboundKey]

theorem ne_inboundKey {k : QString} (h : isReservedKey k = false) (c : QString) :
    k ≠ inboundKey c := by
  rintro rfl
  simp at h

/-- One hash, two key namespaces: a key with the namespace character is the inbound
key of a caller whose name does not carry it. -/
structure TokenManager where
  /-- Every token this store holds. -/
  tokens : QHash QString QString
  reserved_inbound : ∀ k ∈ tokens, isReservedKey k = true →
    ∃ c, isReservedKey c = false ∧ k = inboundKey c

namespace TokenManager

/-- A store is created empty. -/
def empty : TokenManager := ⟨∅, by simp⟩

/-! ## Outbound writers -/

/-- File `token` under `key`; a reserved key is refused. -/
def saveToken (m : TokenManager) (key token : QString) : TokenManager :=
  if h : isReservedKey key = true then m
  else
    { tokens := m.tokens.insert key token
      reserved_inbound := by
        intro k hk hr
        rcases (AList.mem_insert _).mp hk with rfl | hk
        · exact absurd hr h
        · exact m.reserved_inbound k hk hr }

/-- Drop the entry under `key`, and say whether there was one. -/
def removeToken (m : TokenManager) (key : QString) : Bool × TokenManager :=
  if isReservedKey key then (false, m)
  else if key ∈ m.tokens then
    (true,
      { tokens := m.tokens.erase key
        reserved_inbound := fun k hk => m.reserved_inbound k (AList.mem_erase.mp hk).2 })
  else (false, m)

/-- Install one credential under every bootstrap key; an empty one is ignored. -/
def adoptCredential (m : TokenManager) (credential : QString) : TokenManager :=
  if credential.isEmpty then m
  else bootstrapKeys.foldl (fun m key => m.saveToken key credential) m

/-- Drop both namespaces. -/
def clearAllTokens (_ : TokenManager) : TokenManager := empty

/-! ## Outbound readers -/

def getToken (m : TokenManager) (key : QString) : QString :=
  if isReservedKey key then [] else (m.tokens.lookup key).getD []

def hasToken (m : TokenManager) (key : QString) : Bool :=
  if isReservedKey key then false else decide (key ∈ m.tokens)

/-- The outbound keys, in iteration order. -/
def getTokenKeys (m : TokenManager) : List QString :=
  m.tokens.keys.filter fun k => !isReservedKey k

def tokenCount (m : TokenManager) : ℕ :=
  m.tokens.keys.countP fun k => !isReservedKey k

/-! ## The inbound half -/

/-- Record that `caller` may present `token`.  An empty name or token, and a name that
carries the namespace character, are refused. -/
def saveInboundToken (m : TokenManager) (caller token : QString) : Bool × TokenManager :=
  if caller.isEmpty || token.isEmpty then (false, m)
  else if h : isReservedKey caller = true then (false, m)
  else
    (true,
      { tokens := m.tokens.insert (inboundKey caller) token
        reserved_inbound := by
          intro k hk hr
          rcases (AList.mem_insert _).mp hk with rfl | hk
          · exact ⟨caller, by simpa using h, rfl⟩
          · exact m.reserved_inbound k hk hr })

def inboundValue (m : TokenManager) (caller : QString) : QString :=
  if isReservedKey caller then [] else (m.tokens.lookup (inboundKey caller)).getD []

/-- The callers with an inbound entry, in iteration order: the reserved keys, each
stripped of a prefix of fixed width. -/
def inboundKeyList (m : TokenManager) : List QString :=
  (m.tokens.keys.filter isReservedKey).map fun k => k.drop (inboundKey []).length

def inboundContains (m : TokenManager) (caller : QString) : Bool :=
  if isReservedKey caller then false else decide (inboundKey caller ∈ m.tokens)

def inboundCount (m : TokenManager) : ℕ := m.tokens.keys.countP isReservedKey

/-! ## The credential -/

/-- The value under the first bootstrap key that holds a non-empty one. -/
def credential (m : TokenManager) : QString :=
  ((bootstrapKeys.map fun key => (m.tokens.lookup key).getD []).find?
    fun value => !value.isEmpty).getD []

/-! ## What each operation does to the hash -/

theorem tokens_saveToken_of_reserved {key : QString} (h : isReservedKey key = true)
    (m : TokenManager) (token : QString) : m.saveToken key token = m := by
  simp [saveToken, h]

theorem tokens_saveToken {key : QString} (h : isReservedKey key = false) (m : TokenManager)
    (token : QString) : (m.saveToken key token).tokens = m.tokens.insert key token := by
  simp [saveToken, h]

theorem tokens_removeToken {key : QString} (h : isReservedKey key = false) (m : TokenManager) :
    (m.removeToken key).2.tokens = m.tokens.erase key := by
  by_cases hm : key ∈ m.tokens
  · simp [removeToken, h, hm]
  · have he : m.tokens.erase key = m.tokens := by
      apply AList.ext
      exact List.kerase_of_notMem_keys hm
    simp [removeToken, h, hm, he]

theorem tokens_saveInboundToken {caller token : QString} (hc : caller ≠ []) (ht : token ≠ [])
    (hr : isReservedKey caller = false) (m : TokenManager) :
    (m.saveInboundToken caller token).2.tokens = m.tokens.insert (inboundKey caller) token := by
  simp [saveInboundToken, hc, ht, hr]

/-- The reserved keys of a store are exactly the inbound keys of its callers. -/
theorem mem_inboundKeyList {m : TokenManager} {c : QString} :
    c ∈ m.inboundKeyList ↔ isReservedKey c = false ∧ inboundKey c ∈ m.tokens := by
  simp only [inboundKeyList, List.mem_map, List.mem_filter, AList.mem_keys]
  constructor
  · rintro ⟨k, ⟨hk, hr⟩, rfl⟩
    obtain ⟨c, hc, rfl⟩ := m.reserved_inbound k hk hr
    simpa [hc] using hk
  · rintro ⟨-, hk⟩
    exact ⟨inboundKey c, ⟨hk, isReservedKey_inboundKey c⟩, drop_inboundKey c⟩

/-- The strip is injective on the reserved keys, so no caller is listed twice. -/
theorem nodup_inboundKeyList (m : TokenManager) : m.inboundKeyList.Nodup := by
  refine List.Nodup.map_on ?_ (m.tokens.keys_nodup.filter _)
  intro x hx y hy hxy
  obtain ⟨hx, hxr⟩ := List.mem_filter.mp hx
  obtain ⟨hy, hyr⟩ := List.mem_filter.mp hy
  obtain ⟨c, -, rfl⟩ := m.reserved_inbound x hx hxr
  obtain ⟨d, -, rfl⟩ := m.reserved_inbound y hy hyr
  exact congrArg inboundKey (by simpa using hxy)

end TokenManager

end LogosProtocol
