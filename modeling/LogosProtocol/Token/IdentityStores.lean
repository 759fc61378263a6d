import LogosProtocol.Token.TwoMaps

/-!
# One store for each identity

`TokenManager::forIdentity` answers `instance()` until a host isolates a name; from then on the
name has a store of its own, which is created empty when it is first asked for.  The registry
remembers the names it answered with `instance()`, so that such a name is never isolated later.

A store is its address, and `new` gives an address that was not given before.  The registry's
three sets carry their invariant, so every registry has it.

## Main definitions

* `StoreRegistry` — the isolated names, the names vended shared, and the table of stores.
* `TokenStores` — a registry and what the stores hold.
* `TokenStores.forIdentity`, `isolateIdentity`, `adoptCredentialFor`, `resetIdentity`,
  `identitiesSharingHostAnchor` — the static members of `TokenManager`.
* `identityStores` — any sequence of their calls, and of calls on the stores themselves.
-/

namespace LogosProtocol

abbrev QSet (K : Type) := QHash K Unit

/-- The address of `instance()`.  A store is known by its address. -/
def instanceAddr : ℕ := 0

/-- A name is isolated or was vended shared, never both; each isolated name that was asked for
has a store, which is not `instance()` and not that of another name. -/
structure StoreRegistry where
  isolated : QSet QString
  vendedShared : QSet QString
  stores : QHash QString ℕ
  /-- What `new` returns next. -/
  nextAddr : ℕ
  named : [] ∉ isolated
  disjoint : ∀ n ∈ isolated, n ∉ vendedShared
  stores_isolated : ∀ n ∈ stores, n ∈ isolated
  fresh : instanceAddr < nextAddr
  allocated : ∀ n a, stores.lookup n = some a → instanceAddr < a ∧ a < nextAddr
  distinct : ∀ n m a, stores.lookup n = some a → stores.lookup m = some a → n = m

namespace StoreRegistry

def empty : StoreRegistry where
  isolated := ∅
  vendedShared := ∅
  stores := ∅
  nextAddr := 1
  named := by simp
  disjoint := by simp
  stores_isolated := by simp
  fresh := by decide
  allocated := by simp
  distinct := by simp

/-- The empty name is never isolated. -/
theorem not_isolated (r : StoreRegistry) {identity : QString}
    (h : identity = [] ∨ identity ∉ r.isolated) : identity ∉ r.isolated := by
  rcases h with rfl | h
  · exact r.named
  · exact h

/-- Record that `instance()` was handed out under a name. -/
def vendShared (r : StoreRegistry) (identity : QString) (h : identity ∉ r.isolated) :
    StoreRegistry :=
  { r with
    vendedShared := r.vendedShared.insert identity ()
    disjoint := by
      intro n hn hv
      rcases (AList.mem_insert _).mp hv with rfl | hv
      · exact h hn
      · exact r.disjoint n hn hv }

def isolate (r : StoreRegistry) (identity : QString) (hne : identity ≠ [])
    (h : identity ∉ r.vendedShared) : StoreRegistry :=
  { r with
    isolated := r.isolated.insert identity ()
    named := by
      intro hmem
      rcases (AList.mem_insert _).mp hmem with heq | hmem
      · exact hne heq.symm
      · exact r.named hmem
    disjoint := by
      intro n hn
      rcases (AList.mem_insert _).mp hn with rfl | hn
      · exact h
      · exact r.disjoint n hn
    stores_isolated := fun n hn => (AList.mem_insert _).mpr (.inr (r.stores_isolated n hn)) }

/-- Give an isolated name a new store. -/
def allocate (r : StoreRegistry) (identity : QString) (h : identity ∈ r.isolated) :
    StoreRegistry :=
  { r with
    stores := r.stores.insert identity r.nextAddr
    nextAddr := r.nextAddr + 1
    stores_isolated := by
      intro n hn
      rcases (AList.mem_insert _).mp hn with rfl | hn
      · exact h
      · exact r.stores_isolated n hn
    fresh := Nat.lt_succ_of_lt r.fresh
    allocated := by
      intro n a ha
      by_cases hn : n = identity
      · rw [hn, AList.lookup_insert, Option.some.injEq] at ha
        have := r.fresh
        omega
      · rw [AList.lookup_insert_ne hn] at ha
        have := r.allocated n a ha
        omega
    distinct := by
      intro n m a hn hm
      by_cases hni : n = identity <;> by_cases hmi : m = identity
      · rw [hni, hmi]
      · rw [hni, AList.lookup_insert, Option.some.injEq] at hn
        rw [AList.lookup_insert_ne hmi] at hm
        have := r.allocated m a hm
        omega
      · rw [AList.lookup_insert_ne hni] at hn
        rw [hmi, AList.lookup_insert, Option.some.injEq] at hm
        have := r.allocated n a hn
        omega
      · rw [AList.lookup_insert_ne hni] at hn
        rw [AList.lookup_insert_ne hmi] at hm
        exact r.distinct n m a hn hm }

/-- What was isolated, vended or allocated stays so. -/
structure Extends (r r' : StoreRegistry) : Prop where
  isolated : ∀ n ∈ r.isolated, n ∈ r'.isolated
  vendedShared : ∀ n ∈ r.vendedShared, n ∈ r'.vendedShared
  stores : ∀ n a, r.stores.lookup n = some a → r'.stores.lookup n = some a

namespace Extends
variable {r r' r'' : StoreRegistry}

theorem refl (r : StoreRegistry) : r.Extends r := ⟨fun _ h => h, fun _ h => h, fun _ _ h => h⟩

theorem trans (h : r.Extends r') (h' : r'.Extends r'') : r.Extends r'' where
  isolated n hn := h'.isolated n (h.isolated n hn)
  vendedShared n hn := h'.vendedShared n (h.vendedShared n hn)
  stores n a ha := h'.stores n a (h.stores n a ha)

theorem vendShared (r : StoreRegistry) {identity : QString} (h : identity ∉ r.isolated) :
    r.Extends (r.vendShared identity h) where
  isolated _ hn := hn
  vendedShared _ hn := (AList.mem_insert _).mpr (.inr hn)
  stores _ _ ha := ha

theorem isolate (r : StoreRegistry) {identity : QString} (hne : identity ≠ [])
    (h : identity ∉ r.vendedShared) : r.Extends (r.isolate identity hne h) where
  isolated _ hn := (AList.mem_insert _).mpr (.inr hn)
  vendedShared _ hn := hn
  stores _ _ ha := ha

theorem allocate (r : StoreRegistry) {identity : QString} (h : identity ∈ r.isolated)
    (hnew : r.stores.lookup identity = none) : r.Extends (r.allocate identity h) where
  isolated _ hn := hn
  vendedShared _ hn := hn
  stores n a ha := by
    have hne : n ≠ identity := by
      rintro rfl
      rw [hnew] at ha
      cases ha
    exact (AList.lookup_insert_ne hne).trans ha

end Extends

end StoreRegistry

/-- The registry, and what each store holds. -/
structure TokenStores where
  registry : StoreRegistry
  contents : ℕ → TokenManager

namespace TokenStores

/-- `TokenManager::instance()`. -/
def hostStore (s : TokenStores) : TokenManager := s.contents instanceAddr

def modify (s : TokenStores) (store : ℕ) (f : TokenManager → TokenManager) : TokenStores :=
  { s with contents := Function.update s.contents store (f (s.contents store)) }

/-- The value is the host's credential. -/
def isHostAnchorValue (s : TokenStores) (value : QString) : Bool :=
  if value.isEmpty then false else s.hostStore.credential == value

def forIdentity (s : TokenStores) (identity : QString) : ℕ × TokenStores :=
  if h : identity = [] ∨ identity ∉ s.registry.isolated then
    (instanceAddr, { s with registry := s.registry.vendShared identity (s.registry.not_isolated h) })
  else
    match s.registry.stores.lookup identity with
    | some store => (store, s)
    | none =>
      -- Born empty.
      (s.registry.nextAddr,
        { registry := s.registry.allocate identity (not_not.mp (not_or.mp h).2)
          contents := Function.update s.contents s.registry.nextAddr .empty })

def isolateIdentity (s : TokenStores) (identity : QString) : Bool × TokenStores :=
  if hne : identity = [] then (false, s)
  else if identity ∈ s.registry.isolated then (true, s)
  else if h : identity ∈ s.registry.vendedShared then (false, s)
  else (true, { s with registry := s.registry.isolate identity hne h })

def isIsolated (s : TokenStores) (identity : QString) : Bool :=
  decide (identity ∈ s.registry.isolated)

def adoptCredentialFor (s : TokenStores) (identity credential : QString) : Bool × TokenStores :=
  if identity.isEmpty || credential.isEmpty then (false, s)
  else if !s.isIsolated identity then (false, s)
  else if s.isHostAnchorValue credential then (false, s)
  else
    let (store, s) := s.forIdentity identity
    if store = instanceAddr then (false, s)
    else (true, s.modify store fun m => m.adoptCredential credential)

/-- One pass of the loop: a name whose store holds the host's credential is listed. -/
def visitIdentity (acc : List QString × TokenStores) (name : QString) :
    List QString × TokenStores :=
  let (store, s) := acc.2.forIdentity name
  if store = instanceAddr then (acc.1, s)
  else if s.isHostAnchorValue (s.contents store).credential then (acc.1 ++ [name], s)
  else (acc.1, s)

/-- The names are those isolated when it is called. -/
def identitiesSharingHostAnchor (s : TokenStores) : List QString × TokenStores :=
  let (out, s) := s.registry.isolated.keys.foldl visitIdentity ([], s)
  (out.mergeSort fun a b => decide (a ≤ b), s)

def resetIdentity (s : TokenStores) (identity : QString) : Bool × TokenStores :=
  if !s.isIsolated identity then (false, s)
  else
    let (store, s) := s.forIdentity identity
    if store = instanceAddr then (false, s)
    else (true, s.modify store TokenManager.clearAllTokens)

/-! ## What `forIdentity` does -/

variable (s : TokenStores) {n : QString}

theorem forIdentity_shared (h : n ∉ s.registry.isolated) :
    s.forIdentity n = (instanceAddr, { s with registry := s.registry.vendShared n h }) := by
  simp [forIdentity, h]

/-- An isolated name has a store of its own from now on. -/
theorem forIdentity_isolated (h : n ∈ s.registry.isolated) :
    instanceAddr < (s.forIdentity n).1 ∧
      (s.forIdentity n).2.registry.stores.lookup n = some (s.forIdentity n).1 := by
  have hne : n ≠ [] := fun heq => s.registry.named (heq ▸ h)
  cases hl : s.registry.stores.lookup n with
  | some store =>
    have heq : s.forIdentity n = (store, s) := by simp [forIdentity, h, hne, hl]
    rw [heq]
    exact ⟨(s.registry.allocated n store hl).1, hl⟩
  | none =>
    simp only [forIdentity, h, hne, hl, not_true_eq_false, or_self, dite_false]
    exact ⟨s.registry.fresh, AList.lookup_insert _⟩

theorem extends_forIdentity (n : QString) :
    s.registry.Extends (s.forIdentity n).2.registry := by
  unfold forIdentity
  split
  · exact .vendShared _ (s.registry.not_isolated ‹_›)
  split
  · exact .refl _
  · rename_i hl
    exact .allocate _ (not_not.mp (not_or.mp ‹_›).2) hl

theorem isolated_forIdentity (n : QString) :
    (s.forIdentity n).2.registry.isolated = s.registry.isolated := by
  unfold forIdentity
  split
  · rfl
  split <;> rfl

/-- Only a store that did not exist is written. -/
theorem contents_forIdentity (n : QString) {a : ℕ} (ha : a < s.registry.nextAddr) :
    (s.forIdentity n).2.contents a = s.contents a := by
  unfold forIdentity
  split
  · rfl
  split
  · rfl
  · exact Function.update_of_ne ha.ne ..

theorem hostStore_forIdentity (n : QString) : (s.forIdentity n).2.hostStore = s.hostStore :=
  s.contents_forIdentity n s.registry.fresh

/-- A call of `adoptCredentialFor` is refused and changes nothing, or it is granted to an
isolated name. -/
theorem adoptCredentialFor_cases (n c : QString) :
    s.adoptCredentialFor n c = (false, s) ∧
        (n ∉ s.registry.isolated ∨ c = [] ∨ s.hostStore.credential = c) ∨
      s.adoptCredentialFor n c =
          (true, (s.forIdentity n).2.modify (s.forIdentity n).1 fun m => m.adoptCredential c) ∧
        n ∈ s.registry.isolated ∧ c ≠ [] ∧ s.hostStore.credential ≠ c := by
  by_cases hn : n ∈ s.registry.isolated
  · have hne : n ≠ [] := fun heq => s.registry.named (heq ▸ hn)
    by_cases hc : c = []
    · exact .inl ⟨by simp [adoptCredentialFor, hc], .inr (.inl hc)⟩
    by_cases hanchor : s.hostStore.credential = c
    · refine .inl ⟨?_, .inr (.inr hanchor)⟩
      simp [adoptCredentialFor, isIsolated, isHostAnchorValue, hn, hne, hc, hanchor]
    · refine .inr ⟨?_, hn, hc, hanchor⟩
      have hstore := (s.forIdentity_isolated hn).1.ne'
      simp [adoptCredentialFor, isIsolated, isHostAnchorValue, hn, hne, hc, hanchor, hstore]
  · refine .inl ⟨?_, .inl hn⟩
    simp [adoptCredentialFor, isIsolated, hn]

theorem resetIdentity_cases (n : QString) :
    s.resetIdentity n = (false, s) ∧ n ∉ s.registry.isolated ∨
      s.resetIdentity n = (true,
          (s.forIdentity n).2.modify (s.forIdentity n).1 TokenManager.clearAllTokens) ∧
        n ∈ s.registry.isolated := by
  by_cases hn : n ∈ s.registry.isolated
  · refine .inr ⟨?_, hn⟩
    have hstore := (s.forIdentity_isolated hn).1.ne'
    simp [resetIdentity, isIsolated, hn, hstore]
  · exact .inl ⟨by simp [resetIdentity, isIsolated, hn], hn⟩

/-- A call of `isolateIdentity` changes nothing, or it isolates a name that was not vended. -/
theorem isolateIdentity_cases (n : QString) :
    (∃ b, s.isolateIdentity n = (b, s)) ∨
      ∃ hne hv, s.isolateIdentity n = (true, { s with registry := s.registry.isolate n hne hv }) := by
  unfold isolateIdentity
  split_ifs with hne hi hv
  · exact .inl ⟨false, rfl⟩
  · exact .inl ⟨true, rfl⟩
  · exact .inl ⟨false, rfl⟩
  · exact .inr ⟨hne, hv, rfl⟩

end TokenStores

/-- An image whose registry is empty and whose `instance()` holds nothing. -/
def TokenStores.fresh : TokenStores := ⟨.empty, fun _ => .empty⟩

/-! ## Runs of the registry -/

/-- A call of a static member, or of a member of a store. -/
inductive IdentityOp
  | forIdentity (identity : QString)
  | isolateIdentity (identity : QString)
  | isIsolated (identity : QString)
  | adoptCredentialFor (identity credential : QString)
  | resetIdentity (identity : QString)
  | identitiesSharingHostAnchor
  | onStore (store : ℕ) (op : TokenOp)

inductive IdentityAnswer
  | store (store : ℕ)
  | bool (b : Bool)
  | names (names : List QString)
  | token (ret : Option Bool)

namespace TokenStores

def apply (s : TokenStores) : IdentityOp → IdentityAnswer × TokenStores
  | .forIdentity identity => (s.forIdentity identity).map .store id
  | .isolateIdentity identity => (s.isolateIdentity identity).map .bool id
  | .isIsolated identity => (.bool (s.isIsolated identity), s)
  | .adoptCredentialFor identity credential =>
    (s.adoptCredentialFor identity credential).map .bool id
  | .resetIdentity identity => (s.resetIdentity identity).map .bool id
  | .identitiesSharingHostAnchor => s.identitiesSharingHostAnchor.map .names id
  | .onStore store op =>
    let r := (s.contents store).apply op
    (.token r.1, s.modify store fun _ => r.2)

end TokenStores

/-- An image's stores under any sequence of calls; `instance()` may hold anything at first. -/
def identityStores : TransitionSystem TokenStores (IdentityOp × IdentityAnswer) where
  init s := s.registry = StoreRegistry.empty
  step s call s' := s.apply call.1 = (call.2, s')

namespace StoreRegistry

/-- `forIdentity n` has answered `store`. -/
def Vended (r : StoreRegistry) (n : QString) (store : ℕ) : Prop :=
  store = instanceAddr ∧ n ∈ r.vendedShared ∨ r.stores.lookup n = some store

namespace Vended
variable {r r' : StoreRegistry} {n m : QString} {a b : ℕ}

theorem mono (h : r.Vended n a) (he : r.Extends r') : r'.Vended n a := by
  rcases h with ⟨ha, hn⟩ | ha
  · exact .inl ⟨ha, he.vendedShared n hn⟩
  · exact .inr (he.stores n a ha)

theorem eq_instanceAddr_iff (h : r.Vended n a) : a = instanceAddr ↔ n ∉ r.isolated := by
  rcases h with ⟨ha, hn⟩ | ha
  · have hni : n ∉ r.isolated := fun hi => r.disjoint n hi hn
    simp [ha, hni]
  · have hni : n ∈ r.isolated :=
      r.stores_isolated n (Dict.lookup_isSome_iff.mp (Option.isSome_of_eq_some ha))
    have hne : a ≠ instanceAddr := (r.allocated n a ha).1.ne'
    simp [hne, hni]

/-- A name keeps its store. -/
theorem unique (ha : r.Vended n a) (hb : r.Vended n b) : a = b := by
  by_cases hi : n ∈ r.isolated
  · rcases ha with ⟨-, hn⟩ | ha
    · exact absurd hn (r.disjoint n hi)
    rcases hb with ⟨-, hn⟩ | hb
    · exact absurd hn (r.disjoint n hi)
    exact Option.some.inj (ha.symm.trans hb)
  · rw [ha.eq_instanceAddr_iff.mpr hi, hb.eq_instanceAddr_iff.mpr hi]

/-- Two isolated names do not share a store. -/
theorem ne (hnm : n ≠ m) (hn : n ∈ r.isolated) (hm : m ∈ r.isolated) (ha : r.Vended n a)
    (hb : r.Vended m b) : a ≠ b := by
  rcases ha with ⟨-, hv⟩ | ha
  · exact absurd hv (r.disjoint n hn)
  rcases hb with ⟨-, hv⟩ | hb
  · exact absurd hv (r.disjoint m hm)
  rintro rfl
  exact hnm (r.distinct n m a ha hb)

end Vended

end StoreRegistry

namespace TokenStores
variable (s : TokenStores)

theorem vended_forIdentity (n : QString) :
    (s.forIdentity n).2.registry.Vended n (s.forIdentity n).1 := by
  by_cases h : n ∈ s.registry.isolated
  · exact .inr (s.forIdentity_isolated h).2
  · rw [s.forIdentity_shared h]
    exact .inl ⟨rfl, (AList.mem_insert _).mpr (.inl rfl)⟩

theorem extends_visitIdentity (acc : List QString × TokenStores) (name : QString) :
    acc.2.registry.Extends (visitIdentity acc name).2.registry := by
  have hvend := acc.2.extends_forIdentity name
  simp only [visitIdentity]
  split_ifs <;> exact hvend

theorem extends_foldl_visitIdentity (names : List QString) (acc : List QString × TokenStores) :
    acc.2.registry.Extends (names.foldl visitIdentity acc).2.registry := by
  induction names generalizing acc with
  | nil => exact .refl _
  | cons name names ih => exact (extends_visitIdentity acc name).trans (ih _)

/-- No call takes back what the registry has said. -/
theorem extends_apply (op : IdentityOp) : s.registry.Extends (s.apply op).2.registry := by
  cases op with
  | forIdentity n => exact s.extends_forIdentity n
  | isolateIdentity n =>
    rcases s.isolateIdentity_cases n with ⟨b, heq⟩ | ⟨hne, hv, heq⟩
    · simp only [apply, heq]
      exact .refl _
    · simp only [apply, heq]
      exact .isolate _ hne hv
  | isIsolated n => exact .refl _
  | adoptCredentialFor n c =>
    rcases s.adoptCredentialFor_cases n c with ⟨heq, -⟩ | ⟨heq, -⟩
    · simp only [apply, heq]
      exact .refl _
    · simp only [apply, heq]
      exact s.extends_forIdentity n
  | resetIdentity n =>
    rcases s.resetIdentity_cases n with ⟨heq, -⟩ | ⟨heq, -⟩
    · simp only [apply, heq]
      exact .refl _
    · simp only [apply, heq]
      exact s.extends_forIdentity n
  | identitiesSharingHostAnchor => exact extends_foldl_visitIdentity _ ([], s)
  | onStore store op => exact .refl _

/-- Writing to the store of one isolated name touches no store of another, nor `instance()`. -/
theorem contents_modify_forIdentity {n : QString} (hn : n ∈ s.registry.isolated)
    (f : TokenManager → TokenManager) :
    ((s.forIdentity n).2.modify (s.forIdentity n).1 f).hostStore = s.hostStore ∧
      ∀ m a, m ≠ n → s.registry.stores.lookup m = some a →
        ((s.forIdentity n).2.modify (s.forIdentity n).1 f).contents a = s.contents a := by
  obtain ⟨hprivate, hstore⟩ := s.forIdentity_isolated hn
  refine ⟨?_, fun m a hm ha => ?_⟩
  · rw [← s.hostStore_forIdentity n]
    exact Function.update_of_ne hprivate.ne _ _
  · have hne : a ≠ (s.forIdentity n).1 := by
      rintro rfl
      exact hm ((s.forIdentity n).2.registry.distinct m n _
        ((s.extends_forIdentity n).stores m _ ha) hstore)
    rw [← s.contents_forIdentity n (s.registry.allocated m a ha).2]
    exact Function.update_of_ne hne _ _

end TokenStores

theorem identityStores_vended {s₀ s : TokenStores} {calls : List (IdentityOp × IdentityAnswer)}
    (h : identityStores.Run s₀ calls s) {n : QString} {a : ℕ}
    (hmem : (.forIdentity n, .store a) ∈ calls) : s.registry.Vended n a := by
  induction h with
  | nil => cases hmem
  | @snoc t u as call _ hs ih =>
    have hu : u = (t.apply call.1).2 := congrArg Prod.snd hs.symm
    rw [hu]
    rcases List.mem_append.mp hmem with hmem | hmem
    · exact (ih hmem).mono (t.extends_apply call.1)
    · obtain rfl := List.mem_singleton.mp hmem
      obtain rfl : (t.forIdentity n).1 = a := by simpa [TokenStores.apply] using congrArg Prod.fst hs
      exact t.vended_forIdentity n

/-- **One store for each identity.** After any sequence of calls no name is both isolated and
vended shared; all `forIdentity` calls for a name have answered one store, which is `instance()`
iff the name is not isolated, and distinct isolated names have distinct stores.  The next call,
if it is of `adoptCredentialFor` or `resetIdentity`, leaves `instance()` and the stores of other
names alone; and if it is one of these or of `isolateIdentity` and answers false, it changes
nothing at all. -/
theorem identityStores_registry {s₀ s : TokenStores}
    {calls : List (IdentityOp × IdentityAnswer)} (h : identityStores.Run s₀ calls s) :
    (∀ n ∈ s.registry.isolated, n ∉ s.registry.vendedShared) ∧
    (∀ n a, (.forIdentity n, .store a) ∈ calls → (a = instanceAddr ↔ n ∉ s.registry.isolated) ∧
      ∀ b, (.forIdentity n, .store b) ∈ calls → b = a) ∧
    (∀ n m a b, n ≠ m → n ∈ s.registry.isolated → m ∈ s.registry.isolated →
      (.forIdentity n, .store a) ∈ calls → (.forIdentity m, .store b) ∈ calls → a ≠ b) ∧
    ∀ op answer s', identityStores.step s (op, answer) s' →
      (∀ n, (∃ c, op = .adoptCredentialFor n c) ∨ op = .resetIdentity n →
        s'.hostStore = s.hostStore ∧
          ∀ m a, m ≠ n → s.registry.stores.lookup m = some a → s'.contents a = s.contents a) ∧
      (answer = .bool false →
        (∃ n c, op = .adoptCredentialFor n c) ∨ (∃ n, op = .isolateIdentity n) ∨
          (∃ n, op = .resetIdentity n) → s' = s) := by
  refine ⟨s.registry.disjoint, fun n a ha => ?_, fun n m a b hnm hn hm ha hb => ?_, ?_⟩
  · have hvended := identityStores_vended h ha
    exact ⟨hvended.eq_instanceAddr_iff, fun b hb => (identityStores_vended h hb).unique hvended⟩
  · have hvended := identityStores_vended h ha
    exact hvended.ne hnm hn hm (identityStores_vended h hb)
  intro op answer s' hstep
  have happly : s.apply op = (answer, s') := hstep
  refine ⟨fun n hop => ?_, fun hfalse hop => ?_⟩
  · rcases hop with ⟨c, rfl⟩ | rfl
    · rcases s.adoptCredentialFor_cases n c with ⟨heq, -⟩ | ⟨heq, hn, -⟩
      · obtain ⟨-, rfl⟩ : _ ∧ s = s' := by simpa [TokenStores.apply, heq] using happly
        exact ⟨rfl, fun _ _ _ _ => rfl⟩
      · obtain ⟨-, rfl⟩ : _ ∧ _ = s' := by simpa [TokenStores.apply, heq] using happly
        exact s.contents_modify_forIdentity hn _
    · rcases s.resetIdentity_cases n with ⟨heq, -⟩ | ⟨heq, hn⟩
      · obtain ⟨-, rfl⟩ : _ ∧ s = s' := by simpa [TokenStores.apply, heq] using happly
        exact ⟨rfl, fun _ _ _ _ => rfl⟩
      · obtain ⟨-, rfl⟩ : _ ∧ _ = s' := by simpa [TokenStores.apply, heq] using happly
        exact s.contents_modify_forIdentity hn _
  · subst hfalse
    rcases hop with ⟨n, c, rfl⟩ | ⟨n, rfl⟩ | ⟨n, rfl⟩
    · rcases s.adoptCredentialFor_cases n c with ⟨heq, -⟩ | ⟨heq, -⟩
      · simpa [TokenStores.apply, heq, eq_comm] using happly
      · simp [TokenStores.apply, heq] at happly
    · rcases s.isolateIdentity_cases n with ⟨b, heq⟩ | ⟨hne, hv, heq⟩
      · have hboth : b = false ∧ s = s' := by simpa [TokenStores.apply, heq] using happly
        exact hboth.2.symm
      · simp [TokenStores.apply, heq] at happly
    · rcases s.resetIdentity_cases n with ⟨heq, -⟩ | ⟨heq, -⟩
      · simpa [TokenStores.apply, heq, eq_comm] using happly
      · simp [TokenStores.apply, heq] at happly

/-- A view that is isolated first has a store of its own, and a refusal changes nothing. -/
theorem identityStores_registry_isolated :
    ∃ s, identityStores.Run .fresh
        [(.isolateIdentity (qstr "view"), .bool true), (.forIdentity (qstr "view"), .store 1)] s ∧
      qstr "view" ∉ s.registry.vendedShared ∧
      (1 = instanceAddr ↔ qstr "view" ∉ s.registry.isolated) ∧
      ∀ s', identityStores.step s (.adoptCredentialFor (qstr "ui") (qstr "c"), .bool false) s' →
        s' = s := by
  let t := (TokenStores.fresh.isolateIdentity (qstr "view")).2
  have hisolate : identityStores.Run .fresh [(.isolateIdentity (qstr "view"), .bool true)] t :=
    .snoc (.nil _) rfl
  have hforIdentity : identityStores.step t (.forIdentity (qstr "view"), .store 1)
      (t.forIdentity (qstr "view")).2 := rfl
  have hrun := hisolate.snoc hforIdentity
  obtain ⟨hdisjoint, hstore, -, hstep⟩ := identityStores_registry hrun
  have hview : qstr "view" ∈ (t.forIdentity (qstr "view")).2.registry.isolated := by decide
  refine ⟨_, hrun, hdisjoint _ hview, (hstore _ 1 (by simp)).1, fun s' hs => ?_⟩
  exact (hstep _ _ s' hs).2 rfl (.inl ⟨_, _, rfl⟩)

end LogosProtocol
