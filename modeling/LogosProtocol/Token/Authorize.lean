import LogosProtocol.Token.ModuleProxy
import LogosProtocol.Token.TwoMaps

/-!
# What `authorize` decides

`Grants` is the information a verdict may depend on: who was issued what by this proxy,
what the store's inbound half holds, the credential and the validator.  `Grants.callerOf`
names the caller from that information alone, with no scan and no order.  `authorize` is
shown equal to it for every iteration order of the two hashes.
-/

namespace LogosProtocol

open QString (toUtf8)

/-- Everything a verdict may depend on. -/
structure Grants where
  /-- caller ↦ token, in the proxy's own record. -/
  proxyInbound : QString → Option QString
  /-- caller ↦ token, in the inbound half of the store. -/
  storeInbound : QString → Option QString
  credential : QString
  validator : Option (QString → QString → Bool)

namespace Grants
variable (g : Grants) (t : QString)

/-- The entry under `k` holds the token. -/
def Carries (m : QString → Option QString) (k : QString) : Prop :=
  ∃ v, m k = some v ∧ toUtf8 v = toUtf8 t

/-- The token is the credential. -/
def IsHost : Prop := toUtf8 t = toUtf8 g.credential

/-- The token equals one this identity issued, or its credential. -/
def Issued : Prop :=
  (∃ k, Carries t g.proxyInbound k) ∨ (∃ k, Carries t g.storeInbound k) ∨
    g.credential ≠ [] ∧ g.IsHost t

/-- The validator accepts the token for this transport. -/
def Validated (transport : QString) : Prop :=
  ∃ validator, g.validator = some validator ∧ validator t transport = true

/-- A key that may name a caller: not a role label, and short enough to recover. -/
def Nameable (k : QString) : Prop :=
  k ∉ bootstrapKeys ∧ 1 ≤ (toUtf8 k).length ∧ (toUtf8 k).length ≤ kCallerKeyMax

/-- The token is not the credential, and `n` is the one key that carries it. -/
def IsModule (n : QString) : Prop :=
  ¬ g.IsHost t ∧ (∀ k, Carries t g.proxyInbound k ↔ k = n) ∧ Nameable n

open Classical in
/-- The caller of an authorized call. -/
noncomputable def callerOf : CallerDocument :=
  if g.IsHost t then callerHostAnchorJson
  else if h : ∃ n, g.IsModule t n then callerModuleJson (toUtf8 h.choose)
  else callerUnknownJson

variable {g t}

theorem IsModule.unique {n n' : QString} (h : g.IsModule t n) (h' : g.IsModule t n') : n = n' :=
  (h'.2.1 n).mp ((h.2.1 n).mpr rfl)

theorem callerOf_host (h : g.IsHost t) : g.callerOf t = callerHostAnchorJson := by
  simp [callerOf, h]

theorem callerOf_module {n : QString} (h : g.IsModule t n) :
    g.callerOf t = callerModuleJson (toUtf8 n) := by
  have hex : ∃ n, g.IsModule t n := ⟨n, h⟩
  have hn : hex.choose = n := hex.choose_spec.unique h
  simp [callerOf, h.1, hex, hn]

theorem callerOf_unknown (hh : ¬ g.IsHost t) (hm : ¬ ∃ n, g.IsModule t n) :
    g.callerOf t = callerUnknownJson := by
  simp [callerOf, hh, hm]

theorem callerModuleJson_of_nameable {n : QString} (h : Nameable n) :
    callerModuleJson (toUtf8 n) = .module (toUtf8 n) := by
  have hne : toUtf8 n ≠ [] := List.ne_nil_of_length_pos h.2.1
  simp [callerModuleJson, hne]

theorem callerOf_eq_host_iff : g.callerOf t = callerHostAnchorJson ↔ g.IsHost t := by
  refine ⟨fun h => ?_, callerOf_host⟩
  by_contra hh
  by_cases hm : ∃ n, g.IsModule t n
  · obtain ⟨n, hn⟩ := hm
    rw [callerOf_module hn, callerModuleJson_of_nameable hn.2.2] at h
    simp [callerHostAnchorJson] at h
  · rw [callerOf_unknown hh hm] at h
    simp [callerHostAnchorJson, callerUnknownJson] at h

theorem callerOf_eq_module_iff {name : Bytes} :
    g.callerOf t = .module name ↔ ∃ n, g.IsModule t n ∧ toUtf8 n = name := by
  constructor
  · intro h
    by_cases hh : g.IsHost t
    · rw [callerOf_host hh] at h
      simp [callerHostAnchorJson] at h
    by_cases hm : ∃ n, g.IsModule t n
    · obtain ⟨n, hn⟩ := hm
      rw [callerOf_module hn, callerModuleJson_of_nameable hn.2.2] at h
      exact ⟨n, hn, by simpa using h⟩
    · rw [callerOf_unknown hh hm] at h
      simp [callerUnknownJson] at h
  · rintro ⟨n, hn, rfl⟩
    rw [callerOf_module hn, callerModuleJson_of_nameable hn.2.2]

end Grants

namespace ModuleProxy

/-- The grants a proxy and its store hold. -/
def grants (p : ModuleProxy) : Grants where
  proxyInbound := p.tokens.lookup
  storeInbound := p.store.maps.inbound
  credential := p.store.credential
  validator := p.validator

/-! ## The scan of the proxy's own record -/

/-- The keys under which a hash holds the token, in iteration order. -/
def carriers (t : QString) (d : QHash QString QString) : List QString :=
  (d.entries.filter fun e => constantTimeEquals t e.2).map Sigma.fst

theorem mem_carriers {t : QString} {d : QHash QString QString} {k : QString} :
    k ∈ carriers t d ↔ Grants.Carries t d.lookup k := by
  simp only [carriers, List.mem_map, List.mem_filter, constantTimeEquals_iff, Grants.Carries]
  constructor
  · rintro ⟨⟨k, v⟩, ⟨hmem, heq⟩, rfl⟩
    exact ⟨v, AList.mem_lookup_iff.mpr hmem, heq.symm⟩
  · rintro ⟨v, hv, heq⟩
    exact ⟨⟨k, v⟩, ⟨AList.mem_lookup_iff.mp hv, heq.symm⟩, rfl⟩

theorem nodup_carriers (t : QString) (d : QHash QString QString) : (carriers t d).Nodup :=
  d.keys_nodup.sublist (List.filter_sublist.map _)

/-- The fold after a list of matching keys: anchor names are masked out. -/
def foldCarriers (fold : CallerFold) (ks : List QString) : CallerFold :=
  ks.foldl (fun fold k => if k ∈ bootstrapKeys then fold else .taken (toUtf8 k)) fold

/-- **The loop invariant of the scan.** After any prefix of the entries the outcome is a
function of the keys that matched so far. -/
theorem foldl_visitProxyEntry (t : QString) (es : List (Sigma fun _ : QString => QString))
    (out : ScanOutcome) :
    es.foldl (fun out e => out.visitProxyEntry t e.1 e.2) out =
      { authorized := out.authorized || es.any fun e => constantTimeEquals t e.2
        moduleHits := out.moduleHits + (es.filter fun e => constantTimeEquals t e.2).length
        anchorHits := out.anchorHits
        fold := foldCarriers out.fold
          ((es.filter fun e => constantTimeEquals t e.2).map Sigma.fst)
        comparisons := out.comparisons + es.length } := by
  induction es generalizing out with
  | nil => cases out; simp [foldCarriers]
  | cons e es ih =>
    rw [List.foldl_cons, ih]
    cases hm : constantTimeEquals t e.2 with
    | false =>
      simp [ScanOutcome.visitProxyEntry, hm, Nat.add_assoc, Nat.add_comm 1]
    | true =>
      by_cases hb : e.1 ∈ bootstrapKeys
      · have hand : (1 : UInt32) &&& ~~~1 = 0 := by decide
        simp [ScanOutcome.visitProxyEntry, hm, hb, hand, foldCarriers, Nat.add_assoc,
          Nat.add_comm 1]
      · simp [ScanOutcome.visitProxyEntry, hm, hb, foldCarriers, CallerFold.offer_one,
          Nat.add_assoc, Nat.add_comm 1]

/-- The scan of the store's inbound record changes the verdict and the count only. -/
theorem foldl_visitInboundToken (t : QString) (m : TokenManager) (cs : List QString)
    (out : ScanOutcome) :
    cs.foldl (fun out c => out.visitInboundToken t (m.inboundValue c)) out =
      { out with
        authorized := out.authorized || cs.any fun c => constantTimeEquals t (m.inboundValue c)
        comparisons := out.comparisons + cs.length } := by
  induction cs generalizing out with
  | nil => cases out; simp
  | cons c cs ih =>
    rw [List.foldl_cons, ih]
    simp [ScanOutcome.visitInboundToken, Bool.or_assoc, Nat.add_assoc, Nat.add_comm 1]

theorem length_inboundKeyList (m : TokenManager) : m.inboundKeyList.length = m.inboundCount := by
  simp [TokenManager.inboundKeyList, TokenManager.inboundCount, List.countP_eq_length_filter]

/-- The outcome of the whole scan. -/
theorem scanIssuedTokens_eq (t : QString) (d : QHash QString QString) (m : TokenManager)
    (credential : QString) :
    scanIssuedTokens t d m credential =
      { authorized := (d.entries.any fun e => constantTimeEquals t e.2) ||
          (m.inboundKeyList.any fun c => constantTimeEquals t (m.inboundValue c)) ||
          (constantTimeEquals t credential && !credential.isEmpty)
        moduleHits := (carriers t d).length
        anchorHits := (constantTimeEquals t credential && !credential.isEmpty).toNat
        fold := foldCarriers .init (carriers t d)
        comparisons := d.entries.length + m.inboundCount + 1 } := by
  simp only [scanIssuedTokens, foldl_visitProxyEntry, foldl_visitInboundToken,
    ScanOutcome.visitCredential, length_inboundKeyList, carriers, List.length_map]
  simp

/-! ## The verdict -/

/-- A token that is not empty can only equal a credential that is not empty. -/
theorem credential_ne_nil {t credential : QString} (ht : t ≠ [])
    (h : toUtf8 t = toUtf8 credential) : credential ≠ [] := by
  rintro rfl
  rw [QString.toUtf8, QString.toUtf8_eq_nil_iff] at h
  exact ht h

theorem scan_authorized_iff (p : ModuleProxy) (t : QString) :
    (scanIssuedTokens t p.tokens p.store p.store.credential).authorized = true ↔
      p.grants.Issued t := by
  have hproxy : (p.tokens.entries.any fun e => constantTimeEquals t e.2) = true ↔
      ∃ k, Grants.Carries t p.grants.proxyInbound k := by
    simp only [List.any_eq_true, ← mem_carriers, grants, carriers, List.mem_map, List.mem_filter]
    constructor
    · rintro ⟨e, he, hm⟩
      exact ⟨e.1, e, ⟨he, hm⟩, rfl⟩
    · rintro ⟨k, e, he, -⟩
      exact ⟨e, he⟩
  have hstore : (p.store.inboundKeyList.any fun c =>
        constantTimeEquals t (p.store.inboundValue c)) = true ↔
      ∃ k, Grants.Carries t p.grants.storeInbound k := by
    simp only [List.any_eq_true, p.store.mem_inboundKeyList_iff, constantTimeEquals_iff, grants,
      p.store.reads_maps.inboundValue, Grants.Carries, Option.isSome_iff_exists]
    constructor
    · rintro ⟨c, ⟨v, hv⟩, heq⟩
      exact ⟨c, v, hv, by simpa [hv] using heq.symm⟩
    · rintro ⟨c, v, hv, heq⟩
      exact ⟨c, ⟨v, hv⟩, by simpa [hv] using heq.symm⟩
  rw [scanIssuedTokens_eq, Bool.or_eq_true, Bool.or_eq_true, hproxy, hstore]
  simp [Grants.Issued, Grants.IsHost, constantTimeEquals_iff, grants, and_comm, or_assoc]

/-- The fold after one matching key names it exactly when the key is nameable. -/
theorem keyLen_foldCarriers_singleton (k : QString) :
    0 < (foldCarriers .init [k]).keyLen ↔ Grants.Nameable k := by
  by_cases hb : k ∈ bootstrapKeys
  · simp [foldCarriers, hb, CallerFold.init, Grants.Nameable]
  · by_cases hlen : (toUtf8 k).length ≤ kCallerKeyMax
    · simp [foldCarriers, hb, Grants.Nameable, hlen, UInt8.lt_iff_toNat_lt,
        CallerFold.keyLen_taken hlen, Nat.one_le_iff_ne_zero, Nat.pos_iff_ne_zero]
    · simp [foldCarriers, hb, Grants.Nameable, hlen, CallerFold.keyLen_taken_long hlen]

theorem name_foldCarriers_singleton {k : QString} (h : Grants.Nameable k) :
    (foldCarriers .init [k]).name = toUtf8 k := by
  simp [foldCarriers, h.1, CallerFold.name_taken h.2.2]

/-- The one key that carries the token, as a list. -/
theorem carriers_eq_singleton_iff {t : QString} {d : QHash QString QString} {n : QString} :
    carriers t d = [n] ↔ ∀ k, Grants.Carries t d.lookup k ↔ k = n := by
  simp only [← mem_carriers]
  constructor
  · intro h k
    simp [h]
  · intro h
    have hperm : (carriers t d).Perm [n] :=
      (List.perm_ext_iff_of_nodup (nodup_carriers t d) (List.nodup_singleton n)).mpr
        (by simpa using h)
    exact List.perm_singleton.mp hperm

/-- The scan names the caller that the grants name. -/
theorem nameCaller_eq (p : ModuleProxy) {t : QString} (ht : t ≠ []) :
    nameCaller (scanIssuedTokens t p.tokens p.store p.store.credential) =
      p.grants.callerOf t := by
  rw [scanIssuedTokens_eq]
  by_cases hh : p.grants.IsHost t
  · have heq : toUtf8 t = toUtf8 p.store.credential := hh
    have hc := credential_ne_nil ht heq
    rw [Grants.callerOf_host hh]
    simp [nameCaller, (constantTimeEquals_iff t _).mpr heq, hc]
  have hne : constantTimeEquals t p.store.credential = false := by
    simpa [← constantTimeEquals_iff, Grants.IsHost, grants] using hh
  simp only [nameCaller, hne, Bool.false_and, Bool.toNat_false, Nat.lt_irrefl, if_false]
  by_cases hm : ∃ n, p.grants.IsModule t n
  · obtain ⟨n, hn⟩ := hm
    have hcs : carriers t p.tokens = [n] := carriers_eq_singleton_iff.mpr hn.2.1
    rw [Grants.callerOf_module hn, hcs, List.length_singleton, name_foldCarriers_singleton hn.2.2,
      if_pos ⟨rfl, (keyLen_foldCarriers_singleton n).mpr hn.2.2⟩]
  · rw [Grants.callerOf_unknown hh hm, if_neg]
    rintro ⟨hone, hlen⟩
    obtain ⟨n, hn⟩ := List.length_eq_one_iff.mp hone
    rw [hn, keyLen_foldCarriers_singleton] at hlen
    exact hm ⟨n, hh, carriers_eq_singleton_iff.mp hn, hlen⟩

/-- The number of comparisons a scan makes. -/
def comparisonCount (p : ModuleProxy) : ℕ := p.tokens.entries.length + p.store.inboundCount + 1

open Classical in
/-- **`authorize` computes the grants' answer**, with a comparison count that depends on
the sizes alone. -/
theorem authorize_eq (p : ModuleProxy) (t transport : QString) :
    p.authorize t transport =
      if t = [] then ⟨false, callerUnknownJson, 0⟩
      else if p.grants.Issued t ∨ p.grants.Validated t transport then
        ⟨true, p.grants.callerOf t, p.comparisonCount⟩
      else ⟨false, callerUnknownJson, p.comparisonCount⟩ := by
  by_cases ht : t = []
  · simp [authorize, ht]
  have hcount : (scanIssuedTokens t p.tokens p.store p.store.credential).comparisons =
      p.comparisonCount := by
    rw [scanIssuedTokens_eq]
    rfl
  have hval : p.validates t transport = true ↔ p.grants.Validated t transport := by
    cases hv : p.validator <;> simp [validates, Grants.Validated, grants, hv]
  have hdec : ((scanIssuedTokens t p.tokens p.store p.store.credential).authorized ||
      p.validates t transport) = true ↔ p.grants.Issued t ∨ p.grants.Validated t transport := by
    rw [Bool.or_eq_true, scan_authorized_iff, hval]
  simp only [authorize, List.isEmpty_iff, ht, if_false, hdec, hcount, nameCaller_eq p ht]

/-- **Exact specification of `authorize`.** It returns true iff the token is non-empty
and was issued, is the credential, or is accepted by the validator; and then the caller
is the host iff the token is the credential, is module `n` iff `n` is the one nameable
key that carries it, and is unknown in every other case. -/
theorem authorize_spec (p : ModuleProxy) (t transport : QString) :
    ((p.authorize t transport).authorized = true ↔
      t ≠ [] ∧ (p.grants.Issued t ∨ p.grants.Validated t transport)) ∧
    ((p.authorize t transport).authorized = true →
      ((p.authorize t transport).caller = callerHostAnchorJson ↔ p.grants.IsHost t) ∧
      (∀ name, (p.authorize t transport).caller = .module name ↔
        ∃ n, p.grants.IsModule t n ∧ toUtf8 n = name) ∧
      ((p.authorize t transport).caller = callerUnknownJson ↔
        ¬ p.grants.IsHost t ∧ ¬ ∃ n, p.grants.IsModule t n)) := by
  rw [authorize_eq]
  by_cases ht : t = []
  · simp [ht]
  by_cases ha : p.grants.Issued t ∨ p.grants.Validated t transport
  · simp only [ht, ha, if_false, if_true, not_false_iff, true_and, forall_const,
      Grants.callerOf_eq_host_iff, Grants.callerOf_eq_module_iff, ne_eq]
    refine ⟨fun hu => ⟨fun hh => ?_, ?_⟩, fun h => Grants.callerOf_unknown h.1 h.2⟩
    · rw [Grants.callerOf_host hh] at hu
      simp [callerHostAnchorJson, callerUnknownJson] at hu
    · rintro ⟨n, hn⟩
      rw [Grants.callerOf_module hn, Grants.callerModuleJson_of_nameable hn.2.2] at hu
      simp [callerUnknownJson] at hu
  · simp [ht, ha]

end ModuleProxy

end LogosProtocol
