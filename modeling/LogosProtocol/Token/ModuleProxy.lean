import LogosProtocol.Lib.ConstantTime
import LogosProtocol.Token.TokenManager

/-!
# The authorization scan

`authorize` decides whether a presented token was issued by this module and, when it
was, who presented it.  The scan compares the token with every issued one, never stops
early, and recovers the caller's name by a branch-free masked merge into a buffer of
fixed width.

`comparisons` counts the calls of `constantTimeEquals`, as `g_tokenComparisons` does.
Sizes and hit counters are natural numbers.

## Main definitions

* `CallerFold`, `CallerFold.offer` — the masked merge of candidate names.
* `scanIssuedTokens` — the scan over the three sources of issued tokens.
* `ModuleProxy.authorize` — the verdict and the caller document.
-/

namespace LogosProtocol

open ConstantTime

/-- The caller document, by its `kind`. -/
inductive CallerDocument
  | unknown
  | host
  | module (name : Bytes)
  deriving DecidableEq

def callerUnknownJson : CallerDocument := .unknown

def callerHostAnchorJson : CallerDocument := .host

/-- A name with no producer is not a module arm. -/
def callerModuleJson (name : Bytes) : CallerDocument :=
  if name.isEmpty then callerUnknownJson else .module name

/-- The bytes of two strings, compared over the longer of the two lengths. -/
def constantTimeEquals (a b : QString) : Bool :=
  foldDiff (QString.toUtf8 a) (QString.toUtf8 b) == 0

theorem constantTimeEquals_iff (a b : QString) :
    constantTimeEquals a b = true ↔ QString.toUtf8 a = QString.toUtf8 b := by
  simp [constantTimeEquals, foldDiff_eq_zero_iff]

/-! ## The fold -/

/-- The width at which recovering a name stops being free. -/
def kCallerKeyMax : ℕ := 64

/-- The recovered key: a buffer of fixed width and its length. -/
structure CallerFold where
  key : Vector UInt8 kCallerKeyMax
  keyLen : UInt8
  deriving DecidableEq

namespace CallerFold

/-- A fold starts with a zeroed buffer. -/
def init : CallerFold := ⟨Vector.replicate _ 0, 0⟩

/-- Merge one candidate; `hit` is 1 iff the candidate is to be taken.  Nothing is
conditional on `hit`: the mask selects. -/
def offer (fold : CallerFold) (hit : UInt32) (candKey : Bytes) : CallerFold :=
  let m := maskOf hit
  let n := if candKey.length ≤ kCallerKeyMax then candKey.length else 0
  { key := Vector.ofFn fun i =>
      select m fold.key[i] (if i < n then candKey.getD i 0 else 0)
    keyLen := select m fold.keyLen n.toUInt8 }

/-- The first `keyLen` bytes of the buffer. -/
def name (fold : CallerFold) : Bytes := fold.key.toList.take fold.keyLen.toNat

/-- The fold that holds exactly one candidate, whatever was there before. -/
def taken (candKey : Bytes) : CallerFold := init.offer 1 candKey

/-- A candidate that is not taken leaves the buffer alone. -/
@[simp] theorem offer_zero (fold : CallerFold) (candKey : Bytes) :
    fold.offer 0 candKey = fold := by
  cases fold with | mk key keyLen => simp [offer]

/-- A candidate that is taken overwrites every byte: no stale prefix survives. -/
theorem offer_one (fold : CallerFold) (candKey : Bytes) :
    fold.offer 1 candKey = taken candKey := by
  simp [offer, taken]

theorem keyLen_taken {candKey : Bytes} (h : candKey.length ≤ kCallerKeyMax) :
    (taken candKey).keyLen.toNat = candKey.length := by
  have h64 : candKey.length ≤ 64 := h
  simp only [taken, offer, maskOf_one, select_all, h, if_true, Nat.toUInt8_eq,
    UInt8.toNat_ofNat']
  omega

theorem keyLen_taken_long {candKey : Bytes} (h : ¬ candKey.length ≤ kCallerKeyMax) :
    (taken candKey).keyLen = 0 := by
  simp [taken, offer, h]

/-- A key of 1 to 64 bytes is recovered whole. -/
theorem name_taken {candKey : Bytes} (h : candKey.length ≤ kCallerKeyMax) :
    (taken candKey).name = candKey := by
  have hlen : (taken candKey).keyLen.toNat = candKey.length := keyLen_taken h
  refine List.ext_getElem ?_ fun i hi hi' => ?_
  · simp [name, hlen, h]
  · simp [name, taken, offer, h, hi']

end CallerFold

/-! ## The scan -/

/-- What the scan found, and how many comparisons it made. -/
structure ScanOutcome where
  authorized : Bool := false
  /-- Matches in the caller-keyed naming oracle. -/
  moduleHits : ℕ := 0
  /-- Matches on this identity's own credential. -/
  anchorHits : ℕ := 0
  fold : CallerFold := .init
  comparisons : ℕ := 0

namespace ScanOutcome

/-- One entry of the proxy's own record: it authorizes, it counts, and it offers its key
unless the key is an anchor name. -/
def visitProxyEntry (authToken : QString) (out : ScanOutcome) (key value : QString) :
    ScanOutcome :=
  let isAnchor : UInt32 := if bootstrapKeys.contains key then 1 else 0
  let hit : UInt32 := if constantTimeEquals authToken value then 1 else 0
  { authorized := out.authorized || (hit != 0)
    moduleHits := out.moduleHits + hit.toNat
    anchorHits := out.anchorHits
    fold := out.fold.offer (hit &&& ~~~isAnchor) (QString.toUtf8 key)
    comparisons := out.comparisons + 1 }

/-- One entry of the store's inbound record: it authorizes and offers no name. -/
def visitInboundToken (authToken : QString) (out : ScanOutcome) (value : QString) :
    ScanOutcome :=
  { out with
    authorized := out.authorized || constantTimeEquals authToken value
    comparisons := out.comparisons + 1 }

/-- The credential: always compared, its emptiness masks the answer. -/
def visitCredential (authToken : QString) (out : ScanOutcome) (credential : QString) :
    ScanOutcome :=
  let present := !credential.isEmpty
  let hit := constantTimeEquals authToken credential
  { out with
    authorized := out.authorized || (hit && present)
    anchorHits := out.anchorHits + (hit && present).toNat
    comparisons := out.comparisons + 1 }

end ScanOutcome

open ScanOutcome in
/-- Compare the token with every entry of `proxyInbound`, every inbound entry of `store`
and the credential. -/
def scanIssuedTokens (authToken : QString) (proxyInbound : QHash QString QString)
    (store : TokenManager) (credential : QString) : ScanOutcome :=
  let out := proxyInbound.entries.foldl
    (fun out e => visitProxyEntry authToken out e.1 e.2) {}
  let out := store.inboundKeyList.foldl
    (fun out caller => visitInboundToken authToken out (store.inboundValue caller)) out
  visitCredential authToken out credential

/-- A module's front door: its own record of issued tokens, the store of its identity
and an optional host-installed validator. -/
structure ModuleProxy where
  tokens : QHash QString QString
  store : TokenManager
  validator : Option (QString → QString → Bool)

/-- The verdict, the caller document and the number of comparisons made. -/
structure Authorization where
  authorized : Bool
  caller : CallerDocument
  comparisons : ℕ

namespace ModuleProxy

/-- Name the caller of an authorized scan.  The anchor wins a tie. -/
def nameCaller (scan : ScanOutcome) : CallerDocument :=
  if 0 < scan.anchorHits then callerHostAnchorJson
  else if scan.moduleHits = 1 ∧ 0 < scan.fold.keyLen then callerModuleJson scan.fold.name
  else callerUnknownJson

/-- The host-installed validator, if there is one, accepts the token. -/
def validates (p : ModuleProxy) (authToken transportProtocol : QString) : Bool :=
  match p.validator with
  | some validator => validator authToken transportProtocol
  | none => false

/-- Decide whether `authToken` was issued, and by whom it is presented. -/
def authorize (p : ModuleProxy) (authToken transportProtocol : QString) : Authorization :=
  if authToken.isEmpty then ⟨false, callerUnknownJson, 0⟩
  else
    let scan := scanIssuedTokens authToken p.tokens p.store p.store.credential
    let authorized := scan.authorized || p.validates authToken transportProtocol
    if authorized then ⟨true, nameCaller scan, scan.comparisons⟩
    else ⟨false, callerUnknownJson, scan.comparisons⟩

end ModuleProxy

end LogosProtocol
