import LogosProtocol.Lib.TransitionSystem
import LogosProtocol.Token.Authorize

/-!
# Token intake of a module proxy

A proxy's own record of issued tokens is written by `saveToken` and by `informModuleToken`.  The
second is the gate through which authority over a module is written: it compares the presented
token with the store's credential, checks its arguments, forwards to the provider, and records
only what the provider accepted.

The comparison is of UTF-8 texts, and a lone surrogate has no UTF-8 text of its own, so two
different strings may compare equal.

## Main definitions

* `LogosProviderObject` — the provider's verdict on a forwarded token, and what it makes of the
  store.
* `ModuleProxy.saveToken`, `ModuleProxy.informModuleToken` — the two writers.
* `intake` — their calls, in any order, with a store that anyone may change in between.
-/

namespace LogosProtocol

/-- A provider, as far as intake asks it: whether it accepts a token, and the store after it. -/
structure LogosProviderObject where
  informModuleToken : TokenManager → QString → QString → Bool × TokenManager

namespace ModuleProxy

/-- Record a token under a caller's name; an empty name or token is refused. -/
def saveToken (p : ModuleProxy) (fromModuleName token : QString) : Bool × ModuleProxy :=
  if fromModuleName.isEmpty then (false, p)
  else if token.isEmpty then (false, p)
  else (true, { p with tokens := p.tokens.insert fromModuleName token })

/-- Forward a token to the provider, and record it if the provider accepted it. -/
def informModuleToken (p : ModuleProxy) (provider : Option LogosProviderObject)
    (authToken moduleName token : QString) : Bool × ModuleProxy :=
  match provider with
  | none => (false, p)
  | some provider =>
    let credential := p.store.credential
    let callerIsTrusted := !credential.isEmpty && constantTimeEquals authToken credential
    if authToken.isEmpty || !callerIsTrusted then (false, p)
    else if moduleName.isEmpty then (false, p)
    else if token.isEmpty then (false, p)
    else
      let answer := provider.informModuleToken p.store moduleName token
      let p := { p with store := answer.2 }
      if !answer.1 then (false, p)
      else (true, (p.saveToken moduleName token).2)

/-! ## What one call does -/

/-- The checks before the provider is asked: the caller is trusted, and neither argument is
empty. -/
structure Trusts (p : ModuleProxy) (authToken moduleName token : QString) : Prop where
  credential : p.store.credential ≠ []
  authToken : QString.toUtf8 authToken = QString.toUtf8 p.store.credential
  moduleName : moduleName ≠ []
  token : token ≠ []

variable {p : ModuleProxy} {authToken moduleName token : QString}

/-- The provider is there and accepts the token. -/
def Accepts (p : ModuleProxy) (provider : Option LogosProviderObject)
    (moduleName token : QString) : Prop :=
  ∃ object, provider = some object ∧ (object.informModuleToken p.store moduleName token).1 = true

theorem saveToken_of_ne (p : ModuleProxy) (hname : moduleName ≠ []) (htoken : token ≠ []) :
    p.saveToken moduleName token =
      (true, { p with tokens := p.tokens.insert moduleName token }) := by
  simp [saveToken, hname, htoken]

/-- A token that is recorded has a name and is not empty. -/
theorem saveToken_cases (p : ModuleProxy) (moduleName token : QString) :
    (p.saveToken moduleName token = (false, p) ∧ (moduleName = [] ∨ token = [])) ∨
      (p.saveToken moduleName token =
        (true, { p with tokens := p.tokens.insert moduleName token }) ∧
        moduleName ≠ [] ∧ token ≠ []) := by
  by_cases hname : moduleName = []
  · exact .inl ⟨by simp [saveToken, hname], .inl hname⟩
  · by_cases htoken : token = []
    · exact .inl ⟨by simp [saveToken, hname, htoken], .inr htoken⟩
    · exact .inr ⟨saveToken_of_ne p hname htoken, hname, htoken⟩

/-- The gate opens for the store's credential, if it has one. -/
theorem callerIsTrusted_iff (p : ModuleProxy) (authToken : QString) :
    (authToken.isEmpty ||
        !(!p.store.credential.isEmpty && constantTimeEquals authToken p.store.credential)) = false ↔
      p.store.credential ≠ [] ∧ QString.toUtf8 authToken = QString.toUtf8 p.store.credential := by
  simp only [Bool.or_eq_false_iff, Bool.not_eq_false', Bool.and_eq_true, Bool.not_eq_true',
    constantTimeEquals_iff, List.isEmpty_eq_false_iff, ne_eq]
  constructor
  · exact fun h => h.2
  · intro ⟨hcredential, heq⟩
    refine ⟨?_, hcredential, heq⟩
    rintro rfl
    exact hcredential ((QString.toUtf8_eq_nil_iff _).mp heq.symm)

/-- **What a push does**: a call that is trusted and accepted records the token, and every other
call returns false and leaves the record. -/
theorem informModuleToken_cases (p : ModuleProxy) (provider : Option LogosProviderObject)
    (authToken moduleName token : QString) :
    ((p.informModuleToken provider authToken moduleName token).1 = true ∧
      p.Trusts authToken moduleName token ∧ p.Accepts provider moduleName token ∧
      (p.informModuleToken provider authToken moduleName token).2.tokens =
        p.tokens.insert moduleName token) ∨
    ((p.informModuleToken provider authToken moduleName token).1 = false ∧
      ¬ (p.Trusts authToken moduleName token ∧ p.Accepts provider moduleName token) ∧
      (p.informModuleToken provider authToken moduleName token).2.tokens = p.tokens) := by
  cases provider with
  | none =>
    refine .inr ⟨rfl, ?_, rfl⟩
    rintro ⟨-, object, hobject, -⟩
    cases hobject
  | some object =>
    simp only [informModuleToken]
    by_cases hgate : (authToken.isEmpty ||
        !(!p.store.credential.isEmpty && constantTimeEquals authToken p.store.credential)) = false
    · obtain ⟨hcredential, heq⟩ := (callerIsTrusted_iff p authToken).mp hgate
      rw [hgate]
      by_cases hname : moduleName = []
      · exact .inr ⟨by simp [hname], fun h => h.1.moduleName hname, by simp [hname]⟩
      · by_cases htoken : token = []
        · exact .inr ⟨by simp [hname, htoken], fun h => h.1.token htoken, by simp [hname, htoken]⟩
        · cases hverdict : (object.informModuleToken p.store moduleName token).1 with
          | false =>
            refine .inr ⟨by simp [hname, htoken], ?_, by simp [hname, htoken]⟩
            rintro ⟨-, object', hobject, haccepted⟩
            obtain rfl := Option.some.inj hobject
            rw [hverdict] at haccepted
            cases haccepted
          | true =>
            refine .inl ⟨?_, ⟨hcredential, heq, hname, htoken⟩, ⟨object, rfl, hverdict⟩, ?_⟩
            · simp [hname, htoken]
            · simp [hname, htoken, saveToken_of_ne]
    · rw [Bool.not_eq_false] at hgate
      rw [hgate]
      refine .inr ⟨rfl, ?_, rfl⟩
      rintro ⟨htrusts, -⟩
      have hopen := (callerIsTrusted_iff p authToken).mpr ⟨htrusts.credential, htrusts.authToken⟩
      rw [hgate] at hopen
      cases hopen

end ModuleProxy

/-! ## Every sequence of calls -/

/-- A call of one of the writers, or a change of the store from outside. -/
inductive IntakeCall
  | saveToken (fromModuleName token : QString)
  | informModuleToken (provider : Option LogosProviderObject)
      (authToken moduleName token : QString)
  | changeStore (store : TokenManager)

namespace ModuleProxy

/-- The proxy after a call. -/
def afterCall (p : ModuleProxy) : IntakeCall → ModuleProxy
  | .saveToken fromModuleName token => (p.saveToken fromModuleName token).2
  | .informModuleToken provider authToken moduleName token =>
    (p.informModuleToken provider authToken moduleName token).2
  | .changeStore store => { p with store := store }

/-- No empty name and no empty token. -/
def Filled (p : ModuleProxy) : Prop := ∀ key value, p.tokens.lookup key = some value →
  key ≠ [] ∧ value ≠ []

theorem Filled.insert {p p' : ModuleProxy} {key value : QString} (h : p.Filled) (hkey : key ≠ [])
    (hvalue : value ≠ []) (htokens : p'.tokens = p.tokens.insert key value) : p'.Filled := by
  intro key' value' hlookup
  rw [htokens] at hlookup
  by_cases heq : key' = key
  · subst heq
    rw [AList.lookup_insert, Option.some.injEq] at hlookup
    exact ⟨hkey, hlookup ▸ hvalue⟩
  · rw [AList.lookup_insert_ne heq] at hlookup
    exact h key' value' hlookup

theorem Filled.same {p p' : ModuleProxy} (h : p.Filled) (htokens : p'.tokens = p.tokens) :
    p'.Filled := by
  rw [Filled, htokens]
  exact h

theorem Filled.afterCall {p : ModuleProxy} (h : p.Filled) (a : IntakeCall) :
    (p.afterCall a).Filled := by
  cases a with
  | saveToken fromModuleName token =>
    obtain ⟨hsave, -⟩ | ⟨hsave, hname, htoken⟩ := p.saveToken_cases fromModuleName token
    · exact h.same (by rw [ModuleProxy.afterCall, hsave])
    · exact h.insert hname htoken (by rw [ModuleProxy.afterCall, hsave])
  | informModuleToken provider authToken moduleName token =>
    obtain ⟨-, htrusts, -, htokens⟩ | ⟨-, -, htokens⟩ :=
      p.informModuleToken_cases provider authToken moduleName token
    · exact h.insert htrusts.moduleName htrusts.token htokens
    · exact h.same htokens
  | changeStore store => exact h

end ModuleProxy

/-- A proxy with no tokens of its own, and its calls. -/
def intake : TransitionSystem ModuleProxy IntakeCall where
  init p := p.tokens = ∅
  step p a p' := p' = p.afterCall a

theorem filled_of_reachable {p : ModuleProxy} (h : intake.Reachable p) : p.Filled := by
  refine h.invariant (I := ModuleProxy.Filled) ?_ ?_
  · intro p hinit key value hlookup
    rw [show p.tokens = ∅ from hinit] at hlookup
    cases hlookup
  · rintro p a p' hp rfl
    exact hp.afterCall a

/-- **The gate of token intake.**  In every state that any calls lead to, a push changes the record
only if the token it presents has the UTF-8 text of the store's non-empty credential, the name and
the token are not empty and the provider accepted the token; it returns true exactly then, with the
token recorded under the name; a call that returns false leaves the record; the record has no empty
name and no empty token; and while the store has no credential, every push is refused. -/
theorem informModuleToken_gate (p : ModuleProxy) (h : intake.Reachable p) :
    (∀ provider authToken moduleName token,
      (p.informModuleToken provider authToken moduleName token).2.tokens ≠ p.tokens →
      p.store.credential ≠ [] ∧ QString.toUtf8 authToken = QString.toUtf8 p.store.credential ∧
        moduleName ≠ [] ∧ token ≠ [] ∧ p.Accepts provider moduleName token) ∧
    (∀ provider authToken moduleName token,
      (p.informModuleToken provider authToken moduleName token).1 = true ↔
        p.store.credential ≠ [] ∧ QString.toUtf8 authToken = QString.toUtf8 p.store.credential ∧
          moduleName ≠ [] ∧ token ≠ [] ∧ p.Accepts provider moduleName token) ∧
    (∀ provider authToken moduleName token,
      (p.informModuleToken provider authToken moduleName token).1 = true →
      (p.informModuleToken provider authToken moduleName token).2.tokens =
        p.tokens.insert moduleName token) ∧
    (∀ provider authToken moduleName token,
      (p.informModuleToken provider authToken moduleName token).1 = false →
      (p.informModuleToken provider authToken moduleName token).2.tokens = p.tokens) ∧
    (∀ fromModuleName token, (p.saveToken fromModuleName token).1 = false →
      (p.saveToken fromModuleName token).2.tokens = p.tokens) ∧
    (∀ key value, p.tokens.lookup key = some value → key ≠ [] ∧ value ≠ []) ∧
    (p.store.credential = [] → ∀ provider authToken moduleName token,
      (p.informModuleToken provider authToken moduleName token).1 = false) := by
  refine ⟨?_, ?_, ?_, ?_, ?_, filled_of_reachable h, ?_⟩
  · intro provider authToken moduleName token hchanged
    obtain ⟨-, htrusts, haccepts, -⟩ | ⟨-, -, hsame⟩ :=
      p.informModuleToken_cases provider authToken moduleName token
    · exact ⟨htrusts.credential, htrusts.authToken, htrusts.moduleName, htrusts.token, haccepts⟩
    · exact absurd hsame hchanged
  · intro provider authToken moduleName token
    obtain ⟨htrue, htrusts, haccepts, -⟩ | ⟨hfalse, hclosed, -⟩ :=
      p.informModuleToken_cases provider authToken moduleName token
    · exact iff_of_true htrue
        ⟨htrusts.credential, htrusts.authToken, htrusts.moduleName, htrusts.token, haccepts⟩
    · refine iff_of_false (by simp [hfalse]) ?_
      rintro ⟨hcredential, heq, hname, htoken, haccepts⟩
      exact hclosed ⟨⟨hcredential, heq, hname, htoken⟩, haccepts⟩
  · intro provider authToken moduleName token htrue
    obtain ⟨-, -, -, htokens⟩ | ⟨hfalse, -, -⟩ :=
      p.informModuleToken_cases provider authToken moduleName token
    · exact htokens
    · rw [hfalse] at htrue
      cases htrue
  · intro provider authToken moduleName token hfalse
    obtain ⟨htrue, -⟩ | ⟨-, -, hsame⟩ :=
      p.informModuleToken_cases provider authToken moduleName token
    · rw [hfalse] at htrue
      cases htrue
    · exact hsame
  · intro fromModuleName token hfalse
    obtain ⟨hsave, -⟩ | ⟨hsave, -⟩ := p.saveToken_cases fromModuleName token
    · rw [hsave]
    · rw [hsave] at hfalse
      cases hfalse
  · intro hempty provider authToken moduleName token
    obtain ⟨-, htrusts, -⟩ | ⟨hfalse, -⟩ :=
      p.informModuleToken_cases provider authToken moduleName token
    · exact absurd hempty htrusts.credential
    · exact hfalse

/-- A provider that accepts every token and records it, as a module's own provider does. -/
def acceptingProvider : LogosProviderObject where
  informModuleToken store moduleName token := store.saveInboundToken moduleName token

/-- A proxy whose store holds one credential. -/
def proxyWithCredential (credential : QString) : ModuleProxy :=
  ⟨∅, TokenManager.empty.adoptCredential credential, none⟩

theorem reachable_proxyWithCredential (credential : QString) :
    intake.Reachable (proxyWithCredential credential) := .init rfl

theorem informModuleToken_gate_accepted :
    ((proxyWithCredential (qstr "c")).informModuleToken acceptingProvider (qstr "c") (qstr "chat")
        (qstr "t")).2.tokens.lookup (qstr "chat") = some (qstr "t") ∧
      (proxyWithCredential (qstr "c")).Accepts acceptingProvider (qstr "chat") (qstr "t") := by
  have hgate := informModuleToken_gate (proxyWithCredential (qstr "c"))
    (reachable_proxyWithCredential _)
  refine ⟨by decide, (hgate.1 acceptingProvider (qstr "c") (qstr "chat") (qstr "t") ?_).2.2.2.2⟩
  intro hsame
  have hlookup := congrArg (fun tokens => tokens.lookup (qstr "chat")) hsame
  revert hlookup
  decide

/-- The lone surrogates U+D800 and U+D801 have one UTF-8 text: a push that presents the one is
trusted by a store whose credential is the other. -/
theorem informModuleToken_surrogates :
    ∃ p : ModuleProxy, intake.Reachable p ∧ ([0xD801] : QString) ≠ p.store.credential ∧
      (p.informModuleToken acceptingProvider [0xD801] (qstr "chat") (qstr "t")).2.tokens ≠
        p.tokens := by
  refine ⟨proxyWithCredential [0xD800], reachable_proxyWithCredential _, by decide, ?_⟩
  intro hsame
  have hlookup := congrArg (fun tokens => tokens.lookup (qstr "chat")) hsame
  revert hlookup
  decide

end LogosProtocol
