import LogosProtocol.Client.Exchanges

/-!
# Rejections and the shared store

Clients that share a store run as one client does, with the others writing its store between two
steps.  The handling of a rejection removes what is stored for the target, whether that is the
token that was rejected or a later one.

## Main definitions

* `Clients`, `clients` — clients that share a store.
* `rejection` — the rejection that a step handles.
* `Timely` — the condition on a step under which it finds the token that was rejected.
* `Harmless` — no other token is removed, and only the one that is gone is asked for again.
-/

namespace LogosProtocol.ApiClient

/-! ## Clients that share a store -/

/-- The stores that the clients themselves carry are stale. -/
structure Clients (ι : Type) where
  store : TokenManager
  client : ι → Program.Config Client Instr

section clients
variable {ι : Type} [DecidableEq ι] {setup : ι → Setup} {store : TokenManager} {σ σ' : Clients ι}

/-- A client, with the shared store. -/
def onStore (store : TokenManager) (c : Program.Config Client Instr) :
    Program.Config Client Instr :=
  ⟨{ c.data with store := store }, c.stack⟩

def Clients.seen (σ : Clients ι) (j : ι) : Program.Config Client Instr :=
  onStore σ.store (σ.client j)

/-- One client takes a step. -/
def Clients.next (setup : ι → Setup) (σ : Clients ι) (a : ι × Program.Action Op Oracle) :
    Option (Clients ι) :=
  ((program (setup a.1) σ.store).next (σ.seen a.1) a.2).map fun c =>
    ⟨c.data.store, Function.update σ.client a.1 c⟩

def clients (setup : ι → Setup) (store : TokenManager) :
    TransitionSystem (Clients ι) (ι × Program.Action Op Oracle) :=
  .ofNext ⟨store, fun _ => ⟨{ store := store }, []⟩⟩ (Clients.next setup)

/-- The same answers, from others that leave a store behind. -/
def leaving (store : TokenManager) : Program.Action Op Oracle → Program.Action Op Oracle
  | .call op o => .call op { o with others := fun _ => o.others store }
  | .step o => .step { o with others := fun _ => o.others store }

/-- A client does not see who writes its store. -/
theorem next_onStore (s : Setup) (store store₀ : TokenManager) (c : Program.Config Client Instr)
    (a : Program.Action Op Oracle) : (program s store).next (onStore store c) a =
      (program s store₀).next c (leaving store a) := by
  cases a with
  | call op o =>
    have hcall : call s { c.data with store := store } op o =
        call s c.data op { o with others := fun _ => o.others store } := by
      cases op <;> rfl
    simp only [Program.next, leaving, onStore, program, hcall]
    rfl
  | step o =>
    have hexec : ∀ i, exec s { c.data with store := store } i o =
        exec s c.data i { o with others := fun _ => o.others store } := by
      intro i
      cases i <;> rfl
    simp only [Program.next, leaving, onStore, program, hexec]

theorem Clients.next_eq_some {j : ι} {a : Program.Action Op Oracle}
    (h : Clients.next setup σ (j, a) = some σ') :
    ∃ c, (program (setup j) σ.store).next (σ.seen j) a = some c ∧
      σ' = ⟨c.data.store, Function.update σ.client j c⟩ := by
  obtain ⟨c, hc, rfl⟩ := Option.map_eq_some_iff.mp h
  exact ⟨c, hc, rfl⟩

/-- The client that takes a step sees what it leaves. -/
theorem Clients.next_seen {j : ι} {a : Program.Action Op Oracle}
    (h : Clients.next setup σ (j, a) = some σ') :
    (program (setup j) σ.store).next (σ.seen j) a = some (σ'.seen j) ∧
      (σ'.seen j).data.store = σ'.store := by
  obtain ⟨c, hc, rfl⟩ := Clients.next_eq_some h
  have hseen : Clients.seen ⟨c.data.store, Function.update σ.client j c⟩ j = c := by
    simp only [Clients.seen, Function.update_self]
    rfl
  rw [hseen]
  exact ⟨hc, rfl⟩

/-- **A client that shares its store runs as one that does not.** -/
theorem client_reachable (h : (clients setup store).Reachable σ) (j : ι) :
    (program (setup j) store).system.Reachable (σ.client j) := by
  refine h.invariant (I := fun σ => ∀ j, (program (setup j) store).system.Reachable (σ.client j))
    ?_ ?_ j
  · rintro σ rfl j
    exact .init rfl
  · rintro σ ⟨i, a⟩ σ' hσ hstep j
    obtain ⟨c, hc, rfl⟩ := Clients.next_eq_some hstep
    by_cases hj : j = i
    · subst hj
      rw [Clients.seen, next_onStore (setup j) σ.store store] at hc
      simpa only [Function.update_self] using (hσ j).step (a := leaving σ.store a) hc
    · simpa only [Function.update_of_ne hj] using hσ j

end clients

/-! ## What the handling of a rejection does -/

/-- A rejection that is handled: of which call, to which target, sent with which token. -/
structure Rejection where
  number : ℕ
  objectName : QString
  token : QString
  synchronous : Bool

/-- The rejection that a step handles. -/
def rejection (s : Setup) (c : Program.Config Client Instr) :
    Program.Action Op Oracle → Option Rejection
  | .call (.result n value _) _ =>
    (c.data.dispatches.find? fun d => d.number = n).bind fun d =>
      if 0 < d.call.retriesLeft ∧ s.eligible d.call.objectName ∧ isUnauthorizedSentinel value then
        some ⟨d.call.number, d.call.objectName, d.token, false⟩
      else none
  | .call _ _ => none
  | .step o =>
    match c.stack with
    | .callTarget call sent retried :: _ =>
      if ¬ retried ∧ s.eligible call.objectName ∧ isUnauthorizedSentinel o.value then
        some ⟨call.number, call.objectName, sent, true⟩
      else none
    | _ => none

/-- What is left to do is a re-exchange: a synchronous call waits for it, or an asynchronous call
is made again and finds no other to wait behind. -/
def Reexchanges (c : Program.Config Client Instr) (x : QString) : Prop :=
  match c.stack with
  | .mint call _ _ :: _ => call.objectName = x
  | .invoke call :: _ => call.objectName = x ∧ c.data.queue x = []
  | _ => False

section rejections
variable {s : Setup} {store : TokenManager} {c c' : Program.Config Client Instr}
  {a : Program.Action Op Oracle} {q : Rejection}

/-- What the handling of a rejection leaves. -/
structure Handled (c : Program.Config Client Instr) (a : Program.Action Op Oracle)
    (q : Rejection) (c' : Program.Config Client Instr) : Prop where
  store : c'.data.store = ((a.answer.others c.data.store).removeToken q.objectName).2
  queue : c'.data.queue = c.data.queue
  reexchanges : Reexchanges c' q.objectName ↔
    q.synchronous = true ∨ c.data.queue q.objectName = []
  again : q.synchronous = false →
    ∃ call k, c'.stack = .invoke call :: k ∧ call.objectName = q.objectName

theorem handled_of_next (hstep : (program s store).next c a = some c')
    (hq : rejection s c a = some q) : Handled c a q c' := by
  cases a with
  | call op o =>
    obtain ⟨r, hr, rfl⟩ := Program.next_call hstep
    cases op with
    | result n value err =>
      obtain ⟨d, hd, hq⟩ := Option.bind_eq_some_iff.mp hq
      simp only [Option.ite_none_right_eq_some, Option.some.injEq] at hq
      obtain ⟨hrejected, rfl⟩ := hq
      obtain ⟨d', hd', rfl⟩ := Option.map_eq_some_iff.mp hr
      obtain rfl : d = d' := Option.some.inj (hd.symm.trans hd')
      simp only [Client.onResult, if_pos hrejected]
      refine ⟨rfl, rfl, ?_, fun _ => ⟨_, _, rfl, rfl⟩⟩
      simp [Reexchanges, AsyncCall.objectName, Client.queue, Client.emit, Client.pass]
    | _ => cases hq
  | step o =>
    obtain ⟨i, k, r, hstack, hr, rfl⟩ := Program.next_step hstep
    simp only [rejection, hstack] at hq
    cases i with
    | callTarget call sent retried =>
      simp only [Option.ite_none_right_eq_some, Option.some.injEq] at hq
      obtain ⟨hrejected, rfl⟩ := hq
      cases hr
      simp only [Client.returned, if_pos hrejected]
      exact ⟨rfl, rfl, by simp [Reexchanges, Client.mintAndCacheToken], fun h => by cases h⟩
    | _ => cases hq

/-- What is removed is gone. -/
theorem getToken_removeToken (m : TokenManager) (x : QString) :
    (m.removeToken x).2.getToken x = [] := by
  by_cases hx : isReservedKey x = true
  · simp [TokenManager.getToken, hx]
  · have hx' : isReservedKey x = false := by simpa using hx
    simp [TokenManager.getToken, TokenManager.tokens_removeToken hx', hx']

theorem Handled.gone (h : Handled c a q c') : c'.data.store.getToken q.objectName = [] := by
  rw [h.store, getToken_removeToken]

end rejections

/-! ## In time -/

/-- The token of the target is the one that was rejected.  If it is gone already, an
asynchronous call finds others that wait for the next one. -/
def Timely (s : Setup) (c : Program.Config Client Instr) (a : Program.Action Op Oracle) : Prop :=
  ∀ q, rejection s c a = some q →
    (a.answer.others c.data.store).getToken q.objectName = q.token ∨
    (a.answer.others c.data.store).getToken q.objectName = [] ∧ q.synchronous = false ∧
      c.data.queue q.objectName ≠ []

/-- What the handling of a rejection may do, with the store it finds. -/
structure Harmless (before : TokenManager) (q : Rejection) (c' : Program.Config Client Instr) :
    Prop where
  /-- No other token is removed. -/
  kept : ∀ t, t ≠ q.token → before.getToken q.objectName = t →
    c'.data.store.getToken q.objectName = t
  /-- The token that was rejected is exchanged, and nothing that is gone already. -/
  once : Reexchanges c' q.objectName → before.getToken q.objectName = q.token

section timely
variable {s : Setup} {store : TokenManager} {c c' : Program.Config Client Instr}
  {a : Program.Action Op Oracle} {q : Rejection}

theorem harmless_iff (h : Handled c a q c') (hq : rejection s c a = some q) :
    Harmless (a.answer.others c.data.store) q c' ↔ Timely s c a := by
  generalize hbefore : a.answer.others c.data.store = before
  constructor
  · intro hharmless q' hq'
    obtain rfl : q = q' := Option.some.inj (hq.symm.trans hq')
    rw [hbefore]
    by_cases htoken : before.getToken q.objectName = q.token
    · exact .inl htoken
    · have hgone := hharmless.kept _ htoken rfl
      have hnot : ¬ Reexchanges c' q.objectName := fun hre => htoken (hharmless.once hre)
      rw [h.reexchanges, not_or, Bool.not_eq_true] at hnot
      exact .inr ⟨by rw [← hgone, h.gone], hnot⟩
  · intro htimely
    have hcases := htimely q hq
    rw [hbefore] at hcases
    refine ⟨fun t ht hfound => ?_, fun hre => ?_⟩
    · rcases hcases with hsame | ⟨hnone, -⟩
      · exact absurd (hfound.symm.trans hsame) ht
      · rw [h.gone, ← hfound, hnone]
    · rcases hcases with hsame | ⟨-, hasync, hqueue⟩
      · exact hsame
      · rcases h.reexchanges.mp hre with hsync | hnone
        · rw [hasync] at hsync
          cases hsync
        · exact absurd hnone hqueue

/-- A call that is made again behind others begins no wait and no exchange. -/
theorem invoke_joins {call : AsyncCall} {k : List Instr} (hstack : c.stack = .invoke call :: k)
    (hqueue : c.data.queue call.objectName ≠ []) {o : Oracle}
    (hstep : (program s store).next c (.step o) = some c') :
    c'.data.readiness = c.data.readiness ∧ c'.data.exchanges = c.data.exchanges ∧
      ∀ x, minting c'.stack x = minting c.stack x := by
  obtain ⟨i, k', r, hstack', hr, rfl⟩ := Program.next_step hstep
  obtain ⟨rfl, rfl⟩ := List.cons.inj (hstack.symm.trans hstack')
  cases hr
  have hminting : ∀ x, minting (c.data.pass o |>.invokeRemoteMethodAsyncImpl s call).2 x = 0 :=
    fun x => minting_invoke s _ call x
  have hlong : 1 < ((c.data.pass o).queue call.objectName ++
      [(⟨(c.data.pass o).nextNumber, call⟩ : Continuation)]).length := by
    have hpos := List.length_pos_iff.mpr hqueue
    simp only [List.length_append, List.length_singleton]
    exact Nat.lt_add_of_pos_left hpos
  refine ⟨?_, ?_, fun x => ?_⟩
  · simp only [Client.invokeRemoteMethodAsyncImpl, if_pos hlong]
    split_ifs <;> rfl
  · simp only [Client.invokeRemoteMethodAsyncImpl, if_pos hlong]
    split_ifs <;> rfl
  · rw [hstack, minting_append, hminting, Nat.zero_add]
    rfl

end timely

/-! ## Over the runs of clients that share a store -/

section runs
variable {ι : Type} [DecidableEq ι] {setup : ι → Setup} {store : TokenManager} {σ σ' : Clients ι}
  {j : ι} {a : Program.Action Op Oracle} {q : Rejection}

/-- Nobody stores a token for a target that has another one, or none. -/
def NotStored (setup : ι → Setup) (x t : QString) (σ : Clients ι)
    (a : ι × Program.Action Op Oracle) : Prop :=
  σ.store.getToken x ≠ t → (a.2.answer.others σ.store).getToken x ≠ t ∧
    ∀ σ', Clients.next setup σ a = some σ' → σ'.store.getToken x ≠ t

/-- The runs in which rejections are timely and a token is not stored again. -/
def timelyClients (setup : ι → Setup) (store : TokenManager) (x t : QString) :
    TransitionSystem (Clients ι) (ι × Program.Action Op Oracle) :=
  (clients setup store).restrict fun σ a =>
    Timely (setup a.1) (σ.seen a.1) a.2 ∧ NotStored setup x t σ a

/-- From here on, no rejection of a call that was sent with `t` re-exchanges it. -/
def Spent (setup : ι → Setup) (store : TokenManager) (x t : QString) (σ : Clients ι) : Prop :=
  ∀ as σ₁ i b σ₂, (timelyClients setup store x t).Run σ as σ₁ →
    (timelyClients setup store x t).step σ₁ (i, b) σ₂ →
    ∀ q, rejection (setup i) (σ₁.seen i) b = some q → q.objectName = x → q.token = t →
      ¬ Reexchanges (σ₂.seen i) x

/-- What is not stored stays so. -/
theorem not_stored_run {x t : QString} {as : List (ι × Program.Action Op Oracle)}
    (h : (timelyClients setup store x t).Run σ as σ') (hnot : σ.store.getToken x ≠ t) :
    σ'.store.getToken x ≠ t := by
  refine h.invariant (I := fun σ => σ.store.getToken x ≠ t) ?_ hnot
  rintro σ a σ' hσ ⟨hstep, -, hstored⟩
  exact (hstored hσ).2 σ' hstep

theorem spent_of_not_stored {x t : QString} (hnot : σ.store.getToken x ≠ t) :
    Spent setup store x t σ := by
  rintro as σ₁ i b σ₂ hrun ⟨hstep, htimely, hstored⟩ q hq rfl rfl hre
  obtain ⟨hbefore, -⟩ := hstored (not_stored_run hrun hnot)
  have hhandled := handled_of_next (Clients.next_seen hstep).1 hq
  exact hbefore (((harmless_iff hhandled hq).mpr htimely).once hre)

/-- **A rejection is harmless if and only if it is timely**, and one of those of calls that were
sent with the same token re-exchanges it, while the others join the handshake that is on. -/
theorem rejection_harmless_iff (store : TokenManager)
    (hstep : Clients.next setup σ (j, a) = some σ')
    (hq : rejection (setup j) (σ.seen j) a = some q) :
    (Harmless (a.answer.others σ.store) q (σ'.seen j) ↔ Timely (setup j) (σ.seen j) a) ∧
    (q.token ≠ [] → Spent setup store q.objectName q.token σ') ∧
    (¬ Reexchanges (σ'.seen j) q.objectName → ∀ store' o c,
      (program (setup j) store).next (onStore store' (σ'.client j)) (.step o) = some c →
      c.data.readiness = (σ'.client j).data.readiness ∧
      c.data.exchanges = (σ'.client j).data.exchanges ∧
      ∀ x, minting c.stack x = minting (σ'.client j).stack x) := by
  obtain ⟨hnext, hstore⟩ := Clients.next_seen hstep
  have hhandled := handled_of_next hnext hq
  refine ⟨harmless_iff hhandled hq, fun ht => ?_, fun hnot store' o c hc => ?_⟩
  · refine spent_of_not_stored ?_
    rw [← hstore, hhandled.gone]
    exact ht.symm
  · rw [hhandled.reexchanges, not_or, Bool.not_eq_true] at hnot
    obtain ⟨hasync, hqueue⟩ := hnot
    obtain ⟨call, k, hstack, hname⟩ := hhandled.again hasync
    refine invoke_joins (c := onStore store' (σ'.client j)) (k := k) hstack ?_ hc
    rw [hname]
    rw [← hhandled.queue] at hqueue
    exact hqueue

/-- A store that holds a token for the wallet. -/
def walletStore : TokenManager := TokenManager.empty.saveToken (qstr "wallet") (qstr "t1")

abbrev walletClients : TransitionSystem (Clients Unit) (Unit × Program.Action Op Oracle) :=
  clients (fun _ => app) walletStore

/-- Two calls to the wallet are sent with that token. -/
def sentWallet : Clients Unit :=
  (TransitionSystem.exec (Clients.next fun _ => app)
    ⟨walletStore, fun _ => ⟨{ store := walletStore }, []⟩⟩
    [((), .call (.invokeRemoteMethodAsync getBalance (some 7)) {}), ((), .step {}),
      ((), .call (.invokeRemoteMethodAsync getBalance (some 8)) {}), ((), .step {})]).get rfl

/-- One of them is rejected. -/
def rejectedWallet : Clients Unit :=
  (Clients.next (fun _ => app) sentWallet
    ((), .call (.result 1 makeUnauthorizedSentinel {}) {})).get rfl

/-- It is made again, with the token that is granted for it. -/
def madeAgainWallet : Clients Unit :=
  (TransitionSystem.exec (Clients.next fun _ => app) rejectedWallet
    [((), .step {}), ((), .step { id := 1 }), ((), .call (.ready 5 true) {}), ((), .step {}),
      ((), .call (.reply 6 (qstr "t2")) {}), ((), .step {}), ((), .step {})]).get rfl

/-- The first rejection is harmless, and no other call re-exchanges the token. -/
theorem rejection_harmless_first :
    Harmless walletStore ⟨0, qstr "wallet", qstr "t1", false⟩ (rejectedWallet.seen ()) ∧
      Spent (fun _ : Unit => app) walletStore (qstr "wallet") (qstr "t1") rejectedWallet := by
  have hstep : Clients.next (fun _ => app) sentWallet
    ((), .call (.result 1 makeUnauthorizedSentinel {}) {}) = some rejectedWallet := rfl
  have hq : rejection app (sentWallet.seen ()) (.call (.result 1 makeUnauthorizedSentinel {}) {}) =
    some ⟨0, qstr "wallet", qstr "t1", false⟩ := rfl
  obtain ⟨hiff, hspent, -⟩ := rejection_harmless_iff walletStore hstep hq
  refine ⟨hiff.mpr ?_, hspent (by decide)⟩
  intro q hq
  cases hq
  exact .inl rfl

/-- A token was granted for a target after a call was sent to it with another. -/
def GrantedAfter (c : Client) (q : Rejection) (t : QString) : Prop :=
  ∃ ks, [.dispatched q.number q.objectName q.token,
    .drained q.objectName ks .minted t true].Sublist c.log

/-- The rejection of the other call comes then, and the token that was granted is removed. -/
theorem fresh_token_removed : ¬ ∀ σ j a σ' q, walletClients.Reachable σ →
    Clients.next (fun _ => app) σ (j, a) = some σ' → rejection app (σ.seen j) a = some q →
    ∀ t, t ≠ q.token → GrantedAfter (σ.client j).data q t →
      (a.answer.others σ.store).getToken q.objectName = t → σ'.store.getToken q.objectName = t := by
  have hinit : walletClients.Reachable ⟨walletStore, fun _ => ⟨{ store := walletStore }, []⟩⟩ :=
    .init rfl
  have hsent : walletClients.Reachable sentWallet := by
    have hexec : TransitionSystem.exec (Clients.next fun _ => app)
      ⟨walletStore, fun _ => ⟨{ store := walletStore }, []⟩⟩
      [((), .call (.invokeRemoteMethodAsync getBalance (some 7)) {}), ((), .step {}),
        ((), .call (.invokeRemoteMethodAsync getBalance (some 8)) {}), ((), .step {})] =
          some sentWallet := rfl
    exact hinit.of_exec hexec
  have hrejected : walletClients.Reachable rejectedWallet :=
    hsent.step (a := ((), .call (.result 1 makeUnauthorizedSentinel {}) {})) rfl
  have hagain : walletClients.Reachable madeAgainWallet := by
    have hexec : TransitionSystem.exec (Clients.next fun _ => app) rejectedWallet
      [((), .step {}), ((), .step { id := 1 }), ((), .call (.ready 5 true) {}), ((), .step {}),
        ((), .call (.reply 6 (qstr "t2")) {}), ((), .step {}), ((), .step {})] =
          some madeAgainWallet := rfl
    exact hrejected.of_exec hexec
  intro hall
  have hgranted : GrantedAfter (madeAgainWallet.client ()).data
      ⟨2, qstr "wallet", qstr "t1", false⟩ (qstr "t2") := by
    refine ⟨[4], ?_⟩
    have hlog : (madeAgainWallet.client ()).data.log =
        [.dispatched 0 (qstr "wallet") (qstr "t1")] ++
        [.dispatched 2 (qstr "wallet") (qstr "t1")] ++
        [.rejected 0 (qstr "wallet") (qstr "t1"), .queued 4 (qstr "wallet"),
          .exchanged (qstr "wallet")] ++
        [.drained (qstr "wallet") [4] .minted (qstr "t2") true] ++
        [.ran 4 (qstr "t2") true, .dispatched 0 (qstr "wallet") (qstr "t2")] := rfl
    rw [hlog]
    simp
  have hkept := hall madeAgainWallet () (.call (.result 3 makeUnauthorizedSentinel {}) {}) _
    ⟨2, qstr "wallet", qstr "t1", false⟩ hagain rfl rfl (qstr "t2") (by decide) hgranted rfl
  revert hkept
  decide

end runs

end LogosProtocol.ApiClient
