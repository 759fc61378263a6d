import LogosProtocol.Client.Continuations

/-!
# One exchange for a target

Asynchronous calls share one exchange: a queue waits for it.  A synchronous call looks at the
token alone, so its exchange overlaps with any that is outstanding already, and an asynchronous
one that begins while it waits in its event loop overlaps with it.

## Main definitions

* `outstanding` — the exchanges for a target that are not answered, of both paths.
* `Apart` — the condition on a step under which no two overlap.
-/

namespace LogosProtocol.ApiClient

/-- A synchronous call waits in `requestModule` for a target. -/
def Instr.minting (x : QString) : Instr → Bool
  | .mint call _ _ => call.objectName = x
  | _ => false

/-- The synchronous exchanges for a target. -/
def minting (k : List Instr) (x : QString) : ℕ := (k.filter (Instr.minting x)).length

/-- The exchanges for a target that are not answered. -/
def outstanding (c : Client) (k : List Instr) (x : QString) : ℕ :=
  (c.exchanging x).length + minting k x

/-- The target for which a synchronous call goes on to ask for a token. -/
def Instr.asks (s : Setup) (c : Client) (o : Oracle) : Instr → Option QString
  | .ensureTarget call _ =>
    if o.found ∧ (c.pass o).getToken call.objectName = [] then some call.objectName else none
  | .callTarget call _ retried =>
    if ¬ retried ∧ s.eligible call.objectName ∧ isUnauthorizedSentinel o.value then
      some call.objectName
    else none
  | _ => none

/-- A synchronous call that misses its token, or is rejected, has the target for itself: no
asynchronous exchange is in flight and no other call waits for a token.  A target that waits for
its readiness becomes ready while no synchronous call waits for its token. -/
def Apart (s : Setup) (c : Program.Config Client Instr) : Program.Action Op Oracle → Prop
  | .call (.ready n true) _ => ∀ w, c.data.waitOf n = some w → w.done = false →
    ∀ i ∈ c.stack, i.minting w.objectName = false
  | .call _ _ => True
  | .step o => ∀ i k x, c.stack = i :: k → i.asks s c.data o = some x →
    c.data.exchanges.all (fun e => e.objectName ≠ x) ∧ ∀ i ∈ k, i.minting x = false

/-! ## What a step begins and ends -/

section minting
variable {s : Setup} {c : Client} {k : List Instr} {o : Oracle} {r : Client × List Instr}

theorem minting_append (l k : List Instr) (x : QString) :
    minting (l ++ k) x = minting l x + minting k x := by
  simp [minting]

theorem minting_eq_zero {x : QString} : minting k x = 0 ↔ ∀ i ∈ k, i.minting x = false := by
  simp [minting, List.filter_eq_nil_iff]

theorem exchanging_eq_nil {x : QString} :
    c.exchanging x = [] ↔ c.exchanges.all (fun e => e.objectName ≠ x) = true := by
  simp [Client.exchanging, List.filter_eq_nil_iff]

theorem minting_mint (call : SyncCall) (timeout : Int) (retried : Bool) (x : QString) :
    minting [.mint call timeout retried] x = if call.objectName = x then 1 else 0 := by
  by_cases hx : call.objectName = x <;> simp [minting, Instr.minting, hx]

/-! Only the synchronous path leaves a call to wait in `requestModule`. -/

@[simp] theorem minting_drain (c : Client) (name : QString) (edge : Edge) (token : QString)
    (reachable : Bool) (x : QString) :
    minting (c.drainPendingHandshakes name edge token reachable).2 x = 0 := by
  simp only [Client.drainPendingHandshakes]
  cases c.pendingHandshakes.lookup name with
  | none => rfl
  | some calls => simp [minting_eq_zero, Instr.minting]

@[simp] theorem minting_onResult (s : Setup) (c : Client) (call : AsyncCall) (sent : QString)
    (value : QVariant) (err : CallError) (x : QString) :
    minting (c.onResult s call sent value err).2 x = 0 := by
  simp only [Client.onResult]
  split_ifs <;> rfl

@[simp] theorem minting_invoke (s : Setup) (c : Client) (call : AsyncCall) (x : QString) :
    minting (c.invokeRemoteMethodAsyncImpl s call).2 x = 0 := by
  simp only [Client.invokeRemoteMethodAsyncImpl]
  split_ifs <;> rfl

theorem minting_registered {n id : ℕ} (hr : c.registered n id = some r) (x : QString) :
    minting r.2 x = 0 := by
  obtain ⟨w, -, rfl⟩ := Option.map_eq_some_iff.mp hr
  split_ifs
  · rfl
  · exact minting_drain _ _ _ _ _ x
  · rfl

@[simp] theorem exchanges_drain (c : Client) (name : QString) (edge : Edge) (token : QString)
    (reachable : Bool) :
    (c.drainPendingHandshakes name edge token reachable).1.exchanges = c.exchanges := by
  simp only [Client.drainPendingHandshakes]
  cases c.pendingHandshakes.lookup name <;> rfl

@[simp] theorem exchanges_finishReadiness (c : Client) (name : QString) :
    (c.finishReadiness name).exchanges = c.exchanges := by
  simp only [Client.finishReadiness]
  cases c.pendingReadiness.lookup name <;> rfl

/-- An instruction neither begins nor ends an asynchronous exchange. -/
theorem Change.exchanges {l l' : List Instr} {c' : Client} (h : Change c l c' l') (hl : l ≠ []) :
    c'.exchanges = c.exchanges := by
  cases h with
  | quiet hquiet => exact hquiet.exchanges
  | wait | start | arm => rfl
  | expire | grant | mint => exact absurd rfl hl
  | refuse w => exact exchanges_drain (c.close w _) _ _ _ _
  | run k' token reachable hquiet => exact hquiet.exchanges

/-- What an instruction leaves to wait in `requestModule`. -/
theorem minting_exec {i : Instr} (hexec : exec s c i o = some r) (x : QString) :
    minting r.2 x = if i.asks s c o = some x then 1 else 0 := by
  cases i with
  | callback | transport =>
    cases hexec
    rfl
  | registering n => exact minting_registered hexec x
  | invoke call =>
    cases hexec
    exact minting_invoke s _ call x
  | run k' token reachable =>
    cases hexec
    cases reachable with
    | true => rfl
    | false => exact minting_onResult s _ _ _ _ _ x
  | ensureTarget call start =>
    cases hexec
    by_cases hfound : o.found = true
    · by_cases htoken : (c.pass o).getToken call.objectName = []
      · simp [Client.ensured, Instr.asks, hfound, htoken, Client.mintAndCacheToken, minting_mint]
      · simp [Client.ensured, Instr.asks, hfound, htoken, Client.callTarget, minting, Instr.minting]
    · simp [Client.ensured, Instr.asks, hfound, Client.returns, minting]
  | mint call timeout retried =>
    cases hexec
    have hasks : Instr.asks s c o (.mint call timeout retried) = none := rfl
    simp only [Client.minted, hasks, reduceCtorEq, if_false]
    split_ifs <;> rfl
  | callTarget call token retried =>
    cases hexec
    simp only [Client.returned]
    by_cases hrejected : ¬ retried = true ∧ s.eligible call.objectName = true ∧
        isUnauthorizedSentinel o.value = true
    · have hasks : Instr.asks s c o (.callTarget call token retried) = some call.objectName :=
        if_pos hrejected
      simp only [if_pos hrejected, hasks, Option.some.injEq]
      exact minting_mint call _ true x
    · have hasks : Instr.asks s c o (.callTarget call token retried) = none := if_neg hrejected
      simp only [if_neg hrejected, hasks, reduceCtorEq, if_false]
      split_ifs <;> rfl

/-- The exchanges after an instruction. -/
theorem outstanding_exec {i : Instr} (hbooks : Books c (i :: k)) (hexec : exec s c i o = some r)
    (x : QString) : outstanding r.1 (r.2 ++ k) x =
      (c.exchanging x).length + (if i.asks s c o = some x then 1 else 0) + minting k x := by
  obtain ⟨c₁, hquiet, hchange⟩ := exec_change hbooks hexec
  have hexchanges : r.1.exchanges = c.exchanges :=
    (hchange.exchanges (List.cons_ne_nil _ _)).trans hquiet.exchanges
  rw [outstanding, Client.exchanging, hexchanges, minting_append, minting_exec hexec, Nat.add_assoc]
  rfl

/-- A readiness answer begins an exchange if the wait is not over. -/
theorem ready_exchanges {n : ℕ} (hr : c.ready n true = some r) :
    ∃ w, c.waitOf n = some w ∧ ∀ x, minting r.2 x = 0 ∧ (r.1.exchanging x).length =
      (c.exchanging x).length + if w.done = false ∧ w.objectName = x then 1 else 0 := by
  obtain ⟨w, hw, rfl⟩ := Option.map_eq_some_iff.mp hr
  refine ⟨w, hw, fun x => ?_⟩
  cases hdone : w.done with
  | true =>
    simp only [if_true]
    exact ⟨rfl, by simp⟩
  | false =>
    simp only [Bool.false_eq_true, if_false, if_true]
    refine ⟨rfl, ?_⟩
    by_cases hx : w.objectName = x <;>
      simp [Client.startCapabilityHandshake, Client.emit, Client.exchanging, Client.setWait, hx]

/-- Other calls, and what else the event loop delivers, begin none. -/
theorem call_exchanges {op : Op} (hcall : call s c op o = some r) (hop : ∀ n, op ≠ .ready n true) :
    r.1.exchanges.Sublist c.exchanges ∧ ∀ x, minting r.2 x = 0 := by
  cases op with
  | invokeRemoteMethod request hasErr =>
    cases hcall
    simp only [Client.invokeRemoteMethod]
    split_ifs <;> exact ⟨.refl _, fun x => rfl⟩
  | invokeRemoteMethodAsync request callback =>
    cases callback with
    | none =>
      cases hcall
      exact ⟨.refl _, fun x => rfl⟩
    | some callback =>
      cases hcall
      refine ⟨?_, fun x => minting_invoke s _ _ x⟩
      simp only [Client.invokeRemoteMethodAsyncImpl]
      split_ifs <;> exact .refl _
  | ready n ready =>
    cases ready with
    | true => exact absurd rfl (hop n)
    | false =>
      obtain ⟨w, -, rfl⟩ := Option.map_eq_some_iff.mp hcall
      simp only [Bool.false_eq_true, if_false]
      split_ifs
      · exact ⟨.refl _, fun x => rfl⟩
      · simp only [exchanges_drain, exchanges_finishReadiness, minting_drain, implies_true, and_true]
        exact .refl _
  | deadline n =>
    obtain ⟨w, -, hr⟩ := Option.bind_eq_some_iff.mp hcall
    simp only [Option.ite_none_right_eq_some] at hr
    obtain ⟨-, hr⟩ := hr
    split_ifs at hr
    · cases hr
      exact ⟨.refl _, fun x => rfl⟩
    · cases hr
      simp only [exchanges_drain, exchanges_finishReadiness, minting_drain, implies_true, and_true]
      exact .refl _
  | reply n token =>
    obtain ⟨e, -, rfl⟩ := Option.map_eq_some_iff.mp hcall
    simp only [exchanges_drain, minting_drain, implies_true, and_true]
    exact List.eraseP_sublist
  | result n value err =>
    obtain ⟨d, -, rfl⟩ := Option.map_eq_some_iff.mp hcall
    refine ⟨?_, fun x => minting_onResult s _ _ _ _ _ x⟩
    rw [(quiet_onResult s _ _ _ _ _).1.exchanges]
    exact .refl _

end minting

/-! ## No two overlap -/

section overlap
variable {s : Setup} {store : TokenManager} {c c' : Program.Config Client Instr}
  {a : Program.Action Op Oracle}

/-- One exchange for a target stays one if and only if the step keeps the paths apart. -/
theorem outstanding_next (h : Handshakes c.data c.stack)
    (hone : ∀ x, outstanding c.data c.stack x ≤ 1) (hstep : (program s store).next c a = some c') :
    (∀ x, outstanding c'.data c'.stack x ≤ 1) ↔ Apart s c a := by
  -- The asynchronous path by itself.
  have hflight : ∀ x, (c'.data.exchanging x).length ≤ 1 := by
    intro x
    have hone := (h.next hstep).2.runsOnce.oneFlight x
    split_ifs at hone <;> omega
  simp only [outstanding] at hone ⊢
  cases a with
  | call op o =>
    obtain ⟨r, hr, rfl⟩ := Program.next_call hstep
    simp only [minting_append]
    dsimp only at hflight
    by_cases hop : ∃ n, op = .ready n true
    · obtain ⟨n, rfl⟩ := hop
      obtain ⟨w, hw, hready⟩ := ready_exchanges hr
      have hlength : ∀ x, (r.1.exchanging x).length = (c.data.exchanging x).length +
          if w.done = false ∧ w.objectName = x then 1 else 0 := fun x => (hready x).2
      have hnone : ∀ x, minting r.2 x = 0 := fun x => (hready x).1
      constructor
      · intro hall w' hw' hopen
        obtain rfl : w = w' := Option.some.inj (hw.symm.trans hw')
        have hafter := hall w.objectName
        rw [hlength, if_pos ⟨hopen, rfl⟩] at hafter
        exact minting_eq_zero.mp (by omega)
      · intro hapart x
        by_cases hopen : w.done = false ∧ w.objectName = x
        · obtain ⟨hopen, rfl⟩ := hopen
          have hk := minting_eq_zero.mpr (hapart w hw hopen)
          have hafter := hflight w.objectName
          have hr₂ := hnone w.objectName
          omega
        · have hbefore := hone x
          have hafter := hlength x
          have hr₂ := hnone x
          rw [if_neg hopen] at hafter
          omega
    · have hapart : Apart s c (.call op o) := by
        cases op with
        | ready n b =>
          cases b with
          | true => exact absurd ⟨n, rfl⟩ hop
          | false => trivial
        | _ => trivial
      obtain ⟨hsub, hnone⟩ := call_exchanges hr fun n hn => hop ⟨n, hn⟩
      refine ⟨fun _ => hapart, fun _ x => ?_⟩
      have hlength : (r.1.exchanging x).length ≤ (c.data.exchanging x).length :=
        ((hsub.filter _).map _).length_le
      have hbefore := hone x
      have hr₂ := hnone x
      omega
  | step o =>
    obtain ⟨i, k, r, hstack, hr, rfl⟩ := Program.next_step hstep
    rw [hstack] at h hone
    have hafter := outstanding_exec h.books hr
    simp only [outstanding] at hafter
    constructor
    · rintro hall i' k' x hstack' hasks
      obtain ⟨rfl, rfl⟩ := List.cons.inj (hstack.symm.trans hstack')
      have hx := hall x
      rw [hafter, if_pos hasks] at hx
      exact ⟨exchanging_eq_nil.mp (List.length_eq_zero_iff.mp (by omega)),
        minting_eq_zero.mp (by omega)⟩
    · intro hapart x
      rw [hafter]
      split_ifs with hasks
      · obtain ⟨hexch, hk⟩ := hapart i k x hstack hasks
        rw [exchanging_eq_nil.mpr hexch, minting_eq_zero.mpr hk]
        rfl
      · have hbefore := hone x
        rw [← List.singleton_append, minting_append] at hbefore
        omega

/-- **One exchange for a target.**  In every run that keeps the paths apart; the next step leads
to a second one if and only if it does not. -/
theorem one_exchange_iff (h : ((program s store).system.restrict (Apart s)).Reachable c) :
    (∀ x, outstanding c.data c.stack x ≤ 1) ∧
      ∀ a c', (program s store).next c a = some c' →
        ((∀ x, outstanding c'.data c'.stack x ≤ 1) ↔ Apart s c a) := by
  have hall : ∀ x, outstanding c.data c.stack x ≤ 1 := by
    have hinv := h.invariant (I := fun c => Handshakes c.data c.stack ∧
      ∀ x, outstanding c.data c.stack x ≤ 1) ?_ ?_
    · exact hinv.2
    · rintro c rfl
      exact ⟨handshakes_initial store, fun x => Nat.zero_le 1⟩
    · rintro c a c' ⟨hc, hone⟩ ⟨hstep, hapart⟩
      exact ⟨(hc.next hstep).2, (outstanding_next hc hone hstep).mpr hapart⟩
  exact ⟨hall, fun a c' hstep =>
    outstanding_next (handshakes_of_reachable h.of_restrict) hall hstep⟩

/-- A synchronous call comes while the exchange of the queued calls is outstanding. -/
def askingWallet : Program.Config Client Instr :=
  ((program app .empty).next exchangingWallet (.call (.invokeRemoteMethod getBalance true) {})).get rfl

/-- It finds the wallet, and no token. -/
def overlappingWallet : Program.Config Client Instr :=
  ((program app .empty).next askingWallet (.step { found := true })).get rfl

/-- Two exchanges for the wallet are outstanding. -/
theorem exchanges_overlap : (program app .empty).system.Reachable overlappingWallet ∧
    outstanding overlappingWallet.data overlappingWallet.stack (qstr "wallet") = 2 ∧
    ¬ ∀ c, (program app .empty).system.Reachable c → ∀ x, outstanding c.data c.stack x ≤ 1 := by
  have hasking : (program app .empty).system.Reachable askingWallet :=
    exchangingWallet_reachable.step (a := .call (.invokeRemoteMethod getBalance true) {}) rfl
  have hoverlap : (program app .empty).system.Reachable overlappingWallet :=
    hasking.step (a := .step { found := true }) rfl
  have htwo : outstanding overlappingWallet.data overlappingWallet.stack (qstr "wallet") = 2 := rfl
  refine ⟨hoverlap, htwo, fun hall => ?_⟩
  have hone := hall _ hoverlap (qstr "wallet")
  omega

/-- Up to there the paths are apart, and the next step is not. -/
theorem one_exchange_asking :
    (∀ x, outstanding askingWallet.data askingWallet.stack x ≤ 1) ∧
      ((∀ x, outstanding overlappingWallet.data overlappingWallet.stack x ≤ 1) ↔
        Apart app askingWallet (.step { found := true })) := by
  have hidle : ∀ (c : Program.Config Client Instr) (o : Oracle),
      (∀ i ∈ c.stack.head?, i.asks app c.data o = none) → Apart app c (.step o) := by
    intro c o hnone i k x hstack hasks
    rw [hnone i (by simp [hstack])] at hasks
    cases hasks
  have hinit : ((program app .empty).system.restrict (Apart app)).Reachable ⟨{}, []⟩ := .init rfl
  have hfirst := hinit.next (.call (.invokeRemoteMethodAsync getBalance (some 7)) {}) trivial rfl
  have hsecond := hfirst.next (.call (.invokeRemoteMethodAsync getBalance (some 8)) {}) trivial rfl
  have harmed := hsecond.next (.step { id := 1 }) (hidle _ _ fun i hi => by cases hi; rfl) rfl
  have hready := harmed.next (.call (.ready 2 true) {}) (fun w _ _ i hi => by cases hi) rfl
  have hsent := hready.next (.step {}) (hidle _ _ fun i hi => by cases hi; rfl) rfl
  have hasking : ((program app .empty).system.restrict (Apart app)).Reachable askingWallet :=
    hsent.next (.call (.invokeRemoteMethod getBalance true) {}) trivial rfl
  obtain ⟨hone, hnext⟩ := one_exchange_iff hasking
  exact ⟨hone, hnext (.step { found := true }) overlappingWallet rfl⟩

end overlap

end LogosProtocol.ApiClient
