import LogosProtocol.Async.AsyncCall
import LogosProtocol.Lib.OneShotGate

/-!
# Every asynchronous call is delivered once

The claim of `delivered` is a one-shot gate with the resolvers of the call as contenders;
what is handed over is the callback.  So a callback is handed to `postDelivery` at most
once, and a `deliver()` that has returned leaves a call that was handed over or a winner on
its way to do so: the loser of the claim does not wait for the winner.

That no call is lost is about the registries.  A call leaves `inflight` in the hands of a
`deliver()` or of teardown, and each of these goes on to the claim.

## Main definitions

* `AsyncCall.Sound` — what holds of each call by itself.
* `Inv` — what holds of the handle.
-/

namespace LogosProtocol

namespace Async

/-- Behind the gate. -/
def DeliverPc.Won : DeliverPc → Prop
  | claimed _ => True
  | took _ _ => True
  | withdrew _ _ => True
  | cancelled _ _ => True
  | _ => False

/-- The callback was still there when it was swapped out. -/
def DeliverPc.Carries : DeliverPc → Prop
  | took cb _ => cb = true
  | withdrew cb _ => cb = true
  | cancelled cb _ => cb = true
  | _ => True

/-- Out of the registries, and the callback not handed over. -/
def DeliverPc.UnderWay : DeliverPc → Prop
  | left _ => True
  | pc => pc.Won

theorem DeliverPc.Won.underWay {pc : DeliverPc} (h : pc.Won) : pc.UnderWay := by
  cases pc with
  | left o => trivial
  | _ => exact h

namespace AsyncCall

/-- Where a resolver stands that may call `deliver()`. -/
def Entitled (call : AsyncCall) : Resolver → Prop
  | .caller => call.caller = .refused
  | .reply => call.handler = .returned
  | _ => True

/-- What holds of each call by itself. -/
structure Sound (call : AsyncCall) : Prop where
  gate : OneShot call.delivered (fun r => (call.resolver r).Won) call.posted.length
  /-- The callback is swapped out behind the gate. -/
  swapped : call.callback = false →
    call.delivered = true ∧ ∀ r o, call.resolver r ≠ .claimed o
  carries : ∀ r, (call.resolver r).Carries
  completed : 0 < call.completed → call.delivered = true
  entitled : ∀ r, call.resolver r ≠ .idle → call.Entitled r
  /-- The handler is registered by the send. -/
  sent : call.handler ≠ .unregistered → call.caller = .returned

/-- The call was put in `inflight`. -/
def WasRegistered (call : AsyncCall) : Prop :=
  call.caller = .registered ∨ call.caller = .returned

/-- Some `deliver()` has left the registries, and with it the way to the claim is open. -/
def Resolving (call : AsyncCall) : Prop :=
  call.delivered = true ∨ ∃ r o, call.resolver r = .left o

@[simp] theorem resolver_setResolver_self (call : AsyncCall) (r : Resolver) (pc : DeliverPc) :
    (call.setResolver r pc).resolver r = pc := Function.update_self ..

theorem resolver_setResolver_of_ne (call : AsyncCall) {r r' : Resolver} (h : r' ≠ r)
    (pc : DeliverPc) : (call.setResolver r pc).resolver r' = call.resolver r' :=
  Function.update_of_ne h ..

/-- What holds of every resolver still does after one has moved. -/
theorem forall_setResolver (P : Resolver → DeliverPc → Prop) {call : AsyncCall} {r : Resolver}
    {pc : DeliverPc} (hself : P r pc) (hothers : ∀ r', r' ≠ r → P r' (call.resolver r'))
    (r' : Resolver) : P r' ((call.setResolver r pc).resolver r') := by
  by_cases hr : r' = r
  · rw [hr, resolver_setResolver_self]
    exact hself
  · rw [resolver_setResolver_of_ne call hr]
    exact hothers r' hr

/-- Whether a resolver may call `deliver()` is up to the caller and the handler. -/
theorem Entitled.congr {call call' : AsyncCall} {r : Resolver} (h : call.Entitled r)
    (hcaller : call'.caller = call.caller) (hhandler : call'.handler = call.handler) :
    call'.Entitled r := by
  cases r with
  | caller => exact hcaller.trans h
  | reply => exact hhandler.trans h
  | _ => trivial

theorem sound_initial : ({} : AsyncCall).Sound where
  gate := OneShot.fresh fun _ => id
  swapped := by simp
  carries _ := trivial
  completed := by simp
  entitled := by simp
  sent := by simp

/-! ### One step of one call -/

section steps
variable {call call' : AsyncCall} {r : Resolver}

/-- The callback is there until the claim. -/
theorem Sound.callback_of_open (h : call.Sound) (hopen : call.delivered = false) :
    call.callback = true := by
  by_contra hswapped
  have hdelivered := (h.swapped (by simpa using hswapped)).1
  rw [hopen] at hdelivered
  cases hdelivered

/-- A resolver moves without passing the gate. -/
theorem Sound.setResolver (h : call.Sound) (r : Resolver) {pc : DeliverPc}
    (hwon : pc.Won ↔ (call.resolver r).Won) (hcarries : pc.Carries)
    (hclaimed : ∀ o, pc = .claimed o → call.callback = true)
    (hentitled : pc ≠ .idle → call.Entitled r) : (call.setResolver r pc).Sound where
  gate := by
    apply h.gate.congr
    exact forall_setResolver (fun r' pc => pc.Won ↔ (call.resolver r').Won) hwon
      fun _ _ => Iff.rfl
  swapped hswapped := by
    have hfalse : call.callback = false := hswapped
    obtain ⟨hdelivered, hnone⟩ := h.swapped hfalse
    refine ⟨hdelivered, ?_⟩
    apply forall_setResolver fun _ pc => ∀ o, pc ≠ .claimed o
    · intro o hpc
      rw [hclaimed o hpc] at hfalse
      cases hfalse
    · exact fun r' _ => hnone r'
  carries := forall_setResolver (fun _ pc => pc.Carries) hcarries fun r' _ => h.carries r'
  completed := h.completed
  entitled := by
    apply forall_setResolver fun r' pc => pc ≠ .idle → AsyncCall.Entitled _ r'
    · exact fun hne => (hentitled hne).congr rfl rfl
    · exact fun r' _ hne => (h.entitled r' hne).congr rfl rfl
  sent := h.sent

/-- A resolver that may do so calls `deliver()`. -/
theorem Sound.deliver (h : call.Sound) (hidle : call.resolver r = .idle)
    (hentitled : call.Entitled r) (o : Outcome) : (call.deliver r o).Sound := by
  apply h.setResolver r
  · rw [hidle]
    exact Iff.rfl
  · trivial
  · intro o' hpc
    cases hpc
  · intro _
    exact hentitled

/-- The timer does not matter, and the caller and the handler only for what they entitle
to. -/
theorem Sound.congr (h : call.Sound) (call' : AsyncCall)
    (hdelivered : call'.delivered = call.delivered) (hresolver : call'.resolver = call.resolver)
    (hposted : call'.posted = call.posted) (hcallback : call'.callback = call.callback)
    (hcompleted : call'.completed = call.completed)
    (hentitled : ∀ r, call.resolver r ≠ .idle → call.Entitled r → call'.Entitled r)
    (hsent : call'.handler ≠ .unregistered → call'.caller = .returned) : call'.Sound where
  gate := by
    rw [hdelivered, hresolver, hposted]
    exact h.gate
  swapped := by
    rw [hdelivered, hresolver, hcallback]
    exact h.swapped
  carries := by
    rw [hresolver]
    exact h.carries
  completed := by
    rw [hcompleted, hdelivered]
    exact h.completed
  entitled r hr := by
    rw [hresolver] at hr
    exact hentitled r hr (h.entitled r hr)
  sent := hsent

/-- What is posted and pending on the timer does not matter. -/
theorem Sound.setTimer (h : call.Sound) (strand : List TimerTask) (timer : Option Int) :
    { call with strand := strand, timer := timer }.Sound := by
  apply h.congr { call with strand := strand, timer := timer } rfl rfl rfl rfl rfl
  · intro r _ hentitled
    exact hentitled.congr rfl rfl
  · exact h.sent

/-- The reply handler moves on before it has called `deliver()`. -/
theorem Sound.setHandler (h : call.Sound) (hactive : call.handler.Active)
    (handler : HandlerPc) : { call with handler := handler }.Sound := by
  apply h.congr { call with handler := handler } rfl rfl rfl rfl rfl
  · intro r hr hentitled
    cases r with
    | reply =>
      have hreturned : call.handler = .returned := hentitled
      rw [hreturned] at hactive
      cases hactive
    | _ => exact hentitled
  · intro _
    apply h.sent
    intro hunregistered
    rw [hunregistered] at hactive
    cases hactive

/-- Until the handler has returned, its resolver is idle. -/
theorem Sound.reply_idle (h : call.Sound) (hactive : call.handler.Active) :
    call.resolver .reply = .idle := by
  by_contra hne
  have hreturned : call.handler = .returned := h.entitled .reply hne
  rw [hreturned] at hactive
  cases hactive

theorem Sound.caller_idle (h : call.Sound) (hnot : call.caller ≠ .refused) :
    call.resolver .caller = .idle := by
  by_contra hne
  exact hnot (h.entitled .caller hne)

/-- Until `callAsync` has sent the call, its handler is not registered. -/
theorem Sound.unregistered (h : call.Sound) (hunsent : call.caller ≠ .returned) :
    call.handler = .unregistered := by
  by_contra hne
  exact hunsent (h.sent hne)

/-- `callAsync` moves on. -/
theorem Sound.setCaller (h : call.Sound) (hrefused : call.caller ≠ .refused)
    (hunsent : call.caller ≠ .returned) (method : Bytes) (timeoutMs : Int) (caller : CallerPc)
    (handler : HandlerPc) (hsent : handler ≠ .unregistered → caller = .returned) :
    { call with
      method := method, timeoutMs := timeoutMs, caller := caller, handler := handler }.Sound := by
  apply h.congr
    { call with method := method, timeoutMs := timeoutMs, caller := caller, handler := handler }
    rfl rfl rfl rfl rfl
  · intro r hr hentitled
    cases r with
    | caller => exact absurd hentitled hrefused
    | reply =>
      have hreturned : call.handler = .returned := hentitled
      rw [h.unregistered hunsent] at hreturned
      cases hreturned
    | _ => exact hentitled
  · exact hsent

@[simp] theorem resolver_cancelPending (call : AsyncCall) :
    call.cancelPending.resolver = call.resolver := by
  unfold AsyncCall.cancelPending
  split <;> rfl

@[simp] theorem delivered_cancelPending (call : AsyncCall) :
    call.cancelPending.delivered = call.delivered := by
  unfold AsyncCall.cancelPending
  split <;> rfl

@[simp] theorem caller_cancelPending (call : AsyncCall) :
    call.cancelPending.caller = call.caller := by
  unfold AsyncCall.cancelPending
  split <;> rfl

theorem Sound.cancelPending (h : call.Sound) : call.cancelPending.Sound := by
  unfold AsyncCall.cancelPending
  split
  · rename_i hpending
    have hactive : call.handler.Active := by simp [hpending, HandlerPc.Active]
    exact h.setHandler hactive _
  · exact h

/-- A `deliver()` goes on without passing the gate. -/
theorem Sound.setPast (h : call.Sound) {pc pc' : DeliverPc} (hpc : call.resolver r = pc)
    (hbusy : pc ≠ .idle) (hwon : pc'.Won ↔ pc.Won) (hcarries : pc'.Carries)
    (hclaimed : ∀ o, pc' = .claimed o → call.callback = true) : (call.setResolver r pc').Sound := by
  have hne : call.resolver r ≠ .idle := by rwa [hpc]
  apply h.setResolver r
  · rwa [hpc]
  · exact hcarries
  · exact hclaimed
  · intro _
    exact h.entitled r hne

/-- The loser of the claim returns. -/
theorem Sound.lose (h : call.Sound) {o : Outcome} (hpc : call.resolver r = .left o)
    (hdelivered : call.delivered = true) : (call.complete r).Sound := by
  have hidle : (call.setResolver r .idle).Sound := by
    apply h.setPast hpc
    · simp
    · exact Iff.rfl
    · trivial
    · intro o' hpc'
      cases hpc'
  exact ⟨hidle.gate, hidle.swapped, hidle.carries, fun _ => hdelivered, hidle.entitled, h.sent⟩

/-- The winner passes the gate. -/
theorem Sound.claim (h : call.Sound) {o : Outcome} (hpc : call.resolver r = .left o)
    (hopen : call.delivered = false) :
    { call.setResolver r (.claimed o) with delivered := true }.Sound := by
  have hgate := h.gate
  rw [hopen] at hgate
  have hcallback := h.callback_of_open hopen
  have hentitled := h.entitled r (by simp [hpc])
  constructor
  case gate =>
    apply hgate.enter r
    · show ((call.setResolver r (.claimed o)).resolver r).Won
      rw [resolver_setResolver_self]
      trivial
    · intro r' hr
      show ((call.setResolver r (.claimed o)).resolver r').Won ↔ _
      rw [resolver_setResolver_of_ne call hr]
  case swapped =>
    intro hswapped
    have hfalse : call.callback = false := hswapped
    rw [hcallback] at hfalse
    cases hfalse
  case carries =>
    exact forall_setResolver (fun _ pc => pc.Carries) trivial fun r' _ => h.carries r'
  case completed => exact fun _ => rfl
  case entitled =>
    apply forall_setResolver fun r' pc => pc ≠ .idle → AsyncCall.Entitled _ r'
    · exact fun _ => hentitled.congr rfl rfl
    · exact fun r' _ hne => (h.entitled r' hne).congr rfl rfl
  case sent => exact h.sent

/-- The winner swaps the callback out. -/
theorem Sound.takeCallback (h : call.Sound) {o : Outcome} (hpc : call.resolver r = .claimed o) :
    { call.setResolver r (.took call.callback o) with callback := false }.Sound := by
  have hcallback : call.callback = true := by
    by_contra hswapped
    exact (h.swapped (by simpa using hswapped)).2 r o hpc
  have hwon : (call.resolver r).Won := by
    rw [hpc]
    trivial
  have hmoved : (call.setResolver r (.took call.callback o)).Sound := by
    apply h.setPast hpc
    · simp
    · exact Iff.rfl
    · exact hcallback
    · intro o' hpc'
      cases hpc'
  refine ⟨hmoved.gate, ?_, hmoved.carries, hmoved.completed, ?_, h.sent⟩
  · intro _
    refine ⟨(h.gate.eq_held hwon).1, ?_⟩
    apply forall_setResolver fun _ pc => ∀ o', pc ≠ .claimed o'
    · simp
    · intro r' hr o' hpc'
      have hwon' : (call.resolver r').Won := by
        rw [hpc']
        trivial
      exact hr (h.gate.unique hwon hwon')
  · exact fun r' hne => (hmoved.entitled r' hne).congr rfl rfl

/-- The winner hands the callback over. -/
theorem Sound.postDelivery (h : call.Sound) {cb : Bool} {o : Outcome}
    (hpc : call.resolver r = .cancelled cb o) :
    { call.complete r with posted := if cb then call.posted ++ [o] else call.posted }.Sound := by
  have hcb : cb = true := by
    have hcarries := h.carries r
    rwa [hpc] at hcarries
  have hwon : (call.resolver r).Won := by
    rw [hpc]
    trivial
  have hdelivered := (h.gate.eq_held hwon).1
  subst hcb
  constructor
  case gate =>
    show OneShot call.delivered _ (call.posted ++ [o]).length
    rw [List.length_append]
    apply h.gate.leave hwon
    · show ¬ ((call.setResolver r .idle).resolver r).Won
      rw [resolver_setResolver_self]
      exact id
    · intro r' hr
      show ((call.setResolver r .idle).resolver r').Won ↔ _
      rw [resolver_setResolver_of_ne call hr]
  case swapped =>
    intro hswapped
    refine ⟨hdelivered, ?_⟩
    apply forall_setResolver fun _ pc => ∀ o', pc ≠ .claimed o'
    · simp
    · exact fun r' _ => (h.swapped hswapped).2 r'
  case carries =>
    exact forall_setResolver (fun _ pc => pc.Carries) trivial fun r' _ => h.carries r'
  case completed => exact fun _ => hdelivered
  case entitled =>
    apply forall_setResolver fun r' pc => pc ≠ .idle → AsyncCall.Entitled _ r'
    · exact fun hne => absurd rfl hne
    · exact fun r' _ hne => (h.entitled r' hne).congr rfl rfl
  case sent => exact h.sent

/-- **Every step of `deliver()`** keeps what holds of a call. -/
theorem Sound.resolve (h : call.Sound) {pc : DeliverPc} (hpc : call.resolver r = pc)
    (hstep : call.resolve r pc = some call') : call'.Sound := by
  cases pc with
  | idle => cases hstep
  | entered o => cases hstep
  | left o =>
    cases hdelivered : call.delivered with
    | true =>
      simp only [AsyncCall.resolve, hdelivered, if_true, Option.some.injEq] at hstep
      subst hstep
      exact h.lose hpc hdelivered
    | false =>
      simp only [AsyncCall.resolve, hdelivered, Bool.false_eq_true, if_false,
        Option.some.injEq] at hstep
      subst hstep
      exact h.claim hpc hdelivered
  | claimed o =>
    cases hstep
    exact h.takeCallback hpc
  | took cb o =>
    cases hstep
    have hcarries : DeliverPc.Carries (.took cb o) := hpc ▸ h.carries r
    have hpc' : call.cancelPending.resolver r = .took cb o := by
      rw [resolver_cancelPending, hpc]
    apply h.cancelPending.setPast hpc'
    · simp
    · exact Iff.rfl
    · exact hcarries
    · intro o' hclaimed
      cases hclaimed
  | withdrew cb o =>
    cases hstep
    have hcarries : DeliverPc.Carries (.withdrew cb o) := hpc ▸ h.carries r
    have hposted : call.cancelTimer.Sound := h.setTimer _ _
    apply hposted.setPast hpc
    · simp
    · exact Iff.rfl
    · exact hcarries
    · intro o' hclaimed
      cases hclaimed
  | cancelled cb o =>
    cases hstep
    exact h.postDelivery hpc

/-- Whoever has left the registries and gone on leaves `delivered` set. -/
theorem Sound.delivered_resolve (h : call.Sound) {pc : DeliverPc} (hpc : call.resolver r = pc)
    (hstep : call.resolve r pc = some call') : call'.delivered = true := by
  have hwon : pc.Won → call.delivered = true := by
    intro hwon
    rw [← hpc] at hwon
    exact (h.gate.eq_held hwon).1
  cases pc with
  | idle => cases hstep
  | entered o => cases hstep
  | left o =>
    simp only [AsyncCall.resolve] at hstep
    split at hstep
    · rename_i hdelivered
      cases hstep
      exact hdelivered
    · cases hstep
      rfl
  | claimed o =>
    cases hstep
    exact hwon trivial
  | took cb o =>
    cases hstep
    show call.cancelPending.delivered = true
    rw [delivered_cancelPending]
    exact hwon trivial
  | withdrew cb o =>
    cases hstep
    exact hwon trivial
  | cancelled cb o =>
    cases hstep
    exact hwon trivial

/-- A step of `deliver()` moves its own resolver, and does not touch the caller. -/
theorem resolve_frame {pc : DeliverPc} (hstep : call.resolve r pc = some call') :
    call'.caller = call.caller ∧ ∀ r', r' ≠ r → call'.resolver r' = call.resolver r' := by
  cases pc with
  | idle => cases hstep
  | entered o => cases hstep
  | left o =>
    simp only [AsyncCall.resolve] at hstep
    split at hstep
    · cases hstep
      exact ⟨rfl, fun r' hr => resolver_setResolver_of_ne call hr _⟩
    · cases hstep
      exact ⟨rfl, fun r' hr => resolver_setResolver_of_ne call hr _⟩
  | took cb o =>
    cases hstep
    refine ⟨caller_cancelPending call, ?_⟩
    intro r' hr
    rw [resolver_setResolver_of_ne _ hr, resolver_cancelPending]
  | claimed o =>
    cases hstep
    exact ⟨rfl, fun r' hr => resolver_setResolver_of_ne call hr _⟩
  | withdrew cb o =>
    cases hstep
    exact ⟨rfl, fun r' hr => resolver_setResolver_of_ne call hr _⟩
  | cancelled cb o =>
    cases hstep
    exact ⟨rfl, fun r' hr => resolver_setResolver_of_ne call hr _⟩

end steps

end AsyncCall

/-! ### The handle -/

namespace TeardownPc

/-- Calls that teardown took out of `inflight` and has not cancelled yet. -/
def outstanding : TeardownPc → List UInt64
  | cancelling outstanding => outstanding
  | delivering _ outstanding => outstanding
  | _ => []

/-- The call that teardown is in `deliver()` on. -/
def current : TeardownPc → Option UInt64
  | delivering id _ => some id
  | _ => none

end TeardownPc

/-- A call that was registered is in `inflight`, or in the hands of teardown or of a
`deliver()`. -/
def Kept (inflight : List UInt64) (teardown : TeardownPc) (id : UInt64) (call : AsyncCall) :
    Prop :=
  id ∈ inflight ∨ id ∈ teardown.outstanding ∨ (∃ o, call.resolver .teardown = .entered o) ∨
    call.Resolving

/-- What holds of a call as part of the handle. -/
structure CallInv (inflight : List UInt64) (teardown : TeardownPc) (id : UInt64)
    (call : AsyncCall) : Prop where
  sound : call.Sound
  /-- Teardown is in `deliver()` on one call at most. -/
  current : call.resolver .teardown ≠ .idle → teardown.current = some id
  kept : call.WasRegistered → Kept inflight teardown id call

/-- What every reachable state satisfies. -/
structure Inv (s : State) : Prop where
  call : ∀ id, CallInv s.st.inflight s.teardown id (s.calls id)
  /-- Teardown raises `stopping`, and from then on nothing is in flight. -/
  stopping : s.teardown ≠ .idle → s.st.stopping = true
  stopped : s.st.stopping = true → s.st.inflight = []

/-- One call moves, and the others stay where they are. -/
theorem Inv.modify {s : State} (hi : Inv s) (st : CallState) (id : UInt64)
    (f : AsyncCall → AsyncCall) (hstopping : st.stopping = s.st.stopping)
    (hothers : ∀ id', id' ≠ id → id' ∈ s.st.inflight → id' ∈ st.inflight)
    (hstopped : st.stopping = true → st.inflight = [])
    (hcall : CallInv st.inflight s.teardown id (f (s.calls id))) :
    Inv ({ s with st := st }.modify id f) where
  call id' := by
    by_cases hid : id' = id
    · rw [hid, State.calls_modify_self]
      exact hcall
    · rw [State.calls_modify_of_ne _ hid]
      have hc := hi.call id'
      refine ⟨hc.sound, hc.current, ?_⟩
      intro hregistered
      rcases hc.kept hregistered with hin | hrest
      · exact .inl (hothers id' hid hin)
      · exact .inr hrest
  stopping hteardown := hstopping.trans (hi.stopping hteardown)
  stopped := hstopped

/-- One call moves, and the registries stay as they are. -/
theorem Inv.modifyCall {s : State} (hi : Inv s) (id : UInt64) (f : AsyncCall → AsyncCall)
    (hcall : CallInv s.st.inflight s.teardown id (f (s.calls id))) : Inv (s.modify id f) :=
  hi.modify s.st id f rfl (fun _ _ hin => hin) hi.stopped hcall

/-- Only what is in flight and `stopping` matter of the call state. -/
theorem Inv.withState {s : State} (hi : Inv s) (st : CallState)
    (hstopping : st.stopping = s.st.stopping) (hinflight : st.inflight = s.st.inflight) :
    Inv { s with st := st } where
  call id := by
    show CallInv st.inflight s.teardown id (s.calls id)
    rw [hinflight]
    exact hi.call id
  stopping hteardown := hstopping.trans (hi.stopping hteardown)
  stopped hstop := by
    show st.inflight = []
    rw [hinflight]
    exact hi.stopped (hstopping ▸ hstop)

section calls
variable {inflight : List UInt64} {teardown : TeardownPc} {id : UInt64} {call call' : AsyncCall}
  {r : Resolver}

/-- A call stays kept while its resolvers do not move. -/
theorem CallInv.congr (h : CallInv inflight teardown id call) (hsound : call'.Sound)
    (hresolver : call'.resolver = call.resolver) (hdelivered : call'.delivered = call.delivered)
    (hregistered : call'.WasRegistered → call.WasRegistered) :
    CallInv inflight teardown id call' where
  sound := hsound
  current := by
    rw [hresolver]
    exact h.current
  kept hr := by
    have hkept := h.kept (hregistered hr)
    unfold Kept AsyncCall.Resolving at hkept ⊢
    rwa [hresolver, hdelivered]

theorem CallInv.setTimer (h : CallInv inflight teardown id call) (strand : List TimerTask)
    (timer : Option Int) :
    CallInv inflight teardown id { call with strand := strand, timer := timer } :=
  h.congr (h.sound.setTimer strand timer) rfl rfl (fun hr => hr)

theorem CallInv.setHandler (h : CallInv inflight teardown id call)
    (hactive : call.handler.Active) (handler : HandlerPc) :
    CallInv inflight teardown id { call with handler := handler } :=
  h.congr (h.sound.setHandler hactive handler) rfl rfl (fun hr => hr)

/-- A resolver other than teardown calls `deliver()`. -/
theorem CallInv.deliver (h : CallInv inflight teardown id call) (hidle : call.resolver r = .idle)
    (hr : r ≠ .teardown) (hentitled : call.Entitled r) (o : Outcome) :
    CallInv inflight teardown id (call.deliver r o) where
  sound := h.sound.deliver hidle hentitled o
  current hne := by
    apply h.current
    rwa [← call.resolver_setResolver_of_ne hr.symm (.entered o)]
  kept hregistered := by
    have hsame := call.resolver_setResolver_of_ne hr.symm (.entered o)
    rcases h.kept hregistered with hin | hout | ⟨o', hentered⟩ | hdelivered | ⟨r', o', hleft⟩
    · exact .inl hin
    · exact .inr (.inl hout)
    · exact .inr (.inr (.inl ⟨o', hsame.trans hentered⟩))
    · exact .inr (.inr (.inr (.inl hdelivered)))
    · have hne : r' ≠ r := by
        intro heq
        rw [heq, hidle] at hleft
        cases hleft
      exact .inr (.inr (.inr (.inr
        ⟨r', o', (call.resolver_setResolver_of_ne hne _).trans hleft⟩)))

/-- The handler returns by calling `deliver()`. -/
theorem CallInv.deliverReply (h : CallInv inflight teardown id call)
    (hactive : call.handler.Active) (o : Outcome) :
    CallInv inflight teardown id ({ call with handler := .returned }.deliver .reply o) := by
  have hidle := h.sound.reply_idle hactive
  exact (h.setHandler hactive .returned).deliver hidle (by simp) rfl o

theorem CallInv.sweep (h : CallInv inflight teardown id call) (reason : Bytes) :
    CallInv inflight teardown id (call.sweep reason) := by
  unfold AsyncCall.sweep
  split
  · rename_i hpending
    have hactive : call.handler.Active := by simp [hpending, HandlerPc.Active]
    exact h.setHandler hactive _
  · exact h

theorem CallInv.handleReply (h : CallInv inflight teardown id call) {res : Reply}
    (hres : call.handler = .answered res) (obj : Bytes) (gone : Bool) :
    CallInv inflight teardown id (call.handleReply obj gone res) := by
  have hactive : call.handler.Active := by simp [hres, HandlerPc.Active]
  unfold AsyncCall.handleReply
  simp only
  split
  · exact h.deliverReply hactive _
  split
  · exact h.deliverReply hactive _
  split
  · exact h.deliverReply hactive _
  · exact h.setHandler hactive _

theorem CallInv.runStrand (h : CallInv inflight teardown id call) {obj : Bytes}
    (hstep : call.runStrand obj = some call') : CallInv inflight teardown id call' := by
  unfold AsyncCall.runStrand at hstep
  split at hstep
  · cases hstep
    exact h.setTimer _ _
  · cases hstep
    exact h.setTimer _ _
  · rename_i reportMs rest hidle _
    cases hstep
    exact (h.setTimer rest call.timer).deliver hidle (by simp) trivial _
  · cases hstep

/-- A `deliver()` goes on after it has left the registries. -/
theorem CallInv.resolve (h : CallInv inflight teardown id call) {pc : DeliverPc}
    (hpc : call.resolver r = pc) (hstep : call.resolve r pc = some call') :
    CallInv inflight teardown id call' where
  sound := h.sound.resolve hpc hstep
  current hne := by
    apply h.current
    by_cases hr : r = .teardown
    · intro hidle
      rw [← hr, hpc] at hidle
      subst hidle
      cases hstep
    · rwa [← (AsyncCall.resolve_frame hstep).2 .teardown (Ne.symm hr)]
  kept _ := .inr (.inr (.inr (.inl (h.sound.delivered_resolve hpc hstep))))

end calls

/-! ### Every action -/

section actions
variable {obj : Bytes} {s s' : State} {id : UInt64}

-- Every lemma below starts from the equation of its action.
attribute [local simp] next

/-- When a call leaves, the others stay in flight. -/
theorem State.leaveRegistries_eq (s : State) (id : UInt64) :
    ∃ st, s.leaveRegistries id = { s with st := st } ∧ st.stopping = s.st.stopping ∧
      st.inflight ⊆ s.st.inflight ∧
      ∀ id', id' ≠ id → id' ∈ s.st.inflight → id' ∈ st.inflight := by
  unfold State.leaveRegistries
  split
  · exact ⟨s.st, rfl, rfl, fun _ hin => hin, fun _ _ hin => hin⟩
  · refine ⟨_, rfl, CallState.stopping_leave .., ?_, ?_⟩
    · intro id' hin
      exact ((CallState.mem_inflight_leave ..).mp hin).1
    · intro id' hid hin
      exact (CallState.mem_inflight_leave ..).mpr ⟨hin, hid⟩

theorem inv_initial : Inv {} where
  call _ := ⟨AsyncCall.sound_initial, fun h => absurd rfl h, fun h => by
    rcases h with h | h <;> cases h⟩
  stopping h := absurd rfl h
  stopped h := by cases h

theorem inv_callAsync (hi : Inv s) {method : Bytes} {timeoutMs : Int}
    (h : next obj s (.callAsync id method timeoutMs) = some s') : Inv s' := by
  simp only [next] at h
  split at h
  · rename_i hidle
    cases h
    have hc := hi.call id
    have hunsent : (s.calls id).caller ≠ .returned := by simp [hidle]
    have hcall := hc.sound.setCaller (by simp [hidle]) hunsent method timeoutMs .armed
      (s.calls id).handler (fun hne => absurd (hc.sound.unregistered hunsent) hne)
    apply hi.modifyCall
    apply hc.congr (hcall.setTimer _ _) rfl rfl
    intro hr
    rcases hr with hr | hr <;> cases hr
  · cases h

theorem inv_register (hi : Inv s) (h : next obj s (.register id) = some s') : Inv s' := by
  simp only [next] at h
  split at h
  · rename_i harmed
    have hc := hi.call id
    have hrefused : (s.calls id).caller ≠ .refused := by simp [harmed]
    have hunsent : (s.calls id).caller ≠ .returned := by simp [harmed]
    have hcaller := fun caller => hc.sound.setCaller hrefused hunsent (s.calls id).method
      (s.calls id).timeoutMs caller (s.calls id).handler
      (fun hne => absurd (hc.sound.unregistered hunsent) hne)
    split at h
    · cases h
      apply hi.modifyCall
      have hmoved : CallInv s.st.inflight s.teardown id
          { s.calls id with caller := .refused } := by
        apply hc.congr (hcaller .refused) rfl rfl
        intro hr
        rcases hr with hr | hr <;> cases hr
      exact hmoved.deliver (hc.sound.caller_idle hrefused) (by simp) rfl _
    · rename_i hrunning
      cases h
      apply hi.modify (s.st.emplaceInflight id) id
      · rfl
      · intro id' _ hin
        exact (CallState.mem_inflight_emplaceInflight ..).mpr (.inr hin)
      · intro hstopping
        exact absurd hstopping hrunning
      · refine ⟨hcaller .registered, hc.current, ?_⟩
        intro _
        exact .inl ((CallState.mem_inflight_emplaceInflight ..).mpr (.inl rfl))
  · cases h

theorem inv_sendCallAsync (hi : Inv s) (h : next obj s (.sendCallAsync id) = some s') :
    Inv s' := by
  simp only [next] at h
  split at h
  · rename_i hregistered
    cases h
    have hc := hi.call id
    apply hi.modifyCall
    apply hc.congr
    · exact hc.sound.setCaller (by simp [hregistered]) (by simp [hregistered])
        (s.calls id).method (s.calls id).timeoutMs .returned .pending (fun _ => rfl)
    · rfl
    · rfl
    · intro _
      exact .inl hregistered
  · cases h

/-- A step of the handler alone. -/
theorem Inv.modifyHandler (hi : Inv s) (hactive : (s.calls id).handler.Active)
    (handler : AsyncCall → HandlerPc) :
    Inv (s.modify id fun call => { call with handler := handler call }) :=
  hi.modifyCall id _ ((hi.call id).setHandler hactive _)

theorem inv_answer (hi : Inv s) {res : Reply} (h : next obj s (.answer id res) = some s') :
    Inv s' := by
  simp only [next] at h
  split at h
  · rename_i hpending
    cases h
    exact hi.modifyHandler (by simp [hpending, HandlerPc.Active]) _
  · cases h

theorem inv_fail (hi : Inv s) {reason : Bytes} (h : next obj s (.fail reason) = some s') :
    Inv s' := by
  cases h
  exact ⟨fun id => (hi.call id).sweep reason, hi.stopping, hi.stopped⟩

theorem inv_handleReply (hi : Inv s) (h : next obj s (.handleReply id) = some s') : Inv s' := by
  simp only [next] at h
  split at h
  · rename_i res hanswered
    cases h
    exact hi.modifyCall id _ ((hi.call id).handleReply hanswered obj s.stateGone)
  · cases h

theorem inv_loadDelivered (hi : Inv s) (h : next obj s (.loadDelivered id) = some s') :
    Inv s' := by
  simp only [next] at h
  split at h
  · rename_i callId hdeferring
    cases h
    exact hi.modifyHandler (by simp [hdeferring, HandlerPc.Active]) _
  · cases h

theorem inv_fileDeferred (hi : Inv s) (h : next obj s (.fileDeferred id) = some s') :
    Inv s' := by
  simp only [next] at h
  split at h
  · rename_i callId hfiling
    cases h
    have hc := hi.call id
    have hactive : (s.calls id).handler.Active := by simp [hfiling, HandlerPc.Active]
    unfold State.fileDeferred
    split
    · rename_i buffered st htake
      have hst := CallState.registries_of_takeCompletion htake
      have hi' := hi.withState st hst.2.2 hst.1
      exact hi'.modifyCall id _ ((hi'.call id).deliverReply hactive _)
    split
    · exact hi.modifyCall id _ (hc.deliverReply hactive _)
    · have hmoved := hc.setHandler hactive .filed
      have hi' := hi.withState { s.st with deferred := s.st.deferred.insert callId id } rfl rfl
      apply hi'.modifyCall
      apply hmoved.congr
      · exact hmoved.sound.congr _ rfl rfl rfl rfl rfl (fun r _ hr => hr.congr rfl rfl)
          hmoved.sound.sent
      · rfl
      · rfl
      · exact fun hr => hr
  · cases h

theorem inv_rearm (hi : Inv s) (h : next obj s (.rearm id) = some s') : Inv s' := by
  simp only [next] at h
  split at h
  · rename_i hfiled
    cases h
    have hactive : (s.calls id).handler.Active := by simp [hfiled, HandlerPc.Active]
    exact hi.modifyCall id _ (((hi.call id).setHandler hactive .returned).setTimer _ _)
  · cases h

theorem inv_runStrand (hi : Inv s) (h : next obj s (.runStrand id) = some s') : Inv s' := by
  simp only [next, Option.map_eq_some_iff] at h
  obtain ⟨call, hstep, rfl⟩ := h
  exact hi.modifyCall id _ ((hi.call id).runStrand hstep)

theorem inv_expire (hi : Inv s) (h : next obj s (.expire id) = some s') : Inv s' := by
  simp only [next] at h
  split at h
  · cases h
    exact hi.modifyCall id _ ((hi.call id).setTimer _ _)
  · cases h

theorem inv_completion (hi : Inv s) {callId : QString} {value : QVariant}
    (h : next obj s (.completion callId value) = some s') : Inv s' := by
  simp only [next] at h
  split at h
  · cases h
    exact hi
  split at h
  · cases h
    exact hi.withState _ (CallState.stopping_parkCompletion ..)
      (CallState.inflight_parkCompletion ..)
  · rename_i id _
    split at h
    · rename_i hidle
      cases h
      have hi' := hi.withState { s.st with deferred := s.st.deferred.erase callId } rfl rfl
      exact hi'.modifyCall id _ ((hi'.call id).deliver hidle (by simp) trivial _)
    · cases h

theorem inv_deliver (hi : Inv s) {r : Resolver} (h : next obj s (.deliver id r) = some s') :
    Inv s' := by
  have hc := hi.call id
  simp only [next] at h
  split at h
  · rename_i o hentered
    cases h
    obtain ⟨st, heq, hstopping, hsubset, hothers⟩ := s.leaveRegistries_eq id
    rw [heq]
    apply hi.modify st id _ hstopping hothers
    · intro hstop
      rw [hi.stopped (hstopping ▸ hstop)] at hsubset
      exact List.subset_nil.mp hsubset
    · refine ⟨?_, ?_, ?_⟩
      · apply hc.sound.setPast hentered
        · simp
        · exact Iff.rfl
        · trivial
        · intro o' hclaimed
          cases hclaimed
      · intro hne
        apply hc.current
        by_cases hr : r = .teardown
        · rw [← hr, hentered]
          simp
        · rwa [← (s.calls id).resolver_setResolver_of_ne (Ne.symm hr) (.left o)]
      · intro _
        exact .inr (.inr (.inr (.inr ⟨r, o, (s.calls id).resolver_setResolver_self r _⟩)))
  · simp only [Option.map_eq_some_iff] at h
    obtain ⟨call, hstep, rfl⟩ := h
    exact hi.modifyCall id _ (hc.resolve rfl hstep)

theorem inv_stopAndCancelCalls (hi : Inv s) (h : next obj s .stopAndCancelCalls = some s') :
    Inv s' := by
  -- Between two teardowns none is in `deliver()`, and none has calls to cancel.
  have hstart : ∀ teardown : TeardownPc, s.teardown = teardown → teardown.current = none →
      teardown.outstanding = [] →
      Inv { s with st := s.st.stop, teardown := .cancelling s.st.inflight } := by
    intro teardown hteardown hcurrent houtstanding
    refine ⟨?_, fun _ => rfl, fun _ => rfl⟩
    intro id
    have hc := hi.call id
    have hidle : (s.calls id).resolver .teardown = .idle := by
      by_contra hne
      have hsome := hc.current hne
      rw [hteardown, hcurrent] at hsome
      cases hsome
    refine ⟨hc.sound, fun hne => absurd hidle hne, ?_⟩
    intro hregistered
    rcases hc.kept hregistered with hin | hout | ⟨o, hentered⟩ | hresolving
    · exact .inr (.inl hin)
    · rw [hteardown, houtstanding] at hout
      cases hout
    · rw [hidle] at hentered
      cases hentered
    · exact .inr (.inr (.inr hresolving))
  simp only [next] at h
  split at h
  · rename_i hteardown
    cases h
    exact hstart _ hteardown rfl rfl
  · rename_i hteardown
    cases h
    exact hstart _ hteardown rfl rfl
  · cases h

theorem inv_cancelNext (hi : Inv s) (h : next obj s .cancelNext = some s') : Inv s' := by
  simp only [next] at h
  split at h
  · rename_i hteardown
    cases h
    refine ⟨?_, fun _ => hi.stopping (by simp [hteardown]), hi.stopped⟩
    intro id
    have hc := hi.call id
    rw [hteardown] at hc
    exact ⟨hc.sound, hc.current, hc.kept⟩
  · rename_i id₀ outstanding hteardown
    cases h
    refine ⟨?_, fun _ => hi.stopping (by simp [hteardown]), hi.stopped⟩
    intro id
    have hc := hi.call id
    rw [hteardown] at hc
    have hidle : (s.calls id).resolver .teardown = .idle := by
      by_contra hne
      cases hc.current hne
    by_cases hid : id = id₀
    · subst hid
      refine ⟨?_, fun _ => rfl, ?_⟩
      · rw [State.calls_modify_self]
        exact hc.sound.deliver hidle trivial _
      · intro _
        rw [State.calls_modify_self]
        exact .inr (.inr (.inl ⟨_, AsyncCall.resolver_setResolver_self ..⟩))
    · rw [State.calls_modify_of_ne _ hid]
      refine ⟨hc.sound, fun hne => absurd hidle hne, ?_⟩
      intro hregistered
      rcases hc.kept hregistered with hin | hout | hrest
      · exact .inl hin
      · rcases List.mem_cons.mp hout with heq | hrest
        · exact absurd heq hid
        · exact .inr (.inl hrest)
      · exact .inr (.inr hrest)
  · rename_i id₀ outstanding hteardown
    split at h
    · rename_i hreturned
      cases h
      refine ⟨?_, fun _ => hi.stopping (by simp [hteardown]), hi.stopped⟩
      intro id
      have hc := hi.call id
      rw [hteardown] at hc
      refine ⟨hc.sound, ?_, hc.kept⟩
      intro hne
      have heq : id₀ = id := Option.some.inj (hc.current hne)
      rw [← heq] at hne
      exact absurd hreturned hne
    · cases h
  · cases h

/-- **The invariant is kept by every step.** -/
theorem Inv.next {a : Action} (hi : Inv s) (h : Async.next obj s a = some s') : Inv s' := by
  cases a with
  | callAsync id method timeoutMs => exact inv_callAsync hi h
  | register id => exact inv_register hi h
  | sendCallAsync id => exact inv_sendCallAsync hi h
  | answer id res => exact inv_answer hi h
  | fail reason => exact inv_fail hi h
  | handleReply id => exact inv_handleReply hi h
  | loadDelivered id => exact inv_loadDelivered hi h
  | fileDeferred id => exact inv_fileDeferred hi h
  | rearm id => exact inv_rearm hi h
  | runStrand id => exact inv_runStrand hi h
  | expire id => exact inv_expire hi h
  | completion callId value => exact inv_completion hi h
  | deliver id r => exact inv_deliver hi h
  | stopAndCancelCalls => exact inv_stopAndCancelCalls hi h
  | cancelNext => exact inv_cancelNext hi h
  | enterSync =>
    cases h
    exact hi.withState s.st.enterSync rfl rfl
  | awaitCompletion callId =>
    simp only [Async.next] at h
    split at h
    · rename_i value st htake
      cases h
      have hst := CallState.registries_of_takeCompletion htake
      exact hi.withState st hst.2.2 hst.1
    · cases h
      exact hi
  | leaveSync =>
    simp only [Async.next, Option.ite_none_right_eq_some, Option.some.injEq] at h
    obtain ⟨-, rfl⟩ := h
    exact hi.withState s.st.leaveSync (CallState.stopping_dropUnclaimedIfIdle _)
      (CallState.inflight_dropUnclaimedIfIdle _)
  | dropState =>
    simp only [Async.next, Option.ite_none_right_eq_some, Option.some.injEq] at h
    obtain ⟨-, rfl⟩ := h
    exact ⟨hi.call, hi.stopping, hi.stopped⟩

theorem inv_of_reachable (h : (handle obj).Reachable s) : Inv s := by
  apply h.invariant
  · intro s₀ hs₀
    rw [hs₀]
    exact inv_initial
  · intro s a s' hi hstep
    exact hi.next hstep

/-! ### Delivery -/

/-- A call that some `deliver()` resolves is handed over, or about to be. -/
theorem AsyncCall.Resolving.posted_or_underWay {call : AsyncCall} (h : call.Resolving)
    (hsound : call.Sound) :
    call.posted.length = 1 ∨ call.posted = [] ∧ ∃ r, (call.resolver r).UnderWay := by
  have hgate := hsound.gate
  rcases h with hdelivered | ⟨r, o, hleft⟩
  · rw [hdelivered] at hgate
    rcases hgate.handed_or_held with hposted | ⟨hposted, r, hwon, -⟩
    · exact .inl hposted
    · exact .inr ⟨List.length_eq_zero_iff.mp hposted, r, hwon.underWay⟩
  · by_cases hposted : call.posted = []
    · refine .inr ⟨hposted, r, ?_⟩
      rw [hleft]
      trivial
    · have hpos := List.length_pos_iff.mpr hposted
      have hle := hgate.handed_le_one
      exact .inl (by omega)

/-- **Delivery of asynchronous calls.**  In every reachable state a callback has been handed
to `postDelivery` at most once.  Once some `deliver()` on the call has returned it has been
handed over, or exactly one `deliver()` has won the claim and is about to; and when teardown
has finished, a call that was registered has been handed over, or some `deliver()` has taken
it out of the registries and is still under way. -/
theorem delivered_exactly_once (h : (handle obj).Reachable s) (id : UInt64) :
    (s.calls id).posted.length ≤ 1 ∧
    (0 < (s.calls id).completed →
      (s.calls id).posted.length = 1 ∨
        (s.calls id).posted = [] ∧ ∃! r, ((s.calls id).resolver r).Won) ∧
    (s.teardown = .finished → (s.calls id).WasRegistered →
      (s.calls id).posted.length = 1 ∨
        (s.calls id).posted = [] ∧ ∃ r, ((s.calls id).resolver r).UnderWay) := by
  have hi := inv_of_reachable h
  have hc := hi.call id
  have hgate := hc.sound.gate
  refine ⟨hgate.handed_le_one, ?_, ?_⟩
  · intro hcompleted
    rw [hc.sound.completed hcompleted] at hgate
    rcases hgate.handed_or_held with hposted | ⟨hposted, hwinner⟩
    · exact .inl hposted
    · exact .inr ⟨List.length_eq_zero_iff.mp hposted, hwinner⟩
  · intro hfinished hregistered
    have hstopping := hi.stopping (by simp [hfinished])
    have hempty := hi.stopped hstopping
    rw [hfinished] at hc
    rcases hc.kept hregistered with hin | hout | ⟨o, hentered⟩ | hresolving
    · rw [hempty] at hin
      cases hin
    · cases hout
    · cases hc.current (by simp [hentered])
    · exact hresolving.posted_or_underWay hc.sound

end actions

/-- A call is sent, and its deadline passes. -/
def deadlinePasses : List Action :=
  [.callAsync 1 (bstr "m") 20, .register 1, .sendCallAsync 1, .runStrand 1, .expire 1,
    .runStrand 1]

/-- The deadline takes the call out of `inflight`, then the handle is torn down. -/
def tornDown : List Action :=
  deadlinePasses ++ [.deliver 1 .deadline, .stopAndCancelCalls, .cancelNext]

theorem delivered_exactly_once_tornDown :
    ∃ s, (handle (bstr "o")).Reachable s ∧ (s.calls 1).posted = [] ∧
      ∃ r, ((s.calls 1).resolver r).UnderWay := by
  let final := (TransitionSystem.exec (next (bstr "o")) {} tornDown).getD {}
  have hexec : TransitionSystem.exec (next (bstr "o")) {} tornDown = some final := rfl
  have hreachable : (handle (bstr "o")).Reachable final :=
    TransitionSystem.Reachable.of_exec (.init rfl) hexec
  have hdelivery := (delivered_exactly_once hreachable 1).2.2 rfl (.inr rfl)
  rcases hdelivery with hposted | hunderWay
  · cases hposted
  · exact ⟨final, hreachable, hunderWay⟩

/-- The reply loses the claim against the deadline and returns first. -/
def loserReturns : List Action :=
  deadlinePasses ++ [.deliver 1 .deadline, .deliver 1 .deadline, .answer 1 { ok := true },
    .handleReply 1, .deliver 1 .reply, .deliver 1 .reply]

/-- A `deliver()` that returns does not wait for the one that won, and neither does
teardown. -/
theorem deliver_returns_before_delivery :
    (¬ ∀ s, (handle (bstr "o")).Reachable s → ∀ id,
      0 < (s.calls id).completed → (s.calls id).posted.length = 1) ∧
    ¬ ∀ s, (handle (bstr "o")).Reachable s → ∀ id,
      s.teardown = .finished → (s.calls id).WasRegistered → (s.calls id).posted.length = 1 := by
  constructor
  · intro hall
    let final := (TransitionSystem.exec (next (bstr "o")) {} loserReturns).getD {}
    have hexec : TransitionSystem.exec (next (bstr "o")) {} loserReturns = some final := rfl
    have hposted := hall final (TransitionSystem.Reachable.of_exec (.init rfl) hexec) 1
      (by decide +kernel)
    cases hposted
  · intro hall
    let final := (TransitionSystem.exec (next (bstr "o")) {} tornDown).getD {}
    have hexec : TransitionSystem.exec (next (bstr "o")) {} tornDown = some final := rfl
    have hposted := hall final (TransitionSystem.Reachable.of_exec (.init rfl) hexec) 1 rfl
      (.inr rfl)
    cases hposted

end Async

end LogosProtocol
