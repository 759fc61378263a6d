import LogosProtocol.Wasm.OutboundDoor

/-!
# Token exchanges that overlap

The door looks for a token and not for an exchange that is under way, so two calls to one
target that are made before the first token is there request two.  Nothing else starts an
exchange: at most one is outstanding for each target as long as no call is made to a target
without a token while another such call waits for it.

## Main definitions

* `outstanding` — the `requestModule` calls for a target that have no reply.
* `StartsExchange` — a step that makes one.
-/

namespace LogosProtocol.OutboundDoor

open TransitionSystem (exec)

/-- The `requestModule` calls for this target that are written and not answered. -/
def outstanding (d : Door) (x : Bytes) : ℕ :=
  d.pending.countP fun p => p.written && p.handler.asksFor x

/-- A call to a target without a token: its arguments are right, there is an open connection,
and the request for a token can be written. -/
def StartsExchange (json : WireCodec) (parse : Bytes → Option Json) (d : Door) (a : Action)
    (x : Bytes) : Prop :=
  ∃ client k method argsJson args c, a = .invoke (some client) (some method) argsJson true ∧
    method ≠ [] ∧ d.clients[client]? = some k ∧ k.alive = true ∧ k.target = x ∧
    parseArgs parse argsJson = some (.ok args) ∧ d.openConnection = some c ∧
    d.image.store.outboundToken x = [] ∧ x ≠ kCapabilityModule ∧
    Succeeds (encodeWebMessage json (.call (tokenRequest d (d.conn c).nextId k.origin x)))

/-! ## What a send adds -/

section send
variable {json : WireCodec} {d : Door}

theorem outstanding_logged (d : Door) (e : Event) (x : Bytes) :
    outstanding (d.logged e) x = outstanding d x := rfl

theorem outstanding_saveOutbound (d : Door) (moduleName token x : Bytes) :
    outstanding (d.saveOutbound moduleName token) x = outstanding d x := by
  unfold Door.saveOutbound
  simp only
  split_ifs
  · rfl
  · rfl

/-- A registration may only drop another. -/
theorem outstanding_register_le (d : Door) (c : ℕ) (id : UInt64) (h : Handler) (x : Bytes) :
    outstanding (d.register c id h) x ≤ outstanding d x := by
  have hfilter : (d.pending.filter fun p => ¬ (p.conn = c ∧ p.id = id)).countP
      (fun p => p.written && p.handler.asksFor x) ≤ outstanding d x :=
    List.filter_sublist.countP_le
  unfold outstanding Door.register at *
  rw [List.countP_append]
  simpa using hfilter

theorem outstanding_take_le {d d' : Door} {c : ℕ} {id : UInt64} {h : Handler}
    (htake : d.take c id = some (h, d')) (x : Bytes) : outstanding d' x ≤ outstanding d x := by
  obtain ⟨p, -, hp⟩ := Option.map_eq_some_iff.mp htake
  obtain ⟨-, rfl⟩ := Prod.mk.inj hp
  exact List.filter_sublist.countP_le

/-- Of the entries under an id only the one registered last is there to be marked. -/
theorem outstanding_markWritten (d : Door) (c : ℕ) (id : UInt64) (h : Handler) (x : Bytes) :
    outstanding ((d.register c id h).markWritten c id) x =
      outstanding (d.register c id h) x + if h.asksFor x then 1 else 0 := by
  have hold : ∀ l : List Pending, (∀ p ∈ l, ¬ (p.conn = c ∧ p.id = id)) →
      l.map (fun p => if p.conn = c ∧ p.id = id then { p with written := true } else p) = l := by
    intro l hl
    induction l with
    | nil => rfl
    | cons p l ih =>
      rw [List.map_cons, if_neg (hl p (List.mem_cons_self ..)),
        ih fun q hq => hl q (List.mem_cons_of_mem p hq)]
  have hkept : ∀ p ∈ d.pending.filter (fun p => ¬ (p.conn = c ∧ p.id = id)),
      ¬ (p.conn = c ∧ p.id = id) := by
    intro p hp
    simpa only [decide_eq_true_eq] using (List.mem_filter.mp hp).2
  unfold outstanding Door.markWritten Door.register
  rw [List.map_append, hold _ hkept, List.countP_append, List.countP_append]
  simp [List.countP_cons]

/-- The step adds no request for the target, or one where a condition holds. -/
def AddsOnly (d d' : Door) (x : Bytes) (condition : Prop) : Prop :=
  outstanding d' x ≤ outstanding d x ∨ condition ∧ outstanding d' x ≤ outstanding d x + 1

theorem AddsOnly.mono {d d' : Door} {x : Bytes} {p q : Prop} (h : AddsOnly d d' x p)
    (hpq : p → q) : AddsOnly d d' x q := by
  rcases h with hle | ⟨hp, hle⟩
  · exact .inl hle
  · exact .inr ⟨hpq hp, hle⟩

/-- A send adds a request when its message is written. -/
theorem adds_sendCallAsync (json : WireCodec) (d : Door) (c : ℕ) (m : CallMessage) (h : Handler) (x : Bytes) :
    AddsOnly d (sendCallAsync json d c m h).2 x
      (h.asksFor x = true ∧ Succeeds (encodeWebMessage json (.call m))) := by
  have hregister := outstanding_register_le d c m.id h x
  unfold sendCallAsync
  simp only
  split_ifs
  · obtain ⟨d', htake⟩ := d.take_register c m.id h
    rw [htake]
    exact .inl ((outstanding_take_le htake x).trans hregister)
  · cases hencode : encodeWebMessage json (.call m) with
    | error e => exact .inl hregister
    | ok text =>
      have hmark : outstanding (((d.register c m.id h).markWritten c m.id).logged
          (.frame h.call m)) x = outstanding (d.register c m.id h) x +
            if h.asksFor x then 1 else 0 := outstanding_markWritten d c m.id h x
      by_cases hasks : h.asksFor x = true
      · rw [if_pos hasks] at hmark
        refine .inr ⟨⟨hasks, succeeds_ok text⟩, ?_⟩
        simp only
        omega
      · rw [if_neg hasks] at hmark
        refine .inl ?_
        simp only
        omega

theorem outstanding_failCall (d : Door) (n : ℕ) (e : CallError) (x : Bytes) :
    outstanding (failCall json d n e).2 x = outstanding d x := by
  unfold failCall
  split
  · rfl
  · rfl

theorem outstanding_runResult (d : Door) (n client : ℕ) (target : Bytes) (res : ResultMessage)
    (x : Bytes) : outstanding (runResult json d n client target res).2 x = outstanding d x := by
  unfold runResult
  split_ifs
  · rfl
  · exact outstanding_failCall ..
  · split
    · rfl
    · rfl

theorem outstanding_sendOutboundCall_le (d : Door) (c n client : ℕ) (target method token : Bytes)
    (args : List RpcValue) (x : Bytes) :
    outstanding (sendOutboundCall json d c n client target method token args).2 x ≤
      outstanding d x := by
  have hadds := adds_sendCallAsync json (d.fetchId c).2 c
    ⟨(d.fetchId c).1, token, target, method, args, []⟩ (.result n client target) x
  have hle := hadds.resolve_right fun h => absurd h.1.1 (by simp [Handler.asksFor])
  unfold sendOutboundCall
  simp only
  split
  · rename_i heq
    rwa [heq] at hle
  · rename_i heq
    rwa [heq] at hle
  · rename_i res d' heq
    rw [heq] at hle
    rw [outstanding_runResult]
    exact hle

theorem outstanding_runGrant_le (json : WireCodec) (d : Door) (n client c : ℕ) (target method : Bytes)
    (args : List RpcValue) (res : ResultMessage) (x : Bytes) :
    outstanding (runGrant json d n client c target method args res).2 x ≤ outstanding d x := by
  unfold runGrant
  simp only
  split_ifs
  · exact Nat.le_refl _
  · exact (outstanding_failCall ..).le
  · refine (outstanding_sendOutboundCall_le ..).trans ?_
    rw [outstanding_saveOutbound, outstanding_logged]

/-- No handler starts an exchange. -/
theorem outstanding_run_le (d : Door) (h : Handler) (res : ResultMessage) (x : Bytes) :
    outstanding (h.run json d res).2 x ≤ outstanding d x := by
  cases h with
  | result n client target => exact (outstanding_runResult ..).le
  | grant n client c target method args => exact outstanding_runGrant_le ..

theorem adds_requestTokenThenSend (d : Door) (c n client : ℕ) (target origin method : Bytes)
    (args : List RpcValue) (x : Bytes) :
    AddsOnly d (requestTokenThenSend json d c n client target origin method args).2 x
      (target = x ∧ Succeeds (encodeWebMessage json
        (.call (tokenRequest d (d.conn c).nextId origin target)))) := by
  have hadds := adds_sendCallAsync json ((d.logged (.asked n)).fetchId c).2 c
    (tokenRequest d (d.conn c).nextId origin target) (.grant n client c target method args) x
  have hasks : (Handler.grant n client c target method args).asksFor x = true → target = x := by
    simp [Handler.asksFor]
  have hadds' := hadds.mono (And.imp_left hasks)
  unfold requestTokenThenSend
  simp only
  split
  · rename_i heq
    rw [show sendCallAsync json ((d.logged (.asked n)).fetchId c).2 c
      (tokenRequest d (d.conn c).nextId origin target) _ = _ from heq] at hadds'
    exact hadds'
  · rename_i heq
    rw [show sendCallAsync json ((d.logged (.asked n)).fetchId c).2 c
      (tokenRequest d (d.conn c).nextId origin target) _ = _ from heq] at hadds'
    exact hadds'
  · rename_i res d' heq
    rw [show sendCallAsync json ((d.logged (.asked n)).fetchId c).2 c
      (tokenRequest d (d.conn c).nextId origin target) _ = _ from heq] at hadds'
    have hrun := outstanding_runGrant_le json d' n client c target method args res x
    rcases hadds' with hle | ⟨hcond, hle⟩
    · exact .inl (hrun.trans hle)
    · exact .inr ⟨hcond, hrun.trans hle⟩

theorem adds_dispatch (json : WireCodec) (d : Door) (n client : ℕ) (k : Client) (method : Bytes)
    (args : List RpcValue) (x : Bytes) :
    AddsOnly d (dispatch json d n client k method args).2 x
      (k.target = x ∧ ∃ c, d.openConnection = some c ∧ d.image.store.outboundToken x = [] ∧
        x ≠ kCapabilityModule ∧ Succeeds (encodeWebMessage json
          (.call (tokenRequest d (d.conn c).nextId k.origin x)))) := by
  unfold dispatch
  cases hopen : d.openConnection with
  | none => exact .inl (outstanding_failCall ..).le
  | some c =>
    simp only
    split_ifs with hheld
    · exact .inl (outstanding_sendOutboundCall_le ..)
    · rw [not_or, not_not] at hheld
      refine (adds_requestTokenThenSend ..).mono ?_
      rintro ⟨rfl, hencode⟩
      exact ⟨rfl, c, rfl, hheld.1, hheld.2, hencode⟩

end send

/-! ## What a step adds -/

section step
variable {json : WireCodec} {parse : Bytes → Option Json} {d d' : Door}

theorem adds_lpInvokeAsync {client : ℕ} {k : Client} (hclient : d.clients[client]? = some k)
    (halive : k.alive = true) (method argsJson : Option Bytes) (cb : Bool) (x : Bytes) :
    AddsOnly d (lpInvokeAsync json parse d client k method argsJson cb).2 x
      (StartsExchange json parse d (.invoke (some client) method argsJson cb) x) := by
  unfold lpInvokeAsync
  split
  · exact .inl (Nat.le_refl _)
  · exact .inl (Nat.le_refl _)
  · rename_i method hmethod
    split_ifs with hcb
    · exact .inl (Nat.le_refl _)
    · split
      · exact .inl (Nat.le_refl _)
      · exact .inl (Nat.le_refl _)
      · rename_i args hargs
        have hadds : AddsOnly d
            (dispatch json (d.accept client k.target) d.calls client k method args).2 x
            (StartsExchange json parse d (.invoke (some client) (some method) argsJson cb) x) := by
          refine AddsOnly.mono (adds_dispatch json (d.accept client k.target) d.calls
            client k method args x) ?_
          rintro ⟨htarget, c, hopen, hheld, hcap, hencode⟩
          have hcb' : cb = true := by simpa using hcb
          have hne : method ≠ [] := fun hnil => hmethod hnil
          exact ⟨client, k, method, argsJson, args, c, by rw [hcb'], hne, hclient, halive, htarget,
            hargs, hopen, hheld, hcap, hencode⟩
        split
        · rename_i heq
          rwa [heq] at hadds
        · rename_i heq
          rwa [heq] at hadds

/-- **A step adds a request only where it starts an exchange.** -/
theorem adds_next {a : Action} (hstep : next json parse d a = some d') (x : Bytes) :
    AddsOnly d d' x (StartsExchange json parse d a x) := by
  cases a with
  | create targetModule originModule =>
    obtain rfl := Option.some.inj hstep
    refine .inl (le_of_eq ?_)
    unfold lpClientCreate
    split
    · rfl
    · rfl
    · rfl
  | invoke client method argsJson cb =>
    cases client with
    | none =>
      obtain rfl := Option.some.inj hstep
      exact .inl (Nat.le_refl _)
    | some client =>
      simp only [next] at hstep
      split at hstep
      · rename_i k hclient
        split_ifs at hstep with halive
        obtain rfl := Option.some.inj hstep
        exact adds_lpInvokeAsync hclient halive method argsJson cb x
      · cases hstep
  | token call =>
    obtain rfl := Option.some.inj hstep
    exact .inl (Nat.le_refl _)
  | destroy client =>
    simp only [next] at hstep
    split_ifs at hstep
    obtain rfl := Option.some.inj hstep
    exact .inl (Nat.le_refl _)
  | setOutboundConnection c =>
    obtain rfl := Option.some.inj hstep
    exact .inl (Nat.le_refl _)
  | result c m =>
    simp only [next] at hstep
    split_ifs at hstep
    · obtain rfl := Option.some.inj hstep
      exact .inl (Nat.le_refl _)
    · split at hstep
      · rename_i htake
        obtain rfl := Option.some.inj hstep
        exact .inl ((outstanding_run_le ..).trans (outstanding_take_le htake x))
      · obtain rfl := Option.some.inj hstep
        exact .inl (Nat.le_refl _)
  | fail c reason =>
    simp only [next] at hstep
    split_ifs at hstep
    · obtain rfl := Option.some.inj hstep
      exact .inl (Nat.le_refl _)
    · obtain rfl := Option.some.inj hstep
      exact .inl List.filter_sublist.countP_le
  | failNext =>
    simp only [next] at hstep
    split at hstep
    · cases hstep
    · obtain rfl := Option.some.inj hstep
      exact .inl (outstanding_run_le ..)

end step

/-! ## Every such step adds one -/

/-- The id that a connection gives out next is not waiting for an answer. -/
def Door.FreshIds (d : Door) : Prop :=
  ∀ p ∈ d.pending, p.id ≠ (d.conn p.conn).nextId

/-- On an open connection a message that can be written is written. -/
theorem sendCallAsync_of_open {json : WireCodec} {d : Door} {c : ℕ} {m : CallMessage}
    {h : Handler} {text : Bytes} (hopen : (d.conn c).stopped = false)
    (hencode : encodeWebMessage json (.call m) = .ok text) :
    sendCallAsync json d c m h = (.written,
      ((d.register c m.id h).markWritten c m.id).logged (.frame h.call m)) := by
  have hregistered : ¬ ((d.register c m.id h).conn c).stopped = true := by
    simp [Door.register, hopen]
  unfold sendCallAsync
  simp only
  rw [if_neg hregistered, hencode]

theorem outstanding_requestTokenThenSend {json : WireCodec} {d : Door} {c : ℕ}
    (target origin : Bytes) {text : Bytes} (hfresh : d.FreshIds)
    (hopen : (d.conn c).stopped = false)
    (hencode : encodeWebMessage json (.call (tokenRequest d (d.conn c).nextId origin target)) =
      .ok text) (n client : ℕ) (method : Bytes) (args : List RpcValue) :
    outstanding (requestTokenThenSend json d c n client target origin method args).2 target =
      outstanding d target + 1 := by
  let d₁ := ((d.logged (.asked n)).fetchId c).2
  let k : Handler := .grant n client c target method args
  have hstopped : (d₁.conn c).stopped = false := by
    simpa [d₁, Door.fetchId, Door.logged] using hopen
  have hkept : outstanding (d₁.register c (d.conn c).nextId k) target = outstanding d target := by
    have hall : d.pending.filter (fun p => ¬ (p.conn = c ∧ p.id = (d.conn c).nextId)) = d.pending := by
      rw [List.filter_eq_self]
      rintro p hp
      simp only [decide_eq_true_eq]
      rintro ⟨rfl, hid⟩
      exact hfresh p hp hid
    have hpending : d₁.pending = d.pending := rfl
    unfold outstanding Door.register
    rw [hpending, hall, List.countP_append]
    simp
  have hmark := outstanding_markWritten d₁ c (d.conn c).nextId k target
  have hasks : k.asksFor target = true := beq_self_eq_true target
  rw [hkept, hasks, if_pos rfl] at hmark
  have hsend : sendCallAsync json d₁ c (tokenRequest d (d.conn c).nextId origin target) k =
      (.written, ((d₁.register c (d.conn c).nextId k).markWritten c (d.conn c).nextId).logged
        (.frame n (tokenRequest d (d.conn c).nextId origin target))) := by
    exact sendCallAsync_of_open hstopped hencode
  have hrequest : requestTokenThenSend json d c n client target origin method args =
      (false, ((d₁.register c (d.conn c).nextId k).markWritten c (d.conn c).nextId).logged
        (.frame n (tokenRequest d (d.conn c).nextId origin target))) := by
    have hrequested : sendCallAsync json ((d.logged (.asked n)).fetchId c).2 c
        (tokenRequest ((d.logged (.asked n)).fetchId c).2 ((d.logged (.asked n)).fetchId c).1
          origin target) (.grant n client c target method args) = _ := hsend
    rw [requestTokenThenSend]
    simp only [hrequested]
  rw [hrequest]
  exact hmark

/-- The condition of the theorem below leaves out no other calls: each of these adds a request,
and then there are two. -/
theorem outstanding_of_starts {json : WireCodec} {parse : Bytes → Option Json} {d d' : Door}
    {a : Action} {x : Bytes} (hfresh : d.FreshIds) (hstarts : StartsExchange json parse d a x)
    (hstep : next json parse d a = some d') : outstanding d' x = outstanding d x + 1 := by
  obtain ⟨client, k, method, argsJson, args, c, rfl, hmethod, hclient, halive, rfl, hargs, hopen,
    hheld, hcap, text, hencode⟩ := hstarts
  obtain ⟨b, method, rfl⟩ := List.exists_cons_of_ne_nil hmethod
  have hstopped : (d.conn c).stopped = false := by
    have := (Option.filter_eq_some_iff.mp hopen).2
    simpa using this
  have hrequest := outstanding_requestTokenThenSend (d := d.accept client k.target) (c := c)
    k.target k.origin hfresh hstopped hencode d.calls client (b :: method) args
  have hdispatch : dispatch json (d.accept client k.target) d.calls client k (b :: method) args =
      requestTokenThenSend json (d.accept client k.target) c d.calls client k.target k.origin
        (b :: method) args := by
    have hopen' : (d.accept client k.target).openConnection = some c := hopen
    have hheld' : ¬ ((d.accept client k.target).image.store.outboundToken k.target ≠ [] ∨
        k.target = kCapabilityModule) := by
      rintro (hne | heq)
      · exact hne hheld
      · exact hcap heq
    rw [dispatch, hopen']
    exact if_neg hheld'
  simp only [next, hclient, halive, if_true, lpInvokeAsync, hargs, Bool.not_true,
    Bool.false_eq_true, if_false, hdispatch, Option.some.injEq] at hstep
  rw [← hstep]
  split
  · rename_i heq
    rwa [heq] at hrequest
  · rename_i heq
    rwa [heq] at hrequest

/-- **One exchange for each target.**  As long as no call is made to a target without a token
while a token for that target is requested, at most one such request is outstanding. -/
theorem one_exchange_per_target {json : WireCodec} {parse : Bytes → Option Json} {d : Door}
    (h : ((door json parse).restrict fun d a =>
      ∀ x, StartsExchange json parse d a x → outstanding d x = 0).Reachable d) (x : Bytes) :
    outstanding d x ≤ 1 := by
  refine h.invariant (I := fun d => ∀ x, outstanding d x ≤ 1) ?_ ?_ x
  · rintro d rfl x
    exact Nat.zero_le _
  · rintro d a d' hinv ⟨hstep, hfits⟩ x
    rcases adds_next hstep x with hle | ⟨hstarts, hle⟩
    · exact hle.trans (hinv x)
    · rw [hfits x hstarts] at hle
      exact hle

set_option maxRecDepth 8000 in
/-- The first call to the wallet. -/
theorem one_exchange_per_target_wallet :
    ∃ d, (door textCodec fun _ => none).Reachable d ∧ outstanding d (bstr "wallet") = 1 ∧
      ∀ x, outstanding d x ≤ 1 := by
  have hinit : ((door textCodec fun _ => none).restrict fun d a => ∀ x,
    StartsExchange textCodec (fun _ => none) d a x → outstanding d x = 0).Reachable {} := .init rfl
  have hcreated := hinit.next (.create (some (bstr "wallet")) (some (bstr "ui")))
    (fun _ _ => rfl) rfl
  have hopened := hcreated.next (.setOutboundConnection (some 0)) (fun _ _ => rfl) rfl
  have hinvoked := hopened.next (.invoke (some 0) (some (bstr "balance")) none true)
    (fun _ _ => rfl) rfl
  exact ⟨_, hinvoked.of_restrict, by decide, one_exchange_per_target hinvoked⟩

set_option maxRecDepth 8000 in
/-- Two calls to the wallet, the second before the first has its token. -/
theorem exchanges_doubled :
    ¬ ∀ (json : WireCodec) (parse : Bytes → Option Json) (d : Door),
      (door json parse).Reachable d → ∀ x, outstanding d x ≤ 1 := by
  intro hone
  have htwice : TransitionSystem.exec (next textCodec fun _ => none) {}
    [.create (some (bstr "wallet")) (some (bstr "ui")), .setOutboundConnection (some 0),
      .invoke (some 0) (some (bstr "balance")) none true,
      .invoke (some 0) (some (bstr "history")) none true] = some _ := rfl
  have hle := hone textCodec (fun _ => none) _ (.of_exec (.init rfl) htwice) (bstr "wallet")
  exact absurd hle (by decide)

end LogosProtocol.OutboundDoor
