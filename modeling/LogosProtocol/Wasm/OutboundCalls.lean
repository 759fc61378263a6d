import LogosProtocol.Wasm.OutboundDoor

/-!
# What goes out of the door, and what comes back

Every Call carries a token for the module it goes to, no call is answered twice or when its
client is gone, and a call that was granted no token is answered with an error.  Each is a
rule about one event and what has happened before it.

## Main definitions

* `Allowed` — the rule.
* `Inv` — the invariant, for a door and the handler that is being run.
-/

namespace LogosProtocol.OutboundDoor

/-! ## The rule -/

/-- A token was minted for the call, or none was requested and one was stored for the target;
the capability module is called without. -/
def Credential (log : List Event) (n : ℕ) (target : Bytes) : Prop :=
  target = kCapabilityModule ∨ (∃ token, token ≠ [] ∧ .minted n target token ∈ log) ∨
    .asked n ∉ log ∧ ∃ token, token ≠ [] ∧ .saved target token ∈ log

/-- A Call to any module but the capability module carries a token that was stored or just
minted for that module.  A callback is the first of its call, its client has not been
destroyed, and it is given a value only if the call had a credential. -/
def Allowed (before : List Event) : Event → Prop
  | .frame n m => m.object ≠ kCapabilityModule → m.authToken ≠ [] ∧
      (.saved m.object m.authToken ∈ before ∨ .minted n m.object m.authToken ∈ before)
  | .callback n answer => (∀ a, .callback n a ∉ before) ∧
      ∀ client target, .invoked n client target ∈ before →
        .destroyed client ∉ before ∧ (answer.ok = true → Credential before n target)
  | _ => True

/-! ## The invariant -/

/-- The handlers that are pending, swept out or being run. -/
def Door.handlers (d : Door) (hand : Option Handler) : List Handler :=
  hand.toList ++ d.pending.map Pending.handler ++ d.swept.map fun e => e.2.handler

/-- The handler belongs to an accepted call, and answers it only if it had a credential. -/
def HandlerOk (log : List Event) (h : Handler) : Prop :=
  .invoked h.call h.client h.target ∈ log ∧
    ∀ n client target, h = .result n client target → Credential log n target

/-- The number of the call that an event is about. -/
def Event.call? : Event → Option ℕ
  | .invoked n _ _ | .asked n | .minted n _ _ | .frame n _ | .callback n _ => some n
  | .saved _ _ | .destroyed _ => none

/-- The client existed and has been destroyed. -/
def Door.Dead (d : Door) (client : ℕ) : Prop := d.clients[client]?.map Client.alive = some false

theorem Door.Dead.not_alive {d : Door} {client : ℕ} (h : d.Dead client) :
    d.alive client = false := by
  rw [Door.alive, show d.clients[client]?.map Client.alive = some false from h]
  rfl

/-- The invariant, while a handler is in hand. -/
structure Inv (d : Door) (hand : Option Handler) : Prop where
  stored : ∀ x, d.image.store.outboundToken x ≠ [] →
    .saved x (d.image.store.outboundToken x) ∈ d.log
  numbered : ∀ e ∈ d.log, ∀ n, e.call? = some n → n < d.calls
  unique : ∀ n client target client' target', .invoked n client target ∈ d.log →
    .invoked n client' target' ∈ d.log → client = client' ∧ target = target'
  handlers : ∀ h ∈ d.handlers hand, HandlerOk d.log h
  distinct : ((d.handlers hand).map Handler.call).Nodup
  unanswered : ∀ h ∈ d.handlers hand, ∀ a, .callback h.call a ∉ d.log
  dead : ∀ client, .destroyed client ∈ d.log → d.Dead client
  justified : Justified Allowed d.log

theorem HandlerOk.lt {d : Door} {hand : Option Handler} {h : Handler} (hinv : Inv d hand)
    (h' : HandlerOk d.log h) : h.call < d.calls :=
  hinv.numbered _ h'.1 _ rfl

theorem Credential.logged {log : List Event} {n : ℕ} {target : Bytes}
    (h : Credential log n target) {e : Event} (he : e ≠ .asked n) :
    Credential (log ++ [e]) n target := by
  obtain hcap | ⟨token, hne, hmem⟩ | ⟨hasked, token, hne, hmem⟩ := h
  · exact .inl hcap
  · exact .inr (.inl ⟨token, hne, List.mem_append_left _ hmem⟩)
  · refine .inr (.inr ⟨?_, token, hne, List.mem_append_left _ hmem⟩)
    intro hin
    rcases List.mem_append.mp hin with hin | hin
    · exact hasked hin
    · exact he (List.mem_singleton.mp hin).symm

theorem HandlerOk.logged {log : List Event} {h : Handler} (hok : HandlerOk log h) {e : Event}
    (he : ∀ n client target, h = .result n client target → e ≠ .asked n) :
    HandlerOk (log ++ [e]) h := by
  refine ⟨List.mem_append_left _ hok.1, ?_⟩
  intro n client target heq
  exact (hok.2 n client target heq).logged (he n client target heq)

namespace Inv
variable {d d' : Door} {hand hand' : Option Handler}

/-- **The frame rule**: nothing is logged, and handlers are moved or dropped. -/
theorem frame (h : Inv d hand) (hlog : d'.log = d.log) (hstore : d'.image.store = d.image.store)
    (hcalls : d.calls ≤ d'.calls) (hdead : ∀ client, d.Dead client → d'.Dead client)
    (hsub : (d'.handlers hand').Subperm (d.handlers hand)) : Inv d' hand' where
  stored := by
    rw [hlog, hstore]
    exact h.stored
  numbered := by
    rw [hlog]
    intro e he n hn
    exact (h.numbered e he n hn).trans_le hcalls
  unique := by
    rw [hlog]
    exact h.unique
  handlers := by
    rw [hlog]
    intro k hk
    exact h.handlers k (hsub.subset hk)
  distinct := by
    obtain ⟨l, hperm, hsublist⟩ := hsub
    rw [← (hperm.map Handler.call).nodup_iff]
    exact h.distinct.sublist (hsublist.map Handler.call)
  unanswered := by
    rw [hlog]
    intro k hk
    exact h.unanswered k (hsub.subset hk)
  dead := by
    rw [hlog]
    intro client hmem
    exact hdead client (h.dead client hmem)
  justified := by
    rw [hlog]
    exact h.justified

/-- Another handler for the same call is taken in hand. -/
theorem swap {k k' : Handler} (h : Inv d (some k)) (hcall : k'.call = k.call)
    (hok : HandlerOk d.log k') : Inv d (some k') where
  stored := h.stored
  numbered := h.numbered
  unique := h.unique
  handlers := by
    intro j hj
    rcases List.mem_cons.mp (show j ∈ k' :: d.handlers none from hj) with rfl | hj
    · exact hok
    · exact h.handlers j (show j ∈ k :: d.handlers none from List.mem_cons_of_mem k hj)
  distinct := by
    have hdistinct : (k.call :: (d.handlers none).map Handler.call).Nodup := h.distinct
    rw [← hcall] at hdistinct
    exact hdistinct
  unanswered := by
    intro j hj
    rcases List.mem_cons.mp (show j ∈ k' :: d.handlers none from hj) with rfl | hj
    · rw [hcall]
      exact h.unanswered k (show k ∈ k :: d.handlers none from List.mem_cons_self ..)
    · exact h.unanswered j (show j ∈ k :: d.handlers none from List.mem_cons_of_mem k hj)
  dead := h.dead
  justified := h.justified

/-- What is in hand is dropped. -/
theorem drop (h : Inv d hand) : Inv d none := by
  refine h.frame rfl rfl (Nat.le_refl _) (fun _ hdead => hdead) ?_
  have hsublist : (d.handlers none).Sublist (d.handlers hand) := by
    simp only [Door.handlers, Option.toList_none, List.nil_append, List.append_assoc]
    exact List.sublist_append_right hand.toList _
  exact hsublist.subperm

/-- A handler of a call that has none and has not been answered is taken in hand. -/
theorem hold {k : Handler} (h : Inv d none) (hok : HandlerOk d.log k)
    (hnone : ∀ k' ∈ d.handlers none, k'.call ≠ k.call) (hanswer : ∀ a, .callback k.call a ∉ d.log) :
    Inv d (some k) where
  stored := h.stored
  numbered := h.numbered
  unique := h.unique
  handlers := by
    intro k' hk'
    rcases List.mem_cons.mp hk' with rfl | hk'
    · exact hok
    · exact h.handlers k' hk'
  distinct := by
    refine List.nodup_cons.mpr ⟨?_, h.distinct⟩
    intro hmem
    obtain ⟨k', hk', hcall⟩ := List.mem_map.mp hmem
    exact hnone k' hk' hcall
  unanswered := by
    intro k' hk'
    rcases List.mem_cons.mp hk' with rfl | hk'
    · exact hanswer
    · exact h.unanswered k' hk'
  dead := h.dead
  justified := h.justified

/-- **The log rule**: an event that is allowed, and what else it must agree with. -/
theorem logged (h : Inv d hand) {e : Event} (hallowed : Allowed d.log e)
    (hcall : ∀ n, e.call? = some n → n < d.calls)
    (hinvoked : ∀ n client target, e = .invoked n client target →
      ∀ client' target', .invoked n client' target' ∉ d.log)
    (hcallback : ∀ n a, e = .callback n a → ∀ k ∈ d.handlers hand, k.call ≠ n)
    (hdestroyed : ∀ client, e = .destroyed client → d.Dead client)
    (hasked : ∀ n, e = .asked n → ∀ client target, .result n client target ∉ d.handlers hand) :
    Inv (d.logged e) hand where
  stored x hx := List.mem_append_left _ (h.stored x hx)
  numbered := by
    intro e' he' n hn
    rcases List.mem_append.mp he' with he' | he'
    · exact h.numbered e' he' n hn
    · rw [List.mem_singleton.mp he'] at hn
      exact hcall n hn
  unique := by
    intro n c₁ t₁ c₂ t₂ h₁ h₂
    rcases List.mem_append.mp h₁ with h₁ | h₁
    · rcases List.mem_append.mp h₂ with h₂ | h₂
      · exact h.unique n c₁ t₁ c₂ t₂ h₁ h₂
      · exact absurd h₁ (hinvoked _ _ _ (List.mem_singleton.mp h₂).symm _ _)
    · rcases List.mem_append.mp h₂ with h₂ | h₂
      · exact absurd h₂ (hinvoked _ _ _ (List.mem_singleton.mp h₁).symm _ _)
      · have heq := (List.mem_singleton.mp h₁).trans (List.mem_singleton.mp h₂).symm
        obtain ⟨-, hclient, htarget⟩ := Event.invoked.inj heq
        exact ⟨hclient, htarget⟩
  handlers := by
    intro k hk
    refine (h.handlers k hk).logged ?_
    rintro n client target rfl he
    exact hasked n he client target hk
  distinct := h.distinct
  unanswered := by
    intro k hk a hmem
    rcases List.mem_append.mp hmem with hmem | hmem
    · exact h.unanswered k hk a hmem
    · exact hcallback _ _ (List.mem_singleton.mp hmem).symm k hk rfl
  dead := by
    intro client hmem
    rcases List.mem_append.mp hmem with hmem | hmem
    · exact h.dead client hmem
    · exact hdestroyed client (List.mem_singleton.mp hmem).symm
  justified := (Justified.concat_iff e).mpr ⟨h.justified, hallowed⟩

theorem lt_calls {k : Handler} (h : Inv d (some k)) : k.call < d.calls :=
  (h.handlers k (List.mem_cons_self ..)).lt h

/-- **The callback of a call** whose handler is in hand and whose client is alive. -/
theorem answer {k : Handler} (h : Inv d (some k)) (halive : d.alive k.client = true)
    {a : Answer} (hcredential : a.ok = true → Credential d.log k.call k.target) :
    Inv (d.logged (.callback k.call a)) none := by
  have hallowed : Allowed d.log (.callback k.call a) := by
    refine ⟨h.unanswered k (List.mem_cons_self ..), ?_⟩
    intro client target hmem
    obtain ⟨rfl, rfl⟩ := h.unique _ _ _ _ _ hmem (h.handlers k (List.mem_cons_self ..)).1
    refine ⟨fun hdestroyed => ?_, hcredential⟩
    rw [(h.dead _ hdestroyed).not_alive] at halive
    cases halive
  refine h.drop.logged hallowed ?_ (by simp) ?_ (by simp) (by simp)
  · rintro n ⟨⟩
    exact h.lt_calls
  · rintro n a' ⟨⟩ k' hk' hcall
    have hnotin : k.call ∉ (d.handlers none).map Handler.call :=
      (List.nodup_cons.mp h.distinct).1
    exact hnotin (hcall ▸ List.mem_map_of_mem hk')

/-! ## The pending maps -/

theorem fetchId (h : Inv d hand) (c : ℕ) : Inv (d.fetchId c).2 hand :=
  h.frame rfl rfl (Nat.le_refl _) (fun _ hdead => hdead) (List.Subperm.refl _)

theorem register {k : Handler} (h : Inv d (some k)) (c : ℕ) (id : UInt64) :
    Inv (d.register c id k) none := by
  refine h.frame rfl rfl (Nat.le_refl _) (fun _ hdead => hdead) ?_
  have hfilter : ((d.pending.filter fun p => ¬ (p.conn = c ∧ p.id = id)).map
      Pending.handler).Sublist (d.pending.map Pending.handler) := List.filter_sublist.map _
  have hmove : (Door.handlers (d.register c id k) none).Perm
      (k :: ((d.pending.filter fun p => ¬ (p.conn = c ∧ p.id = id)).map Pending.handler ++
        d.swept.map fun e => e.2.handler)) := by
    simp only [Door.handlers, Door.register, Option.toList_none, List.nil_append, List.map_append,
      List.map_cons, List.map_nil, List.append_assoc, List.singleton_append]
    exact List.perm_middle
  exact hmove.subperm.trans (((hfilter.append (List.Sublist.refl _)).cons_cons k).subperm)

theorem markWritten (h : Inv d hand) (c : ℕ) (id : UInt64) : Inv (d.markWritten c id) hand := by
  have hsame : (d.markWritten c id).handlers hand = d.handlers hand := by
    simp only [Door.handlers, Door.markWritten, List.map_map]
    congr 2
    refine List.map_congr_left fun p _ => ?_
    simp only [Function.comp_apply]
    split_ifs <;> rfl
  exact h.frame rfl rfl (Nat.le_refl _) (fun _ hdead => hdead) (hsame ▸ List.Subperm.refl _)

theorem take (h : Inv d none) {c : ℕ} {id : UInt64} {k : Handler}
    (htake : d.take c id = some (k, d')) : Inv d' (some k) := by
  obtain ⟨p, hfind, hp⟩ := Option.map_eq_some_iff.mp htake
  obtain ⟨rfl, rfl⟩ := Prod.mk.inj hp
  refine h.frame rfl rfl (Nat.le_refl _) (fun _ hdead => hdead) ?_
  have hmem : p ∈ d.pending := List.mem_of_find?_eq_some hfind
  have hkey := List.find?_some hfind
  have hrest : (p :: d.pending.filter fun p => ¬ (p.conn = c ∧ p.id = id)).Subperm d.pending := by
    have hparts := List.filter_append_perm (fun p : Pending => decide (p.conn = c ∧ p.id = id))
      d.pending
    have hhead : [p].Sublist (d.pending.filter fun p => decide (p.conn = c ∧ p.id = id)) :=
      List.singleton_sublist.mpr (List.mem_filter.mpr ⟨hmem, hkey⟩)
    simp only [decide_not] at hparts ⊢
    exact (hhead.append (List.Sublist.refl _)).subperm.trans hparts.subperm
  obtain ⟨l, hperm, hsublist⟩ := hrest
  refine ⟨l.map Pending.handler ++ d.swept.map fun e => e.2.handler, ?_, ?_⟩
  · exact (hperm.map Pending.handler).append (List.Perm.refl _)
  · exact (hsublist.map Pending.handler).append (List.Sublist.refl _)

end Inv

/-- A token is read back under its name only. -/
theorem WasmTokenStore.outboundToken_saveOutbound {store : WasmTokenStore}
    {moduleName token : Bytes} (h : (store.saveOutbound moduleName token).1 = true) (x : Bytes) :
    (store.saveOutbound moduleName token).2.outboundToken x =
      if x = moduleName then token else store.outboundToken x := by
  rw [WasmTokenStore.saveOutbound] at h ⊢
  split_ifs at h ⊢ with hrefused hx
  · simp [WasmTokenStore.outboundToken, hx]
  · simp [WasmTokenStore.outboundToken, hx]

/-! ## Running a handler -/

namespace Inv
variable {json : WireCodec} {d d' : Door} {hand : Option Handler} {k : Handler}

theorem failCall (h : Inv d (some k)) (halive : d.alive k.client = true) (e : CallError) :
    Inv (failCall json d k.call e).2 none := by
  unfold OutboundDoor.failCall
  split
  · refine h.answer halive ?_
    intro hok
    cases hok
  · exact h.drop

theorem runResult {n client : ℕ} {target : Bytes} (h : Inv d (some (.result n client target)))
    (res : ResultMessage) : Inv (runResult json d n client target res).2 none := by
  have hcredential : Credential d.log n target :=
    (h.handlers _ (List.mem_cons_self ..)).2 n client target rfl
  unfold OutboundDoor.runResult
  by_cases halive : d.alive client = true
  · rw [halive]
    simp only [Bool.not_true, Bool.false_eq_true, if_false]
    split_ifs
    · exact h.failCall (k := .result n client target) halive _
    · split
      · exact h.answer (k := .result n client target) halive fun _ => hcredential
      · exact h.drop
  · rw [Bool.not_eq_true] at halive
    rw [halive]
    exact h.drop

/-- A send leaves its handler in hand only when it is to be answered at once. -/
theorem sendCallAsync (json : WireCodec) (h : Inv d (some k)) (c : ℕ) {m : CallMessage}
    (hframe : Allowed d.log (.frame k.call m)) :
    match sendCallAsync json d c m k with
    | (.answered _, d') => Inv d' (some k)
    | (_, d') => Inv d' none := by
  have hregistered := h.register c m.id
  unfold OutboundDoor.sendCallAsync
  simp only
  split_ifs
  · obtain ⟨d', htake⟩ := d.take_register c m.id k
    rw [htake]
    exact hregistered.take htake
  · cases encodeWebMessage json (.call m) with
    | error e => exact hregistered
    | ok text =>
      refine (hregistered.markWritten c m.id).logged hframe ?_ (by simp) (by simp) (by simp)
        (by simp)
      rintro n ⟨⟩
      exact h.lt_calls

/-- **An outbound call**: its credential is known, and it carries the token. -/
theorem sendOutboundCall (h : Inv d (some k)) (c : ℕ) {token : Bytes}
    (hcredential : Credential d.log k.call k.target)
    (htoken : k.target ≠ kCapabilityModule → token ≠ [] ∧
      (.saved k.target token ∈ d.log ∨ .minted k.call k.target token ∈ d.log))
    (method : Bytes) (args : List RpcValue) :
    Inv (sendOutboundCall json d c k.call k.client k.target method token args).2 none := by
  have hok : HandlerOk d.log (.result k.call k.client k.target) := by
    refine ⟨(h.handlers k (List.mem_cons_self ..)).1, ?_⟩
    rintro n client target ⟨⟩
    exact hcredential
  have hhand : Inv d (some (.result k.call k.client k.target)) := h.swap rfl hok
  have hsent := (hhand.fetchId c).sendCallAsync json c
    (m := ⟨(d.fetchId c).1, token, k.target, method, args, []⟩) htoken
  unfold OutboundDoor.sendOutboundCall
  simp only
  split
  · rename_i heq
    rw [heq] at hsent
    exact hsent
  · rename_i heq
    rw [heq] at hsent
    exact hsent
  · rename_i res d' heq
    rw [heq] at hsent
    exact hsent.runResult res

/-- A token is stored for one name. -/
theorem saved (h : Inv d hand) {image : WasmImage} {moduleName token : Bytes}
    (hread : ∀ x, image.store.outboundToken x =
      if x = moduleName then token else d.image.store.outboundToken x) :
    Inv (Door.logged { d with image } (.saved moduleName token)) hand := by
  have hlogged : Inv (d.logged (.saved moduleName token)) hand :=
    h.logged trivial (by simp [Event.call?]) (by simp) (by simp) (by simp) (by simp)
  refine { hlogged with stored := ?_ }
  intro x hx
  simp only [Door.logged] at hx ⊢
  rw [hread] at hx ⊢
  split_ifs at hx ⊢ with heq
  · rw [heq]
    exact List.mem_append_right _ (List.mem_singleton.mpr rfl)
  · exact List.mem_append_left _ (h.stored x hx)

theorem saveOutbound (h : Inv d hand) (moduleName token : Bytes) :
    Inv (d.saveOutbound moduleName token) hand := by
  unfold Door.saveOutbound
  simp only
  split_ifs with hsaved
  · exact h.saved (WasmTokenStore.outboundToken_saveOutbound hsaved)
  · exact h

theorem runGrant {n client c : ℕ} {target method : Bytes} {args : List RpcValue}
    (h : Inv d (some (.grant n client c target method args))) (res : ResultMessage) :
    Inv (runGrant json d n client c target method args res).2 none := by
  unfold OutboundDoor.runGrant
  by_cases halive : d.alive client = true
  · rw [halive]
    simp only [Bool.not_true, Bool.false_eq_true, if_false]
    split_ifs with hminted
    · exact h.failCall (k := .grant n client c target method args) halive _
    · have hlt : n < d.calls := h.lt_calls
      have hlogged := h.logged (e := .minted n target (mintedBy res)) trivial
        (by simpa [Event.call?] using hlt) (by simp) (by simp) (by simp) (by simp)
      have hsaved := hlogged.saveOutbound target (mintedBy res)
      have hmem : .minted n target (mintedBy res) ∈
          ((d.logged (.minted n target (mintedBy res))).saveOutbound target (mintedBy res)).log := by
        unfold Door.saveOutbound
        simp only
        split_ifs <;> simp [Door.logged]
      exact hsaved.sendOutboundCall (k := .grant n client c target method args) c
        (.inr (.inl ⟨_, hminted, hmem⟩)) (fun _ => ⟨hminted, .inr hmem⟩) method args
  · rw [Bool.not_eq_true] at halive
    rw [halive]
    exact h.drop

theorem run (h : Inv d (some k)) (res : ResultMessage) : Inv (k.run json d res).2 none := by
  cases k with
  | result n client target => exact h.runResult res
  | grant n client c target method args => exact h.runGrant res

/-! ## A call -/

theorem requestTokenThenSend {n client c c' : ℕ} {target method : Bytes} {args : List RpcValue}
    (h : Inv d (some (.grant n client c' target method args))) (origin : Bytes) :
    Inv (requestTokenThenSend json d c n client target origin method args).2 none := by
  have hlt : n < d.calls := h.lt_calls
  have hasked : Inv (d.logged (.asked n)) (some (.grant n client c' target method args)) := by
    refine h.logged trivial (by simpa [Event.call?] using hlt) (by simp) (by simp) (by simp) ?_
    rintro n' ⟨⟩ client' target' hk
    rcases List.mem_cons.mp hk with hk | hk
    · cases hk
    · have hmem := List.mem_map_of_mem (f := Handler.call) hk
      exact (List.nodup_cons.mp h.distinct).1 hmem
  have hok : HandlerOk (d.logged (.asked n)).log (.grant n client c target method args) := by
    refine ⟨(hasked.handlers _ (List.mem_cons_self ..)).1, ?_⟩
    rintro n' client' target' ⟨⟩
  have hhand : Inv (d.logged (.asked n)) (some (.grant n client c target method args)) :=
    hasked.swap rfl hok
  have hsent := (hhand.fetchId c).sendCallAsync json c
    (m := tokenRequest ((d.logged (.asked n)).fetchId c).2 ((d.logged (.asked n)).fetchId c).1
      origin target) (fun hne => absurd rfl hne)
  unfold OutboundDoor.requestTokenThenSend
  simp only
  split
  · rename_i heq
    rw [heq] at hsent
    exact hsent
  · rename_i heq
    rw [heq] at hsent
    exact hsent
  · rename_i res d' heq
    rw [heq] at hsent
    exact hsent.runGrant res

/-- A call is accepted: its number is new. -/
theorem accept (h : Inv d none) (client : ℕ) (target method : Bytes) (args : List RpcValue) :
    Inv (d.accept client target) (some (.grant d.calls client 0 target method args)) := by
  have hnew : ∀ e ∈ d.log, e.call? ≠ some d.calls := by
    intro e he hn
    exact absurd (h.numbered e he d.calls hn) (lt_irrefl _)
  have hgrown : Inv { d with calls := d.calls + 1 } none :=
    h.frame rfl rfl (Nat.le_succ _) (fun _ hdead => hdead) (List.Subperm.refl _)
  have haccepted : Inv (d.accept client target) none := by
    refine hgrown.logged trivial ?_ ?_ (by simp) (by simp) (by simp)
    · rintro n ⟨⟩
      exact Nat.lt_succ_self _
    · rintro n client' target' ⟨⟩ client'' target'' hmem
      exact hnew _ hmem rfl
  refine haccepted.hold ⟨List.mem_append_right _ (List.mem_singleton.mpr rfl), ?_⟩ ?_ ?_
  · rintro n' client' target' ⟨⟩
  · intro k hk hcall
    have hlt := (h.handlers k hk).lt h
    have heq : k.call = d.calls := hcall
    omega
  · intro a hmem
    rcases List.mem_append.mp hmem with hmem | hmem
    · exact hnew _ hmem rfl
    · cases List.mem_singleton.mp hmem

theorem dispatch (json : WireCodec) {n client : ℕ} {kl : Client} {method : Bytes}
    {args : List RpcValue} (h : Inv d (some (.grant n client 0 kl.target method args))) (halive : d.alive client = true)
    (hfresh : .asked n ∉ d.log) : Inv (dispatch json d n client kl method args).2 none := by
  unfold OutboundDoor.dispatch
  split
  · exact h.failCall (k := .grant n client 0 kl.target method args) halive _
  · rename_i c _
    simp only
    split_ifs with hheld
    · refine h.sendOutboundCall (k := .grant n client 0 kl.target method args) c ?_ ?_ method args
      · rcases hheld with hheld | hcap
        · exact .inr (.inr ⟨hfresh, _, hheld, h.stored _ hheld⟩)
        · exact .inl hcap
      · intro hne
        have hheld' := hheld.resolve_right hne
        exact ⟨hheld', .inl (h.stored _ hheld')⟩
    · exact h.requestTokenThenSend kl.origin

theorem lpInvokeAsync {parse : Bytes → Option Json} {client : ℕ} {kl : Client} (h : Inv d none)
    (halive : d.alive client = true) (method argsJson : Option Bytes) (cb : Bool) :
    Inv (lpInvokeAsync json parse d client kl method argsJson cb).2 none := by
  unfold OutboundDoor.lpInvokeAsync
  split
  · exact h
  · exact h
  · rename_i method _
    split_ifs
    · exact h
    · split
      · exact h
      · exact h
      · rename_i args _
        have hfresh : .asked d.calls ∉ (d.accept client kl.target).log := by
          intro hmem
          rcases List.mem_append.mp hmem with hmem | hmem
          · exact absurd (h.numbered _ hmem d.calls rfl) (lt_irrefl _)
          · cases List.mem_singleton.mp hmem
        have hdispatch := (h.accept client kl.target method args).dispatch json halive
          hfresh
        split
        · rename_i heq
          rw [heq] at hdispatch
          exact hdispatch
        · rename_i heq
          rw [heq] at hdispatch
          exact hdispatch

/-! ## Steps -/

theorem create (h : Inv d none) (targetModule originModule : Option Bytes) :
    Inv (lpClientCreate d targetModule originModule).2 none := by
  unfold lpClientCreate
  split
  · exact h
  · exact h
  · refine h.frame rfl rfl (Nat.le_refl _) ?_ (List.Subperm.refl _)
    intro client hdead
    have hlt : client < d.clients.length := by
      by_contra hge
      simp [Door.Dead, List.getElem?_eq_none (Nat.le_of_not_lt hge)] at hdead
    simpa [Door.Dead, List.getElem?_append_left hlt] using hdead

theorem destroy (h : Inv d none) {client : ℕ} (halive : d.alive client = true) :
    Inv (lpClientDestroy d client) none := by
  have hdead : ∀ client', d.Dead client' ∨ client' = client →
      (lpClientDestroy d client).Dead client' := by
    intro client' hor
    obtain ⟨kl, hkl, hfalse⟩ : ∃ kl, d.clients[client']? = some kl ∧
        (client' = client ∨ kl.alive = false) := by
      cases hkl : d.clients[client']? with
      | none => rcases hor with hdead | rfl <;> simp_all [Door.Dead, Door.alive]
      | some kl => rcases hor with hdead | rfl <;> simp_all [Door.Dead]
    simp only [Door.Dead, lpClientDestroy, Door.logged, List.getElem?_modify, hkl]
    rcases hfalse with rfl | hfalse
    · simp
    · by_cases heq : client = client' <;> simp [heq, hfalse]
  have hframe : Inv { d with clients := d.clients.modify client fun k => { k with alive := false } }
      none :=
    h.frame rfl rfl (Nat.le_refl _) (fun client' h' => hdead client' (.inl h'))
      (List.Subperm.refl _)
  refine hframe.logged trivial (by simp [Event.call?]) (by simp) (by simp) ?_ (by simp)
  rintro client' ⟨⟩
  exact hdead client (.inr rfl)

/-- The outbound map is left alone. -/
theorem ofStore (h : Inv d none) {image : WasmImage}
    (hstore : ∀ x, image.store.outboundToken x = d.image.store.outboundToken x) :
    Inv { d with image } none where
  stored x hx := by
    have hx' : d.image.store.outboundToken x ≠ [] := (hstore x) ▸ hx
    have hmem := h.stored x hx'
    rwa [← hstore x] at hmem
  numbered := h.numbered
  unique := h.unique
  handlers := h.handlers
  distinct := h.distinct
  unanswered := h.unanswered
  dead := h.dead
  justified := h.justified

theorem token (h : Inv d none) (parse : Bytes → Option Json) (call : TokenCall) :
    Inv { d with image := (d.image.apply parse call).2, log := d.log ++ storedBy d.image call }
      none := by
  cases call with
  | save moduleName token =>
    cases moduleName with
    | none => simpa [WasmImage.apply, WasmImage.lpTokenSave, storedBy] using h
    | some moduleName =>
      cases token with
      | none => simpa [WasmImage.apply, WasmImage.lpTokenSave, storedBy] using h
      | some token =>
        simp only [WasmImage.apply, WasmImage.lpTokenSave, storedBy]
        split_ifs with hsaved
        · exact h.saved (WasmTokenStore.outboundToken_saveOutbound hsaved)
        · simpa using h
  | saveInbound caller token =>
    cases caller with
    | none => simpa [WasmImage.apply, WasmImage.lpTokenSaveInbound, storedBy] using h
    | some caller =>
      cases token with
      | none => simpa [WasmImage.apply, WasmImage.lpTokenSaveInbound, storedBy] using h
      | some token =>
        have hinbound : ∀ x, (d.image.store.saveInbound caller token).2.outboundToken x =
            d.image.store.outboundToken x := by
          intro x
          rw [WasmTokenStore.outboundToken, WasmTokenStore.outbound_saveInbound,
            ← WasmTokenStore.outboundToken]
        simp only [WasmImage.apply, WasmImage.lpTokenSaveInbound, storedBy]
        cases hsaved : (d.image.store.saveInbound caller token).1 with
        | false => simpa using h
        | true =>
          cases hgranted : hostServiceGranted d.image.hostServices serviceTokenRegistry with
          | false => simpa using h.ofStore hinbound
          | true =>
            simp only [Bool.not_true, Bool.false_eq_true, if_false, if_true, true_and]
            split_ifs with hout
            · refine h.saved fun x => ?_
              rw [WasmTokenStore.outboundToken_saveOutbound hout, hinbound]
            · have hkept : ((d.image.store.saveInbound caller token).2.saveOutbound
                  caller token).2 = (d.image.store.saveInbound caller token).2 := by
                rw [WasmTokenStore.saveOutbound] at hout ⊢
                split_ifs at hout ⊢ with hrefused
                · rfl
                · exact absurd rfl hout
              simpa [hkept] using h.ofStore hinbound
  | get moduleName => simpa [WasmImage.apply, storedBy] using h
  | keys => simpa [WasmImage.apply, storedBy] using h
  | grant servicesJson =>
    simp only [WasmImage.apply, WasmImage.lpGrantHostServices, storedBy, List.append_nil]
    split
    · exact h
    · exact h.ofStore fun _ => rfl

theorem fail (h : Inv d none) (c : ℕ) (reason : Bytes) :
    Inv { d with
      conn := Function.update d.conn c { d.conn c with stopped := true }
      pending := d.pending.filter fun p => p.conn ≠ c
      swept := d.swept ++ (d.pending.filter fun p => p.conn = c).map fun p =>
        (failedResult reason p.id, p) } none := by
  refine h.frame rfl rfl (Nat.le_refl _) (fun _ hdead => hdead) ?_
  have hparts := (List.filter_append_perm (fun p : Pending => decide (p.conn = c)) d.pending).map
    Pending.handler
  have hswept : ∀ l : List Pending, (l.map fun p => (failedResult reason p.id, p)).map
      (fun e => e.2.handler) = l.map Pending.handler := by
    intro l
    rw [List.map_map]
    rfl
  simp only [Door.handlers, Option.toList_none, List.nil_append, List.map_append, hswept, ne_eq,
    decide_not] at hparts ⊢
  -- The swept handlers go behind those that were swept before.
  refine (List.Perm.trans ?_ (hparts.append_right _)).subperm
  rw [← List.append_assoc]
  exact (List.perm_append_comm.trans (by rw [List.append_assoc]))

theorem failNext (h : Inv d none) {res : ResultMessage} {p : Pending}
    {rest : List (ResultMessage × Pending)} (hswept : d.swept = (res, p) :: rest) :
    Inv { d with swept := rest } (some p.handler) := by
  refine h.frame rfl rfl (Nat.le_refl _) (fun _ hdead => hdead) ?_
  simp only [Door.handlers, Option.toList_none, Option.toList_some, List.nil_append, hswept,
    List.map_cons, List.cons_append]
  exact List.perm_middle.symm.subperm

theorem step {parse : Bytes → Option Json} {a : Action} (h : Inv d none)
    (hstep : next json parse d a = some d') : Inv d' none := by
  cases a with
  | create targetModule originModule =>
    obtain rfl := Option.some.inj hstep
    exact h.create targetModule originModule
  | invoke client method argsJson cb =>
    cases client with
    | none =>
      obtain rfl := Option.some.inj hstep
      exact h
    | some client =>
      simp only [next] at hstep
      split at hstep
      · rename_i kl hkl
        split_ifs at hstep with halive
        obtain rfl := Option.some.inj hstep
        exact h.lpInvokeAsync (by simp [Door.alive, hkl, halive]) method argsJson cb
      · cases hstep
  | token call =>
    obtain rfl := Option.some.inj hstep
    exact h.token parse call
  | destroy client =>
    simp only [next] at hstep
    split_ifs at hstep with halive
    obtain rfl := Option.some.inj hstep
    exact h.destroy halive
  | setOutboundConnection c =>
    obtain rfl := Option.some.inj hstep
    exact h.frame rfl rfl (Nat.le_refl _) (fun _ hdead => hdead) (List.Subperm.refl _)
  | result c m =>
    simp only [next] at hstep
    split_ifs at hstep
    · obtain rfl := Option.some.inj hstep
      exact h
    · split at hstep
      · rename_i k d'' htake
        obtain rfl := Option.some.inj hstep
        exact (h.take htake).run m
      · obtain rfl := Option.some.inj hstep
        exact h
  | fail c reason =>
    simp only [next] at hstep
    split_ifs at hstep
    · obtain rfl := Option.some.inj hstep
      exact h
    · obtain rfl := Option.some.inj hstep
      exact h.fail c reason
  | failNext =>
    simp only [next] at hstep
    split at hstep
    · cases hstep
    · rename_i res p rest hswept
      obtain rfl := Option.some.inj hstep
      exact (h.failNext hswept).run res

theorem initial : Inv {} none where
  stored x hx := absurd rfl hx
  numbered := by simp
  unique := by simp
  handlers := by simp [Door.handlers]
  distinct := by simp [Door.handlers]
  unanswered := by simp
  dead := by simp
  justified := .nil

end Inv

/-- **The outbound door is safe.**  In every run, each Call that is written and each callback
that is invoked is allowed by what has happened before it. -/
theorem outbound_allowed {json : WireCodec} {parse : Bytes → Option Json} {d : Door}
    (h : (door json parse).Reachable d) : Justified Allowed d.log := by
  refine (h.invariant (I := fun d => Inv d none) ?_ fun d a d' hinv hstep => hinv.step hstep).justified
  rintro d rfl
  exact .initial

/-- A first call to the wallet: a token is requested and minted, the parked call goes out and is
answered. -/
def firstCall : List Action :=
  [.create (some (bstr "wallet")) (some (bstr "ui")), .setOutboundConnection (some 0),
    .invoke (some 0) (some (bstr "balance")) none true,
    .result 0 { id := 1, ok := true, value := .string (bstr "t0ken") },
    .result 0 { id := 2, ok := true, value := .int 7 }, .destroy 0]

set_option maxRecDepth 8000 in
theorem outbound_allowed_firstCall :
    ∃ d, TransitionSystem.exec (next textCodec fun _ => none) {} firstCall = some d ∧
      Justified Allowed d.log ∧ .callback 0 (.value (.int 7)) ∈ d.log := by
  have hexec : TransitionSystem.exec (next textCodec fun _ => none) {} firstCall = some _ := rfl
  refine ⟨_, hexec, outbound_allowed (.of_exec (.init rfl) hexec), ?_⟩
  exact List.mem_of_getElem? (i := 6) rfl

end LogosProtocol.OutboundDoor
