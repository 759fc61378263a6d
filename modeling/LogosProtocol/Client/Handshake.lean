import LogosProtocol.Client.ApiClient
import LogosProtocol.Lib.SingleFlight

/-!
# The handshakes of a client

The asynchronous calls to a target without a token are jobs behind one flight: the wait until
the target can be acquired, which goes on as the exchange with capability_module.  The flight
lands with the token, at the deadline, or when the wait is refused.

## Main definitions

* `view` — the queues of a client and the loops that drain them, as jobs and flights.
* `Change` — what a step does to them.
* `Books` — the numbers in use, and the timers.
-/

namespace LogosProtocol.ApiClient

open SingleFlight (View Step Inv)

/-! ## Jobs and flights -/

inductive Flight
  | wait (n : ℕ)
  | exchange (n : ℕ)
  deriving DecidableEq, Repr

/-- The token that continuations are given, and whether the target is reachable. -/
abbrev Outcome := QString × Bool

namespace Client

/-- The waits for a target that are not over. -/
def waiting (c : Client) (name : QString) : List ℕ :=
  (c.readiness.filter fun w => ¬ w.done ∧ w.objectName = name).map Readiness.number

/-- The asynchronous exchanges for a target. -/
def exchanging (c : Client) (name : QString) : List ℕ :=
  (c.exchanges.filter fun e => e.objectName = name).map Exchange.number

end Client

def Instr.looped : Instr → Option (ℕ × Outcome)
  | .run k token reachable => some (k.number, token, reachable)
  | _ => none

def Event.ranOf : Event → Option (ℕ × Outcome)
  | .ran k token reachable => some (k, token, reachable)
  | _ => none

def Event.landing : Event → Option (List ℕ × Outcome)
  | .drained _ ks _ token reachable => some (ks, token, reachable)
  | _ => none

def Event.queuedOf : Event → Option ℕ
  | .queued k _ => some k
  | _ => none

def view (c : Client) (k : List Instr) : View QString ℕ Flight Outcome where
  queue x := (c.queue x).map Continuation.number
  flights x := (c.waiting x).map .wait ++ (c.exchanging x).map .exchange
  loop := k.filterMap Instr.looped
  ran := c.log.filterMap Event.ranOf
  landings := c.log.filterMap Event.landing
  issued := c.log.filterMap Event.queuedOf

/-! ## What a step does -/

/-- Nothing to the queues. -/
structure Event.Plain (e : Event) : Prop where
  ran : e.ranOf = none
  landing : e.landing = none
  queued : e.queuedOf = none

/-- The queues, the waits and the exchanges are as they were. -/
structure Quiet (c c' : Client) : Prop where
  handshakes : c'.pendingHandshakes = c.pendingHandshakes
  pending : c'.pendingReadiness = c.pendingReadiness
  readiness : c'.readiness = c.readiness
  exchanges : c'.exchanges = c.exchanges
  next : c.nextNumber ≤ c'.nextNumber
  log : ∃ es, c'.log = c.log ++ es ∧ ∀ e ∈ es, e.Plain

/-- Neither a loop nor a wait that is being registered. -/
structure Instr.Idle (i : Instr) : Prop where
  looped : i.looped = none
  registering : ∀ n, i ≠ .registering n

/-- The wait of a target is over. -/
def Client.close (c : Client) (w : Readiness) (timer : Readiness → Option ℕ) : Client :=
  { c.setWait w.number fun w => { w with done := true, timer := timer w } with
    pendingReadiness := c.pendingReadiness.erase w.objectName }

/-- A call is queued. -/
def Client.enqueue (c : Client) (name : QString) (k : Continuation) : Client :=
  { c with
    nextNumber := c.nextNumber + 1
    pendingHandshakes := c.pendingHandshakes.insert name (c.queue name ++ [k]) }.emit
      (.queued k.number name)

/-- An exchange is answered, and the token may be stored. -/
def Client.settle (c : Client) (e : Exchange) (store : TokenManager) : Client :=
  { c with exchanges := c.exchanges.eraseP fun e' => e'.number = e.number, store := store }

/-- What one instruction or call does: `l` is the instruction, `l'` what takes its place. -/
inductive Change (c : Client) : List Instr → Client → List Instr → Prop
  | quiet {l l' : List Instr} {c' : Client} (hquiet : Quiet c c')
      (hl : ∀ i ∈ l, i.looped = none) (hl' : ∀ i ∈ l', i.Idle)
      (hdone : ∀ n, .registering n ∈ l → ∀ w ∈ c.readiness, w.number = n → w.done = true) :
    Change c l c' l'
  | wait {l : List Instr} (name : QString) (call : AsyncCall) (hqueue : c.queue name ≠ [])
      (hl : ∀ i ∈ l, i.Idle) : Change c l (c.enqueue name ⟨c.nextNumber, call⟩) []
  | start {l : List Instr} (name : QString) (call : AsyncCall) (timeout : Int)
      (hqueue : c.queue name = []) (hl : ∀ i ∈ l, i.Idle) :
    Change c l ((c.enqueue name ⟨c.nextNumber, call⟩).beginReadinessGatedHandshake name timeout).1
      [.registering (c.nextNumber + 1)]
  | arm (n id : ℕ) (due : Readiness → ℕ) :
    Change c [.registering n] (c.setWait n fun w => { w with id := id, timer := some (due w) }) []
  | expire (n : ℕ) (hdone : ∀ w ∈ c.readiness, w.number = n → w.done = true) :
    Change c [] (c.setWait n fun w => { w with timer := none }) []
  | grant (w : Readiness) (hw : w ∈ c.readiness) (hdone : w.done = false)
      (timer : Readiness → Option ℕ) :
    Change c [] ((c.close w timer).startCapabilityHandshake w.objectName w.timeout).1 [.transport]
  | refuse {l : List Instr} (w : Readiness) (hw : w ∈ c.readiness) (hdone : w.done = false)
      (timer : Readiness → Option ℕ) (edge : Edge) (hl : l = [] ∨ l = [.registering w.number]) :
    Change c l ((c.close w timer).drainPendingHandshakes w.objectName edge [] false).1
      ((c.close w timer).drainPendingHandshakes w.objectName edge [] false).2
  | mint (e : Exchange) (he : e ∈ c.exchanges) (token : QString) (store : TokenManager) :
    Change c [] ((c.settle e store).drainPendingHandshakes e.objectName .minted token true).1
      ((c.settle e store).drainPendingHandshakes e.objectName .minted token true).2
  | run {l' : List Instr} {c' : Client} (k : Continuation) (token : QString) (reachable : Bool)
      (hquiet : Quiet (c.emit (.ran k.number token reachable)) c') (hl' : ∀ i ∈ l', i.Idle) :
    Change c [.run k token reachable] c' l'

/-- The numbers in use, and the timers. -/
structure Books (c : Client) (k : List Instr) : Prop where
  queued : ∀ n ∈ c.log.filterMap Event.queuedOf, n < c.nextNumber
  waits : (c.readiness.map Readiness.number).Nodup
  waits_lt : ∀ w ∈ c.readiness, w.number < c.nextNumber
  exchanges : (c.exchanges.map Exchange.number).Nodup
  exchanges_lt : ∀ e ∈ c.exchanges, e.number < c.nextNumber
  /-- What is pending is the wait that is not over. -/
  current : ∀ x n, c.pendingReadiness.lookup x = some n ↔ n ∈ c.waiting x
  /-- A wait that is not over has a deadline. -/
  timed : ∀ w ∈ c.readiness, w.done = false →
    w.timer.isSome = true ∨ .registering w.number ∈ k

namespace Quiet
variable {c c' c'' : Client}

theorem of_same (hhandshakes : c'.pendingHandshakes = c.pendingHandshakes)
    (hpending : c'.pendingReadiness = c.pendingReadiness) (hreadiness : c'.readiness = c.readiness)
    (hexchanges : c'.exchanges = c.exchanges) (hnext : c.nextNumber ≤ c'.nextNumber)
    (hlog : c'.log = c.log) : Quiet c c' :=
  ⟨hhandshakes, hpending, hreadiness, hexchanges, hnext, [], by rw [hlog, List.append_nil], by simp⟩

theorem refl (c : Client) : Quiet c c := of_same rfl rfl rfl rfl le_rfl rfl

theorem trans (h : Quiet c c') (h' : Quiet c' c'') : Quiet c c'' where
  handshakes := h'.handshakes.trans h.handshakes
  pending := h'.pending.trans h.pending
  readiness := h'.readiness.trans h.readiness
  exchanges := h'.exchanges.trans h.exchanges
  next := h.next.trans h'.next
  log := by
    obtain ⟨es, hlog, hes⟩ := h.log
    obtain ⟨es', hlog', hes'⟩ := h'.log
    refine ⟨es ++ es', by rw [hlog', hlog, List.append_assoc], fun e he => ?_⟩
    exact (List.mem_append.mp he).elim (hes e) (hes' e)

theorem emit (c : Client) {e : Event} (he : e.Plain) : Quiet c (c.emit e) :=
  ⟨rfl, rfl, rfl, rfl, le_rfl, [e], rfl, by simpa using he⟩

theorem pass (c : Client) (o : Oracle) : Quiet c (c.pass o) := of_same rfl rfl rfl rfl le_rfl rfl

/-- What is plain is not seen. -/
theorem log_eq (h : Quiet c c') {α : Type} {f : Event → Option α}
    (hf : ∀ e : Event, e.Plain → f e = none) : c'.log.filterMap f = c.log.filterMap f := by
  obtain ⟨es, hlog, hes⟩ := h.log
  rw [hlog, List.filterMap_append, List.filterMap_eq_nil_iff.mpr fun e he => hf e (hes e he),
    List.append_nil]

theorem view_eq (h : Quiet c c') (k : List Instr) : view c' k = view c k := by
  simp only [view, Client.queue, Client.waiting, Client.exchanging, h.handshakes, h.readiness,
    h.exchanges, h.log_eq fun e he => he.ran, h.log_eq fun e he => he.landing,
    h.log_eq fun e he => he.queued]

theorem books (h : Quiet c c') {k : List Instr} (hbooks : Books c k) : Books c' k where
  queued n hn := by
    rw [h.log_eq fun e he => he.queued] at hn
    exact (hbooks.queued n hn).trans_le h.next
  waits := h.readiness ▸ hbooks.waits
  waits_lt w hw := (hbooks.waits_lt w (h.readiness ▸ hw)).trans_le h.next
  exchanges := h.exchanges ▸ hbooks.exchanges
  exchanges_lt e he := (hbooks.exchanges_lt e (h.exchanges ▸ he)).trans_le h.next
  current x n := by
    rw [h.pending, Client.waiting, h.readiness]
    exact hbooks.current x n
  timed w hw := hbooks.timed w (h.readiness ▸ hw)

end Quiet

section changes
variable {s : Setup} {c : Client} {k : List Instr} {o : Oracle} {r : Client × List Instr}

/-- What `waitOf` finds. -/
theorem waitOf_eq_some {n : ℕ} {w : Readiness} (h : c.waitOf n = some w) :
    w ∈ c.readiness ∧ w.number = n :=
  ⟨List.mem_of_find?_eq_some h, by simpa using List.find?_some h⟩

/-- A number names one wait. -/
theorem Books.wait_eq (h : Books c k) {w w' : Readiness} (hw : w ∈ c.readiness)
    (hw' : w' ∈ c.readiness) (hn : w'.number = w.number) : w' = w :=
  List.inj_on_of_nodup_map h.waits hw' hw hn

theorem mem_waiting {name : QString} {n : ℕ} : n ∈ c.waiting name ↔
    ∃ w ∈ c.readiness, w.done = false ∧ w.objectName = name ∧ w.number = n := by
  simp [Client.waiting, and_assoc]

theorem setWait_setWait (c : Client) (n : ℕ) {f : Readiness → Readiness}
    (hf : ∀ w, (f w).number = w.number) (g : Readiness → Readiness) :
    (c.setWait n f).setWait n g = c.setWait n fun w => g (f w) := by
  simp only [Client.setWait, List.map_map]
  congr 1
  refine List.map_congr_left fun w _ => ?_
  by_cases hn : w.number = n <;> simp [hn, hf]

/-- The wait that is pending for a target is the one that is not over. -/
theorem Books.pending (h : Books c k) {w : Readiness} (hw : w ∈ c.readiness)
    (hdone : w.done = false) : c.pendingReadiness.lookup w.objectName = some w.number :=
  (h.current _ _).mpr (mem_waiting.mpr ⟨w, hw, hdone, rfl, rfl⟩)

/-- What `finishReadiness` finds. -/
theorem finishReadiness_eq {name : QString} {n : ℕ}
    (h : c.pendingReadiness.lookup name = some n) : c.finishReadiness name =
      { c.setWait n fun w => { w with timer := none } with
        pendingReadiness := c.pendingReadiness.erase name } := by
  simp only [Client.finishReadiness, h]

/-- A wait that is over, and its timer. -/
theorem Books.finished (h : Books c k) {w : Readiness} (hw : w ∈ c.readiness)
    (hdone : w.done = false) {f : Readiness → Readiness} (hf : ∀ w, (f w).number = w.number)
    (hf' : ∀ w, { f w with timer := none } = { w with done := true, timer := none }) :
    (c.setWait w.number f).finishReadiness w.objectName = c.close w fun _ => none := by
  have hlookup : (c.setWait w.number f).pendingReadiness.lookup w.objectName = some w.number :=
    h.pending hw hdone
  rw [finishReadiness_eq hlookup, setWait_setWait _ _ hf]
  simp only [hf', Client.close]
  rfl

theorem idle_transport : ∀ i ∈ [Instr.transport], i.Idle := by
  simpa using ⟨rfl, nofun⟩

theorem idle_callback : ∀ i ∈ [Instr.callback], i.Idle := by
  simpa using ⟨rfl, nofun⟩

theorem idle_nil : ∀ i ∈ ([] : List Instr), i.Idle := by simp

/-- A call that goes to the consumer. -/
theorem quiet_dispatch (c : Client) (call : AsyncCall) (token : QString) :
    Quiet c (c.dispatch call token).1 ∧ ∀ i ∈ (c.dispatch call token).2, i.Idle :=
  ⟨⟨rfl, rfl, rfl, rfl, Nat.le_succ _, _, rfl, by simpa using ⟨rfl, rfl, rfl⟩⟩, idle_transport⟩

theorem quiet_answer (c : Client) (call : AsyncCall) (value : QVariant) (err : CallError) :
    Quiet c (c.answer call value err).1 ∧ ∀ i ∈ (c.answer call value err).2, i.Idle :=
  ⟨.emit c ⟨rfl, rfl, rfl⟩, idle_callback⟩

theorem quiet_onResult (s : Setup) (c : Client) (call : AsyncCall) (sent : QString)
    (value : QVariant) (err : CallError) :
    Quiet c (c.onResult s call sent value err).1 ∧
      ∀ i ∈ (c.onResult s call sent value err).2, i.Idle := by
  simp only [Client.onResult]
  split_ifs
  · refine ⟨⟨rfl, rfl, rfl, rfl, le_rfl, _, rfl, by simpa using ⟨rfl, rfl, rfl⟩⟩, ?_⟩
    simpa using ⟨rfl, nofun⟩
  · exact quiet_answer c call _ _
  · exact quiet_answer c call _ _

/-- The asynchronous call queues, or goes to the consumer. -/
theorem change_invoke {l : List Instr} (call : AsyncCall) (hl : ∀ i ∈ l, i.Idle) :
    Change c l (c.invokeRemoteMethodAsyncImpl s call).1 (c.invokeRemoteMethodAsyncImpl s call).2 := by
  simp only [Client.invokeRemoteMethodAsyncImpl]
  split_ifs with htoken hlong
  · have hqueue : c.queue call.objectName ≠ [] := by
      rintro hnone
      simp [hnone] at hlong
    exact .wait call.objectName call hqueue hl
  · have hqueue : c.queue call.objectName = [] := by
      have hlen : (c.queue call.objectName).length = 0 := by
        simp only [List.length_append, List.length_singleton] at hlong
        omega
      exact List.length_eq_zero_iff.mp hlen
    exact .start call.objectName call call.request.timeout hqueue hl
  · obtain ⟨hquiet, hidle⟩ := quiet_dispatch c call (c.getToken call.objectName)
    exact .quiet hquiet (fun i hi => (hl i hi).looped) hidle
      fun n hn => absurd rfl ((hl _ hn).registering n)

/-- The synchronous path leaves the queues alone. -/
theorem quiet_returns (c : Client) (call : SyncCall) (value : QVariant) (err : CallError) :
    Quiet c (c.returns call value err).1 ∧ ∀ i ∈ (c.returns call value err).2, i.Idle :=
  ⟨.emit c ⟨rfl, rfl, rfl⟩, idle_nil⟩

theorem quiet_callTarget (c : Client) (call : SyncCall) (token : QString) (retried : Bool) :
    Quiet c (c.callTarget call token retried).1 ∧
      ∀ i ∈ (c.callTarget call token retried).2, i.Idle :=
  ⟨.emit c ⟨rfl, rfl, rfl⟩, by simpa [Client.callTarget] using ⟨rfl, nofun⟩⟩

theorem quiet_mintAndCacheToken (c : Client) (call : SyncCall) (timeout : Int) (retried : Bool) :
    Quiet c (c.mintAndCacheToken call timeout retried).1 ∧
      ∀ i ∈ (c.mintAndCacheToken call timeout retried).2, i.Idle :=
  ⟨.emit c ⟨rfl, rfl, rfl⟩, by simpa [Client.mintAndCacheToken] using ⟨rfl, nofun⟩⟩

theorem quiet_invokeRemoteMethod (s : Setup) (c : Client) (call : SyncCall) :
    Quiet c (c.invokeRemoteMethod s call).1 ∧ ∀ i ∈ (c.invokeRemoteMethod s call).2, i.Idle := by
  simp only [Client.invokeRemoteMethod]
  split_ifs
  · exact ⟨.refl c, by simpa using ⟨rfl, nofun⟩⟩
  · exact quiet_callTarget c call _ _

theorem quiet_ensured (c : Client) (call : SyncCall) (start : ℕ) (found : Bool) :
    Quiet c (c.ensured call start found).1 ∧ ∀ i ∈ (c.ensured call start found).2, i.Idle := by
  simp only [Client.ensured]
  split_ifs
  · exact quiet_mintAndCacheToken c call _ _
  · exact quiet_callTarget c call _ _
  · exact quiet_returns c call _ _

theorem quiet_minted (c : Client) (call : SyncCall) (retried : Bool) (token : QString) :
    Quiet c (c.minted call retried token).1 ∧ ∀ i ∈ (c.minted call retried token).2, i.Idle := by
  have hstored : Quiet c (if token = [] then c
      else { c with store := c.store.saveToken call.objectName token }) := by
    split_ifs
    · exact .refl c
    · exact .of_same rfl rfl rfl rfl le_rfl rfl
  simp only [Client.minted]
  generalize (if token = [] then c
      else { c with store := c.store.saveToken call.objectName token }) = c₁ at hstored ⊢
  split_ifs
  · exact ⟨hstored.trans (quiet_callTarget c₁ call _ _).1, (quiet_callTarget c₁ call _ _).2⟩
  · exact ⟨hstored.trans (quiet_returns c₁ call _ _).1, (quiet_returns c₁ call _ _).2⟩

theorem quiet_returned (s : Setup) (c : Client) (call : SyncCall) (sent : QString) (retried : Bool)
    (value : QVariant) (err : CallError) :
    Quiet c (c.returned s call sent retried value err).1 ∧
      ∀ i ∈ (c.returned s call sent retried value err).2, i.Idle := by
  simp only [Client.returned]
  split_ifs
  · have hremoved : Quiet c ({ c with store := (c.store.removeToken call.objectName).2 }.emit
        (.rejected call.number call.objectName sent)) :=
      ⟨rfl, rfl, rfl, rfl, le_rfl, _, rfl, by simpa using ⟨rfl, rfl, rfl⟩⟩
    have hmint := quiet_mintAndCacheToken ({ c with
      store := (c.store.removeToken call.objectName).2 }.emit
        (.rejected call.number call.objectName sent)) call call.request.timeout true
    exact ⟨hremoved.trans hmint.1, hmint.2⟩
  · exact quiet_returns c call _ _
  · exact quiet_returns c call _ _

/-- A change that leaves the queues alone. -/
theorem Change.of_quiet {l l' : List Instr} {c' : Client}
    (h : Quiet c c' ∧ ∀ i ∈ l', i.Idle) (hl : ∀ i ∈ l, i.Idle) : Change c l c' l' :=
  .quiet h.1 (fun i hi => (hl i hi).looped) h.2 fun n hn => absurd rfl ((hl _ hn).registering n)

theorem change_registered {n id : ℕ} (h : Books c k) (hr : c.registered n id = some r) :
    Change c [.registering n] r.1 r.2 := by
  obtain ⟨w, hw, rfl⟩ := Option.map_eq_some_iff.mp hr
  obtain ⟨hmem, rfl⟩ := waitOf_eq_some hw
  split_ifs with hdone hid
  · refine .quiet (.refl c) (by simp [Instr.looped]) idle_nil fun m hm w' hw' hn => ?_
    obtain rfl : m = w.number := by simpa using hm
    rwa [h.wait_eq hmem hw' hn]
  · exact .refuse w hmem (by simpa using hdone) Readiness.timer .refused (.inr rfl)
  · exact .arm w.number id _

/-- Running an instruction. -/
theorem exec_change {i : Instr} (h : Books c (i :: k)) (hexec : exec s c i o = some r) :
    ∃ c₁, Quiet c c₁ ∧ Change c₁ [i] r.1 r.2 := by
  refine ⟨c.pass o, .pass c o, ?_⟩
  have hbooks : Books (c.pass o) (i :: k) := (Quiet.pass c o).books h
  generalize hpass : c.pass o = c₁ at hbooks ⊢
  have hidle : ∀ j : Instr, j.looped = none → (∀ n, j ≠ .registering n) → ∀ i ∈ [j], i.Idle :=
    fun j hj hn => by simpa using ⟨hj, hn⟩
  cases i with
  | callback =>
    cases hexec
    rw [hpass]
    exact .of_quiet ⟨.refl c₁, idle_nil⟩ idle_callback
  | transport =>
    cases hexec
    rw [hpass]
    exact .of_quiet ⟨.refl c₁, idle_nil⟩ idle_transport
  | registering n =>
    simp only [exec, hpass] at hexec
    exact change_registered hbooks hexec
  | invoke call =>
    simp only [exec, hpass, Option.some.injEq] at hexec
    subst hexec
    exact change_invoke call (hidle _ rfl nofun)
  | run k' token reachable =>
    simp only [exec, hpass, Option.some.injEq] at hexec
    subst hexec
    simp only [Client.runContinuation]
    split_ifs
    · obtain ⟨hquiet, hstack⟩ := quiet_dispatch (c₁.emit (.ran k'.number token reachable)) k'.call token
      exact .run k' token reachable hquiet hstack
    · obtain ⟨hquiet, hstack⟩ := quiet_onResult s (c₁.emit (.ran k'.number token reachable)) k'.call []
        .invalid (errObjectUnavailable k'.call.objectName)
      exact .run k' token reachable hquiet hstack
  | ensureTarget call start =>
    simp only [exec, hpass, Option.some.injEq] at hexec
    subst hexec
    exact .of_quiet (quiet_ensured c₁ call start o.found) (hidle _ rfl nofun)
  | mint call timeout retried =>
    simp only [exec, hpass, Option.some.injEq] at hexec
    subst hexec
    exact .of_quiet (quiet_minted c₁ call retried o.token) (hidle _ rfl nofun)
  | callTarget call token retried =>
    simp only [exec, hpass, Option.some.injEq] at hexec
    subst hexec
    exact .of_quiet (quiet_returned s c₁ call token retried o.value o.err) (hidle _ rfl nofun)

theorem change_ready {n : ℕ} {b : Bool} (h : Books c k) (hr : c.ready n b = some r) :
    Change c [] r.1 r.2 := by
  obtain ⟨w, hw, rfl⟩ := Option.map_eq_some_iff.mp hr
  obtain ⟨hmem, rfl⟩ := waitOf_eq_some hw
  split_ifs with hdone hready
  · exact .of_quiet ⟨.refl c, idle_nil⟩ idle_nil
  · have hopen : w.done = false := by simpa using hdone
    have hclosed := h.finished hmem hopen (f := fun w => { w with done := true })
      (fun _ => rfl) fun _ => rfl
    rw [hclosed]
    exact .grant w hmem hopen _
  · have hopen : w.done = false := by simpa using hdone
    have hclosed := h.finished hmem hopen (f := fun w => { w with done := true })
      (fun _ => rfl) fun _ => rfl
    rw [hclosed]
    exact .refuse w hmem hopen _ .refused (.inl rfl)

theorem change_deadline {n : ℕ} (h : Books c k) (hr : c.deadline n = some r) :
    Change c [] r.1 r.2 := by
  obtain ⟨w, hw, hr⟩ := Option.bind_eq_some_iff.mp hr
  obtain ⟨hmem, rfl⟩ := waitOf_eq_some hw
  simp only [Option.ite_none_right_eq_some] at hr
  obtain ⟨-, hr⟩ := hr
  split_ifs at hr with hdone
  · obtain rfl := Option.some.inj hr
    exact .expire w.number fun w' hw' hn => by rwa [h.wait_eq hmem hw' hn]
  · obtain rfl := Option.some.inj hr
    have hopen : w.done = false := by simpa using hdone
    have hclosed := h.finished hmem hopen (f := fun w => { w with timer := none, done := true })
      (fun _ => rfl) fun _ => rfl
    rw [setWait_setWait c w.number (f := fun w => { w with timer := none }) fun _ => rfl, hclosed]
    exact .refuse w hmem hopen _ .deadline (.inl rfl)

theorem change_reply {n : ℕ} {token : QString} (hr : c.reply n token = some r) :
    Change c [] r.1 r.2 := by
  obtain ⟨e, he, rfl⟩ := Option.map_eq_some_iff.mp hr
  have hmem := List.mem_of_find?_eq_some he
  have hn : e.number = n := by simpa using List.find?_some he
  subst hn
  exact .mint e hmem token _

/-- Accepting a call, or what the event loop delivers. -/
theorem call_change {op : Op} (h : Books c k) (hcall : call s c op o = some r) :
    ∃ c₁, Quiet c c₁ ∧ Change c₁ [] r.1 r.2 := by
  have hpass := Quiet.pass c o
  have hbooks : Books (c.pass o) k := hpass.books h
  have hnumbered : Quiet (c.pass o) { c.pass o with nextNumber := (c.pass o).nextNumber + 1 } :=
    .of_same rfl rfl rfl rfl (Nat.le_succ _) rfl
  cases op with
  | invokeRemoteMethod request hasErr =>
    obtain rfl := Option.some.inj hcall
    refine ⟨_, hpass.trans hnumbered, ?_⟩
    exact .of_quiet (quiet_invokeRemoteMethod s _ _) idle_nil
  | invokeRemoteMethodAsync request callback =>
    cases callback with
    | none =>
      obtain rfl := Option.some.inj hcall
      exact ⟨_, hpass, .of_quiet ⟨.refl _, idle_nil⟩ idle_nil⟩
    | some callback =>
      obtain rfl := Option.some.inj hcall
      refine ⟨_, hpass.trans hnumbered, ?_⟩
      exact change_invoke _ idle_nil
  | ready n ready => exact ⟨_, hpass, change_ready hbooks hcall⟩
  | deadline n => exact ⟨_, hpass, change_deadline hbooks hcall⟩
  | reply n token => exact ⟨_, hpass, change_reply hcall⟩
  | result n value err =>
    obtain ⟨d, -, rfl⟩ := Option.map_eq_some_iff.mp hcall
    have hsent : Quiet (c.pass o) { c.pass o with
        dispatches := (c.pass o).dispatches.eraseP fun d => d.number = n } :=
      .of_same rfl rfl rfl rfl le_rfl rfl
    exact ⟨_, hpass.trans hsent, .of_quiet (quiet_onResult s _ _ _ _ _) idle_nil⟩

end changes

/-! ## A step is a step of the flights -/

section views
variable {c : Client} {k : List Instr}

/-- Instructions that drain nothing. -/
theorem view_idle (c : Client) {l : List Instr} (hl : ∀ i ∈ l, i.looped = none)
    (k : List Instr) : view c (l ++ k) = view c k := by
  simp only [view, List.filterMap_append, List.filterMap_eq_nil_iff.mpr hl, List.nil_append]

theorem queue_insert (c : Client) (name x : QString) (calls : List Continuation) :
    ((c.pendingHandshakes.insert name calls).lookup x).getD [] =
      Function.update c.queue name calls x := by
  by_cases hx : x = name
  · subst hx
    simp
  · rw [AList.lookup_insert_ne hx, Function.update_of_ne hx]
    rfl

theorem queue_erase (c : Client) (name x : QString) :
    ((c.pendingHandshakes.erase name).lookup x).getD [] = Function.update c.queue name [] x := by
  by_cases hx : x = name
  · subst hx
    simp
  · rw [AList.lookup_erase_ne hx, Function.update_of_ne hx]
    rfl

/-- A new job. -/
theorem view_enqueue (c : Client) (name : QString) (j : Continuation) (k : List Instr) :
    view (c.enqueue name j) k = { view c k with
      queue := Function.update (view c k).queue name ((view c k).queue name ++ [j.number])
      issued := (view c k).issued ++ [j.number] } := by
  have hqueue : (fun x => ((c.enqueue name j).queue x).map Continuation.number) =
      Function.update (view c k).queue name ((view c k).queue name ++ [j.number]) := by
    funext x
    simp only [Client.queue, Client.enqueue, Client.emit, queue_insert]
    by_cases hx : x = name
    · subst hx
      simp [view, Client.queue]
    · simp [hx, view]
  have hlog : (c.enqueue name j).log = c.log ++ [.queued j.number name] := rfl
  simp only [view] at hqueue ⊢
  rw [hqueue]
  simp only [hlog, List.filterMap_append]
  simp [Event.ranOf, Event.landing, Event.queuedOf]
  rfl

/-- A wait that is changed, and not ended. -/
theorem waiting_setWait (c : Client) (n : ℕ) {f : Readiness → Readiness}
    (hnumber : ∀ w, (f w).number = w.number) (hname : ∀ w, (f w).objectName = w.objectName)
    (hdone : ∀ w, (f w).done = w.done) (x : QString) :
    (c.setWait n f).waiting x = c.waiting x := by
  simp only [Client.waiting, Client.setWait, List.filter_map, List.map_map]
  have hnumber' : ∀ w : Readiness, (if w.number = n then f w else w).number = w.number := by
    intro w
    split_ifs
    · exact hnumber w
    · rfl
  have hkeep : ∀ w : Readiness, (decide (¬ (if w.number = n then f w else w).done = true ∧
      (if w.number = n then f w else w).objectName = x)) = decide (¬ w.done = true ∧ w.objectName = x) := by
    intro w
    split_ifs
    · rw [hname, hdone]
    · rfl
  simp only [Function.comp_def, hnumber', hkeep]

/-- A wait that is over. -/
theorem waiting_close (c : Client) (w : Readiness) (timer : Readiness → Option ℕ) (x : QString) :
    (c.close w timer).waiting x = (c.waiting x).filter fun n => n ≠ w.number := by
  simp only [Client.waiting, Client.close, Client.setWait]
  generalize c.readiness = waits
  induction waits with
  | nil => rfl
  | cons w' waits ih =>
    by_cases hn : w'.number = w.number <;> by_cases hname : w'.objectName = x <;>
      cases hdone : w'.done <;> simpa [hn, hname, hdone] using ih

/-- Others wait on. -/
theorem waiting_close_ne {w : Readiness} (hbooks : Books c k) (hw : w ∈ c.readiness)
    (timer : Readiness → Option ℕ) {x : QString} (hx : x ≠ w.objectName) :
    (c.close w timer).waiting x = c.waiting x := by
  rw [waiting_close, List.filter_eq_self]
  intro n hn
  obtain ⟨w', hw', -, hname, rfl⟩ := mem_waiting.mp hn
  have hne : w'.number ≠ w.number := fun heq => hx (hbooks.wait_eq hw hw' heq ▸ hname).symm
  simpa using hne

/-- The exchanges when one is answered. -/
theorem exchanging_settle (hbooks : Books c k) (e : Exchange) (store : TokenManager)
    (x : QString) :
    (c.settle e store).exchanging x = (c.exchanging x).filter fun n => n ≠ e.number := by
  have hnodup := hbooks.exchanges
  simp only [Client.exchanging, Client.settle]
  generalize c.exchanges = es at hnodup ⊢
  induction es with
  | nil => rfl
  | cons e' es ih =>
    obtain ⟨hnot, hnodup⟩ := List.nodup_cons.mp hnodup
    by_cases hn : e'.number = e.number
    · have hall : ∀ n ∈ (es.filter fun e => e.objectName = x).map Exchange.number, n ≠ e.number := by
        rintro n hin rfl
        obtain ⟨e'', he'', heq⟩ := List.mem_map.mp hin
        exact hnot (List.mem_map.mpr ⟨e'', (List.mem_filter.mp he'').1, heq.trans hn.symm⟩)
      have hself := List.filter_eq_self.mpr fun n hin => decide_eq_true (hall n hin)
      by_cases hname : e'.objectName = x
      · simpa [hn, hname] using hself.symm
      · simpa [hn, hname] using hself.symm
    · by_cases hname : e'.objectName = x
      · simpa [hn, hname] using ih hnodup
      · simpa [hn, hname] using ih hnodup

theorem mem_exchanging {x : QString} {n : ℕ} : n ∈ c.exchanging x ↔
    ∃ e ∈ c.exchanges, e.objectName = x ∧ e.number = n := by
  simp [Client.exchanging, and_assoc]

/-- An open wait is the one flight of its target. -/
theorem flight_wait (hinv : Inv (view c k)) {w : Readiness} (hw : w ∈ c.readiness)
    (hdone : w.done = false) : c.waiting w.objectName = [w.number] ∧
      c.exchanging w.objectName = [] ∧ c.queue w.objectName ≠ [] := by
  have hmem : w.number ∈ c.waiting w.objectName := mem_waiting.mpr ⟨w, hw, hdone, rfl, rfl⟩
  have hflight : Flight.wait w.number ∈ (view c k).flights w.objectName :=
    List.mem_append_left _ (List.mem_map_of_mem hmem)
  obtain ⟨hflights, hqueue⟩ := hinv.flights_eq hflight
  have hwaits : c.waiting w.objectName ≠ [] := List.ne_nil_of_mem hmem
  have hqueue' : c.queue w.objectName ≠ [] := fun hnone => hqueue (by simp [view, hnone])
  rcases List.append_eq_cons_iff.mp hflights with ⟨hnone, -⟩ | ⟨rest, hsome, hrest⟩
  · simp [hwaits] at hnone
  · obtain ⟨hrest, hexch⟩ := List.append_eq_nil_iff.mp hrest.symm
    refine ⟨?_, by simpa using hexch, hqueue'⟩
    rw [hrest] at hsome
    obtain ⟨n, hn, heq⟩ := List.map_eq_singleton_iff.mp hsome
    cases heq
    exact hn

/-- So is an exchange. -/
theorem flight_exchange (hinv : Inv (view c k)) {e : Exchange} (he : e ∈ c.exchanges) :
    c.waiting e.objectName = [] ∧ c.exchanging e.objectName = [e.number] ∧
      c.queue e.objectName ≠ [] := by
  have hmem : e.number ∈ c.exchanging e.objectName := mem_exchanging.mpr ⟨e, he, rfl, rfl⟩
  have hflight : Flight.exchange e.number ∈ (view c k).flights e.objectName :=
    List.mem_append_right _ (List.mem_map_of_mem hmem)
  obtain ⟨hflights, hqueue⟩ := hinv.flights_eq hflight
  have hqueue' : c.queue e.objectName ≠ [] := fun hnone => hqueue (by simp [view, hnone])
  rcases List.append_eq_cons_iff.mp hflights with ⟨hnone, hsome⟩ | ⟨rest, hsome, -⟩
  · obtain ⟨n, hn, heq⟩ := List.map_eq_singleton_iff.mp hsome
    cases heq
    exact ⟨by simpa using hnone, hn, hqueue'⟩
  · have hin : Flight.exchange e.number ∈ (c.waiting e.objectName).map Flight.wait :=
      hsome ▸ List.mem_cons_self
    obtain ⟨n, -, heq⟩ := List.mem_map.mp hin
    cases heq

/-- A queue that is not empty is stored. -/
theorem lookup_of_queue {x : QString} (h : c.queue x ≠ []) :
    c.pendingHandshakes.lookup x = some (c.queue x) := by
  simp only [Client.queue] at h ⊢
  cases hlookup : c.pendingHandshakes.lookup x with
  | none => simp [hlookup] at h
  | some calls => rfl

/-- The queue of a target is drained. -/
theorem view_drain {x : QString} (hqueue : c.queue x ≠ []) (edge : Edge) (token : QString)
    (reachable : Bool) (k : List Instr) :
    view (c.drainPendingHandshakes x edge token reachable).1
      ((c.drainPendingHandshakes x edge token reachable).2 ++ k) = { view c k with
        queue := Function.update (view c k).queue x []
        loop := ((view c k).queue x).map (·, (token, reachable)) ++ (view c k).loop
        landings := (view c k).landings ++ [((view c k).queue x, (token, reachable))] } := by
  have hcalls := lookup_of_queue hqueue
  simp only [Client.drainPendingHandshakes, hcalls]
  have herased : (fun y => (({ c with pendingHandshakes := c.pendingHandshakes.erase x }.emit
      (.drained x ((c.queue x).map Continuation.number) edge token reachable)).queue y).map
        Continuation.number) = Function.update (view c k).queue x [] := by
    funext y
    simp only [Client.queue, Client.emit, queue_erase]
    by_cases hy : y = x
    · subst hy
      simp
    · simp [hy, view]
  simp only [view] at herased ⊢
  rw [herased]
  simp [Client.emit, Event.ranOf, Event.landing, Event.queuedOf, Instr.looped, Client.waiting,
    Client.exchanging, Function.comp_def, List.filterMap_map]

/-- A wait begins. -/
theorem waiting_begin (c : Client) (name : QString) (timeout : Int) (x : QString) :
    (c.beginReadinessGatedHandshake name timeout).1.waiting x =
      c.waiting x ++ if x = name then [c.nextNumber] else [] := by
  by_cases hx : x = name
  · simp [Client.waiting, Client.beginReadinessGatedHandshake, hx]
  · simp [Client.waiting, Client.beginReadinessGatedHandshake, hx, Ne.symm hx]

theorem view_begin (c : Client) (name : QString) (timeout : Int) (k : List Instr) :
    view (c.beginReadinessGatedHandshake name timeout).1 k = { view c k with
      flights := fun x => (c.waiting x ++ if x = name then [c.nextNumber] else []).map .wait ++
        (c.exchanging x).map .exchange } := by
  simp only [← waiting_begin c name timeout]
  rfl

/-- An exchange begins. -/
theorem view_exchange (c : Client) (name : QString) (timeout : Int) (k : List Instr) :
    view (c.startCapabilityHandshake name timeout).1 k = { view c k with
      flights := fun x => (c.waiting x).map .wait ++
        (c.exchanging x ++ if x = name then [c.nextNumber] else []).map .exchange } := by
  have hexchanging : ∀ x, (c.startCapabilityHandshake name timeout).1.exchanging x =
      c.exchanging x ++ if x = name then [c.nextNumber] else [] := by
    intro x
    by_cases hx : x = name
    · simp [Client.exchanging, Client.startCapabilityHandshake, Client.emit, hx]
    · simp [Client.exchanging, Client.startCapabilityHandshake, Client.emit, hx, Ne.symm hx]
  have hlog : (c.startCapabilityHandshake name timeout).1.log = c.log ++ [.exchanged name] := rfl
  simp only [← hexchanging, view, hlog, List.filterMap_append]
  simp [Event.ranOf, Event.landing, Event.queuedOf]
  exact ⟨rfl, rfl⟩

/-- What a step does is a step of the flights. -/
theorem Change.step {l l' : List Instr} {c' : Client} (h : Change c l c' l')
    (hinv : Inv (view c (l ++ k))) (hbooks : Books c (l ++ k)) :
    Step (view c (l ++ k)) (view c' (l' ++ k)) := by
  have hlooped : ∀ {l : List Instr}, (∀ i ∈ l, i.Idle) → ∀ i ∈ l, i.looped = none :=
    fun hl i hi => (hl i hi).looped
  have hfresh : c.nextNumber ∉ (view c k).issued := fun hin =>
    absurd (hbooks.queued c.nextNumber hin) (lt_irrefl _)
  cases h with
  | quiet hquiet hl hl' hdone =>
    rw [view_idle c hl, view_idle _ (hlooped hl'), hquiet.view_eq]
    exact .stutter _
  | wait name call hqueue hl =>
    rw [view_idle c (hlooped hl), List.nil_append, view_enqueue]
    exact .wait (view c k) name c.nextNumber hfresh (by simpa [view] using hqueue)
  | start name call timeout hqueue hl =>
    rw [view_idle c (hlooped hl)] at hinv ⊢
    have hnone : (view c k).queue name = [] := by simp [view, hqueue]
    have hflights : (view c k).flights name = [] := by
      rcases hinv.flights name with ⟨-, hflights⟩ | ⟨hsome, -⟩
      · exact hflights
      · exact absurd hnone hsome
    obtain ⟨hwaits, hexch⟩ := List.append_eq_nil_iff.mp hflights
    simp only [List.map_eq_nil_iff] at hwaits hexch
    have hstep := Step.start (view c k) name c.nextNumber (.wait (c.nextNumber + 1)) hfresh hnone
    have hview : (fun x => ((c.enqueue name ⟨c.nextNumber, call⟩).waiting x ++
        if x = name then [(c.enqueue name ⟨c.nextNumber, call⟩).nextNumber] else []).map Flight.wait ++
        ((c.enqueue name ⟨c.nextNumber, call⟩).exchanging x).map .exchange) =
        Function.update (view c k).flights name [.wait (c.nextNumber + 1)] := by
      funext x
      by_cases hx : x = name
      · subst hx
        have hwaits' : (c.enqueue x ⟨c.nextNumber, call⟩).waiting x = [] := hwaits
        have hexch' : (c.enqueue x ⟨c.nextNumber, call⟩).exchanging x = [] := hexch
        rw [if_pos rfl, Function.update_self, hwaits', hexch']
        rfl
      · rw [if_neg hx, List.append_nil, Function.update_of_ne hx]
        rfl
    rw [view_idle _ (by simp [Instr.looped]), view_begin, hview, view_enqueue, hnone, List.nil_append]
    rwa [hflights, List.nil_append] at hstep
  | arm n id due =>
    rw [view_idle c (by simp [Instr.looped]), List.nil_append]
    have hview : view (c.setWait n fun w => { w with id := id, timer := some (due w) }) k =
        view c k := by
      simp only [view, waiting_setWait c n (f := fun w => { w with id := id, timer := some (due w) })
        (fun _ => rfl) (fun _ => rfl) fun _ => rfl]
      rfl
    rw [hview]
    exact .stutter _
  | expire n hdone =>
    have hview : view (c.setWait n fun w => { w with timer := none }) k = view c k := by
      simp only [view, waiting_setWait c n (f := fun w => { w with timer := none })
        (fun _ => rfl) (fun _ => rfl) fun _ => rfl]
      rfl
    rw [List.nil_append, hview]
    exact .stutter _
  | grant w hw hdone timer =>
    rw [List.nil_append] at hinv hbooks ⊢
    obtain ⟨hwaits, hexch, -⟩ := flight_wait hinv hw hdone
    have hflight : (view c k).flights w.objectName = [.wait w.number] := by
      simp [view, hwaits, hexch]
    have hstep := Step.goOn (view c k) w.objectName _ (.exchange c.nextNumber) hflight
    have hview : (fun x => ((c.close w timer).waiting x).map Flight.wait ++
        ((c.close w timer).exchanging x ++
          if x = w.objectName then [(c.close w timer).nextNumber] else []).map .exchange) =
        Function.update (view c k).flights w.objectName [.exchange c.nextNumber] := by
      funext x
      by_cases hx : x = w.objectName
      · subst hx
        have hexch' : (c.close w timer).exchanging w.objectName = [] := hexch
        rw [if_pos rfl, Function.update_self, waiting_close, hwaits, hexch']
        simp [Client.close, Client.setWait]
      · rw [if_neg hx, List.append_nil, Function.update_of_ne hx, waiting_close_ne hbooks hw timer hx]
        rfl
    rw [view_idle _ (by simp [Instr.looped]), view_exchange, hview]
    exact hstep
  | refuse w hw hdone timer edge hl =>
    have hidle : ∀ i ∈ l, i.looped = none := by
      rcases hl with rfl | rfl <;> simp [Instr.looped]
    rw [view_idle c hidle] at hinv ⊢
    obtain ⟨hwaits, hexch, hqueue⟩ := flight_wait hinv hw hdone
    have hflight : (view c k).flights w.objectName = [.wait w.number] := by
      simp [view, hwaits, hexch]
    have hstep := Step.land (view c k) w.objectName _ ([], false) hflight
    have hflights : (view (c.close w timer) k).flights =
        Function.update (view c k).flights w.objectName [] := by
      funext x
      by_cases hx : x = w.objectName
      · subst hx
        have hexch' : (c.close w timer).exchanging w.objectName = [] := hexch
        simp [view, waiting_close, hwaits, hexch']
      · simp only [view, waiting_close_ne hbooks hw timer hx, Function.update_of_ne hx]
        rfl
    rw [view_drain (c := c.close w timer) hqueue]
    dsimp only
    rw [hflights]
    exact hstep
  | mint e he token store =>
    rw [List.nil_append] at hinv hbooks ⊢
    obtain ⟨hwaits, hexch, hqueue⟩ := flight_exchange hinv he
    have hflight : (view c k).flights e.objectName = [.exchange e.number] := by
      simp [view, hwaits, hexch]
    have hstep := Step.land (view c k) e.objectName _ (token, true) hflight
    have hflights : (view (c.settle e store) k).flights =
        Function.update (view c k).flights e.objectName [] := by
      funext x
      simp only [view, exchanging_settle hbooks]
      by_cases hx : x = e.objectName
      · subst hx
        have hwaits' : (c.settle e store).waiting e.objectName = [] := hwaits
        simp [hexch, hwaits']
      · have hothers : (c.exchanging x).filter (fun n => n ≠ e.number) = c.exchanging x := by
          rw [List.filter_eq_self]
          intro n hn
          obtain ⟨e', he', hname, rfl⟩ := mem_exchanging.mp hn
          have hne : e'.number ≠ e.number := fun heq =>
            hx (List.inj_on_of_nodup_map hbooks.exchanges he' he heq ▸ hname).symm
          simpa using hne
        rw [hothers, Function.update_of_ne hx]
        rfl
    rw [view_drain (c := c.settle e store) hqueue]
    dsimp only
    rw [hflights]
    exact hstep
  | run k' token reachable hquiet hl' =>
    rw [view_idle _ (hlooped hl'), hquiet.view_eq]
    have hstep := Step.run (view c (.run k' token reachable :: k)) k'.number (token, reachable)
      (view c k).loop rfl
    have hview : view (c.emit (.ran k'.number token reachable)) k =
        { view c (.run k' token reachable :: k) with
          loop := (view c k).loop
          ran := (view c k).ran ++ [(k'.number, (token, reachable))] } := by
      simp [view, Client.emit, Event.ranOf, Event.landing, Event.queuedOf, Client.queue,
        Client.waiting, Client.exchanging]
    rw [hview]
    exact hstep

end views

/-! ## The books -/

namespace Books
variable {c c' : Client} {k k' : List Instr}

/-- Other instructions, that register the same waits. -/
theorem restack (h : Books c k) (hk : ∀ w ∈ c.readiness, w.done = false →
    .registering w.number ∈ k → .registering w.number ∈ k') : Books c k' :=
  ⟨h.queued, h.waits, h.waits_lt, h.exchanges, h.exchanges_lt, h.current,
    fun w hw hdone => (h.timed w hw hdone).imp id (hk w hw hdone)⟩

/-- Instructions that register nothing come and go. -/
theorem idle {l l' : List Instr} (h : Books c (l ++ k)) (hl : ∀ i ∈ l, i.Idle) :
    Books c (l' ++ k) :=
  h.restack fun _ _ _ hin => List.mem_append_right _
    ((List.mem_append.mp hin).resolve_left fun hin => (hl _ hin).registering _ rfl)

/-- What the books do not see. -/
theorem of_same (h : Books c k) (hpending : c'.pendingReadiness = c.pendingReadiness)
    (hreadiness : c'.readiness = c.readiness) (hexchanges : c'.exchanges = c.exchanges)
    (hnext : c'.nextNumber = c.nextNumber)
    (hlog : c'.log.filterMap Event.queuedOf = c.log.filterMap Event.queuedOf) : Books c' k where
  queued := by rw [hlog, hnext]; exact h.queued
  waits := hreadiness ▸ h.waits
  waits_lt := by rw [hreadiness, hnext]; exact h.waits_lt
  exchanges := hexchanges ▸ h.exchanges
  exchanges_lt := by rw [hexchanges, hnext]; exact h.exchanges_lt
  current x n := by
    rw [hpending, Client.waiting, hreadiness]
    exact h.current x n
  timed := hreadiness ▸ h.timed

theorem drain (h : Books c k) (x : QString) (edge : Edge) (token : QString) (reachable : Bool) :
    Books (c.drainPendingHandshakes x edge token reachable).1 k := by
  simp only [Client.drainPendingHandshakes]
  cases c.pendingHandshakes.lookup x with
  | none => exact h
  | some calls =>
    refine h.of_same rfl rfl rfl rfl ?_
    simp [Client.emit, Event.queuedOf]

theorem enqueue (h : Books c k) (x : QString) (call : AsyncCall) :
    Books (c.enqueue x ⟨c.nextNumber, call⟩) k where
  queued n hn := by
    have hlog : (c.enqueue x ⟨c.nextNumber, call⟩).log = c.log ++ [.queued c.nextNumber x] := rfl
    rw [hlog, List.filterMap_append, List.mem_append] at hn
    rcases hn with hn | hn
    · exact Nat.lt_succ_of_lt (h.queued n hn)
    · obtain rfl : n = c.nextNumber := by simpa [Event.queuedOf] using hn
      exact Nat.lt_succ_self _
  waits := h.waits
  waits_lt w hw := Nat.lt_succ_of_lt (h.waits_lt w hw)
  exchanges := h.exchanges
  exchanges_lt e he := Nat.lt_succ_of_lt (h.exchanges_lt e he)
  current := h.current
  timed := h.timed

/-- A wait begins, and is being registered. -/
theorem start (h : Books c k) {x : QString} (timeout : Int) (hx : c.waiting x = []) :
    Books (c.beginReadinessGatedHandshake x timeout).1 (.registering c.nextNumber :: k) where
  queued n hn := Nat.lt_succ_of_lt (h.queued n hn)
  waits := by
    have hnot : ∀ w ∈ c.readiness, w.number ≠ c.nextNumber := fun w hw => (h.waits_lt w hw).ne
    simpa [Client.beginReadinessGatedHandshake, List.nodup_append, h.waits] using hnot
  waits_lt w hw := by
    rcases List.mem_append.mp hw with hw | hw
    · exact Nat.lt_succ_of_lt (h.waits_lt w hw)
    · rw [List.mem_singleton.mp hw]
      exact Nat.lt_succ_self _
  exchanges := h.exchanges
  exchanges_lt e he := Nat.lt_succ_of_lt (h.exchanges_lt e he)
  current y n := by
    rw [waiting_begin]
    simp only [Client.beginReadinessGatedHandshake]
    by_cases hy : y = x
    · subst hy
      simp [hx, eq_comm]
    · rw [AList.lookup_insert_ne hy, if_neg hy, List.append_nil]
      exact h.current y n
  timed w hw hdone := by
    rcases List.mem_append.mp hw with hw | hw
    · exact (h.timed w hw hdone).imp id (List.mem_cons_of_mem _)
    · rw [List.mem_singleton.mp hw]
      exact .inr List.mem_cons_self

/-- The wait of a target is over. -/
theorem close (h : Books c k) {w : Readiness} (hw : w ∈ c.readiness)
    (hwaits : c.waiting w.objectName = [w.number]) (timer : Readiness → Option ℕ) :
    Books (c.close w timer) k := by
  have hmem : ∀ w' ∈ (c.close w timer).readiness, ∃ w₀ ∈ c.readiness, w'.number = w₀.number ∧
      (w'.done = false → w' = w₀) := by
    intro w' hw'
    obtain ⟨w₀, hw₀, rfl⟩ := List.mem_map.mp hw'
    refine ⟨w₀, hw₀, ?_⟩
    split_ifs
    · exact ⟨rfl, by simp⟩
    · exact ⟨rfl, fun _ => rfl⟩
  refine ⟨h.queued, ?_, fun w' hw' => ?_, h.exchanges, h.exchanges_lt, fun x n => ?_,
    fun w' hw' hdone => ?_⟩
  · have hnumbers : (c.close w timer).readiness.map Readiness.number =
        c.readiness.map Readiness.number := by
      simp only [Client.close, Client.setWait, List.map_map]
      refine List.map_congr_left fun w' _ => ?_
      simp only [Function.comp_apply]
      split_ifs <;> rfl
    rw [hnumbers]
    exact h.waits
  · obtain ⟨w₀, hw₀, hn, -⟩ := hmem w' hw'
    exact hn ▸ h.waits_lt w₀ hw₀
  · by_cases hx : x = w.objectName
    · subst hx
      rw [waiting_close, hwaits]
      simp [Client.close]
    · rw [waiting_close_ne h hw timer hx]
      simp only [Client.close]
      rw [AList.lookup_erase_ne hx]
      exact h.current x n
  · obtain ⟨w₀, hw₀, -, hsame⟩ := hmem w' hw'
    obtain rfl := hsame hdone
    exact h.timed w' hw₀ hdone

/-- An exchange begins. -/
theorem exchange (h : Books c k) (x : QString) (timeout : Int) :
    Books (c.startCapabilityHandshake x timeout).1 k where
  queued n hn := by
    have hlog : (c.startCapabilityHandshake x timeout).1.log = c.log ++ [.exchanged x] := rfl
    refine Nat.lt_succ_of_lt (h.queued n ?_)
    simpa [hlog, Event.queuedOf] using hn
  waits := h.waits
  waits_lt w hw := Nat.lt_succ_of_lt (h.waits_lt w hw)
  exchanges := by
    have hnot : ∀ e ∈ c.exchanges, e.number ≠ c.nextNumber := fun e he => (h.exchanges_lt e he).ne
    simpa [Client.startCapabilityHandshake, Client.emit, List.nodup_append, h.exchanges] using hnot
  exchanges_lt e he := by
    rcases List.mem_append.mp he with he | he
    · exact Nat.lt_succ_of_lt (h.exchanges_lt e he)
    · rw [List.mem_singleton.mp he]
      exact Nat.lt_succ_self _
  current := h.current
  timed := h.timed

theorem settle (h : Books c k) (e : Exchange) (store : TokenManager) :
    Books (c.settle e store) k where
  queued := h.queued
  waits := h.waits
  waits_lt := h.waits_lt
  exchanges := h.exchanges.sublist (List.eraseP_sublist.map _)
  exchanges_lt e' he' := h.exchanges_lt e' (List.mem_of_mem_eraseP he')
  current := h.current
  timed := h.timed

/-- A wait that is changed, and not ended. -/
theorem setWait (h : Books c k) {n : ℕ} {f : Readiness → Readiness}
    (hnumber : ∀ w, (f w).number = w.number) (hname : ∀ w, (f w).objectName = w.objectName)
    (hdone : ∀ w, (f w).done = w.done)
    (htimed : ∀ w ∈ c.readiness, w.number = n → w.done = false → (f w).timer.isSome = true)
    (hk : ∀ w ∈ c.readiness, w.number ≠ n → .registering w.number ∈ k →
      .registering w.number ∈ k') : Books (c.setWait n f) k' := by
  have hmem : ∀ w' ∈ (c.setWait n f).readiness, ∃ w ∈ c.readiness, w'.number = w.number ∧
      w'.done = w.done ∧ (w.number = n ∧ w' = f w ∨ w.number ≠ n ∧ w' = w) := by
    intro w' hw'
    obtain ⟨w, hw, rfl⟩ := List.mem_map.mp hw'
    refine ⟨w, hw, ?_⟩
    split_ifs with hn
    · exact ⟨hnumber w, hdone w, .inl ⟨hn, rfl⟩⟩
    · exact ⟨rfl, rfl, .inr ⟨hn, rfl⟩⟩
  refine ⟨h.queued, ?_, fun w' hw' => ?_, h.exchanges, h.exchanges_lt, fun x m => ?_,
    fun w' hw' hopen => ?_⟩
  · have hnumbers : (c.setWait n f).readiness.map Readiness.number =
        c.readiness.map Readiness.number := by
      simp only [Client.setWait, List.map_map]
      refine List.map_congr_left fun w _ => ?_
      simp only [Function.comp_apply]
      split_ifs
      · exact hnumber w
      · rfl
    rw [hnumbers]
    exact h.waits
  · obtain ⟨w, hw, hn, -⟩ := hmem w' hw'
    exact hn ▸ h.waits_lt w hw
  · rw [waiting_setWait c n hnumber hname hdone]
    exact h.current x m
  · obtain ⟨w, hw, -, hsame, ⟨hn, rfl⟩ | ⟨hn, rfl⟩⟩ := hmem w' hw'
    · exact .inl (htimed w hw hn (hsame ▸ hopen))
    · exact (h.timed w' hw hopen).imp id (hk w' hw hn)

end Books

/-- What a step does keeps the books. -/
theorem Change.books {c c' : Client} {k l l' : List Instr} (h : Change c l c' l')
    (hinv : Inv (view c (l ++ k))) (hbooks : Books c (l ++ k)) : Books c' (l' ++ k) := by
  cases h with
  | quiet hquiet hl hl' hdone =>
    refine hquiet.books (hbooks.restack fun w hw hopen hin => ?_)
    refine List.mem_append_right _ ((List.mem_append.mp hin).resolve_left fun hin => ?_)
    rw [hdone w.number hin w hw rfl] at hopen
    cases hopen
  | wait name call hqueue hl => exact (hbooks.idle hl).enqueue name call
  | start name call timeout hqueue hl =>
    have hidle : Books c ([] ++ k) := hbooks.idle hl
    rw [view_idle c fun i hi => (hl i hi).looped] at hinv
    have hnone : c.waiting name = [] := by
      rcases hinv.flights name with ⟨-, hflights⟩ | ⟨hsome, -⟩
      · simpa [view] using (List.append_eq_nil_iff.mp hflights).1
      · simp [view, hqueue] at hsome
    have hqueued : Books (c.enqueue name ⟨c.nextNumber, call⟩) k := hidle.enqueue name call
    exact hqueued.start timeout hnone
  | arm n id due =>
    refine hbooks.setWait (fun _ => rfl) (fun _ => rfl) (fun _ => rfl) (fun _ _ _ _ => rfl)
      fun w hw hn hin => ?_
    simpa [hn] using hin
  | expire n hdone =>
    refine hbooks.setWait (fun _ => rfl) (fun _ => rfl) (fun _ => rfl) (fun w hw hn hopen => ?_)
      fun w hw hn hin => hin
    rw [hdone w hw hn] at hopen
    cases hopen
  | grant w hw hdone timer =>
    obtain ⟨hwaits, -, -⟩ := flight_wait hinv hw hdone
    have hover : Books (c.close w timer) k := hbooks.close hw hwaits timer
    exact (hover.exchange w.objectName w.timeout).restack fun w' _ _ => List.mem_cons_of_mem _
  | refuse w hw hdone timer edge hl =>
    obtain ⟨hwaits, -, -⟩ := flight_wait hinv hw hdone
    have hover := (hbooks.close hw hwaits timer).drain w.objectName edge [] false
    refine hover.restack fun w' hw' hopen hin => List.mem_append_right _ ?_
    -- The wait that is over is not open.
    have hne : w'.number ≠ w.number := by
      have hdrained : ((c.close w timer).drainPendingHandshakes w.objectName edge [] false).1.readiness =
          (c.close w timer).readiness := by
        simp only [Client.drainPendingHandshakes]
        split <;> rfl
      rw [hdrained] at hw'
      obtain ⟨w₀, -, rfl⟩ := List.mem_map.mp hw'
      split_ifs at hopen ⊢ with hn
      exact hn
    rcases hl with rfl | rfl
    · exact hin
    · simpa [hne] using hin
  | mint e he token store =>
    have hover := (Books.settle hbooks e store).drain e.objectName .minted token true
    exact hover.restack fun w' _ _ => List.mem_append_right _
  | run k' token reachable hquiet hl' =>
    have hran : Books (c.emit (.ran k'.number token reachable)) ([.run k' token reachable] ++ k) := by
      refine hbooks.of_same rfl rfl rfl rfl ?_
      simp [Client.emit, Event.queuedOf]
    refine (hquiet.books hran).restack fun w hw hopen hin => List.mem_append_right _ ?_
    simpa using hin

end LogosProtocol.ApiClient
