import LogosProtocol.Client.Continuations

/-!
# The budgets of queued calls

A call is queued with its own timeout, but the calls of one queue share a wait and its deadline,
which the first of them set.  A queued call is answered before its own budget is spent exactly
when that deadline comes first.

Assumption (no early timer): the timer of a wait fires at its deadline or any time after, never
before.  `QTimer`'s default precision lets it fire a little early, and then a call alone in its
queue could be answered that little before its budget is spent.

## Main definitions

* `Timed`, `timed` — a client, and when each of its calls was made.
* `Fits` — the condition on a step under which nobody is queued behind an earlier deadline.
* `OnBudget` — the readiness gate answers no call early.
-/

namespace LogosProtocol.ApiClient

open SingleFlight (Inv)
open TransitionSystem (Run)

/-! ## When calls are made -/

/-- A client, and when each of its calls was made. -/
structure Timed where
  config : Program.Config Client Instr
  made : ℕ → ℕ := fun _ => 0

/-- When the budget of a call is spent. -/
def spent (made : ℕ → ℕ) (call : AsyncCall) : ℕ :=
  made call.number + call.request.timeout.toNat

/-- What a step numbers is made then. -/
def Timed.next (s : Setup) (store : TokenManager) (t : Timed) (a : Program.Action Op Oracle) :
    Option Timed :=
  ((program s store).next t.config a).map fun c =>
    ⟨c, fun n => if n < t.config.data.nextNumber then t.made n
      else t.config.data.clock + a.answer.elapsed⟩

def timed (s : Setup) (store : TokenManager) :
    TransitionSystem Timed (Program.Action Op Oracle) :=
  .ofNext ⟨⟨{ store := store }, []⟩, fun _ => 0⟩ (Timed.next s store)

/-- A call is queued when it has no token. -/
def queues (s : Setup) (c : Client) (x : QString) : Prop := c.getToken x = [] ∧ s.eligible x

/-- The call for which a step looks for a token, and when its budget is spent. -/
def arrival (t : Timed) : Program.Action Op Oracle → Option (QString × ℕ)
  | .call (.invokeRemoteMethodAsync request (some _)) o =>
    some (request.objectName, t.config.data.clock + o.elapsed + request.timeout.toNat)
  | .call _ _ => none
  | .step _ =>
    match t.config.stack with
    | .invoke call :: _ => some (call.objectName, spent t.made call)
    | _ => none

/-- A call is not queued behind a deadline that comes before its budget is spent, and no deadline
is set that comes before the budget of a queued call is spent. -/
structure Fits (s : Setup) (t : Timed) (a : Program.Action Op Oracle) : Prop where
  queued : ∀ x budget, arrival t a = some (x, budget) → queues s (t.config.data.pass a.answer) x →
    ∀ w ∈ t.config.data.readiness, w.done = false → w.objectName = x →
      ∀ due, w.timer = some due → budget ≤ max due (t.config.data.clock + a.answer.elapsed)
  armed : ∀ o n k, a = .step o → t.config.stack = .registering n :: k → o.id ≠ 0 →
    ∀ w, t.config.data.waitOf n = some w → w.done = false →
      ∀ j ∈ (t.config.data.queue w.objectName).tail,
        spent t.made j.call ≤ t.config.data.clock + o.elapsed + (max 1 w.timeout).toNat

/-- The wait that a continuation was queued for was refused. -/
def Refused (c : Client) (n : ℕ) : Prop :=
  ∃ x ns token reachable, .drained x ns .refused token reachable ∈ c.log ∧ n ∈ ns

def Event.edgeOf : Event → Option Edge
  | .drained _ _ edge _ _ => some edge
  | _ => none

/-- When the readiness gate answers a call, the wait was refused or the budget of the call is
spent. -/
def OnBudget (s : Setup) (store : TokenManager) (t : Timed) : Prop :=
  ∀ j token k o t', t.config.stack = .run j token false :: k →
    t.next s store (.step o) = some t' →
    .answered j.call.number .invalid (some (errObjectUnavailable j.call.objectName)) ∈
        t'.config.data.log ∧
      (Refused t'.config.data j.number ∨ spent t'.made j.call ≤ t'.config.data.clock)

/-! ## Nobody waits behind an earlier deadline -/

/-- The asynchronous call that an instruction is about. -/
def Instr.carried : Instr → Option AsyncCall
  | .invoke call => some call
  | .run j _ _ => some j.call
  | _ => none

/-- The invariant: the deadline of a wait is not before the budget of a call in its queue is
spent, and the wait of a target is set up by the first of its queue. -/
structure OnTime (c : Client) (k : List Instr) (made : ℕ → ℕ) : Prop where
  past : ∀ n, made n ≤ c.clock
  queued : ∀ x, ∀ j ∈ c.queue x, j.call.number < c.nextNumber
  sent : ∀ d ∈ c.dispatches, d.call.number < c.nextNumber
  left : ∀ i ∈ k, ∀ call, i.carried = some call → call.number < c.nextNumber
  armed : ∀ w ∈ c.readiness, w.done = false → ∀ due, w.timer = some due →
    ∀ j ∈ c.queue w.objectName, spent made j.call ≤ max due c.clock
  starting : ∀ w ∈ c.readiness, w.done = false →
    ∃ j, (c.queue w.objectName).head? = some j ∧ j.call.request.timeout = w.timeout
  run : ∀ j token, .run j token false ∈ k → Refused c j.number ∨ spent made j.call ≤ c.clock

theorem Refused.mono {c c' : Client} {n : ℕ} (h : Refused c n) (hlog : c.log <+: c'.log) :
    Refused c' n := by
  obtain ⟨x, ns, token, reachable, he, hn⟩ := h
  exact ⟨x, ns, token, reachable, hlog.subset he, hn⟩

theorem Quiet.logged {c c' : Client} (h : Quiet c c') : c.log <+: c'.log := by
  obtain ⟨es, hlog, -⟩ := h.log
  exact ⟨es, hlog.symm⟩

namespace OnTime
variable {c c' : Client} {k l l' : List Instr} {made made' : ℕ → ℕ}

theorem initial (store : TokenManager) : OnTime { store := store } [] fun _ => 0 := by
  refine ⟨by simp, fun x j hj => ?_, by simp, by simp, by simp, by simp, by simp⟩
  cases hj

theorem pass (h : OnTime c k made) (o : Oracle) : OnTime (c.pass o) k made where
  past n := (h.past n).trans (Nat.le_add_right _ _)
  queued := h.queued
  sent := h.sent
  left := h.left
  armed w hw hopen due hdue j hj :=
    (h.armed w hw hopen due hdue j hj).trans (max_le_max le_rfl (Nat.le_add_right _ _))
  starting := h.starting
  run j token hin := (h.run j token hin).imp id fun hspent => hspent.trans (Nat.le_add_right _ _)

/-- Calls that are not made yet may be made at any time. -/
theorem stamp (h : OnTime c k made) (hsame : ∀ n < c.nextNumber, made' n = made n)
    (hpast : ∀ n, made' n ≤ c.clock) : OnTime c k made' := by
  have hspent : ∀ call : AsyncCall, call.number < c.nextNumber → spent made' call = spent made call :=
    fun call hcall => by rw [spent, spent, hsame _ hcall]
  refine ⟨hpast, h.queued, h.sent, h.left, fun w hw hopen due hdue j hj => ?_, h.starting,
    fun j token hin => ?_⟩
  · rw [hspent _ (h.queued _ j hj)]
    exact h.armed w hw hopen due hdue j hj
  · rw [hspent _ (h.left _ hin j.call rfl)]
    exact h.run j token hin

/-- What leaves the queues alone and opens no wait. -/
theorem frame (h : OnTime c (l ++ k) made) (hclock : c'.clock = c.clock)
    (hhandshakes : c'.pendingHandshakes = c.pendingHandshakes)
    (hreadiness : ∀ w ∈ c'.readiness, w.done = false → w ∈ c.readiness)
    (hnext : c.nextNumber ≤ c'.nextNumber) (hlog : c.log <+: c'.log)
    (hsent : ∀ d ∈ c'.dispatches, d.call.number < c'.nextNumber)
    (hlooped : ∀ i ∈ l', i.looped = none)
    (hleft : ∀ i ∈ l', ∀ call, i.carried = some call → call.number < c'.nextNumber) :
    OnTime c' (l' ++ k) made := by
  have hqueue : ∀ x, c'.queue x = c.queue x := fun x => by rw [Client.queue, hhandshakes, Client.queue]
  refine ⟨fun n => hclock ▸ h.past n, fun x j hj => ?_, hsent, fun i hi call hcall => ?_,
    fun w hw hopen due hdue j hj => ?_, fun w hw hopen => ?_, fun j token hin => ?_⟩
  · rw [hqueue] at hj
    exact (h.queued x j hj).trans_le hnext
  · rcases List.mem_append.mp hi with hi | hi
    · exact hleft i hi call hcall
    · exact (h.left i (List.mem_append_right _ hi) call hcall).trans_le hnext
  · rw [hqueue] at hj
    rw [hclock]
    exact h.armed w (hreadiness w hw hopen) hopen due hdue j hj
  · rw [hqueue]
    exact h.starting w (hreadiness w hw hopen) hopen
  · rcases List.mem_append.mp hin with hin | hin
    · cases hlooped _ hin
    · rw [hclock]
      exact (h.run j token (List.mem_append_right _ hin)).imp (fun hr => hr.mono hlog) id

/-- The queues are as they were, and the calls are old. -/
theorem quiet (h : OnTime c (l ++ k) made) (hquiet : Quiet c c' ∧ ∀ i ∈ l', i.Idle)
    (hclock : c'.clock = c.clock) (hsent : ∀ d ∈ c'.dispatches, d.call.number < c'.nextNumber)
    (hleft : ∀ i ∈ l', ∀ call, i.carried = some call → call.number < c'.nextNumber) :
    OnTime c' (l' ++ k) made :=
  h.frame hclock hquiet.1.handshakes (fun _ hw _ => hquiet.1.readiness ▸ hw) hquiet.1.next
    hquiet.1.logged hsent (fun i hi => (hquiet.2 i hi).looped) hleft

/-- A synchronous call goes on. -/
theorem sync (h : OnTime c (l ++ k) made) (hquiet : Quiet c c' ∧ ∀ i ∈ l', i.Idle)
    (hsame : c'.clock = c.clock ∧ c'.dispatches = c.dispatches ∧ ∀ i ∈ l', i.carried = none) :
    OnTime c' (l' ++ k) made := by
  obtain ⟨hclock, hdispatches, hnone⟩ := hsame
  refine h.quiet hquiet hclock (fun d hd => ?_) fun i hi call hcall => ?_
  · rw [hdispatches] at hd
    exact (h.sent d hd).trans_le hquiet.1.next
  · rw [hnone i hi] at hcall
    cases hcall

/-- A call is queued. -/
theorem enqueue (h : OnTime c (l ++ k) made) (x : QString) (call : AsyncCall)
    (hcall : call.number < c.nextNumber)
    (hfits : ∀ w ∈ c.readiness, w.done = false → w.objectName = x → ∀ due, w.timer = some due →
      spent made call ≤ max due c.clock) : OnTime (c.enqueue x ⟨c.nextNumber, call⟩) k made := by
  have hqueue : ∀ y, (c.enqueue x ⟨c.nextNumber, call⟩).queue y =
      Function.update c.queue x (c.queue x ++ [⟨c.nextNumber, call⟩]) y := fun y => queue_insert c x y _
  have hmem : ∀ y j, j ∈ (c.enqueue x ⟨c.nextNumber, call⟩).queue y →
      j ∈ c.queue y ∨ y = x ∧ j = ⟨c.nextNumber, call⟩ := by
    intro y j hj
    rw [hqueue] at hj
    by_cases hy : y = x
    · subst hy
      simpa using hj
    · rw [Function.update_of_ne hy] at hj
      exact .inl hj
  refine ⟨h.past, fun y j hj => ?_, fun d hd => Nat.lt_succ_of_lt (h.sent d hd),
    fun i hi call' hc => Nat.lt_succ_of_lt (h.left i (List.mem_append_right _ hi) call' hc),
    fun w hw hopen due hdue j hj => ?_, fun w hw hopen => ?_, fun j token hin => ?_⟩
  · rcases hmem y j hj with hj | ⟨-, rfl⟩
    · exact Nat.lt_succ_of_lt (h.queued y j hj)
    · exact Nat.lt_succ_of_lt hcall
  · rcases hmem _ j hj with hj | ⟨hx, rfl⟩
    · exact h.armed w hw hopen due hdue j hj
    · exact hfits w hw hopen hx due hdue
  · obtain ⟨j, hj, htimeout⟩ := h.starting w hw hopen
    refine ⟨j, ?_, htimeout⟩
    rw [hqueue]
    by_cases hx : w.objectName = x
    · rw [← hx, Function.update_self, List.head?_append, hj, Option.some_or]
    · rw [Function.update_of_ne hx, hj]
  · refine (h.run j token (List.mem_append_right _ hin)).imp (fun hr => hr.mono ?_) id
    exact List.prefix_append _ _

/-- The first of a queue sets up the wait. -/
theorem start (h : OnTime c k made) {x : QString} {j : Continuation} (hqueue : c.queue x = [j]) :
    OnTime (c.beginReadinessGatedHandshake x j.call.request.timeout).1
      (.registering c.nextNumber :: k) made := by
  have hmem : ∀ w ∈ (c.beginReadinessGatedHandshake x j.call.request.timeout).1.readiness,
      w ∈ c.readiness ∨
        w = { number := c.nextNumber, objectName := x, timeout := j.call.request.timeout } := by
    simp [Client.beginReadinessGatedHandshake]
  refine ⟨h.past, fun y j' hj' => Nat.lt_succ_of_lt (h.queued y j' hj'),
    fun d hd => Nat.lt_succ_of_lt (h.sent d hd), fun i hi call hcall => ?_,
    fun w hw hopen due hdue j' hj' => ?_, fun w hw hopen => ?_, fun j' token hin => ?_⟩
  · rcases List.mem_cons.mp hi with rfl | hi
    · cases hcall
    · exact Nat.lt_succ_of_lt (h.left i hi call hcall)
  · rcases hmem w hw with hw | rfl
    · exact h.armed w hw hopen due hdue j' hj'
    · cases hdue
  · rcases hmem w hw with hw | rfl
    · exact h.starting w hw hopen
    · refine ⟨j, ?_, rfl⟩
      rw [show (c.beginReadinessGatedHandshake x j.call.request.timeout).1.queue x = c.queue x from rfl,
        hqueue, List.head?_cons]
  · rcases List.mem_cons.mp hin with hin | hin
    · cases hin
    · exact h.run j' token hin

/-- A queue for which nothing waits any more is taken out. -/
theorem drain (h : OnTime c (l ++ k) made) {x : QString} {e : Edge} {token : QString}
    {reachable : Bool} (hwaits : c.waiting x = [])
    (hfits : reachable = false → e = .refused ∨ ∀ j ∈ c.queue x, spent made j.call ≤ c.clock) :
    OnTime (c.drainPendingHandshakes x e token reachable).1
      ((c.drainPendingHandshakes x e token reachable).2 ++ k) made := by
  have hk : ∀ i ∈ k, i ∈ l ++ k := fun i hi => List.mem_append_right _ hi
  simp only [Client.drainPendingHandshakes]
  cases hlookup : c.pendingHandshakes.lookup x with
  | none =>
    exact ⟨h.past, h.queued, h.sent, fun i hi => h.left i (hk i hi), h.armed, h.starting,
      fun j token' hin => h.run j token' (hk _ hin)⟩
  | some calls =>
    have hcalls : c.queue x = calls := by simp [Client.queue, hlookup]
    have hqueue : ∀ y, (({ c with pendingHandshakes := c.pendingHandshakes.erase x }.emit
        (.drained x (calls.map Continuation.number) e token reachable)).queue y) =
        Function.update c.queue x [] y := fun y => queue_erase c x y
    have hmem : ∀ y j, j ∈ Function.update c.queue x [] y → y ≠ x ∧ j ∈ c.queue y := by
      intro y j hj
      by_cases hy : y = x
      · subst hy
        simp at hj
      · exact ⟨hy, by rwa [Function.update_of_ne hy] at hj⟩
    refine ⟨h.past, fun y j hj => ?_, h.sent, fun i hi call hcall => ?_,
      fun w hw hopen due hdue j hj => ?_, fun w hw hopen => ?_, fun j token' hin => ?_⟩
    · exact h.queued y j (hmem y j (hqueue y ▸ hj)).2
    · rcases List.mem_append.mp hi with hi | hi
      · obtain ⟨j, hj, rfl⟩ := List.mem_map.mp hi
        cases hcall
        exact h.queued x j (hcalls ▸ hj)
      · exact h.left i (hk i hi) call hcall
    · rw [hqueue] at hj
      exact h.armed w hw hopen due hdue j (hmem _ j hj).2
    · have hx : w.objectName ≠ x := by
        rintro hx
        have hin : w.number ∈ c.waiting x := mem_waiting.mpr ⟨w, hw, hopen, hx, rfl⟩
        rw [hwaits] at hin
        cases hin
      obtain ⟨j, hj, htimeout⟩ := h.starting w hw hopen
      exact ⟨j, by rw [hqueue, Function.update_of_ne hx, hj], htimeout⟩
    · rcases List.mem_append.mp hin with hin | hin
      · obtain ⟨j', hj', heq⟩ := List.mem_map.mp hin
        cases heq
        rcases hfits rfl with rfl | hspent
        · refine .inl ⟨x, calls.map Continuation.number, token, false, ?_, List.mem_map_of_mem hj'⟩
          exact List.mem_append_right _ List.mem_cons_self
        · exact .inr (hspent _ (hcalls ▸ hj'))
      · exact (h.run j token' (hk _ hin)).imp (fun hr => hr.mono (List.prefix_append _ _)) id

/-- A wait is over. -/
theorem close (h : OnTime c (l ++ k) made) (w : Readiness) (timer : Readiness → Option ℕ) :
    OnTime (c.close w timer) (l ++ k) made := by
  refine ⟨h.past, h.queued, h.sent, h.left, fun w' hw' hopen => ?_, fun w' hw' hopen => ?_, h.run⟩
  all_goals
    obtain ⟨w₀, hw₀, rfl⟩ := List.mem_map.mp hw'
    split_ifs at hopen ⊢
  · exact h.armed w₀ hw₀ hopen
  · exact h.starting w₀ hw₀ hopen

end OnTime

/-! ## What a step does -/

section steps
variable {s : Setup} {store : TokenManager} {c : Client} {k l : List Instr} {made : ℕ → ℕ}
  {o : Oracle} {r : Client × List Instr}

/-- The synchronous path makes no asynchronous call, and takes no time of its own. -/
theorem sync_returns (c : Client) (call : SyncCall) (value : QVariant) (err : CallError) :
    (c.returns call value err).1.clock = c.clock ∧
      (c.returns call value err).1.dispatches = c.dispatches ∧
      ∀ i ∈ (c.returns call value err).2, i.carried = none :=
  ⟨rfl, rfl, by simp [Client.returns]⟩

theorem sync_callTarget (c : Client) (call : SyncCall) (token : QString) (retried : Bool) :
    (c.callTarget call token retried).1.clock = c.clock ∧
      (c.callTarget call token retried).1.dispatches = c.dispatches ∧
      ∀ i ∈ (c.callTarget call token retried).2, i.carried = none :=
  ⟨rfl, rfl, by simp [Client.callTarget, Instr.carried]⟩

theorem sync_mintAndCacheToken (c : Client) (call : SyncCall) (timeout : Int) (retried : Bool) :
    (c.mintAndCacheToken call timeout retried).1.clock = c.clock ∧
      (c.mintAndCacheToken call timeout retried).1.dispatches = c.dispatches ∧
      ∀ i ∈ (c.mintAndCacheToken call timeout retried).2, i.carried = none :=
  ⟨rfl, rfl, by simp [Client.mintAndCacheToken, Instr.carried]⟩

theorem sync_invokeRemoteMethod (s : Setup) (c : Client) (call : SyncCall) :
    (c.invokeRemoteMethod s call).1.clock = c.clock ∧
      (c.invokeRemoteMethod s call).1.dispatches = c.dispatches ∧
      ∀ i ∈ (c.invokeRemoteMethod s call).2, i.carried = none := by
  simp only [Client.invokeRemoteMethod]
  split_ifs
  · exact ⟨rfl, rfl, by simp [Instr.carried]⟩
  · exact sync_callTarget c call _ _

theorem sync_ensured (c : Client) (call : SyncCall) (start : ℕ) (found : Bool) :
    (c.ensured call start found).1.clock = c.clock ∧
      (c.ensured call start found).1.dispatches = c.dispatches ∧
      ∀ i ∈ (c.ensured call start found).2, i.carried = none := by
  simp only [Client.ensured]
  split_ifs
  · exact sync_mintAndCacheToken c call _ _
  · exact sync_callTarget c call _ _
  · exact sync_returns c call _ _

theorem sync_minted (c : Client) (call : SyncCall) (retried : Bool) (token : QString) :
    (c.minted call retried token).1.clock = c.clock ∧
      (c.minted call retried token).1.dispatches = c.dispatches ∧
      ∀ i ∈ (c.minted call retried token).2, i.carried = none := by
  simp only [Client.minted]
  split_ifs
  · exact sync_callTarget c call _ _
  · exact sync_callTarget _ call _ _
  · exact sync_returns c call _ _
  · exact sync_returns _ call _ _

theorem sync_returned (s : Setup) (c : Client) (call : SyncCall) (sent : QString) (retried : Bool)
    (value : QVariant) (err : CallError) :
    (c.returned s call sent retried value err).1.clock = c.clock ∧
      (c.returned s call sent retried value err).1.dispatches = c.dispatches ∧
      ∀ i ∈ (c.returned s call sent retried value err).2, i.carried = none := by
  simp only [Client.returned]
  split_ifs
  · exact sync_mintAndCacheToken _ call _ _
  · exact sync_returns c call _ _
  · exact sync_returns c call _ _

/-- A wait is not over, and nothing else waits for its target. -/
theorem waiting_closed (hinv : Inv (view c k)) {w : Readiness} (hw : w ∈ c.readiness)
    (hopen : w.done = false) (timer : Readiness → Option ℕ) :
    (c.close w timer).waiting w.objectName = [] := by
  rw [waiting_close, (flight_wait hinv hw hopen).1]
  simp

namespace OnTime

theorem dispatch (h : OnTime c (l ++ k) made) {call : AsyncCall} (hcall : call.number < c.nextNumber)
    (token : QString) :
    OnTime (c.dispatch call token).1 ((c.dispatch call token).2 ++ k) made := by
  refine h.quiet (quiet_dispatch c call token) rfl (fun d hd => ?_) fun i hi call' hc => ?_
  · rcases List.mem_append.mp hd with hd | hd
    · exact Nat.lt_succ_of_lt (h.sent d hd)
    · rw [List.mem_singleton.mp hd]
      exact Nat.lt_succ_of_lt hcall
  · rw [List.mem_singleton.mp hi] at hc
    cases hc

theorem onResult (h : OnTime c (l ++ k) made) {call : AsyncCall} (hcall : call.number < c.nextNumber)
    (sent : QString) (value : QVariant) (err : CallError) :
    OnTime (c.onResult s call sent value err).1 ((c.onResult s call sent value err).2 ++ k) made := by
  have hquiet := quiet_onResult s c call sent value err
  have hsame : (c.onResult s call sent value err).1.clock = c.clock ∧
      (c.onResult s call sent value err).1.dispatches = c.dispatches := by
    simp only [Client.onResult]
    split_ifs <;> exact ⟨rfl, rfl⟩
  have hleft : ∀ i ∈ (c.onResult s call sent value err).2, ∀ call', i.carried = some call' →
      call'.number = call.number := by
    intro i hi call' hc
    simp only [Client.onResult] at hi
    split_ifs at hi
    all_goals
      rw [List.mem_singleton.mp hi] at hc
      cases hc
    rfl
  refine h.quiet hquiet hsame.1 (fun d hd => ?_) fun i hi call' hc => ?_
  · rw [hsame.2] at hd
    exact (h.sent d hd).trans_le hquiet.1.next
  · rw [hleft i hi call' hc]
    exact hcall.trans_le hquiet.1.next

/-- A call looks for a token. -/
theorem invoke (h : OnTime c (l ++ k) made) {call : AsyncCall}
    (hcall : call.number < c.nextNumber)
    (hfits : queues s c call.objectName → ∀ w ∈ c.readiness, w.done = false →
      w.objectName = call.objectName → ∀ due, w.timer = some due →
        spent made call ≤ max due c.clock) :
    OnTime (c.invokeRemoteMethodAsyncImpl s call).1
      ((c.invokeRemoteMethodAsyncImpl s call).2 ++ k) made := by
  simp only [Client.invokeRemoteMethodAsyncImpl]
  split_ifs with htoken hlong
  · exact h.enqueue call.objectName call hcall (hfits htoken)
  · have hqueued := h.enqueue call.objectName call hcall (hfits htoken)
    have hfirst : (c.enqueue call.objectName ⟨c.nextNumber, call⟩).queue call.objectName =
        [⟨c.nextNumber, call⟩] := by
      have hlen : (c.queue call.objectName).length = 0 := by
        simp only [List.length_append, List.length_singleton] at hlong
        omega
      rw [queue_enqueue_self, List.length_eq_zero_iff.mp hlen, List.nil_append]
    exact hqueued.start hfirst
  · exact h.dispatch hcall _

theorem registered {n id : ℕ} (h : OnTime c ([.registering n] ++ k) made)
    (hinv : Inv (view c ([.registering n] ++ k))) (hbooks : Books c ([.registering n] ++ k))
    (hr : c.registered n id = some r)
    (hfits : id ≠ 0 → ∀ w, c.waitOf n = some w → w.done = false →
      ∀ j ∈ (c.queue w.objectName).tail, spent made j.call ≤ c.clock + (max 1 w.timeout).toNat) :
    OnTime r.1 (r.2 ++ k) made := by
  obtain ⟨w, hw, rfl⟩ := Option.map_eq_some_iff.mp hr
  obtain ⟨hmem, rfl⟩ := waitOf_eq_some hw
  split_ifs with hdone hid
  · exact h.sync ⟨.refl c, idle_nil⟩ ⟨rfl, rfl, by simp⟩
  · have hopen : w.done = false := by simpa using hdone
    have hwaits := waiting_closed hinv hmem hopen Readiness.timer
    exact (h.close w Readiness.timer).drain (e := .refused) hwaits fun _ => .inl rfl
  · have hopen : w.done = false := by simpa using hdone
    refine ⟨h.past, h.queued, h.sent, fun i hi => h.left i (List.mem_cons_of_mem _ hi),
      fun w' hw' hopen' due hdue j hj => ?_, fun w' hw' hopen' => ?_,
      fun j token hin => h.run j token (List.mem_cons_of_mem _ hin)⟩
    · obtain ⟨w₀, hw₀, rfl⟩ := List.mem_map.mp hw'
      split_ifs at hopen' hdue hj with hn
      · obtain rfl := hbooks.wait_eq hmem hw₀ hn
        cases hdue
        obtain ⟨j₀, hhead, htimeout⟩ := h.starting w₀ hmem hopen
        obtain ⟨rest, hqueue⟩ : ∃ rest, c.queue w₀.objectName = j₀ :: rest :=
          List.head?_eq_some_iff.mp hhead
        have hj' : j ∈ j₀ :: rest := hqueue ▸ hj
        rcases List.mem_cons.mp hj' with rfl | hj'
        · -- It is the call that the wait was begun for.
          have hpast := h.past j.call.number
          rw [spent, htimeout]
          refine le_max_of_le_left ?_
          omega
        · exact le_max_of_le_left (hfits hid w₀ hw hopen j (by rw [hqueue]; exact hj'))
      · exact h.armed w₀ hw₀ hopen' due hdue j hj
    · obtain ⟨w₀, hw₀, rfl⟩ := List.mem_map.mp hw'
      split_ifs at hopen' ⊢ <;> exact h.starting w₀ hw₀ hopen'

theorem ready {n : ℕ} {b : Bool} (h : OnTime c k made) (hinv : Inv (view c k)) (hbooks : Books c k)
    (hr : c.ready n b = some r) : OnTime r.1 (r.2 ++ k) made := by
  obtain ⟨w, hw, rfl⟩ := Option.map_eq_some_iff.mp hr
  obtain ⟨hmem, rfl⟩ := waitOf_eq_some hw
  split_ifs with hdone hready
  · exact h
  · have hopen : w.done = false := by simpa using hdone
    have hover := OnTime.close (l := []) h w fun _ => none
    rw [hbooks.finished hmem hopen (f := fun w => { w with done := true }) (fun _ => rfl) fun _ => rfl]
    refine hover.frame (l := []) rfl rfl (fun w' hw' _ => hw') (Nat.le_succ _)
      (List.prefix_append _ _) (fun d hd => Nat.lt_succ_of_lt (hover.sent d hd)) ?_ ?_
    · simp [Client.startCapabilityHandshake, Instr.looped]
    · simp [Client.startCapabilityHandshake, Instr.carried]
  · have hopen : w.done = false := by simpa using hdone
    have hover := OnTime.close (l := []) h w fun _ => none
    have hwaits := waiting_closed hinv hmem hopen fun _ => none
    rw [hbooks.finished hmem hopen (f := fun w => { w with done := true }) (fun _ => rfl) fun _ => rfl]
    exact hover.drain (l := []) (e := .refused) hwaits fun _ => .inl rfl

/-- A deadline takes out calls whose budgets are spent. -/
theorem deadline {n : ℕ} (h : OnTime c k made) (hinv : Inv (view c k)) (hbooks : Books c k)
    (hr : c.deadline n = some r) : OnTime r.1 (r.2 ++ k) made := by
  obtain ⟨w, hw, hr⟩ := Option.bind_eq_some_iff.mp hr
  obtain ⟨hmem, rfl⟩ := waitOf_eq_some hw
  simp only [Option.ite_none_right_eq_some] at hr
  obtain ⟨hdue, hr⟩ := hr
  obtain ⟨due, htimer, hdue⟩ := (Option.any_eq_true _ _).mp hdue
  split_ifs at hr with hdone
  · obtain rfl := Option.some.inj hr
    refine h.frame (l := []) rfl rfl (fun w' hw' hopen => ?_) le_rfl (List.prefix_refl _) h.sent
      (by simp) (by simp)
    obtain ⟨w₀, hw₀, rfl⟩ := List.mem_map.mp hw'
    split_ifs at hopen ⊢ with hn
    · -- The timer of a wait that is over.
      rw [hbooks.wait_eq hmem hw₀ hn, hdone] at hopen
      cases hopen
    · exact hw₀
  · obtain rfl := Option.some.inj hr
    have hopen : w.done = false := by simpa using hdone
    have hclosed := hbooks.finished hmem hopen (f := fun w => { w with timer := none, done := true })
      (fun _ => rfl) fun _ => rfl
    rw [setWait_setWait c w.number (f := fun w => { w with timer := none }) fun _ => rfl, hclosed]
    have hwaits := waiting_closed hinv hmem hopen fun _ => none
    refine (OnTime.close (l := []) h w fun _ => none).drain (l := []) hwaits fun _ => .inr ?_
    intro j hj
    exact (h.armed w hmem hopen due htimer j hj).trans (max_le (of_decide_eq_true hdue) le_rfl)

theorem reply {n : ℕ} {token : QString} (h : OnTime c k made) (hinv : Inv (view c k))
    (hr : c.reply n token = some r) : OnTime r.1 (r.2 ++ k) made := by
  obtain ⟨e, he, rfl⟩ := Option.map_eq_some_iff.mp hr
  have hmem := List.mem_of_find?_eq_some he
  have hsettled : OnTime { c with
      exchanges := c.exchanges.eraseP fun e => e.number = n
      store := if token = [] then c.store else c.store.saveToken e.objectName token } ([] ++ k) made :=
    h.frame (l := []) rfl rfl (fun w hw _ => hw) le_rfl (List.prefix_refl _) h.sent (by simp) (by simp)
  exact hsettled.drain (l := []) (flight_exchange hinv hmem).1 nofun

theorem emit (h : OnTime c k made) (e : Event) : OnTime (c.emit e) k made :=
  ⟨h.past, h.queued, h.sent, h.left, h.armed, h.starting, fun j token hin =>
    (h.run j token hin).imp (fun hr => hr.mono (List.prefix_append _ _)) id⟩

/-- What the step of an instruction keeps. -/
theorem exec {i : Instr} (h : OnTime (c.pass o) ([i] ++ k) made)
    (hands : Handshakes (c.pass o) ([i] ++ k))
    (hqueued : ∀ call, i = .invoke call → queues s (c.pass o) call.objectName →
      ∀ w ∈ c.readiness, w.done = false → w.objectName = call.objectName →
        ∀ due, w.timer = some due → spent made call ≤ max due (c.clock + o.elapsed))
    (harmed : ∀ n, i = .registering n → o.id ≠ 0 → ∀ w, c.waitOf n = some w → w.done = false →
      ∀ j ∈ (c.queue w.objectName).tail,
        spent made j.call ≤ c.clock + o.elapsed + (max 1 w.timeout).toNat)
    (hexec : ApiClient.exec s c i o = some r) : OnTime r.1 (r.2 ++ k) made := by
  cases i with
  | callback | transport =>
    cases hexec
    exact h.sync ⟨.refl _, idle_nil⟩ ⟨rfl, rfl, by simp⟩
  | registering n => exact h.registered hands.inv hands.books hexec (harmed n rfl)
  | invoke call =>
    cases hexec
    exact h.invoke (h.left _ List.mem_cons_self call rfl) (hqueued call rfl)
  | run j token reachable =>
    cases hexec
    have hcall := h.left _ List.mem_cons_self j.call rfl
    have hran := h.emit (.ran j.number token reachable)
    simp only [Client.runContinuation]
    split_ifs
    · exact hran.dispatch hcall token
    · exact hran.onResult hcall [] .invalid _
  | ensureTarget call start =>
    cases hexec
    exact h.sync (quiet_ensured _ call start o.found) (sync_ensured _ call start o.found)
  | mint call timeout retried =>
    cases hexec
    exact h.sync (quiet_minted _ call retried o.token) (sync_minted _ call retried o.token)
  | callTarget call token retried =>
    cases hexec
    exact h.sync (quiet_returned s _ call token retried o.value o.err)
      (sync_returned s _ call token retried o.value o.err)

/-- What a call keeps, and what the event loop delivers. -/
theorem call {op : Op} (h : OnTime (c.pass o) k made) (hands : Handshakes (c.pass o) k)
    (hqueued : ∀ request callback, op = .invokeRemoteMethodAsync request (some callback) →
      queues s (c.pass o) request.objectName →
      ∀ w ∈ c.readiness, w.done = false → w.objectName = request.objectName →
        ∀ due, w.timer = some due →
          made c.nextNumber + request.timeout.toNat ≤ max due (c.clock + o.elapsed))
    (hcall : ApiClient.call s c op o = some r) : OnTime r.1 (r.2 ++ k) made := by
  have hnumbered : OnTime { c.pass o with nextNumber := c.nextNumber + 1 } ([] ++ k) made :=
    h.frame (l := []) rfl rfl (fun w hw _ => hw) (Nat.le_succ _) (List.prefix_refl _)
      (fun d hd => Nat.lt_succ_of_lt (h.sent d hd)) (by simp) (by simp)
  cases op with
  | invokeRemoteMethod request hasErr =>
    cases hcall
    exact hnumbered.sync (quiet_invokeRemoteMethod s _ _) (sync_invokeRemoteMethod s _ _)
  | invokeRemoteMethodAsync request callback =>
    cases callback with
    | none =>
      cases hcall
      exact h
    | some callback =>
      cases hcall
      exact hnumbered.invoke (Nat.lt_succ_self _) (hqueued request callback rfl)
  | ready n b => exact h.ready hands.inv hands.books hcall
  | deadline n => exact h.deadline hands.inv hands.books hcall
  | reply n token => exact h.reply hands.inv hcall
  | result n value err =>
    obtain ⟨d, hd, rfl⟩ := Option.map_eq_some_iff.mp hcall
    have hmem := List.mem_of_find?_eq_some hd
    have htaken : OnTime { c.pass o with
        dispatches := (c.pass o).dispatches.eraseP fun d => d.number = n } ([] ++ k) made :=
      h.frame (l := []) rfl rfl (fun w hw _ => hw) le_rfl (List.prefix_refl _)
        (fun d' hd' => h.sent d' (List.mem_of_mem_eraseP hd')) (by simp) (by simp)
    exact htaken.onResult (h.sent d hmem) d.token value err

end OnTime

end steps

/-! ## Runs -/

section runs
variable {s : Setup} {store : TokenManager} {t t' : Timed} {a : Program.Action Op Oracle}

theorem Timed.next_eq_some (h : t.next s store a = some t') :
    ∃ c, (program s store).next t.config a = some c ∧
      t' = ⟨c, fun n => if n < t.config.data.nextNumber then t.made n
        else t.config.data.clock + a.answer.elapsed⟩ := by
  obtain ⟨c, hc, rfl⟩ := Option.map_eq_some_iff.mp h
  exact ⟨c, hc, rfl⟩

theorem Timed.next_of {c : Program.Config Client Instr}
    (h : (program s store).next t.config a = some c) : t.next s store a =
      some ⟨c, fun n => if n < t.config.data.nextNumber then t.made n
        else t.config.data.clock + a.answer.elapsed⟩ := by
  rw [Timed.next, h, Option.map_some]

/-- A client that keeps the time runs as one that does not. -/
theorem config_reachable (h : (timed s store).Reachable t) :
    (program s store).system.Reachable t.config := by
  refine h.invariant (I := fun t => (program s store).system.Reachable t.config) ?_ ?_
  · rintro t rfl
    exact .init rfl
  · intro t a t' ht hstep
    obtain ⟨c, hc, rfl⟩ := Timed.next_eq_some hstep
    exact ht.step (a := a) hc

theorem OnTime.next (h : OnTime t.config.data t.config.stack t.made)
    (hands : Handshakes t.config.data t.config.stack) (hfits : Fits s t a)
    (hstep : t.next s store a = some t') : OnTime t'.config.data t'.config.stack t'.made := by
  obtain ⟨c', hc', rfl⟩ := Timed.next_eq_some hstep
  obtain ⟨c, made⟩ := t
  dsimp only at h hands hstep hc' ⊢
  generalize hmade : (fun n => if n < c.data.nextNumber then made n
    else c.data.clock + a.answer.elapsed) = made'
  have hold : ∀ n < c.data.nextNumber, made' n = made n := fun n hn => by
    simp only [← hmade, if_pos hn]
  have hnew : made' c.data.nextNumber = c.data.clock + a.answer.elapsed := by
    simp only [← hmade, lt_self_iff_false, if_false]
  have htime : OnTime (c.data.pass a.answer) c.stack made' := by
    refine (h.pass a.answer).stamp hold fun n => ?_
    simp only [← hmade]
    split_ifs
    · exact (h.past n).trans (Nat.le_add_right _ _)
    · exact le_rfl
  have hspent : ∀ call : AsyncCall, call.number < c.data.nextNumber →
      spent made' call = spent made call := fun call hcall => by rw [spent, spent, hold _ hcall]
  have hpassed : Handshakes (c.data.pass a.answer) c.stack :=
    ⟨(Quiet.pass c.data a.answer).view_eq c.stack ▸ hands.inv,
      (Quiet.pass c.data a.answer).books hands.books⟩
  cases a with
  | call op o =>
    obtain ⟨r, hr, rfl⟩ := Program.next_call hc'
    refine htime.call hpassed (fun request callback hop => ?_) hr
    subst hop
    rw [hnew]
    exact hfits.queued _ _ rfl
  | step o =>
    obtain ⟨i, k, r, hstack, hr, rfl⟩ := Program.next_step hc'
    rw [hstack] at htime hpassed
    refine htime.exec hpassed (fun call hi => ?_) (fun n hi hid w hw hopen j hj => ?_) hr
    · subst hi
      rw [hspent call (htime.left _ List.mem_cons_self call rfl)]
      refine hfits.queued _ _ ?_
      simp only [arrival, hstack]
    · subst hi
      rw [hspent j.call (htime.queued _ j (List.mem_of_mem_tail hj))]
      exact hfits.armed o n k rfl hstack hid w hw hopen j hj

/-- The target cannot be acquired: the call is answered. -/
theorem runContinuation_unreachable (s : Setup) (c : Client) (j : Continuation) (token : QString) :
    c.runContinuation s j token false = (c.emit (.ran j.number token false)).answer j.call .invalid
      (errObjectUnavailable j.call.objectName) := by
  simp [Client.runContinuation, Client.onResult]

theorem exec_run {c : Client} {j : Continuation} {token : QString} {o : Oracle}
    {r : Client × List Instr} (h : exec s c (.run j token false) o = some r) :
    r.1.clock = c.clock + o.elapsed ∧
      .answered j.call.number .invalid (some (errObjectUnavailable j.call.objectName)) ∈ r.1.log ∧
      c.log <+: r.1.log := by
  simp only [exec, runContinuation_unreachable, Option.some.injEq] at h
  subst h
  refine ⟨rfl, List.mem_append_right _ List.mem_cons_self, ?_⟩
  exact (List.prefix_append _ _).trans (List.prefix_append _ _)

theorem OnTime.onBudget (h : OnTime t.config.data t.config.stack t.made) : OnBudget s store t := by
  intro j token k o t' hstack hstep
  obtain ⟨c', hc', rfl⟩ := Timed.next_eq_some hstep
  obtain ⟨i, k', r, hstack', hr, rfl⟩ := Program.next_step hc'
  obtain ⟨rfl, rfl⟩ := List.cons.inj (hstack'.symm.trans hstack)
  obtain ⟨hclock, hanswered, hlog⟩ := exec_run hr
  refine ⟨hanswered, ?_⟩
  have hin : Instr.run j token false ∈ t.config.stack := hstack ▸ List.mem_cons_self
  have hnumber := h.left _ hin j.call rfl
  rcases h.run j token hin with hrefused | hspent
  · exact .inl (hrefused.mono hlog)
  · refine .inr ?_
    simp only [spent, if_pos hnumber, hclock] at hspent ⊢
    omega

theorem onTime_of_reachable (h : ((timed s store).restrict (Fits s)).Reachable t) :
    OnTime t.config.data t.config.stack t.made := by
  have hrun := h.invariant (I := fun t => OnTime t.config.data t.config.stack t.made ∧
    Handshakes t.config.data t.config.stack) ?_ ?_
  · exact hrun.1
  · rintro t rfl
    exact ⟨.initial store, handshakes_initial store⟩
  · rintro t a t' ⟨htime, hands⟩ ⟨hstep, hfits⟩
    refine ⟨htime.next hands hfits hstep, ?_⟩
    obtain ⟨c, hc, rfl⟩ := Timed.next_eq_some hstep
    exact (hands.next hc).2

/-- **Nobody is answered early who is queued behind no earlier deadline.** -/
theorem queued_on_budget (h : ((timed s store).restrict (Fits s)).Reachable t) :
    OnBudget s store t :=
  (onTime_of_reachable h).onBudget

/-- No time passes, and no refused queue is taken out. -/
structure Stays (t t' : Timed) : Prop where
  clock : t'.config.data.clock = t.config.data.clock
  next : t'.config.data.nextNumber = t.config.data.nextNumber
  made : ∀ n < t.config.data.nextNumber, t'.made n = t.made n
  refused : ∀ n, Refused t'.config.data n → Refused t.config.data n

theorem Stays.refl (t : Timed) : Stays t t := ⟨rfl, rfl, fun _ _ => rfl, fun _ => id⟩

theorem Stays.trans {t t' t'' : Timed} (h : Stays t t') (h' : Stays t' t'') : Stays t t'' where
  clock := h'.clock.trans h.clock
  next := h'.next.trans h.next
  made n hn := (h'.made n (h.next ▸ hn)).trans (h.made n hn)
  refused n hn := h.refused n (h'.refused n hn)

theorem Stays.spent_eq (h : Stays t t') {call : AsyncCall}
    (hcall : call.number < t.config.data.nextNumber) : spent t'.made call = spent t.made call := by
  rw [spent, spent, h.made _ hcall]

/-- What was not refused before a drain. -/
theorem Refused.of_append {c c' : Client} {n : ℕ} {l : List Event} (h : Refused c' n)
    (hlog : c'.log = c.log ++ l) (hes : ∀ e ∈ l, e.edgeOf ≠ some .refused) : Refused c n := by
  obtain ⟨x, ns, token, reachable, he, hn⟩ := h
  rw [hlog, List.mem_append] at he
  exact ⟨x, ns, token, reachable, he.resolve_right fun he => hes _ he rfl, hn⟩

theorem Refused.drained {c : Client} {n : ℕ} (h : Refused c n) : n ∈ drainedNumbers c.log := by
  obtain ⟨x, ns, token, reachable, he, hn⟩ := h
  exact List.mem_flatMap.mpr ⟨(ns, token, reachable), List.mem_filterMap.mpr ⟨_, he, rfl⟩, hn⟩

/-- A call is answered at once. -/
theorem Timed.run_next (s : Setup) (store : TokenManager) {t : Timed} {j : Continuation} {rest : List Instr}
    (hstack : t.config.stack = .run j [] false :: rest) :
    ∃ t', t.next s store (.step {}) = some t' ∧ t'.config.stack = .callback :: rest ∧
      Stays t t' := by
  obtain ⟨⟨c, k⟩, made⟩ := t
  obtain rfl : k = .run j [] false :: rest := hstack
  simp only [Timed.next, Program.next, program, exec, runContinuation_unreachable]
  refine ⟨_, rfl, rfl, rfl, rfl, fun n hn => if_pos hn, fun n hrefused => ?_⟩
  refine hrefused.of_append (l := [.ran j.number [] false, .answered j.call.number .invalid
    (some (errObjectUnavailable j.call.objectName))]) ?_ (by simp [Event.edgeOf])
  simp [Client.answer, Client.emit, Client.pass]

theorem Timed.callback_next {t : Timed} {rest : List Instr}
    (hstack : t.config.stack = .callback :: rest) :
    ∃ t', t.next s store (.step {}) = some t' ∧ t'.config.stack = rest ∧ Stays t t' := by
  obtain ⟨⟨c, k⟩, made⟩ := t
  obtain rfl : k = .callback :: rest := hstack
  exact ⟨_, rfl, rfl, rfl, rfl, fun n hn => if_pos hn, fun _ => id⟩

/-- The calls of a loop are answered, one after the other. -/
theorem Timed.flush (s : Setup) (store : TokenManager) {rest : List Instr} (l : List Continuation)
    {t : Timed}
    (hstack : t.config.stack = l.map (fun j => .run j [] false) ++ rest) :
    ∃ as t', (timed s store).Run t as t' ∧ t'.config.stack = rest ∧ Stays t t' := by
  induction l generalizing t with
  | nil => exact ⟨[], t, .nil t, hstack, .refl t⟩
  | cons j l ih =>
    obtain ⟨t₁, hrun, hstack₁, hstays₁⟩ := Timed.run_next s store hstack
    obtain ⟨t₂, hreturn, hstack₂, hstays₂⟩ := Timed.callback_next hstack₁
    obtain ⟨as, t₃, hrest, hstack₃, hstays₃⟩ := ih hstack₂
    exact ⟨_, t₃, ((Run.single hrun).trans (.single hreturn)).trans hrest, hstack₃,
      (hstays₁.trans hstays₂).trans hstays₃⟩

/-- A deadline expires as soon as it is due, and takes a call out with those before it. -/
theorem Timed.expire (hands : Handshakes t.config.data t.config.stack)
    (haccepts : (program s store).Accepts t.config.stack) {w : Readiness}
    (hw : w ∈ t.config.data.readiness) (hopen : w.done = false) {due : ℕ} (hdue : w.timer = some due)
    {j : Continuation} (hj : j ∈ t.config.data.queue w.objectName) :
    ∃ (o : Oracle) (before : List Continuation) (rest : List Instr) (t' : Timed),
      t.next s store (.call (.deadline w.number) o) = some t' ∧
      t'.config.stack = before.map (fun j => .run j [] false) ++ .run j [] false :: rest ∧
      t'.config.data.clock = max due t.config.data.clock ∧
      t'.config.data.nextNumber = t.config.data.nextNumber ∧
      (∀ n < t.config.data.nextNumber, t'.made n = t.made n) ∧
      ∀ n, Refused t'.config.data n → Refused t.config.data n := by
  generalize hpassed : t.config.data.clock + (due - t.config.data.clock) = now
  have hclock : now = max due t.config.data.clock := by omega
  have hnext := hands.deadline_next
    (o := { elapsed := due - t.config.data.clock }) hw hopen hdue (by dsimp only; omega) haccepts
  obtain ⟨before, after, hqueue⟩ := List.append_of_mem hj
  have hlookup : ((t.config.data.pass { elapsed := due - t.config.data.clock }).close w
      fun _ => none).pendingHandshakes.lookup w.objectName = some (before ++ j :: after) :=
    (lookup_of_queue (List.ne_nil_of_mem hj)).trans (congrArg some hqueue)
  simp only [Client.drainPendingHandshakes, hlookup, List.map_append, List.map_cons,
    List.append_assoc, List.cons_append] at hnext
  refine ⟨{ elapsed := due - t.config.data.clock }, before, _, _, Timed.next_of hnext, rfl,
    hpassed.trans hclock, rfl, fun n hn => if_pos hn, fun n hrefused => ?_⟩
  exact hrefused.of_append rfl (by simp [Event.edgeOf])

/-- **A call behind an earlier deadline is answered early** when that deadline expires. -/
theorem early_of_deadline (h : (timed s store).Reachable t)
    (haccepts : (program s store).Accepts t.config.stack) {w : Readiness}
    (hw : w ∈ t.config.data.readiness) (hopen : w.done = false) {due : ℕ} (hdue : w.timer = some due)
    {j : Continuation} (hj : j ∈ t.config.data.queue w.objectName)
    (hnumber : j.call.number < t.config.data.nextNumber)
    (hearly : max due t.config.data.clock < spent t.made j.call) :
    ∃ as t', (timed s store).Run t as t' ∧ ¬ OnBudget s store t' := by
  have hands : Handshakes t.config.data t.config.stack :=
    handshakes_of_reachable (config_reachable h)
  obtain ⟨o, before, rest, t₁, hexpire, hstack₁, hclock, hnext, hmade, hrefused⟩ :=
    Timed.expire hands haccepts hw hopen hdue hj
  obtain ⟨as, t₂, hrun, hstack₂, hstays⟩ := Timed.flush s store before hstack₁
  obtain ⟨t₃, hanswer, -, hstays'⟩ := Timed.run_next s store hstack₂
  have hstays := hstays.trans hstays'
  refine ⟨_, t₂, (Run.single hexpire).trans hrun, fun hbudget => ?_⟩
  rcases (hbudget j [] rest {} t₃ hstack₂ hanswer).2 with hgone | hspent
  · have hbefore := hrefused _ (hstays.refused _ hgone)
    exact hands.not_drained hj hbefore.drained
  · rw [hstays.clock, hclock, hstays.spent_eq (hnext ▸ hnumber), spent, hmade _ hnumber] at hspent
    rw [spent] at hearly
    omega

/-- A call to a target for which something is queued is queued too. -/
theorem invoke_queued (c : Client) (call : AsyncCall)
    (hqueues : queues s c call.objectName) (hqueue : c.queue call.objectName ≠ []) :
    c.invokeRemoteMethodAsyncImpl s call = (c.enqueue call.objectName ⟨c.nextNumber, call⟩, []) := by
  have hlong : 1 < (c.queue call.objectName ++ [(⟨c.nextNumber, call⟩ : Continuation)]).length := by
    have hsome := List.length_pos_of_ne_nil hqueue
    simp only [List.length_append, List.length_singleton]
    omega
  simp only [Client.invokeRemoteMethodAsyncImpl]
  obtain ⟨htoken, heligible⟩ := hqueues
  rw [if_pos ⟨htoken, heligible⟩, if_pos hlong]
  rfl

/-- **The condition is needed.**  After an arrival that does not meet it, the gate can answer
early. -/
theorem early_of_arrival (h : (timed s store).Reachable t) {request : Request} {callback : ℕ}
    {o : Oracle}
    (hnot : ¬ Fits s t (.call (.invokeRemoteMethodAsync request (some callback)) o))
    (hstep : t.next s store (.call (.invokeRemoteMethodAsync request (some callback)) o) = some t') :
    ∃ as t'', (timed s store).Run t' as t'' ∧ ¬ OnBudget s store t'' := by
  have hnext := h.step hstep
  obtain ⟨c', hc', rfl⟩ := Timed.next_eq_some hstep
  have haccepts : (program s store).Accepts t.config.stack := by
    by_contra hbusy
    simp [Program.next, hbusy] at hc'
  obtain ⟨r, hr, rfl⟩ := Program.next_call hc'
  -- The arrival is queued behind a deadline that comes before its budget is spent.
  obtain ⟨w, hw, hopen, hname, due, hdue, hearly, hqueues⟩ : ∃ w ∈ t.config.data.readiness,
      w.done = false ∧ w.objectName = request.objectName ∧ ∃ due, w.timer = some due ∧
        max due (t.config.data.clock + o.elapsed) <
          t.config.data.clock + o.elapsed + request.timeout.toNat ∧
        queues s (t.config.data.pass o) request.objectName := by
    by_contra hnone
    push Not at hnone
    refine hnot ⟨fun x budget harrival hqueues w hw hopen hname due hdue => ?_,
      fun o' n k ha => by cases ha⟩
    cases harrival
    by_contra hearly
    exact hnone w hw hopen hname due hdue (not_le.mp hearly) hqueues
  have hands : Handshakes t.config.data t.config.stack :=
    handshakes_of_reachable (config_reachable h)
  have hqueue : t.config.data.queue request.objectName ≠ [] :=
    hname ▸ (flight_wait hands.inv hw hopen).2.2
  have hinvoke := invoke_queued
    { t.config.data.pass o with nextNumber := t.config.data.nextNumber + 1 }
    ⟨t.config.data.nextNumber, request, callback, 1⟩ hqueues hqueue
  obtain rfl := (Option.some.inj hr).symm.trans hinvoke
  refine early_of_deadline hnext haccepts hw hopen hdue
    (j := ⟨t.config.data.nextNumber + 1, ⟨t.config.data.nextNumber, request, callback, 1⟩⟩) ?_ ?_ ?_
  · have hlast := queue_enqueue_self { t.config.data.pass o with
      nextNumber := t.config.data.nextNumber + 1 } request.objectName
      ⟨t.config.data.nextNumber + 1, ⟨t.config.data.nextNumber, request, callback, 1⟩⟩
    rw [hname]
    exact hlast ▸ List.mem_append_right _ List.mem_cons_self
  · exact Nat.lt_succ_of_lt (Nat.lt_succ_self _)
  · simp only [spent, lt_self_iff_false, if_false]
    exact hearly

/-- A call with a second to wait, and one with half of that. -/
def impatient : Request := { getBalance with timeout := 1000 }
def hasty : Request := { getBalance with timeout := 500 }

/-- Both are made, the second half a second later; the wait was set up in between. -/
def bothQueued (second : Request) : List (Program.Action Op Oracle) :=
  [.call (.invokeRemoteMethodAsync impatient (some 7)) {}, .step { id := 1 },
    .call (.invokeRemoteMethodAsync second (some 8)) { elapsed := 500 }]

/-- The deadline of the first has expired, and the first was answered. -/
def firstAnswered : List (Program.Action Op Oracle) :=
  [.call (.deadline 2) { elapsed := 500 }, .step {}, .step {}]

def earlyWallet (second : Request) : Timed :=
  ((TransitionSystem.exec (Timed.next app .empty) ⟨⟨{}, []⟩, fun _ => 0⟩
    (bothQueued second ++ firstAnswered)).getD ⟨⟨{}, []⟩, fun _ => 0⟩)

/-- A call with twenty seconds is answered after half of one. -/
theorem queued_early : ¬ ∀ s store t, (timed s store).Reachable t → OnBudget s store t := by
  intro hall
  have hinit : (timed app .empty).Reachable ⟨⟨{}, []⟩, fun _ => 0⟩ := .init rfl
  have hexec : TransitionSystem.exec (Timed.next app .empty) ⟨⟨{}, []⟩, fun _ => 0⟩
    (bothQueued getBalance ++ firstAnswered) = some (earlyWallet getBalance) := rfl
  have hearly := hall app .empty _ (hinit.of_exec hexec) ⟨4, ⟨3, getBalance, 8, 1⟩⟩ [] [] {} _ rfl rfl
  rcases hearly.2 with ⟨x, ns, token, reachable, hin, -⟩ | hspent
  · have hedges : Edge.refused ∈ ((((earlyWallet getBalance).next app .empty (.step {})).get
      rfl).config.data.log.filterMap Event.edgeOf) := List.mem_filterMap.mpr ⟨_, hin, rfl⟩
    exact absurd hedges (by decide)
  · exact absurd hspent (by decide)

/-- A step that neither looks for a token nor sets a deadline. -/
theorem Fits.of_idle {s : Setup} {t : Timed} {a : Program.Action Op Oracle}
    (harrival : arrival t a = none) (hstack : ∀ n k, t.config.stack ≠ .registering n :: k) :
    Fits s t a where
  queued x budget h := by
    rw [harrival] at h
    cases h
  armed o n k _ h := absurd h (hstack n k)

/-- A call with half a second to wait is answered when that has passed. -/
theorem queued_on_budget_hasty : ∃ t',
    (earlyWallet hasty).next app .empty (.step {}) = some t' ∧
      .answered 3 .invalid (some (errObjectUnavailable (qstr "wallet"))) ∈ t'.config.data.log ∧
      (Refused t'.config.data 4 ∨ 500 + 500 ≤ t'.config.data.clock) := by
  have hinit : ((timed app .empty).restrict (Fits app)).Reachable ⟨⟨{}, []⟩, fun _ => 0⟩ := .init rfl
  have hfirst := hinit.next (.call (.invokeRemoteMethodAsync impatient (some 7)) {})
    ⟨fun x budget _ _ w hw => absurd hw List.not_mem_nil, nofun⟩ rfl
  have harmed := hfirst.next (.step { id := 1 }) (by
    refine ⟨nofun, fun o n k ho hstack _ w hw _ j hj => ?_⟩
    cases hstack
    cases hw
    cases hj) rfl
  have hsecond := harmed.next (.call (.invokeRemoteMethodAsync hasty (some 8)) { elapsed := 500 }) (by
    refine ⟨fun x budget harrival _ w hw _ _ due hdue => ?_, nofun⟩
    cases harrival
    obtain rfl := List.mem_singleton.mp hw
    cases hdue
    decide) rfl
  have hexpired := hsecond.next (.call (.deadline 2) { elapsed := 500 }) (.of_idle rfl nofun) rfl
  have hran := hexpired.next (.step {}) (.of_idle rfl nofun) rfl
  have hreached : ((timed app .empty).restrict (Fits app)).Reachable (earlyWallet hasty) :=
    hran.next (.step {}) (.of_idle rfl nofun) rfl
  exact ⟨_, rfl, queued_on_budget hreached ⟨4, ⟨3, hasty, 8, 1⟩⟩ [] [] {} _ rfl rfl⟩

end runs

end LogosProtocol.ApiClient
