import LogosProtocol.Client.Handshake

/-!
# Queued calls are run once

Every continuation of `m_pendingHandshakes` is taken out by one drain, with the token and the
reachability of that drain, and is run once.  As long as it waits, one wait or one exchange is
up for its target, and what ends that takes the whole queue out.

## Main definitions

* `Handshakes` — the invariant.
* `RunsOnce` — what it says of the log.
* `Progress` — what may end a wait or an exchange does, and takes the queue out.
-/

namespace LogosProtocol.ApiClient

open SingleFlight (View Step Inv)

/-- The invariant of a client and what is left to do. -/
structure Handshakes (c : Client) (k : List Instr) : Prop where
  inv : Inv (view c k)
  books : Books c k

section steps
variable {s : Setup} {store : TokenManager} {c c' : Program.Config Client Instr}
  {a : Program.Action Op Oracle}

theorem handshakes_initial (store : TokenManager) : Handshakes { store := store } [] where
  inv := by
    refine ⟨fun x => .inl ⟨rfl, rfl⟩, List.nodup_nil, fun x => List.nodup_nil, fun x y j hj => ?_,
      fun x j hj => ?_, fun j => ?_, fun p hp => ?_, List.nodup_nil, fun j => ?_⟩
    · cases hj
    · cases hj
    · constructor
      · intro hj
        cases hj
      · rintro (hj | ⟨x, hj⟩) <;> cases hj
    · cases hp
    · constructor <;> intro hj <;> cases hj
  books := by
    refine ⟨by simp, List.nodup_nil, by simp, List.nodup_nil, by simp, fun x n => ?_, by simp⟩
    constructor <;> intro h <;> cases h

/-- Nothing of what a step does is lost on the flights. -/
theorem Handshakes.change {c c₁ c' : Client} {k l l' : List Instr} (h : Handshakes c (l ++ k))
    (hquiet : Quiet c c₁) (hchange : Change c₁ l c' l') :
    Step (view c (l ++ k)) (view c' (l' ++ k)) ∧ Handshakes c' (l' ++ k) := by
  have hinv : Inv (view c₁ (l ++ k)) := hquiet.view_eq (l ++ k) ▸ h.inv
  have hbooks : Books c₁ (l ++ k) := hquiet.books h.books
  have hstep := hchange.step hinv hbooks
  refine ⟨hquiet.view_eq (l ++ k) ▸ hstep, hinv.step hstep, hchange.books hinv hbooks⟩

/-- One step of the machine. -/
theorem Handshakes.next (h : Handshakes c.data c.stack)
    (hstep : (program s store).next c a = some c') :
    Step (view c.data c.stack) (view c'.data c'.stack) ∧ Handshakes c'.data c'.stack := by
  cases a with
  | call op o =>
    obtain ⟨r, hr, rfl⟩ := Program.next_call hstep
    obtain ⟨c₁, hquiet, hchange⟩ := call_change h.books hr
    exact Handshakes.change (l := []) h hquiet hchange
  | step o =>
    obtain ⟨i, k, r, hstack, hr, rfl⟩ := Program.next_step hstep
    rw [hstack] at h ⊢
    obtain ⟨c₁, hquiet, hchange⟩ := exec_change h.books hr
    exact Handshakes.change (l := [i]) h hquiet hchange

theorem handshakes_of_reachable (h : (program s store).system.Reachable c) :
    Handshakes c.data c.stack := by
  refine h.invariant (I := fun c => Handshakes c.data c.stack) ?_ ?_
  · rintro c rfl
    exact handshakes_initial store
  · intro c a c' hc hstep
    exact (hc.next hstep).2

end steps

/-! ## Once -/

/-- The continuations that loops have taken out. -/
def handed (k : List Instr) : List ℕ := (k.filterMap Instr.looped).map Prod.fst

def ranNumbers (log : List Event) : List ℕ := (log.filterMap Event.ranOf).map Prod.fst

/-- The continuations that drains have taken out. -/
def drainedNumbers (log : List Event) : List ℕ := (log.filterMap Event.landing).flatMap Prod.fst

/-- What is seen of a continuation. -/
structure RunsOnce (c : Client) (k : List Instr) : Prop where
  once : (ranNumbers c.log).Nodup
  /-- It is run with the token and the reachability of a drain that took it out. -/
  drained : ∀ n token reachable, .ran n token reachable ∈ c.log →
    ∃ name ns edge, .drained name ns edge token reachable ∈ c.log ∧ n ∈ ns
  /-- There is one such drain. -/
  drainedOnce : (drainedNumbers c.log).Nodup
  /-- What is taken out was queued. -/
  queued : ∀ n ∈ drainedNumbers c.log, ∃ name, .queued n name ∈ c.log
  /-- There is one wait or one exchange for a target, and none if nothing is queued. -/
  oneFlight : ∀ name, (c.waiting name).length + (c.exchanging name).length =
    if c.queue name = [] then 0 else 1
  /-- What is queued waits, or is in the hands of a loop, or was run. -/
  kept : ∀ n name, .queued n name ∈ c.log → n ∈ ranNumbers c.log ∨ n ∈ handed k ∨
    ∃ name, ∃ j ∈ c.queue name, j.number = n
  /-- A wait that is not over has a deadline, or is being registered. -/
  timed : ∀ w ∈ c.readiness, w.done = false → w.timer.isSome = true ∨ .registering w.number ∈ k

theorem Handshakes.runsOnce {c : Client} {k : List Instr} (h : Handshakes c k) : RunsOnce c k := by
  have hpairs : ((view c k).loop ++ (view c k).ran).map Prod.fst = handed k ++ ranNumbers c.log := by
    simp [view, handed, ranNumbers]
  have hqueued : ∀ n, n ∈ (view c k).issued ↔ ∃ name, .queued n name ∈ c.log := by
    intro n
    simp only [view, List.mem_filterMap]
    constructor
    · rintro ⟨e, he, hn⟩
      cases e with
      | queued m name =>
        obtain rfl : m = n := Option.some.inj hn
        exact ⟨name, he⟩
      | _ => cases hn
    · rintro ⟨name, he⟩
      exact ⟨_, he, rfl⟩
  refine ⟨?_, fun n token reachable hran => ?_, h.inv.landed, fun n hn => ?_, fun name => ?_,
    fun n name hin => ?_, h.books.timed⟩
  · have honce := h.inv.once
    rw [hpairs] at honce
    exact (List.nodup_append.mp honce).2.1
  · have hin : (n, token, reachable) ∈ (view c k).loop ++ (view c k).ran :=
      List.mem_append_right _ (List.mem_filterMap.mpr ⟨_, hran, rfl⟩)
    obtain ⟨l, hl, hmem, hout⟩ := h.inv.outcome _ hin
    obtain ⟨e, he, hl⟩ := List.mem_filterMap.mp hl
    cases e with
    | drained name ns edge token' reachable' =>
      obtain rfl := Option.some.inj hl
      cases hout
      exact ⟨name, ns, edge, he, hmem⟩
    | _ => cases hl
  · have hissued := (h.inv.issued n).mpr (.inl ((h.inv.taken n).mp hn))
    exact (hqueued n).mp hissued
  · have hflights : (view c k).flights name =
        (c.waiting name).map .wait ++ (c.exchanging name).map .exchange := rfl
    have hlength : (c.waiting name).length + (c.exchanging name).length =
        ((view c k).flights name).length := by
      simp [hflights]
    have hqueue : (view c k).queue name = [] ↔ c.queue name = [] := by simp [view]
    rw [hlength]
    rcases h.inv.flights name with ⟨hnone, hf⟩ | ⟨hsome, f, hf⟩
    · rw [if_pos (hqueue.mp hnone), hf]
      rfl
    · rw [if_neg fun hnone => hsome (hqueue.mpr hnone), hf]
      rfl
  · rcases (h.inv.issued n).mp ((hqueued n).mpr ⟨name, hin⟩) with htaken | ⟨name', hwait⟩
    · rw [hpairs, List.mem_append] at htaken
      exact htaken.elim (fun hn => .inr (.inl hn)) .inl
    · obtain ⟨j, hj, hn⟩ := List.mem_map.mp hwait
      exact .inr (.inr ⟨name', j, hj, hn⟩)

/-! ## Rounds -/

/-- What a step queues and takes out. -/
structure Round (c c' : Client) : Prop where
  /-- A call waits for a round that has not been drained, a new one if nothing is queued. -/
  queued : ∀ n name, .queued n name ∈ c'.log → .queued n name ∉ c.log →
    n ∉ drainedNumbers c'.log ∧ (∃ j ∈ c'.queue name, j.number = n) ∧
      (c.queue name = [] → ∃ m, c.nextNumber ≤ m ∧ c'.waiting name = [m])
  /-- A drain takes out the whole queue. -/
  drained : ∀ name ns edge token reachable, .drained name ns edge token reachable ∈ c'.log →
    .drained name ns edge token reachable ∉ c.log →
    ns = (c.queue name).map Continuation.number ∧ c'.queue name = []

/-- What an event says of the step that logs it. -/
def News (c c' : Client) : Event → Prop
  | .queued n name => (∃ j ∈ c'.queue name, j.number = n) ∧
      (c.queue name = [] → c'.waiting name = c.waiting name ++ [c.nextNumber + 1])
  | .drained name ns _ _ _ => ns = (c.queue name).map Continuation.number ∧ c'.queue name = []
  | _ => True

section rounds
variable {c c' : Client} {k l l' : List Instr}

theorem Event.Plain.news {e : Event} (h : e.Plain) (c c' : Client) : News c c' e := by
  cases e with
  | queued => cases h.queued
  | drained => cases h.landing
  | _ => trivial

theorem queue_enqueue_self (c : Client) (name : QString) (j : Continuation) :
    (c.enqueue name j).queue name = c.queue name ++ [j] := by
  simp [Client.enqueue, Client.emit, Client.queue]

/-- A drain logs what it takes out. -/
theorem news_drain (c c₁ : Client) {x : QString} (hqueue : c₁.queue x ≠ [])
    (hsame : c₁.queue x = c.queue x) (hlog : c₁.log = c.log) (edge : Edge) (token : QString)
    (reachable : Bool) : ∃ es,
      (c₁.drainPendingHandshakes x edge token reachable).1.log = c.log ++ es ∧
        ∀ e ∈ es, News c (c₁.drainPendingHandshakes x edge token reachable).1 e := by
  simp only [Client.drainPendingHandshakes, lookup_of_queue hqueue]
  refine ⟨[.drained x ((c₁.queue x).map Continuation.number) edge token reachable],
    by rw [← hlog]; rfl, ?_⟩
  intro e he
  rw [List.mem_singleton] at he
  subst he
  exact ⟨by rw [hsame], by simp [Client.emit, Client.queue]⟩

theorem Change.news (h : Change c l c' l') (hinv : Inv (view c (l ++ k))) :
    ∃ es, c'.log = c.log ++ es ∧ ∀ e ∈ es, News c c' e := by
  cases h with
  | quiet hquiet hl hl' hdone =>
    obtain ⟨es, hlog, hes⟩ := hquiet.log
    exact ⟨es, hlog, fun e he => (hes e he).news c c'⟩
  | wait name call hqueue hl =>
    refine ⟨[.queued c.nextNumber name], rfl, fun e he => ?_⟩
    obtain rfl := List.mem_singleton.mp he
    exact ⟨⟨_, by rw [queue_enqueue_self]; exact List.mem_append_right _ List.mem_cons_self, rfl⟩,
      fun hnone => absurd hnone hqueue⟩
  | start name call timeout hqueue hl =>
    refine ⟨[.queued c.nextNumber name], rfl, fun e he => ?_⟩
    obtain rfl := List.mem_singleton.mp he
    have hin := queue_enqueue_self c name ⟨c.nextNumber, call⟩
    refine ⟨⟨⟨c.nextNumber, call⟩, ?_, rfl⟩, fun _ => ?_⟩
    · exact hin ▸ List.mem_append_right _ List.mem_cons_self
    · rw [waiting_begin, if_pos rfl]
      rfl
  | arm n id due => exact ⟨[], (List.append_nil _).symm, by simp⟩
  | expire n hdone => exact ⟨[], (List.append_nil _).symm, by simp⟩
  | grant w hw hdone timer => exact ⟨[.exchanged w.objectName], rfl, by simp [News]⟩
  | refuse w hw hdone timer edge hl =>
    exact news_drain c (c.close w timer) (flight_wait hinv hw hdone).2.2 rfl rfl edge [] false
  | mint e he token store =>
    exact news_drain c (c.settle e store) (flight_exchange hinv he).2.2 rfl rfl .minted token true
  | run k' token reachable hquiet hl' =>
    obtain ⟨es, hlog, hes⟩ := hquiet.log
    refine ⟨.ran k'.number token reachable :: es, by rw [hlog]; simp [Client.emit], fun e he => ?_⟩
    rcases List.mem_cons.mp he with rfl | he
    · trivial
    · exact (hes e he).news c c'

/-- What is queued was not taken out. -/
theorem Handshakes.not_drained (h : Handshakes c k) {name : QString} {j : Continuation}
    (hj : j ∈ c.queue name) : j.number ∉ drainedNumbers c.log := by
  intro hn
  have hwait : j.number ∈ (view c k).queue name := List.mem_map_of_mem hj
  exact h.inv.waits name _ hwait ((h.inv.taken _).mp hn)

/-- One step is one round. -/
theorem Handshakes.round {c₁ : Client} (h : Handshakes c (l ++ k)) (hquiet : Quiet c c₁)
    (hchange : Change c₁ l c' l') : Round c c' := by
  have hnext := (h.change hquiet hchange).2
  have hinv : Inv (view c₁ (l ++ k)) := hquiet.view_eq (l ++ k) ▸ h.inv
  obtain ⟨es, hlog, hes⟩ := hchange.news hinv
  obtain ⟨es₁, hlog₁, hes₁⟩ := hquiet.log
  have hqueue : ∀ x, c₁.queue x = c.queue x := fun x => by
    rw [Client.queue, hquiet.handshakes, Client.queue]
  have hnews : ∀ e ∈ c'.log, e ∉ c.log → News c₁ c' e := by
    intro e he hnot
    rw [hlog, hlog₁, List.append_assoc, List.mem_append, List.mem_append] at he
    rcases he with he | he | he
    · exact absurd he hnot
    · exact (hes₁ e he).news c₁ c'
    · exact hes e he
  refine ⟨fun n name hin hnot => ?_, fun name ns edge token reachable hin hnot => ?_⟩
  · obtain ⟨⟨j, hj, hn⟩, hwait⟩ := hnews _ hin hnot
    refine ⟨hn ▸ hnext.not_drained hj, ⟨j, hj, hn⟩, fun hnone => ?_⟩
    have hwaiting : c₁.waiting name = [] := by
      rcases hinv.flights name with ⟨-, hflights⟩ | ⟨hsome, -⟩
      · simpa [view] using (List.append_eq_nil_iff.mp hflights).1
      · simp [view, hqueue, hnone] at hsome
    refine ⟨c₁.nextNumber + 1, hquiet.next.trans (Nat.le_succ _), ?_⟩
    rw [hwait (by rw [hqueue, hnone]), hwaiting, List.nil_append]
  · obtain ⟨hns, hnone⟩ := hnews _ hin hnot
    exact ⟨by rw [hns, hqueue], hnone⟩

end rounds

/-! ## Progress -/

/-- What ends a wait or an exchange can happen, and takes the queue out; what is taken out is
run before the client is at rest. -/
structure Progress (s : Setup) (store : TokenManager) (c : Program.Config Client Instr) : Prop where
  deadline : ∀ w ∈ c.data.readiness, w.done = false → ∀ due o, w.timer = some due →
    due ≤ c.data.clock + o.elapsed → (program s store).Accepts c.stack →
    ∃ c', (program s store).next c (.call (.deadline w.number) o) = some c' ∧
      ∀ j ∈ c.data.queue w.objectName, j.number ∈ handed c'.stack
  reply : ∀ e ∈ c.data.exchanges, ∀ token o, (program s store).Accepts c.stack →
    ∃ c', (program s store).next c (.call (.reply e.number token) o) = some c' ∧
      ∀ j ∈ c.data.queue e.objectName, j.number ∈ handed c'.stack
  run : ∀ as c', (program s store).system.Run c as c' → c'.stack = [] →
    ∀ n ∈ handed c.stack, n ∈ ranNumbers c'.data.log
  /-- With no wait and no exchange up, everything that was queued was run. -/
  settled : c.stack = [] → (∀ w ∈ c.data.readiness, w.done = true) → c.data.exchanges = [] →
    ∀ n name, .queued n name ∈ c.data.log → n ∈ ranNumbers c.data.log

section progress
variable {s : Setup} {store : TokenManager} {c c' : Program.Config Client Instr}

/-- The numbers of the jobs that were taken out. -/
theorem taken_numbers (c : Client) (k : List Instr) :
    ((view c k).loop ++ (view c k).ran).map Prod.fst = handed k ++ ranNumbers c.log := by
  simp [view, handed, ranNumbers]

/-- What is in the hands of a loop stays there until it is run. -/
theorem handed_run {as : List (Program.Action Op Oracle)} (h : Handshakes c.data c.stack)
    (hrun : (program s store).system.Run c as c') {n : ℕ} (hn : n ∈ handed c.stack) :
    n ∈ handed c'.stack ++ ranNumbers c'.data.log := by
  have hkept := hrun.invariant (I := fun c' => Handshakes c'.data c'.stack ∧
    n ∈ handed c'.stack ++ ranNumbers c'.data.log) ?_ ⟨h, List.mem_append_left _ hn⟩
  · exact hkept.2
  · rintro c₁ a c₂ ⟨hc, hn⟩ hstep
    obtain ⟨hflight, hnext⟩ := hc.next hstep
    rw [← taken_numbers] at hn ⊢
    obtain ⟨p, hp, hfst⟩ := List.mem_map.mp hn
    exact ⟨hnext, List.mem_map.mpr ⟨p, hflight.kept hp, hfst⟩⟩

/-- A drain hands out the queue. -/
theorem drain_handed {c : Client} (x : QString) (edge : Edge) (token : QString) (reachable : Bool)
    (k : List Instr) {j : Continuation} (hj : j ∈ c.queue x) :
    j.number ∈ handed ((c.drainPendingHandshakes x edge token reachable).2 ++ k) := by
  simp only [Client.drainPendingHandshakes, lookup_of_queue (List.ne_nil_of_mem hj)]
  refine List.mem_map.mpr ⟨(j.number, token, reachable), List.mem_filterMap.mpr ?_, rfl⟩
  exact ⟨.run j token reachable, List.mem_append_left _ (List.mem_map_of_mem hj), rfl⟩

/-- A number finds its wait. -/
theorem Books.waitOf_eq {c : Client} {k : List Instr} (h : Books c k) {w : Readiness}
    (hw : w ∈ c.readiness) : c.waitOf w.number = some w := by
  cases hfind : c.waitOf w.number with
  | none =>
    have hnone := List.find?_eq_none.mp hfind w hw
    simp at hnone
  | some w' =>
    obtain ⟨hw', hn⟩ := waitOf_eq_some hfind
    rw [h.wait_eq hw hw' hn]

/-- An exchange is found by its number. -/
theorem Books.exchange_eq {c : Client} {k : List Instr} (h : Books c k) {e : Exchange}
    (he : e ∈ c.exchanges) : c.exchanges.find? (fun e' => e'.number = e.number) = some e := by
  cases hfind : c.exchanges.find? fun e' => e'.number = e.number with
  | none =>
    have hnone := List.find?_eq_none.mp hfind e he
    simp at hnone
  | some e' =>
    have hmem := List.mem_of_find?_eq_some hfind
    have hn : e'.number = e.number := by simpa using List.find?_some hfind
    rw [List.inj_on_of_nodup_map h.exchanges hmem he hn]

/-- A deadline that expires closes its wait and takes the queue out. -/
theorem Handshakes.deadline_next (h : Handshakes c.data c.stack) {w : Readiness}
    (hw : w ∈ c.data.readiness) (hopen : w.done = false) {due : ℕ} {o : Oracle}
    (htimer : w.timer = some due) (hdue : due ≤ c.data.clock + o.elapsed)
    (haccepts : (program s store).Accepts c.stack) :
    (program s store).next c (.call (.deadline w.number) o) =
      some ⟨(((c.data.pass o).close w fun _ => none).drainPendingHandshakes w.objectName .deadline
        [] false).1, (((c.data.pass o).close w fun _ => none).drainPendingHandshakes w.objectName
          .deadline [] false).2 ++ c.stack⟩ := by
  have hbooks : Books (c.data.pass o) c.stack := (Quiet.pass c.data o).books h.books
  have hfind : (c.data.pass o).waitOf w.number = some w := hbooks.waitOf_eq hw
  have hready : w.timer.any (fun due => due ≤ (c.data.pass o).clock) = true := by
    rw [htimer]
    exact decide_eq_true hdue
  have hover : ((c.data.pass o).setWait w.number fun w => { w with timer := none }).setWait w.number
      (fun w => { w with done := true }) =
        (c.data.pass o).setWait w.number fun w => { w with timer := none, done := true } :=
    setWait_setWait _ _ (f := fun w => { w with timer := none }) (fun _ => rfl) _
  have hclosed := hbooks.finished hw hopen (f := fun w => { w with timer := none, done := true })
    (fun _ => rfl) fun _ => rfl
  refine Program.next_of_call haccepts ?_
  rw [← hclosed, ← hover]
  simp only [program, call, Client.deadline, hfind, Option.bind_some, hready, hopen, if_true,
    Bool.false_eq_true, if_false]

theorem Handshakes.deadline (h : Handshakes c.data c.stack) {w : Readiness}
    (hw : w ∈ c.data.readiness) (hopen : w.done = false) {due : ℕ} {o : Oracle}
    (htimer : w.timer = some due) (hdue : due ≤ c.data.clock + o.elapsed)
    (haccepts : (program s store).Accepts c.stack) :
    ∃ c', (program s store).next c (.call (.deadline w.number) o) = some c' ∧
      ∀ j ∈ c.data.queue w.objectName, j.number ∈ handed c'.stack := by
  refine ⟨_, h.deadline_next hw hopen htimer hdue haccepts, fun j hj => ?_⟩
  exact drain_handed w.objectName .deadline [] false c.stack hj

theorem Handshakes.reply (h : Handshakes c.data c.stack) {e : Exchange}
    (he : e ∈ c.data.exchanges) (token : QString) (o : Oracle)
    (haccepts : (program s store).Accepts c.stack) :
    ∃ c', (program s store).next c (.call (.reply e.number token) o) = some c' ∧
      ∀ j ∈ c.data.queue e.objectName, j.number ∈ handed c'.stack := by
  have hbooks : Books (c.data.pass o) c.stack := (Quiet.pass c.data o).books h.books
  have hcall : (program s store).call c.data (.reply e.number token) o =
      some (((c.data.pass o).settle e (if token = [] then (c.data.pass o).store
        else (c.data.pass o).store.saveToken e.objectName token)).drainPendingHandshakes
          e.objectName .minted token true) := by
    simp only [program, call, Client.reply, hbooks.exchange_eq he, Option.map_some]
    rfl
  refine ⟨_, Program.next_of_call haccepts hcall, fun j hj => ?_⟩
  exact drain_handed e.objectName .minted token true c.stack hj

theorem Handshakes.progress (h : Handshakes c.data c.stack) : Progress s store c where
  deadline w hw hopen due o htimer hdue haccepts := h.deadline hw hopen htimer hdue haccepts
  reply e he token o haccepts := h.reply he token o haccepts
  run as c' hrun hstack n hn := by
    have hkept := handed_run h hrun hn
    rwa [hstack] at hkept
  settled hstack hover hnone n name hin := by
    have honce := h.runsOnce
    rcases honce.kept n name hin with hran | hhand | ⟨x, j, hj, -⟩
    · exact hran
    · rw [hstack] at hhand
      cases hhand
    · have hflight := honce.oneFlight x
      have hwaiting : c.data.waiting x = [] := by
        refine List.eq_nil_iff_forall_not_mem.mpr fun m hm => ?_
        obtain ⟨w, hw, hopen, -⟩ := mem_waiting.mp hm
        rw [hover w hw] at hopen
        cases hopen
      rw [hwaiting, Client.exchanging, hnone, if_neg (List.ne_nil_of_mem hj)] at hflight
      cases hflight

/-- **Continuations are run once**, and one wait or one exchange is up for what is queued. -/
theorem continuations_run_once (h : (program s store).system.Reachable c) :
    RunsOnce c.data c.stack ∧ Progress s store c ∧
      ∀ a c', (program s store).next c a = some c' → Round c.data c'.data := by
  have hc := handshakes_of_reachable h
  refine ⟨hc.runsOnce, hc.progress, fun a c' hstep => ?_⟩
  cases a with
  | call op o =>
    obtain ⟨r, hr, rfl⟩ := Program.next_call hstep
    obtain ⟨c₁, hquiet, hchange⟩ := call_change hc.books hr
    exact Handshakes.round (l := []) hc hquiet hchange
  | step o =>
    obtain ⟨i, k, r, hstack, hr, rfl⟩ := Program.next_step hstep
    rw [hstack] at hc
    obtain ⟨c₁, hquiet, hchange⟩ := exec_change hc.books hr
    exact Handshakes.round (l := [i]) hc hquiet hchange

/-- A client of the wallet. -/
def app : Setup := ⟨qstr "app", qstr "wallet"⟩

def getBalance : Request := { objectName := qstr "wallet", methodName := qstr "getBalance" }

/-- Two calls wait for the token of the wallet, which is there. -/
def exchangingWallet : Program.Config Client Instr :=
  (TransitionSystem.exec (program app .empty).next ⟨{}, []⟩
    [.call (.invokeRemoteMethodAsync getBalance (some 7)) {},
      .call (.invokeRemoteMethodAsync getBalance (some 8)) {}, .step { id := 1 },
      .call (.ready 2 true) {}, .step {}]).get rfl

theorem exchangingWallet_reachable : (program app .empty).system.Reachable exchangingWallet := by
  have hinit : (program app .empty).system.Reachable ⟨{}, []⟩ := .init rfl
  have hexec : TransitionSystem.exec (program app .empty).next ⟨{}, []⟩
    [.call (.invokeRemoteMethodAsync getBalance (some 7)) {},
      .call (.invokeRemoteMethodAsync getBalance (some 8)) {}, .step { id := 1 },
      .call (.ready 2 true) {}, .step {}] = some exchangingWallet := rfl
  exact hinit.of_exec hexec

/-- The answer hands both calls to the loop, with one exchange for the two. -/
theorem continuations_run_once_wallet :
    (exchangingWallet.data.queue (qstr "wallet")).map Continuation.number = [1, 4] ∧
    (exchangingWallet.data.waiting (qstr "wallet")).length +
      (exchangingWallet.data.exchanging (qstr "wallet")).length = 1 ∧
    ∃ c', (program app .empty).next exchangingWallet (.call (.reply 5 (qstr "t")) {}) = some c' ∧
      ∀ n ∈ [1, 4], n ∈ handed c'.stack := by
  obtain ⟨honce, hprogress, -⟩ := continuations_run_once exchangingWallet_reachable
  have hqueue : (exchangingWallet.data.queue (qstr "wallet")).map Continuation.number = [1, 4] := rfl
  refine ⟨hqueue, honce.oneFlight (qstr "wallet"), ?_⟩
  obtain ⟨c', hc', hhanded⟩ := hprogress.reply ⟨5, qstr "wallet", [], 20000⟩ List.mem_cons_self
    (qstr "t") {} (by decide)
  refine ⟨c', hc', fun n hn => ?_⟩
  rw [← hqueue] at hn
  obtain ⟨j, hj, rfl⟩ := List.mem_map.mp hn
  exact hhanded j hj

end progress

end LogosProtocol.ApiClient
