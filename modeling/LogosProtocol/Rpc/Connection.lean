import LogosProtocol.Rpc.FanOut
import LogosProtocol.Rpc.PendingCalls
import LogosProtocol.Wire.Framing
import LogosProtocol.Wire.HandleFrame

/-!
# The read side of a connection

A read completion looks once whether the connection has stopped, appends what was read, and
then handles every whole frame that is buffered.  A frame that does not decode fails the
connection and the loop goes on.

`fail()` on the connection's own strand is one step, since no frame of the connection is
handled meanwhile; `stop()` on another thread is two, with frames possibly between them.

## Main definitions

* `Connection`, `State` — what reading and dispatching touch.
* `dispatchIncoming`, `fail`, `next` — each step.
* `State.Stops` — nothing is dispatched once `fail()` has run.
-/

namespace LogosProtocol.Connections

open PendingCalls (Kind)
open Subscriptions (EventKey Peer Sinks hasSink)

/-- Where the read side is. -/
inductive ReadPhase
  /-- A read is in flight. -/
  | waiting
  /-- In the loop over the frames of a completed read. -/
  | draining
  /-- No further read was started. -/
  | ended
  deriving DecidableEq, Repr

/-- What can be seen of one connection. -/
inductive Event
  /-- A message reached the handler, a pending call or a subscriber. -/
  | reached (m : AnyMessage)
  /-- `fail()` ran because of a read or of one of its frames. -/
  | failed
  /-- `onConnectionClosed` was reported. -/
  | connectionClosed

structure Connection where
  /-- The subscription registry, and `m_stopped`. -/
  peer : Peer := {}
  /-- The ids that have a handler in `m_pendingCalls` and `m_pendingMethods`. -/
  pending : Kind → List UInt64 := fun _ => []
  reader : FrameReader := {}
  phase : ReadPhase := .waiting
  /-- A `stop()` has swept the registries and not yet told the handler. -/
  stopping : Bool := false
  log : List Event := []

namespace Connection

/-- What `fail()` does to the registries. -/
def sweep (k : Connection) : Connection := { k with peer := k.peer.fail, pending := fun _ => [] }

/-- Someone gets the message. -/
def receives (hasHandler : Bool) (k : Connection) : AnyMessage → Bool
  | .result m => m.id ∈ k.pending .call
  | .methodsResult m => m.id ∈ k.pending .methods
  | .event m => k.peer.dispatchEvent m ≠ []
  | .call _ | .methods _ | .subscribe _ | .unsubscribe _ | .token _ => hasHandler

/-- The pending entry that a message takes out. -/
def take (k : Connection) : AnyMessage → Connection
  | .result m =>
    { k with pending := Function.update k.pending .call ((k.pending .call).erase m.id) }
  | .methodsResult m =>
    { k with pending := Function.update k.pending .methods ((k.pending .methods).erase m.id) }
  | _ => k

/-- The message of the next whole frame in the buffer, if it decodes. -/
def nextMessage (codec : WireCodec) (k : Connection) : Option AnyMessage :=
  match k.reader.next with
  | (.ok (some f), _) =>
    match codec.handleFrame f.tag f.payload with
    | .dispatch m => some m
    | .fail _ => none
  | _ => none

end Connection

@[simp] theorem Connection.take_peer (k : Connection) (m : AnyMessage) :
    (k.take m).peer = k.peer := by
  cases m <;> rfl

@[simp] theorem Connection.take_stopping (k : Connection) (m : AnyMessage) :
    (k.take m).stopping = k.stopping := by
  cases m <;> rfl

variable {Conn : Type} [DecidableEq Conn]

/-- The connections of one host and its sinks. -/
structure State (Conn : Type) where
  conn : Conn → Connection := fun _ => {}
  sinks : Sinks Conn := ∅

namespace State

def set (s : State Conn) (c : Conn) (k : Connection) : State Conn :=
  { s with conn := Function.update s.conn c k }

/-- What the host does to its sinks. -/
def hostSinks (sinks : Sinks Conn) (c : Conn) : AnyMessage → Sinks Conn
  | .subscribe req => Subscriptions.onSubscribe sinks req c
  | .unsubscribe req => Subscriptions.onUnsubscribe sinks req c
  | _ => sinks

def dispatchIncoming (hasHandler : Bool) (s : State Conn) (c : Conn) (m : AnyMessage) :
    State Conn :=
  let k := s.conn c
  if k.receives hasHandler m then
    { conn := Function.update s.conn c { k.take m with log := k.log ++ [.reached m] }
      sinks := if hasHandler then hostSinks s.sinks c m else s.sinks }
  else s

/-- `onConnectionClosed`, if there is a handler to tell. -/
def notify (hasHandler : Bool) (s : State Conn) (c : Conn) : State Conn :=
  if hasHandler then
    { conn := Function.update s.conn c
        { s.conn c with log := (s.conn c).log ++ [.connectionClosed] }
      sinks := Subscriptions.onConnectionClosed s.sinks c }
  else s

/-- `fail()` on the strand: of two, the first wins. -/
def fail (hasHandler : Bool) (s : State Conn) (c : Conn) : State Conn :=
  let k := { s.conn c with log := (s.conn c).log ++ [.failed] }
  if k.peer.stopped then s.set c k else (s.set c k.sweep).notify hasHandler c

/-- Leave the read completion without starting another read. -/
def endReads (s : State Conn) (c : Conn) : State Conn :=
  s.set c { s.conn c with phase := .ended }

end State

inductive Action (Conn : Type)
  /-- A read completes. -/
  | read (c : Conn) (chunk : Bytes)
  | readError (c : Conn)
  /-- One turn of the loop over frames; the receiver may throw. -/
  | frame (c : Conn) (throws : Bool)
  /-- A handler enters or leaves a pending map. -/
  | register (c : Conn) (kind : Kind) (id : UInt64)
  | withdraw (c : Conn) (kind : Kind) (id : UInt64)
  | fetchSubId (c : Conn)
  | sendSubscribe (c : Conn) (sid : ℕ) (msg : SubscribeMessage) (callback : ℕ)
  | sendUnsubscribe (c : Conn) (sid : ℕ)
  /-- `stop()` from elsewhere: the flag and the sweep. -/
  | stop (c : Conn)
  /-- The notice of that `stop()`. -/
  | stopNotify (c : Conn)

/-- The connection an action is about. -/
def Action.conn : Action Conn → Conn
  | .read c _ | .readError c | .frame c _ | .register c _ _ | .withdraw c _ _ | .fetchSubId c
  | .sendSubscribe c _ _ _ | .sendUnsubscribe c _ | .stop c | .stopNotify c => c

variable (codec : WireCodec) (hasHandler : Bool)

/-- `handleFrame`, for a frame just taken off the buffer. -/
def handleFrame (s : State Conn) (c : Conn) (f : Frame) (throws : Bool) : State Conn :=
  match codec.handleFrame f.tag f.payload with
  | .fail _ => s.fail hasHandler c
  | .dispatch m =>
    let reached := (s.conn c).receives hasHandler m
    let s := s.dispatchIncoming hasHandler c m
    -- What the receiver throws ends the loop.
    if throws && reached then (s.fail hasHandler c).endReads c else s

/-- One atomic step. -/
def next (s : State Conn) : Action Conn → Option (State Conn)
  | .read c chunk =>
    let k := s.conn c
    if k.phase = .waiting then
      if k.peer.stopped then some (s.endReads c)
      else some (s.set c { k with reader := k.reader.append chunk, phase := .draining })
    else none
  | .readError c =>
    if (s.conn c).phase = .waiting then some ((s.fail hasHandler c).endReads c) else none
  | .frame c throws =>
    let k := s.conn c
    if k.phase = .draining then
      match k.reader.next with
      | (.error _, _) => some ((s.fail hasHandler c).endReads c)
      | (.ok none, _) => some (s.set c { k with phase := .waiting })
      | (.ok (some f), reader) =>
        some (handleFrame codec hasHandler (s.set c { k with reader := reader }) c f throws)
    else none
  | .register c kind id =>
    let k := s.conn c
    some (s.set c { k with pending := Function.update k.pending kind (id :: k.pending kind) })
  | .withdraw c kind id =>
    let k := s.conn c
    some (s.set c { k with pending := Function.update k.pending kind ((k.pending kind).erase id) })
  | .fetchSubId c => some (s.set c { s.conn c with peer := (s.conn c).peer.fetchSubId })
  | .sendSubscribe c sid msg callback =>
    if sid ∈ (s.conn c).peer.fetched then
      some (s.set c { s.conn c with peer := ((s.conn c).peer.sendSubscribe sid msg callback).1 })
    else none
  | .sendUnsubscribe c sid =>
    some (s.set c { s.conn c with peer := ((s.conn c).peer.sendUnsubscribe sid).1 })
  | .stop c =>
    if (s.conn c).peer.stopped then some s
    else some (s.set c { (s.conn c).sweep with stopping := true })
  | .stopNotify c =>
    if (s.conn c).stopping then
      some ((s.set c { s.conn c with stopping := false }).notify hasHandler c)
    else none

/-- The connections, all fresh. -/
def connections (Conn : Type) [DecidableEq Conn] :
    TransitionSystem (State Conn) (Action Conn) :=
  TransitionSystem.ofNext {} (next codec hasHandler)

/-! ## Silence after `fail()` -/

/-- Nothing is reached once `fail()` has run. -/
def Quiet (log : List Event) : Prop :=
  ∀ before after, log = before ++ .failed :: after → ∀ m, .reached m ∉ after

/-- A connection that has failed dispatches nothing more, and one that was reported closed has
no sink. -/
def State.Stops (s : State Conn) : Prop :=
  ∀ c, Quiet (s.conn c).log ∧
    (.connectionClosed ∈ (s.conn c).log → ∀ key, hasSink s.sinks key c = false)

/-- The frame about to be handled decodes to a message with a receiver, although an earlier
one made the connection fail, or it subscribes although the connection was reported closed. -/
def Overrun (s : State Conn) : Action Conn → Prop
  | .frame c _ =>
    (s.conn c).phase = .draining ∧ ∃ m, (s.conn c).nextMessage codec = some m ∧
      (s.conn c).receives hasHandler m ∧
      (.failed ∈ (s.conn c).log ∨
        .connectionClosed ∈ (s.conn c).log ∧ ∃ req, m = .subscribe req)
  | _ => False

/-! ## Logs -/

/-- An event at the end of a quiet log. -/
theorem Quiet.concat {log : List Event} (h : Quiet log) {e : Event}
    (he : ∀ m, e = .reached m → .failed ∉ log) : Quiet (log ++ [e]) := by
  intro before after hlog m hm
  rcases List.eq_nil_or_concat after with rfl | ⟨rest, last, rfl⟩
  · cases hm
  · rw [List.concat_eq_append, ← List.cons_append, ← List.append_assoc] at hlog
    obtain ⟨hinit, hlast⟩ := List.append_inj' hlog rfl
    rw [List.concat_eq_append, List.mem_append] at hm
    rcases hm with hm | hm
    · exact h before rest hinit m hm
    · have heq : e = last := List.singleton_inj.mp hlast
      have hmem : Event.failed ∈ log := by
        rw [hinit]
        simp
      rw [List.mem_singleton] at hm
      exact he m (heq.trans hm.symm) hmem

/-- A message reached after `fail()` is what a quiet log excludes. -/
theorem not_quiet_reached {log : List Event} (h : .failed ∈ log) (m : AnyMessage)
    (tail : List Event) : ¬ Quiet (log ++ .reached m :: tail) := by
  obtain ⟨before, after, rfl⟩ := List.append_of_mem h
  intro hquiet
  have hlog : before ++ .failed :: after ++ .reached m :: tail =
      before ++ .failed :: (after ++ .reached m :: tail) := by
    rw [List.append_assoc, List.cons_append]
  exact hquiet before _ hlog m (by simp)

/-! ## What a step changes -/

/-- Only `c` and its sinks may differ. -/
structure OnlyAt (c : Conn) (s s' : State Conn) : Prop where
  conn : ∀ c', c' ≠ c → s'.conn c' = s.conn c'
  sinks : ∀ c', c' ≠ c → ∀ key, hasSink s'.sinks key c' = hasSink s.sinks key c'

namespace OnlyAt

theorem refl (c : Conn) (s : State Conn) : OnlyAt c s s := ⟨fun _ _ => rfl, fun _ _ _ => rfl⟩

theorem trans {c : Conn} {s t u : State Conn} (h : OnlyAt c s t) (h' : OnlyAt c t u) :
    OnlyAt c s u where
  conn c' hc := (h'.conn c' hc).trans (h.conn c' hc)
  sinks c' hc key := (h'.sinks c' hc key).trans (h.sinks c' hc key)

theorem set (c : Conn) (s : State Conn) (k : Connection) : OnlyAt c s (s.set c k) where
  conn _ hc := Function.update_of_ne hc ..
  sinks _ _ _ := rfl

theorem notify (c : Conn) (s : State Conn) : OnlyAt c s (s.notify hasHandler c) := by
  unfold State.notify
  split_ifs
  · exact ⟨fun _ hc => Function.update_of_ne hc .., fun c' hc key =>
      Subscriptions.hasSink_onConnectionClosed s.sinks c c' key hc⟩
  · exact .refl c s

theorem fail (c : Conn) (s : State Conn) : OnlyAt c s (s.fail hasHandler c) := by
  unfold State.fail
  dsimp only
  split_ifs
  · exact .set c s _
  · exact (OnlyAt.set c s _).trans (.notify hasHandler c _)

theorem endReads (c : Conn) (s : State Conn) : OnlyAt c s (s.endReads c) := .set c s _

theorem dispatchIncoming (c : Conn) (s : State Conn) (m : AnyMessage) :
    OnlyAt c s (s.dispatchIncoming hasHandler c m) := by
  unfold State.dispatchIncoming
  dsimp only
  split_ifs
  · refine ⟨fun _ hc => Function.update_of_ne hc .., fun c' hc key => ?_⟩
    cases m with
    | subscribe req =>
      simp only [State.hostSinks, Subscriptions.onSubscribe, Subscriptions.hasSink_assignSink]
      rw [if_neg fun h => hc h.2]
    | unsubscribe req =>
      simp only [State.hostSinks, Subscriptions.onUnsubscribe, Subscriptions.hasSink_dropSink]
      rw [if_neg fun h => hc h.2]
    | _ => rfl
  · exact ⟨fun _ hc => Function.update_of_ne hc .., fun _ _ _ => rfl⟩
  · exact .refl c s

theorem handleFrame (c : Conn) (s : State Conn) (f : Frame) (throws : Bool) :
    OnlyAt c s (handleFrame codec hasHandler s c f throws) := by
  unfold Connections.handleFrame
  split
  · exact .fail hasHandler c s
  · dsimp only
    have hdispatch := dispatchIncoming hasHandler c s
    split
    · exact ((hdispatch _).trans (.fail hasHandler c _)).trans (.endReads c _)
    · exact hdispatch _

end OnlyAt

/-- A step concerns one connection. -/
theorem onlyAt_next {s s' : State Conn} {a : Action Conn}
    (h : next codec hasHandler s a = some s') : OnlyAt a.conn s s' := by
  cases a with
  | read c chunk =>
    simp only [next] at h
    split_ifs at h with hphase hstopped
    · cases h
      exact .endReads c s
    · cases h
      exact .set c s _
  | readError c =>
    simp only [next, Option.ite_none_right_eq_some, Option.some.injEq] at h
    rw [← h.2]
    exact (OnlyAt.fail hasHandler c s).trans (.endReads c _)
  | frame c throws =>
    simp only [next] at h
    split_ifs at h with hphase
    split at h
    · cases h
      exact (OnlyAt.fail hasHandler c s).trans (.endReads c _)
    · cases h
      exact .set c s _
    · cases h
      exact (OnlyAt.set c s _).trans (.handleFrame codec hasHandler c _ _ throws)
  | register c kind id =>
    cases h
    exact .set c s _
  | withdraw c kind id =>
    cases h
    exact .set c s _
  | fetchSubId c =>
    cases h
    exact .set c s _
  | sendSubscribe c sid msg callback =>
    simp only [next, Option.ite_none_right_eq_some, Option.some.injEq] at h
    rw [← h.2]
    exact .set c s _
  | sendUnsubscribe c sid =>
    cases h
    exact .set c s _
  | stop c =>
    simp only [next] at h
    split_ifs at h with hstopped
    · cases h
      exact .refl c s
    · cases h
      exact .set c s _
  | stopNotify c =>
    simp only [next, Option.ite_none_right_eq_some, Option.some.injEq] at h
    rw [← h.2]
    exact (OnlyAt.set c s _).trans (.notify hasHandler c _)

/-! ## The invariant -/

/-- Of one connection: it is quiet, and once reported closed it is stopped and has no sink. -/
structure Inv (s : State Conn) (c : Conn) : Prop where
  quiet : Quiet (s.conn c).log
  stopping : (s.conn c).stopping → (s.conn c).peer.stopped
  stopped : .connectionClosed ∈ (s.conn c).log → (s.conn c).peer.stopped
  swept : .connectionClosed ∈ (s.conn c).log → ∀ key, hasSink s.sinks key c = false

namespace Inv

variable {s s' : State Conn} {c : Conn}

theorem of_onlyAt {c₀ : Conn} (h : Inv s c) (hs : OnlyAt c₀ s s') (hc : c ≠ c₀) : Inv s' c where
  quiet := by
    rw [hs.conn c hc]
    exact h.quiet
  stopping := by
    rw [hs.conn c hc]
    exact h.stopping
  stopped := by
    rw [hs.conn c hc]
    exact h.stopped
  swept := by
    rw [hs.conn c hc]
    intro hclosed key
    rw [hs.sinks c hc key]
    exact h.swept hclosed key

/-- What is not logged and leaves a stopped connection stopped keeps the invariant. -/
theorem set (h : Inv s c) {k : Connection} (hlog : k.log = (s.conn c).log)
    (hstopped : (s.conn c).peer.stopped → k.peer.stopped)
    (hstopping : k.stopping → (s.conn c).stopping ∨ k.peer.stopped) : Inv (s.set c k) c where
  quiet := by
    simp only [State.set, Function.update_self, hlog]
    exact h.quiet
  stopping := by
    simp only [State.set, Function.update_self]
    exact fun hk => (hstopping hk).elim (fun hs => hstopped (h.stopping hs)) id
  stopped := by
    simp only [State.set, Function.update_self, hlog]
    exact fun hclosed => hstopped (h.stopped hclosed)
  swept := by
    simp only [State.set, Function.update_self, hlog]
    exact h.swept

theorem endReads (h : Inv s c) : Inv (s.endReads c) c := h.set rfl id .inl

theorem logFailed (h : Inv s c) {k : Connection} (hlog : k.log = (s.conn c).log ++ [.failed])
    (hstopped : k.peer.stopped) : Inv (s.set c k) c where
  quiet := by
    simp only [State.set, Function.update_self, hlog]
    exact h.quiet.concat nofun
  stopping := by
    simp only [State.set, Function.update_self]
    exact fun _ => hstopped
  stopped := by
    simp only [State.set, Function.update_self]
    exact fun _ => hstopped
  swept := by
    simp only [State.set, Function.update_self, hlog, List.mem_append, List.mem_singleton,
      reduceCtorEq, or_false]
    exact h.swept

theorem notify (h : Inv s c) (hstopped : (s.conn c).peer.stopped) :
    Inv (s.notify hasHandler c) c := by
  unfold State.notify
  split_ifs
  · refine ⟨?_, fun _ => ?_, fun _ => ?_, fun _ key => ?_⟩
    · simp only [Function.update_self]
      exact h.quiet.concat nofun
    · simp only [Function.update_self]
      exact hstopped
    · simp only [Function.update_self]
      exact hstopped
    · exact Subscriptions.hasSink_onConnectionClosed_self s.sinks c key
  · exact h

theorem fail (h : Inv s c) : Inv (s.fail hasHandler c) c := by
  unfold State.fail
  dsimp only
  split_ifs with hstopped
  · exact h.logFailed rfl hstopped
  · refine Inv.notify hasHandler (h.logFailed rfl rfl) ?_
    simp only [State.set, Function.update_self]
    rfl

/-- What is reached on a connection that has not failed, if it leaves a closed one no sink. -/
theorem reach (h : Inv s c) (m : AnyMessage) {sinks : Sinks Conn}
    (hfailed : .failed ∉ (s.conn c).log)
    (hswept : .connectionClosed ∈ (s.conn c).log → ∀ key, hasSink sinks key c = false) :
    Inv { conn := Function.update s.conn c
            { (s.conn c).take m with log := (s.conn c).log ++ [.reached m] }
          sinks := sinks } c where
  quiet := by
    simp only [Function.update_self]
    exact h.quiet.concat fun _ _ => hfailed
  stopping := by
    simp only [Function.update_self, Connection.take_peer, Connection.take_stopping]
    exact h.stopping
  stopped := by
    simp only [Function.update_self, Connection.take_peer, List.mem_append, List.mem_singleton,
      reduceCtorEq, or_false]
    exact h.stopped
  swept := by
    simp only [Function.update_self, List.mem_append, List.mem_singleton, reduceCtorEq, or_false]
    exact hswept

/-- A dispatch keeps the invariant where it is not an overrun. -/
theorem dispatchIncoming (h : Inv s c) {m : AnyMessage}
    (hfailed : (s.conn c).receives hasHandler m → .failed ∉ (s.conn c).log)
    (hclosed : (s.conn c).receives hasHandler m → .connectionClosed ∈ (s.conn c).log →
      ∀ req, m ≠ .subscribe req) :
    Inv (s.dispatchIncoming hasHandler c m) c := by
  unfold State.dispatchIncoming
  dsimp only
  split_ifs with hreceives hhandler
  · refine h.reach m (hfailed hreceives) fun hin key => ?_
    cases m with
    | subscribe req => exact absurd rfl (hclosed hreceives hin req)
    | unsubscribe req =>
      simp only [State.hostSinks, Subscriptions.onUnsubscribe, Subscriptions.hasSink_dropSink,
        h.swept hin key]
      split_ifs <;> rfl
    | _ => exact h.swept hin key
  · exact h.reach m (hfailed hreceives) h.swept
  · exact h

/-- Taking a frame off the buffer and handling it, where that is not an overrun. -/
theorem handleFrame (h : Inv s c) (throws : Bool) {f : Frame} {reader : FrameReader}
    (hphase : (s.conn c).phase = .draining)
    (hnext : (s.conn c).reader.next = (.ok (some f), reader))
    (hover : ¬ Overrun codec hasHandler s (.frame c throws)) :
    Inv (handleFrame codec hasHandler (s.set c { s.conn c with reader := reader }) c f throws)
      c := by
  have hset : Inv (s.set c { s.conn c with reader := reader }) c := h.set rfl id .inl
  unfold Connections.handleFrame
  split
  · exact hset.fail hasHandler
  · rename_i m hdispatch
    have hmessage : (s.conn c).nextMessage codec = some m := by
      simp only [Connection.nextMessage, hnext, hdispatch]
    have hreached : Inv ((s.set c { s.conn c with reader := reader }).dispatchIncoming
        hasHandler c m) c := by
      apply hset.dispatchIncoming hasHandler
      · simp only [State.set, Function.update_self]
        intro hreceives hfailed
        exact hover ⟨hphase, m, hmessage, hreceives, .inl hfailed⟩
      · simp only [State.set, Function.update_self]
        intro hreceives hclosed req hm
        exact hover ⟨hphase, m, hmessage, hreceives, .inr ⟨hclosed, req, hm⟩⟩
    dsimp only
    split
    · exact (hreached.fail hasHandler).endReads
    · exact hreached

/-- **Step lemma.** -/
theorem next (h : Inv s c) {a : Action Conn} (hnext : next codec hasHandler s a = some s')
    (hover : ¬ Overrun codec hasHandler s a) : Inv s' c := by
  by_cases hc : c = a.conn
  swap
  · exact h.of_onlyAt (onlyAt_next codec hasHandler hnext) hc
  cases a with
  | read c₀ chunk =>
    obtain rfl : c = c₀ := hc
    simp only [Connections.next] at hnext
    split_ifs at hnext with hphase hstopped
    · cases hnext
      exact h.endReads
    · cases hnext
      exact h.set rfl id .inl
  | readError c₀ =>
    obtain rfl : c = c₀ := hc
    simp only [Connections.next, Option.ite_none_right_eq_some, Option.some.injEq] at hnext
    rw [← hnext.2]
    exact (h.fail hasHandler).endReads
  | frame c₀ throws =>
    obtain rfl : c = c₀ := hc
    simp only [Connections.next] at hnext
    split_ifs at hnext with hphase
    split at hnext
    · cases hnext
      exact (h.fail hasHandler).endReads
    · cases hnext
      exact h.set rfl id .inl
    · rename_i f reader hreader
      cases hnext
      exact h.handleFrame codec hasHandler throws hphase hreader hover
  | register c₀ kind id =>
    obtain rfl : c = c₀ := hc
    cases hnext
    exact h.set rfl (fun hstopped => hstopped) .inl
  | withdraw c₀ kind id =>
    obtain rfl : c = c₀ := hc
    cases hnext
    exact h.set rfl (fun hstopped => hstopped) .inl
  | fetchSubId c₀ =>
    obtain rfl : c = c₀ := hc
    cases hnext
    exact h.set rfl id .inl
  | sendSubscribe c₀ sid msg callback =>
    obtain rfl : c = c₀ := hc
    simp only [Connections.next, Option.ite_none_right_eq_some, Option.some.injEq] at hnext
    rw [← hnext.2]
    exact h.set rfl id .inl
  | sendUnsubscribe c₀ sid =>
    obtain rfl : c = c₀ := hc
    cases hnext
    refine h.set rfl (fun hstopped => ?_) .inl
    rwa [Peer.stopped_sendUnsubscribe]
  | stop c₀ =>
    obtain rfl : c = c₀ := hc
    simp only [Connections.next] at hnext
    split_ifs at hnext with hstopped
    · cases hnext
      exact h
    · cases hnext
      exact h.set rfl (fun _ => rfl) fun _ => .inr rfl
  | stopNotify c₀ =>
    obtain rfl : c = c₀ := hc
    simp only [Connections.next, Option.ite_none_right_eq_some, Option.some.injEq] at hnext
    obtain ⟨hstopping, rfl⟩ := hnext
    have hset : Inv (s.set c { s.conn c with stopping := false }) c := h.set rfl id nofun
    refine hset.notify hasHandler ?_
    simp only [State.set, Function.update_self]
    exact h.stopping hstopping

end Inv

theorem inv_initial (c : Conn) : Inv ({} : State Conn) c where
  quiet := by
    intro before after hlog
    simp at hlog
  stopping := nofun
  stopped := nofun
  swept := nofun

variable {codec hasHandler}

theorem inv_of_reachable {s : State Conn} (h : ((connections codec hasHandler Conn).restrict
    fun s a => ¬ Overrun codec hasHandler s a).Reachable s) (c : Conn) : Inv s c := by
  refine h.invariant (I := fun s => ∀ c, Inv s c) ?_ ?_ c
  · rintro s rfl c
    exact inv_initial c
  · rintro s a s' hs ⟨hnext, hover⟩ c
    exact (hs c).next codec hasHandler hnext hover

/-! ## An overrun is always seen -/

/-- `fail()` only adds to the log. -/
theorem log_fail (hasHandler : Bool) (s : State Conn) (c : Conn) :
    ∃ tail, ((s.fail hasHandler c).conn c).log = (s.conn c).log ++ tail := by
  unfold State.fail State.notify
  dsimp only
  split_ifs
  · exact ⟨[.failed], by simp [State.set]⟩
  · exact ⟨[.failed, .connectionClosed], by simp [State.set, Connection.sweep]⟩
  · exact ⟨[.failed], by simp [State.set, Connection.sweep]⟩

/-- On a stopped connection `fail()` leaves the sinks. -/
theorem sinks_fail {s : State Conn} {c : Conn} (h : (s.conn c).peer.stopped) :
    (s.fail hasHandler c).sinks = s.sinks := by
  unfold State.fail
  dsimp only
  rw [if_pos h]
  rfl

section reached
variable {s : State Conn} {c : Conn} {m : AnyMessage}

theorem log_dispatchIncoming (h : (s.conn c).receives hasHandler m) :
    ((s.dispatchIncoming hasHandler c m).conn c).log = (s.conn c).log ++ [.reached m] := by
  simp [State.dispatchIncoming, h]

theorem sinks_dispatchIncoming (h : (s.conn c).receives hasHandler m) :
    (s.dispatchIncoming hasHandler c m).sinks =
      if hasHandler then State.hostSinks s.sinks c m else s.sinks := by
  simp [State.dispatchIncoming, h]

theorem stopped_dispatchIncoming (h : (s.conn c).receives hasHandler m) :
    ((s.dispatchIncoming hasHandler c m).conn c).peer.stopped = (s.conn c).peer.stopped := by
  simp [State.dispatchIncoming, h]

/-- A frame whose message is received is logged, and on a stopped connection the sinks are
those the dispatch left, whatever the receiver throws. -/
theorem handleFrame_reached {f : Frame} (throws : Bool)
    (hdispatch : codec.handleFrame f.tag f.payload = .dispatch m)
    (hreceives : (s.conn c).receives hasHandler m) :
    (∃ tail, ((handleFrame codec hasHandler s c f throws).conn c).log =
      (s.conn c).log ++ .reached m :: tail) ∧
    ((s.conn c).peer.stopped → (handleFrame codec hasHandler s c f throws).sinks =
      if hasHandler then State.hostSinks s.sinks c m else s.sinks) := by
  have hlog := log_dispatchIncoming hreceives
  have hsinks := sinks_dispatchIncoming hreceives
  simp only [handleFrame, hdispatch]
  split
  · constructor
    · obtain ⟨tail, htail⟩ := log_fail hasHandler (s.dispatchIncoming hasHandler c m) c
      refine ⟨tail, ?_⟩
      simp only [State.endReads, State.set, Function.update_self]
      rw [htail, hlog, List.append_assoc, List.singleton_append]
    · intro hstopped
      rw [← stopped_dispatchIncoming hreceives] at hstopped
      exact (sinks_fail hstopped).trans hsinks
  · exact ⟨⟨[], hlog⟩, fun _ => hsinks⟩

end reached

/-- After an overrun either the log is not quiet or a closed connection has a sink. -/
theorem not_stops_of_overrun {s s' : State Conn} {a : Action Conn} (hs : ∀ c, Inv s c)
    (hnext : next codec hasHandler s a = some s') (hover : Overrun codec hasHandler s a) :
    ¬ s'.Stops := by
  cases a with
  | frame c throws =>
    obtain ⟨hphase, m, hmessage, hreceives, hlate⟩ := hover
    simp only [Connection.nextMessage] at hmessage
    split at hmessage
    swap
    · cases hmessage
    rename_i f reader hreader
    split at hmessage
    swap
    · cases hmessage
    rename_i m' hdispatch
    obtain rfl : m' = m := Option.some.inj hmessage
    let t := s.set c { s.conn c with reader := reader }
    have hconn : t.conn c = { s.conn c with reader := reader } := Function.update_self ..
    have hlog : (t.conn c).log = (s.conn c).log := by rw [hconn]
    have hstopped : (t.conn c).peer.stopped = (s.conn c).peer.stopped := by rw [hconn]
    have hgets : (t.conn c).receives hasHandler m' := by
      rw [hconn]
      cases m' <;> exact hreceives
    obtain rfl : handleFrame codec hasHandler t c f throws = s' := by
      simp only [next] at hnext
      rw [if_pos hphase] at hnext
      simp only [hreader] at hnext
      exact Option.some.inj hnext
    obtain ⟨⟨tail, htail⟩, hsinks⟩ := handleFrame_reached throws hdispatch hgets
    intro hstops
    rw [hlog] at htail
    rcases hlate with hfailed | ⟨hclosed, req, rfl⟩
    · have hquiet := (hstops c).1
      rw [htail] at hquiet
      exact not_quiet_reached hfailed m' tail hquiet
    · have hnone := (hstops c).2 (by rw [htail]; exact List.mem_append_left _ hclosed)
        (req.object, req.eventName)
      have hhandler : hasHandler = true := hgets
      rw [hsinks (by rw [hstopped]; exact (hs c).stopped hclosed), if_pos hhandler,
        State.hostSinks, Subscriptions.onSubscribe, Subscriptions.hasSink_assignSink] at hnone
      simp at hnone
  | _ => exact hover.elim

/-- **When a stopped connection is silent.**  In a run without an overrun nothing is
dispatched once `fail()` has run and a closed connection has no sink; the first overrun of a
run breaks this. -/
theorem stops_of_no_overrun (codec : WireCodec) (hasHandler : Bool) :
    (∀ s, ((connections codec hasHandler Conn).restrict
      fun s a => ¬ Overrun codec hasHandler s a).Reachable s → s.Stops) ∧
    (∀ s a s', ((connections codec hasHandler Conn).restrict
      fun s a => ¬ Overrun codec hasHandler s a).Reachable s →
        next codec hasHandler s a = some s' → Overrun codec hasHandler s a → ¬ s'.Stops) := by
  constructor
  · intro s hs c
    exact ⟨(inv_of_reachable hs c).quiet, (inv_of_reachable hs c).swept⟩
  · intro s a s' hs hnext hover
    exact not_stops_of_overrun (inv_of_reachable hs) hnext hover

/-- The JSON text of a Subscribe. -/
def subscribeText : Bytes := bstr "\x7b\"event\":\"e\",\"object\":\"o\"\x7d"

def subscribeMessage : SubscribeMessage := { object := bstr "o", eventName := bstr "e" }

/-- A JSON library that reads this one text. -/
def subscribeCodec : WireCodec where
  name := "json"
  serialise _ := .error "not written"
  parse payload :=
    if payload = subscribeText then .ok (messageToJson (.subscribe subscribeMessage))
    else .error "not read"

/-- A read with an empty payload, which is no JSON, and no more. -/
def malformedFrame : List (Action ℕ) := [.read 0 (frameBytes ⟨3, []⟩), .frame 0 false]

theorem stops_of_no_overrun_malformedFrame :
    ∃ s, TransitionSystem.exec (next subscribeCodec true) {} malformedFrame = some s ∧
      .failed ∈ (s.conn 0).log ∧ s.Stops := by
  let first := (next subscribeCodec true ({} : State ℕ) (.read 0 (frameBytes ⟨3, []⟩))).getD {}
  let second := (next subscribeCodec true first (.frame 0 false)).getD {}
  have hfirst : ((connections subscribeCodec true ℕ).restrict
      fun s a => ¬ Overrun subscribeCodec true s a).Reachable first :=
    (TransitionSystem.Reachable.init rfl).next (.read 0 (frameBytes ⟨3, []⟩)) id rfl
  have hquiet : ¬ Overrun subscribeCodec true first (.frame 0 false) := by
    -- The buffered frame does not decode.
    rintro ⟨-, m, hm, -⟩
    have hnone : (first.conn 0).nextMessage subscribeCodec = none := rfl
    rw [hnone] at hm
    cases hm
  have hsecond : ((connections subscribeCodec true ℕ).restrict
      fun s a => ¬ Overrun subscribeCodec true s a).Reachable second :=
    hfirst.next (.frame 0 false) hquiet rfl
  have hlog : (second.conn 0).log = [.failed, .connectionClosed] := rfl
  exact ⟨second, rfl, by simp [hlog], (stops_of_no_overrun subscribeCodec true).1 second hsecond⟩

/-- One read: a frame that does not decode and a Subscribe behind it. -/
def malformedThenSubscribe : List (Action ℕ) :=
  [.read 0 (frameBytes ⟨3, []⟩ ++ frameBytes ⟨3, subscribeText⟩), .frame 0 false, .frame 0 false]

/-- The Subscribe reaches the host after the connection was reported closed. -/
theorem subscribe_after_failure :
    ∃ s, TransitionSystem.Run (connections subscribeCodec true ℕ) {} malformedThenSubscribe s ∧
      ¬ Quiet (s.conn 0).log ∧ .connectionClosed ∈ (s.conn 0).log ∧
      hasSink s.sinks (bstr "o", bstr "e") 0 = true := by
  let final := (TransitionSystem.exec (next subscribeCodec true) {} malformedThenSubscribe).getD {}
  have hexec : TransitionSystem.exec (next subscribeCodec true) {} malformedThenSubscribe =
      some final := rfl
  have hlog : (final.conn 0).log =
      [.failed, .connectionClosed, .reached (.subscribe subscribeMessage)] := rfl
  refine ⟨final, TransitionSystem.run_of_exec hexec, ?_, by simp [hlog], rfl⟩
  rw [hlog]
  intro hquiet
  exact hquiet [] _ rfl (.subscribe subscribeMessage) (by simp)

end LogosProtocol.Connections
