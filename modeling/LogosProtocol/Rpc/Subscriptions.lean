import LogosProtocol.Lib.Dict
import LogosProtocol.Lib.TransitionSystem
import LogosProtocol.Wire.RpcMessage

/-!
# Subscriptions of many connections to one host

Each connection's peer keeps the registrations of its handles; the host keeps one sink for
each object, event and connection.  A registration sends a Subscribe every time, a
withdrawal an Unsubscribe only for the last handle, and both write their frame before they
release the lock the registry is under.  Frames of one connection arrive in order.

A subscription id is fetched before the lock is taken, so another send may register between
the two.

## Main definitions

* `Peer.sendSubscribe`, `Peer.sendUnsubscribe` — the two critical sections of a peer.
* `onSubscribe`, `onUnsubscribe`, `onConnectionClosed` — the host's sink table.
* `next`, `network` — the whole, step by step.
-/

namespace LogosProtocol.Subscriptions

/-- An object and an event; the empty event is the wildcard. -/
abbrev EventKey := Bytes × Bytes

/-- One registration: its id and the handle's callback, by name. -/
structure EventSubscription where
  id : ℕ
  callback : ℕ
  deriving DecidableEq, Repr

/-- The two messages that change a subscription. -/
inductive SubscriptionFrame
  | subscribe (m : SubscribeMessage)
  | unsubscribe (m : UnsubscribeMessage)
  deriving DecidableEq, Repr

/-! ## A connection's peer -/

structure Peer where
  nextSubId : ℕ := 1
  /-- Ids fetched by sends that have not taken the lock yet. -/
  fetched : List ℕ := []
  eventSubs : Dict EventKey (List EventSubscription) := ∅
  subKeys : Dict ℕ EventKey := ∅
  stopped : Bool := false

namespace Peer

/-- The fetch-and-add of `sendSubscribe`. -/
def fetchSubId (p : Peer) : Peer :=
  { p with nextSubId := p.nextSubId + 1, fetched := p.nextSubId :: p.fetched }

/-- The critical section of `sendSubscribe`, and the frame it writes. -/
def sendSubscribe (p : Peer) (sid : ℕ) (msg : SubscribeMessage) (callback : ℕ) :
    Peer × List SubscriptionFrame :=
  let key : EventKey := (msg.object, msg.eventName)
  let subs := (p.eventSubs.lookup key).getD []
  ({ p with
      fetched := p.fetched.erase sid
      eventSubs := p.eventSubs.insert key (subs ++ [⟨sid, callback⟩])
      subKeys := if sid ∈ p.subKeys then p.subKeys else p.subKeys.insert sid key },
    [.subscribe msg])

/-- The critical section of `sendUnsubscribe`, and the frame it writes, if any. -/
def sendUnsubscribe (p : Peer) (sid : ℕ) : Peer × List SubscriptionFrame :=
  match p.subKeys.lookup sid with
  | none => (p, [])
  | some key =>
    let p := { p with subKeys := p.subKeys.erase sid }
    let unsubscribe : SubscriptionFrame := .unsubscribe { object := key.1, eventName := key.2 }
    match p.eventSubs.lookup key with
    | none => (p, [unsubscribe])
    | some subs =>
      let rest := subs.filter fun s => s.id ≠ sid
      -- Still wanted locally: say nothing.
      if rest ≠ [] then ({ p with eventSubs := p.eventSubs.insert key rest }, [])
      else ({ p with eventSubs := p.eventSubs.erase key }, [unsubscribe])

/-- What `fail()` does to the registry. -/
def fail (p : Peer) : Peer := { p with stopped := true, eventSubs := ∅, subKeys := ∅ }

end Peer

/-! ## The host's sinks -/

variable {Conn : Type} [DecidableEq Conn]

/-- Sinks by object, event and connection.  A sink writes back to its connection, which is
all there is to it. -/
abbrev Sinks (Conn : Type) := Dict Bytes (Dict Bytes (Dict Conn Conn))

/-- Assign one sink, making the maps on the way. -/
def assignSink (sinks : Sinks Conn) (key : EventKey) (c : Conn) : Sinks Conn :=
  let table := (sinks.lookup key.1).getD ∅
  let conns := (table.lookup key.2).getD ∅
  sinks.insert key.1 (table.insert key.2 (conns.insert c c))

def onSubscribe (sinks : Sinks Conn) (req : SubscribeMessage) (c : Conn) : Sinks Conn :=
  assignSink sinks (req.object, req.eventName) c

/-- Drop one sink, and the maps it leaves empty. -/
def dropSink (sinks : Sinks Conn) (key : EventKey) (c : Conn) : Sinks Conn :=
  match sinks.lookup key.1 with
  | none => sinks
  | some table =>
    match table.lookup key.2 with
    | none => sinks
    | some conns =>
      let conns := conns.erase c
      let table := if conns.entries = [] then table.erase key.2 else table.insert key.2 conns
      if table.entries = [] then sinks.erase key.1 else sinks.insert key.1 table

def onUnsubscribe (sinks : Sinks Conn) (req : UnsubscribeMessage) (c : Conn) : Sinks Conn :=
  dropSink sinks (req.object, req.eventName) c

/-- The sweep over every object's every event. -/
def onConnectionClosed (sinks : Sinks Conn) (c : Conn) : Sinks Conn :=
  (sinks.entries.flatMap fun o => o.2.keys.map fun event => (o.1, event)).foldl
    (fun sinks key => dropSink sinks key c) sinks

/-! ## The network -/

structure State (Conn : Type) where
  peer : Conn → Peer := fun _ => {}
  /-- Frames of each connection that the host has not dispatched yet. -/
  wire : Conn → List SubscriptionFrame := fun _ => []
  /-- The host's end of a connection has failed. -/
  hostStopped : Conn → Bool := fun _ => false
  sinks : Sinks Conn := ∅

inductive Action (Conn : Type)
  | fetchSubId (c : Conn)
  | sendSubscribe (c : Conn) (sid : ℕ) (msg : SubscribeMessage) (callback : ℕ)
  | sendUnsubscribe (c : Conn) (sid : ℕ)
  /-- The host dispatches the next frame of a connection. -/
  | deliver (c : Conn)
  /-- `fail()` at the consumer's end. -/
  | peerFail (c : Conn)
  /-- `fail()` at the host's end, with its notice to the host. -/
  | hostFail (c : Conn)
  /-- A connection that went down loses what is in flight. -/
  | lose (c : Conn)

/-- Write frames on a connection; a stopped peer drops them. -/
def State.write (s : State Conn) (c : Conn) (p : Peer) (frames : List SubscriptionFrame) :
    State Conn :=
  { s with
    peer := Function.update s.peer c p
    wire := if p.stopped then s.wire else Function.update s.wire c (s.wire c ++ frames) }

/-- One atomic step. -/
def next (s : State Conn) : Action Conn → Option (State Conn)
  | .fetchSubId c => some { s with peer := Function.update s.peer c (s.peer c).fetchSubId }
  | .sendSubscribe c sid msg callback =>
    if sid ∈ (s.peer c).fetched then
      let sent := (s.peer c).sendSubscribe sid msg callback
      some (s.write c sent.1 sent.2)
    else none
  | .sendUnsubscribe c sid =>
    let sent := (s.peer c).sendUnsubscribe sid
    some (s.write c sent.1 sent.2)
  | .deliver c =>
    match s.wire c with
    | [] => none
    | .subscribe m :: frames =>
      some { s with wire := Function.update s.wire c frames, sinks := onSubscribe s.sinks m c }
    | .unsubscribe m :: frames =>
      some { s with wire := Function.update s.wire c frames, sinks := onUnsubscribe s.sinks m c }
  | .peerFail c => some { s with peer := Function.update s.peer c (s.peer c).fail }
  | .hostFail c =>
    some { s with
      hostStopped := Function.update s.hostStopped c true
      sinks := onConnectionClosed s.sinks c }
  | .lose c =>
    if (s.peer c).stopped ∨ s.hostStopped c then
      some { s with wire := Function.update s.wire c [] }
    else none

/-- All connections fresh and no sinks. -/
def network (Conn : Type) [DecidableEq Conn] : TransitionSystem (State Conn) (Action Conn) :=
  TransitionSystem.ofNext {} next

/-- Neither end of the connection has failed. -/
def State.Open (s : State Conn) (c : Conn) : Prop :=
  (s.peer c).stopped = false ∧ s.hostStopped c = false

/-- The connections that have a sink for an object and event. -/
def connections (sinks : Sinks Conn) (key : EventKey) : Dict Conn Conn :=
  (((sinks.lookup key.1).getD ∅).lookup key.2).getD ∅

/-- The host holds a sink for this object, event and connection. -/
def hasSink (sinks : Sinks Conn) (key : EventKey) (c : Conn) : Bool :=
  ((connections sinks key).lookup c).isSome

/-! ## Live registrations -/

/-- The registrations that are live after a step: what was registered and not withdrawn. -/
def liveAfter (live : Set (Conn × ℕ × EventKey)) : Action Conn → Set (Conn × ℕ × EventKey)
  | .sendSubscribe c sid msg _ => live ∪ {(c, sid, msg.object, msg.eventName)}
  | .sendUnsubscribe c sid => live \ {reg | reg.1 = c ∧ reg.2.1 = sid}
  | _ => live

/-- The registrations that are live after a run. -/
def liveRegistrations (as : List (Action Conn)) : Set (Conn × ℕ × EventKey) :=
  as.foldl liveAfter ∅

omit [DecidableEq Conn] in
@[simp] theorem liveRegistrations_concat (as : List (Action Conn)) (a : Action Conn) :
    liveRegistrations (as ++ [a]) = liveAfter (liveRegistrations as) a := by
  simp [liveRegistrations, List.foldl_append]

end LogosProtocol.Subscriptions
