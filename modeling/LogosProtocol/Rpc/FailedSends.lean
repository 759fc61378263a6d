import LogosProtocol.Rpc.PendingCalls
import LogosProtocol.Rpc.Subscriptions
import LogosProtocol.Wire.WebMessage

/-!
# Sends that throw

A send registers its handler and then writes its message.  Writing throws when the message
cannot be encoded, and nothing takes the registration back: `fail()` still invokes the
handler of a call the caller was told has failed, and a subscription stays that the host
has never seen.

Each operation is one step here, since what is compared is the peer before a send and after
it.  Handlers, promises and callbacks are named by numbers.

## Main definitions

* `Transport.emitMessage` — write a message, on the byte or the web transport.
* `Peer.send` — the three sends, with how each ends.
* `Peer.fail` — what is answered when the peer goes down.
* `Peer.LeavesNoTrace` — a send that throws has changed nothing.
-/

namespace LogosProtocol.FailedSends

open PendingCalls (Kind Request stoppedAnswer failedAnswer)

/-! ## Writing a message -/

/-- The wire of a peer, with what encodes its messages. -/
inductive Transport
  | plain (codec : WireCodec)
  | web (json : WireCodec)

namespace Transport

/-- A message as the transport writes it. -/
def encode : Transport → AnyMessage → Except EncodeError Bytes
  | plain codec => codec.encodeFrame
  | web json => encodeWebMessage json

/-- What is handed to the wire, if anything.  Both drop what a stopped peer writes, the byte
transport after encoding it and the web transport before. -/
def emitMessage (t : Transport) (stopped : Bool) (m : AnyMessage) :
    Except EncodeError (Option Bytes) :=
  match t with
  | plain codec =>
    match codec.encodeFrame m with
    | .ok frame => .ok (if stopped then none else some frame)
    | .error e => .error e
  | web json =>
    if stopped then .ok none
    else
      match encodeWebMessage json m with
      | .ok text => .ok (some text)
      | .error e => .error e

/-- The transport looks at the message at all. -/
def Encodes : Transport → Bool → Prop
  | plain _, _ => True
  | web _, stopped => stopped = false

/-- Writing throws exactly when the message is looked at and cannot be encoded. -/
theorem emitMessage_error_iff (t : Transport) (stopped : Bool) (m : AnyMessage) :
    (∃ e, t.emitMessage stopped m = .error e) ↔
      t.Encodes stopped ∧ ¬ Succeeds (t.encode m) := by
  cases t with
  | plain codec =>
    simp only [emitMessage, Encodes, encode, true_and]
    cases codec.encodeFrame m with
    | ok frame => simp
    | error e => simp
  | web json =>
    simp only [emitMessage, Encodes, encode]
    cases stopped with
    | true => simp
    | false =>
      cases encodeWebMessage json m with
      | ok text => simp
      | error e => simp

end Transport

/-! ## The peer -/

/-- Handlers by the id of their message, in the order of the map. -/
@[ext]
structure PendingMap where
  entries : List (UInt64 × ℕ) := []
  ordered : Fields.Ordered entries

namespace PendingMap

def empty : PendingMap := ⟨[], List.Pairwise.nil⟩

def get? (m : PendingMap) (id : UInt64) : Option ℕ := Fields.get? id m.entries

/-- `m[id] = handler`. -/
def set (m : PendingMap) (id : UInt64) (handler : ℕ) : PendingMap :=
  ⟨Fields.set id handler m.entries, m.ordered.set id handler⟩

def erase (m : PendingMap) (id : UInt64) : PendingMap :=
  ⟨Fields.erase id m.entries, m.ordered.erase id⟩

@[simp] theorem get?_set (m : PendingMap) (id id' : UInt64) (handler : ℕ) :
    (m.set id handler).get? id' = if id' = id then some handler else m.get? id' :=
  Fields.get?_set id id' handler

/-- Registering a handler changes the map, unless it is registered already. -/
theorem set_eq_self_iff (m : PendingMap) (id : UInt64) (handler : ℕ) :
    m.set id handler = m ↔ m.get? id = some handler := by
  constructor
  · intro h
    rw [← h, get?_set, if_pos rfl]
  · intro h
    exact PendingMap.ext (m.ordered.set_of_get? h)

end PendingMap

structure Peer where
  transport : Transport
  /-- `m_eventSubs`, `m_subKeys`, `m_nextSubId` and `m_stopped`. -/
  registry : Subscriptions.Peer := {}
  /-- `m_pendingCalls` and `m_pendingMethods`. -/
  pending : Kind → PendingMap := fun _ => .empty

/-- The three messages that register someone for what comes back. -/
inductive Send
  /-- `sendCallAsync`; the handler may be empty. -/
  | call (msg : CallMessage) (handler : Option ℕ)
  /-- `sendMethods`, with the promise it makes. -/
  | methods (msg : MethodsMessage) (promise : ℕ)
  | subscribe (msg : SubscribeMessage) (callback : ℕ)

/-- How a send ends: the peer afterwards, what was written or thrown, and the handlers that
were invoked meanwhile. -/
structure Sent where
  peer : Peer
  outcome : Except EncodeError (Option Bytes)
  invoked : List (ℕ × AnyMessage) := []

namespace Peer

def stopped (p : Peer) : Bool := p.registry.stopped

def register (p : Peer) (r : Request) (handler : ℕ) : Peer :=
  { p with pending := Function.update p.pending r.kind ((p.pending r.kind).set r.id handler) }

/-- Take back the registration, and answer it. -/
def reclaim (p : Peer) (r : Request) : Sent :=
  match (p.pending r.kind).get? r.id with
  | some mine =>
    { peer := { p with
        pending := Function.update p.pending r.kind ((p.pending r.kind).erase r.id) }
      outcome := .ok none
      invoked := [(mine, stoppedAnswer r)] }
  | none => { peer := p, outcome := .ok none }

/-- Register first, and then look whether the peer has stopped. -/
def sendPending (p : Peer) (r : Request) (handler : ℕ) (m : AnyMessage) : Sent :=
  let p := p.register r handler
  if p.stopped then p.reclaim r
  else { peer := p, outcome := p.transport.emitMessage p.stopped m }

def sendCallAsync (p : Peer) (msg : CallMessage) (handler : Option ℕ) : Sent :=
  match handler with
  | some h => p.sendPending ⟨.call, msg.id⟩ h (.call msg)
  | none => { peer := p, outcome := .ok none }

def sendMethods (p : Peer) (msg : MethodsMessage) (promise : ℕ) : Sent :=
  p.sendPending ⟨.methods, msg.id⟩ promise (.methods msg)

/-- Nobody looks whether the peer has stopped. -/
def sendSubscribe (p : Peer) (msg : SubscribeMessage) (callback : ℕ) : Sent :=
  let sid := p.registry.nextSubId
  let p := { p with registry := (p.registry.fetchSubId.sendSubscribe sid msg callback).1 }
  { peer := p, outcome := p.transport.emitMessage p.stopped (.subscribe msg) }

def send (p : Peer) : Send → Sent
  | .call msg handler => p.sendCallAsync msg handler
  | .methods msg promise => p.sendMethods msg promise
  | .subscribe msg callback => p.sendSubscribe msg callback

/-- What a pending map is answered when the peer goes down. -/
def failAnswers (p : Peer) (reason : Bytes) (k : Kind) : List (ℕ × AnyMessage) :=
  (p.pending k).entries.map fun e => (e.2, failedAnswer reason ⟨k, e.1⟩)

/-- The sweep of `fail()`, and the handlers it invokes. -/
def fail (p : Peer) (reason : Bytes) : Peer × List (ℕ × AnyMessage) :=
  if p.stopped then (p, [])
  else
    ({ p with registry := p.registry.fail, pending := fun _ => .empty },
      p.failAnswers reason .call ++ p.failAnswers reason .methods)

/-- The four maps are the same. -/
def SameMaps (p q : Peer) : Prop :=
  p.pending = q.pending ∧ p.registry.eventSubs = q.registry.eventSubs ∧
    p.registry.subKeys = q.registry.subKeys

/-- A send that throws leaves the four maps as they were, and `fail()` then invokes what it
would have invoked without the send. -/
def LeavesNoTrace (p : Peer) (s : Send) : Prop :=
  (∃ e, (p.send s).outcome = .error e) →
    (p.send s).peer.SameMaps p ∧
    ∀ reason, ((p.send s).peer.fail reason).2 = (p.fail reason).2

/-- The message of a send can be written, or is not looked at, or the very handler is
registered under the id already. -/
def Harmless (p : Peer) : Send → Prop
  | .call _ none => True
  | .call msg (some h) => Succeeds (p.transport.encode (.call msg)) ∨ p.stopped = true ∨
      (p.pending .call).get? msg.id = some h
  | .methods msg promise => Succeeds (p.transport.encode (.methods msg)) ∨ p.stopped = true ∨
      (p.pending .methods).get? msg.id = some promise
  | .subscribe msg _ => Succeeds (p.transport.encode (.subscribe msg)) ∨
      ¬ p.transport.Encodes p.stopped

/-! ## Calls and introspection -/

@[simp] theorem stopped_register (p : Peer) (r : Request) (handler : ℕ) :
    (p.register r handler).stopped = p.stopped := rfl

@[simp] theorem pending_register (p : Peer) (r : Request) (handler : ℕ) :
    (p.register r handler).pending =
      Function.update p.pending r.kind ((p.pending r.kind).set r.id handler) := rfl

theorem register_eq_self_iff (p : Peer) (r : Request) (handler : ℕ) :
    (p.register r handler).pending = p.pending ↔
      (p.pending r.kind).get? r.id = some handler := by
  rw [← PendingMap.set_eq_self_iff, pending_register, Function.update_eq_self_iff]

theorem outcome_reclaim (p : Peer) (r : Request) : (p.reclaim r).outcome = .ok none := by
  unfold reclaim
  split
  · rfl
  · rfl

/-- On a stopped peer the handler is answered; otherwise the message is written. -/
theorem outcome_sendPending (p : Peer) (r : Request) (handler : ℕ) (m : AnyMessage) :
    (∃ e, (p.sendPending r handler m).outcome = .error e) ↔
      p.stopped = false ∧ ¬ Succeeds (p.transport.encode m) := by
  by_cases hstopped : p.stopped = true
  · have hsend : p.sendPending r handler m = (p.register r handler).reclaim r := by
      rw [sendPending, stopped_register, if_pos hstopped]
    rw [hsend, outcome_reclaim]
    simp [hstopped]
  · have hopen : p.stopped = false := by simpa using hstopped
    have hsend : p.sendPending r handler m =
        ⟨p.register r handler, p.transport.emitMessage false m, []⟩ := by
      rw [sendPending, stopped_register, if_neg hstopped, hopen]
      rfl
    have hencodes : p.transport.Encodes false := by
      cases p.transport
      · trivial
      · rfl
    rw [hsend, Transport.emitMessage_error_iff]
    simp [hopen, hencodes]

/-- A send that throws has registered its handler. -/
theorem peer_sendPending {p : Peer} (h : p.stopped = false) (r : Request) (handler : ℕ)
    (m : AnyMessage) : (p.sendPending r handler m).peer = p.register r handler := by
  unfold sendPending
  simp [h]

theorem fail_congr {p q : Peer} (hstopped : p.stopped = q.stopped)
    (hpending : p.pending = q.pending) (reason : Bytes) :
    (p.fail reason).2 = (q.fail reason).2 := by
  simp only [fail, failAnswers, hstopped, hpending]
  split_ifs
  · rfl
  · rfl

theorem noTrace_sendPending_iff (p : Peer) (r : Request) (handler : ℕ) (m : AnyMessage) :
    ((∃ e, (p.sendPending r handler m).outcome = .error e) →
      (p.sendPending r handler m).peer.SameMaps p ∧
      ∀ reason, ((p.sendPending r handler m).peer.fail reason).2 = (p.fail reason).2) ↔
    Succeeds (p.transport.encode m) ∨ p.stopped = true ∨
      (p.pending r.kind).get? r.id = some handler := by
  rw [outcome_sendPending, ← register_eq_self_iff]
  constructor
  · intro h
    by_contra! hcon
    have hstopped : p.stopped = false := by simpa using hcon.2.1
    obtain ⟨⟨hpending, -⟩, -⟩ := h ⟨hstopped, hcon.1⟩
    rw [peer_sendPending hstopped] at hpending
    exact hcon.2.2 hpending
  · rintro h ⟨hstopped, hencode⟩
    have hpending : (p.register r handler).pending = p.pending := by
      simpa [hstopped, hencode] using h
    rw [peer_sendPending hstopped]
    exact ⟨⟨hpending, rfl, rfl⟩, fail_congr rfl hpending⟩

/-! ## Subscriptions -/

/-- A subscription is registered in any case. -/
theorem eventSubs_sendSubscribe (p : Peer) (msg : SubscribeMessage) (callback : ℕ) :
    (p.sendSubscribe msg callback).peer.registry.eventSubs ≠ p.registry.eventSubs := by
  intro h
  have hlookup := congrArg (fun d => (d.lookup (msg.object, msg.eventName)).getD []) h
  simp [sendSubscribe, Subscriptions.Peer.sendSubscribe, Subscriptions.Peer.fetchSubId] at hlookup

theorem outcome_sendSubscribe (p : Peer) (msg : SubscribeMessage) (callback : ℕ) :
    (∃ e, (p.sendSubscribe msg callback).outcome = .error e) ↔
      p.transport.Encodes p.stopped ∧ ¬ Succeeds (p.transport.encode (.subscribe msg)) :=
  Transport.emitMessage_error_iff ..

/-- **Which sends leave no trace when they throw.**  Those whose message can be written, those
whose message nobody looks at, and a call under an id that has this handler already: none
that throws and has anything to take back. -/
theorem leavesNoTrace_iff (p : Peer) (s : Send) : p.LeavesNoTrace s ↔ p.Harmless s := by
  cases s with
  | call msg handler =>
    cases handler with
    | none =>
      simp [LeavesNoTrace, Harmless, send, sendCallAsync]
    | some h => exact noTrace_sendPending_iff p ⟨.call, msg.id⟩ h (.call msg)
  | methods msg promise =>
    exact noTrace_sendPending_iff p ⟨.methods, msg.id⟩ promise (.methods msg)
  | subscribe msg callback =>
    have houtcome := outcome_sendSubscribe p msg callback
    simp only [LeavesNoTrace, Harmless, send, houtcome]
    constructor
    · intro h
      by_contra! hcon
      obtain ⟨⟨-, hsubs, -⟩, -⟩ := h ⟨hcon.2, hcon.1⟩
      exact eventSubs_sendSubscribe p msg callback hsubs
    · rintro h ⟨hencodes, hencode⟩
      cases h with
      | inl h => exact absurd h hencode
      | inr h => exact absurd hencodes h

end Peer

/-! ## A call with a long argument -/

/-- A call whose argument is so many letters. -/
def longCall (n : ℕ) : CallMessage where
  id := 1
  authToken := bstr "token"
  object := bstr "wallet"
  method := bstr "restore"
  args := [.string (repeated n)]
  caller := []

/-- The argument stands in the payload. -/
theorem encode_longCall (n : ℕ) :
    ∃ payload, textCodec.encode (.call (longCall n)) = .ok payload ∧ n ≤ payload.length := by
  have hfields : messageToJson (.call (longCall n)) = .object [
      (bstr "args", .array [.string (repeated n)]),
      (bstr "authToken", .string (bstr "token")), (bstr "id", .numberUnsigned 1),
      (bstr "method", .string (bstr "restore")), (bstr "object", .string (bstr "wallet"))] := rfl
  have hargs : textCodec.serialise (.array [.string (repeated n)]) =
      .ok (0x5B :: joinComma [quoted (repeated n)] ++ [0x5D]) := by
    have hletters := dump_repeated dumpsJson_textCodec n
    rw [textCodec] at hletters ⊢
    simp only [Json.dump, dumpItems] at hletters ⊢
    rw [hletters]
    rfl
  have hid : textCodec.serialise (.numberUnsigned 1) = .ok (bstr "1") := rfl
  have htext : ∀ s : Bytes, s.all isPlainChar = true →
      textCodec.serialise (.string s) = .ok (quoted s) := dumpsJson_textCodec.plain
  rw [WireCodec.encode, hfields, dumpsJson_textCodec.object]
  simp only [List.mapM_cons, List.mapM_nil, hargs, hid, htext (bstr "args") rfl,
    htext (bstr "authToken") rfl, htext (bstr "token") rfl,
    htext (bstr "id") rfl, htext (bstr "method") rfl,
    htext (bstr "restore") rfl, htext (bstr "object") rfl,
    htext (bstr "wallet") rfl, ok_bind, pure_bind]
  refine ⟨_, rfl, ?_⟩
  simp only [joinComma, quoted, repeated, List.length_append, List.length_cons,
    List.length_replicate]
  omega

/-- A peer on the byte transport that has sent nothing yet. -/
def freshPeer : Peer := { transport := .plain textCodec }

/-- Sending it throws. -/
theorem send_longCall :
    ∃ e, (freshPeer.send (.call (longCall 16777216) (some 7))).outcome = .error e := by
  obtain ⟨payload, hpayload, hlen⟩ := encode_longCall 16777216
  have hlong : kMaxFrameLength.toNat < 1 + payload.length := by
    rw [toNat_kMaxFrameLength]
    omega
  have hencode : freshPeer.transport.encode (.call (longCall 16777216)) =
      .error (.framing .frameTooLarge) := by
    rw [freshPeer, Transport.encode, encodeFrame_of_encode hpayload, if_pos hlong]
  refine (Peer.outcome_sendPending freshPeer _ 7 _).mpr ⟨rfl, ?_⟩
  rw [hencode]
  exact not_succeeds_error _

/-- A call that is too long for a frame throws, and `fail()` answers it all the same. -/
theorem failed_call_answered :
    (∃ e, (freshPeer.send (.call (longCall 16777216) (some 7))).outcome = .error e) ∧
    ((freshPeer.send (.call (longCall 16777216) (some 7))).peer.fail (bstr "eof")).2 =
      [(7, failedAnswer (bstr "eof") ⟨.call, 1⟩)] ∧
    ¬ freshPeer.LeavesNoTrace (.call (longCall 16777216) (some 7)) := by
  have hpeer : (freshPeer.send (.call (longCall 16777216) (some 7))).peer =
      freshPeer.register ⟨.call, 1⟩ 7 :=
    Peer.peer_sendPending (p := freshPeer) rfl ⟨.call, 1⟩ 7 (.call (longCall 16777216))
  have hanswer : ((freshPeer.register ⟨.call, 1⟩ 7).fail (bstr "eof")).2 =
      [(7, failedAnswer (bstr "eof") ⟨.call, 1⟩)] := rfl
  refine ⟨send_longCall, ?_, ?_⟩
  · rw [hpeer, hanswer]
  · intro h
    have hsame := (h send_longCall).2 (bstr "eof")
    rw [hpeer, hanswer] at hsame
    cases hsame

end LogosProtocol.FailedSends
