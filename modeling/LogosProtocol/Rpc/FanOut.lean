import LogosProtocol.Rpc.SubscriptionAgreement

/-!
# Event fan-out

One emission is de-duplicated twice.  The host collects the sinks of the event's name and
of the wildcard and keeps one for each connection; the peer that receives the frame collects
its registrations under the same two keys, which are one key for an event with an empty name.

## Main definitions

* `SinkTable` — a host's sinks, each of which writes to the connection it is kept for.
* `Host.fanOutEvent` — the frames one emission is written as.
* `Peer.dispatchEvent` — the registrations that one received frame invokes, in order.
-/

namespace LogosProtocol.Subscriptions

variable {Conn : Type} [DecidableEq Conn]

/-! ## The host -/

/-- Every sink writes to the connection it is kept for. -/
def OwnSinks (sinks : Sinks Conn) : Prop :=
  ∀ key c d, (connections sinks key).lookup c = some d → d = c

/-- Push the sinks of one event, but for connections already seen. -/
def pushUnseen (conns : Dict Conn Conn) (acc : List Conn × List Conn) : List Conn × List Conn :=
  conns.entries.foldl
    (fun acc e => if e.1 ∈ acc.1 then acc else (e.1 :: acc.1, acc.2 ++ [e.2])) acc

/-- The sinks that an event's name and the wildcard select in one object's table. -/
def selectSinks (table : Dict Bytes (Dict Conn Conn)) (eventName : Bytes) : List Conn :=
  let named := pushUnseen ((table.lookup eventName).getD ∅) ([], [])
  -- An empty name is the wildcard.
  if eventName = [] then named.2
  else (pushUnseen ((table.lookup []).getD ∅) named).2

/-- The frames one emission is written as, with the connection of each. -/
def fanOutEvent (sinks : Sinks Conn) (name : Bytes) (msg : EventMessage) :
    List (Conn × EventMessage) :=
  match sinks.lookup name with
  | none => []
  | some table => (selectSinks table msg.eventName).map fun c => (c, msg)

def PlainTransportHost.fanOutEvent (sinks : Sinks Conn) (name : Bytes) (msg : EventMessage) :
    List (Conn × EventMessage) :=
  Subscriptions.fanOutEvent sinks name msg

def WebTransportHost.fanOutEvent (sinks : Sinks Conn) (name : Bytes) (msg : EventMessage) :
    List (Conn × EventMessage) :=
  Subscriptions.fanOutEvent sinks name msg

/-- The two hosts that keep a sink table. -/
inductive Host
  | plain
  | web

def Host.fanOutEvent : Host → Sinks Conn → Bytes → EventMessage → List (Conn × EventMessage)
  | .plain => PlainTransportHost.fanOutEvent
  | .web => WebTransportHost.fanOutEvent

/-- What publishing an object hooks to its `eventResponse` signal. -/
def Host.eventResponse (host : Host) (sinks : Sinks Conn) (stdName eventName : Bytes)
    (data : List RpcValue) : List (Conn × EventMessage) :=
  host.fanOutEvent sinks stdName { object := stdName, eventName := eventName, data := data }

/-- A sink table as a host keeps it. -/
structure SinkTable (Conn : Type) [DecidableEq Conn] where
  sinks : Sinks Conn
  own : OwnSinks sinks

/-! ## The peer -/

namespace Peer

/-- The registrations under one key, in registration order. -/
def collect (p : Peer) (key : EventKey) : List (EventKey × EventSubscription) :=
  ((p.eventSubs.lookup key).getD []).map fun sub => (key, sub)

/-- The registrations that an event invokes, in order. -/
def dispatchEvent (p : Peer) (m : EventMessage) : List (EventKey × EventSubscription) :=
  p.collect (m.object, m.eventName) ++
    if m.eventName = [] then [] else p.collect (m.object, [])

end Peer

/-- A registration's key is that of the event, or the wildcard of its object. -/
def Matches (m : EventMessage) (key : EventKey) : Prop :=
  key.1 = m.object ∧ (key.2 = m.eventName ∨ key.2 = [])

instance (m : EventMessage) (key : EventKey) : Decidable (Matches m key) :=
  inferInstanceAs (Decidable (_ ∧ _))

/-- What the peers invoke when each has received its frames. -/
def invoked (peer : Conn → Peer) (frames : List (Conn × EventMessage)) (c : Conn) :
    List (EventKey × EventSubscription) :=
  (frames.filter fun f => f.1 = c).flatMap fun f => (peer c).dispatchEvent f.2

/-! ## Every table a host builds is a sink table -/

theorem ownSinks_empty : OwnSinks (∅ : Sinks Conn) := by
  intro key c d h
  simp [connections] at h

theorem OwnSinks.assignSink {sinks : Sinks Conn} (h : OwnSinks sinks) (key : EventKey)
    (c : Conn) : OwnSinks (assignSink sinks key c) := by
  intro key' c' d hd
  rw [connections_assignSink] at hd
  split_ifs at hd with hkey
  · by_cases hc : c' = c
    · rw [hc, AList.lookup_insert] at hd
      rw [hc, Option.some.inj hd]
    · rw [AList.lookup_insert_ne hc] at hd
      exact h key c' d hd
  · exact h key' c' d hd

theorem OwnSinks.dropSink {sinks : Sinks Conn} (h : OwnSinks sinks) (key : EventKey)
    (c : Conn) : OwnSinks (dropSink sinks key c) := by
  intro key' c' d hd
  rw [connections_dropSink] at hd
  split_ifs at hd with hkey
  · by_cases hc : c' = c
    · rw [hc, AList.lookup_erase] at hd
      cases hd
    · rw [AList.lookup_erase_ne hc] at hd
      exact h key c' d hd
  · exact h key' c' d hd

theorem OwnSinks.onConnectionClosed {sinks : Sinks Conn} (h : OwnSinks sinks) (c : Conn) :
    OwnSinks (onConnectionClosed sinks c) := by
  unfold Subscriptions.onConnectionClosed
  generalize (sinks.entries.flatMap fun o => o.2.keys.map fun event => (o.1, event)) = keys
  induction keys generalizing sinks with
  | nil => exact h
  | cons k keys ih => exact ih (h.dropSink k c)

namespace SinkTable

def empty : SinkTable Conn := ⟨∅, ownSinks_empty⟩

def onSubscribe (t : SinkTable Conn) (req : SubscribeMessage) (c : Conn) : SinkTable Conn :=
  ⟨Subscriptions.onSubscribe t.sinks req c, t.own.assignSink _ c⟩

def onUnsubscribe (t : SinkTable Conn) (req : UnsubscribeMessage) (c : Conn) : SinkTable Conn :=
  ⟨Subscriptions.onUnsubscribe t.sinks req c, t.own.dropSink _ c⟩

def onConnectionClosed (t : SinkTable Conn) (c : Conn) : SinkTable Conn :=
  ⟨Subscriptions.onConnectionClosed t.sinks c, t.own.onConnectionClosed c⟩

end SinkTable

/-- The sinks of every reachable network are a sink table. -/
theorem ownSinks_of_reachable {s : State Conn} (h : (network Conn).Reachable s) :
    OwnSinks s.sinks := by
  refine h.invariant (I := fun s => OwnSinks s.sinks) ?_ ?_
  · rintro s rfl
    exact ownSinks_empty
  · intro s a s' hs hstep
    cases a with
    | fetchSubId c =>
      cases hstep
      exact hs
    | sendSubscribe c sid msg callback =>
      simp only [network, TransitionSystem.ofNext, next] at hstep
      split at hstep
      · cases hstep
        exact hs
      · cases hstep
    | sendUnsubscribe c sid =>
      cases hstep
      exact hs
    | deliver c =>
      simp only [network, TransitionSystem.ofNext, next] at hstep
      split at hstep
      · cases hstep
      · cases hstep
        exact hs.assignSink _ c
      · cases hstep
        exact hs.dropSink _ c
    | peerFail c =>
      cases hstep
      exact hs
    | hostFail c =>
      cases hstep
      exact hs.onConnectionClosed c
    | lose c =>
      simp only [network, TransitionSystem.ofNext, next] at hstep
      split at hstep
      · cases hstep
        exact hs
      · cases hstep

/-! ## One frame for each connection -/

/-- What the loop over the sinks has collected: the connections in `S`, each once. -/
structure Collected (acc : List Conn × List Conn) (S : Conn → Prop) : Prop where
  seen : ∀ c, c ∈ acc.1 ↔ S c
  pushed : ∀ c, c ∈ acc.2 ↔ S c
  nodup : acc.2.Nodup

theorem Collected.pushUnseen {conns : Dict Conn Conn} {acc : List Conn × List Conn}
    {S : Conn → Prop} (h : Collected acc S) (hown : ∀ c d, conns.lookup c = some d → d = c) :
    Collected (pushUnseen conns acc) fun c => S c ∨ c ∈ conns := by
  have hentries : ∀ e ∈ conns.entries, e.2 = e.1 := fun e he =>
    hown e.1 e.2 (AList.mem_lookup_iff.mpr he)
  have hmem : ∀ c, c ∈ conns ↔ c ∈ conns.entries.map Sigma.fst := fun c => Iff.rfl
  simp only [hmem]
  unfold Subscriptions.pushUnseen
  -- The loop only reads entries whose sink is their own connection.
  generalize conns.entries = es at hentries
  induction es generalizing acc S with
  | nil => simpa using h
  | cons e es ih =>
    have hrest : ∀ e ∈ es, e.2 = e.1 := fun e' he' => hentries e' (List.mem_cons_of_mem _ he')
    have he : e.2 = e.1 := hentries e List.mem_cons_self
    have hpushed : Collected
        (if e.1 ∈ acc.1 then acc else (e.1 :: acc.1, acc.2 ++ [e.2])) fun c => S c ∨ c = e.1 := by
      split_ifs with hseen
      · have hS : S e.1 := (h.seen e.1).mp hseen
        refine ⟨fun c => ?_, fun c => ?_, h.nodup⟩
        · rw [h.seen c]
          exact ⟨.inl, fun hc => hc.elim id fun hc => hc ▸ hS⟩
        · rw [h.pushed c]
          exact ⟨.inl, fun hc => hc.elim id fun hc => hc ▸ hS⟩
      · have hnew : e.1 ∉ acc.2 := fun hin => hseen ((h.seen _).mpr ((h.pushed _).mp hin))
        refine ⟨fun c => ?_, fun c => ?_, ?_⟩
        · rw [List.mem_cons, h.seen c, or_comm]
        · rw [List.mem_append, h.pushed c, List.mem_singleton, he]
        · rw [he]
          exact List.nodup_append.mpr ⟨h.nodup, List.nodup_singleton _, by
            rintro a ha b hb rfl
            rw [List.mem_singleton] at hb
            exact hnew (hb ▸ ha)⟩
    have htail := ih hpushed hrest
    simpa only [List.foldl_cons, List.map_cons, List.mem_cons, or_assoc] using htail

/-- The sinks of an emission: each connection with a named or a wildcard sink, once. -/
theorem Collected.selectSinks {table : Dict Bytes (Dict Conn Conn)} (eventName : Bytes)
    (hown : ∀ event c d, ((table.lookup event).getD ∅).lookup c = some d → d = c) :
    (selectSinks table eventName).Nodup ∧
      ∀ c, c ∈ selectSinks table eventName ↔
        c ∈ (table.lookup eventName).getD ∅ ∨ c ∈ (table.lookup []).getD ∅ := by
  have hempty : Collected (([], []) : List Conn × List Conn) fun _ => False :=
    ⟨by simp, by simp, List.nodup_nil⟩
  have hnamed := hempty.pushUnseen (hown eventName)
  by_cases hname : eventName = []
  · subst hname
    simp only [Subscriptions.selectSinks, if_true]
    refine ⟨hnamed.nodup, fun c => ?_⟩
    rw [hnamed.pushed c]
    simp
  · simp only [Subscriptions.selectSinks, if_neg hname]
    have hall := hnamed.pushUnseen (hown [])
    refine ⟨hall.nodup, fun c => ?_⟩
    rw [hall.pushed c]
    simp

theorem hasSink_iff (sinks : Sinks Conn) (key : EventKey) (c : Conn) :
    hasSink sinks key c = true ↔ c ∈ connections sinks key :=
  Dict.lookup_isSome_iff

/-- The connections that one emission is written to. -/
theorem fanOutEvent_connections (t : SinkTable Conn) (name : Bytes) (msg : EventMessage) :
    ((fanOutEvent t.sinks name msg).map Prod.fst).Nodup ∧
      ∀ c, c ∈ (fanOutEvent t.sinks name msg).map Prod.fst ↔
        hasSink t.sinks (name, msg.eventName) c ∨ hasSink t.sinks (name, []) c := by
  simp only [hasSink_iff, connections]
  unfold fanOutEvent
  cases hobject : t.sinks.lookup name with
  | none => simp
  | some table =>
    have hown : ∀ event c d, ((table.lookup event).getD ∅).lookup c = some d → d = c := by
      intro event c d hd
      refine t.own (name, event) c d ?_
      rwa [connections, hobject]
    simpa [Function.comp_def] using Collected.selectSinks msg.eventName hown

theorem Host.fanOutEvent_eq (host : Host) (sinks : Sinks Conn) (name : Bytes)
    (msg : EventMessage) :
    host.fanOutEvent sinks name msg = Subscriptions.fanOutEvent sinks name msg := by
  cases host <;> rfl

theorem selectedFrames_msg {sinks : Sinks Conn} {name : Bytes}
    {msg : EventMessage} {f : Conn × EventMessage} (h : f ∈ fanOutEvent sinks name msg) :
    f.2 = msg := by
  unfold fanOutEvent at h
  cases hobject : sinks.lookup name with
  | none => simp [hobject] at h
  | some table =>
    simp only [hobject, List.mem_map] at h
    obtain ⟨c, -, rfl⟩ := h
    rfl

/-- The frames of one connection: one if it has a sink, otherwise none. -/
theorem fanOutEvent_filter (t : SinkTable Conn) (name : Bytes) (msg : EventMessage) (c : Conn) :
    (fanOutEvent t.sinks name msg).filter (fun f => f.1 = c) =
      if hasSink t.sinks (name, msg.eventName) c ∨ hasSink t.sinks (name, []) c then [(c, msg)]
      else [] := by
  obtain ⟨hnodup, hmem⟩ := fanOutEvent_connections t name msg
  have hmsg : ∀ f ∈ fanOutEvent t.sinks name msg, f.2 = msg := fun f => selectedFrames_msg
  rw [← if_congr (hmem c) rfl rfl]
  generalize fanOutEvent t.sinks name msg = frames at hnodup hmsg
  induction frames with
  | nil => rfl
  | cons f frames ih =>
    have hrest := ih (List.nodup_cons.mp hnodup).2 fun g hg => hmsg g (List.mem_cons_of_mem _ hg)
    have hfresh : f.1 ∉ frames.map Prod.fst := (List.nodup_cons.mp hnodup).1
    have hf : f.2 = msg := hmsg f List.mem_cons_self
    by_cases hc : f.1 = c
    · subst hc
      rw [if_neg hfresh] at hrest
      rw [List.filter_cons_of_pos (by simp), hrest, if_pos (by simp), ← hf]
    · have hiff : c ∈ (f :: frames).map Prod.fst ↔ c ∈ frames.map Prod.fst := by
        rw [List.map_cons, List.mem_cons]
        exact ⟨fun h => h.resolve_left (Ne.symm hc), .inr⟩
      rw [List.filter_cons_of_neg (by simp [hc]), hrest, if_congr hiff rfl rfl]

/-! ## Every matching registration once -/

namespace Peer

theorem collect_filter (p : Peer) (key key' : EventKey) :
    (p.collect key').filter (fun r => r.1 = key) = if key' = key then p.collect key else [] := by
  unfold collect
  split_ifs with hkey
  · subst hkey
    simp
  · simp [hkey]

/-- The registrations under one key that an event invokes: all of them, in order, if the key
matches, and none otherwise. -/
theorem dispatchEvent_filter (p : Peer) (m : EventMessage) (key : EventKey) :
    (p.dispatchEvent m).filter (fun r => r.1 = key) =
      if Matches m key then p.collect key else [] := by
  obtain ⟨object, event⟩ := key
  unfold dispatchEvent
  rw [List.filter_append, collect_filter]
  by_cases hobject : object = m.object
  · subst hobject
    by_cases hname : m.eventName = []
    · simp [Matches, hname, eq_comm]
    · rw [if_neg hname, collect_filter]
      by_cases hevent : event = m.eventName
      · simp [Matches, hevent, Ne.symm hname]
      · by_cases hwild : event = []
        · simp [Matches, hwild, hname]
        · simp [Matches, hevent, hwild, Ne.symm hevent, Ne.symm hwild]
  · have hne : ∀ e, (m.object, e) ≠ (object, event) := fun e h => hobject (Prod.mk.inj h).1.symm
    have hno : ¬ Matches m (object, event) := fun h => hobject h.1
    rw [if_neg (hne _), if_neg hno]
    split_ifs with hname
    · rfl
    · rw [collect_filter, if_neg (hne _)]
      rfl

end Peer

/-- The frames of one connection for an emission of either host. -/
theorem eventResponse_filter (host : Host) (t : SinkTable Conn) (name eventName : Bytes)
    (data : List RpcValue) (c : Conn) :
    (host.eventResponse t.sinks name eventName data).filter (fun f => f.1 = c) =
      if hasSink t.sinks (name, eventName) c ∨ hasSink t.sinks (name, []) c
      then [(c, { object := name, eventName := eventName, data := data })] else [] := by
  rw [Host.eventResponse, Host.fanOutEvent_eq]
  exact fanOutEvent_filter t name _ c

/-- What an emission invokes under one key of one connection's peer. -/
theorem invoked_filter (host : Host) (t : SinkTable Conn) (peer : Conn → Peer)
    (name eventName : Bytes) (data : List RpcValue) (c : Conn) (key : EventKey) :
    (invoked peer (host.eventResponse t.sinks name eventName data) c).filter
        (fun r => r.1 = key) =
      if (hasSink t.sinks (name, eventName) c ∨ hasSink t.sinks (name, []) c) ∧
        Matches { object := name, eventName := eventName, data := data } key
      then (peer c).collect key else [] := by
  rw [invoked, eventResponse_filter]
  split_ifs with hsink hall hall
  · rw [List.flatMap_singleton, Peer.dispatchEvent_filter, if_pos hall.2]
  · rw [List.flatMap_singleton, Peer.dispatchEvent_filter, if_neg fun hm => hall ⟨hsink, hm⟩]
  · exact absurd hall.1 hsink
  · rfl

/-- **Exactly-once fan-out.**  One emission is one frame to each connection with a named or
a wildcard sink and to no other; a peer that receives a frame invokes, under each key that
matches, its registrations in order, and no others; and so does the whole. -/
theorem eventResponse_exactlyOnce (host : Host) (t : SinkTable Conn) (peer : Conn → Peer)
    (name eventName : Bytes) (data : List RpcValue) :
    let msg : EventMessage := { object := name, eventName := eventName, data := data }
    let frames := host.eventResponse t.sinks name eventName data
    (∀ c, frames.filter (fun f => f.1 = c) =
      if hasSink t.sinks (name, eventName) c ∨ hasSink t.sinks (name, []) c then [(c, msg)]
      else []) ∧
    (∀ c key, ((peer c).dispatchEvent msg).filter (fun r => r.1 = key) =
      if Matches msg key then ((peer c).eventSubs.lookup key).getD [] |>.map (key, ·) else []) ∧
    (∀ c key, (invoked peer frames c).filter (fun r => r.1 = key) =
      if (hasSink t.sinks (name, eventName) c ∨ hasSink t.sinks (name, []) c) ∧ Matches msg key
      then ((peer c).eventSubs.lookup key).getD [] |>.map (key, ·) else []) := by
  intro msg frames
  refine ⟨fun c => ?_, fun c key => ?_, fun c key => ?_⟩
  · exact eventResponse_filter host t name eventName data c
  · exact (peer c).dispatchEvent_filter msg key
  · exact invoked_filter host t peer name eventName data c key

end LogosProtocol.Subscriptions
