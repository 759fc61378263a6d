import LogosProtocol.Lib.History
import LogosProtocol.Rpc.FanOut

/-!
# The sink table of a host

A host keeps its sinks in three levels of maps.  An assignment makes the maps on the way; a
withdrawal and the sweep of a closed connection erase the maps they leave empty.  Read as one map
from an object, an event and a connection, each of the three changes the places it names and no
other, and no map is left empty.

The sinks are of any type here.  The network takes each sink to write to its own connection, and
its table is this one at that type.

## Main definitions

* `Table`, `sinkAt` — the table, and what it holds at one place.
* `onSubscribe`, `onUnsubscribe`, `onConnectionClosed` — the changes, of either host.
* `SinkCall`, `applyCall`, `tableAfter` — the table after any sequence of them.
-/

namespace LogosProtocol.SinkTables

open Subscriptions (EventKey Host connections)

variable {Conn Sink : Type} [DecidableEq Conn]

/-- Sinks by event and connection, for one object. -/
abbrev SinkTable (Conn Sink : Type) := Dict Bytes (Dict Conn Sink)

/-- Sinks by object, event and connection. -/
abbrev Table (Conn Sink : Type) := Dict Bytes (SinkTable Conn Sink)

/-- A map without entries. -/
def isEmpty {K V : Type} (d : Dict K V) : Bool := d.entries.isEmpty

/-- `m_sinks[object][eventName][connectionId] = sink`. -/
def onSubscribe (sinks : Table Conn Sink) (req : SubscribeMessage) (sink : Sink)
    (connectionId : Conn) : Table Conn Sink :=
  let table := (sinks.lookup req.object).getD ∅
  let conns := (table.lookup req.eventName).getD ∅
  sinks.insert req.object (table.insert req.eventName (conns.insert connectionId sink))

/-- Erase one sink, then the maps that are empty without it, from the inside out. -/
def onUnsubscribe (sinks : Table Conn Sink) (req : UnsubscribeMessage) (connectionId : Conn) :
    Table Conn Sink :=
  match sinks.lookup req.object with
  | none => sinks
  | some table =>
    match table.lookup req.eventName with
    | none => sinks
    | some conns =>
      let conns := conns.erase connectionId
      let table := if conns.entries = [] then table.erase req.eventName
        else table.insert req.eventName conns
      if table.entries = [] then sinks.erase req.object else sinks.insert req.object table

/-- The sweep of one object's events. -/
def sweepEvents (connectionId : Conn) (table : SinkTable Conn Sink) : SinkTable Conn Sink :=
  table.sweep (fun conns => conns.erase connectionId) isEmpty

/-- The sweep of every object's events. -/
def onConnectionClosed (sinks : Table Conn Sink) (connectionId : Conn) : Table Conn Sink :=
  sinks.sweep (sweepEvents connectionId) isEmpty

/-! ## The two hosts -/

namespace PlainTransportHost

def onSubscribe (sinks : Table Conn Sink) (req : SubscribeMessage) (sink : Sink)
    (connectionId : Conn) : Table Conn Sink :=
  SinkTables.onSubscribe sinks req sink connectionId

def onUnsubscribe (sinks : Table Conn Sink) (req : UnsubscribeMessage) (connectionId : Conn) :
    Table Conn Sink :=
  SinkTables.onUnsubscribe sinks req connectionId

def onConnectionClosed (sinks : Table Conn Sink) (connectionId : Conn) : Table Conn Sink :=
  SinkTables.onConnectionClosed sinks connectionId

end PlainTransportHost

namespace WebTransportHost

def onSubscribe (sinks : Table Conn Sink) (req : SubscribeMessage) (sink : Sink)
    (connectionId : Conn) : Table Conn Sink :=
  SinkTables.onSubscribe sinks req sink connectionId

def onUnsubscribe (sinks : Table Conn Sink) (req : UnsubscribeMessage) (connectionId : Conn) :
    Table Conn Sink :=
  SinkTables.onUnsubscribe sinks req connectionId

def onConnectionClosed (sinks : Table Conn Sink) (connectionId : Conn) : Table Conn Sink :=
  SinkTables.onConnectionClosed sinks connectionId

end WebTransportHost

/-- What the connections of a host make it do to its sinks. -/
inductive SinkCall (Conn Sink : Type)
  | onSubscribe (req : SubscribeMessage) (sink : Sink) (connectionId : Conn)
  | onUnsubscribe (req : UnsubscribeMessage) (connectionId : Conn)
  | onConnectionClosed (connectionId : Conn)

/-- The connection that makes a call. -/
def SinkCall.connectionId : SinkCall Conn Sink → Conn
  | .onSubscribe _ _ c => c
  | .onUnsubscribe _ c => c
  | .onConnectionClosed c => c

/-- The sinks after a call. -/
def applyCall (host : Host) (sinks : Table Conn Sink) : SinkCall Conn Sink → Table Conn Sink
  | .onSubscribe req sink c =>
    match host with
    | .plain => PlainTransportHost.onSubscribe sinks req sink c
    | .web => WebTransportHost.onSubscribe sinks req sink c
  | .onUnsubscribe req c =>
    match host with
    | .plain => PlainTransportHost.onUnsubscribe sinks req c
    | .web => WebTransportHost.onUnsubscribe sinks req c
  | .onConnectionClosed c =>
    match host with
    | .plain => PlainTransportHost.onConnectionClosed sinks c
    | .web => WebTransportHost.onConnectionClosed sinks c

/-- The sinks after a sequence of calls, from none. -/
def tableAfter (host : Host) (calls : List (SinkCall Conn Sink)) : Table Conn Sink :=
  calls.foldl (applyCall host) ∅

/-! ## One place of the table -/

/-- What the table holds for an object, an event and a connection. -/
def sinkAt (sinks : Table Conn Sink) (key : EventKey) (c : Conn) : Option Sink :=
  ((((sinks.lookup key.1).getD ∅).lookup key.2).getD ∅).lookup c

/-- The call subscribes this place. -/
def Subscribes (key : EventKey) (c : Conn) : SinkCall Conn Sink → Prop
  | .onSubscribe req _ c' => (req.object, req.eventName) = key ∧ c' = c
  | _ => False

/-- The call withdraws this place, by its key or with its connection. -/
def Withdraws (key : EventKey) (c : Conn) : SinkCall Conn Sink → Prop
  | .onUnsubscribe req c' => (req.object, req.eventName) = key ∧ c' = c
  | .onConnectionClosed c' => c' = c
  | _ => False

/-- What one call makes of a place. -/
def sinkAfter (key : EventKey) (c : Conn) (now : Option Sink) : SinkCall Conn Sink → Option Sink
  | .onSubscribe req sink c' =>
    if (req.object, req.eventName) = key ∧ c' = c then some sink else now
  | .onUnsubscribe req c' => if (req.object, req.eventName) = key ∧ c' = c then none else now
  | .onConnectionClosed c' => if c' = c then none else now

section sinkAt
variable (sinks : Table Conn Sink)

theorem sinkAt_onSubscribe (req : SubscribeMessage) (sink : Sink) (c c' : Conn) (key : EventKey) :
    sinkAt (onSubscribe sinks req sink c) key c' =
      if (req.object, req.eventName) = key ∧ c = c' then some sink else sinkAt sinks key c' := by
  obtain ⟨object, event⟩ := key
  simp only [sinkAt, onSubscribe, Prod.mk.injEq]
  by_cases ho : object = req.object
  · subst ho
    by_cases he : event = req.eventName
    · subst he
      by_cases hc : c' = c
      · subst hc
        simp
      · simp [AList.lookup_insert_ne hc, Ne.symm hc]
    · simp [AList.lookup_insert_ne he, Ne.symm he]
  · simp [AList.lookup_insert_ne ho, Ne.symm ho]

theorem sinkAt_onUnsubscribe (req : UnsubscribeMessage) (c c' : Conn) (key : EventKey) :
    sinkAt (onUnsubscribe sinks req c) key c' =
      if (req.object, req.eventName) = key ∧ c = c' then none else sinkAt sinks key c' := by
  obtain ⟨object, event⟩ := key
  simp only [onUnsubscribe, Prod.mk.injEq]
  cases hobject : sinks.lookup req.object with
  | none =>
    dsimp only
    split_ifs with hkey
    · obtain ⟨⟨rfl, rfl⟩, rfl⟩ := hkey
      simp [sinkAt, hobject]
    · rfl
  | some table =>
    dsimp only
    cases hevent : table.lookup req.eventName with
    | none =>
      dsimp only
      split_ifs with hkey
      · obtain ⟨⟨rfl, rfl⟩, rfl⟩ := hkey
        simp [sinkAt, hobject, hevent]
      · rfl
    | some conns =>
      simp only [sinkAt, Dict.getD_lookup_prune]
      by_cases ho : object = req.object
      · subst ho
        by_cases he : event = req.eventName
        · subst he
          by_cases hc : c' = c
          · subst hc
            simp [Dict.getD_lookup_prune]
          · simp [Dict.getD_lookup_prune, AList.lookup_erase_ne hc, Ne.symm hc, hobject, hevent]
        · simp [Dict.getD_lookup_prune, he, Ne.symm he, hobject]
      · simp [ho, Ne.symm ho]

/-- A sweep that erases what it leaves empty reads as one that erases nothing. -/
theorem getD_lookup_sweep {K K' V : Type} [DecidableEq K]
    (f : Dict K' V → Dict K' V) (hf : f ∅ = ∅) (d : Dict K (Dict K' V)) (k : K) :
    ((d.sweep f isEmpty).lookup k).getD ∅ = f ((d.lookup k).getD ∅) := by
  rw [Dict.lookup_sweep]
  cases d.lookup k with
  | none => exact hf.symm
  | some inner =>
    rw [Option.bind_some, Option.getD_some]
    split_ifs with hempty
    · exact (AList.ext (List.isEmpty_iff.mp hempty)).symm
    · rfl

theorem sinkAt_onConnectionClosed (c c' : Conn) (key : EventKey) :
    sinkAt (onConnectionClosed sinks c) key c' = if c = c' then none else sinkAt sinks key c' := by
  have hinner : sweepEvents c (∅ : SinkTable Conn Sink) = ∅ := rfl
  have herase : (∅ : Dict Conn Sink).erase c = ∅ := rfl
  rw [sinkAt, onConnectionClosed, getD_lookup_sweep _ hinner, sweepEvents,
    getD_lookup_sweep _ herase]
  split_ifs with hc
  · rw [hc, AList.lookup_erase]
  · rw [AList.lookup_erase_ne (Ne.symm hc), sinkAt]

/-- **What one call does to the table.** -/
theorem sinkAt_applyCall (host : Host) (call : SinkCall Conn Sink) (key : EventKey) (c : Conn) :
    sinkAt (applyCall host sinks call) key c = sinkAfter key c (sinkAt sinks key c) call := by
  cases call with
  | onSubscribe req sink c' => cases host <;> exact sinkAt_onSubscribe sinks req sink c' c key
  | onUnsubscribe req c' => cases host <;> exact sinkAt_onUnsubscribe sinks req c' c key
  | onConnectionClosed c' => cases host <;> exact sinkAt_onConnectionClosed sinks c' c key

end sinkAt

/-! ## No map is left empty -/

/-- No object without events and no event without connections. -/
def Pruned (sinks : Table Conn Sink) : Prop :=
  ∀ object table, sinks.lookup object = some table →
    table ≠ ∅ ∧ ∀ event conns, table.lookup event = some conns → conns ≠ ∅

theorem ne_empty_of_lookup {K V : Type} [DecidableEq K] {d : Dict K V} {k : K} {v : V}
    (h : d.lookup k = some v) : d ≠ ∅ := by
  rintro rfl
  cases h

theorem isEmpty_iff {K V : Type} (d : Dict K V) : isEmpty d = true ↔ d = ∅ := by
  rw [isEmpty, List.isEmpty_iff]
  exact ⟨fun h => AList.ext h, fun h => congrArg AList.entries h⟩

section Pruned
variable {sinks : Table Conn Sink}

omit [DecidableEq Conn] in
/-- No event is without connections, of an object that is there or not. -/
theorem Pruned.events (h : Pruned sinks) (object : Bytes) :
    ∀ event conns, ((sinks.lookup object).getD ∅).lookup event = some conns → conns ≠ ∅ := by
  cases hobject : sinks.lookup object with
  | none =>
    intro event conns hconns
    cases hconns
  | some table => exact (h object table hobject).2

theorem Pruned.onSubscribe (h : Pruned sinks) (req : SubscribeMessage) (sink : Sink) (c : Conn) :
    Pruned (onSubscribe sinks req sink c) := by
  intro object table htable
  rw [SinkTables.onSubscribe] at htable
  by_cases ho : object = req.object
  · subst ho
    rw [AList.lookup_insert, Option.some.injEq] at htable
    subst htable
    refine ⟨ne_empty_of_lookup (AList.lookup_insert _), ?_⟩
    intro event conns hconns
    by_cases he : event = req.eventName
    · subst he
      rw [AList.lookup_insert, Option.some.injEq] at hconns
      subst hconns
      exact ne_empty_of_lookup (AList.lookup_insert _)
    · rw [AList.lookup_insert_ne he] at hconns
      exact h.events req.object event conns hconns
  · rw [AList.lookup_insert_ne ho] at htable
    exact h object table htable

/-- Keeping a map only if it has entries. -/
theorem lookup_prune {K K' V : Type} [DecidableEq K] (d : Dict K (Dict K' V)) (k k' : K)
    (inner : Dict K' V) :
    (if inner.entries = [] then d.erase k else d.insert k inner).lookup k' =
      if k' = k then (if inner.entries = [] then none else some inner) else d.lookup k' := by
  split_ifs with hempty hk hk
  · rw [hk, AList.lookup_erase]
  · rw [AList.lookup_erase_ne hk]
  · rw [hk, AList.lookup_insert]
  · rw [AList.lookup_insert_ne hk]

theorem Pruned.onUnsubscribe (h : Pruned sinks) (req : UnsubscribeMessage) (c : Conn) :
    Pruned (onUnsubscribe sinks req c) := by
  rw [SinkTables.onUnsubscribe]
  cases hobject : sinks.lookup req.object with
  | none => exact h
  | some table =>
    dsimp only
    cases hevent : table.lookup req.eventName with
    | none => exact h
    | some conns =>
      intro object table' htable
      rw [lookup_prune] at htable
      by_cases ho : object = req.object
      · rw [if_pos ho, Option.ite_none_left_eq_some, Option.some.injEq] at htable
        obtain ⟨hne, rfl⟩ := htable
        refine ⟨fun hnone => hne (congrArg AList.entries hnone), ?_⟩
        intro event conns' hconns
        rw [lookup_prune] at hconns
        by_cases he : event = req.eventName
        · rw [if_pos he, Option.ite_none_left_eq_some, Option.some.injEq] at hconns
          obtain ⟨hne, rfl⟩ := hconns
          exact fun hnone => hne (congrArg AList.entries hnone)
        · rw [if_neg he] at hconns
          exact (h req.object table hobject).2 event conns' hconns
      · rw [if_neg ho] at htable
        exact h object table' htable

theorem Pruned.onConnectionClosed (c : Conn) : Pruned (onConnectionClosed sinks c) := by
  intro object table htable
  rw [SinkTables.onConnectionClosed, Dict.lookup_sweep, Option.bind_eq_some_iff] at htable
  obtain ⟨table', -, htable⟩ := htable
  rw [Option.ite_none_left_eq_some, Option.some.injEq, isEmpty_iff] at htable
  obtain ⟨hne, rfl⟩ := htable
  refine ⟨hne, ?_⟩
  intro event conns hconns
  rw [sweepEvents, Dict.lookup_sweep, Option.bind_eq_some_iff] at hconns
  obtain ⟨conns', -, hconns⟩ := hconns
  rw [Option.ite_none_left_eq_some, Option.some.injEq, isEmpty_iff] at hconns
  obtain ⟨hne, rfl⟩ := hconns
  exact hne

theorem Pruned.applyCall (h : Pruned sinks) (host : Host) (call : SinkCall Conn Sink) :
    Pruned (applyCall host sinks call) := by
  cases call with
  | onSubscribe req sink c => cases host <;> exact h.onSubscribe req sink c
  | onUnsubscribe req c => cases host <;> exact h.onUnsubscribe req c
  | onConnectionClosed c => cases host <;> exact Pruned.onConnectionClosed c

end Pruned

/-! ## Every sequence of calls -/

theorem tableAfter_concat (host : Host) (calls : List (SinkCall Conn Sink))
    (call : SinkCall Conn Sink) :
    tableAfter host (calls ++ [call]) = applyCall host (tableAfter host calls) call := by
  simp [tableAfter, List.foldl_append]

/-- A place holds a sink exactly when it has been subscribed and not been withdrawn since. -/
theorem sinkAt_tableAfter_isSome (host : Host) (calls : List (SinkCall Conn Sink)) (key : EventKey)
    (c : Conn) :
    (sinkAt (tableAfter host calls) key c).isSome ↔
      Since (Subscribes key c) (Withdraws key c) calls := by
  induction calls using List.reverseRecOn with
  | nil => exact iff_of_false (by simp [tableAfter, sinkAt]) Since.not_nil
  | append_singleton calls call ih =>
    rw [tableAfter_concat, sinkAt_applyCall, Since.concat_iff, ← ih]
    cases call with
    | onSubscribe req sink c' =>
      by_cases hplace : (req.object, req.eventName) = key ∧ c' = c
      · simp [sinkAfter, Subscribes, hplace]
      · simp [sinkAfter, Subscribes, Withdraws, hplace]
    | onUnsubscribe req c' =>
      by_cases hplace : (req.object, req.eventName) = key ∧ c' = c
      · simp [sinkAfter, Subscribes, Withdraws, hplace]
      · simp [sinkAfter, Subscribes, Withdraws, hplace]
    | onConnectionClosed c' =>
      by_cases hplace : c' = c
      · simp [sinkAfter, Subscribes, Withdraws, hplace]
      · simp [sinkAfter, Subscribes, Withdraws, hplace]

theorem pruned_tableAfter (host : Host) (calls : List (SinkCall Conn Sink)) :
    Pruned (tableAfter host calls) := by
  induction calls using List.reverseRecOn with
  | nil =>
    intro object table htable
    cases htable
  | append_singleton calls call ih =>
    rw [tableAfter_concat]
    exact ih.applyCall host call

/-- A call concerns its own connection only. -/
theorem sinkAt_applyCall_of_ne (host : Host) (sinks : Table Conn Sink)
    (call : SinkCall Conn Sink) (key : EventKey) {c : Conn} (hc : c ≠ call.connectionId) :
    sinkAt (applyCall host sinks call) key c = sinkAt sinks key c := by
  have hne : call.connectionId ≠ c := Ne.symm hc
  rw [sinkAt_applyCall]
  cases call with
  | onSubscribe req sink c' => exact if_neg fun h => hne h.2
  | onUnsubscribe req c' => exact if_neg fun h => hne h.2
  | onConnectionClosed c' => exact if_neg hne

theorem applyCall_host (host host' : Host) (sinks : Table Conn Sink) (call : SinkCall Conn Sink) :
    applyCall host sinks call = applyCall host' sinks call := by
  cases call <;> cases host <;> cases host' <;> rfl

/-- **The sink table of a host.**  After any sequence of calls the table holds a sink for an
object, an event and a connection exactly when the connection has subscribed it, and has neither
unsubscribed it nor been closed since; no inner map is empty; each call leaves the sinks of every
other connection; and both hosts build the same table. -/
theorem sinkTable_exact (host : Host) (calls : List (SinkCall Conn Sink)) :
    (∀ key c, (sinkAt (tableAfter host calls) key c).isSome ↔
      Since (Subscribes key c) (Withdraws key c) calls) ∧
    Pruned (tableAfter host calls) ∧
    (∀ call key c, c ≠ SinkCall.connectionId call →
      sinkAt (applyCall host (tableAfter host calls) call) key c =
        sinkAt (tableAfter host calls) key c) ∧
    tableAfter .plain calls = tableAfter .web calls := by
  refine ⟨sinkAt_tableAfter_isSome host calls, pruned_tableAfter host calls, ?_, ?_⟩
  · intro call key c hc
    exact sinkAt_applyCall_of_ne host _ call key hc
  · exact List.foldl_ext _ _ _ fun sinks call _ => applyCall_host .plain .web sinks call

/-! ## The network's table -/

/-- The table of the network is the table of sinks that write to their own connections. -/
theorem sinkAt_network (sinks : Subscriptions.Sinks Conn) (key : EventKey) (c : Conn) :
    (connections sinks key).lookup c = sinkAt sinks key c := rfl

theorem onSubscribe_network (sinks : Subscriptions.Sinks Conn) (req : SubscribeMessage) (c : Conn) :
    Subscriptions.onSubscribe sinks req c = onSubscribe sinks req c c := rfl

theorem onUnsubscribe_network (sinks : Subscriptions.Sinks Conn) (req : UnsubscribeMessage)
    (c : Conn) : Subscriptions.onUnsubscribe sinks req c = onUnsubscribe sinks req c := by
  rw [Subscriptions.onUnsubscribe, Subscriptions.dropSink, onUnsubscribe]
  cases hobject : sinks.lookup req.object with
  | none => rfl
  | some table =>
    cases hevent : table.lookup req.eventName with
    | none => simp only [hevent]
    | some conns => simp only [hevent]

/-- Sweeping key by key reads as sweeping map by map. -/
theorem onConnectionClosed_network (sinks : Subscriptions.Sinks Conn) (c c' : Conn)
    (key : EventKey) :
    Subscriptions.hasSink (Subscriptions.onConnectionClosed sinks c) key c' =
      (sinkAt (onConnectionClosed sinks c) key c').isSome := by
  rw [sinkAt_onConnectionClosed]
  by_cases hc : c = c'
  · subst hc
    simp [Subscriptions.hasSink_onConnectionClosed_self]
  · rw [if_neg hc, Subscriptions.hasSink_onConnectionClosed sinks c c' key (Ne.symm hc)]
    rfl

end LogosProtocol.SinkTables
