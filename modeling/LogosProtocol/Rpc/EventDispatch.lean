import LogosProtocol.Rpc.FanOut

/-!
# One event on three transports

A handle of the plain transport registers with its connection's peer, a handle of a Qt transport
with a helper of its own.  Each of the three dispatchers collects the registrations under the
event's name and those under the wildcard.  The two lists are one list for an event with an empty
name, which only the peer takes into account; and the peer knows names by their UTF-8.

## Main definitions

* `CallbackTable` — the callbacks of either helper.
* `EventHelper.onEventResponse`, `RemoteEventHelper.onEventResponse`, `Peer.eventCallbacks` — the
  three dispatchers.
* `DispatchesOnce` — each matching registration once, every other one never.
-/

namespace LogosProtocol

namespace Qt

/-- `m_callbacks` of a helper. -/
structure CallbackTable where
  callbacks : QHash QString (List ℕ) := ∅

namespace CallbackTable

def addCallback (t : CallbackTable) (eventName : QString) (cb : ℕ) : CallbackTable :=
  { t with callbacks := t.callbacks.push eventName cb }

/-- The callbacks that an event invokes, in order. -/
def onEventResponse (t : CallbackTable) (eventName : QString) : List ℕ :=
  (t.callbacks.lookup eventName).getD [] ++ (t.callbacks.lookup []).getD []

/-- Registrations under these names, each with its place in the list as its callback. -/
def register (names : List QString) : CallbackTable :=
  names.zipIdx.foldl (fun t r => t.addCallback r.1 r.2) {}

end CallbackTable

/-- The helper of the local transport. -/
def EventHelper.onEventResponse (t : CallbackTable) (eventName : QString) : List ℕ :=
  t.onEventResponse eventName

/-- The helper of the remote transport. -/
def RemoteEventHelper.onEventResponse (t : CallbackTable) (eventName : QString) : List ℕ :=
  t.onEventResponse eventName

end Qt

namespace Subscriptions.Peer

/-- `onEvent` of a plain handle for an object. -/
def onEvent (p : Peer) (object : Bytes) (eventName : QString) (callback : ℕ) : Peer :=
  (p.fetchSubId.sendSubscribe p.nextSubId
    { object := object, eventName := eventName.toUtf8 } callback).1

/-- Registrations under these names, each with its place in the list as its callback. -/
def register (object : Bytes) (names : List QString) : Peer :=
  names.zipIdx.foldl (fun p r => p.onEvent object r.1 r.2) {}

/-- The callbacks that an event of an object invokes, in order. -/
def eventCallbacks (p : Peer) (object : Bytes) (eventName : QString) (data : List RpcValue) :
    List ℕ :=
  (p.dispatchEvent { object := object, eventName := eventName.toUtf8, data := data }).map
    fun r => r.2.callback

section held
variable (p : Peer) {key : EventKey} {r : EventKey × EventSubscription}

/-- The registration is there, under the id that comes next. -/
theorem mem_collect_onEvent (object : Bytes) (eventName : QString) (callback : ℕ) :
    ((object, eventName.toUtf8), ⟨p.nextSubId, callback⟩) ∈
      (p.onEvent object eventName callback).collect (object, eventName.toUtf8) := by
  refine List.mem_map.mpr ⟨⟨p.nextSubId, callback⟩, ?_, rfl⟩
  simp [onEvent, sendSubscribe, fetchSubId]

/-- Nobody's registration goes with another one. -/
theorem mem_collect_onEvent_of_mem (h : r ∈ p.collect key) (object : Bytes) (eventName : QString)
    (callback : ℕ) : r ∈ (p.onEvent object eventName callback).collect key := by
  obtain ⟨sub, hsub, rfl⟩ := List.mem_map.mp h
  refine List.mem_map.mpr ⟨sub, ?_, rfl⟩
  simp only [onEvent, sendSubscribe, fetchSubId]
  by_cases hkey : key = (object, eventName.toUtf8)
  · subst hkey
    rw [AList.lookup_insert, Option.getD_some]
    exact List.mem_append_left _ hsub
  · rwa [AList.lookup_insert_ne hkey]

theorem nextSubId_sendUnsubscribe (sid : ℕ) :
    (p.sendUnsubscribe sid).1.nextSubId = p.nextSubId := by
  unfold sendUnsubscribe
  cases p.subKeys.lookup sid with
  | none => rfl
  | some key =>
    dsimp only
    cases p.eventSubs.lookup key with
    | none => rfl
    | some subs =>
      dsimp only
      split_ifs <;> rfl

/-- A registration goes under its own id. -/
theorem mem_collect_sendUnsubscribe (h : r ∈ p.collect key) {sid : ℕ} (hne : r.2.id ≠ sid) :
    r ∈ (p.sendUnsubscribe sid).1.collect key := by
  obtain ⟨sub, hsub, rfl⟩ := List.mem_map.mp h
  refine List.mem_map.mpr ⟨sub, ?_, rfl⟩
  unfold sendUnsubscribe
  cases p.subKeys.lookup sid with
  | none => exact hsub
  | some key' =>
    dsimp only
    cases hsubs : p.eventSubs.lookup key' with
    | none => exact hsub
    | some subs =>
      by_cases hkey : key = key'
      · subst hkey
        rw [hsubs, Option.getD_some] at hsub
        have hrest : sub ∈ subs.filter fun s => s.id ≠ sid :=
          List.mem_filter.mpr ⟨hsub, by simpa using hne⟩
        dsimp only
        rw [if_pos (List.ne_nil_of_mem hrest)]
        dsimp only
        rwa [AList.lookup_insert, Option.getD_some]
      · dsimp only
        split_ifs
        · dsimp only
          rwa [AList.lookup_insert_ne hkey]
        · dsimp only
          rwa [AList.lookup_erase_ne hkey]

/-- An event invokes what is registered under its name. -/
theorem mem_eventCallbacks {object : Bytes} {eventName : QString}
    (h : r ∈ p.collect (object, eventName.toUtf8)) (data : List RpcValue) :
    r.2.callback ∈ p.eventCallbacks object eventName data :=
  List.mem_map.mpr ⟨r, List.mem_append_left _ h, rfl⟩

end held

end Subscriptions.Peer

/-- Each registration whose name is the event's or the wildcard is invoked exactly once, and every
other one never. -/
def DispatchesOnce (names : List QString) (eventName : QString) (invoked : List ℕ) : Prop :=
  ∀ i, invoked.count i = if names[i]?.any fun name => name = eventName ∨ name = [] then 1 else 0

/-! ## Registrations by place -/

/-- The places of the names that a list is filtered for. -/
def placesOf (names : List QString) (P : QString → Bool) : List ℕ :=
  (names.zipIdx.filter fun r => P r.1).map Prod.snd

/-- Each place once. -/
theorem count_placesOf (names : List QString) (P : QString → Bool) (i : ℕ) :
    (placesOf names P).count i = if names[i]?.any P then 1 else 0 := by
  have hplaces : (names.zipIdx.map Prod.snd).Nodup := by
    rw [List.zipIdx_map_snd]
    exact List.nodup_range'
  have hnodup : (placesOf names P).Nodup :=
    hplaces.sublist (List.filter_sublist.map Prod.snd)
  have hmem : i ∈ placesOf names P ↔ names[i]?.any P = true := by
    simp only [placesOf, List.mem_map, List.mem_filter, Prod.exists, exists_eq_right,
      List.mk_mem_zipIdx_iff_getElem?, Option.any_eq_true]
  rw [hnodup.count]
  exact if_congr hmem rfl rfl

namespace Qt.CallbackTable

/-- Under each name, the registrations with that name. -/
theorem lookup_register (names : List QString) (eventName : QString) :
    ((register names).callbacks.lookup eventName).getD [] =
      placesOf names fun name => eventName = name := by
  have hfold : ∀ (rs : List (QString × ℕ)) (t : CallbackTable),
      (rs.foldl (fun t r => t.addCallback r.1 r.2) t).callbacks =
        rs.foldl (fun d r => d.push r.1 r.2) t.callbacks := by
    intro rs
    induction rs with
    | nil => exact fun t => rfl
    | cons r rs ih => exact fun t => ih (t.addCallback r.1 r.2)
  rw [register, hfold, Dict.getD_lookup_foldl_push]
  simp [placesOf]

/-- A helper invokes a registration once for each of the two lists it is in. -/
theorem count_onEventResponse (names : List QString) (eventName : QString) (i : ℕ) :
    ((register names).onEventResponse eventName).count i =
      (if names[i]?.any fun name => eventName = name then 1 else 0) +
        if names[i]?.any fun name => [] = name then 1 else 0 := by
  rw [onEventResponse, lookup_register, lookup_register, List.count_append, count_placesOf,
    count_placesOf]

end Qt.CallbackTable

namespace Subscriptions.Peer

/-- Under each key, the registrations whose name has that UTF-8. -/
theorem callbacks_register (object eventName : Bytes) (names : List QString) :
    (((register object names).eventSubs.lookup (object, eventName)).getD []).map
        EventSubscription.callback =
      placesOf names fun name => eventName = name.toUtf8 := by
  have hfold : ∀ (rs : List (QString × ℕ)) (p : Peer),
      (((rs.foldl (fun p r => p.onEvent object r.1 r.2) p).eventSubs.lookup
          (object, eventName)).getD []).map EventSubscription.callback =
        ((p.eventSubs.lookup (object, eventName)).getD []).map EventSubscription.callback ++
          (rs.filter fun r => eventName = r.1.toUtf8).map Prod.snd := by
    intro rs
    induction rs with
    | nil => simp
    | cons r rs ih =>
      intro p
      have hone : ((p.onEvent object r.1 r.2).eventSubs.lookup (object, eventName)).getD [] =
          (p.eventSubs.lookup (object, eventName)).getD [] ++
            if (object, eventName) = (object, r.1.toUtf8) then [⟨p.nextSubId, r.2⟩] else [] :=
        Dict.getD_lookup_push ..
      rw [List.foldl_cons, ih, hone, List.map_append, List.append_assoc]
      by_cases hname : eventName = r.1.toUtf8
      · simp [hname]
      · simp [hname]
  rw [register, hfold]
  rfl

/-- The peer invokes a registration once if its name has the UTF-8 of the event's, or is empty. -/
theorem count_eventCallbacks (object : Bytes) (names : List QString) (eventName : QString)
    (data : List RpcValue) (i : ℕ) :
    ((register object names).eventCallbacks object eventName data).count i =
      if names[i]?.any fun name : QString => name.toUtf8 = eventName.toUtf8 ∨ name = [] then 1 else 0 := by
  have hkey : ∀ name : Bytes, ((register object names).collect (object, name)).map
      (fun r => r.2.callback) = placesOf names fun n => name = n.toUtf8 := by
    intro name
    rw [← callbacks_register object name names, collect, List.map_map]
    rfl
  have hwild : ∀ name : QString, ([] = name.toUtf8) ↔ name = [] := fun name => by
    rw [eq_comm, QString.toUtf8_eq_nil_iff]
  rw [eventCallbacks, dispatchEvent, List.map_append, List.count_append, hkey, count_placesOf]
  by_cases hevent : eventName = []
  · -- One list, visited once.
    simp [hevent, hwild, QString.toUtf8]
  · have hne : eventName.toUtf8 ≠ [] := mt (QString.toUtf8_eq_nil_iff eventName).mp hevent
    rw [if_neg hne, hkey, count_placesOf]
    cases hname : names[i]? with
    | none => rfl
    | some name =>
      by_cases hempty : name = []
      · subst hempty
        simp [QString.toUtf8, hne]
      · simp [hwild, hempty, eq_comm]

end Subscriptions.Peer

/-! ## When they agree -/

/-- A helper dispatches once, unless the event has an empty name and is waited for under it. -/
theorem onEventResponse_once_iff (names : List QString) (eventName : QString) :
    DispatchesOnce names eventName
        ((Qt.CallbackTable.register names).onEventResponse eventName) ↔
      eventName ≠ [] ∨ [] ∉ names := by
  constructor
  · intro honce
    by_contra hwild
    push Not at hwild
    obtain ⟨rfl, hmem⟩ := hwild
    obtain ⟨i, hi⟩ := List.mem_iff_getElem?.mp hmem
    have hcount := honce i
    rw [Qt.CallbackTable.count_onEventResponse] at hcount
    simp [hi] at hcount
  · intro hwild i
    rw [Qt.CallbackTable.count_onEventResponse]
    cases hname : names[i]? with
    | none => rfl
    | some name =>
      by_cases hempty : name = []
      · subst hempty
        have hevent : eventName ≠ [] :=
          hwild.resolve_right (not_not_intro (List.mem_of_getElem? hname))
        simp [hevent]
      · by_cases heq : name = eventName
        · subst heq
          simp [eq_comm, hempty]
        · simp [heq, hempty, Ne.symm heq]

/-- The peer dispatches once, unless a name is taken for the event's. -/
theorem eventCallbacks_once_iff (object : Bytes) (names : List QString) (eventName : QString)
    (data : List RpcValue) :
    DispatchesOnce names eventName
        ((Subscriptions.Peer.register object names).eventCallbacks object eventName data) ↔
      ∀ name ∈ names, name.toUtf8 = eventName.toUtf8 → name = eventName := by
  constructor
  · intro honce name hmem hutf8
    obtain ⟨i, hi⟩ := List.mem_iff_getElem?.mp hmem
    have hcount := honce i
    rw [Subscriptions.Peer.count_eventCallbacks] at hcount
    by_contra hne
    have hempty : name ≠ [] := by
      rintro rfl
      exact hne ((QString.toUtf8_eq_nil_iff eventName).mp hutf8.symm).symm
    simp [hi, hutf8, hne, hempty] at hcount
  · intro hsame i
    rw [Subscriptions.Peer.count_eventCallbacks]
    cases hname : names[i]? with
    | none => rfl
    | some name =>
      have hiff : name.toUtf8 = eventName.toUtf8 ↔ name = eventName :=
        ⟨hsame name (List.mem_of_getElem? hname), congrArg QString.toUtf8⟩
      simp [hiff]

/-- **One dispatch semantics.**  The three dispatchers invoke each matching registration once and
no other, exactly when the event has a name or nobody registered for the wildcard, and no name is
spelled in UTF-8 as the event's that is another. -/
theorem event_dispatch_once_iff (object : Bytes) (names : List QString) (eventName : QString)
    (data : List RpcValue) :
    (DispatchesOnce names eventName
        ((Subscriptions.Peer.register object names).eventCallbacks object eventName data) ∧
      DispatchesOnce names eventName
        (Qt.RemoteEventHelper.onEventResponse (Qt.CallbackTable.register names) eventName) ∧
      DispatchesOnce names eventName
        (Qt.EventHelper.onEventResponse (Qt.CallbackTable.register names) eventName)) ↔
      (eventName ≠ [] ∨ [] ∉ names) ∧
        ∀ name ∈ names, name.toUtf8 = eventName.toUtf8 → name = eventName := by
  have hhelper := onEventResponse_once_iff names eventName
  have hpeer := eventCallbacks_once_iff object names eventName data
  rw [hpeer, Qt.RemoteEventHelper.onEventResponse, Qt.EventHelper.onEventResponse, hhelper]
  exact ⟨fun h => ⟨h.2.1, h.1⟩, fun h => ⟨h.2, h.1, h.1⟩⟩

/-- One wildcard registration and an event with an empty name: the helpers invoke it twice. -/
theorem wildcard_invoked_twice :
    (Subscriptions.Peer.register (bstr "o") [[]]).eventCallbacks (bstr "o") [] [] = [0] ∧
      Qt.RemoteEventHelper.onEventResponse (Qt.CallbackTable.register [[]]) [] = [0, 0] ∧
      Qt.EventHelper.onEventResponse (Qt.CallbackTable.register [[]]) [] = [0, 0] ∧
      ¬ DispatchesOnce [[]] []
        (Qt.RemoteEventHelper.onEventResponse (Qt.CallbackTable.register [[]]) []) := by
  refine ⟨rfl, rfl, rfl, fun honce => ?_⟩
  exact absurd (honce 0) (by decide)

end LogosProtocol
