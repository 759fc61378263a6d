import LogosProtocol.Lib.OrderedChannel
import LogosProtocol.Rpc.Subscriptions

/-!
# The host agrees with every open connection

A connection's frames assign "sink" or "no sink" to a key, in order.  The invariant is about
the sink a key will have once the frames in flight have arrived: it is there exactly when
the peer has a live registration.  Both critical sections decide and write under one lock,
so each keeps this; a delivery does not change it; and on a drained connection it is the
agreement itself.

## Main definitions

* `Peer.Indexed` — the two registries of a peer hold its live registrations.
* `Agrees` — the invariant of one connection.
-/

namespace LogosProtocol.Subscriptions

/-- What a frame makes of a key's sink. -/
def SubscriptionFrame.assigns : SubscriptionFrame → EventKey × Bool
  | .subscribe m => ((m.object, m.eventName), true)
  | .unsubscribe m => ((m.object, m.eventName), false)

/-- The registries of a peer hold its live registrations, under ids that were fetched. -/
structure Peer.Indexed (p : Peer) (live : ℕ → EventKey → Prop) : Prop where
  subKeys : ∀ sid key, p.subKeys.lookup sid = some key ↔ live sid key
  eventSubs : ∀ sid key, (∃ subs, p.eventSubs.lookup key = some subs ∧
    sid ∈ subs.map EventSubscription.id) ↔ live sid key
  nonempty : ∀ key subs, p.eventSubs.lookup key = some subs → subs ≠ []
  fresh : ∀ sid ∈ p.fetched, ∀ key, ¬ live sid key
  issued : ∀ sid, (sid ∈ p.fetched ∨ ∃ key, live sid key) → sid < p.nextSubId
  distinct : p.fetched.Nodup

variable {Conn : Type} [DecidableEq Conn]

/-! ## The sinks -/

section sinks
variable (sinks : Sinks Conn)

theorem connections_assignSink (c : Conn) (key key' : EventKey) :
    connections (assignSink sinks key c) key' =
      if key' = key then (connections sinks key).insert c c else connections sinks key' := by
  obtain ⟨object, event⟩ := key
  obtain ⟨object', event'⟩ := key'
  by_cases ho : object' = object
  · subst ho
    by_cases he : event' = event
    · subst he
      simp [connections, assignSink]
    · simp [connections, assignSink, AList.lookup_insert_ne he, he]
  · simp [connections, assignSink, AList.lookup_insert_ne ho, ho]

theorem connections_dropSink (c : Conn) (key key' : EventKey) :
    connections (dropSink sinks key c) key' =
      if key' = key then (connections sinks key).erase c else connections sinks key' := by
  obtain ⟨object, event⟩ := key
  obtain ⟨object', event'⟩ := key'
  have herase : (∅ : Dict Conn Conn).erase c = ∅ := rfl
  cases hobject : sinks.lookup object with
  | none =>
    simp only [dropSink, hobject]
    split_ifs with hkey
    · obtain ⟨rfl, rfl⟩ := Prod.mk.inj hkey
      simp [connections, hobject, herase]
    · rfl
  | some table =>
    cases hevent : table.lookup event with
    | none =>
      simp only [dropSink, hobject, hevent]
      split_ifs with hkey
      · obtain ⟨rfl, rfl⟩ := Prod.mk.inj hkey
        simp [connections, hobject, hevent, herase]
      · rfl
    | some conns =>
      simp only [dropSink, hobject, hevent, connections, Dict.getD_lookup_prune, Option.getD_some,
        Prod.mk.injEq]
      by_cases ho : object' = object
      · by_cases he : event' = event
        · simp only [ho, he, if_true, Dict.getD_lookup_prune]
          simp
        · subst ho
          simp only [if_true, Dict.getD_lookup_prune, he, hobject]
          simp
      · simp [ho]

theorem hasSink_assignSink (c c' : Conn) (key key' : EventKey) :
    hasSink (assignSink sinks key c) key' c' =
      if key' = key ∧ c' = c then true else hasSink sinks key' c' := by
  rw [hasSink, connections_assignSink]
  by_cases hkey : key' = key
  · subst hkey
    by_cases hc : c' = c
    · subst hc
      simp
    · simp [hc, AList.lookup_insert_ne hc, hasSink]
  · simp [hkey, hasSink]

theorem hasSink_dropSink (c c' : Conn) (key key' : EventKey) :
    hasSink (dropSink sinks key c) key' c' =
      if key' = key ∧ c' = c then false else hasSink sinks key' c' := by
  rw [hasSink, connections_dropSink]
  by_cases hkey : key' = key
  · subst hkey
    by_cases hc : c' = c
    · subst hc
      simp
    · simp [hc, AList.lookup_erase_ne hc, hasSink]
  · simp [hkey, hasSink]

/-- The sweep of a connection leaves the sinks of every other one. -/
theorem hasSink_onConnectionClosed (c c' : Conn) (key : EventKey) (hc : c' ≠ c) :
    hasSink (onConnectionClosed sinks c) key c' = hasSink sinks key c' := by
  unfold onConnectionClosed
  generalize (sinks.entries.flatMap fun o => o.2.keys.map fun event => (o.1, event)) = keys
  induction keys generalizing sinks with
  | nil => rfl
  | cons k keys ih =>
    rw [List.foldl_cons, ih, hasSink_dropSink]
    simp [hc]

/-- Dropping a connection's sinks for some keys leaves those for the others. -/
theorem hasSink_foldl_dropSink (c : Conn) (keys : List EventKey) (key : EventKey) :
    hasSink (keys.foldl (fun sinks key => dropSink sinks key c) sinks) key c =
      (hasSink sinks key c && key ∉ keys) := by
  induction keys generalizing sinks with
  | nil => simp
  | cons k keys ih =>
    rw [List.foldl_cons, ih, hasSink_dropSink]
    by_cases hk : key = k
    · simp [hk]
    · simp [hk]

/-- A key with a sink is among those the sweep goes over. -/
theorem mem_swept_of_hasSink {c : Conn} {key : EventKey} (h : hasSink sinks key c = true) :
    key ∈ sinks.entries.flatMap fun o => o.2.keys.map fun event => (o.1, event) := by
  obtain ⟨object, event⟩ := key
  simp only [hasSink, connections] at h
  cases hobject : sinks.lookup object with
  | none => simp [hobject] at h
  | some table =>
    have hentry : (⟨object, table⟩ : Sigma fun _ : Bytes => Dict Bytes (Dict Conn Conn)) ∈
        sinks.entries := AList.mem_lookup_iff.mp hobject
    have hevent : event ∈ table := by
      by_contra hnot
      rw [hobject, Option.getD_some, AList.lookup_eq_none.mpr hnot] at h
      simp at h
    exact List.mem_flatMap.mpr ⟨_, hentry, List.mem_map.mpr ⟨event, hevent, rfl⟩⟩

/-- The sweep of a connection leaves it no sink. -/
theorem hasSink_onConnectionClosed_self (c : Conn) (key : EventKey) :
    hasSink (onConnectionClosed sinks c) key c = false := by
  rw [onConnectionClosed, hasSink_foldl_dropSink]
  by_cases h : hasSink sinks key c = true
  · simp [mem_swept_of_hasSink sinks h]
  · simp [h]

end sinks

/-! ## The registries of one peer -/

section registry
variable {p : Peer} {live : ℕ → EventKey → Prop}

/-- A registration has one key. -/
theorem Peer.Indexed.key_unique (hp : p.Indexed live) {sid : ℕ} {key key' : EventKey}
    (h : live sid key) (h' : live sid key') : key = key' := by
  rw [← hp.subKeys] at h h'
  rw [h] at h'
  exact Option.some.inj h'

theorem Peer.Indexed.fetchSubId (hp : p.Indexed live) : p.fetchSubId.Indexed live where
  subKeys := hp.subKeys
  eventSubs := hp.eventSubs
  nonempty := hp.nonempty
  fresh := by
    intro sid hsid key hlive
    rw [Peer.fetchSubId, List.mem_cons] at hsid
    cases hsid with
    | inl heq =>
      have hlt := hp.issued sid (.inr ⟨key, hlive⟩)
      omega
    | inr hmem => exact hp.fresh sid hmem key hlive
  issued := by
    intro sid h
    simp only [Peer.fetchSubId, List.mem_cons] at h ⊢
    obtain (heq | hmem) | hlive := h
    · omega
    · have hlt := hp.issued sid (.inl hmem)
      omega
    · have hlt := hp.issued sid (.inr hlive)
      omega
  distinct := by
    rw [Peer.fetchSubId, List.nodup_cons]
    refine ⟨?_, hp.distinct⟩
    intro hmem
    have hlt := hp.issued p.nextSubId (.inl hmem)
    omega

/-- A registration is filed in both registries. -/
theorem Peer.Indexed.sendSubscribe (hp : p.Indexed live) {sid : ℕ} (hsid : sid ∈ p.fetched)
    (msg : SubscribeMessage) (callback : ℕ) :
    (p.sendSubscribe sid msg callback).1.Indexed
      fun sid' key => live sid' key ∨ (sid' = sid ∧ key = (msg.object, msg.eventName)) where
  subKeys := by
    have hnone : p.subKeys.lookup sid = none := by
      cases hlookup : p.subKeys.lookup sid with
      | none => rfl
      | some key => exact absurd ((hp.subKeys sid key).mp hlookup) (hp.fresh sid hsid key)
    have hnot : sid ∉ p.subKeys := AList.lookup_eq_none.mp hnone
    intro sid' key
    simp only [Peer.sendSubscribe, hnot, if_false]
    by_cases hs : sid' = sid
    · subst hs
      have hfresh := hp.fresh sid' hsid key
      simp [hfresh, eq_comm]
    · rw [AList.lookup_insert_ne hs, hp.subKeys]
      simp [hs]
  eventSubs := by
    intro sid' key
    simp only [Peer.sendSubscribe]
    by_cases hk : key = (msg.object, msg.eventName)
    · subst hk
      have hold := hp.eventSubs sid' (msg.object, msg.eventName)
      cases hlookup : p.eventSubs.lookup (msg.object, msg.eventName) with
      | none =>
        simp only [hlookup] at hold
        simp [← hold, eq_comm]
      | some subs =>
        simp only [hlookup, Option.some.injEq, exists_eq_left'] at hold
        simp [← hold, eq_comm]
    · rw [AList.lookup_insert_ne hk, hp.eventSubs]
      simp [hk]
  nonempty := by
    intro key subs
    simp only [Peer.sendSubscribe]
    by_cases hk : key = (msg.object, msg.eventName)
    · subst hk
      rw [AList.lookup_insert, Option.some.injEq]
      intro h
      simp [← h]
    · rw [AList.lookup_insert_ne hk]
      exact hp.nonempty key subs
  fresh := by
    intro sid' hmem key hlive
    simp only [Peer.sendSubscribe] at hmem
    cases hlive with
    | inl hlive => exact hp.fresh sid' (List.mem_of_mem_erase hmem) key hlive
    | inr heq =>
      rw [heq.1, hp.distinct.mem_erase_iff] at hmem
      exact hmem.1 rfl
  issued := by
    intro sid' h
    simp only [Peer.sendSubscribe] at h ⊢
    obtain hmem | ⟨key, hlive | heq⟩ := h
    · exact hp.issued sid' (.inl (List.mem_of_mem_erase hmem))
    · exact hp.issued sid' (.inr ⟨key, hlive⟩)
    · rw [heq.1]
      exact hp.issued sid (.inl hsid)
  distinct := by
    simp only [Peer.sendSubscribe]
    exact hp.distinct.erase sid

theorem Peer.stopped_sendUnsubscribe (p : Peer) (sid : ℕ) :
    (p.sendUnsubscribe sid).1.stopped = p.stopped := by
  unfold Peer.sendUnsubscribe
  cases p.subKeys.lookup sid with
  | none => rfl
  | some key =>
    dsimp only
    cases p.eventSubs.lookup key with
    | none => rfl
    | some subs =>
      dsimp only
      split_ifs
      · rfl
      · rfl

/-- What the last withdrawal of a key leaves of its list, and any other. -/
theorem mem_filter_id_iff (subs : List EventSubscription) (sid sid' : ℕ) :
    sid' ∈ (subs.filter fun s => s.id ≠ sid).map EventSubscription.id ↔
      sid' ∈ subs.map EventSubscription.id ∧ sid' ≠ sid := by
  simp only [List.mem_map, List.mem_filter, decide_eq_true_eq]
  constructor
  · intro ⟨s, ⟨hs, hne⟩, heq⟩
    exact ⟨⟨s, hs, heq⟩, heq ▸ hne⟩
  · intro ⟨⟨s, hs, heq⟩, hne⟩
    exact ⟨s, ⟨hs, heq ▸ hne⟩, heq⟩

/-- Erasing a registration, with its key's list replaced or dropped when that is empty. -/
theorem Peer.Indexed.withdraw (hp : p.Indexed live) {sid : ℕ} {key : EventKey}
    (hkey : live sid key) {subs rest : List EventSubscription}
    (hsubs : p.eventSubs.lookup key = some subs)
    (hrest : rest = subs.filter fun s => s.id ≠ sid)
    {eventSubs : Dict EventKey (List EventSubscription)}
    (heventSubs : (rest ≠ [] ∧ eventSubs = p.eventSubs.insert key rest) ∨
      (rest = [] ∧ eventSubs = p.eventSubs.erase key)) :
    ({ p with subKeys := p.subKeys.erase sid, eventSubs := eventSubs } : Peer).Indexed
      fun sid' key' => live sid' key' ∧ sid' ≠ sid where
  subKeys := by
    intro sid' key'
    by_cases hs : sid' = sid
    · subst hs
      simp
    · simp only [AList.lookup_erase_ne hs, hp.subKeys]
      simp [hs]
  eventSubs := by
    intro sid' key'
    by_cases hk : key' = key
    · subst hk
      have hold := hp.eventSubs sid' key'
      simp only [hsubs, Option.some.injEq, exists_eq_left'] at hold
      rw [← hold, ← mem_filter_id_iff, ← hrest]
      obtain ⟨_, rfl⟩ | ⟨hnil, rfl⟩ := heventSubs
      · simp
      · simp [hnil]
    · have hsame : eventSubs.lookup key' = p.eventSubs.lookup key' := by
        obtain ⟨_, rfl⟩ | ⟨_, rfl⟩ := heventSubs
        · exact AList.lookup_insert_ne hk
        · exact AList.lookup_erase_ne hk
      have hother : live sid' key' → sid' ≠ sid := by
        intro hlive heq
        rw [heq] at hlive
        exact hk (hp.key_unique hlive hkey)
      simp only [hsame, hp.eventSubs]
      exact ⟨fun h => ⟨h, hother h⟩, fun h => h.1⟩
  nonempty := by
    intro key' subs'
    by_cases hk : key' = key
    · subst hk
      obtain ⟨hne, rfl⟩ | ⟨_, rfl⟩ := heventSubs
      · simp only [AList.lookup_insert, Option.some.injEq]
        intro h
        rwa [← h]
      · simp
    · obtain ⟨_, rfl⟩ | ⟨_, rfl⟩ := heventSubs
      · simp only [AList.lookup_insert_ne hk]
        exact hp.nonempty key' subs'
      · simp only [AList.lookup_erase_ne hk]
        exact hp.nonempty key' subs'
  fresh := fun sid' hmem key' hlive => hp.fresh sid' hmem key' hlive.1
  issued := by
    intro sid' h
    obtain hmem | ⟨key', hlive⟩ := h
    · exact hp.issued sid' (.inl hmem)
    · exact hp.issued sid' (.inr ⟨key', hlive.1⟩)
  distinct := hp.distinct

/-- **A withdrawal keeps the registries, and says so on the wire exactly when it was the last
one of its key.** -/
theorem Peer.Indexed.sendUnsubscribe (hp : p.Indexed live) (sid : ℕ) :
    (p.sendUnsubscribe sid).1.Indexed (fun sid' key => live sid' key ∧ sid' ≠ sid) ∧
      (((p.sendUnsubscribe sid).2 = [] ∧ ∀ key,
          (∃ sid', live sid' key ∧ sid' ≠ sid) ↔ ∃ sid', live sid' key) ∨
        ∃ key, (p.sendUnsubscribe sid).2 = [.unsubscribe ⟨key.1, key.2⟩] ∧ live sid key ∧
          ¬ ∃ sid', live sid' key ∧ sid' ≠ sid) := by
  cases hkey : p.subKeys.lookup sid with
  | none =>
    have hnone : ∀ key, ¬ live sid key := by
      intro key hlive
      rw [(hp.subKeys sid key).mpr hlive] at hkey
      cases hkey
    have hother : ∀ sid' key, live sid' key → sid' ≠ sid :=
      fun sid' key hlive heq => hnone key (heq ▸ hlive)
    have hsame : (fun sid' key => live sid' key ∧ sid' ≠ sid) = live := by
      funext sid' key
      exact propext ⟨fun h => h.1, fun h => ⟨h, hother sid' key h⟩⟩
    simp only [Peer.sendUnsubscribe, hkey]
    rw [hsame]
    refine ⟨hp, .inl ⟨trivial, ?_⟩⟩
    intro key
    exact ⟨fun ⟨sid', h⟩ => ⟨sid', h.1⟩, fun ⟨sid', h⟩ => ⟨sid', h, hother sid' key h⟩⟩
  | some key =>
    have hlive : live sid key := (hp.subKeys sid key).mp hkey
    obtain ⟨subs, hsubs, _⟩ := (hp.eventSubs sid key).mpr hlive
    have hids : ∀ sid', live sid' key ↔ sid' ∈ subs.map EventSubscription.id := by
      intro sid'
      rw [← hp.eventSubs]
      simp [hsubs]
    have hremaining : (∃ sid', live sid' key ∧ sid' ≠ sid) ↔
        (subs.filter fun s => s.id ≠ sid) ≠ [] := by
      simp only [hids, ← mem_filter_id_iff]
      constructor
      · intro ⟨sid', hmem⟩ hnil
        rw [hnil] at hmem
        cases hmem
      · intro hne
        obtain ⟨sub, hsub⟩ := List.exists_mem_of_ne_nil _ hne
        exact ⟨sub.id, List.mem_map_of_mem hsub⟩
    by_cases hrest : (subs.filter fun s => s.id ≠ sid) ≠ []
    · -- Still wanted: nothing is written, and every key keeps a registration.
      simp only [Peer.sendUnsubscribe, hkey, hsubs, hrest, if_true, not_false_iff, ne_eq]
      refine ⟨hp.withdraw hlive hsubs rfl (.inl ⟨hrest, rfl⟩), .inl ⟨trivial, ?_⟩⟩
      intro key'
      constructor
      · intro ⟨sid', h⟩
        exact ⟨sid', h.1⟩
      · intro ⟨sid', h⟩
        by_cases hs : sid' = sid
        · rw [hs] at h
          rw [hp.key_unique h hlive]
          exact hremaining.mpr hrest
        · exact ⟨sid', h, hs⟩
    · have hnil : (subs.filter fun s => s.id ≠ sid) = [] := not_not.mp hrest
      simp only [Peer.sendUnsubscribe, hkey, hsubs, hrest, if_false]
      refine ⟨hp.withdraw hlive hsubs rfl (.inr ⟨hnil, rfl⟩), .inr ⟨key, rfl, hlive, ?_⟩⟩
      rw [hremaining]
      exact hrest

end registry

/-! ## One connection -/

/-- The live registrations of one connection. -/
def liveOn (live : Set (Conn × ℕ × EventKey)) (c : Conn) (sid : ℕ) (key : EventKey) : Prop :=
  (c, sid, key) ∈ live

/-- The registries hold the live registrations, and each key will have a sink, once the
frames in flight have arrived, exactly when it has a live registration. -/
structure Agrees (s : State Conn) (live : Set (Conn × ℕ × EventKey)) (c : Conn) : Prop where
  indexed : (s.peer c).Indexed (liveOn live c)
  sinks : ∀ key, afterDelivery ((s.wire c).map SubscriptionFrame.assigns) key
    (hasSink s.sinks key c) = true ↔ ∃ sid, liveOn live c sid key

/-- A connection whose own parts did not change still agrees. -/
theorem Agrees.of_same {s s' : State Conn} {live live' : Set (Conn × ℕ × EventKey)} {c : Conn}
    (h : Agrees s live c) (hpeer : s'.peer c = s.peer c) (hwire : s'.wire c = s.wire c)
    (hsinks : ∀ key, hasSink s'.sinks key c = hasSink s.sinks key c)
    (hlive : liveOn live' c = liveOn live c) : Agrees s' live' c where
  indexed := by
    rw [hpeer, hlive]
    exact h.indexed
  sinks := by
    intro key
    rw [hwire, hsinks, hlive]
    exact h.sinks key

/-- What one connection writes does not concern another. -/
theorem Agrees.write_of_ne {s : State Conn} {live live' : Set (Conn × ℕ × EventKey)}
    {c c₀ : Conn} (h : Agrees s live c) (hc : c ≠ c₀) (p : Peer)
    (frames : List SubscriptionFrame) (hlive : liveOn live' c = liveOn live c) :
    Agrees (s.write c₀ p frames) live' c := by
  refine h.of_same ?_ ?_ (fun _ => rfl) hlive
  · exact Function.update_of_ne hc ..
  · simp only [State.write]
    split_ifs
    · rfl
    · exact Function.update_of_ne hc ..

omit [DecidableEq Conn] in
theorem liveOn_liveAfter_of_ne (live : Set (Conn × ℕ × EventKey)) {a : Action Conn} {c : Conn}
    (ha : ∀ sid msg callback, a ≠ .sendSubscribe c sid msg callback)
    (ha' : ∀ sid, a ≠ .sendUnsubscribe c sid) : liveOn (liveAfter live a) c = liveOn live c := by
  funext sid key
  cases a with
  | sendSubscribe c' sid' msg callback =>
    have hc : c ≠ c' := by
      intro h
      exact ha sid' msg callback (by rw [h])
    simp [liveOn, liveAfter, hc]
  | sendUnsubscribe c' sid' =>
    have hc : c ≠ c' := by
      intro h
      exact ha' sid' (by rw [h])
    simp [liveOn, liveAfter, hc]
  | _ => rfl

theorem agrees_sendSubscribe {s : State Conn} {live : Set (Conn × ℕ × EventKey)} {c : Conn}
    (h : Agrees s live c) (hopen : (s.peer c).stopped = false) {sid : ℕ}
    (hsid : sid ∈ (s.peer c).fetched) (msg : SubscribeMessage) (callback : ℕ) :
    Agrees (s.write c ((s.peer c).sendSubscribe sid msg callback).1
        ((s.peer c).sendSubscribe sid msg callback).2)
      (liveAfter live (.sendSubscribe c sid msg callback)) c := by
  have hlive : liveOn (liveAfter live (.sendSubscribe c sid msg callback)) c =
      fun sid' key => liveOn live c sid' key ∨ (sid' = sid ∧ key = (msg.object, msg.eventName)) := by
    funext sid' key
    simp [liveOn, liveAfter, Prod.ext_iff, or_comm]
  have hstopped : ((s.peer c).sendSubscribe sid msg callback).1.stopped = false := hopen
  constructor
  · rw [hlive]
    simp only [State.write, Function.update_self]
    exact h.indexed.sendSubscribe hsid msg callback
  · intro key
    have hold := h.sinks key
    rw [hlive]
    simp only [State.write, hstopped, Bool.false_eq_true, if_false, Function.update_self]
    simp only [Peer.sendSubscribe, List.map_append, List.map_cons, List.map_nil,
      afterDelivery_concat, SubscriptionFrame.assigns]
    by_cases hk : (msg.object, msg.eventName) = key
    · rw [if_pos hk]
      exact ⟨fun _ => ⟨sid, .inr ⟨rfl, hk.symm⟩⟩, fun _ => rfl⟩
    · have hk' : ¬ key = (msg.object, msg.eventName) := fun h => hk h.symm
      rw [if_neg hk, hold]
      simp [hk']

theorem agrees_sendUnsubscribe {s : State Conn} {live : Set (Conn × ℕ × EventKey)} {c : Conn}
    (h : Agrees s live c) (hopen : (s.peer c).stopped = false) (sid : ℕ) :
    Agrees (s.write c ((s.peer c).sendUnsubscribe sid).1 ((s.peer c).sendUnsubscribe sid).2)
      (liveAfter live (.sendUnsubscribe c sid)) c := by
  have hlive : liveOn (liveAfter live (.sendUnsubscribe c sid)) c =
      fun sid' key => liveOn live c sid' key ∧ sid' ≠ sid := by
    funext sid' key
    simp [liveOn, liveAfter]
  have hstopped : ((s.peer c).sendUnsubscribe sid).1.stopped = false := by
    rw [Peer.stopped_sendUnsubscribe, hopen]
  obtain ⟨hindexed, hframes⟩ := h.indexed.sendUnsubscribe sid
  constructor
  · rw [hlive]
    simp only [State.write, Function.update_self]
    exact hindexed
  · intro key
    have hold := h.sinks key
    rw [hlive]
    simp only [State.write, hstopped, Bool.false_eq_true, if_false, Function.update_self]
    obtain ⟨hnone, hsame⟩ | ⟨last, hlast, hsid, hgone⟩ := hframes
    · rw [hnone, List.append_nil, hold, hsame]
    · rw [hlast, List.map_append]
      simp only [List.map_cons, List.map_nil, afterDelivery_concat, SubscriptionFrame.assigns]
      by_cases hk : (last.1, last.2) = key
      · rw [if_pos hk, ← hk]
        simpa using hgone
      · rw [if_neg hk, hold]
        constructor
        · intro ⟨sid', hlive'⟩
          refine ⟨sid', hlive', ?_⟩
          intro heq
          rw [heq] at hlive'
          exact hk (h.indexed.key_unique hsid hlive')
        · intro ⟨sid', hlive'⟩
          exact ⟨sid', hlive'.1⟩

/-- Delivering a frame does not change what the sinks will be. -/
theorem agrees_deliver {s : State Conn} {live : Set (Conn × ℕ × EventKey)} {c : Conn}
    (h : Agrees s live c) {frame : SubscriptionFrame} {frames : List SubscriptionFrame}
    (hwire : s.wire c = frame :: frames) {sinks : Sinks Conn}
    (hsinks : ∀ key, hasSink sinks key c =
      if frame.assigns.1 = key then frame.assigns.2 else hasSink s.sinks key c) :
    Agrees { s with wire := Function.update s.wire c frames, sinks := sinks } live c where
  indexed := h.indexed
  sinks := by
    intro key
    have hold := h.sinks key
    rw [hwire, List.map_cons, afterDelivery_cons, ← hsinks] at hold
    simpa using hold

/-! ## The network -/

/-- A connection that is open was open before. -/
theorem open_of_next {s s' : State Conn} {a : Action Conn} (h : next s a = some s') {c : Conn}
    (hopen : s'.Open c) : s.Open c := by
  have hpeer : ∀ (c₀ : Conn) (p : Peer), p.stopped = (s.peer c₀).stopped →
      ∀ c, (Function.update s.peer c₀ p c).stopped = (s.peer c).stopped := by
    intro c₀ p hp c
    by_cases hcc : c = c₀
    · rw [hcc, Function.update_self, hp]
    · rw [Function.update_of_ne hcc]
  cases a with
  | fetchSubId c₀ =>
    cases h
    exact ⟨(hpeer c₀ (s.peer c₀).fetchSubId rfl c).symm.trans hopen.1, hopen.2⟩
  | sendSubscribe c₀ sid msg callback =>
    simp only [next, Option.ite_none_right_eq_some, Option.some.injEq] at h
    obtain ⟨_, rfl⟩ := h
    have hsame := hpeer c₀ ((s.peer c₀).sendSubscribe sid msg callback).1 rfl c
    exact ⟨hsame.symm.trans hopen.1, hopen.2⟩
  | sendUnsubscribe c₀ sid =>
    cases h
    exact ⟨(hpeer c₀ _ (Peer.stopped_sendUnsubscribe ..) c).symm.trans hopen.1, hopen.2⟩
  | deliver c₀ =>
    simp only [next] at h
    split at h
    · cases h
    · cases h
      exact hopen
    · cases h
      exact hopen
  | peerFail c₀ =>
    cases h
    refine ⟨?_, hopen.2⟩
    have hstopped := hopen.1
    by_cases hcc : c = c₀
    · simp [hcc, Peer.fail] at hstopped
    · simpa [Function.update_of_ne hcc] using hstopped
  | hostFail c₀ =>
    cases h
    refine ⟨hopen.1, ?_⟩
    have hstopped := hopen.2
    by_cases hcc : c = c₀
    · simp [hcc] at hstopped
    · simpa [Function.update_of_ne hcc] using hstopped
  | lose c₀ =>
    simp only [next, Option.ite_none_right_eq_some, Option.some.injEq] at h
    obtain ⟨_, rfl⟩ := h
    exact hopen

/-- Every step keeps the agreement of the connections it leaves open. -/
theorem agrees_next {s s' : State Conn} {a : Action Conn} {live : Set (Conn × ℕ × EventKey)}
    (hs : ∀ c, s.Open c → Agrees s live c) (h : next s a = some s') (c : Conn)
    (hopen : s'.Open c) : Agrees s' (liveAfter live a) c := by
  have hbefore : s.Open c := open_of_next h hopen
  have hc := hs c hbefore
  cases a with
  | fetchSubId c₀ =>
    cases h
    by_cases hcc : c = c₀
    · subst hcc
      refine ⟨?_, hc.sinks⟩
      simp only [Function.update_self]
      exact hc.indexed.fetchSubId
    · exact hc.of_same (Function.update_of_ne hcc ..) rfl (fun _ => rfl) rfl
  | sendSubscribe c₀ sid msg callback =>
    simp only [next, Option.ite_none_right_eq_some, Option.some.injEq] at h
    obtain ⟨hsid, rfl⟩ := h
    by_cases hcc : c = c₀
    · subst hcc
      exact agrees_sendSubscribe hc hbefore.1 hsid msg callback
    · apply hc.write_of_ne hcc
      apply liveOn_liveAfter_of_ne
      · simp [Ne.symm hcc]
      · simp
  | sendUnsubscribe c₀ sid =>
    cases h
    by_cases hcc : c = c₀
    · subst hcc
      exact agrees_sendUnsubscribe hc hbefore.1 sid
    · apply hc.write_of_ne hcc
      apply liveOn_liveAfter_of_ne
      · simp
      · simp [Ne.symm hcc]
  | deliver c₀ =>
    simp only [next] at h
    split at h
    · cases h
    · rename_i m frames hwire
      cases h
      by_cases hcc : c = c₀
      · subst hcc
        apply agrees_deliver hc hwire
        intro key
        rw [onSubscribe, hasSink_assignSink]
        simp [SubscriptionFrame.assigns, eq_comm]
      · refine hc.of_same rfl (Function.update_of_ne hcc ..) ?_ rfl
        intro key
        rw [onSubscribe, hasSink_assignSink]
        simp [hcc]
    · rename_i m frames hwire
      cases h
      by_cases hcc : c = c₀
      · subst hcc
        apply agrees_deliver hc hwire
        intro key
        rw [onUnsubscribe, hasSink_dropSink]
        simp [SubscriptionFrame.assigns, eq_comm]
      · refine hc.of_same rfl (Function.update_of_ne hcc ..) ?_ rfl
        intro key
        rw [onUnsubscribe, hasSink_dropSink]
        simp [hcc]
  | peerFail c₀ =>
    cases h
    by_cases hcc : c = c₀
    · subst hcc
      simp [State.Open, Peer.fail] at hopen
    · exact hc.of_same (Function.update_of_ne hcc ..) rfl (fun _ => rfl) rfl
  | hostFail c₀ =>
    cases h
    by_cases hcc : c = c₀
    · subst hcc
      simp [State.Open] at hopen
    · exact hc.of_same rfl rfl (fun key => hasSink_onConnectionClosed s.sinks c₀ c key hcc) rfl
  | lose c₀ =>
    simp only [next, Option.ite_none_right_eq_some, Option.some.injEq] at h
    obtain ⟨hdown, rfl⟩ := h
    by_cases hcc : c = c₀
    · subst hcc
      rw [hbefore.1, hbefore.2] at hdown
      simp at hdown
    · exact hc.of_same rfl (Function.update_of_ne hcc ..) (fun _ => rfl) rfl

theorem agrees_initial (c : Conn) : Agrees ({} : State Conn) ∅ c where
  indexed := by
    constructor
    · simp [liveOn]
    · simp [liveOn]
    · simp
    · simp
    · simp [liveOn]
    · exact List.nodup_nil
  sinks := by
    intro key
    simp [hasSink, connections, liveOn]

/-- Every open connection agrees along every run. -/
theorem agrees_of_run {as : List (Action Conn)} {s : State Conn}
    (hrun : TransitionSystem.Run (network Conn) {} as s) (c : Conn) (hopen : s.Open c) :
    Agrees s (liveRegistrations as) c := by
  generalize hs₀ : ({} : State Conn) = s₀ at hrun
  induction hrun generalizing c with
  | nil =>
    rw [← hs₀]
    exact agrees_initial c
  | snoc _ hstep ih =>
    rw [liveRegistrations_concat]
    exact agrees_next ih hstep c hopen

/-- **The host agrees with every open connection.**  In every run, once an open connection's
frames have been delivered, the host has a sink for a key and the connection exactly when
some handle on the connection has registered for the key and not withdrawn. -/
theorem subscriptions_agree (as : List (Action Conn)) (s : State Conn)
    (hrun : TransitionSystem.Run (network Conn) {} as s) (c : Conn) (hopen : s.Open c)
    (hdrained : s.wire c = []) (key : EventKey) :
    hasSink s.sinks key c = true ↔ ∃ sid, (c, sid, key) ∈ liveRegistrations as := by
  have h := (agrees_of_run hrun c hopen).sinks key
  rw [hdrained, List.map_nil, afterDelivery_nil] at h
  exact h

/-- Two handles register for one event, in the order opposite to their ids, and the first of
them withdraws. -/
def twoHandles : List (Action ℕ) :=
  [.fetchSubId 0, .fetchSubId 0, .sendSubscribe 0 2 ⟨bstr "o", bstr "e"⟩ 0, .deliver 0,
    .sendSubscribe 0 1 ⟨bstr "o", bstr "e"⟩ 1, .sendUnsubscribe 0 2, .deliver 0]

theorem subscriptions_agree_twoHandles :
    ∃ s, TransitionSystem.Run (network ℕ) {} twoHandles s ∧ s.wire 0 = [] ∧
      hasSink s.sinks (bstr "o", bstr "e") 0 = true := by
  let final := (TransitionSystem.exec next {} twoHandles).getD {}
  have hexec : TransitionSystem.exec next {} twoHandles = some final := rfl
  have hrun : TransitionSystem.Run (network ℕ) {} twoHandles final :=
    TransitionSystem.run_of_exec hexec
  have hlive : ∃ sid, (0, sid, bstr "o", bstr "e") ∈ liveRegistrations twoHandles :=
    ⟨1, by simp [liveRegistrations, twoHandles, liveAfter]⟩
  have hagree := subscriptions_agree twoHandles final hrun 0 ⟨rfl, rfl⟩ rfl (bstr "o", bstr "e")
  exact ⟨final, hrun, rfl, hagree.mpr hlive⟩

end LogosProtocol.Subscriptions
