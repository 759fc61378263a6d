import LogosProtocol.Lib.Grouped
import LogosProtocol.Rpc.SubscriptionAgreement

/-!
# The registry of one peer

A peer keeps its registrations in two indexes, a list for each key and the key of each id.  Both
are views of one log, the registrations that have neither been withdrawn nor swept, in the order
in which they were made: the lists file the log by key, and the reverse index names the key of
each entry.  Each call keeps the two views of the log it leaves.

`fail()` is one step, and only the first call of it does anything.

## Main definitions

* `RegistryCall`, `Peer.call`, `registry` — the calls of one peer, in any order.
* `logAfter` — the log a run leaves.
* `Peer.Registers` — the two indexes are views of a log.
-/

namespace LogosProtocol.Subscriptions

/-- The subscription calls of one peer. -/
inductive RegistryCall
  | fetchSubId
  | sendSubscribe (sid : ℕ) (msg : SubscribeMessage) (callback : ℕ)
  | sendUnsubscribe (sid : ℕ)
  | fail
  deriving DecidableEq

namespace Peer

/-- `fail()`: only the first caller sweeps. -/
def failOnce (p : Peer) : Peer := if p.stopped then p else p.fail

/-- One call: the peer after it, and the messages it emits. -/
def call (p : Peer) : RegistryCall → Option (Peer × List SubscriptionFrame)
  | .fetchSubId => some (p.fetchSubId, [])
  | .sendSubscribe sid msg callback =>
    if sid ∈ p.fetched then some (p.sendSubscribe sid msg callback) else none
  | .sendUnsubscribe sid => some (p.sendUnsubscribe sid)
  | .fail => some (p.failOnce, [])

/-- The registrations under one key. -/
def subsOf (p : Peer) (key : EventKey) : List EventSubscription := (p.eventSubs.lookup key).getD []

/-- The ids registered under one key. -/
def idsOf (p : Peer) (key : EventKey) : List ℕ := (p.subsOf key).map EventSubscription.id

/-- This call withdraws the only registration of the key. -/
def WithdrawsLast (p : Peer) (key : EventKey) : RegistryCall → Prop
  | .sendUnsubscribe sid => p.idsOf key = [sid]
  | _ => False

instance (p : Peer) (key : EventKey) (a : RegistryCall) : Decidable (p.WithdrawsLast key a) := by
  cases a <;> unfold WithdrawsLast <;> infer_instance

end Peer

/-- A fresh peer and its calls. -/
def registry : TransitionSystem Peer RegistryCall :=
  TransitionSystem.ofNext {} fun p a => (p.call a).map Prod.fst

/-! ## The log -/

/-- A registration, with the key it was made for. -/
structure Registration where
  key : EventKey
  sub : EventSubscription

/-- The registrations in force, in the order they were made, and whether `fail()` has run. -/
structure RegistryLog where
  registrations : List Registration := []
  failed : Bool := false

/-- The log after a call. -/
def RegistryLog.after (log : RegistryLog) : RegistryCall → RegistryLog
  | .fetchSubId => log
  | .sendSubscribe sid msg callback =>
    { log with registrations :=
        log.registrations ++ [⟨(msg.object, msg.eventName), ⟨sid, callback⟩⟩] }
  | .sendUnsubscribe sid =>
    { log with registrations := log.registrations.filter fun r => r.sub.id ≠ sid }
  | .fail => if log.failed then log else { registrations := [], failed := true }

/-- The log that a sequence of calls leaves. -/
def logAfter (calls : List RegistryCall) : RegistryLog := calls.foldl RegistryLog.after {}

@[simp] theorem logAfter_concat (calls : List RegistryCall) (a : RegistryCall) :
    logAfter (calls ++ [a]) = (logAfter calls).after a := by
  simp [logAfter, List.foldl_append]

/-- The entries of the log under one key, in the order they were made. -/
abbrev filed (log : List Registration) (key : EventKey) : List EventSubscription :=
  Dict.entriesOf Registration.key Registration.sub log key

/-! ## The two indexes are views of the log -/

/-- Both indexes are views of the log; its ids are distinct and have all been handed out. -/
structure Peer.Registers (p : Peer) (log : List Registration) : Prop where
  eventSubs : p.eventSubs.Files Registration.key Registration.sub log
  subKeys : ∀ sid key, p.subKeys.lookup sid = some key ↔ ∃ r ∈ log, r.sub.id = sid ∧ r.key = key
  nodup : (log.map fun r => r.sub.id).Nodup
  fresh : ∀ r ∈ log, r.sub.id ∉ p.fetched
  issued : ∀ sid, (sid ∈ p.fetched ∨ ∃ r ∈ log, r.sub.id = sid) → sid < p.nextSubId
  distinct : p.fetched.Nodup

namespace Peer.Registers
variable {p : Peer} {log : List Registration}

theorem subsOf_eq (h : p.Registers log) (key : EventKey) : p.subsOf key = filed log key :=
  h.eventSubs.getD_lookup key

/-- An entry of the log is told by its id. -/
theorem eq_of_id (h : p.Registers log) {r r' : Registration} (hr : r ∈ log) (hr' : r' ∈ log)
    (hid : r.sub.id = r'.sub.id) : r = r' :=
  List.inj_on_of_nodup_map h.nodup hr hr' hid

theorem mem_idsOf (h : p.Registers log) (sid : ℕ) (key : EventKey) :
    sid ∈ p.idsOf key ↔ ∃ r ∈ log, r.sub.id = sid ∧ r.key = key := by
  rw [idsOf, h.subsOf_eq, List.mem_map]
  constructor
  · intro ⟨sub, hsub, hid⟩
    obtain ⟨r, hr, hkey, rfl⟩ := Dict.mem_entriesOf.mp hsub
    exact ⟨r, hr, hid, hkey⟩
  · intro ⟨r, hr, hid, hkey⟩
    exact ⟨r.sub, Dict.mem_entriesOf.mpr ⟨r, hr, hkey, rfl⟩, hid⟩

/-- No id stands twice under a key. -/
theorem nodup_idsOf (h : p.Registers log) (key : EventKey) : (p.idsOf key).Nodup := by
  have hids : p.idsOf key = (log.filter fun r => r.key = key).map fun r => r.sub.id := by
    rw [idsOf, h.subsOf_eq, filed, Dict.entriesOf, List.map_map]
    rfl
  rw [hids]
  exact h.nodup.sublist (List.filter_sublist.map _)

/-! ### What each call does -/

theorem fetchSubId (h : p.Registers log) : p.fetchSubId.Registers log where
  eventSubs := h.eventSubs
  subKeys := h.subKeys
  nodup := h.nodup
  fresh := by
    intro r hr hmem
    rw [Peer.fetchSubId, List.mem_cons] at hmem
    cases hmem with
    | inl heq =>
      have hlt := h.issued r.sub.id (.inr ⟨r, hr, rfl⟩)
      omega
    | inr hmem => exact h.fresh r hr hmem
  issued := by
    intro sid hsid
    simp only [Peer.fetchSubId, List.mem_cons] at hsid ⊢
    obtain (heq | hmem) | hlog := hsid
    · omega
    · have hlt := h.issued sid (.inl hmem)
      omega
    · have hlt := h.issued sid (.inr hlog)
      omega
  distinct := by
    rw [Peer.fetchSubId, List.nodup_cons]
    refine ⟨?_, h.distinct⟩
    intro hmem
    have hlt := h.issued p.nextSubId (.inl hmem)
    omega

/-- A registration goes to the end of the log. -/
theorem sendSubscribe (h : p.Registers log) {sid : ℕ} (hsid : sid ∈ p.fetched)
    (msg : SubscribeMessage) (callback : ℕ) :
    (p.sendSubscribe sid msg callback).1.Registers
      (log ++ [⟨(msg.object, msg.eventName), ⟨sid, callback⟩⟩]) where
  eventSubs := h.eventSubs.push ⟨(msg.object, msg.eventName), ⟨sid, callback⟩⟩
  subKeys := by
    have hnone : ∀ key, p.subKeys.lookup sid ≠ some key := by
      intro key hkey
      obtain ⟨r, hr, rfl, -⟩ := (h.subKeys sid key).mp hkey
      exact h.fresh r hr hsid
    have hnot : sid ∉ p.subKeys :=
      AList.lookup_eq_none.mp (Option.eq_none_iff_forall_ne_some.mpr hnone)
    intro sid' key
    simp only [Peer.sendSubscribe, hnot, if_false, List.mem_append, List.mem_singleton]
    by_cases hs : sid' = sid
    · subst hs
      have hlog : ∀ r ∈ log, r.sub.id ≠ sid' := fun r hr heq => h.fresh r hr (heq ▸ hsid)
      rw [AList.lookup_insert, Option.some.injEq]
      constructor
      · intro heq
        exact ⟨_, .inr rfl, rfl, heq⟩
      · rintro ⟨r, hr | rfl, hid, hkey⟩
        · exact absurd hid (hlog r hr)
        · exact hkey
    · rw [AList.lookup_insert_ne hs, h.subKeys]
      constructor
      · rintro ⟨r, hr, hr'⟩
        exact ⟨r, .inl hr, hr'⟩
      · rintro ⟨r, hr | rfl, hid, hkey⟩
        · exact ⟨r, hr, hid, hkey⟩
        · exact absurd hid.symm hs
  nodup := by
    rw [List.map_append, List.nodup_append]
    refine ⟨h.nodup, List.nodup_singleton _, ?_⟩
    intro a ha b hb heq
    obtain ⟨r, hr, rfl⟩ := List.mem_map.mp ha
    rw [List.map_singleton, List.mem_singleton] at hb
    exact h.fresh r hr ((heq.trans hb) ▸ hsid)
  fresh := by
    intro r hr hmem
    simp only [Peer.sendSubscribe] at hmem
    rcases List.mem_append.mp hr with hr | hr
    · exact h.fresh r hr (List.mem_of_mem_erase hmem)
    · rw [List.mem_singleton.mp hr, h.distinct.mem_erase_iff] at hmem
      exact hmem.1 rfl
  issued := by
    intro sid' hsid'
    simp only [Peer.sendSubscribe, List.mem_append, List.mem_singleton] at hsid' ⊢
    rcases hsid' with hmem | ⟨r, hr | rfl, rfl⟩
    · exact h.issued sid' (.inl (List.mem_of_mem_erase hmem))
    · exact h.issued r.sub.id (.inr ⟨r, hr, rfl⟩)
    · exact h.issued sid (.inl hsid)
  distinct := h.distinct.erase sid

/-- An id with no registration in the log is unknown to the peer. -/
theorem lookup_eq_none (h : p.Registers log) {sid : ℕ} (hsid : ∀ r ∈ log, r.sub.id ≠ sid) :
    p.subKeys.lookup sid = none := by
  rw [Option.eq_none_iff_forall_ne_some]
  intro key hkey
  obtain ⟨r, hr, hid, -⟩ := (h.subKeys sid key).mp hkey
  exact hsid r hr hid

/-- A withdrawal of an id that is not registered does nothing. -/
theorem sendUnsubscribe_unknown (h : p.Registers log) {sid : ℕ}
    (hsid : ∀ r ∈ log, r.sub.id ≠ sid) : p.sendUnsubscribe sid = (p, []) := by
  simp only [Peer.sendUnsubscribe, h.lookup_eq_none hsid]

/-- What is left of the list of a key when an id is withdrawn. -/
theorem filed_without (log : List Registration) (sid : ℕ) (key : EventKey) :
    filed (log.filter fun r => r.sub.id ≠ sid) key =
      (filed log key).filter fun sub => sub.id ≠ sid :=
  Dict.entriesOf_filter_val (fun sub : EventSubscription => decide (sub.id ≠ sid)) log key

/-- A withdrawal of a registered id files what is left under its key, and emits an Unsubscribe
when nothing is. -/
theorem sendUnsubscribe_known (h : p.Registers log) {r : Registration} (hr : r ∈ log) :
    p.sendUnsubscribe r.sub.id =
      ({ p with
          subKeys := p.subKeys.erase r.sub.id
          eventSubs := p.eventSubs.refile r.key
            (filed (log.filter fun r' => r'.sub.id ≠ r.sub.id) r.key) },
        if filed (log.filter fun r' => r'.sub.id ≠ r.sub.id) r.key = []
        then [.unsubscribe ⟨r.key.1, r.key.2⟩] else []) := by
  have hkey : p.subKeys.lookup r.sub.id = some r.key :=
    (h.subKeys _ _).mpr ⟨r, hr, rfl, rfl⟩
  have hmem : r.sub ∈ filed log r.key := Dict.mem_entriesOf.mpr ⟨r, hr, rfl, rfl⟩
  have hsubs : p.eventSubs.lookup r.key = some (filed log r.key) := by
    rw [h.eventSubs r.key, if_neg (List.ne_nil_of_mem hmem)]
  rw [filed_without]
  simp only [Peer.sendUnsubscribe, hkey, hsubs]
  by_cases hrest : (filed log r.key).filter (fun sub => sub.id ≠ r.sub.id) = []
  · rw [if_neg (not_not.mpr hrest), if_pos hrest, Dict.refile, if_pos hrest]
  · rw [if_pos hrest, if_neg hrest, Dict.refile, if_neg hrest]

/-- A withdrawal takes its registration out of the log. -/
theorem sendUnsubscribe (h : p.Registers log) (sid : ℕ) :
    (p.sendUnsubscribe sid).1.Registers (log.filter fun r => r.sub.id ≠ sid) := by
  by_cases hsid : ∃ r ∈ log, r.sub.id = sid
  · obtain ⟨r, hr, rfl⟩ := hsid
    rw [h.sendUnsubscribe_known hr]
    refine ⟨?_, ?_, h.nodup.sublist (List.filter_sublist.map _), ?_, ?_, h.distinct⟩
    · refine h.eventSubs.filter ?_
      intro r' hr' hkey
      rw [decide_eq_true_eq]
      intro hid
      exact hkey (congrArg Registration.key (h.eq_of_id hr' hr hid))
    · intro sid key
      by_cases hs : sid = r.sub.id
      · rw [hs]
        simp only [AList.lookup_erase, List.mem_filter, decide_eq_true_eq]
        refine iff_of_false (by simp) ?_
        rintro ⟨r', ⟨-, hne⟩, hid, -⟩
        exact hne hid
      · simp only [AList.lookup_erase_ne hs, h.subKeys, List.mem_filter, decide_eq_true_eq]
        constructor
        · rintro ⟨r', hr', rfl, hkey⟩
          exact ⟨r', ⟨hr', hs⟩, rfl, hkey⟩
        · rintro ⟨r', ⟨hr', -⟩, hid⟩
          exact ⟨r', hr', hid⟩
    · intro r' hr'
      exact h.fresh r' (List.mem_filter.mp hr').1
    · intro sid hsid
      refine h.issued sid (hsid.imp_right ?_)
      intro ⟨r', hr', hid⟩
      exact ⟨r', (List.mem_filter.mp hr').1, hid⟩
  · have hnot : ∀ r ∈ log, r.sub.id ≠ sid := fun r hr hid => hsid ⟨r, hr, hid⟩
    have hsame : (log.filter fun r => r.sub.id ≠ sid) = log := by
      rw [List.filter_eq_self]
      intro r hr
      exact decide_eq_true (hnot r hr)
    rw [h.sendUnsubscribe_unknown hnot, hsame]
    exact h

theorem fail (h : p.Registers log) : p.fail.Registers [] where
  eventSubs := Dict.Files.empty
  subKeys := by simp [Peer.fail]
  nodup := List.nodup_nil
  fresh := by simp
  issued := by
    intro sid hsid
    simp only [List.not_mem_nil, false_and, exists_false, or_false] at hsid
    exact h.issued sid (.inl hsid)
  distinct := h.distinct

/-! ### What a withdrawal emits and leaves -/

/-- A key has one registration exactly when its withdrawal leaves none. -/
theorem idsOf_eq_singleton_iff (h : p.Registers log) {r : Registration} (hr : r ∈ log) :
    p.idsOf r.key = [r.sub.id] ↔ filed (log.filter fun r' => r'.sub.id ≠ r.sub.id) r.key = [] := by
  have hmem : r.sub.id ∈ p.idsOf r.key := (h.mem_idsOf _ _).mpr ⟨r, hr, rfl, rfl⟩
  rw [filed_without, List.filter_eq_nil_iff, ← h.subsOf_eq]
  simp only [decide_eq_true_eq, not_not]
  constructor
  · intro hone sub hsub
    have hid : sub.id ∈ p.idsOf r.key := List.mem_map_of_mem hsub
    rwa [hone, List.mem_singleton] at hid
  · intro hall
    refine List.perm_singleton.mp ?_
    rw [List.perm_ext_iff_of_nodup (h.nodup_idsOf _) (List.nodup_singleton _)]
    intro sid
    rw [List.mem_singleton]
    constructor
    · intro hsid
      obtain ⟨sub, hsub, rfl⟩ := List.mem_map.mp hsid
      exact hall sub hsub
    · rintro rfl
      exact hmem

/-- **An Unsubscribe is emitted exactly when a key's only registration is withdrawn.** -/
theorem count_unsubscribe (h : p.Registers log) {a : RegistryCall} {p' : Peer}
    {frames : List SubscriptionFrame} (hcall : p.call a = some (p', frames)) (key : EventKey) :
    frames.count (.unsubscribe ⟨key.1, key.2⟩) = if p.WithdrawsLast key a then 1 else 0 := by
  cases a with
  | fetchSubId =>
    cases hcall
    rfl
  | sendSubscribe sid msg callback =>
    simp only [Peer.call, Option.ite_none_right_eq_some, Option.some.injEq] at hcall
    rw [← (Prod.mk.inj hcall.2).2]
    simp [WithdrawsLast]
  | fail =>
    cases hcall
    rfl
  | sendUnsubscribe sid =>
    have hframes : (p.sendUnsubscribe sid).2 = frames :=
      congrArg Prod.snd (Option.some.inj hcall)
    rw [← hframes]
    by_cases hsid : ∃ r ∈ log, r.sub.id = sid
    · obtain ⟨r, hr, rfl⟩ := hsid
      rw [h.sendUnsubscribe_known hr]
      by_cases hkey : key = r.key
      · have hlast : p.WithdrawsLast key (.sendUnsubscribe r.sub.id) ↔
            filed (log.filter fun r' => r'.sub.id ≠ r.sub.id) r.key = [] := by
          rw [hkey]
          exact h.idsOf_eq_singleton_iff hr
        rw [if_congr hlast rfl rfl, hkey]
        split_ifs with hrest
        · simp
        · rfl
      · have hnot : ¬ p.WithdrawsLast key (.sendUnsubscribe r.sub.id) := by
          intro hone
          have hmem : r.sub.id ∈ p.idsOf key := by
            rw [show p.idsOf key = [r.sub.id] from hone]
            exact List.mem_singleton_self _
          obtain ⟨r', hr', hid, rfl⟩ := (h.mem_idsOf _ _).mp hmem
          exact hkey (congrArg Registration.key (h.eq_of_id hr' hr hid))
        rw [if_neg hnot]
        split_ifs with hrest
        · refine List.count_eq_zero_of_not_mem ?_
          simp only [List.mem_singleton, SubscriptionFrame.unsubscribe.injEq,
            UnsubscribeMessage.mk.injEq]
          intro heq
          exact hkey (Prod.ext heq.1 heq.2)
        · rfl
    · have hunknown : ∀ r ∈ log, r.sub.id ≠ sid := fun r hr hid => hsid ⟨r, hr, hid⟩
      have hnot : ¬ p.WithdrawsLast key (.sendUnsubscribe sid) := by
        intro hone
        have hmem : sid ∈ p.idsOf key := by
          rw [show p.idsOf key = [sid] from hone]
          exact List.mem_singleton_self _
        obtain ⟨r, hr, hid, -⟩ := (h.mem_idsOf _ _).mp hmem
        exact hunknown r hr hid
      rw [h.sendUnsubscribe_unknown hunknown, if_neg hnot]
      rfl

/-- A withdrawal leaves every other registration where it is, with its callback. -/
theorem subsOf_sendUnsubscribe (h : p.Registers log) (sid : ℕ) (key : EventKey) :
    (p.sendUnsubscribe sid).1.subsOf key = (p.subsOf key).filter fun sub => sub.id ≠ sid := by
  rw [(h.sendUnsubscribe sid).subsOf_eq, filed_without, h.subsOf_eq]

/-- The reverse index names the key under which an id stands once. -/
theorem lookup_subKeys_iff (h : p.Registers log) (sid : ℕ) (key : EventKey) :
    p.subKeys.lookup sid = some key ↔ (p.idsOf key).count sid = 1 := by
  rw [h.subKeys, ← h.mem_idsOf]
  constructor
  · intro hmem
    exact List.count_eq_one_of_mem (h.nodup_idsOf key) hmem
  · intro hcount
    exact List.count_pos_iff.mp (by omega)

end Peer.Registers

/-! ## Every run -/

/-- A peer whose `fail()` has run holds nothing but what was registered since. -/
structure Peer.Matches (p : Peer) (log : RegistryLog) : Prop where
  registers : p.Registers log.registrations
  stopped : p.stopped = log.failed

theorem Peer.Matches.initial : ({} : Peer).Matches {} where
  registers := ⟨Dict.Files.empty, by simp, List.nodup_nil, by simp, by simp, List.nodup_nil⟩
  stopped := rfl

/-- Each call keeps the indexes views of the log. -/
theorem Peer.Matches.call {p p' : Peer} {log : RegistryLog} (h : p.Matches log) {a : RegistryCall}
    {frames : List SubscriptionFrame} (hcall : p.call a = some (p', frames)) :
    p'.Matches (log.after a) := by
  cases a with
  | fetchSubId =>
    cases hcall
    exact ⟨h.registers.fetchSubId, h.stopped⟩
  | sendSubscribe sid msg callback =>
    simp only [Peer.call, Option.ite_none_right_eq_some, Option.some.injEq] at hcall
    rw [← (Prod.mk.inj hcall.2).1]
    exact ⟨h.registers.sendSubscribe hcall.1 msg callback, h.stopped⟩
  | sendUnsubscribe sid =>
    have hpeer : (p.sendUnsubscribe sid).1 = p' := congrArg Prod.fst (Option.some.inj hcall)
    rw [← hpeer]
    exact ⟨h.registers.sendUnsubscribe sid, (Peer.stopped_sendUnsubscribe p sid).trans h.stopped⟩
  | fail =>
    cases hcall
    by_cases hfailed : log.failed = true
    · rw [Peer.failOnce, h.stopped, RegistryLog.after, if_pos hfailed, if_pos hfailed]
      exact h
    · rw [Peer.failOnce, h.stopped, RegistryLog.after, if_neg hfailed, if_neg hfailed]
      exact ⟨h.registers.fail, rfl⟩

theorem matches_of_run {calls : List RegistryCall} {p : Peer}
    (hrun : TransitionSystem.Run registry {} calls p) : p.Matches (logAfter calls) := by
  generalize hp₀ : ({} : Peer) = p₀ at hrun
  induction hrun with
  | nil =>
    rw [← hp₀]
    exact .initial
  | snoc _ hstep ih =>
    obtain ⟨⟨p', frames⟩, hcall, rfl⟩ := Option.map_eq_some_iff.mp hstep
    rw [logAfter_concat]
    exact ih.call hcall

/-- **The two indexes of a peer stay in step.**  After any sequence of calls the reverse index
maps an id to a key exactly when the id stands once in the key's list; no id stands twice and no
list is empty; each list holds the registrations in force, in the order they were made; a call
emits an Unsubscribe for a key exactly when it withdraws its only registration; and a withdrawal
leaves every other registration with its callback. -/
theorem registry_inStep (calls : List RegistryCall) (p : Peer)
    (hrun : TransitionSystem.Run registry {} calls p) :
    (∀ sid key, p.subKeys.lookup sid = some key ↔ (p.idsOf key).count sid = 1) ∧
    (∀ sid key, (p.idsOf key).count sid ≤ 1) ∧
    (∀ key subs, p.eventSubs.lookup key = some subs → subs ≠ []) ∧
    (∀ key, p.subsOf key = filed (logAfter calls).registrations key) ∧
    (∀ a p' frames, p.call a = some (p', frames) → ∀ key,
      frames.count (.unsubscribe ⟨key.1, key.2⟩) = if p.WithdrawsLast key a then 1 else 0) ∧
    (∀ sid key, (p.sendUnsubscribe sid).1.subsOf key =
      (p.subsOf key).filter fun sub => sub.id ≠ sid) := by
  have h := (matches_of_run hrun).registers
  refine ⟨h.lookup_subKeys_iff, ?_, ?_, h.subsOf_eq, ?_, h.subsOf_sendUnsubscribe⟩
  · intro sid key
    exact List.nodup_iff_count_le_one.mp (h.nodup_idsOf key) sid
  · intro key subs hsubs
    exact h.eventSubs.ne_nil hsubs
  · intro a p' frames hcall key
    exact h.count_unsubscribe hcall key

/-- Two handles of one event and one of another; the first is withdrawn, and then once more. -/
def threeHandles : List RegistryCall :=
  [.fetchSubId, .sendSubscribe 1 { object := [111], eventName := [101] } 7,
    .fetchSubId, .sendSubscribe 2 { object := [111], eventName := [101] } 8,
    .fetchSubId, .sendSubscribe 3 { object := [111], eventName := [102] } 9,
    .sendUnsubscribe 1, .sendUnsubscribe 1]

theorem registry_inStep_threeHandles :
    ∃ p, TransitionSystem.Run registry {} threeHandles p ∧
      p.subsOf ([111], [101]) = [⟨2, 8⟩] ∧ p.subsOf ([111], [102]) = [⟨3, 9⟩] ∧
      (p.sendUnsubscribe 2).2.count (.unsubscribe ⟨[111], [101]⟩) = 1 := by
  have hexec : ((TransitionSystem.exec (fun p a => (Peer.call p a).map Prod.fst) ({} : Peer)
      threeHandles).isSome) = true := by decide
  obtain ⟨p, hp⟩ := Option.isSome_iff_exists.mp hexec
  have hrun : TransitionSystem.Run registry {} threeHandles p := TransitionSystem.run_of_exec hp
  obtain ⟨-, -, -, hlist, hemit, -⟩ := registry_inStep threeHandles p hrun
  have hfirst : p.subsOf ([111], [101]) = [⟨2, 8⟩] := (hlist _).trans (by decide)
  refine ⟨p, hrun, hfirst, (hlist _).trans (by decide), ?_⟩
  have hlast : p.WithdrawsLast ([111], [101]) (.sendUnsubscribe 2) :=
    congrArg (List.map EventSubscription.id) hfirst
  have hcount := hemit (.sendUnsubscribe 2) _ _ rfl ([111], [101])
  rw [if_pos hlast] at hcount
  exact hcount

end LogosProtocol.Subscriptions
