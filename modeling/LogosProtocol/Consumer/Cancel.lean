import LogosProtocol.Consumer.Partition

/-!
# Cancel

A cancel searches the three vectors.  An entry that a loop has taken out is in none of them, so
a cancel from a callback of that loop does not find it, and the loop puts it back afterwards.
What a cancel finds never comes back.

## Main definitions

* `Gone` — the id is in no vector and in no loop, and will not be given out.
* `Final` — what a cancel is to achieve.
-/

namespace LogosProtocol.PendingSubscriptions

theorem mem_ids {r : Registry} {n : ℕ} {k : List Instr} : n ∈ ids r k ↔
    (∃ e ∈ r.entries, e.id = n) ∨ (∃ e ∈ r.armed, e.id = n) ∨ (∃ e ∈ r.held, e.id = n) ∨
      ∃ e ∈ inHand k, e.id = n := by
  simp only [ids, place, ticketsOf, Multiset.map_add, Multiset.map_coe, List.map_map,
    Multiset.mem_add, Multiset.mem_coe, List.mem_map, Function.comp_apply, Entry.ticket, or_assoc]

/-- The id is nowhere, and it was given out. -/
structure Gone (n : ℕ) (r : Registry) (k : List Instr) : Prop where
  nowhere : n ∉ ids r k
  issued : n < r.nextId

/-- Nothing more is logged about the id. -/
def Unheard (n : ℕ) (es : List Event) : Prop := ∀ ev ∈ es, ev.subject ≠ some n

section steps
variable {async : Bool} {r : Registry} {k : List Instr} {n : ℕ} {o : Oracle}
  {r' : Registry × List Instr}

theorem Unheard.append {es es' : List Event} (h : Unheard n es) (h' : Unheard n es') :
    Unheard n (es ++ es') := fun ev hev => (List.mem_append.mp hev).elim (h ev) (h' ev)

/-- Moves keep the ids where they are. -/
theorem Gone.moves {r₁ : Registry} {k' : List Instr} (h : Gone n r k) (hmoves : Moves r r₁ k') :
    Gone n r₁ (k' ++ k) ∧ ∃ es, r₁.log = r.log ++ es ∧ Unheard n es := by
  obtain ⟨es, hlog, hquiet⟩ := hmoves.log
  refine ⟨⟨?_, hmoves.nextId ▸ h.issued⟩, es, hlog, fun ev hev hn => ?_⟩
  · rw [ids, hmoves.place_append]
    exact h.nowhere
  · rw [hquiet ev hev] at hn
    cases hn

/-- An instruction speaks of the entry it has in hand, and takes it nowhere else. -/
theorem exec_entry {i : Instr} {e : Entry} (hi : i.entry = some e)
    (hexec : exec async r i o = some r') :
    (∀ m, m ∈ ids r'.1 (r'.2 ++ k) → m ∈ ids r (i :: k)) ∧ r'.1.nextId = r.nextId ∧
      ∃ es, r'.1.log = r.log ++ es ∧ ∀ ev ∈ es, ev.subject = some e.id := by
  have hfired : ∀ ok, ∀ ev ∈ firing e ok, ev.subject = some e.id := fun ok ev hev => by
    rw [eq_of_mem_firing hev]
    rfl
  have hids : ids r (i :: k) = e.id ::ₘ ids r k := by
    simp [ids, place_cons, hi, Entry.ticket]
  -- The entry is forgotten, or it is handed on.
  have hforget : ∀ es, ids { r with log := r.log ++ es } (userCode e ++ k) = ids r k := by
    intro es
    simp [ids, place]
  cases i with
  | arm handle e' =>
    obtain rfl : e' = e := Option.some.inj hi
    cases hprobe : e'.readinessOnly with
    | true =>
      rw [exec_arm_probe r handle o hprobe] at hexec
      cases hexec
      refine ⟨fun m hm => ?_, rfl, _, rfl, ?_⟩
      · rw [hids]
        exact Multiset.mem_cons_of_mem (hforget _ ▸ hm)
      · rintro ev hev
        rcases List.mem_cons.mp hev with rfl | hev
        · rfl
        · exact hfired true ev hev
    | false =>
      rw [exec_arm_real r handle o hprobe] at hexec
      cases hexec
      refine ⟨fun m hm => ?_, rfl, _, rfl, ?_⟩
      · simp only [mem_ids, inHand_append, inHand_userCode, inHand_cons, Instr.entry,
          Option.toList_some, List.nil_append, List.cons_append, List.mem_cons, inHand_nil,
          exists_eq_or_imp] at hm ⊢
        exact hm
      · rintro ev hev
        rcases List.mem_cons.mp hev with rfl | hev
        · rfl
        · exact hfired true ev hev
  | pushArmed e' =>
    obtain rfl : e' = e := Option.some.inj hi
    cases hexec
    refine ⟨fun m hm => ?_, rfl, [], (List.append_nil _).symm, by simp⟩
    simp only [mem_ids, inHand_cons, Instr.entry, Option.toList_some, List.nil_append,
      List.singleton_append, List.mem_append, List.mem_cons, List.not_mem_nil, or_false, or_and_right,
      exists_or, exists_eq_left] at hm ⊢
    grind
  | abandon e' =>
    obtain rfl : e' = e := Option.some.inj hi
    rw [exec_abandon] at hexec
    cases hexec
    refine ⟨fun m hm => ?_, rfl, _, rfl, ?_⟩
    · rw [hids]
      exact Multiset.mem_cons_of_mem (hforget _ ▸ hm)
    · rintro ev hev
      rcases List.mem_cons.mp hev with rfl | hev
      · rfl
      · exact hfired false ev hev
  | _ => cases hi

theorem gone_exec {i : Instr} (h : Gone n r (i :: k)) (hexec : exec async r i o = some r') :
    Gone n r'.1 (r'.2 ++ k) ∧ ∃ es, r'.1.log = r.log ++ es ∧ Unheard n es := by
  cases hi : i.entry with
  | none =>
    have hrest : Gone n r k := by
      refine ⟨fun hin => h.nowhere ?_, h.issued⟩
      rwa [ids, place_cons, hi, Option.toList_none, ticketsOf_nil, zero_add]
    exact hrest.moves (exec_moves hi hexec)
  | some e =>
    obtain ⟨hids, hnext, es, hlog, hes⟩ := exec_entry (k := k) hi hexec
    refine ⟨⟨fun hin => h.nowhere (hids n hin), hnext ▸ h.issued⟩, es, hlog, fun ev hev hn => ?_⟩
    have hhand : e.id ∈ ids r (i :: k) := by
      simp [ids, place_cons, hi, Entry.ticket]
    rw [hes ev hev] at hn
    exact h.nowhere (Option.some.inj hn ▸ hhand)

theorem gone_call {op : Op} (h : Gone n r k) (hcall : call async r op o = some r') :
    Gone n r'.1 (r'.2 ++ k) ∧ ∃ es, r'.1.log = r.log ++ es ∧ Unheard n es := by
  rcases call_cases hcall with hmoves | ⟨e, -, rfl⟩ | ⟨m, -, rfl⟩
  · exact h.moves hmoves
  · have hpush : Gone n (r.push e) k := by
      refine ⟨fun hin => ?_, Nat.lt_succ_of_lt h.issued⟩
      rw [ids, place_push, Multiset.map_cons, Multiset.mem_cons] at hin
      exact hin.elim h.issued.ne h.nowhere
    obtain ⟨hgone, es, hlog, hes⟩ := hpush.moves (moves_add async r e o)
    refine ⟨hgone, .added r.nextId :: es, ?_, fun ev hev => ?_⟩
    · rw [hlog]
      simp [Registry.push, Registry.emit]
    · rcases List.mem_cons.mp hev with rfl | hev
      · exact fun hn => h.issued.ne' (Option.some.inj hn)
      · exact hes ev hev
  · rcases cancel_cases r k m with ⟨b, hplace, hlog, hnext, -⟩ | hnone
    · have hids : ids r k = m ::ₘ ids (r.cancel m).1 k := by
        rw [ids, hplace, Multiset.map_cons]
        rfl
      refine ⟨⟨fun hin => h.nowhere ?_, hnext ▸ h.issued⟩, _, hlog, fun ev hev hn => ?_⟩
      · rw [hids]
        exact Multiset.mem_cons_of_mem hin
      · rw [List.mem_singleton.mp hev] at hn
        obtain rfl : m = n := Option.some.inj hn
        exact h.nowhere (hids ▸ Multiset.mem_cons_self m _)
    · rw [hnone]
      exact ⟨h, [], (List.append_nil _).symm, fun ev hev => by cases hev⟩

end steps

section cancel
variable {async : Bool} {n : ℕ} {c c₁ c' : Program.Config Registry Instr}

/-- **Gone for good.**  In every run from a state in which the id is nowhere. -/
theorem gone_run {as : List (Program.Action Op Oracle)} (h : Gone n c.data c.stack)
    (hrun : (program async).system.Run c as c') :
    Gone n c'.data c'.stack ∧ ∃ es, c'.data.log = c.data.log ++ es ∧ Unheard n es := by
  refine hrun.invariant (I := fun c' => Gone n c'.data c'.stack ∧
    ∃ es, c'.data.log = c.data.log ++ es ∧ Unheard n es) ?_
    ⟨h, [], (List.append_nil _).symm, fun ev hev => by cases hev⟩
  rintro s a s' ⟨hs, es, hlog, hes⟩ hstep
  have hnext : Gone n s'.data s'.stack ∧ ∃ es', s'.data.log = s.data.log ++ es' ∧ Unheard n es' := by
    cases a with
    | call op o =>
      obtain ⟨r, hr, rfl⟩ := Program.next_call hstep
      exact gone_call hs hr
    | step o =>
      obtain ⟨i, k, r, hstack, hr, rfl⟩ := Program.next_step hstep
      rw [hstack] at hs
      exact gone_exec hs hr
  obtain ⟨hgone, es', hlog', hes'⟩ := hnext
  exact ⟨hgone, es ++ es', by rw [hlog', hlog, List.append_assoc], hes.append hes'⟩

/-- What is nowhere is unknown. -/
theorem Gone.unknown {r : Registry} {k : List Instr} (h : Gone n r k) :
    r.eventSubscriptionState n = .unknown := by
  have hnot := h.nowhere
  rw [mem_ids] at hnot
  have hany : ∀ es : List Entry, (¬ ∃ e ∈ es, e.id = n) → (es.any fun e => e.id = n) = false := by
    intro es hes
    simpa using hes
  rw [Registry.eventSubscriptionState, hany r.entries fun h => hnot (.inl h),
    hany r.armed fun h => hnot (.inr (.inl h)), hany r.held fun h => hnot (.inr (.inr (.inl h)))]
  rfl

/-- A cancel knows an id that is in a vector. -/
theorem cancel_known (r : Registry) (n : ℕ) : (r.cancel n).2 = true ↔
    (∃ e ∈ r.entries, e.id = n) ∨ (∃ e ∈ r.armed, e.id = n) ∨ ∃ e ∈ r.held, e.id = n := by
  have hany : ∀ es : List Entry, (es.any fun e => e.id = n) = true ↔ ∃ e ∈ es, e.id = n :=
    fun es => by simp
  simp only [Registry.cancel, hany]
  split_ifs with hentries harmed hheld
  · simp [hentries]
  · simp [harmed]
  · simp [hheld]
  · simp [hentries, harmed, hheld]

/-- What a cancel finds is gone. -/
theorem Partitioned.cancel_gone {r : Registry} {k : List Instr} (h : Partitioned r k)
    (hknown : (r.cancel n).2 = true) : Gone n (r.cancel n).1 k := by
  rcases cancel_cases r k n with ⟨b, hplace, hlog, hnext, -⟩ | hnone
  · have hids : ids r k = n ::ₘ ids (r.cancel n).1 k := by
      rw [ids, hplace, Multiset.map_cons]
      rfl
    have hnodup : (ids r k).Nodup := h.nodup
    have hlt : n < r.nextId := Partition.lt h (hids ▸ Multiset.mem_cons_self n _)
    rw [hids] at hnodup
    exact ⟨(Multiset.nodup_cons.mp hnodup).1, hnext ▸ hlt⟩
  · rw [hnone] at hknown
    cases hknown

/-- A cancel leaves the loops alone. -/
theorem Gone.not_inHand {r : Registry} {k : List Instr} (h : Gone n r k) :
    ∀ e ∈ inHand k, e.id ≠ n :=
  fun e he hid => h.nowhere (mem_ids.mpr (.inr (.inr (.inr ⟨e, he, hid⟩))))

/-- The cancel that leads from `c` to `c₁` is final: it knows the id, which is unknown in every
later state and of which nothing is heard. -/
def Final (async : Bool) (n : ℕ) (c c₁ : Program.Config Registry Instr) : Prop :=
  (c.data.cancel n).2 = true ∧ ∀ as c', (program async).system.Run c₁ as c' →
    c'.data.eventSubscriptionState n = .unknown ∧
      ∃ es, c'.data.log = c₁.data.log ++ es ∧ Unheard n es

/-- **Cancel is final unless a loop has the entry.**  The id was added and not cancelled, nor
abandoned, nor answered as a probe. -/
theorem cancel_final_iff {o : Oracle} (h : (program async).system.Reachable c)
    (hlive : Live c.data.log n)
    (hstep : (program async).next c (.call (.cancelEventSubscription n) o) = some c₁) :
    Final async n c c₁ ↔ ∀ e ∈ inHand c.stack, e.id ≠ n := by
  have hpart := partitioned_of_reachable h
  have hin : n ∈ ids c.data c.stack := (hpart.live n).mpr hlive
  obtain ⟨r, hr, rfl⟩ := Program.next_call hstep
  obtain rfl : ((c.data.cancel n).1, []) = r := Option.some.inj hr
  constructor
  · rintro ⟨hknown, -⟩
    exact (hpart.cancel_gone hknown).not_inHand
  · intro hhand
    have hknown : (c.data.cancel n).2 = true := by
      rw [cancel_known]
      rcases mem_ids.mp hin with hentries | harmed | hheld | ⟨e, he, hid⟩
      · exact .inl hentries
      · exact .inr (.inl harmed)
      · exact .inr (.inr hheld)
      · exact absurd hid (hhand e he)
    refine ⟨hknown, fun as c' hrun => ?_⟩
    obtain ⟨hgone, hes⟩ := gone_run (hpart.cancel_gone hknown) hrun
    exact ⟨hgone.unknown, hes⟩

/-- The provider of a wallet comes up; the callback of the subscription that was waiting runs. -/
def firingWallet : Program.Config Registry Instr :=
  (TransitionSystem.exec (program true).next ⟨{}, []⟩
    [.call (.onEventWhenAvailable (qstr "wallet") [] 7 (some 8)) { accepted := true },
      .call (.acquired (qstr "wallet") true) {}, .step {}]).get rfl

/-- The callback cancels its own subscription. -/
def cancelledWallet : Program.Config Registry Instr :=
  ((program true).next firingWallet (.call (.cancelEventSubscription 1) {})).get rfl

theorem firingWallet_reachable : (program true).system.Reachable firingWallet := by
  have hinit : (program true).system.Reachable ⟨{}, []⟩ := .init rfl
  have hexec : TransitionSystem.exec (program true).next ⟨{}, []⟩
    [.call (.onEventWhenAvailable (qstr "wallet") [] 7 (some 8)) { accepted := true },
      .call (.acquired (qstr "wallet") true) {}, .step {}] = some firingWallet := rfl
  exact hinit.of_exec hexec

/-- The cancel does not know the id, and the subscription is armed after it. -/
theorem cancel_not_final : (program true).system.Reachable firingWallet ∧
    Live firingWallet.data.log 1 ∧
    (program true).next firingWallet (.call (.cancelEventSubscription 1) {}) = some cancelledWallet ∧
    (∃ as c', (program true).system.Run cancelledWallet as c' ∧
      c'.data.eventSubscriptionState 1 = .armed) ∧
    ¬ Final true 1 firingWallet cancelledWallet := by
  have hrun : (program true).system.Run cancelledWallet [.step {}, .step {}] _ :=
    TransitionSystem.run_of_exec rfl
  refine ⟨firingWallet_reachable, ⟨by decide, by decide, by decide, by decide⟩, rfl,
    ⟨_, _, hrun, by decide⟩, ?_⟩
  rintro ⟨hknown, -⟩
  revert hknown
  decide

/-- A subscription to a wallet that is not there yet. -/
def waitingWallet : Program.Config Registry Instr :=
  (TransitionSystem.exec (program true).next ⟨{}, []⟩
    [.call (.onEventWhenAvailable (qstr "wallet") [] 7 (some 8)) { accepted := true }]).get rfl

/-- A subscription that waits is cancelled for good. -/
theorem cancel_final_waiting : Final true 1 waitingWallet
    (((program true).next waitingWallet (.call (.cancelEventSubscription 1) {})).get rfl) := by
  have hinit : (program true).system.Reachable ⟨{}, []⟩ := .init rfl
  have hwaiting : (program true).system.Reachable waitingWallet := hinit.step (a :=
    .call (.onEventWhenAvailable (qstr "wallet") [] 7 (some 8)) { accepted := true }) rfl
  have hlive : Live waitingWallet.data.log 1 := ⟨by decide, by decide, by decide, by decide⟩
  have hstep : (program true).next waitingWallet (.call (.cancelEventSubscription 1) {}) =
      some (((program true).next waitingWallet (.call (.cancelEventSubscription 1) {})).get rfl) := rfl
  exact (cancel_final_iff hwaiting hlive hstep).mpr fun e he => by cases he

end cancel

end LogosProtocol.PendingSubscriptions
