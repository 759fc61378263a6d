import LogosProtocol.Consumer.Partition

/-!
# Armed subscriptions are attached once, to the stored handle

In a run in which no callback calls back, an entry that waits is attached to no stored handle,
and an armed one exactly once, to the handle of its object.  A handle is new when it is stored,
and the armed entries of an object wait again before its handle goes.

## Main definitions

* `attachments` — how often an id was attached to a handle.
* `Rehandles` — an operation that stores or drops handles.
* `Attachments` — the invariant.
-/

namespace LogosProtocol.PendingSubscriptions

/-! ## Readiness probes -/

def Event.fires (id : ℕ) : Event → Bool
  | .onArmed n _ => n = id
  | _ => false

/-- How often the callback of an id has run. -/
def firings (log : List Event) (id : ℕ) : ℕ := log.countP (Event.fires id)

theorem fires_iff {e : Event} {n : ℕ} : e.fires n = true ↔ ∃ ok, e = .onArmed n ok := by
  cases e <;> simp [Event.fires]

theorem firings_append (log es : List Event) (n : ℕ) :
    firings (log ++ es) n = firings log n + firings es n := List.countP_append

/-- Events about other ids. -/
theorem firings_eq_zero {es : List Event} {n : ℕ} (h : ∀ e ∈ es, e.subject ≠ some n) :
    firings es n = 0 := by
  refine List.countP_eq_zero.mpr fun e he hfires => ?_
  obtain ⟨ok, rfl⟩ := fires_iff.mp hfires
  exact h _ he rfl

theorem firings_quiet {es : List Event} (h : ∀ e ∈ es, e.Quiet) (n : ℕ) : firings es n = 0 :=
  firings_eq_zero fun e he hsubject => by
    rw [h e he] at hsubject
    cases hsubject

theorem subject_of_mem_firing {e : Entry} {ok : Bool} {ev : Event} (h : ev ∈ firing e ok) :
    ev.subject = some e.id := by
  rw [eq_of_mem_firing h]
  rfl

/-- A callback that runs, after an event of another kind. -/
theorem firings_firing (e : Entry) (ok : Bool) {ev : Event} (n : ℕ) (hev : ev.fires n = false) :
    firings (ev :: firing e ok) n ≤ 1 := by
  have hlength : (firing e ok).length ≤ 1 := by
    unfold firing
    split <;> simp
  calc firings (ev :: firing e ok) n = firings (firing e ok) n := by simp [firings, hev]
    _ ≤ (firing e ok).length := List.countP_le_length
    _ ≤ 1 := hlength

/-- The callback of a probe has not run yet, or the probe is gone. -/
structure Probing (n : ℕ) (r : Registry) (k : List Instr) : Prop where
  issued : n < r.nextId
  probe : (n, false) ∉ place r k
  once : firings r.log n + (place r k).count (n, true) ≤ 1

namespace Probing
variable {n : ℕ} {r r' : Registry} {i : Instr} {k k' : List Instr}

theorem moves (h : Probing n r k) (hmoves : Moves r r' k') : Probing n r' (k' ++ k) := by
  obtain ⟨es, hlog, hquiet⟩ := hmoves.log
  refine ⟨hmoves.nextId ▸ h.issued, ?_, ?_⟩
  · rw [hmoves.place_append]
    exact h.probe
  · rw [hmoves.place_append, hlog, firings_append, firings_quiet hquiet, add_zero]
    exact h.once

theorem of_cons (h : Probing n r (i :: k)) (hi : i.entry = none) : Probing n r k := by
  have hplace : place r (i :: k) = place r k := by simp [place_cons, hi]
  exact ⟨h.issued, hplace ▸ h.probe, hplace ▸ h.once⟩

/-- The head's entry is forgotten, and its callback runs at most once. -/
theorem forget {e : Entry} {es : List Event} (h : Probing n r (i :: k)) (hi : i.entry = some e)
    (hlog : r'.log = r.log ++ es) (hes : ∀ ev ∈ es, ev.subject = some e.id)
    (honce : firings es n ≤ 1) (hplace : place r' k' = place r k) (hnext : r'.nextId = r.nextId) :
    Probing n r' k' := by
  have hall : place r (i :: k) = e.ticket ::ₘ place r k := by simp [place_cons, hi]
  have hprobe := h.probe
  have hcount := h.once
  rw [hall] at hprobe hcount
  refine ⟨hnext ▸ h.issued, hplace ▸ fun hin => hprobe (Multiset.mem_cons_of_mem hin), ?_⟩
  rw [hplace, hlog, firings_append]
  by_cases hn : e.id = n
  · have hreal : e.readinessOnly = true := by
      by_contra hreal
      exact hprobe (by simp [Entry.ticket, hn, hreal])
    have hticket : e.ticket = (n, true) := by rw [Entry.ticket, hn, hreal]
    rw [hticket, Multiset.count_cons_self] at hcount
    omega
  · have hnone : firings es n = 0 := firings_eq_zero fun ev hev hsubject => by
      rw [hes ev hev] at hsubject
      exact hn (Option.some.inj hsubject)
    have hle := Multiset.count_le_count_cons (n, true) e.ticket (place r k)
    omega

end Probing

theorem probing_exec {async : Bool} {n : ℕ} {r : Registry} {i : Instr} {k : List Instr}
    {o : Oracle} {r' : Registry × List Instr} (h : Probing n r (i :: k))
    (hexec : exec async r i o = some r') : Probing n r'.1 (r'.2 ++ k) := by
  cases hi : i.entry with
  | none => exact (h.of_cons hi).moves (exec_moves hi hexec)
  | some e =>
    cases i with
    | arm handle e' =>
      obtain rfl : e' = e := Option.some.inj hi
      cases hprobe : e'.readinessOnly with
      | true =>
        rw [exec_arm_probe r handle o hprobe] at hexec
        cases hexec
        refine h.forget hi rfl ?_ (firings_firing e' true n rfl) (by simp [place]) rfl
        rintro ev (_ | ⟨_, hev⟩)
        · rfl
        · exact subject_of_mem_firing hev
      | false =>
        rw [exec_arm_real r handle o hprobe] at hexec
        cases hexec
        -- A subscription, so its id is another one.
        have hother : e'.id ≠ n := by
          rintro rfl
          exact h.probe (by simp [place_cons, hi, Entry.ticket, hprobe])
        have hplace : place { r with
              log := r.log ++ .attached e'.id e'.objectName handle :: firing e' true }
            ((userCode e' ++ [.pushArmed { e' with everArmed := true }]) ++ k) =
            place r (.arm handle e' :: k) := by
          simp [place, inHand_cons, Instr.entry, Entry.ticket]
        have hnone : firings (.attached e'.id e'.objectName handle :: firing e' true) n = 0 := by
          refine firings_eq_zero ?_
          rintro ev (_ | ⟨_, hev⟩) hsubject
          · exact hother (Option.some.inj hsubject)
          · rw [subject_of_mem_firing hev] at hsubject
            exact hother (Option.some.inj hsubject)
        refine ⟨h.issued, by rw [hplace]; exact h.probe, ?_⟩
        rw [hplace, firings_append, hnone, add_zero]
        exact h.once
    | pushArmed e' =>
      obtain rfl : e' = e := Option.some.inj hi
      cases hexec
      have hplace : place { r with armed := r.armed ++ [e'] } k = place r (.pushArmed e' :: k) := by
        simp only [place, ticketsOf_append, ticketsOf_cons, ticketsOf_nil, inHand_cons, Instr.entry,
          Option.toList_some, ← Multiset.singleton_add]
        abel
      exact ⟨h.issued, by rw [List.nil_append, hplace]; exact h.probe,
        by rw [List.nil_append, hplace]; exact h.once⟩
    | abandon e' =>
      obtain rfl : e' = e := Option.some.inj hi
      rw [exec_abandon] at hexec
      cases hexec
      refine h.forget hi rfl ?_ (firings_firing e' false n rfl) (by simp [place]) rfl
      rintro ev (_ | ⟨_, hev⟩)
      · rfl
      · exact subject_of_mem_firing hev
    | _ => cases hi

theorem probing_call {async : Bool} {n : ℕ} {r : Registry} {op : Op} {k : List Instr} {o : Oracle}
    {r' : Registry × List Instr} (h : Probing n r k) (hcall : call async r op o = some r') :
    Probing n r'.1 (r'.2 ++ k) := by
  rcases call_cases hcall with hmoves | ⟨e, -, rfl⟩ | ⟨m, -, rfl⟩
  · exact h.moves hmoves
  · have hissued := h.issued
    have hpush : Probing n (r.push e) k := by
      refine ⟨Nat.lt_succ_of_lt hissued, ?_, ?_⟩
      · rw [place_push, Multiset.mem_cons, Prod.mk.injEq]
        exact fun hin => hin.elim (fun heq => hissued.ne heq.1) h.probe
      · have hnone : firings [.added r.nextId] n = 0 := by simp [firings, Event.fires]
        rw [place_push, Multiset.count_cons_of_ne (by simp [hissued.ne])]
        simp only [Registry.push, Registry.emit, firings_append, hnone, add_zero]
        exact h.once
    exact hpush.moves (moves_add async r e o)
  · rcases cancel_cases r k m with ⟨b, hplace, hlog, hnext, -⟩ | hnone
    · have hprobe := h.probe
      have honce := h.once
      rw [hplace] at hprobe honce
      refine ⟨hnext ▸ h.issued, fun hin => hprobe (Multiset.mem_cons_of_mem hin), ?_⟩
      have hsilent : firings [.cancelled m] n = 0 := by simp [firings, Event.fires]
      have hle := Multiset.count_le_count_cons (n, true) (m, b) (place (r.cancel m).1 k)
      simp only [hlog, firings_append, hsilent, List.nil_append]
      omega
    · rw [hnone]
      exact h

/-! ## Attachments -/

def Event.attaches (id handle : ℕ) : Event → Bool
  | .attached n _ h => n = id ∧ h = handle
  | _ => false

/-- How often an id was attached to a handle. -/
def attachments (log : List Event) (id handle : ℕ) : ℕ := log.countP (Event.attaches id handle)

theorem attachments_append (log es : List Event) (n h : ℕ) :
    attachments (log ++ es) n h = attachments log n h + attachments es n h := List.countP_append

theorem attachments_eq_zero {es : List Event} {n : ℕ} (h : ∀ e ∈ es, e.subject ≠ some n)
    (handle : ℕ) : attachments es n handle = 0 := by
  refine List.countP_eq_zero.mpr fun e he hattaches => ?_
  cases e with
  | attached m name h' =>
    have hn : m = n ∧ h' = handle := by simpa [Event.attaches] using hattaches
    exact h _ he (by rw [← hn.1]; rfl)
  | _ => cases hattaches

theorem attachments_quiet {log es : List Event} (h : ∀ e ∈ es, e.Quiet) (n handle : ℕ) :
    attachments (log ++ es) n handle = attachments log n handle := by
  have hnone : attachments es n handle = 0 := attachments_eq_zero (fun e he hsubject => by
    rw [h e he] at hsubject
    cases hsubject) handle
  rw [attachments_append, hnone, add_zero]

/-- Attached once to the handle of the object, and to no other that is stored. -/
structure AttachedOnce (handles : Dict QString ℕ) (log : List Event) (n : ℕ) (name : QString) :
    Prop where
  once : ∃ handle, handles.lookup name = some handle ∧ attachments log n handle = 1
  only : ∀ other handle, other ≠ name → handles.lookup other = some handle →
    attachments log n handle = 0

/-- The handles that are stored are distinct, and those to come are unused. -/
structure HandleUse (handles : Dict QString ℕ) (nextHandle : ℕ) (log : List Event) : Prop where
  issued : ∀ name handle, handles.lookup name = some handle → handle < nextHandle
  injective : ∀ name name' handle, handles.lookup name = some handle →
    handles.lookup name' = some handle → name = name'
  unused : ∀ n handle, nextHandle ≤ handle → attachments log n handle = 0

namespace Registry

/-- Attached to no handle that is stored. -/
def Unattached (r : Registry) (n : ℕ) : Prop :=
  ∀ name handle, r.handles.lookup name = some handle → attachments r.log n handle = 0

def AttachedTo (r : Registry) (n : ℕ) (name : QString) : Prop :=
  AttachedOnce r.handles r.log n name

def HandlesOk (r : Registry) : Prop := HandleUse r.handles r.nextHandle r.log

end Registry

/-- What an instruction says of the entry it has in hand. -/
def Instr.Ok (r : Registry) : Instr → Prop
  | .arm handle e => r.handles.lookup e.objectName = some handle ∧ r.Unattached e.id
  | .pushArmed e => r.AttachedTo e.id e.objectName
  | _ => True

theorem Instr.ok_of_entry {i : Instr} (r : Registry) (h : i.entry = none) : i.Ok r := by
  cases i <;> trivial

/-- An instruction that may store or drop a handle. -/
def Instr.Acquires : Instr → Prop
  | .beginAcquire _ | .checkLiveness | .drop _ | .chase _ | .chaseWanted => True
  | _ => False

/-- The invariant. -/
structure Attachments (r : Registry) (k : List Instr) : Prop where
  handles : r.HandlesOk
  waiting : ∀ e ∈ r.entries ++ r.held, r.Unattached e.id
  armed : ∀ e ∈ r.armed, r.AttachedTo e.id e.objectName
  stack : ∀ i ∈ k, i.Ok r
  /-- A loop that has taken entries out is done before a handle changes. -/
  order : k.Pairwise fun i j => i.Acquires → j.entry = none

/-- The instructions of one loop: none that acquires has one with an entry behind it. -/
theorem order_append {k k' : List Instr} (hk : k.Pairwise fun i j => i.Acquires → j.entry = none)
    (hk' : k'.Pairwise fun i j => i.Acquires → j.entry = none)
    (h : (∀ i ∈ k, ¬ i.Acquires) ∨ ∀ j ∈ k', j.entry = none) :
    (k ++ k').Pairwise fun i j => i.Acquires → j.entry = none := by
  refine List.pairwise_append.mpr ⟨hk, hk', fun i hi j hj hacquires => ?_⟩
  rcases h with h | h
  · exact absurd hacquires (h i hi)
  · exact h j hj

theorem order_of_not_acquires {k : List Instr} (h : ∀ i ∈ k, ¬ i.Acquires) :
    k.Pairwise fun i j => i.Acquires → j.entry = none :=
  List.Pairwise.imp_of_mem (fun hi _ _ hacquires => absurd hacquires (h _ hi))
    (List.pairwise_of_forall fun _ _ => trivial)

theorem order_of_entry {k : List Instr} (h : ∀ i ∈ k, i.entry = none) :
    k.Pairwise fun i j => i.Acquires → j.entry = none :=
  List.Pairwise.imp_of_mem (fun _ hj _ _ => h _ hj) (List.pairwise_of_forall fun _ _ => trivial)

/-! ## Operations that store or drop handles -/

/-- A handle that is stored was stored before, or is new; entries that are armed no longer have
lost their handle. -/
structure Rehandles (r r' : Registry) : Prop where
  log : ∃ es, r'.log = r.log ++ es ∧ ∀ e ∈ es, e.Quiet
  nextHandle : r.nextHandle ≤ r'.nextHandle
  stored : ∀ name handle, r'.handles.lookup name = some handle →
    r.handles.lookup name = some handle ∨ r.nextHandle ≤ handle ∧ handle < r'.nextHandle
  injective : ∀ name name' handle, r'.handles.lookup name = some handle →
    r'.handles.lookup name' = some handle → r.nextHandle ≤ handle → name = name'
  waiting : ∀ e ∈ r'.entries ++ r'.held, (∃ e₀ ∈ r.entries ++ r.held, e₀.id = e.id) ∨
    ∃ e₀ ∈ r.armed, e₀.id = e.id ∧
      ∀ handle, r'.handles.lookup e₀.objectName = some handle → r.nextHandle ≤ handle
  armed : ∀ e ∈ r'.armed, e ∈ r.armed ∧
    r'.handles.lookup e.objectName = r.handles.lookup e.objectName

namespace Rehandles
variable {r r' r'' : Registry}

/-- What changes neither handles nor, but for what is about no id, entries. -/
theorem of_same (hlog : ∃ es, r'.log = r.log ++ es ∧ ∀ e ∈ es, e.Quiet)
    (hnext : r.nextHandle ≤ r'.nextHandle) (hhandles : r'.handles = r.handles)
    (hwaiting : ∀ e ∈ r'.entries ++ r'.held, ∃ e₀ ∈ r.entries ++ r.held, e₀.id = e.id)
    (harmed : r'.armed = r.armed) (hok : r.HandlesOk) : Rehandles r r' where
  log := hlog
  nextHandle := hnext
  stored name handle h := .inl (hhandles ▸ h)
  injective name name' handle h h' _ := by
    rw [hhandles] at h h'
    exact hok.injective name name' handle h h'
  waiting e he := .inl (hwaiting e he)
  armed e he := ⟨harmed ▸ he, by rw [hhandles]⟩

theorem attachments_eq (h : Rehandles r r') (n handle : ℕ) :
    attachments r'.log n handle = attachments r.log n handle := by
  obtain ⟨es, hlog, hquiet⟩ := h.log
  rw [hlog, attachments_quiet hquiet]

theorem handlesOk (h : Rehandles r r') (hok : r.HandlesOk) : r'.HandlesOk where
  issued name handle hlookup := by
    rcases h.stored name handle hlookup with hold | ⟨-, hlt⟩
    · exact (hok.issued name handle hold).trans_le h.nextHandle
    · exact hlt
  injective name name' handle hlookup hlookup' := by
    rcases h.stored name handle hlookup with hold | ⟨hnew, -⟩
    · rcases h.stored name' handle hlookup' with hold' | ⟨hnew, -⟩
      · exact hok.injective name name' handle hold hold'
      · exact h.injective name name' handle hlookup hlookup' hnew
    · exact h.injective name name' handle hlookup hlookup' hnew
  unused n handle hle := by
    rw [h.attachments_eq]
    exact hok.unused n handle (h.nextHandle.trans hle)

theorem unattached (h : Rehandles r r') (hok : r.HandlesOk) {n : ℕ} (hn : r.Unattached n) :
    r'.Unattached n := by
  intro name handle hlookup
  rw [h.attachments_eq]
  rcases h.stored name handle hlookup with hold | ⟨hnew, -⟩
  · exact hn name handle hold
  · exact hok.unused n handle hnew

/-- The handle it was attached to is not stored any more. -/
theorem unattached_of_lost (h : Rehandles r r') (hok : r.HandlesOk) {n : ℕ} {name : QString}
    (hn : r.AttachedTo n name)
    (hlost : ∀ handle, r'.handles.lookup name = some handle → r.nextHandle ≤ handle) :
    r'.Unattached n := by
  intro other handle hlookup
  rw [h.attachments_eq]
  by_cases hother : other = name
  · subst hother
    exact hok.unused n handle (hlost handle hlookup)
  · rcases h.stored other handle hlookup with hold | ⟨hnew, -⟩
    · exact hn.only other handle hother hold
    · exact hok.unused n handle hnew

theorem attachedTo (h : Rehandles r r') (hok : r.HandlesOk) {n : ℕ} {name : QString}
    (hn : r.AttachedTo n name)
    (hkept : r'.handles.lookup name = r.handles.lookup name) : r'.AttachedTo n name where
  once := by
    obtain ⟨handle, hlookup, honce⟩ := hn.once
    exact ⟨handle, hkept.trans hlookup, by rw [h.attachments_eq, honce]⟩
  only other handle hother hlookup := by
    rw [h.attachments_eq]
    rcases h.stored other handle hlookup with hold | ⟨hnew, -⟩
    · exact hn.only other handle hother hold
    · exact hok.unused n handle hnew

/-- With no loop under way. -/
theorem keeps (h : Rehandles r r') {k : List Instr} (hI : Attachments r k)
    (hk : ∀ i ∈ k, i.entry = none) : Attachments r' k where
  handles := h.handlesOk hI.handles
  waiting e he := by
    rcases h.waiting e he with ⟨e₀, he₀, hid⟩ | ⟨e₀, he₀, hid, hlost⟩
    · exact hid ▸ h.unattached hI.handles (hI.waiting e₀ he₀)
    · exact hid ▸ h.unattached_of_lost hI.handles (hI.armed e₀ he₀) hlost
  armed e he := by
    obtain ⟨he₀, hkept⟩ := h.armed e he
    exact h.attachedTo hI.handles (hI.armed e he₀) hkept
  stack i hi := i.ok_of_entry r' (hk i hi)
  order := hI.order

/-- With loops under way, when the handles stay. -/
theorem keeps_of_same (h : Rehandles r r') (hhandles : r'.handles = r.handles) {k : List Instr}
    (hI : Attachments r k) : Attachments r' k where
  handles := h.handlesOk hI.handles
  waiting e he := by
    rcases h.waiting e he with ⟨e₀, he₀, hid⟩ | ⟨e₀, he₀, hid, hlost⟩
    · exact hid ▸ h.unattached hI.handles (hI.waiting e₀ he₀)
    · exact hid ▸ h.unattached_of_lost hI.handles (hI.armed e₀ he₀) hlost
  armed e he := by
    obtain ⟨he₀, hkept⟩ := h.armed e he
    exact h.attachedTo hI.handles (hI.armed e he₀) hkept
  stack i hi := by
    have hok := hI.stack i hi
    cases i with
    | arm handle e =>
      exact ⟨(congrArg (·.lookup e.objectName) hhandles).trans hok.1,
        h.unattached hI.handles hok.2⟩
    | pushArmed e =>
      exact h.attachedTo hI.handles hok (congrArg (·.lookup e.objectName) hhandles)
    | _ => trivial
  order := hI.order

end Rehandles

section operations
variable {r : Registry} (name : QString)

theorem lookup_storeHandle (r : Registry) (obj : ℕ) :
    (r.storeHandle name obj).1.handles.lookup name = some (r.storeHandle name obj).2 := by
  rcases r.storeHandle_cases name obj with
    ⟨-, h⟩ | ⟨hlookup, h⟩ | ⟨old, hlookup, -, -, h⟩ | ⟨old, -, -, -, h⟩
  · rw [h]
    exact AList.lookup_insert _
  · rw [h]
    exact hlookup
  · rw [h]
    exact hlookup
  · rw [h]
    exact AList.lookup_insert _

/-- A handle that is stored already. -/
theorem storeHandle_self {obj : ℕ} (h : r.handles.lookup name = some obj) :
    r.storeHandle name obj = (r, obj) := by
  simp [Registry.storeHandle, h]

theorem lookup_of_liveHandle {obj : ℕ} (h : r.liveHandle name = some obj) :
    r.handles.lookup name = some obj :=
  (Option.filter_eq_some_iff.mp h).1

/-- Inserting a new handle, after the armed entries of the object have gone. -/
theorem rehandles_insert {r' : Registry} (hok : r.HandlesOk)
    (hlog : ∃ es, r'.log = r.log ++ es ∧ ∀ e ∈ es, e.Quiet)
    (hnext : r'.nextHandle = r.nextHandle + 1)
    (hhandles : r'.handles = r.handles.insert name r.nextHandle)
    (hwaiting : ∀ e ∈ r'.entries ++ r'.held,
      e ∈ r.entries ++ r.held ∨ e ∈ r.armed ∧ e.objectName = name)
    (harmed : ∀ e ∈ r'.armed, e ∈ r.armed ∧ e.objectName ≠ name) : Rehandles r r' where
  log := hlog
  nextHandle := by omega
  stored other handle h := by
    rw [hhandles] at h
    by_cases hother : other = name
    · rw [hother, AList.lookup_insert] at h
      have hnew : r.nextHandle = handle := Option.some.inj h
      omega
    · rw [AList.lookup_insert_ne hother] at h
      exact .inl h
  injective other other' handle h h' hnew := by
    rw [hhandles] at h h'
    have hold : ∀ n, (r.handles.insert name r.nextHandle).lookup n = some handle → n = name := by
      intro n hn
      by_contra hne
      rw [AList.lookup_insert_ne hne] at hn
      have hlt := hok.issued n handle hn
      omega
    rw [hold other h, hold other' h']
  waiting e he := by
    refine (hwaiting e he).imp (fun h => ⟨e, h, rfl⟩) fun ⟨he, hname⟩ => ⟨e, he, rfl, ?_⟩
    intro handle h
    rw [hhandles, hname, AList.lookup_insert] at h
    exact (Option.some.inj h).le
  armed e he := by
    obtain ⟨he, hname⟩ := harmed e he
    exact ⟨he, by rw [hhandles, AList.lookup_insert_ne hname]⟩

/-- A new handle is stored, and the armed entries of the one it replaces wait again; or it is
released again. -/
theorem rehandles_storeHandle (hok : r.HandlesOk)
    (hnone : r.handles.lookup name = none → ∀ e ∈ r.armed, e.objectName ≠ name) :
    Rehandles r (r.newHandle.2.storeHandle name r.newHandle.1).1 := by
  rcases r.newHandle.2.storeHandle_cases name r.newHandle.1 with
    ⟨hlookup, h⟩ | ⟨hlookup, h⟩ | ⟨old, -, -, -, h⟩ | ⟨old, -, -, -, h⟩
  · rw [h]
    exact rehandles_insert name hok ⟨[], by simp [Registry.newHandle], by simp⟩ rfl rfl
      (fun e he => .inl he) fun e he => ⟨he, hnone hlookup e he⟩
  · exact absurd (hok.issued name _ hlookup) (lt_irrefl _)
  · rw [h]
    exact .of_same ⟨[.released r.nextHandle], rfl, by simp [Event.Quiet, Event.subject]⟩
      (Nat.le_succ _) rfl (fun e he => ⟨e, he, rfl⟩) rfl hok
  · rw [h]
    refine rehandles_insert name hok
      ⟨[.released old], rfl, by simp [Event.Quiet, Event.subject]⟩ rfl rfl ?_ ?_
    · intro e he
      simp only [Registry.reviveArmed, Registry.emit, List.mem_append, List.mem_filter,
        decide_eq_true_eq] at he ⊢
      tauto
    · intro e he
      simpa [Registry.reviveArmed, Registry.emit, Registry.newHandle] using he

theorem rehandles_abandonFlight (hok : r.HandlesOk) (acquiring : QString → Bool)
    (inFlight : List QString) :
    Rehandles r { r with acquiring := acquiring, inFlight := inFlight } :=
  .of_same ⟨[], by simp, by simp⟩ le_rfl rfl (fun e he => ⟨e, he, rfl⟩) rfl hok

/-- The loop of `armAgainst`, once the handle is stored. -/
theorem attachments_armAgainst {k : List Instr} (obj : ℕ)
    (h : Attachments (r.storeHandle name obj).1 k) (hk : ∀ i ∈ k, i.entry = none) :
    Attachments (r.armAgainst name obj).1 ((r.armAgainst name obj).2 ++ k) := by
  have hlookup := lookup_storeHandle name r obj
  obtain ⟨timer, harm⟩ := r.armAgainst_eq name obj
  rw [harm]
  generalize r.storeHandle name obj = stored at h hlookup ⊢
  obtain ⟨r₁, handle⟩ := stored
  have hkinds : ∀ i ∈ Registry.arming name handle
      (r₁.entries.filter fun e => e.objectName = name),
      (∃ e ∈ r₁.entries, e.objectName = name ∧ i = .arm handle e) ∨
        i.entry = none ∧ ¬ i.Acquires := by
    intro i hi
    simp only [Registry.arming, List.mem_append, List.mem_map, List.mem_filter,
      decide_eq_true_eq, List.mem_singleton] at hi
    rcases hi with (⟨e, ⟨he, hname⟩, rfl⟩ | hi) | rfl
    · exact .inl ⟨e, he, hname, rfl⟩
    · split at hi
      · rw [List.mem_singleton.mp hi]
        exact .inr ⟨rfl, id⟩
      · cases hi
    · exact .inr ⟨rfl, id⟩
  refine ⟨h.handles, fun e he => ?_, h.armed, ?_, ?_⟩
  · refine h.waiting e ?_
    simp only [List.mem_append, List.mem_filter] at he ⊢
    exact he.imp_left And.left
  · intro i hi
    rcases List.mem_append.mp hi with hi | hi
    · rcases hkinds i hi with ⟨e, he, rfl, rfl⟩ | ⟨hnone, -⟩
      · exact ⟨hlookup, h.waiting e (List.mem_append_left _ he)⟩
      · exact i.ok_of_entry _ hnone
    · exact i.ok_of_entry _ (hk i hi)
  · refine order_append (order_of_not_acquires fun i hi => ?_) h.order (.inr hk)
    rcases hkinds i hi with ⟨e, -, -, rfl⟩ | ⟨-, hnot⟩
    · exact id
    · exact hnot

/-- Against the handle that is stored already. -/
theorem attachments_armAgainst_live {k : List Instr} {obj : ℕ} (h : Attachments r k)
    (hk : ∀ i ∈ k, i.entry = none) (hlive : r.liveHandle name = some obj) :
    Attachments (r.armAgainst name obj).1 ((r.armAgainst name obj).2 ++ k) := by
  refine attachments_armAgainst name obj ?_ hk
  rw [storeHandle_self name (lookup_of_liveHandle name hlive)]
  exact h

/-- Against a handle just made. -/
theorem attachments_armAgainst_new {k : List Instr} (h : Attachments r k)
    (hk : ∀ i ∈ k, i.entry = none) :
    Attachments (r.newHandle.2.armAgainst name r.newHandle.1).1
      ((r.newHandle.2.armAgainst name r.newHandle.1).2 ++ k) := by
  refine attachments_armAgainst name r.newHandle.1 (Rehandles.keeps ?_ h hk) hk
  refine rehandles_storeHandle name h.handles ?_
  rintro hnone e he rfl
  obtain ⟨handle, hlookup, -⟩ := (h.armed e he).once
  rw [hnone] at hlookup
  cases hlookup

theorem rehandles_dropHandle (hok : r.HandlesOk) : Rehandles r (r.dropHandle name).1 := by
  rw [Registry.dropHandle_eq]
  refine ⟨⟨_, rfl, by simp [Event.Quiet, Event.subject]⟩, le_rfl, ?_, ?_, ?_, ?_⟩
  · intro other handle h
    by_cases hother : other = name
    · rw [hother, AList.lookup_erase] at h
      cases h
    · rw [AList.lookup_erase_ne hother] at h
      exact .inl h
  · intro other other' handle h h' hnew
    by_cases hother : other = name
    · rw [hother, AList.lookup_erase] at h
      cases h
    · rw [AList.lookup_erase_ne hother] at h
      exact absurd (hok.issued other handle h) hnew.not_gt
  · intro e he
    have hfrom : e ∈ r.entries ++ r.held ∨ e ∈ r.armed ∧ e.objectName = name := by
      simp only [List.mem_append] at he ⊢
      split_ifs at he <;> simp at he <;> tauto
    refine hfrom.imp (fun h => ⟨e, h, rfl⟩) fun ⟨harmed, hname⟩ => ⟨e, harmed, rfl, ?_⟩
    intro handle h
    rw [hname, AList.lookup_erase] at h
    cases h
  · intro e he
    obtain ⟨he, hname⟩ := List.mem_filter.mp he
    exact ⟨he, AList.lookup_erase_ne (by simpa using hname)⟩

theorem rehandles_reviveAll (r : Registry) : Rehandles r r.reviveAll.1 := by
  refine ⟨⟨_, rfl, fun ev hev => ?_⟩, le_rfl, ?_, ?_, ?_, ?_⟩
  · obtain ⟨stored, -, rfl⟩ := List.mem_map.mp hev
    rfl
  · intro name handle h
    cases h
  · intro name name' handle h
    cases h
  · intro e he
    have hfrom : (∃ e₀ ∈ r.entries ++ r.held, e₀.id = e.id) ∨ ∃ e₀ ∈ r.armed, e₀.id = e.id := by
      simp only [Registry.reviveAll, List.mem_append, List.mem_map, List.mem_filter] at he ⊢
      rcases he with (he | ⟨e₀, ⟨he₀, -⟩, rfl⟩) | he | ⟨he, -⟩
      · exact .inl ⟨e, .inl he, rfl⟩
      · exact .inr ⟨e₀, he₀, rfl⟩
      · exact .inl ⟨e, .inr he, rfl⟩
      · exact .inr ⟨e, he, rfl⟩
    rcases hfrom with hwaited | ⟨e₀, he₀, hid⟩
    · exact .inl hwaited
    · refine .inr ⟨e₀, he₀, hid, fun handle h => ?_⟩
      cases h
  · intro e he
    cases he

theorem rehandles_reviveHeld (hok : r.HandlesOk) : Rehandles r (r.reviveHeld name).1 := by
  simp only [Registry.reviveHeld]
  split
  · refine .of_same ⟨[], by simp, by simp⟩ le_rfl rfl (fun e he => ?_) rfl hok
    simp only [List.mem_append, List.mem_map] at he ⊢
    rcases he with he | ⟨e₀, he₀, rfl⟩
    · exact ⟨e, .inl he, rfl⟩
    · exact ⟨e₀, .inr he₀, rfl⟩
  · refine .of_same ⟨[], by simp, by simp⟩ le_rfl rfl (fun e he => ?_) rfl hok
    simp only [List.mem_append, List.mem_map, List.mem_filter] at he ⊢
    rcases he with (he | ⟨e₀, ⟨he₀, -⟩, rfl⟩) | ⟨he, -⟩
    · exact ⟨e, .inl he, rfl⟩
    · exact ⟨e₀, .inr he₀, rfl⟩
    · exact ⟨e, .inr he, rfl⟩

theorem attachments_beginAcquire {k : List Instr} (async : Bool) (o : Oracle)
    (h : Attachments r k) (hk : ∀ i ∈ k, i.entry = none) :
    Attachments (r.beginAcquire async name o).1.1 ((r.beginAcquire async name o).1.2 ++ k) := by
  rcases r.beginAcquire_cases async name o with
    ⟨-, hacquire⟩ | ⟨-, acquiring, inFlight, hacquire⟩
  · rw [hacquire]
    exact attachments_armAgainst_new name h hk
  · rw [hacquire]
    exact (rehandles_abandonFlight h.handles acquiring inFlight).keeps h hk

/-- Instructions that have no entry. -/
theorem Attachments.more {k k' : List Instr} (h : Attachments r k')
    (hk' : (∀ i ∈ k, ¬ i.Acquires) ∨ ∀ i ∈ k', i.entry = none) (hk : ∀ i ∈ k, i.entry = none) :
    Attachments r (k ++ k') where
  handles := h.handles
  waiting := h.waiting
  armed := h.armed
  stack i hi := (List.mem_append.mp hi).elim (fun hi => i.ok_of_entry r (hk i hi)) (h.stack i)
  order := order_append (order_of_entry hk) h.order hk'

/-- What is logged about no entry, in the middle of loops or not. -/
theorem Attachments.quiet {k : List Instr} (h : Attachments r k) (es : List Event)
    (hes : ∀ ev ∈ es, ev.Quiet) : Attachments { r with log := r.log ++ es } k := by
  have hsame : Rehandles r { r with log := r.log ++ es } :=
    .of_same ⟨es, rfl, hes⟩ le_rfl rfl (fun e he => ⟨e, he, rfl⟩) rfl h.handles
  exact hsame.keeps_of_same rfl h

theorem attachments_report {k : List Instr} (event : SubscriptionEvent) (reason : QString)
    (h : Attachments r k) : Attachments (r.report name event reason).1
      ((r.report name event reason).2 ++ k) := by
  simp only [Registry.report]
  split_ifs
  · have hedge := h.quiet [.edge name event (r.targets name).generation reason]
      (by simp [Event.Quiet, Event.subject])
    refine hedge.more (.inl fun i hi => ?_) fun i hi => ?_
    · rw [List.mem_singleton.mp hi]
      exact id
    · rw [List.mem_singleton.mp hi]
      rfl
  · exact h

theorem attachments_reportStillPending {k : List Instr} (elapsed : ℕ → ℕ)
    (h : Attachments r k) : Attachments (r.reportStillPending elapsed) k := by
  have hsame : Rehandles r (r.reportStillPending elapsed) := by
    refine .of_same ⟨[], (List.append_nil r.log).symm, by simp⟩ le_rfl rfl (fun e he => ?_) rfl h.handles
    simp only [Registry.reportStillPending, List.mem_append, List.mem_map] at he ⊢
    rcases he with ⟨e₀, he₀, rfl⟩ | he
    · exact ⟨e₀, .inl he₀, by split_ifs <;> rfl⟩
    · exact ⟨e, .inr he, rfl⟩
  exact hsame.keeps_of_same rfl h

/-- The entries that `abandon` takes out wait no more. -/
theorem attachments_abandon (h : Attachments r []) :
    Attachments (r.abandon name).1 ((r.abandon name).2 ++ []) := by
  obtain ⟨timer, htake⟩ := r.takeMatching_eq name
  simp only [Registry.abandon, htake]
  have hfewer : Attachments { r with
      entries := r.entries.filter fun e => e.objectName ≠ name, timer := timer } [] := by
    refine ⟨h.handles, fun e he => h.waiting e ?_, h.armed, by simp, .nil⟩
    simp only [List.mem_append, List.mem_filter] at he ⊢
    exact he.imp_left And.left
  refine ⟨hfewer.handles, hfewer.waiting, hfewer.armed, fun i hi => ?_,
    order_append (order_of_not_acquires fun i hi => ?_) .nil (.inr (by simp))⟩
  · simp only [List.append_nil, List.mem_append, List.mem_map] at hi
    rcases hi with ⟨e, -, rfl⟩ | hi
    · trivial
    · split at hi
      · cases hi
      · rw [List.mem_singleton.mp hi]
        trivial
  · simp only [List.mem_append, List.mem_map] at hi
    rcases hi with ⟨e, -, rfl⟩ | hi
    · exact id
    · split at hi
      · cases hi
      · rw [List.mem_singleton.mp hi]
        exact id

end operations

/-! ## Instructions -/

/-- An id in the hands of a loop is nowhere else. -/
theorem Partitioned.elsewhere {r : Registry} {i : Instr} {k : List Instr} {e : Entry}
    (h : Partitioned r (i :: k)) (hi : i.entry = some e) :
    (∀ e' ∈ r.entries ++ r.held, e'.id ≠ e.id) ∧ (∀ e' ∈ r.armed, e'.id ≠ e.id) ∧
      ∀ j ∈ k, ∀ e', j.entry = some e' → e'.id ≠ e.id := by
  have hnot : e.id ∉ ids r k := by
    have hnodup := h.nodup
    rw [ids, place_cons, hi, Option.toList_some, ticketsOf_cons, ticketsOf_nil, Multiset.cons_add,
      zero_add, Multiset.map_cons] at hnodup
    exact (Multiset.nodup_cons.mp hnodup).1
  have hin : ∀ e' : Entry, e'.id ∈ ids r k ↔
      (∃ e₀ ∈ r.entries ++ r.held, e₀.id = e'.id) ∨ (∃ e₀ ∈ r.armed, e₀.id = e'.id) ∨
        ∃ j ∈ k, ∃ e₀, j.entry = some e₀ ∧ e₀.id = e'.id := by
    intro e'
    simp only [ids, place, ticketsOf, inHand, Multiset.map_add, Multiset.mem_add,
      Multiset.map_coe, Multiset.mem_coe, List.map_map, List.mem_map, Function.comp_def,
      Entry.ticket, List.mem_filterMap, List.mem_append]
    constructor
    · rintro (((⟨e₀, he, hid⟩ | ⟨e₀, he, hid⟩) | ⟨e₀, he, hid⟩) | ⟨e₀, ⟨j, hj, hentry⟩, hid⟩)
      · exact .inl ⟨e₀, .inl he, hid⟩
      · exact .inr (.inl ⟨e₀, he, hid⟩)
      · exact .inl ⟨e₀, .inr he, hid⟩
      · exact .inr (.inr ⟨j, hj, e₀, hentry, hid⟩)
    · rintro (⟨e₀, he | he, hid⟩ | ⟨e₀, he, hid⟩ | ⟨j, hj, e₀, hentry, hid⟩)
      · exact .inl (.inl (.inl ⟨e₀, he, hid⟩))
      · exact .inl (.inr ⟨e₀, he, hid⟩)
      · exact .inl (.inl (.inr ⟨e₀, he, hid⟩))
      · exact .inr ⟨e₀, ⟨j, hj, hentry⟩, hid⟩
  refine ⟨fun e' he hid => ?_, fun e' he hid => ?_, fun j hj e' hentry hid => ?_⟩
  · exact hnot ((hin e).mpr (.inl ⟨e', he, hid⟩))
  · exact hnot ((hin e).mpr (.inr (.inl ⟨e', he, hid⟩)))
  · exact hnot ((hin e).mpr (.inr (.inr ⟨j, hj, e', hentry, hid⟩)))

namespace Attachments
variable {r r' : Registry} {i : Instr} {k : List Instr}

theorem of_cons (h : Attachments r (i :: k)) : Attachments r k :=
  ⟨h.handles, h.waiting, h.armed, fun j hj => h.stack j (List.mem_cons_of_mem i hj),
    (List.pairwise_cons.mp h.order).2⟩

/-- Behind an instruction that acquires, no loop is under way. -/
theorem rest (h : Attachments r (i :: k)) (hi : i.Acquires) : ∀ j ∈ k, j.entry = none :=
  fun j hj => (List.pairwise_cons.mp h.order).1 j hj hi

/-- More is logged about an id that is nowhere. -/
theorem log {e : Entry} {es : List Event} (h : Attachments r k)
    (hes : ∀ ev ∈ es, ev.subject = some e.id)
    (hnew : ∀ handle, r.nextHandle ≤ handle → attachments es e.id handle = 0)
    (hwaiting : ∀ e' ∈ r.entries ++ r.held, e'.id ≠ e.id) (harmed : ∀ e' ∈ r.armed, e'.id ≠ e.id)
    (hstack : ∀ j ∈ k, ∀ e', j.entry = some e' → e'.id ≠ e.id) :
    Attachments { r with log := r.log ++ es } k := by
  have hother : ∀ n handle, n ≠ e.id →
      attachments (r.log ++ es) n handle = attachments r.log n handle := by
    intro n handle hn
    have hnone : attachments es n handle = 0 := attachments_eq_zero (fun ev hev hsubject => by
      rw [hes ev hev] at hsubject
      exact hn (Option.some.inj hsubject).symm) handle
    rw [attachments_append, hnone, add_zero]
  have hunattached : ∀ n, n ≠ e.id → r.Unattached n →
      Registry.Unattached { r with log := r.log ++ es } n := fun n hn hold name handle hlookup =>
    (hother n handle hn).trans (hold name handle hlookup)
  have hattached : ∀ n name, n ≠ e.id → r.AttachedTo n name →
      Registry.AttachedTo { r with log := r.log ++ es } n name := by
    intro n name hn hold
    obtain ⟨handle, hlookup, honce⟩ := hold.once
    exact ⟨⟨handle, hlookup, (hother n handle hn).trans honce⟩, fun other handle hne hlookup =>
      (hother n handle hn).trans (hold.only other handle hne hlookup)⟩
  refine ⟨⟨h.handles.issued, h.handles.injective, fun n handle hle => ?_⟩, fun e' he => ?_,
    fun e' he => ?_, fun j hj => ?_, h.order⟩
  · by_cases hn : n = e.id
    · rw [attachments_append, hn, hnew handle hle, h.handles.unused e.id handle hle]
    · exact (hother n handle hn).trans (h.handles.unused n handle hle)
  · exact hunattached e'.id (hwaiting e' he) (h.waiting e' he)
  · exact hattached e'.id e'.objectName (harmed e' he) (h.armed e' he)
  · have hok := h.stack j hj
    cases j with
    | arm handle e' => exact ⟨hok.1, hunattached e'.id (hstack _ hj e' rfl) hok.2⟩
    | pushArmed e' => exact hattached e'.id e'.objectName (hstack _ hj e' rfl) hok
    | _ => trivial

end Attachments

/-- The callback of an entry attaches nothing. -/
theorem attachments_firing (ev : Event) (e : Entry) (ok : Bool) (n handle : ℕ) :
    attachments (ev :: firing e ok) n handle = if ev.attaches n handle then 1 else 0 := by
  have hnone : attachments (firing e ok) n handle = 0 := by
    refine List.countP_eq_zero.mpr fun ev' hev' => ?_
    rw [eq_of_mem_firing hev']
    exact Bool.false_ne_true
  simp only [attachments] at hnone ⊢
  rw [List.countP_cons, hnone, zero_add]

theorem entry_of_mem_userCode {e : Entry} {i : Instr} (hi : i ∈ userCode e) :
    i.entry = none ∧ ¬ i.Acquires := by
  unfold userCode at hi
  split at hi
  · rw [List.mem_singleton.mp hi]
    exact ⟨rfl, id⟩
  · cases hi

theorem subject_of_mem_cons_firing {e : Entry} {ok : Bool} {ev ev' : Event}
    (hev : ev.subject = some e.id) (h : ev' ∈ ev :: firing e ok) : ev'.subject = some e.id := by
  rcases List.mem_cons.mp h with rfl | h
  · exact hev
  · exact subject_of_mem_firing h

/-- An entry is forgotten. -/
theorem attachments_forget {r : Registry} {i : Instr} {k : List Instr} {e : Entry} {ev : Event}
    (ok : Bool) (h : Attachments r (i :: k)) (hpart : Partitioned r (i :: k))
    (hi : i.entry = some e) (hev : ev.subject = some e.id)
    (hattaches : ∀ handle, ev.attaches e.id handle = false) :
    Attachments { r with log := r.log ++ ev :: firing e ok } (userCode e ++ k) := by
  obtain ⟨hwaiting, harmed, hstack⟩ := hpart.elsewhere hi
  have hrest : Attachments { r with log := r.log ++ ev :: firing e ok } k :=
    h.of_cons.log (fun ev' hev' => subject_of_mem_cons_firing hev hev')
      (fun handle _ => by rw [attachments_firing, hattaches]; rfl) hwaiting harmed hstack
  refine ⟨hrest.handles, hrest.waiting, hrest.armed, fun j hj => ?_, ?_⟩
  · rcases List.mem_append.mp hj with hj | hj
    · exact j.ok_of_entry _ (entry_of_mem_userCode hj).1
    · exact hrest.stack j hj
  · exact order_append (order_of_not_acquires fun j hj => (entry_of_mem_userCode hj).2)
      hrest.order (.inl fun j hj => (entry_of_mem_userCode hj).2)

/-- An entry is attached to the handle that is stored for its object. -/
theorem attachments_attach {r : Registry} {handle : ℕ} {k : List Instr} {e : Entry}
    (h : Attachments r (.arm handle e :: k)) (hpart : Partitioned r (.arm handle e :: k)) :
    Attachments
      { r with log := r.log ++ .attached e.id e.objectName handle :: firing e true }
      (userCode e ++ [.pushArmed { e with everArmed := true }] ++ k) := by
  obtain ⟨hwaiting, harmed, hstack⟩ := hpart.elsewhere (e := e) rfl
  obtain ⟨hlookup, hunattached⟩ := h.stack _ List.mem_cons_self
  have hcount : ∀ handle', attachments
      (.attached e.id e.objectName handle :: firing e true) e.id handle' =
      if handle' = handle then 1 else 0 := by
    intro handle'
    rw [attachments_firing]
    by_cases hsame : handle' = handle
    · simp [Event.attaches, hsame]
    · simp [Event.attaches, hsame, Ne.symm hsame]
  have hissued := h.handles.issued _ _ hlookup
  have hrest : Attachments
      { r with log := r.log ++ .attached e.id e.objectName handle :: firing e true } k := by
    refine h.of_cons.log (fun ev' hev' => subject_of_mem_cons_firing rfl hev')
      (fun handle' hle => ?_) hwaiting harmed hstack
    rw [hcount, if_neg (by omega)]
  have hattached : Registry.AttachedTo
      { r with log := r.log ++ .attached e.id e.objectName handle :: firing e true }
      e.id e.objectName := by
    refine ⟨⟨handle, hlookup, ?_⟩, fun other handle' hother hlookup' => ?_⟩
    · rw [attachments_append, hunattached _ _ hlookup, hcount, if_pos rfl]
    · have hne : handle' ≠ handle := by
        rintro rfl
        exact hother (h.handles.injective _ _ _ hlookup' hlookup)
      rw [attachments_append, hunattached _ _ hlookup', hcount, if_neg hne]
  refine ⟨hrest.handles, hrest.waiting, hrest.armed, fun j hj => ?_, ?_⟩
  · simp only [List.mem_append, List.mem_singleton] at hj
    rcases hj with (hj | rfl) | hj
    · exact j.ok_of_entry _ (entry_of_mem_userCode hj).1
    · exact hattached
    · exact hrest.stack j hj
  · have hfront : ∀ j ∈ userCode e ++ [.pushArmed { e with everArmed := true }],
        ¬ j.Acquires := by
      intro j hj
      rcases List.mem_append.mp hj with hj | hj
      · exact (entry_of_mem_userCode hj).2
      · rw [List.mem_singleton.mp hj]
        exact id
    exact order_append (order_of_not_acquires hfront) hrest.order (.inl hfront)

theorem attachments_exec {async : Bool} {r : Registry} {i : Instr} {k : List Instr} {o : Oracle}
    {r' : Registry × List Instr} (h : Attachments r (i :: k)) (hpart : Partitioned r (i :: k))
    (hexec : exec async r i o = some r') : Attachments r'.1 (r'.2 ++ k) := by
  have hsame : Attachments r k := h.of_cons
  cases i with
  | callback =>
    cases hexec
    exact hsame
  | arm handle e =>
    cases hprobe : e.readinessOnly with
    | true =>
      rw [exec_arm_probe r handle o hprobe] at hexec
      cases hexec
      exact attachments_forget true h hpart rfl rfl fun _ => rfl
    | false =>
      rw [exec_arm_real r handle o hprobe] at hexec
      cases hexec
      exact attachments_attach h hpart
  | pushArmed e =>
    cases hexec
    have hattached := h.stack _ List.mem_cons_self
    refine ⟨hsame.handles, hsame.waiting, fun e' he => ?_, hsame.stack, hsame.order⟩
    rcases List.mem_append.mp he with he | he
    · exact hsame.armed e' he
    · rw [List.mem_singleton.mp he]
      exact hattached
  | abandon e =>
    rw [exec_abandon] at hexec
    cases hexec
    exact attachments_forget false h hpart rfl rfl fun _ => rfl
  | report name event reason =>
    cases hexec
    exact attachments_report name event reason hsame
  | ensureTimer =>
    cases hexec
    rw [Registry.ensureTimer_eq]
    exact ⟨hsame.handles, hsame.waiting, hsame.armed, hsame.stack, hsame.order⟩
  | beginAcquire name =>
    cases hexec
    exact attachments_beginAcquire name async o hsame (h.rest trivial)
  | checkLiveness =>
    simp only [exec] at hexec
    split_ifs at hexec
    · cases hexec
      exact hsame
    · cases hexec
      refine hsame.more (.inr (h.rest trivial)) fun j hj => ?_
      simp only [List.mem_append, List.mem_map, List.mem_singleton] at hj
      rcases hj with ⟨n, -, rfl⟩ | rfl <;> rfl
  | drop name =>
    cases hexec
    have hdrop := (rehandles_dropHandle name h.handles).keeps hsame (h.rest trivial)
    exact hdrop.more (.inr (h.rest trivial)) fun j hj => entry_dropHandle hj
  | chase name =>
    simp only [exec] at hexec
    split_ifs at hexec
    · cases hexec
      exact attachments_beginAcquire name async o hsame (h.rest trivial)
    · cases hexec
      exact hsame
  | chaseWanted =>
    simp only [exec, Option.ite_none_right_eq_some, Option.some.injEq] at hexec
    obtain ⟨-, rfl⟩ := hexec
    refine hsame.more (.inr (h.rest trivial)) fun j hj => ?_
    obtain ⟨n, -, rfl⟩ := List.mem_map.mp hj
    rfl
  | finishTick =>
    cases hexec
    rw [Registry.rescheduleOrStop_eq]
    have hpending := attachments_reportStillPending o.elapsed hsame
    exact ⟨hpending.handles, hpending.waiting, hpending.armed, hpending.stack, hpending.order⟩

/-! ## Calls -/

theorem attachments_push {r : Registry} (e : Entry) (h : Attachments r [])
    (hpart : Partitioned r []) : Attachments (r.push e) [] := by
  have hadded : ∀ ev ∈ [Event.added r.nextId], ev.subject = some r.nextId := by simp [Event.subject]
  have hsilent : ∀ n handle, attachments (r.log ++ [.added r.nextId]) n handle =
      attachments r.log n handle := by
    intro n handle
    rw [attachments_append]
    rfl
  have hnew : ∀ handle, attachments r.log r.nextId handle = 0 :=
    attachments_eq_zero fun ev hev hsubject => Partition.fresh hpart hsubject hev
  refine ⟨⟨h.handles.issued, h.handles.injective, fun n handle hle => ?_⟩, fun e' he => ?_,
    fun e' he => ?_, by simp, .nil⟩
  · exact (hsilent n handle).trans (h.handles.unused n handle hle)
  · intro name handle hlookup
    refine (hsilent e'.id handle).trans ?_
    simp only [Registry.push, Registry.emit, List.mem_append, List.mem_singleton] at he
    rcases he with (he | rfl) | he
    · exact h.waiting e' (List.mem_append_left _ he) name handle hlookup
    · exact hnew handle
    · exact h.waiting e' (List.mem_append_right _ he) name handle hlookup
  · obtain ⟨handle, hlookup, honce⟩ := (h.armed e' he).once
    refine ⟨⟨handle, hlookup, (hsilent e'.id handle).trans honce⟩, fun other handle' hne hother => ?_⟩
    exact (hsilent e'.id handle').trans ((h.armed e' he).only other handle' hne hother)

theorem attachments_add {r : Registry} (async : Bool) (e : Entry) (o : Oracle)
    (h : Attachments r []) (hpart : Partitioned r []) :
    Attachments (r.add async e o).1 (r.add async e o).2 := by
  have hpush := attachments_push e h hpart
  rw [← List.append_nil (r.add async e o).2]
  rcases r.add_cases async e o with
    ⟨obj, hlive, hadd⟩ | ⟨-, -, hadd⟩ | ⟨-, -, _, _, _, hadd⟩
  · rw [hadd]
    exact attachments_armAgainst_live e.objectName hpush (by simp) hlive
  · rw [hadd]
    exact attachments_armAgainst_new e.objectName hpush (by simp)
  · rw [hadd]
    exact ⟨hpush.handles, hpush.waiting, hpush.armed, hpush.stack, hpush.order⟩

theorem attachments_cancel {r : Registry} (n : ℕ) (h : Attachments r []) :
    Attachments (r.cancel n).1 [] := by
  have hlog : ∀ m handle, attachments (r.log ++ [.cancelled n]) m handle =
      attachments r.log m handle := by
    intro m handle
    rw [attachments_append]
    rfl
  have hkeeps : ∀ r' : Registry, r'.handles = r.handles → r'.nextHandle = r.nextHandle →
      r'.log = r.log ++ [.cancelled n] → (∀ e ∈ r'.entries ++ r'.held, e ∈ r.entries ++ r.held) →
      (∀ e ∈ r'.armed, e ∈ r.armed) → Attachments r' [] := by
    intro r' hhandles hnext hlog' hwaiting harmed
    have hhandles' : r'.HandlesOk := by
      refine ⟨?_, ?_, fun m handle hle => ?_⟩
      · rw [hhandles, hnext]
        exact h.handles.issued
      · rw [hhandles]
        exact h.handles.injective
      · rw [hlog', hlog]
        exact h.handles.unused m handle (hnext ▸ hle)
    refine ⟨hhandles', fun e he name handle hlookup => ?_, fun e he => ?_, by simp, .nil⟩
    · rw [hlog', hlog]
      exact h.waiting e (hwaiting e he) name handle (hhandles ▸ hlookup)
    · obtain ⟨handle, hlookup, honce⟩ := (h.armed e (harmed e he)).once
      refine ⟨⟨handle, by rw [hhandles, hlookup], by rw [hlog', hlog, honce]⟩, ?_⟩
      intro other handle' hne hother
      rw [hlog', hlog]
      exact (h.armed e (harmed e he)).only other handle' hne (hhandles ▸ hother)
  simp only [Registry.cancel]
  split_ifs
  · rw [Registry.stopTimerIfIdle_eq]
    refine hkeeps _ rfl rfl rfl (fun e he => ?_) fun e he => he
    exact (List.mem_append.mp he).elim (fun he => List.mem_append_left _ (List.mem_of_mem_eraseP he))
      (List.mem_append_right _)
  · exact hkeeps _ rfl rfl rfl (fun e he => he) fun e he => List.mem_of_mem_eraseP he
  · refine hkeeps _ rfl rfl rfl (fun e he => ?_) fun e he => he
    exact (List.mem_append.mp he).elim (List.mem_append_left _)
      fun he => List.mem_append_right _ (List.mem_of_mem_eraseP he)
  · exact h

theorem attachments_rearm {r : Registry} (name : QString) (async : Bool) (o : Oracle)
    (h : Attachments r []) :
    Attachments (r.rearm async name o).1.1 (r.rearm async name o).1.2 := by
  have hrevive := (rehandles_reviveHeld name h.handles).keeps h (by simp)
  have htimer : ∀ {r' : Registry} {k : List Instr}, Attachments r' (k ++ []) →
      Attachments r' (k ++ [.ensureTimer]) := by
    intro r' k hr
    rw [List.append_nil] at hr
    refine ⟨hr.handles, hr.waiting, hr.armed, fun i hi => ?_, ?_⟩
    · rcases List.mem_append.mp hi with hi | hi
      · exact hr.stack i hi
      · rw [List.mem_singleton.mp hi]
        trivial
    · exact order_append hr.order (by simp) (.inr (by simp [Instr.entry]))
  simp only [Registry.rearm]
  generalize r.reviveHeld name = revived at hrevive ⊢
  obtain ⟨r₁, any⟩ := revived
  cases any with
  | false => exact hrevive
  | true =>
    dsimp only
    cases hlive : r₁.liveHandle name with
    | some obj => exact htimer (attachments_armAgainst_live name hrevive (by simp) hlive)
    | none => exact htimer (attachments_beginAcquire name async o hrevive (by simp))

theorem attachments_setTarget {r : Registry} {k : List Instr} (name : QString) (t : Target)
    (h : Attachments r k) : Attachments (r.setTarget name t) k :=
  ⟨h.handles, h.waiting, h.armed, h.stack, h.order⟩

theorem attachments_call {async : Bool} {r : Registry} {op : Op} {o : Oracle}
    {r' : Registry × List Instr} (h : Attachments r []) (hpart : Partitioned r [])
    (hcall : call async r op o = some r') : Attachments r'.1 r'.2 := by
  have hrefuse : ∀ onArmed : Option ℕ, Attachments r (r.refuse onArmed).2 := by
    intro onArmed
    rw [← List.append_nil (r.refuse onArmed).2]
    exact h.more (.inr (by simp)) fun i hi => entry_refuse hi
  cases op with
  | onEventWhenAvailable objectName eventName callback onArmed =>
    simp only [call] at hcall
    split_ifs at hcall
    · cases hcall
      exact hrefuse onArmed
    · cases hcall
      exact attachments_add async _ o h hpart
  | whenObjectAvailable objectName onReady =>
    simp only [call] at hcall
    split_ifs at hcall
    · cases hcall
      exact hrefuse _
    · cases hcall
      exact attachments_add async _ o h hpart
  | cancelEventSubscription n =>
    cases hcall
    exact attachments_cancel n h
  | setSubscriptionStatusCallback objectName installed =>
    simp only [call] at hcall
    split_ifs at hcall
    · cases hcall
      exact h
    · cases hcall
      have htarget := attachments_setTarget objectName
        { r.targets objectName with onStatus := installed } h
      simp only [Registry.setStatusCallback]
      split_ifs
      · rw [← List.append_nil (Prod.snd _)]
        exact attachments_report objectName _ _ htarget
      · rw [← List.append_nil (Prod.snd _)]
        exact attachments_report objectName _ _ htarget
      · exact htarget
  | setSubscriptionRestartPolicy objectName policy =>
    simp only [call] at hcall
    split_ifs at hcall
    · cases hcall
      exact h
    · cases hcall
      exact attachments_setTarget objectName _ h
  | rearmSubscriptions objectName =>
    simp only [call] at hcall
    split_ifs at hcall
    · cases hcall
      exact h
    · cases hcall
      exact attachments_rearm objectName async o h
  | reconnect =>
    simp only [call, Registry.reconnected, Option.ite_none_right_eq_some, Option.some.injEq] at hcall
    obtain ⟨-, rfl⟩ := hcall
    have hflight := (rehandles_abandonFlight h.handles r.acquiring []).keeps h (by simp)
    have hrevive := (rehandles_reviveAll { r with inFlight := [] }).keeps hflight (by simp)
    rw [← List.append_nil (Prod.snd _)]
    refine hrevive.more (.inr (by simp)) fun i hi => ?_
    simp only [List.mem_append, List.mem_map, List.mem_singleton] at hi
    rcases hi with (⟨n, -, rfl⟩ | ⟨n, -, rfl⟩) | rfl <;> rfl
  | tick =>
    cases hcall
    rw [← List.append_nil (Prod.snd _)]
    exact h.more (.inr (by simp)) (by simp [Instr.entry])
  | acquired objectName ok =>
    simp only [call, Option.ite_none_right_eq_some, Option.some.injEq] at hcall
    obtain ⟨-, rfl⟩ := hcall
    have hdone := (rehandles_abandonFlight h.handles
      (Function.update r.acquiring objectName false) (r.inFlight.erase objectName)).keeps h (by simp)
    rw [← List.append_nil (Prod.snd _)]
    simp only [Registry.acquired]
    split_ifs
    · exact attachments_armAgainst_new objectName hdone (by simp)
    · exact attachments_abandon objectName hdone
  | setValid handle valid =>
    cases hcall
    exact ⟨h.handles, h.waiting, h.armed, h.stack, h.order⟩

theorem attachments_initial : Attachments {} [] where
  handles := ⟨by simp, by simp, fun _ _ _ => rfl⟩
  waiting := by simp
  armed := by simp
  stack := by simp
  order := .nil

theorem attachments_of_reachable {async : Bool} {c : Program.Config Registry Instr}
    (h : (program async).flat.Reachable c) :
    Partitioned c.data c.stack ∧ Attachments c.data c.stack := by
  refine Program.flat_invariant (P := program async)
    (I := fun r k => Partitioned r k ∧ Attachments r k)
    ⟨partitioned_initial, attachments_initial⟩ ?_ ?_ h
  · rintro r i k o r' ⟨hpart, hattach⟩ hexec
    exact ⟨partitioned_exec hpart hexec, attachments_exec hattach hpart hexec⟩
  · rintro r op o r' ⟨hpart, hattach⟩ hcall
    have hidle := partitioned_call hpart hcall
    rw [List.append_nil] at hidle
    exact ⟨hidle, attachments_call hattach hpart hcall⟩

/-! ## The registry between operations -/

/-- `eventSubscriptionState` names the vector that an id is in. -/
def ReportsPlace (r : Registry) (n : ℕ) : Prop :=
  (r.eventSubscriptionState n = .pending ↔ ∃ e ∈ r.entries, e.id = n) ∧
  (r.eventSubscriptionState n = .armed ↔ ∃ e ∈ r.armed, e.id = n) ∧
  (r.eventSubscriptionState n = .held ↔ ∃ e ∈ r.held, e.id = n)

/-- It does, when no id is in two. -/
theorem reportsPlace {r : Registry} (h : Partitioned r []) (n : ℕ) : ReportsPlace r n := by
  have hnodup : ((r.entries ++ r.armed ++ r.held).map Entry.id).Nodup := by
    simpa [Partitioned, ids, place, ticketsOf, Function.comp_def, Entry.ticket] using h.nodup
  simp only [List.map_append, List.nodup_append', List.disjoint_append_left] at hnodup
  obtain ⟨⟨-, -, hea⟩, -, heh, hah⟩ := hnodup
  have hmem : ∀ es : List Entry, n ∈ es.map Entry.id ↔ ∃ e ∈ es, e.id = n := fun es => by simp
  have hany : ∀ es : List Entry, (es.any fun e => e.id = n) = true ↔ ∃ e ∈ es, e.id = n :=
    fun es => by simp
  simp only [ReportsPlace, Registry.eventSubscriptionState, hany, ← hmem]
  refine ⟨?_, ?_, ?_⟩
  all_goals
    have h₁ := @hea n
    have h₂ := @heh n
    have h₃ := @hah n
    split_ifs <;> simp_all

/-- An id that is kept stands in the three vectors once. -/
theorem count_eq_one {r : Registry} (h : Partitioned r []) {n : ℕ} (hlive : Live r.log n) :
    (r.entries ++ r.armed ++ r.held).countP (fun e => e.id = n) = 1 := by
  have hcount : (ids r []).count n =
      (r.entries ++ r.armed ++ r.held).countP (fun e => e.id = n) := by
    simp only [ids, place, ticketsOf, inHand_nil, List.map_nil, Multiset.coe_nil, add_zero,
      Multiset.coe_add, Multiset.map_coe, Multiset.coe_count, ← List.map_append, List.map_map]
    rw [List.count_eq_countP, List.countP_map]
    exact List.countP_congr fun e _ => by simp [Entry.ticket]
  rw [← hcount]
  exact Multiset.count_eq_one_of_mem h.nodup ((h.live n).mpr hlive)

/-- A probe that `whenObjectAvailable` has just taken. -/
theorem probing_of_call {async : Bool} {c₀ c₁ : Program.Config Registry Instr} {o : Oracle}
    {objectName : QString} {onReady : ℕ} (h : Partitioned c₀.data c₀.stack)
    (hname : objectName ≠ [])
    (hcall : (program async).next c₀ (.call (.whenObjectAvailable objectName onReady) o) = some c₁) :
    Probing c₀.data.nextId c₁.data c₁.stack := by
  obtain ⟨r, hr, rfl⟩ := Program.next_call hcall
  simp only [program, call, if_neg hname, Option.some.injEq] at hr
  subst hr
  have hnot : ∀ b, (c₀.data.nextId, b) ∉ place c₀.data c₀.stack := fun b hin =>
    absurd (Partition.lt h (Multiset.mem_map_of_mem Prod.fst hin)) (lt_irrefl _)
  have hnone : firings c₀.data.log c₀.data.nextId = 0 :=
    firings_eq_zero fun ev hev hsubject => Partition.fresh h hsubject hev
  refine Probing.moves ⟨Nat.lt_succ_self _, ?_, ?_⟩ (moves_add async _ _ o)
  · rw [place_push, Multiset.mem_cons]
    exact fun hin => hin.elim (by simp) (hnot false)
  · rw [place_push, Multiset.count_cons_self, Multiset.count_eq_zero_of_notMem (hnot true)]
    simp only [Registry.push, Registry.emit, firings_append, hnone]
    rfl

/-- **The registry is a partition.**  When nothing is left to do, every id that is kept is in one
vector, once, `eventSubscriptionState` says which, and every armed subscription was attached
once to the handle of its object; and a probe's callback runs at most once. -/
theorem registry_partition {async : Bool} {c : Program.Config Registry Instr}
    (h : (program async).flat.Reachable c) :
    (c.stack = [] →
      (∀ n, Live c.data.log n →
        (c.data.entries ++ c.data.armed ++ c.data.held).countP (fun e => e.id = n) = 1) ∧
      (∀ n, ReportsPlace c.data n) ∧
      ∀ e ∈ c.data.armed, ∃ handle, c.data.handles.lookup e.objectName = some handle ∧
        attachments c.data.log e.id handle = 1) ∧
    ∀ c₀ c₁ objectName onReady o as, objectName ≠ [] → (program async).flat.Reachable c₀ →
      (program async).flat.step c₀ (.call (.whenObjectAvailable objectName onReady) o) c₁ →
      (program async).flat.Run c₁ as c → firings c.data.log c₀.data.nextId ≤ 1 := by
  obtain ⟨hpart, hattach⟩ := attachments_of_reachable h
  refine ⟨fun hidle => ?_, ?_⟩
  · rw [hidle] at hpart
    exact ⟨fun n => count_eq_one hpart, reportsPlace hpart, fun e he => (hattach.armed e he).once⟩
  · rintro c₀ c₁ objectName onReady o as hname h₀ ⟨hcall, -⟩ hrun
    have hstart := probing_of_call (attachments_of_reachable h₀).1 hname hcall
    have hend : Probing c₀.data.nextId c.data c.stack := by
      refine hrun.invariant (I := fun c => Probing c₀.data.nextId c.data c.stack) ?_ hstart
      rintro s a s' hI ⟨hstep, -⟩
      exact Program.next_invariant (fun i k o r _ hI hexec => probing_exec hI hexec)
        (fun op o r _ hI hcall => probing_call hI hcall) hI hstep
    have honce := hend.once
    omega

/-- A subscription armed at once. -/
theorem registry_partition_armed : ∃ c, (program true).flat.Reachable c ∧ c.stack = [] ∧
    ∃ handle, c.data.handles.lookup (qstr "wallet") = some handle ∧
      attachments c.data.log 1 handle = 1 := by
  have h₀ : (program true).flat.Reachable ⟨{}, []⟩ := .init rfl
  have h₁ := h₀.next (.call (.onEventWhenAvailable (qstr "wallet") [] 7 none)
    { now := true }) (by simp [Program.Nested]) rfl
  have h₂ := h₁.next (.step {}) id rfl
  have h₃ := h₂.next (.step {}) id rfl
  have h₄ := h₃.next (.step {}) id rfl
  have h₅ := h₄.next (.step {}) id rfl
  refine ⟨_, h₅, rfl, ?_⟩
  have harmed := ((registry_partition h₅).1 rfl).2.2
  exact harmed _ List.mem_cons_self

end LogosProtocol.PendingSubscriptions
