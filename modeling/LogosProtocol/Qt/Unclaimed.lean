import LogosProtocol.Qt.RemoteObject
import LogosProtocol.Qt.LocalObject
import LogosProtocol.Async.Parking
import LogosProtocol.Async.SyncCalls

/-!
# Completions that nobody claims

Every handle hears every completion of its provider.  A handle of the plain transport drops what
nobody could claim, so it keeps nothing between its calls.  The handles of the Qt transports keep
each one until it is claimed, so what they keep is bounded by their own calls only if each
completion is that of a call of theirs which goes on to claim it.

## Main definitions

* `Ledgered` — every value that is kept is owed to a call.
* `RemoteObject.Claimed`, `LocalObject.Claimed` — the steps that keep it so.
-/

namespace LogosProtocol

namespace Qt

open Async

/-- A completion with this id, if there is one, is still to be claimed by the call itself. -/
def Call.Claims (callId : QString) (call : Call) : Prop :=
  match call.pc with
  | .sent => True
  | .finished answer => answer.callId = some callId
  | .waiting callId' => callId' = callId ∧ call.async = false
  | _ => False

/-- The provider has deferred the call under this id. -/
def Call.Named (callId : QString) (call : Call) : Prop :=
  match call.pc with
  | .finished answer => answer.callId = some callId
  | .waiting callId' => callId' = callId
  | _ => False

/-- A callback waits for this completion. -/
def Call.Registered (callId : QString) (call : Call) : Prop :=
  call.async = true ∧ call.pc = .waiting callId

/-- Every value that is kept under one of these ids is owed to a call that is to claim it, and the
callbacks are those of the calls that wait with one.  `minted` gives the id that the provider defers
a call under. -/
structure Ledgered (minted : ℕ → Option QString) (ids : Set QString)
    (values : QHash QString QVariant) (callbacks : QHash QString ℕ) (calls : ℕ → Call) : Prop where
  owed : ∀ id ∈ values, id ∈ ids → ∃ n, minted n = some id ∧ (calls n).Claims id
  named : ∀ n id, (calls n).Named id → minted n = some id
  registered : ∀ n id, (calls n).Registered id ↔ callbacks.lookup id = some n

/-- Call ids are distinct. -/
def Distinct (minted : ℕ → Option QString) : Prop :=
  ∀ n m id, minted n = some id → minted m = some id → n = m

section ledger
variable {minted : ℕ → Option QString} {ids : Set QString} {values : QHash QString QVariant}
  {callbacks : QHash QString ℕ} {calls calls' : ℕ → Call} {call : Call} {n : ℕ} {id : QString}

theorem ledgered_initial : Ledgered minted ids ∅ ∅ fun _ => {} where
  owed id hid _ := absurd hid (AList.notMem_empty id)
  named n id hnamed := hnamed.elim
  registered n id := by
    constructor
    · intro hregistered
      cases hregistered.2
    · intro hlookup
      cases hlookup

theorem Call.Registered.named (h : call.Registered id) : call.Named id := by
  rw [Call.Named, h.2]

/-- A call that does not wait has no callback there. -/
theorem Call.not_registered {pc : CallPc} (hpc : call.pc = pc) (hne : ∀ id, pc ≠ .waiting id)
    (id : QString) : ¬ call.Registered id := by
  rintro ⟨-, hwaiting⟩
  exact hne id (hpc.symm.trans hwaiting)

/-- Nor has a synchronous one. -/
theorem Call.not_registered_of_sync (hsync : call.async = false) (id : QString) :
    ¬ call.Registered id := by
  rintro ⟨hasync, -⟩
  rw [hsync] at hasync
  cases hasync

theorem Call.named_of_finished {answer : Answer} (hfinished : call.pc = .finished answer)
    (hcallId : answer.callId = some id) : call.Named id := by
  rw [Call.Named, hfinished]
  exact hcallId

theorem Call.named_of_waiting (hwaiting : call.pc = .waiting id) : call.Named id := by
  rw [Call.Named, hwaiting]

theorem Call.Registered.not_claims (h : call.Registered id) {id' : QString} :
    ¬ call.Claims id' := by
  rw [Call.Claims, h.2]
  rintro ⟨-, hsync⟩
  rw [h.1] at hsync
  cases hsync

/-- With nothing outstanding, nothing is kept. -/
theorem Ledgered.empty (h : Ledgered minted Set.univ values callbacks calls)
    (hidle : ∀ n, ¬ (calls n).Outstanding) : values = ∅ := by
  refine AList.ext (List.eq_nil_iff_forall_not_mem.mpr fun ⟨id, v⟩ hin => ?_)
  obtain ⟨n, -, hclaims⟩ := h.owed id (AList.mem_keys.mpr (List.mem_map_of_mem hin)) trivial
  refine hidle n ?_
  unfold Call.Outstanding
  unfold Call.Claims at hclaims
  split <;> simp_all

/-- What a step may do to a call that neither waits with a callback before it nor after it. -/
structure Moves (minted : ℕ → Option QString) (ids : Set QString)
    (values : QHash QString QVariant) (n : ℕ) (call call' : Call) : Prop where
  before : ∀ id, ¬ call.Registered id
  after : ∀ id, ¬ call'.Registered id
  claims : ∀ id ∈ values, id ∈ ids → minted n = some id → call.Claims id → call'.Claims id
  named : ∀ id, call'.Named id → minted n = some id

/-- One call moves. -/
theorem Ledgered.update (h : Ledgered minted ids values callbacks calls)
    (hmoves : Moves minted ids values n (calls n) call) :
    Ledgered minted ids values callbacks (Function.update calls n call) where
  owed id hid hids := by
    obtain ⟨m, hm, hclaims⟩ := h.owed id hid hids
    refine ⟨m, hm, ?_⟩
    by_cases hmn : m = n
    · subst hmn
      rw [Function.update_self]
      exact hmoves.claims id hid hids hm hclaims
    · rwa [Function.update_of_ne hmn]
  named m id hnamed := by
    by_cases hmn : m = n
    · subst hmn
      rw [Function.update_self] at hnamed
      exact hmoves.named id hnamed
    · rw [Function.update_of_ne hmn] at hnamed
      exact h.named m id hnamed
  registered m id := by
    by_cases hmn : m = n
    · subst hmn
      rw [Function.update_self, ← h.registered]
      exact ⟨fun hafter => absurd hafter (hmoves.after id),
        fun hbefore => absurd hbefore (hmoves.before id)⟩
    · rw [Function.update_of_ne hmn, h.registered]

/-- A completion is kept that a call is to claim. -/
theorem Ledgered.insert (h : Ledgered minted ids values callbacks calls)
    (hclaims : id ∈ ids → ∃ n, minted n = some id ∧ (calls n).Claims id) (v : QVariant) :
    Ledgered minted ids (values.insert id v) callbacks calls where
  owed id' hid' hids := by
    rcases (AList.mem_insert values).mp hid' with rfl | hold
    · exact hclaims hids
    · exact h.owed id' hold hids
  named := h.named
  registered := h.registered

/-- A call that awaits its completion is to claim it, unless its callback is there. -/
theorem Call.Awaits.claims (hawaits : (calls n).Awaits id)
    (h : Ledgered minted ids values callbacks calls) (hnone : callbacks.lookup id = none) :
    (calls n).Claims id := by
  have hunregistered : ¬ (calls n).Registered id := by
    rw [h.registered, hnone]
    simp
  unfold Call.Awaits at hawaits
  unfold Call.Claims
  cases hpc : (calls n).pc with
  | waiting callId =>
    rw [hpc] at hawaits
    obtain rfl : callId = id := hawaits
    exact ⟨rfl, by simpa [Call.Registered, hpc] using hunregistered⟩
  | _ => rwa [hpc] at hawaits

/-- Less is kept. -/
theorem Ledgered.mono (h : Ledgered minted ids values callbacks calls)
    {values' : QHash QString QVariant} (hsub : ∀ id ∈ values', id ∈ values) :
    Ledgered minted ids values' callbacks calls where
  owed id hid := h.owed id (hsub id hid)
  named := h.named
  registered := h.registered

/-- A call takes its completion. -/
theorem Ledgered.take (h : Ledgered minted ids values callbacks calls) (hnamed : (calls n).Named id)
    (hbefore : ∀ id, ¬ (calls n).Registered id) (o : Outcome) :
    Ledgered minted ids (values.erase id) callbacks (setPc calls n (.resolved o)) := by
  have herased := h.mono fun id' hid' => (AList.mem_erase.mp hid' : id' ≠ id ∧ _).2
  refine herased.update ⟨hbefore, ?_, ?_, ?_⟩
  · intro id' hregistered
    cases hregistered.2
  · intro id' hid' _ hn
    obtain ⟨hne, -⟩ := AList.mem_erase.mp hid'
    rw [h.named n id hnamed] at hn
    exact absurd (Option.some.inj hn).symm hne
  · intro id' hnamed'
    exact hnamed'.elim

/-- A call registers its callback. -/
theorem Ledgered.register (h : Ledgered minted ids values callbacks calls)
    (hminted : Distinct minted) (hnamed : (calls n).Named id)
    (hbefore : ∀ id, ¬ (calls n).Registered id) (hnone : values.lookup id = none)
    (hcall : call.Registered id) :
    Ledgered minted ids values (callbacks.insert id n) (Function.update calls n call) := by
  have hn := h.named n id hnamed
  have hsame : ∀ id', call.Registered id' ↔ id' = id := by
    intro id'
    rw [Call.Registered, hcall.2]
    constructor
    · intro hregistered
      exact (CallPc.waiting.inj hregistered.2).symm
    · rintro rfl
      exact ⟨hcall.1, rfl⟩
  constructor
  case owed =>
    intro id' hid' hids
    obtain ⟨m, hm, hclaims⟩ := h.owed id' hid' hids
    refine ⟨m, hm, ?_⟩
    have hmn : m ≠ n := by
      rintro rfl
      obtain rfl : id' = id := Option.some.inj (hm.symm.trans hn)
      exact AList.lookup_eq_none.mp hnone hid'
    rwa [Function.update_of_ne hmn]
  case named =>
    intro m id' hnamed'
    by_cases hmn : m = n
    · subst hmn
      rw [Function.update_self] at hnamed'
      rw [Call.Named, hcall.2] at hnamed'
      rw [← hnamed', hn]
    · rw [Function.update_of_ne hmn] at hnamed'
      exact h.named m id' hnamed'
  case registered =>
    intro m id'
    by_cases hmn : m = n
    · subst hmn
      rw [Function.update_self, hsame]
      by_cases hid : id' = id
      · subst hid
        simp
      · rw [AList.lookup_insert_ne hid, ← h.registered]
        exact ⟨fun heq => absurd heq hid, fun hregistered => absurd hregistered (hbefore id')⟩
    · rw [Function.update_of_ne hmn]
      by_cases hid : id' = id
      · subst hid
        rw [AList.lookup_insert]
        constructor
        · intro hregistered
          exact absurd (hminted m n id' (h.named m id' hregistered.named) hn) hmn
        · intro heq
          exact absurd (Option.some.inj heq).symm hmn
      · rw [AList.lookup_insert_ne hid, h.registered]

/-- A callback is taken. -/
theorem Ledgered.unregister (h : Ledgered minted ids values callbacks calls)
    (hlookup : callbacks.lookup id = some n) (hafter : ∀ id, ¬ call.Named id) :
    Ledgered minted ids values (callbacks.erase id) (Function.update calls n call) := by
  have hregistered := (h.registered n id).mpr hlookup
  constructor
  case owed =>
    intro id' hid' hids
    obtain ⟨m, hm, hclaims⟩ := h.owed id' hid' hids
    have hmn : m ≠ n := by
      rintro rfl
      exact hregistered.not_claims hclaims
    exact ⟨m, hm, by rwa [Function.update_of_ne hmn]⟩
  case named =>
    intro m id' hnamed
    by_cases hmn : m = n
    · subst hmn
      rw [Function.update_self] at hnamed
      exact absurd hnamed (hafter id')
    · rw [Function.update_of_ne hmn] at hnamed
      exact h.named m id' hnamed
  case registered =>
    intro m id'
    by_cases hid : id' = id
    · subst hid
      rw [AList.lookup_erase]
      refine ⟨fun hother => ?_, fun heq => by cases heq⟩
      by_cases hmn : m = n
      · subst hmn
        rw [Function.update_self] at hother
        exact absurd hother.named (hafter id')
      · rw [Function.update_of_ne hmn, h.registered, hlookup] at hother
        exact absurd (Option.some.inj hother).symm hmn
    · rw [AList.lookup_erase_ne hid, ← h.registered]
      by_cases hmn : m = n
      · subst hmn
        rw [Function.update_self]
        refine ⟨fun hother => absurd hother.named (hafter id'), fun hother => ?_⟩
        rw [Call.Registered, hregistered.2] at hother
        exact absurd (CallPc.waiting.inj hother.2).symm hid
      · rw [Function.update_of_ne hmn]

/-- What is posted may go. -/
theorem Ledgered.congr (h : Ledgered minted ids values callbacks calls)
    (hcalls : ∀ n, (calls' n).async = (calls n).async ∧
      ((calls' n).pc = (calls n).pc ∨ ∀ id, ¬ (calls n).Claims id ∧ ¬ (calls' n).Named id ∧
        ¬ (calls n).Registered id)) : Ledgered minted ids values callbacks calls' where
  owed id hid hids := by
    obtain ⟨n, hn, hclaims⟩ := h.owed id hid hids
    refine ⟨n, hn, ?_⟩
    obtain ⟨hasync, hpc | hgone⟩ := hcalls n
    · unfold Call.Claims at hclaims ⊢
      rwa [hpc, hasync]
    · exact absurd hclaims (hgone id).1
  named n id hnamed := by
    obtain ⟨hasync, hpc | hgone⟩ := hcalls n
    · refine h.named n id ?_
      unfold Call.Named at hnamed ⊢
      rwa [← hpc]
    · exact absurd hnamed (hgone id).2.1
  registered n id := by
    rw [← h.registered]
    obtain ⟨hasync, hpc | hgone⟩ := hcalls n
    · unfold Call.Registered
      rw [hpc, hasync]
    · obtain ⟨-, hnamed, hregistered⟩ := hgone id
      exact ⟨fun hafter => absurd hafter.named hnamed, fun hbefore => absurd hbefore hregistered⟩

/-- A helper is deleted. -/
theorem Ledgered.drop (h : Ledgered minted ids values callbacks calls) (helper : ℕ) :
    Ledgered minted ids values callbacks fun n => (calls n).drop helper := by
  refine h.congr fun n => ⟨rfl, ?_⟩
  rcases Call.pc_drop helper (calls n) with hsame | ⟨hdropped, hposted⟩
  · exact .inl hsame
  · refine .inr fun id => ?_
    unfold Call.Claims Call.Named Call.Registered
    rw [hdropped]
    rcases hposted with ⟨helper', hpc⟩ | ⟨o, helper', hpc⟩
    · simp [hpc]
    · simp [hpc]

end ledger

/-- The answer is the sentinel that the call is deferred with, or the completion of the call, if it
has one, has not come. -/
def Answered (minted : ℕ → Option QString) (ids : Set QString) (values : QHash QString QVariant)
    (n : ℕ) (answer : Answer) : Prop :=
  match answer.callId with
  | some id => minted n = some id
  | none => ∀ id ∈ ids, minted n = some id → id ∉ values

section moves
variable {minted : ℕ → Option QString} {ids : Set QString} {values : QHash QString QVariant}
  {callbacks : QHash QString ℕ} {calls : ℕ → Call} {call : Call} {n : ℕ} {id : QString}

/-- A call that does not wait with a callback ends. -/
theorem Moves.ends (hbefore : ∀ id, ¬ (calls n).Registered id)
    (hunclaimed : ∀ id ∈ ids, minted n = some id → (calls n).Claims id → id ∉ values)
    (o : Outcome) :
    Moves minted ids values n (calls n) { calls n with pc := .resolved o } where
  before := hbefore
  after id hregistered := by cases hregistered.2
  claims id hid hids hn hclaims := absurd hid (hunclaimed id hids hn hclaims)
  named id hnamed := hnamed.elim

/-- A call is made, or its dispatch runs. -/
theorem Moves.start (hbefore : (calls n).pc = .idle ∨ ∃ helper, (calls n).pc = .posted helper)
    (hpc : call.pc = .sent ∨ call.pc = .dropped ∨ (∃ helper, call.pc = .posted helper) ∨
      ∃ o, call.pc = .resolved o) : Moves minted ids values n (calls n) call where
  before := by
    rcases hbefore with hidle | ⟨helper, hposted⟩
    · exact Call.not_registered hidle (by simp)
    · exact Call.not_registered hposted (by simp)
  after id hregistered := by
    rcases hpc with hpc | hpc | ⟨helper, hpc⟩ | ⟨o, hpc⟩ <;> cases hpc.symm.trans hregistered.2
  claims id _ _ _ hclaims := by
    unfold Call.Claims at hclaims
    rcases hbefore with hidle | ⟨helper, hposted⟩
    · rw [hidle] at hclaims
      exact hclaims.elim
    · rw [hposted] at hclaims
      exact hclaims.elim
  named id hnamed := by
    unfold Call.Named at hnamed
    rcases hpc with hpc | hpc | ⟨helper, hpc⟩ | ⟨o, hpc⟩ <;> rw [hpc] at hnamed <;>
      exact hnamed.elim

/-- The answer comes. -/
theorem Moves.answer {answer : Answer} (hsent : (calls n).pc = .sent)
    (hanswered : Answered minted ids values n answer) :
    Moves minted ids values n (calls n) { calls n with pc := .finished answer } where
  before := Call.not_registered hsent (by simp)
  after id hregistered := by cases hregistered.2
  claims id hid hids hn _ := by
    unfold Answered at hanswered
    show answer.callId = some id
    cases hcallId : answer.callId with
    | none =>
      rw [hcallId] at hanswered
      exact absurd hid (hanswered id hids hn)
    | some id' =>
      rw [hcallId] at hanswered
      exact hanswered.symm.trans hn
  named id hnamed := by
    have hcallId : answer.callId = some id := hnamed
    rw [Answered, hcallId] at hanswered
    exact hanswered

/-- A call ends that no completion is kept for. -/
theorem Ledgered.settle (h : Ledgered minted ids values callbacks calls)
    (hbefore : ∀ id, ¬ (calls n).Registered id) (hclaims : ∀ id, ¬ (calls n).Claims id)
    (o : Outcome) : Ledgered minted ids values callbacks (setPc calls n (.resolved o)) :=
  h.update (.ends hbefore (fun id _ _ hclaim => absurd hclaim (hclaims id)) o)

/-- The answer is no sentinel. -/
theorem Ledgered.finish (h : Ledgered minted ids values callbacks calls) {answer : Answer}
    (hfinished : (calls n).pc = .finished answer) (hnone : answer.callId = none) (o : Outcome) :
    Ledgered minted ids values callbacks (setPc calls n (.resolved o)) := by
  refine h.settle (Call.not_registered hfinished (by simp)) (fun id hclaims => ?_) o
  rw [Call.Claims, hfinished] at hclaims
  have hcallId : answer.callId = some id := hclaims
  rw [hnone] at hcallId
  cases hcallId

/-- A synchronous call enters its nested loop. -/
theorem Ledgered.wait (h : Ledgered minted ids values callbacks calls) (hnamed : (calls n).Named id)
    (hsync : (calls n).async = false) :
    Ledgered minted ids values callbacks (setPc calls n (.waiting id)) := by
  have hn := h.named n id hnamed
  refine h.update ⟨Call.not_registered_of_sync hsync, Call.not_registered_of_sync hsync, ?_, ?_⟩
  · intro id' _ _ hn' _
    exact ⟨Option.some.inj (hn.symm.trans hn'), hsync⟩
  · intro id' hnamed'
    obtain rfl : id = id' := hnamed'
    exact hn

/-- It returns, and the completion has not come. -/
theorem Ledgered.resume (h : Ledgered minted ids values callbacks calls)
    (hwaiting : (calls n).pc = .waiting id) (hsync : (calls n).async = false)
    (hnone : values.lookup id = none) (o : Outcome) :
    Ledgered minted ids values callbacks (setPc calls n (.resolved o)) := by
  refine h.update (.ends (Call.not_registered_of_sync hsync) (fun id' _ _ hclaims => ?_) o)
  rw [Call.Claims, hwaiting] at hclaims
  obtain rfl := hclaims.1
  exact AList.lookup_eq_none.mp hnone

/-- The timer of a call does not matter. -/
theorem Ledgered.setTimer (h : Ledgered minted ids values callbacks calls) (n : ℕ)
    (timer : Option (QString × Option ℕ)) :
    Ledgered minted ids values callbacks
      (Function.update calls n { calls n with timer := timer }) := by
  refine h.congr fun m => ?_
  by_cases hmn : m = n
  · subst hmn
    rw [Function.update_self]
    exact ⟨rfl, .inl rfl⟩
  · rw [Function.update_of_ne hmn]
    exact ⟨rfl, .inl rfl⟩

/-- The callbacks are cleared, and the calls that waited with one are dropped. -/
theorem Ledgered.clear (h : Ledgered minted ids values callbacks calls) {calls' : ℕ → Call}
    (hcalls : ∀ n, calls' n = calls n ∧ (∀ id, ¬ (calls n).Registered id) ∨
      (calls' n).pc = .dropped ∧ ∃ id, (calls n).Registered id) :
    Ledgered minted ids values ∅ calls' where
  owed id hid hids := by
    obtain ⟨n, hn, hclaims⟩ := h.owed id hid hids
    refine ⟨n, hn, ?_⟩
    rcases hcalls n with ⟨hsame, -⟩ | ⟨-, id', hregistered⟩
    · rwa [hsame]
    · exact absurd hclaims hregistered.not_claims
  named n id hnamed := by
    rcases hcalls n with ⟨hsame, -⟩ | ⟨hdropped, -⟩
    · rw [hsame] at hnamed
      exact h.named n id hnamed
    · rw [Call.Named, hdropped] at hnamed
      exact hnamed.elim
  registered n id := by
    refine ⟨fun hregistered => ?_, fun hlookup => by cases hlookup⟩
    rcases hcalls n with ⟨hsame, hnone⟩ | ⟨hdropped, -⟩
    · rw [hsame] at hregistered
      exact absurd hregistered (hnone id)
    · rw [Call.Registered, hdropped] at hregistered
      cases hregistered.2

end moves

namespace RemoteObject

/-- A completion that reaches the sink under one of these ids is that of a call of this handle which
waits for it or is going to, and no call ends in another way while its completion is kept. -/
def Claimed (minted : ℕ → Option QString) (ids : Set QString) (s : State) : Action → Prop
  | .eventResponse id _ => id ∈ ids → (∃ helper, s.helper = some helper ∧ helper.sink = true) →
      ∃ n, minted n = some id ∧ (s.calls n).Awaits id
  | .reply n answer => Answered minted ids s.completions n answer
  | .timeout n => ∀ id ∈ ids, minted n = some id → id ∉ s.completions
  | _ => True

section steps
variable {minted : ℕ → Option QString} {ids : Set QString} {origin : Bytes} {s s' : State}
  {a : Action} {n : ℕ}

def Ledger (minted : ℕ → Option QString) (ids : Set QString) (s : State) : Prop :=
  Ledgered minted ids s.completions s.asyncCompletionCbs s.calls

/-- The completion sink. -/
theorem ledger_complete (h : Ledger minted ids s) (helper : ℕ) {id : QString} (result : QVariant)
    (hawaits : id ∈ ids → ∃ n, minted n = some id ∧ (s.calls n).Awaits id) :
    Ledger minted ids (s.complete helper id result) := by
  unfold State.complete
  dsimp only
  cases hlookup : s.asyncCompletionCbs.lookup id with
  | some m =>
    dsimp only
    refine Ledgered.unregister (Ledgered.mono h fun id' hid' => ?_) hlookup fun id' hnamed => hnamed
    obtain ⟨hne, hin⟩ := AList.mem_erase.mp hid'
    exact ((AList.mem_insert _).mp hin).resolve_left hne
  | none =>
    refine Ledgered.insert h (fun hids => ?_) result
    obtain ⟨n, hn, hwaits⟩ := hawaits hids
    exact ⟨n, hn, hwaits.claims h hlookup⟩

/-- A synchronous call looks at its answer. -/
theorem ledger_resolveDeferred (h : Ledger minted ids s) {v : QVariant}
    (hfinished : (s.calls n).pc = .finished (.value v)) (hsync : (s.calls n).async = false) :
    Ledger minted ids (s.resolveDeferred n v) := by
  unfold State.resolveDeferred
  cases hsentinel : isPendingCallSentinel v with
  | none => exact Ledgered.finish h hfinished hsentinel _
  | some callId =>
    have hnamed := Call.named_of_finished hfinished hsentinel
    dsimp only
    cases hlookup : s.completions.lookup callId with
    | some value => exact Ledgered.take h hnamed (Call.not_registered_of_sync hsync) _
    | none => exact Ledgered.wait h hnamed hsync

/-- The finished handler of an asynchronous call. -/
theorem ledger_handleFinished (hminted : Distinct minted) (h : Ledger minted ids s) {v : QVariant}
    (hfinished : (s.calls n).pc = .finished (.value v)) (hasync : (s.calls n).async = true) :
    Ledger minted ids (s.handleFinished n v) := by
  have hbefore := Call.not_registered hfinished (by simp)
  unfold State.handleFinished
  cases hsentinel : isPendingCallSentinel v with
  | none => exact Ledgered.finish h hfinished hsentinel _
  | some callId =>
    have hnamed := Call.named_of_finished hfinished hsentinel
    dsimp only
    cases hlookup : s.completions.lookup callId with
    | some value => exact Ledgered.take h hnamed hbefore _
    | none => exact Ledgered.register h hminted hnamed hbefore hlookup ⟨hasync, rfl⟩

/-- A nested loop returns. -/
theorem ledger_resumeDeferred (h : Ledger minted ids s) {callId : QString}
    (hwaiting : (s.calls n).pc = .waiting callId) (hsync : (s.calls n).async = false) :
    Ledger minted ids (s.resumeDeferred origin n callId) := by
  unfold State.resumeDeferred
  dsimp only
  cases hlookup : s.completions.lookup callId with
  | some value =>
    exact Ledgered.take h (Call.named_of_waiting hwaiting) (Call.not_registered_of_sync hsync) _
  | none => exact Ledgered.resume h hwaiting hsync hlookup _

/-- The deadline takes the callback. -/
theorem ledger_expireDeferred (h : Ledger minted ids s) (callId : QString) :
    Ledger minted ids (s.expireDeferred origin n callId) := by
  have htimer := Ledgered.setTimer h n none
  unfold State.expireDeferred
  dsimp only
  cases hlookup : s.asyncCompletionCbs.lookup callId with
  | some m => exact htimer.unregister hlookup fun id hnamed => hnamed
  | none => exact htimer

/-- **Every value that is kept is owed to a call**, step by step. -/
theorem ledger_next (hminted : Distinct minted) (h : Ledger minted ids s)
    (hclaimed : Claimed minted ids s a) (hs : next origin s a = some s') :
    Ledger minted ids s' := by
  cases a with
  | call n async method timeoutMs accepted =>
    simp only [next] at hs
    split at hs
    · rename_i hidle
      cases hs
      exact Ledgered.update h (.start (.inl hidle) (by cases accepted <;> simp))
    · cases hs
  | reply n answer =>
    simp only [next] at hs
    split at hs
    · rename_i hsent
      cases hs
      exact Ledgered.update h (.answer hsent hclaimed)
    · cases hs
  | timeout n =>
    simp only [next] at hs
    have hends : (∀ id, ¬ (s.calls n).Registered id) →
        ∀ o, Ledger minted ids (s.setPc n (.resolved o)) :=
      fun hbefore o =>
        Ledgered.update h (.ends hbefore (fun id hids hn _ => hclaimed id hids hn) o)
    split at hs
    · rename_i hsent
      cases hs
      exact hends (Call.not_registered hsent (by simp)) _
    · rename_i hfinished
      split at hs <;> cases hs
      exact hends (Call.not_registered hfinished (by simp)) _
    · cases hs
  | handle n =>
    simp only [next] at hs
    split at hs
    · rename_i code hfinished
      cases hs
      exact Ledgered.finish h hfinished rfl _
    · rename_i v hfinished
      cases hs
      split_ifs with hasync
      · exact ledger_handleFinished hminted h hfinished hasync
      · exact ledger_resolveDeferred h hfinished (by simpa using hasync)
    · cases hs
  | wake n =>
    simp only [next] at hs
    split at hs
    · rename_i callId hwaiting
      split at hs <;> cases hs
      rename_i hasync
      exact ledger_resumeDeferred h hwaiting (by simpa using hasync)
    · cases hs
  | expire n =>
    simp only [next] at hs
    split at hs <;> cases hs
    exact ledger_expireDeferred h _
  | deliver n =>
    simp only [next] at hs
    split at hs
    · rename_i hqueued
      cases hs
      refine Ledgered.settle h (Call.not_registered hqueued (by simp)) (fun id hclaims => ?_) _
      rwa [Call.Claims, hqueued] at hclaims
    · cases hs
  | eventResponse id result =>
    simp only [next] at hs
    split at hs
    · rename_i helper hhelper
      cases hs
      split_ifs with hsink
      · exact ledger_complete h helper.id result fun hids =>
          hclaimed hids ⟨helper, hhelper, hsink⟩
      · exact h
    · cases hs
      exact h
  | onEvent =>
    simp only [next] at hs
    split at hs <;> cases hs <;> exact h
  | disconnectEvents =>
    cases hs
    exact h
  | deleteHelper helper =>
    simp only [next] at hs
    split at hs
    · split at hs <;> cases hs
      exact Ledgered.drop h helper
    · cases hs
      exact Ledgered.drop h helper

/-- **Under the condition, nothing is kept when nothing is outstanding.** -/
theorem completions_empty (hminted : Distinct minted)
    (h : ((handle origin).restrict (Claimed minted Set.univ)).Reachable s)
    (hidle : ∀ n, ¬ (s.calls n).Outstanding) : s.completions = ∅ := by
  have hledger : Ledger minted Set.univ s := by
    apply h.invariant
    · rintro s rfl
      exact ledgered_initial
    · intro s a s' hl hstep
      exact ledger_next hminted hl hstep.2 hstep.1
  exact Ledgered.empty hledger hidle

end steps

end RemoteObject

namespace LocalObject

/-- A completion that reaches the sink under one of these ids is that of a call of this handle which
waits for it or is going to, and no call ends in another way while its completion is kept. -/
def Claimed (minted : ℕ → Option QString) (ids : Set QString) (s : State) : Action → Prop
  | .eventResponse id _ => id ∈ ids → s.helper.isSome = true → s.proxy = true →
      ∃ n, minted n = some id ∧ (s.calls n).Awaits id
  | .reply n v => Answered minted ids s.values n (.value v)
  | _ => True

section steps
variable {minted : ℕ → Option QString} {ids : Set QString} {origin : Bytes} {s s' : State}
  {a : Action} {n : ℕ}

def Ledger (minted : ℕ → Option QString) (ids : Set QString) (s : State) : Prop :=
  Ledgered minted ids s.values s.asyncWaiters s.calls

theorem ledger_ensureCompletionChannel (h : Ledger minted ids s) :
    Ledger minted ids s.ensureCompletionChannel := by
  unfold State.ensureCompletionChannel
  split <;> exact h

/-- The completion sink. -/
theorem ledger_complete (h : Ledger minted ids s) (helper : ℕ) {id : QString} (result : QVariant)
    (hawaits : id ∈ ids → ∃ n, minted n = some id ∧ (s.calls n).Awaits id) :
    Ledger minted ids (s.complete helper id result) := by
  unfold State.complete
  cases hlookup : s.asyncWaiters.lookup id with
  | some m => exact Ledgered.unregister h hlookup fun id' hnamed => hnamed
  | none =>
    refine Ledgered.insert h (fun hids => ?_) result
    obtain ⟨n, hn, hwaits⟩ := hawaits hids
    exact ⟨n, hn, hwaits.claims h hlookup⟩

/-- What has landed is taken. -/
theorem ledger_takeLanded (h : Ledger minted ids s) {id : QString} (hnamed : (s.calls n).Named id)
    (hbefore : ∀ id, ¬ (s.calls n).Registered id) {landed : QVariant} {t : State}
    (htake : s.takeLanded id = some (landed, t)) (o : Outcome) :
    Ledger minted ids (t.setPc n (.resolved o)) := by
  unfold State.takeLanded at htake
  split at htake <;> cases htake
  exact Ledgered.take h hnamed hbefore o

theorem lookup_of_takeLanded {id : QString} (hnone : s.takeLanded id = none) :
    s.values.lookup id = none := by
  unfold State.takeLanded at hnone
  split at hnone
  · assumption
  · cases hnone

/-- A synchronous call looks at its answer. -/
theorem ledger_resolveDeferred (h : Ledger minted ids s) {v : QVariant}
    (hfinished : (s.calls n).pc = .finished (.value v)) (hsync : (s.calls n).async = false) :
    Ledger minted ids (s.resolveDeferred n v) := by
  unfold State.resolveDeferred
  cases hsentinel : isPendingCallSentinel v with
  | none => exact Ledgered.finish h hfinished hsentinel _
  | some callId =>
    have hnamed := Call.named_of_finished hfinished hsentinel
    dsimp only
    cases htake : s.takeLanded callId with
    | some taken => exact ledger_takeLanded h hnamed (Call.not_registered_of_sync hsync) htake _
    | none => exact Ledgered.wait h hnamed hsync

/-- The dispatch of an asynchronous call looks at its answer. -/
theorem ledger_handleResult (hminted : Distinct minted) (h : Ledger minted ids s) {v : QVariant}
    (hfinished : (s.calls n).pc = .finished (.value v)) (hasync : (s.calls n).async = true) :
    Ledger minted ids (s.handleResult n v) := by
  have hbefore := Call.not_registered hfinished (by simp)
  unfold State.handleResult
  cases hsentinel : isPendingCallSentinel v with
  | none => exact Ledgered.finish h hfinished hsentinel _
  | some callId =>
    have hnamed := Call.named_of_finished hfinished hsentinel
    dsimp only
    cases htake : s.takeLanded callId with
    | some taken => exact ledger_takeLanded h hnamed hbefore htake _
    | none =>
      have hnone := lookup_of_takeLanded htake
      exact Ledgered.register h hminted hnamed hbefore hnone ⟨hasync, rfl⟩

/-- A nested loop returns. -/
theorem ledger_resumeDeferred (h : Ledger minted ids s) {callId : QString}
    (hwaiting : (s.calls n).pc = .waiting callId) (hsync : (s.calls n).async = false) :
    Ledger minted ids (s.resumeDeferred origin n callId) := by
  have hleft : Ledger minted ids { s with syncWaiters := s.syncWaiters.erase callId } := h
  unfold State.resumeDeferred
  dsimp only
  split
  · rename_i landed t htake
    exact ledger_takeLanded hleft (Call.named_of_waiting hwaiting)
      (Call.not_registered_of_sync hsync) htake _
  · rename_i htake
    have hnone := lookup_of_takeLanded htake
    exact Ledgered.resume h hwaiting hsync hnone _

/-- The deadline takes the callback. -/
theorem ledger_expireDeferred (h : Ledger minted ids s) (callId : QString) :
    Ledger minted ids (s.expireDeferred origin n callId) := by
  have htimer := Ledgered.setTimer h n none
  unfold State.expireDeferred
  dsimp only
  cases hlookup : s.asyncWaiters.lookup callId with
  | some m => exact htimer.unregister hlookup fun id hnamed => hnamed
  | none => exact htimer

theorem ledger_disconnectEvents (h : Ledger minted ids s) :
    Ledger minted ids s.disconnectEvents := by
  unfold State.disconnectEvents
  split
  · exact h
  · refine Ledgered.clear h fun n => ?_
    cases hpc : (s.calls n).pc with
    | waiting callId =>
      by_cases hlookup : s.asyncWaiters.lookup callId = some n
      · exact .inr ⟨by simp [hpc, hlookup], callId, (h.registered n callId).mpr hlookup⟩
      · refine .inl ⟨by simp [hpc, hlookup], fun id hregistered => ?_⟩
        obtain rfl : callId = id := by
          rw [Call.Registered, hpc] at hregistered
          exact CallPc.waiting.inj hregistered.2
        exact hlookup ((h.registered n callId).mp hregistered)
    | _ => exact .inl ⟨by simp [hpc], Call.not_registered hpc (by simp)⟩

/-- **Every value that is kept is owed to a call**, step by step. -/
theorem ledger_next (hminted : Distinct minted) (h : Ledger minted ids s)
    (hclaimed : Claimed minted ids s a) (hs : next origin s a = some s') :
    Ledger minted ids s' := by
  cases a with
  | call n async method timeoutMs =>
    simp only [next] at hs
    split at hs
    · rename_i hidle
      cases hs
      have hsame : s.ensureCompletionChannel.calls = s.calls := by
        unfold State.ensureCompletionChannel
        split <;> rfl
      refine Ledgered.update (ledger_ensureCompletionChannel h) (.start (.inl (by rwa [hsame])) ?_)
      dsimp only
      split <;> simp
    · cases hs
  | dispatch n =>
    simp only [next] at hs
    split at hs
    · rename_i helper hposted
      cases hs
      refine Ledgered.update h (.start (.inr ⟨helper, hposted⟩) ?_)
      dsimp only
      split <;> simp
    · cases hs
  | reply n v =>
    simp only [next] at hs
    split at hs
    · rename_i hsent
      cases hs
      exact Ledgered.update h (.answer hsent hclaimed)
    · cases hs
  | handle n =>
    simp only [next] at hs
    split at hs
    · rename_i v hfinished
      cases hs
      split_ifs with hasync
      · exact ledger_handleResult hminted h hfinished hasync
      · exact ledger_resolveDeferred h hfinished (by simpa using hasync)
    · cases hs
  | wake n =>
    simp only [next] at hs
    split at hs
    · rename_i callId hwaiting
      split at hs <;> cases hs
      rename_i hasync
      exact ledger_resumeDeferred h hwaiting (by simpa using hasync)
    · cases hs
  | expire n =>
    simp only [next] at hs
    split at hs <;> cases hs
    exact ledger_expireDeferred h _
  | deliver n =>
    simp only [next] at hs
    split at hs
    · rename_i hqueued
      cases hs
      refine Ledgered.settle h (Call.not_registered hqueued (by simp)) (fun id hclaims => ?_) _
      rwa [Call.Claims, hqueued] at hclaims
    · cases hs
  | eventResponse id result =>
    simp only [next] at hs
    split at hs
    · rename_i helper hhelper
      cases hs
      split_ifs with hproxy
      · exact ledger_complete h helper result fun hids => hclaimed hids (by simp [hhelper]) hproxy
      · exact h
    · cases hs
      exact h
  | onEvent =>
    cases hs
    split_ifs
    · exact ledger_ensureCompletionChannel h
    · exact h
  | disconnectEvents =>
    cases hs
    exact ledger_disconnectEvents h
  | deleteHelper helper =>
    simp only [next] at hs
    split at hs <;> cases hs
    exact Ledgered.drop h helper
  | unload =>
    cases hs
    exact h

/-- **Under the condition, nothing is kept when nothing is outstanding.** -/
theorem values_empty (hminted : Distinct minted)
    (h : ((handle origin).restrict (Claimed minted Set.univ)).Reachable s)
    (hidle : ∀ n, ¬ (s.calls n).Outstanding) : s.values = ∅ := by
  have hledger : Ledger minted Set.univ s := by
    apply h.invariant
    · rintro s rfl
      exact ledgered_initial
    · intro s a s' hl hstep
      exact ledger_next hminted hl hstep.2 hstep.1
  exact Ledgered.empty hledger hidle

end steps

end LocalObject

/-! ## All three transports -/

/-- **Unclaimed completions.**  A handle of the plain transport keeps no completion while it has no
call outstanding, and never more than its bound, whatever it has heard.  A handle of a Qt transport
keeps none while it has no call outstanding in the runs in which each completion that reaches its
sink is that of a call of its own which goes on to claim it. -/
theorem unclaimed_empty (obj origin : Bytes) {minted : ℕ → Option QString}
    (hminted : Distinct minted) :
    (∀ c, (Async.calls obj).Reachable c →
      (¬ c.state.CouldClaim → c.state.st.completions = ∅) ∧
        c.state.st.completions.keys.length ≤ kParkedCompletionCap) ∧
    (∀ s, ((RemoteObject.handle origin).restrict
        (RemoteObject.Claimed minted Set.univ)).Reachable s →
      (∀ n, ¬ (s.calls n).Outstanding) → s.completions = ∅) ∧
    ∀ s, ((LocalObject.handle origin).restrict (LocalObject.Claimed minted Set.univ)).Reachable s →
      (∀ n, ¬ (s.calls n).Outstanding) → s.values = ∅ := by
  refine ⟨?_, ?_, ?_⟩
  · intro c hreachable
    have hparked := parked_of_reachable (callsInv_of_reachable hreachable).reachable
    exact ⟨fun hnone => (hparked.empty hnone).1, hparked.staged.card_le⟩
  · intro s hreachable hidle
    exact RemoteObject.completions_empty hminted hreachable hidle
  · intro s hreachable hidle
    exact LocalObject.values_empty hminted hreachable hidle

/-- The completion of a synchronous call is there before its sentinel, and is claimed. -/
theorem unclaimed_empty_claimed :
    ∃ s, (RemoteObject.handle (bstr "o")).Reachable s ∧
      (s.calls 0).pc = .resolved { value := .bool true } ∧ s.completions = ∅ := by
  let minted : ℕ → Option QString := fun n => if n = 0 then some (qstr "c") else none
  have hminted : Distinct minted := by
    intro n m id hn hm
    simp only [minted, Option.ite_none_right_eq_some] at hn hm
    omega
  let sentinel : QVariant := .map [(pendingCallKey, .string (qstr "c"))]
  have hinit : ((RemoteObject.handle (bstr "o")).restrict
    (RemoteObject.Claimed minted Set.univ)).Reachable {} := .init rfl
  have hcalled := hinit.next (.call 0 false (bstr "m") 20 true) trivial rfl
  have hcompleted := hcalled.next (.eventResponse (qstr "c") (.bool true))
    (fun _ _ => ⟨0, rfl, trivial⟩) rfl
  have hreplied := hcompleted.next (.reply 0 (.value sentinel)) rfl rfl
  have hhandled := hreplied.next (.handle 0) trivial rfl
  refine ⟨_, hhandled.of_restrict, rfl, (unclaimed_empty [] _ hminted).2.1 _ hhandled ?_⟩
  intro n
  by_cases hzero : n = 0
  · subst hzero
    exact fun hn => hn
  · have hother : ∀ {calls : ℕ → Call} {call : Call}, ¬ (calls n).Outstanding →
        ¬ (Function.update calls 0 call n).Outstanding := by
      intro calls call hn
      rwa [Function.update_of_ne hzero]
    exact hother (hother (hother fun hn => hn))

/-- A completion of another handle's call is kept by a handle that has never made one. -/
theorem unclaimed_kept :
    (¬ ∀ s, (RemoteObject.handle (bstr "o")).Reachable s → (∀ n, ¬ (s.calls n).Outstanding) →
      s.completions = ∅) ∧
    ¬ ∀ s, (LocalObject.handle (bstr "o")).Reachable s → (∀ n, ¬ (s.calls n).Outstanding) →
      s.values = ∅ := by
  constructor
  · intro hempty
    have hheard : (RemoteObject.handle (bstr "o")).Reachable _ :=
      TransitionSystem.Reachable.step (.init rfl)
        (a := .eventResponse (qstr "c") (.bool true)) rfl
    have hnone := hempty _ hheard (fun n hout => hout)
    have hlookup := congrArg (AList.lookup (qstr "c")) hnone
    cases hlookup
  · intro hempty
    have hheard : (LocalObject.handle (bstr "o")).Reachable _ :=
      TransitionSystem.Reachable.step (.init rfl)
        (a := .eventResponse (qstr "c") (.bool true)) rfl
    have hnone := hempty _ hheard (fun n hout => hout)
    have hlookup := congrArg (AList.lookup (qstr "c")) hnone
    cases hlookup

end Qt

end LogosProtocol
