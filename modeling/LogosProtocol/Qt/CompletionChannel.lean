import LogosProtocol.Qt.Unclaimed
import LogosProtocol.Async.PlainObject

/-!
# Deferred calls and `disconnectEvents`

A handle hears of the completions of its calls through one subscription, which the constructor of a
remote handle and the first call of a plain one make, and which is kept with those of the users.
`disconnectEvents` sweeps it with them, and nothing makes it again.  In the runs in which that
happens to nobody who needs it, every deferred call whose completion comes before its deadline is
answered with it, unless the deadline passes while the completion waits for the call.

## Main definitions

* `RemoteObject.Live`, `RemoteObject.Keeps` — the sink is connected; the steps that leave it to
  whoever needs it.
* `RemoteObject.Late`, `RemoteObject.Overtakes` — the deadline of a call passes; it does so while
  the completion of the call is kept.
* `RemoteObject.Answers` — what then holds of deferred calls.
-/

namespace LogosProtocol

namespace Qt

/-- A call waits with one callback. -/
theorem Call.Registered.unique {call : Call} {id id' : QString} (h : call.Registered id)
    (h' : call.Registered id') : id = id' := CallPc.waiting.inj (h.2.symm.trans h'.2)

theorem Call.Registered.outstanding {call : Call} {id : QString} (h : call.Registered id) :
    call.Outstanding := by
  simp [Call.Outstanding, h.2]

theorem Call.Claims.outstanding {call : Call} {id : QString} (h : call.Claims id) :
    call.Outstanding := by
  unfold Call.Claims at h
  unfold Call.Outstanding
  split at h <;> simp_all

namespace RemoteObject

/-- The completion sink is connected to the replica. -/
def Live (s : State) : Prop := ∃ helper, s.helper = some helper ∧ helper.sink = true

/-- No call is sent after the sink has gone, and it does not go while a call is outstanding. -/
def Keeps (s : State) : Action → Prop
  | .call _ _ _ _ accepted => accepted = true → Live s
  | .disconnectEvents => ∀ n, ¬ (s.calls n).Outstanding
  | _ => True

/-! ## What a step does -/

/-- The call that takes the step. -/
def Action.subject : Action → Option ℕ
  | .call n _ _ _ _ | .reply n _ | .timeout n | .handle n | .wake n | .deliver n => some n
  | _ => none

/-- A call is made, and the replica accepts it. -/
def Action.Sends (n : ℕ) : Action → Prop
  | .call n' _ _ _ accepted => n' = n ∧ accepted = true
  | _ => False

/-- The completion that arrives under a call id. -/
def Action.announced (callId : QString) : Action → Option QVariant
  | .eventResponse id result => if id = callId then some result else none
  | _ => none

/-- What a step does. -/
inductive Effect (s : State) : Action → State → Prop
  /-- A call moves that has no callback waiting, before the step or after it. -/
  | moves {a : Action} {n : ℕ} {call : Call} {waiters : QHash QString ℕ}
      (subject : a.subject = some n)
      (before : call.Outstanding → (s.calls n).Outstanding ∨ a.Sends n)
      (unregistered : ∀ id, ¬ (s.calls n).Registered id ∧ ¬ call.Registered id) :
      Effect s a { s with
        completionWaiters := waiters, calls := Function.update s.calls n call }
  /-- A call takes its completion. -/
  | takes {a : Action} {n : ℕ} {id : QString} {value : QVariant} {waiters : QHash QString ℕ}
      (subject : a = .handle n ∨ a = .wake n) (unregistered : ∀ id, ¬ (s.calls n).Registered id)
      (named : (s.calls n).Named id) (kept : s.completions.lookup id = some value) :
      Effect s a { s with
        completions := s.completions.erase id
        completionWaiters := waiters
        calls := Qt.setPc s.calls n (.resolved { value := value }) }
  /-- A call leaves its callback to wait. -/
  | registers {n : ℕ} {id : QString} {call : Call}
      (unregistered : ∀ id, ¬ (s.calls n).Registered id) (named : (s.calls n).Named id)
      (waits : call.Registered id) :
      Effect s (.handle n) { s with
        asyncCompletionCbs := s.asyncCompletionCbs.insert id n
        calls := Function.update s.calls n call }
  /-- A deadline passes, and the callback is gone. -/
  | expires {n : ℕ} {id : QString} {helper : Option ℕ}
      (timer : (s.calls n).timer = some (id, helper))
      (callback : s.asyncCompletionCbs.lookup id = none) :
      Effect s (.expire n) { s with
        calls := Function.update s.calls n { s.calls n with timer := none } }
  /-- A deadline passes, and takes the callback. -/
  | gives {n m : ℕ} {id : QString} {helper : Option ℕ} {o : Async.Outcome}
      (timer : (s.calls n).timer = some (id, helper))
      (callback : s.asyncCompletionCbs.lookup id = some m) :
      Effect s (.expire n) { s with
        asyncCompletionCbs := s.asyncCompletionCbs.erase id
        calls := Qt.setPc (Function.update s.calls n { s.calls n with timer := none }) m
          (.resolved o) }
  /-- A completion comes that no callback waits for. -/
  | keeps {id : QString} {value : QVariant} (live : Live s)
      (callback : s.asyncCompletionCbs.lookup id = none) :
      Effect s (.eventResponse id value) { s with completions := s.completions.insert id value }
  /-- A completion comes, and takes the callback. -/
  | answers {id : QString} {value : QVariant} {helper : Helper} {m : ℕ}
      (live : s.helper = some helper) (sink : helper.sink = true)
      (callback : s.asyncCompletionCbs.lookup id = some m) :
      Effect s (.eventResponse id value) { s with
        completions := (s.completions.insert id value).erase id
        asyncCompletionCbs := s.asyncCompletionCbs.erase id
        calls := Qt.setPc s.calls m (.queued { value := value } helper.id) }
  /-- A completion comes, and nobody hears it. -/
  | unheard {id : QString} {value : QVariant} (deaf : ¬ Live s) :
      Effect s (.eventResponse id value) s
  | subscribes (live : s.helper ≠ none) : Effect s .onEvent s
  | connects (gone : s.helper = none) :
      Effect s .onEvent { s with helper := some ⟨s.made, false⟩, made := s.made + 1 }
  | disconnects : Effect s .disconnectEvents { s with helper := none }
  | deletes {helper : ℕ} (dead : ∀ live, s.helper = some live → live.id ≠ helper) :
      Effect s (.deleteHelper helper) { s with calls := fun n => (s.calls n).drop helper }

section effect
variable {origin : Bytes} {s s' : State} {a : Action} {n : ℕ} {callId : QString}

/-- A call ends. -/
theorem Effect.ends {o : Async.Outcome} (hsubject : a.subject = some n)
    (hunregistered : ∀ id, ¬ (s.calls n).Registered id) : Effect s a (s.setPc n (.resolved o)) :=
  .moves hsubject (fun hopen => hopen.elim)
    fun id => ⟨hunregistered id, fun hregistered => by cases hregistered.2⟩

/-- A synchronous call looks at its answer. -/
theorem effect_resolveDeferred {v : QVariant} (hfinished : (s.calls n).pc = .finished (.value v))
    (hsync : (s.calls n).async = false) : Effect s (.handle n) (s.resolveDeferred n v) := by
  have hunregistered := Call.not_registered_of_sync hsync
  unfold State.resolveDeferred
  cases hsentinel : isPendingCallSentinel v with
  | none => exact .ends rfl hunregistered
  | some id =>
    have hnamed := Call.named_of_finished hfinished hsentinel
    dsimp only
    cases hkept : s.completions.lookup id with
    | some value => exact .takes (.inl rfl) hunregistered hnamed hkept
    | none =>
      have hwaits : ∀ id', ¬ Call.Registered id' { s.calls n with pc := .waiting id } :=
        Call.not_registered_of_sync hsync
      refine .moves rfl (fun _ => .inl ?_) fun id' => ⟨hunregistered id', hwaits id'⟩
      simp [Call.Outstanding, hfinished]

/-- The finished handler of an asynchronous call. -/
theorem effect_handleFinished {v : QVariant} (hfinished : (s.calls n).pc = .finished (.value v))
    (hasync : (s.calls n).async = true) : Effect s (.handle n) (s.handleFinished n v) := by
  have hunregistered := Call.not_registered hfinished (by simp)
  unfold State.handleFinished
  cases hsentinel : isPendingCallSentinel v with
  | none => exact .ends rfl hunregistered
  | some id =>
    have hnamed := Call.named_of_finished hfinished hsentinel
    dsimp only
    cases hkept : s.completions.lookup id with
    | some value => exact .takes (.inl rfl) hunregistered hnamed hkept
    | none => exact .registers hunregistered hnamed ⟨hasync, rfl⟩

/-- A nested loop returns. -/
theorem effect_resumeDeferred {id : QString} (hwaiting : (s.calls n).pc = .waiting id)
    (hsync : (s.calls n).async = false) : Effect s (.wake n) (s.resumeDeferred origin n id) := by
  have hunregistered := Call.not_registered_of_sync hsync
  unfold State.resumeDeferred
  dsimp only
  cases hkept : s.completions.lookup id with
  | some value => exact .takes (.inr rfl) hunregistered (Call.named_of_waiting hwaiting) hkept
  | none =>
    exact .moves rfl (fun hopen => hopen.elim) fun id =>
      ⟨hunregistered id, fun hregistered => by cases hregistered.2⟩

/-- **What a step does**, in any state. -/
theorem effect_of_next (h : next origin s a = some s') : Effect s a s' := by
  cases a with
  | call n async method timeoutMs accepted =>
    simp only [next] at h
    split at h
    · rename_i hidle
      cases h
      refine .moves rfl (fun hopen => .inr ⟨rfl, ?_⟩) fun id =>
        ⟨Call.not_registered hidle (by simp) id, ?_⟩
      · cases accepted with
        | true => rfl
        | false => exact hopen.elim
      · cases accepted <;> exact fun hregistered => by cases hregistered.2
    · cases h
  | reply n answer =>
    simp only [next] at h
    split at h
    · rename_i hsent
      cases h
      refine .moves rfl (fun _ => .inl ?_) fun id => ⟨Call.not_registered hsent (by simp) id, ?_⟩
      · simp [Call.Outstanding, hsent]
      · exact fun hregistered => by cases hregistered.2
    · cases h
  | timeout n =>
    simp only [next] at h
    split at h
    · rename_i hsent
      cases h
      exact .ends rfl (Call.not_registered hsent (by simp))
    · rename_i hfinished
      split at h <;> cases h
      exact .ends rfl (Call.not_registered hfinished (by simp))
    · cases h
  | handle n =>
    simp only [next] at h
    split at h
    · rename_i hfinished
      cases h
      exact .ends rfl (Call.not_registered hfinished (by simp))
    · rename_i hfinished
      cases h
      split_ifs with hasync
      · exact effect_handleFinished hfinished hasync
      · exact effect_resolveDeferred hfinished (by simpa using hasync)
    · cases h
  | wake n =>
    simp only [next] at h
    split at h
    · rename_i hwaiting
      split at h <;> cases h
      rename_i hasync
      exact effect_resumeDeferred hwaiting (by simpa using hasync)
    · cases h
  | expire n =>
    simp only [next] at h
    split at h
    · rename_i id helper htimer
      cases h
      unfold State.expireDeferred
      dsimp only
      cases hcallback : s.asyncCompletionCbs.lookup id with
      | none => exact .expires htimer hcallback
      | some m => exact .gives htimer hcallback
    · cases h
  | deliver n =>
    simp only [next] at h
    split at h
    · rename_i hqueued
      cases h
      exact .ends rfl (Call.not_registered hqueued (by simp))
    · cases h
  | eventResponse id value =>
    simp only [next] at h
    split at h
    · rename_i helper hhelper
      cases h
      split_ifs with hsink
      · unfold State.complete
        dsimp only
        cases hcallback : s.asyncCompletionCbs.lookup id with
        | none => exact .keeps ⟨helper, hhelper, hsink⟩ hcallback
        | some m => exact .answers hhelper hsink hcallback
      · refine .unheard fun hlive => ?_
        obtain ⟨live, hlive, hlivesink⟩ := hlive
        rw [hhelper] at hlive
        cases hlive
        exact hsink hlivesink
    · rename_i hhelper
      cases h
      refine .unheard fun hlive => ?_
      obtain ⟨live, hlive, -⟩ := hlive
      rw [hhelper] at hlive
      cases hlive
  | onEvent =>
    simp only [next] at h
    split at h
    · rename_i helper hhelper
      cases h
      exact .subscribes (by simp [hhelper])
    · rename_i hhelper
      cases h
      exact .connects hhelper
  | disconnectEvents =>
    cases h
    exact .disconnects
  | deleteHelper helper =>
    simp only [next] at h
    split at h
    · rename_i id sink hhelper
      split at h <;> cases h
      rename_i hne
      refine .deletes fun live hlive => ?_
      rw [hhelper] at hlive
      cases hlive
      exact hne
    · rename_i hhelper
      cases h
      refine .deletes fun live hlive => ?_
      rw [hhelper] at hlive
      cases hlive

end effect

/-! ## What a step leaves as it is -/

/-- The step takes the callback under a call id, if there is one. -/
def Action.Takes (s : State) (id : QString) : Action → Prop
  | .eventResponse id' _ => id' = id ∧ Live s
  | .expire n => ∃ helper, (s.calls n).timer = some (id, helper)
  | _ => False

/-- The callbacks are those of calls that wait. -/
def Registry (s : State) : Prop :=
  ∀ id n, s.asyncCompletionCbs.lookup id = some n → (s.calls n).Registered id

/-- The call stays where it is, but for what goes with its helper. -/
structure Stays (s : State) (a : Action) (call call' : Call) : Prop where
  async : call'.async = call.async
  pc : call'.pc = call.pc ∨ ∃ helper, a = .deleteHelper helper ∧
    (∀ live, s.helper = some live → live.id ≠ helper) ∧ call' = call.drop helper

section frames
variable {origin : Bytes} {s s' : State} {a : Action} {n : ℕ} {callId : QString}
  {call call' : Call}

theorem Stays.of_eq (h : call' = call) : Stays s a call call' :=
  ⟨congrArg _ h, .inl (congrArg _ h)⟩

theorem Stays.registered (hstays : Stays s a call call') (h : call.Registered callId) :
    call'.Registered callId := by
  refine ⟨hstays.async.trans h.1, ?_⟩
  rcases hstays.pc with hsame | ⟨helper, -, -, rfl⟩
  · exact hsame.trans h.2
  · simp [Call.drop, h.2]

theorem setPc_of_ne {calls : ℕ → Call} {n m : ℕ} (hne : m ≠ n) (pc : CallPc) :
    Qt.setPc calls n pc m = calls m := Function.update_of_ne hne ..

/-- **A call moves by its own steps**, or when its callback is taken. -/
theorem Effect.stays (he : Effect s a s') (hsubject : a.subject ≠ some n)
    (hcallback : ∀ id, s.asyncCompletionCbs.lookup id = some n → ¬ a.Takes s id) :
    Stays s a (s.calls n) (s'.calls n) := by
  cases he with
  | @moves _ m call waiters subject before unregistered =>
    have hne : n ≠ m := by
      rintro rfl
      exact hsubject subject
    exact .of_eq (Function.update_of_ne hne ..)
  | @takes _ m id value waiters subject unregistered named kept =>
    have hne : n ≠ m := by
      rintro rfl
      rcases subject with rfl | rfl <;> exact hsubject rfl
    exact .of_eq (setPc_of_ne hne _)
  | @registers m id call unregistered named waits =>
    have hne : n ≠ m := by
      rintro rfl
      exact hsubject rfl
    exact .of_eq (Function.update_of_ne hne ..)
  | @expires m id helper timer callback =>
    by_cases hne : n = m
    · subst hne
      refine ⟨?_, .inl ?_⟩ <;> simp
    · exact .of_eq (Function.update_of_ne hne ..)
  | @gives m k id helper o timer callback =>
    have hne : n ≠ k := by
      rintro rfl
      exact hcallback id callback ⟨helper, timer⟩
    have hframe : Qt.setPc (Function.update s.calls m { s.calls m with timer := none }) k
        (.resolved o) n = Function.update s.calls m { s.calls m with timer := none } n :=
      setPc_of_ne hne _
    by_cases hnm : n = m
    · subst hnm
      refine ⟨(congrArg Call.async hframe).trans ?_, .inl ((congrArg Call.pc hframe).trans ?_)⟩ <;>
        simp
    · exact .of_eq (hframe.trans (Function.update_of_ne hnm ..))
  | @answers id value helper m live sink callback =>
    have hne : n ≠ m := by
      rintro rfl
      exact hcallback id callback ⟨rfl, helper, live, sink⟩
    exact .of_eq (setPc_of_ne hne _)
  | @deletes helper dead => exact ⟨rfl, .inr ⟨helper, rfl, dead, rfl⟩⟩
  | _ => exact .of_eq rfl

/-- A call whose callback waits takes no step. -/
theorem subject_ne_of_registered (hregistered : (s.calls n).Registered callId)
    (he : Effect s a s') : a.subject ≠ some n := by
  intro hsubject
  cases he with
  | moves subject before unregistered =>
    cases subject.symm.trans hsubject
    exact (unregistered callId).1 hregistered
  | takes subject unregistered named kept =>
    rcases subject with rfl | rfl <;> cases hsubject <;> exact unregistered callId hregistered
  | registers unregistered named waits =>
    cases hsubject
    exact unregistered callId hregistered
  | _ => cases hsubject

/-- **The callbacks are those of calls that wait**, step by step. -/
theorem Effect.registry (hr : Registry s) (he : Effect s a s') : Registry s' := by
  have hstays : ∀ {id m}, s.asyncCompletionCbs.lookup id = some m → ¬ a.Takes s id →
      (s'.calls m).Registered id := by
    intro id m hlookup hnot
    have hregistered := hr id m hlookup
    refine (he.stays (subject_ne_of_registered hregistered he) fun id' hlookup' => ?_).registered
      hregistered
    rwa [(hr id' m hlookup').unique hregistered]
  have herase : ∀ {id id' : QString} {m : ℕ}, (s.asyncCompletionCbs.erase id').lookup id = some m →
      id ≠ id' ∧ s.asyncCompletionCbs.lookup id = some m := by
    intro id id' m hlookup
    have hne : id ≠ id' := by
      rintro rfl
      rw [AList.lookup_erase] at hlookup
      cases hlookup
    rw [AList.lookup_erase_ne hne] at hlookup
    exact ⟨hne, hlookup⟩
  intro id m hlookup
  cases he with
  | moves subject before unregistered =>
    refine hstays hlookup fun htakes => ?_
    cases a with
    | eventResponse | expire => cases subject
    | _ => exact htakes
  | takes subject unregistered named kept =>
    refine hstays hlookup fun htakes => ?_
    rcases subject with rfl | rfl <;> exact htakes
  | @registers n id' call unregistered named waits =>
    by_cases hid : id = id'
    · subst hid
      have hmn : m = n := by simpa [eq_comm] using hlookup
      subst hmn
      dsimp only
      rw [Function.update_self]
      exact waits
    · exact hstays ((AList.lookup_insert_ne hid).symm.trans hlookup) fun htakes => htakes
  | @expires n id' helper timer callback =>
    refine hstays hlookup fun htakes => ?_
    obtain ⟨helper', htimer⟩ := htakes
    rw [timer] at htimer
    cases htimer
    rw [callback] at hlookup
    cases hlookup
  | @gives n k id' helper o timer callback =>
    obtain ⟨hne, hbefore⟩ := herase hlookup
    refine hstays hbefore fun htakes => ?_
    obtain ⟨helper', htimer⟩ := htakes
    rw [timer] at htimer
    cases htimer
    exact hne rfl
  | @keeps id' value live callback =>
    refine hstays hlookup fun htakes => ?_
    obtain rfl := htakes.1
    rw [callback] at hlookup
    cases hlookup
  | @answers id' value helper k live sink callback =>
    obtain ⟨hne, hbefore⟩ := herase hlookup
    exact hstays hbefore fun htakes => hne htakes.1.symm
  | unheard deaf => exact hstays hlookup fun htakes => deaf htakes.2
  | subscribes | connects | disconnects | deletes => exact hstays hlookup fun htakes => htakes

/-- A completion that is kept stays until its own call takes it. -/
theorem Effect.completions (he : Effect s a s') (hannounced : a.announced callId = none)
    (hnamed : ∀ m, a = .handle m ∨ a = .wake m → ¬ (s.calls m).Named callId) :
    s'.completions.lookup callId = s.completions.lookup callId := by
  cases he with
  | @takes _ m id value waiters subject unregistered named kept =>
    have hne : callId ≠ id := by
      rintro rfl
      exact hnamed m subject named
    exact AList.lookup_erase_ne hne
  | @keeps id value live callback =>
    have hne : callId ≠ id := by
      rintro rfl
      simp [Action.announced] at hannounced
    exact AList.lookup_insert_ne hne
  | @answers id value helper m live sink callback =>
    have hne : callId ≠ id := by
      rintro rfl
      simp [Action.announced] at hannounced
    exact (AList.lookup_erase_ne hne).trans (AList.lookup_insert_ne hne)
  | _ => rfl

/-- A callback stays until it is taken, or another one is put in its place. -/
theorem Effect.callbacks (he : Effect s a s')
    (hlookup : s.asyncCompletionCbs.lookup callId = some n)
    (hnot : ¬ a.Takes s callId) (hnamed : ∀ m, a = .handle m → ¬ (s.calls m).Named callId) :
    s'.asyncCompletionCbs.lookup callId = some n := by
  cases he with
  | @registers m id call unregistered named waits =>
    have hne : callId ≠ id := by
      rintro rfl
      exact hnamed m rfl named
    exact (AList.lookup_insert_ne hne).trans hlookup
  | @gives m k id helper o timer callback =>
    have hne : callId ≠ id := by
      rintro rfl
      exact hnot ⟨helper, timer⟩
    exact (AList.lookup_erase_ne hne).trans hlookup
  | @answers id value helper m live sink callback =>
    have hne : callId ≠ id := by
      rintro rfl
      exact hnot ⟨rfl, helper, live, sink⟩
    exact (AList.lookup_erase_ne hne).trans hlookup
  | _ => exact hlookup

/-- The helper stays until `disconnectEvents` drops it. -/
theorem Effect.helper (he : Effect s a s') (hdisconnect : a ≠ .disconnectEvents) {helper : Helper}
    (hhelper : s.helper = some helper) : s'.helper = some helper := by
  cases he with
  | connects gone =>
    rw [hhelper] at gone
    cases gone
  | disconnects => exact absurd rfl hdisconnect
  | _ => exact hhelper

/-- **A call is outstanding from the moment it is sent.** -/
theorem Effect.outstanding (hr : Registry s) (he : Effect s a s')
    (houtstanding : (s'.calls n).Outstanding) : (s.calls n).Outstanding ∨ a.Sends n := by
  by_cases hcallback : ∃ id, s.asyncCompletionCbs.lookup id = some n
  · obtain ⟨id, hlookup⟩ := hcallback
    exact .inl (hr id n hlookup).outstanding
  by_cases hsubject : a.subject = some n
  · cases he with
    | moves subject before unregistered =>
      cases subject.symm.trans hsubject
      dsimp only at houtstanding
      rw [Function.update_self] at houtstanding
      exact before houtstanding
    | takes subject unregistered named kept =>
      dsimp only at houtstanding
      rcases subject with rfl | rfl <;> cases hsubject <;> rw [setPc_self] at houtstanding <;>
        exact houtstanding.elim
    | registers unregistered named waits =>
      cases hsubject
      left
      unfold Call.Named at named
      unfold Call.Outstanding
      split at named <;> simp_all
    | _ => cases hsubject
  · have hstays := he.stays hsubject fun id hlookup => absurd ⟨id, hlookup⟩ hcallback
    left
    rcases hstays.pc with hsame | ⟨helper, -, -, hdrop⟩
    · unfold Call.Outstanding at houtstanding ⊢
      rwa [hsame] at houtstanding
    · rw [hdrop] at houtstanding
      rcases Call.pc_drop helper (s.calls n) with hsame | ⟨hdropped, -⟩
      · unfold Call.Outstanding at houtstanding ⊢
        rwa [hsame] at houtstanding
      · rw [Call.Outstanding, hdropped] at houtstanding
        exact houtstanding.elim

/-- **While a call is outstanding, the sink is connected.** -/
theorem Keeps.live (hr : Registry s) (hlive : ∀ n, (s.calls n).Outstanding → Live s)
    (hkeeps : Keeps s a) (he : Effect s a s') (n : ℕ) (houtstanding : (s'.calls n).Outstanding) :
    Live s' := by
  have hmono : a ≠ .disconnectEvents → Live s → Live s' := by
    rintro hdisconnect ⟨helper, hhelper, hsink⟩
    exact ⟨helper, he.helper hdisconnect hhelper, hsink⟩
  rcases he.outstanding hr houtstanding with hbefore | hsends
  · refine hmono ?_ (hlive n hbefore)
    rintro rfl
    exact hkeeps n hbefore
  · cases a with
    | call m async method timeoutMs accepted => exact hmono (by simp) (hkeeps hsends.2)
    | _ => exact hsends.elim

end frames

/-! ## Deferred calls -/

/-- Call ids are distinct, and the call is answered with its sentinel. -/
structure Defers (callId : QString) (n : ℕ) (s : State) (a : Action) : Prop where
  /-- No other call waits, or has waited, under this one. -/
  names : ∀ m, (s.calls m).Named callId → m = n
  timers : ∀ m helper, (s.calls m).timer = some (callId, helper) → m = n
  sentinel : ∀ answer, a = .reply n answer → answer.callId = some callId

/-- The deadline of the call passes: a timer fires, or a nested loop returns before the completion
has come. -/
def Late (callId : QString) (n : ℕ) (s : State) : Action → Prop
  | .timeout m | .expire m => m = n
  | .wake m => m = n ∧ s.completions.lookup callId = none
  | _ => False

/-- The completion of the call is kept, and the first deadline comes before the call has looked at
its answer. -/
def Overtakes (callId : QString) (n : ℕ) (s : State) : Action → Prop
  | .timeout m => m = n ∧ s.completions.lookup callId ≠ none
  | _ => False

/-- Until the call is resolved, call ids are distinct, and it is answered with its sentinel. -/
def Deferring (callId : QString) (n : ℕ) (s : State) (a : Action) : Prop :=
  (s.calls n).Outstanding → Defers callId n s a

/-- Until the call is resolved, its deadline does not pass. -/
def InTime (callId : QString) (n : ℕ) (s : State) (a : Action) : Prop :=
  (s.calls n).Outstanding → ¬ Late callId n s a

/-- The sink is left to whoever needs it, and the completion of the call to the call. -/
structure Condition (callId : QString) (n : ℕ) (s : State) (a : Action) : Prop where
  keeps : Keeps s a
  spares : (s.calls n).Outstanding → ¬ Overtakes callId n s a

/-- The steps of `C` while the call is deferred, until its deadline passes. -/
def untilDeadline (origin : Bytes) (C : QString → ℕ → State → Action → Prop) (callId : QString)
    (n : ℕ) : TransitionSystem State Action :=
  (handle origin).restrict fun s a =>
    C callId n s a ∧ Deferring callId n s a ∧ InTime callId n s a

/-- The steps of `C` while the call is deferred, whatever its deadline does. -/
def anyDeadline (origin : Bytes) (C : QString → ℕ → State → Action → Prop) (callId : QString)
    (n : ℕ) : TransitionSystem State Action :=
  (handle origin).restrict fun s a => C callId n s a ∧ Deferring callId n s a

/-- The call has been sent, and its completion has not come. -/
inductive Expects (callId : QString) (n : ℕ) (s : State) : Prop
  | early (claims : (s.calls n).Claims callId) (unkept : s.completions.lookup callId = none)
  | registered (callback : s.asyncCompletionCbs.lookup callId = some n)

/-- The completion waits for the call, or the call is resolved with it. -/
inductive Given (callId : QString) (value : QVariant) (n : ℕ) (s : State) : Prop
  | kept (claims : (s.calls n).Claims callId) (kept : s.completions.lookup callId = some value)
  | queued {helper : Helper} (posted : (s.calls n).pc = .queued { value := value } helper.id)
      (live : s.helper = some helper)
  | resolved (ended : (s.calls n).pc = .resolved { value := value })

/-- Of the completions that have come under its id, the call is resolved with one. -/
def Settles (callId : QString) (came : List QVariant) (n : ℕ) (s : State) : Prop :=
  came = [] ∧ Expects callId n s ∨ ∃ v ∈ came, Given callId v n s

section deferred
variable {origin : Bytes} {s s' : State} {a : Action} {n : ℕ} {callId : QString} {value : QVariant}
  {came : List QVariant}

theorem calls_setPc_self (s : State) (n : ℕ) (pc : CallPc) :
    (s.setPc n pc).calls n = { s.calls n with pc := pc } := setPc_self ..

theorem Expects.outstanding (hr : Registry s) (he : Expects callId n s) :
    (s.calls n).Outstanding := by
  cases he with
  | early claims unkept => exact claims.outstanding
  | registered callback => exact (hr callId n callback).outstanding

theorem Stays.claims {call call' : Call} (hstays : Stays s a call call') (h : call.Claims callId) :
    call'.Claims callId := by
  have hpc : call'.pc = call.pc := by
    rcases hstays.pc with hsame | ⟨helper, -, -, rfl⟩
    · exact hsame
    · rcases Call.pc_drop helper call with hsame | ⟨-, ⟨helper', hpc⟩ | ⟨o, helper', hpc⟩⟩
      · exact hsame
      · rw [Call.Claims, hpc] at h
        exact h.elim
      · rw [Call.Claims, hpc] at h
        exact h.elim
  unfold Call.Claims at h ⊢
  rwa [hpc, hstays.async]

/-- A call that is to claim its completion has no callback to be taken. -/
theorem stays_of_claims (hr : Registry s) (hclaims : (s.calls n).Claims callId)
    (hsubject : a.subject ≠ some n) (he : Effect s a s') :
    Stays s a (s.calls n) (s'.calls n) :=
  he.stays hsubject fun id hlookup => absurd hclaims (hr id n hlookup).not_claims

/-- Until it looks for its completion, a call is to claim it. -/
theorem claims_next (hr : Registry s) (hclaims : (s.calls n).Claims callId)
    (hd : Defers callId n s a) (htimeout : a ≠ .timeout n) (hlooks : a ≠ .handle n ∧ a ≠ .wake n)
    (h : next origin s a = some s') : (s'.calls n).Claims callId := by
  by_cases hsubject : a.subject = some n
  · cases a with
    | call m async method timeoutMs accepted =>
      cases hsubject
      simp only [next] at h
      split at h
      · rename_i hidle
        rw [Call.Claims, hidle] at hclaims
        exact hclaims.elim
      · cases h
    | reply m answer =>
      cases hsubject
      simp only [next] at h
      split at h <;> cases h
      rw [calls_setPc_self]
      exact hd.sentinel answer rfl
    | timeout m =>
      cases hsubject
      exact absurd rfl htimeout
    | handle m =>
      cases hsubject
      exact absurd rfl hlooks.1
    | wake m =>
      cases hsubject
      exact absurd rfl hlooks.2
    | deliver m =>
      cases hsubject
      simp only [next] at h
      split at h
      · rename_i hqueued
        rw [Call.Claims, hqueued] at hclaims
        exact hclaims.elim
      · cases h
    | _ => cases hsubject
  · exact (stays_of_claims hr hclaims hsubject (effect_of_next h)).claims hclaims

/-- Only the call itself takes its completion. -/
theorem Defers.unnamed (hd : Defers callId n s a) (hlooks : a ≠ .handle n ∧ a ≠ .wake n) (m : ℕ)
    (hm : a = .handle m ∨ a = .wake m) : ¬ (s.calls m).Named callId := by
  intro hnamed
  obtain rfl := hd.names m hnamed
  rcases hm with rfl | rfl
  · exact hlooks.1 rfl
  · exact hlooks.2 rfl

/-- A call looks at its answer, which is its sentinel. -/
theorem finished_of_claims (hclaims : (s.calls n).Claims callId)
    (h : next origin s (.handle n) = some s') :
    ∃ v, (s.calls n).pc = .finished (.value v) ∧ isPendingCallSentinel v = some callId ∧
      s' = if (s.calls n).async then s.handleFinished n v else s.resolveDeferred n v := by
  simp only [next] at h
  split at h
  · rename_i code hfinished
    have hcallId : (Answer.error code).callId = some callId := by
      rwa [Call.Claims, hfinished] at hclaims
    cases hcallId
  · rename_i v hfinished
    cases h
    refine ⟨v, hfinished, ?_, rfl⟩
    rwa [Call.Claims, hfinished] at hclaims
  · cases h

/-- The call looks, and its completion has not come. -/
theorem expects_handle (hclaims : (s.calls n).Claims callId)
    (hunkept : s.completions.lookup callId = none) (h : next origin s (.handle n) = some s') :
    Expects callId n s' := by
  obtain ⟨v, hfinished, hsentinel, rfl⟩ := finished_of_claims hclaims h
  cases hasync : (s.calls n).async with
  | true =>
    simp only [if_true, State.handleFinished, hsentinel, hunkept]
    exact .registered (AList.lookup_insert ..)
  | false =>
    simp only [Bool.false_eq_true, if_false, State.resolveDeferred, hsentinel, hunkept]
    refine .early ?_ hunkept
    rw [calls_setPc_self]
    exact ⟨rfl, hasync⟩

/-- The call looks, and its completion is there. -/
theorem given_handle (hclaims : (s.calls n).Claims callId)
    (hkept : s.completions.lookup callId = some value) (h : next origin s (.handle n) = some s') :
    Given callId value n s' := by
  obtain ⟨v, hfinished, hsentinel, rfl⟩ := finished_of_claims hclaims h
  refine .resolved ?_
  cases hasync : (s.calls n).async with
  | true =>
    simp only [if_true, State.handleFinished, hsentinel, hkept]
    rw [calls_setPc_self]
  | false =>
    simp only [Bool.false_eq_true, if_false, State.resolveDeferred, hsentinel, hkept]
    rw [calls_setPc_self]

/-- The nested loop returns, and the completion is there. -/
theorem given_wake (hclaims : (s.calls n).Claims callId)
    (hkept : s.completions.lookup callId = some value) (h : next origin s (.wake n) = some s') :
    Given callId value n s' := by
  simp only [next] at h
  split at h
  · rename_i callId' hwaiting
    split at h <;> cases h
    obtain rfl : callId' = callId := by
      rw [Call.Claims, hwaiting] at hclaims
      exact hclaims.1
    refine .resolved ?_
    simp only [State.resumeDeferred, hkept]
    rw [calls_setPc_self]
  · cases h

/-- An event that is heard is kept, or taken by a callback. -/
theorem Effect.heard {id : QString} (he : Effect s (.eventResponse id value) s') (hlive : Live s) :
    (s.asyncCompletionCbs.lookup id = none ∧ s'.completions.lookup id = some value) ∨
      ∃ helper m, s.asyncCompletionCbs.lookup id = some m ∧ s'.helper = some helper ∧
        (s'.calls m).pc = .queued { value := value } helper.id := by
  cases he with
  | moves subject before unregistered => cases subject
  | takes subject unregistered named kept => rcases subject with heq | heq <;> cases heq
  | keeps live callback => exact .inl ⟨callback, AList.lookup_insert ..⟩
  | @answers id value helper m live sink callback =>
    refine .inr ⟨helper, m, callback, live, ?_⟩
    dsimp only
    rw [setPc_self]
  | unheard deaf => exact absurd hlive deaf

/-- A completion is kept for a call that is to claim it. -/
theorem given_of_claims (hr : Registry s) (hlive : Live s) (hclaims : (s.calls n).Claims callId)
    (hd : Defers callId n s (.eventResponse callId value))
    (he : Effect s (.eventResponse callId value) s') : Given callId value n s' := by
  rcases he.heard hlive with ⟨-, hkept⟩ | ⟨helper, m, hcallback, -, -⟩
  · exact .kept ((stays_of_claims hr hclaims (by simp [Action.subject]) he).claims hclaims) hkept
  · have hregistered := hr callId m hcallback
    obtain rfl := hd.names m hregistered.named
    exact absurd hclaims hregistered.not_claims

/-- The completion comes to the sink. -/
theorem Expects.come (hr : Registry s) (hlive : Live s) (hx : Expects callId n s)
    (hd : Defers callId n s (.eventResponse callId value))
    (he : Effect s (.eventResponse callId value) s') : Given callId value n s' := by
  cases hx with
  | early claims unkept => exact given_of_claims hr hlive claims hd he
  | registered callback =>
    rcases he.heard hlive with ⟨hnone, -⟩ | ⟨helper, m, hcallback, hhelper, hposted⟩
    · rw [callback] at hnone
      cases hnone
    · rw [callback] at hcallback
      cases hcallback
      exact .queued hposted hhelper

theorem announced_eq_some {v : QVariant} (h : a.announced callId = some v) :
    a = .eventResponse callId v := by
  cases a with
  | eventResponse id result =>
    simp only [Action.announced, Option.ite_none_right_eq_some, Option.some.injEq] at h
    rw [h.1, h.2]
  | _ => cases h

/-- **The completion of a call comes, or is still to come.** -/
theorem Expects.next (hr : Registry s) (hlive : Live s) (hx : Expects callId n s)
    (hd : Defers callId n s a) (hlate : ¬ Late callId n s a)
    (h : RemoteObject.next origin s a = some s') :
    a.announced callId = none ∧ Expects callId n s' ∨
      ∃ v, a.announced callId = some v ∧ Given callId v n s' := by
  have he := effect_of_next h
  cases hannounced : a.announced callId with
  | some v =>
    refine .inr ⟨v, rfl, ?_⟩
    obtain rfl := announced_eq_some hannounced
    exact hx.come hr hlive hd he
  | none =>
    refine .inl ⟨rfl, ?_⟩
    cases hx with
    | early claims unkept =>
      by_cases hhandle : a = .handle n
      · subst hhandle
        exact expects_handle claims unkept h
      have hlooks : a ≠ .handle n ∧ a ≠ .wake n := by
        refine ⟨hhandle, ?_⟩
        rintro rfl
        exact hlate ⟨rfl, unkept⟩
      have htimeout : a ≠ .timeout n := by
        rintro rfl
        exact hlate rfl
      refine .early (claims_next hr claims hd htimeout hlooks h) ?_
      rw [he.completions hannounced (hd.unnamed hlooks), unkept]
    | registered callback =>
      have hregistered := hr callId n callback
      have hsubject := subject_ne_of_registered hregistered he
      refine .registered (he.callbacks callback (fun htakes => ?_) fun m hm hnamed => ?_)
      · cases a with
        | eventResponse id result =>
          obtain rfl := htakes.1
          simp [Action.announced] at hannounced
        | expire m =>
          obtain ⟨helper, htimer⟩ := htakes
          exact hlate (hd.timers m helper htimer)
        | _ => exact htakes.elim
      · obtain rfl := hd.names m hnamed
        exact hsubject (hm ▸ rfl)

/-- **A call that has its completion keeps it**, whatever its deadline does. -/
theorem Given.next (hr : Registry s) (hlive : (s.calls n).Outstanding → Live s)
    (hg : Given callId value n s) (hcondition : Condition callId n s a)
    (hdefers : Deferring callId n s a) (h : RemoteObject.next origin s a = some s') :
    ∃ v, (v = value ∨ a.announced callId = some v) ∧ Given callId v n s' := by
  have he := effect_of_next h
  have hunregistered : (∀ id, (s.calls n).pc ≠ .waiting id) →
      ∀ id, s.asyncCompletionCbs.lookup id = some n → ¬ a.Takes s id := by
    intro hpc id hlookup
    exact absurd (hr id n hlookup).2 (hpc id)
  cases hg with
  | kept claims kept =>
    have hd := hdefers claims.outstanding
    have htimeout : a ≠ .timeout n := by
      rintro rfl
      exact hcondition.spares claims.outstanding ⟨rfl, by simp [kept]⟩
    by_cases hhandle : a = .handle n
    · subst hhandle
      exact ⟨value, .inl rfl, given_handle claims kept h⟩
    by_cases hwake : a = .wake n
    · subst hwake
      exact ⟨value, .inl rfl, given_wake claims kept h⟩
    cases hannounced : a.announced callId with
    | some v =>
      obtain rfl := announced_eq_some hannounced
      exact ⟨v, .inr rfl, given_of_claims hr (hlive claims.outstanding) claims hd he⟩
    | none =>
      refine ⟨value, .inl rfl, .kept (claims_next hr claims hd htimeout ⟨hhandle, hwake⟩ h) ?_⟩
      rw [he.completions hannounced (hd.unnamed ⟨hhandle, hwake⟩), kept]
  | @queued helper posted live =>
    refine ⟨value, .inl rfl, ?_⟩
    have hdisconnect : a ≠ .disconnectEvents := by
      rintro rfl
      exact hcondition.keeps n (by simp [Call.Outstanding, posted])
    have hhelper := he.helper hdisconnect live
    by_cases hsubject : a.subject = some n
    · cases a with
      | deliver m =>
        cases hsubject
        simp only [RemoteObject.next, posted, Option.some.injEq] at h
        subst h
        exact .resolved (by rw [calls_setPc_self])
      | call m async method timeoutMs accepted | reply m answer | timeout m | handle m | wake m =>
        cases hsubject
        simp [RemoteObject.next, posted] at h
      | _ => cases hsubject
    · have hstays := he.stays hsubject (hunregistered (by simp [posted]))
      rcases hstays.pc with hsame | ⟨dead, -, hdead, hdrop⟩
      · exact .queued (hsame.trans posted) hhelper
      · refine .queued ?_ hhelper
        rw [hdrop]
        simp [Call.drop, posted, hdead helper live]
  | resolved ended =>
    refine ⟨value, .inl rfl, .resolved ?_⟩
    by_cases hsubject : a.subject = some n
    · cases a with
      | call m async method timeoutMs accepted | reply m answer | timeout m | handle m | wake m
      | deliver m =>
        cases hsubject
        simp [RemoteObject.next, ended] at h
      | _ => cases hsubject
    · have hstays := he.stays hsubject (hunregistered (by simp [ended]))
      rcases hstays.pc with hsame | ⟨dead, -, -, hdrop⟩
      · exact hsame.trans ended
      · rw [hdrop]
        simp [Call.drop, ended]

/-- **One step of a call that has a completion.** -/
theorem Given.announce (hr : Registry s) (hlive : (s.calls n).Outstanding → Live s)
    (hg : ∃ v ∈ came, Given callId v n s) (hcondition : Condition callId n s a)
    (hdefers : Deferring callId n s a)
    (h : RemoteObject.next origin s a = some s') :
    ∃ v ∈ came ++ (a.announced callId).toList, Given callId v n s' := by
  obtain ⟨v, hv, hgiven⟩ := hg
  obtain ⟨v', hv', hgiven'⟩ := hgiven.next hr hlive hcondition hdefers h
  refine ⟨v', ?_, hgiven'⟩
  rcases hv' with rfl | hannounced
  · exact List.mem_append_left _ hv
  · exact List.mem_append_right _ (by simp [hannounced])

/-- **One step of a call that is sent**, before its deadline. -/
theorem Settles.next (hr : Registry s) (hlive : (s.calls n).Outstanding → Live s)
    (hs : Settles callId came n s) (hcondition : Condition callId n s a)
    (hdefers : Deferring callId n s a)
    (hintime : InTime callId n s a)
    (h : RemoteObject.next origin s a = some s') :
    Settles callId (came ++ (a.announced callId).toList) n s' := by
  rcases hs with ⟨rfl, hx⟩ | hgiven
  · have hopen := hx.outstanding hr
    rcases hx.next hr (hlive hopen) (hdefers hopen) (hintime hopen) h with
      ⟨hnone, hx'⟩ | ⟨v, hsome, hg⟩
    · exact .inl ⟨by simp [hnone], hx'⟩
    · exact .inr ⟨v, by simp [hsome], hg⟩
  · exact .inr (Given.announce hr hlive hgiven hcondition hdefers h)

/-- What holds in every run that keeps the sink. -/
structure Kept (s : State) : Prop where
  registry : Registry s
  live : ∀ n, (s.calls n).Outstanding → Live s

theorem Kept.next (hk : Kept s) (hkeeps : Keeps s a)
    (h : RemoteObject.next origin s a = some s') : Kept s' :=
  have he := effect_of_next h
  ⟨he.registry hk.registry, hkeeps.live hk.registry hk.live he⟩

/-- **A whole run of a call that is sent**, before its deadline. -/
theorem Settles.run {as : List Action} (hk : Kept s) (hs : Settles callId came n s)
    (hrun : (untilDeadline origin Condition callId n).Run s as s') :
    Kept s' ∧ Settles callId (came ++ as.filterMap (Action.announced callId)) n s' := by
  induction hrun with
  | nil => exact ⟨hk, by simpa using hs⟩
  | snoc hrun hstep ih =>
    obtain ⟨hk', hs'⟩ := ih
    obtain ⟨hnext, hcondition, hdefers, hintime⟩ := hstep
    refine ⟨hk'.next hcondition.keeps hnext, ?_⟩
    rw [TransitionSystem.filterMap_snoc, ← List.append_assoc]
    exact hs'.next hk'.registry (hk'.live n) hcondition hdefers hintime hnext

/-- **A whole run of a call that has a completion.** -/
theorem Given.run {as : List Action} (hk : Kept s) (hg : ∃ v ∈ came, Given callId v n s)
    (hrun : (anyDeadline origin Condition callId n).Run s as s') :
    Kept s' ∧ ∃ v ∈ came ++ as.filterMap (Action.announced callId), Given callId v n s' := by
  induction hrun with
  | nil => exact ⟨hk, by simpa using hg⟩
  | snoc hrun hstep ih =>
    obtain ⟨hk', hg'⟩ := ih
    obtain ⟨hnext, hcondition, hdefers⟩ := hstep
    refine ⟨hk'.next hcondition.keeps hnext, ?_⟩
    rw [TransitionSystem.filterMap_snoc, ← List.append_assoc]
    exact Given.announce hk'.registry (hk'.live n) hg' hcondition hdefers hnext

/-- The steps of a call from the moment that its answer is there. -/
def settling (n : ℕ) : List Action := [.handle n, .wake n, .deliver n]

/-- A call that has its completion does not stop before it is resolved with it. -/
theorem Given.goesOn (hg : Given callId value n s) :
    (s.calls n).pc = .sent ∨ (s.calls n).pc = .resolved { value := value } ∨
      ∃ a ∈ settling n, (RemoteObject.next origin s a).isSome := by
  cases hg with
  | kept claims kept =>
    cases hpc : (s.calls n).pc with
    | sent => exact .inl rfl
    | finished answer =>
      refine .inr (.inr ⟨.handle n, by simp [settling], ?_⟩)
      cases answer <;> simp [RemoteObject.next, hpc]
    | waiting id =>
      rw [Call.Claims, hpc] at claims
      exact .inr (.inr ⟨.wake n, by simp [settling], by simp [RemoteObject.next, hpc, claims.2]⟩)
    | idle | posted helper | queued o helper | resolved o | dropped =>
      rw [Call.Claims, hpc] at claims
      exact claims.elim
  | queued posted live =>
    exact .inr (.inr ⟨.deliver n, by simp [settling], by simp [RemoteObject.next, posted]⟩)
  | resolved ended => exact .inr (.inl ended)

end deferred

/-- **Deferred calls are answered.**  The sink is connected while a call is outstanding.  Of a call
that has been sent, and has not looked for its completion, let a completion come under its id before
its deadline passes.  Then one of the completions that come under its id is what it is resolved
with, in every run that takes only the steps of `C`, whenever its deadline passes from then on. -/
structure Answers (origin : Bytes) (C : QString → ℕ → State → Action → Prop) (s : State) :
    Prop where
  live : ∀ n, (s.calls n).Outstanding → Live s
  answered : ∀ callId n, (s.calls n).Claims callId →
    ∀ before s₁ value s₂ after s',
      (untilDeadline origin C callId n).Run s before s₁ →
      (anyDeadline origin C callId n).step s₁ (.eventResponse callId value) s₂ →
      (anyDeadline origin C callId n).Run s₂ after s' →
      ∃ v ∈ (s.completions.lookup callId).toList ++
          (before ++ .eventResponse callId value :: after).filterMap (Action.announced callId),
        Given callId v n s' ∧
        ((s'.calls n).pc = .sent ∨ (s'.calls n).pc = .resolved { value := v } ∨
          ∃ a ∈ settling n, (next origin s' a).isSome)

section kept
variable {origin : Bytes} {s : State}

theorem kept_of_reachable (h : ((handle origin).restrict Keeps).Reachable s) : Kept s := by
  apply h.invariant
  · rintro s rfl
    exact ⟨fun id n hlookup => (by cases hlookup), fun n houtstanding => houtstanding.elim⟩
  · exact fun s a s' hk hstep => hk.next hstep.2 hstep.1

/-- **In every run that keeps the sink, deferred calls are answered.** -/
theorem answers_of_kept (h : ((handle origin).restrict Keeps).Reachable s) :
    Answers origin Condition s := by
  have hk := kept_of_reachable h
  refine ⟨hk.live, fun callId n hclaims before s₁ value s₂ after s' hbefore hcomes hafter => ?_⟩
  have hstart : Settles callId (s.completions.lookup callId).toList n s := by
    cases hkept : s.completions.lookup callId with
    | none => exact .inl ⟨rfl, .early hclaims hkept⟩
    | some v => exact .inr ⟨v, by simp, .kept hclaims hkept⟩
  obtain ⟨hk₁, hsettles⟩ := hstart.run hk hbefore
  obtain ⟨hnext, hcondition, hdefers⟩ := hcomes
  have hcame := hsettles.next hk₁.registry (hk₁.live n) hcondition hdefers (fun _ => id) hnext
  have hgiven : ∃ v ∈ (s.completions.lookup callId).toList ++
      before.filterMap (Action.announced callId) ++ [value], Given callId v n s₂ := by
    have hvalue : (Action.eventResponse callId value).announced callId = some value := by
      simp [Action.announced]
    rw [hvalue] at hcame
    rcases hcame with ⟨hnone, -⟩ | hgiven
    · simp at hnone
    · exact hgiven
  obtain ⟨-, v, hv, hgiven'⟩ := Given.run (hk₁.next hcondition.keeps hnext) hgiven hafter
  exact ⟨v, by simpa [Action.announced] using hv, hgiven', hgiven'.goesOn⟩

end kept

end RemoteObject

end Qt

open Async Qt

/-- **Deferred calls survive `disconnectEvents`**, in the runs in which it is not called while a
call is open, and no call begins after it has swept the completion subscription; and of a call whose
completion has come before its deadline, the deadline does not end it before the completion has been
taken. -/
theorem deferred_answered (obj origin : Bytes) :
    (∀ s, ((PlainObject.handle obj).restrict (PlainObject.Keeps obj)).Reachable s →
      PlainObject.Answers obj (PlainObject.Condition obj) s) ∧
    ∀ s, ((RemoteObject.handle origin).restrict RemoteObject.Keeps).Reachable s →
      RemoteObject.Answers origin RemoteObject.Condition s :=
  ⟨fun _ => PlainObject.answers_of_kept, fun _ => RemoteObject.answers_of_kept⟩

section runs

/-- The sentinel of the provider's call `c`. -/
def sentinelOf (callId : QString) : QVariant := .map [(pendingCallKey, .string callId)]

/-- A synchronous call alone on its plain handle is answered with its sentinel. -/
theorem PlainObject.deferring_alone {s : PlainObject.State} {a : PlainObject.Action}
    (hcalls : ∀ id, s.calls.state.calls id = {})
    (hsync : ∀ n, n ≠ 0 → (s.calls.sync n).pc = .idle) (hdeferred : s.calls.state.st.deferred = ∅)
    (hsentinel : ∀ b, a.callsAction = some b → ¬ Diverts (qstr "c") (.sync 0) s.calls b) :
    PlainObject.Deferring (qstr "c") (.sync 0) s a := by
  refine fun b hb _ => ⟨⟨fun id hfiling => ?_, fun n hawaiting => ?_, fun id hlookup => ?_⟩,
    fun id hid => ?_, hsentinel b hb⟩
  · rw [hcalls id] at hfiling
    cases hfiling
  · by_contra hne
    rw [hsync n fun heq => hne (congrArg Owner.sync heq.symm)] at hawaiting
    cases hawaiting
  · rw [hdeferred] at hlookup
    cases hlookup
  · rw [hcalls id] at hid
    cases hid

/-- The completion comes to a synchronous call alone on its plain handle. -/
theorem PlainObject.deferring_callComplete {s : PlainObject.State}
    (hcalls : ∀ id, s.calls.state.calls id = {})
    (hsync : ∀ n, n ≠ 0 → (s.calls.sync n).pc = .idle) (hdeferred : s.calls.state.st.deferred = ∅) :
    PlainObject.Deferring (qstr "c") (.sync 0) s (.callComplete [] (qstr "c") (.bool true)) := by
  refine PlainObject.deferring_alone hcalls hsync hdeferred fun b hb => ?_
  cases hb
  exact id

/-- A call alone on its remote handle is answered with its sentinel. -/
theorem RemoteObject.deferring_alone {s : RemoteObject.State} {a : RemoteObject.Action}
    (hcalls : ∀ n, n ≠ 0 → s.calls n = {})
    (hsentinel : ∀ answer, a = .reply 0 answer → answer.callId = some (qstr "c")) :
    RemoteObject.Deferring (qstr "c") 0 s a := by
  refine fun _ => ⟨fun m hnamed => ?_, fun m helper htimer => ?_, hsentinel⟩
  · by_contra hne
    rw [hcalls m hne] at hnamed
    exact hnamed
  · by_contra hne
    rw [hcalls m hne] at htimer
    cases htimer

/-- A plain handle with one synchronous call, which has been sent. -/
def PlainObject.oneCall : PlainObject.State where
  calls := {
    state := { st := { syncOutstanding := 1 } }
    sync := Function.update (fun _ => {}) 0 ⟨bstr "m", 20, .waiting⟩ }
  peer := ({} : Subscriptions.Peer).onEvent (bstr "o") callCompleteEvent completionHandler
  subs := [1]
  completionSubscribed := true
  entered := Function.update (fun _ => false) (.sync 0) true

/-- A remote handle with one asynchronous call, which has been sent. -/
def RemoteObject.oneCall : RemoteObject.State where
  calls := Function.update (fun _ => {}) 0
    { async := true, method := bstr "m", timeoutMs := 20, pc := .sent }

theorem PlainObject.oneCall_reachable :
    ((PlainObject.handle (bstr "o")).restrict (PlainObject.Keeps (bstr "o"))).Reachable
      PlainObject.oneCall := by
  have hinit : ((PlainObject.handle (bstr "o")).restrict
      (PlainObject.Keeps (bstr "o"))).Reachable {} := .init rfl
  have hbegun := hinit.next (.ensureCompletionSub (.sync 0)) (fun h => by cases h) rfl
  exact hbegun.next (.call (.callSync 0 (bstr "m") 20)) trivial rfl

theorem RemoteObject.oneCall_reachable :
    ((RemoteObject.handle (bstr "o")).restrict RemoteObject.Keeps).Reachable
      RemoteObject.oneCall := by
  have hinit : ((RemoteObject.handle (bstr "o")).restrict RemoteObject.Keeps).Reachable {} :=
    .init rfl
  exact hinit.next (.call 0 true (bstr "m") 20 true) (fun _ => ⟨_, rfl, rfl⟩) rfl

/-- The provider defers the call of the plain handle. -/
def PlainObject.deferral : PlainObject.Action :=
  .call (.syncReply 0 { ok := true, value := sentinelOf (qstr "c") })

/-- The provider defers the call of the remote handle. -/
def RemoteObject.deferral : RemoteObject.Action := .reply 0 (.value (sentinelOf (qstr "c")))

theorem PlainObject.deferring_deferral :
    PlainObject.Deferring (qstr "c") (.sync 0) PlainObject.oneCall PlainObject.deferral ∧
      PlainObject.InTime (qstr "c") (.sync 0) PlainObject.oneCall PlainObject.deferral := by
  constructor
  · refine PlainObject.deferring_alone (fun _ => rfl) (fun n hn => ?_) rfl fun b hb hdiverts => ?_
    · simp [PlainObject.oneCall, hn]
    · cases hb
      exact hdiverts.2 ⟨rfl, rfl⟩
  · rintro b hb - (hinterrupts | ⟨n, -, hwake, -⟩)
    · cases hb
      exact hinterrupts
    · cases hb
      cases hwake

theorem RemoteObject.deferring_deferral :
    RemoteObject.Deferring (qstr "c") 0 RemoteObject.oneCall RemoteObject.deferral ∧
      RemoteObject.InTime (qstr "c") 0 RemoteObject.oneCall RemoteObject.deferral := by
  refine ⟨RemoteObject.deferring_alone (fun n hn => ?_) fun answer ha => ?_, fun _ => id⟩
  · simp [RemoteObject.oneCall, hn]
  · cases ha
    rfl

/-- Nothing else is on the remote handle when its call has been deferred. -/
theorem RemoteObject.alone_replied (n : ℕ) (hn : n ≠ 0) :
    Qt.setPc RemoteObject.oneCall.calls 0 (.finished (.value (sentinelOf (qstr "c")))) n = {} := by
  simp [RemoteObject.oneCall, Qt.setPc, hn]

end runs

/-- A call of either handle is answered with its completion. -/
theorem deferred_answered_alone :
    (∃ s, Async.Answered (qstr "c") (.bool true) (PlainObject.State.calls s) (.sync 0)) ∧
    ∃ s, RemoteObject.Given (qstr "c") (.bool true) 0 s := by
  obtain ⟨hplain, hremote⟩ := deferred_answered (bstr "o") (bstr "o")
  constructor
  · have hcondition : PlainObject.Condition (bstr "o") (qstr "c") (.sync 0) PlainObject.oneCall
        PlainObject.deferral := by
      refine ⟨trivial, fun b hb _ => ?_⟩
      cases hb
      exact ⟨fun _ => id, fun _ => id, fun a' ha => by cases ha⟩
    have hreplied : (PlainObject.untilDeadline (bstr "o") (PlainObject.Condition (bstr "o"))
        (qstr "c") (.sync 0)).Run PlainObject.oneCall [PlainObject.deferral] _ :=
      .single ⟨rfl, hcondition, PlainObject.deferring_deferral⟩
    have hspared : ∀ s, PlainObject.Condition (bstr "o") (qstr "c") (.sync 0) s
        (.callComplete [] (qstr "c") (.bool true)) := by
      refine fun s => ⟨trivial, fun b hb _ => ?_⟩
      cases hb
      refine ⟨fun _ => id, fun _ => id, fun a' ha hcrowds => ?_⟩
      cases ha
      exact hcrowds.1 rfl
    have hanswers := (hplain _ PlainObject.oneCall_reachable).answered
    obtain ⟨v, hv, hanswered, -⟩ := hanswers (qstr "c") (.sync 0) trivial rfl
      _ _ [] (.bool true) _ [] _ hreplied ⟨rfl, hspared _, PlainObject.deferring_callComplete
        (fun _ => rfl) (fun n hn => by simp [PlainObject.oneCall, Calls.setSync, hn]) rfl⟩ (.nil _)
    obtain rfl : v = .bool true := List.mem_singleton.mp hv
    exact ⟨_, hanswered⟩
  · have hreplied : (RemoteObject.untilDeadline (bstr "o") RemoteObject.Condition (qstr "c") 0).Run
        RemoteObject.oneCall [RemoteObject.deferral] _ :=
      .single ⟨rfl, ⟨trivial, fun _ => id⟩, RemoteObject.deferring_deferral⟩
    have hanswers := (hremote _ RemoteObject.oneCall_reachable).answered
    obtain ⟨v, hv, hgiven, -⟩ := hanswers (qstr "c") 0 trivial _ _ (.bool true)
      _ [] _ hreplied ⟨rfl, ⟨trivial, fun _ => id⟩,
        RemoteObject.deferring_alone RemoteObject.alone_replied fun _ ha => by cases ha⟩ (.nil _)
    obtain rfl : v = .bool true := List.mem_singleton.mp hv
    exact ⟨_, hgiven⟩

/-- A completion is not heard after `disconnectEvents`, and the call that waits for it is not
answered.  Nor is a call answered, on a handle that keeps its subscription, whose deadline comes
between its completion and its look at it. -/
theorem deferred_lost :
    (¬ ∀ s, (PlainObject.handle (bstr "o")).Reachable s →
      PlainObject.Answers (bstr "o") (fun _ _ _ _ => True) s) ∧
    (¬ ∀ s, (RemoteObject.handle (bstr "o")).Reachable s →
      RemoteObject.Answers (bstr "o") (fun _ _ _ _ => True) s) ∧
    (¬ ∀ s, ((PlainObject.handle (bstr "o")).restrict (PlainObject.Keeps (bstr "o"))).Reachable s →
      PlainObject.Answers (bstr "o") (fun _ _ => PlainObject.Keeps (bstr "o")) s) ∧
    ¬ ∀ s, ((RemoteObject.handle (bstr "o")).restrict RemoteObject.Keeps).Reachable s →
      RemoteObject.Answers (bstr "o") (fun _ _ => RemoteObject.Keeps) s := by
  refine ⟨?_, ?_, ?_, ?_⟩
  · intro hanswers
    have hcalled : (PlainObject.handle (bstr "o")).Reachable PlainObject.oneCall :=
      PlainObject.oneCall_reachable.of_restrict
    have hreplied : (PlainObject.untilDeadline (bstr "o") (fun _ _ _ _ => True)
        (qstr "c") (.sync 0)).Run PlainObject.oneCall [PlainObject.deferral] _ :=
      .single ⟨rfl, trivial, PlainObject.deferring_deferral⟩
    have hdisconnected := hreplied.next .disconnectEvents
      ⟨trivial, (fun b hb => by cases hb), fun b hb => by cases hb⟩ rfl
    have hwithdrawn := hdisconnected.next (.sendUnsubscribe 1)
      ⟨trivial, (fun b hb => by cases hb), fun b hb => by cases hb⟩ rfl
    obtain ⟨v, -, hanswered, -⟩ := (hanswers _ hcalled).answered (qstr "c") (.sync 0) trivial rfl
      _ _ [] (.bool true) _ [] _ hwithdrawn ⟨rfl, trivial, PlainObject.deferring_callComplete
        (fun _ => rfl) (fun n hn => by simp [PlainObject.oneCall, Calls.setSync, hn]) rfl⟩ (.nil _)
    rcases hanswered with (hwaits | hleaving | hreturned) | ⟨id, howner, -⟩
    · cases hwaits.staged
    · cases hleaving
    · cases hreturned
    · cases howner
  · intro hanswers
    have hcalled : (RemoteObject.handle (bstr "o")).Reachable RemoteObject.oneCall :=
      RemoteObject.oneCall_reachable.of_restrict
    have hreplied : (RemoteObject.untilDeadline (bstr "o") (fun _ _ _ _ => True) (qstr "c") 0).Run
        RemoteObject.oneCall [RemoteObject.deferral] _ :=
      .single ⟨rfl, trivial, RemoteObject.deferring_deferral⟩
    have hdisconnected := hreplied.next .disconnectEvents ⟨trivial,
      RemoteObject.deferring_alone RemoteObject.alone_replied (fun _ ha => by cases ha),
      fun _ => id⟩ rfl
    obtain ⟨v, -, hgiven, -⟩ := (hanswers _ hcalled).answered (qstr "c") 0 trivial _ _ (.bool true)
      _ [] _ hdisconnected ⟨rfl, trivial,
        RemoteObject.deferring_alone RemoteObject.alone_replied fun _ ha => by cases ha⟩ (.nil _)
    cases hgiven with
    | kept claims kept => cases kept
    | queued posted live => cases posted
    | resolved ended => cases ended
  · intro hanswers
    have halone : ∀ n, n ≠ 0 → (PlainObject.oneCall.calls.sync n).pc = .idle := by
      intro n hn
      simp [PlainObject.oneCall, hn]
    have hanswered := (hanswers _ PlainObject.oneCall_reachable).answered
    obtain ⟨v, hv, hanswered, -⟩ := hanswered (qstr "c") (.sync 0) trivial rfl
      _ _ [] (.bool true) _ [.call (.syncTimeout 0)] _ (.nil _)
      ⟨rfl, trivial, PlainObject.deferring_callComplete (fun _ => rfl) halone rfl⟩
      (.single ⟨rfl, trivial, PlainObject.deferring_alone (fun _ => rfl) halone rfl
        fun b hb => by cases hb; exact id⟩)
    obtain rfl : v = .bool true := List.mem_singleton.mp hv
    rcases hanswered with (hwaits | hleaving | hreturned) | ⟨id, howner, -⟩
    · exact hwaits.unhandled
    · cases hleaving
    · cases hreturned
    · cases howner
  · intro hanswers
    have hreplied : (RemoteObject.untilDeadline (bstr "o") (fun _ _ => RemoteObject.Keeps)
        (qstr "c") 0).Run RemoteObject.oneCall [RemoteObject.deferral] _ :=
      .single ⟨rfl, trivial, RemoteObject.deferring_deferral⟩
    have halone := RemoteObject.alone_replied
    have hanswered := (hanswers _ RemoteObject.oneCall_reachable).answered
    obtain ⟨v, hv, hgiven, -⟩ := hanswered (qstr "c") 0 trivial _ _ (.bool true)
      _ [.timeout 0] _ hreplied
      ⟨rfl, trivial, RemoteObject.deferring_alone halone fun _ ha => by cases ha⟩
      (.single ⟨rfl, trivial, RemoteObject.deferring_alone halone fun _ ha => by cases ha⟩)
    obtain rfl : v = .bool true := List.mem_singleton.mp hv
    cases hgiven with
    | kept claims kept => exact claims
    | queued posted live => cases posted
    | resolved ended => cases ended

end LogosProtocol
