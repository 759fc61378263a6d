import LogosProtocol.Lib.Reentrant
import LogosProtocol.Qt

/-!
# The registry of deferred subscriptions

`LogosPendingSubscriptions` keeps every subscription in one of three vectors: waiting for its
object, attached to the object's handle, or held back after a loss.  Operations move entries
between them, replace handles and report one edge for each transition of an object.

Callbacks are user code and may call back in, so an operation is a call that does its moves
and leaves a stack of instructions: an entry that a loop has taken out and not yet put back
stands only in them.  What the transport answers, the order in which a `QSet` is iterated and
the time an entry has waited are answers of the environment.

## Main definitions

* `Registry` — the vectors, the handles and what is kept for each object.
* `armAgainst`, `checkLiveness`, `beginAcquire` — the operations others are made of.
* `program` — the calls and instructions, as a program with callbacks.
-/

namespace LogosProtocol.PendingSubscriptions

/-- `LogosRestartPolicy`. -/
inductive RestartPolicy
  | automatic
  | manual
  deriving DecidableEq, Repr

/-- `LogosSubscriptionEvent`. -/
inductive SubscriptionEvent
  | armed
  | lost
  | held
  | abandoned
  deriving DecidableEq, Repr

/-- `LogosSubscriptionState`. -/
inductive SubscriptionState
  | pending
  | armed
  | held
  | unknown
  deriving DecidableEq, Repr

/-- One subscription, or readiness probe.  A callback is a name; an empty one is `none`. -/
structure Entry where
  id : ℕ
  objectName : QString
  eventName : QString
  callback : Option ℕ
  onArmed : Option ℕ
  everArmed : Bool := false
  /-- 0 = quiet, 1 = warned at 3 s, 2 = warned at 60 s. -/
  warnLevel : ℕ := 0
  readinessOnly : Bool := false
  deriving DecidableEq, Repr

/-- What `std::move` leaves: numbers and flags stay, strings and callbacks are empty. -/
def Entry.movedFrom (e : Entry) : Entry :=
  { e with objectName := [], eventName := [], callback := none, onArmed := none }

/-- What is kept for an object. -/
structure Target where
  restart : RestartPolicy := .automatic
  generation : ℕ := 0
  /-- A status callback is installed. -/
  onStatus : Bool := false
  deriving DecidableEq, Repr

/-- The retry timer; it does not exist before it is first needed. -/
structure Timer where
  created : Bool := false
  running : Bool := false
  intervalMs : ℕ := 250
  deriving DecidableEq, Repr

/-- What can be seen of a run. -/
inductive Event
  | added (id : ℕ)
  | cancelled (id : ℕ)
  | abandoned (id : ℕ)
  /-- A readiness probe was answered. -/
  | answered (id : ℕ)
  /-- `onEvent` on a handle. -/
  | attached (id : ℕ) (objectName : QString) (handle : ℕ)
  | onArmed (id : ℕ) (ok : Bool)
  | edge (objectName : QString) (event : SubscriptionEvent) (generation : ℕ) (reason : QString)
  | released (handle : ℕ)
  deriving DecidableEq, Repr

/-- What is left to do. -/
inductive Instr
  /-- User code is running. -/
  | callback
  /-- The loop of `armAgainst` has this entry next. -/
  | arm (handle : ℕ) (e : Entry)
  | pushArmed (e : Entry)
  /-- The loop of `abandon` has this entry next. -/
  | abandon (e : Entry)
  | report (objectName : QString) (event : SubscriptionEvent) (reason : QString)
  | ensureTimer
  | beginAcquire (objectName : QString)
  | checkLiveness
  /-- The loop of `checkLiveness` has this object next. -/
  | drop (objectName : QString)
  | chase (objectName : QString)
  /-- The loop of `tick` over the wanted objects. -/
  | chaseWanted
  | finishTick
  deriving DecidableEq, Repr

structure Registry where
  /-- `m_entries`: waiting to arm. -/
  entries : List Entry := []
  armed : List Entry := []
  held : List Entry := []
  acquiring : QString → Bool := fun _ => false
  targets : QString → Target := fun _ => {}
  handles : Dict QString ℕ := ∅
  timer : Timer := {}
  nextId : ℕ := 1
  /-- The transport: the next handle it makes, which handles are valid, and the deferred
  acquires it has accepted. -/
  nextHandle : ℕ := 0
  valid : ℕ → Bool := fun _ => true
  inFlight : List QString := []
  log : List Event := []

/-- What the environment answers. -/
structure Oracle where
  /-- `tryAcquireNow` has a handle. -/
  now : Bool := false
  /-- `requestObjectWhenAvailable` accepts. -/
  accepted : Bool := false
  /-- `requestObject(name, 0)` has a handle. -/
  found : Bool := false
  /-- The iteration orders of the sets a step goes over. -/
  order : List QString := []
  order' : List QString := []
  /-- How long each entry has waited, in milliseconds. -/
  elapsed : ℕ → ℕ := fun _ => 0

/-- The public operations, and the transport's side. -/
inductive Op
  | onEventWhenAvailable (objectName eventName : QString) (callback : ℕ) (onArmed : Option ℕ)
  | whenObjectAvailable (objectName : QString) (onReady : ℕ)
  | cancelEventSubscription (id : ℕ)
  | setSubscriptionStatusCallback (objectName : QString) (installed : Bool)
  | setSubscriptionRestartPolicy (objectName : QString) (policy : RestartPolicy)
  | rearmSubscriptions (objectName : QString)
  | reconnect
  | tick
  /-- A deferred acquire ends, with a handle or with null. -/
  | acquired (objectName : QString) (ok : Bool)
  /-- A handle stops or starts being valid. -/
  | setValid (handle : ℕ) (valid : Bool)
  deriving DecidableEq, Repr

namespace Registry

/-! ## Reading the registry -/

def liveHandle (r : Registry) (name : QString) : Option ℕ :=
  (r.handles.lookup name).filter fun h => r.valid h

def hasPendingFor (r : Registry) (name : QString) : Bool :=
  r.entries.any fun e => e.objectName = name

def hasArmedFor (r : Registry) (name : QString) : Bool :=
  r.armed.any fun e => e.objectName = name

def hasHeldFor (r : Registry) (name : QString) : Bool :=
  r.held.any fun e => e.objectName = name

def eventSubscriptionState (r : Registry) (id : ℕ) : SubscriptionState :=
  if r.entries.any fun e => e.id = id then .pending
  else if r.armed.any fun e => e.id = id then .armed
  else if r.held.any fun e => e.id = id then .held
  else .unknown

def manual (r : Registry) (name : QString) : Bool := (r.targets name).restart = .manual

def emit (r : Registry) (e : Event) : Registry := { r with log := r.log ++ [e] }

def setTarget (r : Registry) (name : QString) (t : Target) : Registry :=
  { r with targets := Function.update r.targets name t }

/-! ## The timer -/

def timerNeeded (r : Registry) : Bool := r.entries ≠ [] ∨ r.armed ≠ []

def startTimer (r : Registry) (ms : ℕ) : Registry :=
  { r with timer := { created := true, running := true, intervalMs := ms } }

def stopTimer (r : Registry) : Registry := { r with timer.running := false }

def ensureTimer (r : Registry) : Registry := if r.timerNeeded then r.startTimer 250 else r

def stopTimerIfIdle (r : Registry) : Registry := if r.timerNeeded then r else r.stopTimer

def kLivenessIntervalMs : ℕ := 1000

def reportStillPending (r : Registry) (elapsed : ℕ → ℕ) : Registry :=
  { r with entries := r.entries.map fun e =>
      if e.warnLevel = 0 ∧ 3000 ≤ elapsed e.id then { e with warnLevel := 1 }
      else if e.warnLevel = 1 ∧ 60000 ≤ elapsed e.id then { e with warnLevel := 2 }
      else e }

def rescheduleOrStop (r : Registry) : Registry :=
  if ¬ r.timer.created then r
  else if ¬ r.timerNeeded then r.stopTimer
  else if r.entries = [] then r.startTimer kLivenessIntervalMs
  else if r.entries.any fun e => ¬ r.acquiring e.objectName ∨ e.warnLevel < 2 then
    if r.timer.intervalMs < 5000 then r.startTimer (min 5000 (r.timer.intervalMs * 2)) else r
  else if r.armed ≠ [] then r.startTimer kLivenessIntervalMs
  else r.stopTimer

section timer
variable (r : Registry)

/-! The timer functions change the timer and nothing else. -/

theorem ensureTimer_eq : r.ensureTimer = { r with timer := r.ensureTimer.timer } := by
  unfold ensureTimer
  split <;> rfl

theorem stopTimerIfIdle_eq : r.stopTimerIfIdle = { r with timer := r.stopTimerIfIdle.timer } := by
  unfold stopTimerIfIdle
  split <;> rfl

theorem rescheduleOrStop_eq :
    r.rescheduleOrStop = { r with timer := r.rescheduleOrStop.timer } := by
  unfold rescheduleOrStop
  repeat' split
  all_goals rfl

end timer

/-! ## Moves between the vectors -/

/-- Take the waiting entries of an object out. -/
def takeMatching (r : Registry) (name : QString) : List Entry × Registry :=
  (r.entries.filter fun e => e.objectName = name,
    { r with entries := r.entries.filter fun e => e.objectName ≠ name }.stopTimerIfIdle)

theorem takeMatching_eq (r : Registry) (name : QString) : ∃ timer, r.takeMatching name =
    (r.entries.filter fun e => e.objectName = name,
      { r with entries := r.entries.filter fun e => e.objectName ≠ name, timer := timer }) :=
  ⟨_, Prod.ext rfl (stopTimerIfIdle_eq _)⟩

/-- Put the armed entries of an object back among those that wait. -/
def reviveArmed (r : Registry) (name : QString) : Registry :=
  { r with
    entries := r.entries ++ r.armed.filter fun e => e.objectName = name
    armed := r.armed.filter fun e => e.objectName ≠ name }

/-- Park the armed entries of an object whose policy is Manual. -/
def holdArmed (r : Registry) (name : QString) : Registry :=
  if r.manual name then
    { r with
      held := r.held ++ r.armed.filter fun e => e.objectName = name
      armed := r.armed.filter fun e => e.objectName ≠ name }
  else r

/-! ## Acquiring and arming -/

/-- A handle arrived: store it, or keep a valid one that is stored already. -/
def storeHandle (r : Registry) (name : QString) (obj : ℕ) : Registry × ℕ :=
  match r.handles.lookup name with
  | none => ({ r with handles := r.handles.insert name obj }, obj)
  | some h =>
    if h = obj then (r, h)
    else if r.valid h then (r.emit (.released obj), h)
    else
      -- What is armed here is attached to the handle that goes.
      let r := (r.reviveArmed name).emit (.released h)
      ({ r with handles := r.handles.insert name obj }, obj)

/-- A handle that arrives is stored, is the one stored, is given back, or replaces a dead one. -/
theorem storeHandle_cases (r : Registry) (name : QString) (obj : ℕ) :
    (r.handles.lookup name = none ∧
      r.storeHandle name obj = ({ r with handles := r.handles.insert name obj }, obj)) ∨
    (r.handles.lookup name = some obj ∧ r.storeHandle name obj = (r, obj)) ∨
    (∃ h, r.handles.lookup name = some h ∧ h ≠ obj ∧ r.valid h = true ∧
      r.storeHandle name obj = (r.emit (.released obj), h)) ∨
    ∃ h, r.handles.lookup name = some h ∧ h ≠ obj ∧ r.valid h = false ∧
      r.storeHandle name obj = ({ (r.reviveArmed name).emit (.released h) with
        handles := r.handles.insert name obj }, obj) := by
  cases hlookup : r.handles.lookup name with
  | none => exact .inl ⟨rfl, by simp [storeHandle, hlookup]⟩
  | some h =>
    refine .inr ?_
    by_cases hsame : h = obj
    · subst hsame
      exact .inl ⟨rfl, by simp [storeHandle, hlookup]⟩
    · cases hvalid : r.valid h with
      | true => exact .inr (.inl ⟨h, rfl, hsame, hvalid, by simp [storeHandle, hlookup, hsame, hvalid]⟩)
      | false =>
        refine .inr (.inr ⟨h, rfl, hsame, hvalid, ?_⟩)
        simp [storeHandle, hlookup, hsame, hvalid, reviveArmed, emit]

/-- Attach every waiting subscription of an object. -/
def armAgainst (r : Registry) (name : QString) (obj : ℕ) : Registry × List Instr :=
  let (r, handle) := r.storeHandle name obj
  let (matched, r) := r.takeMatching name
  let anyReal := matched.any fun e => ¬ e.readinessOnly
  let target := r.targets name
  let r := if anyReal then r.setTarget name { target with generation := target.generation + 1 }
    else r
  (r, matched.map (.arm handle) ++
    (if anyReal then [.report name .armed []] else []) ++ [.ensureTimer])

/-- The targets once these entries of an object are matched. -/
def bumped (r : Registry) (name : QString) (matched : List Entry) : QString → Target :=
  if matched.any fun e => ¬ e.readinessOnly then Function.update r.targets name
    { r.targets name with generation := (r.targets name).generation + 1 }
  else r.targets

/-- Only the generation is touched. -/
theorem bumped_apply (r : Registry) (name : QString) (matched : List Entry) (other : QString) :
    (r.bumped name matched other).restart = (r.targets other).restart ∧
      (r.bumped name matched other).onStatus = (r.targets other).onStatus := by
  unfold bumped
  split_ifs
  · by_cases hother : other = name
    · subst hother
      simp
    · simp [hother]
  · exact ⟨rfl, rfl⟩

/-- What is left to do with them. -/
def arming (name : QString) (handle : ℕ) (matched : List Entry) : List Instr :=
  matched.map (.arm handle) ++
    (if matched.any fun e => ¬ e.readinessOnly then [.report name .armed []] else []) ++
    [.ensureTimer]

/-- After the handle is stored: entries, targets and timer change. -/
theorem armAgainst_eq (r : Registry) (name : QString) (obj : ℕ) :
    ∃ timer, r.armAgainst name obj =
      ({ (r.storeHandle name obj).1 with
        entries := (r.storeHandle name obj).1.entries.filter fun e => e.objectName ≠ name
        targets := (r.storeHandle name obj).1.bumped name
          ((r.storeHandle name obj).1.entries.filter fun e => e.objectName = name)
        timer := timer },
      arming name (r.storeHandle name obj).2
        ((r.storeHandle name obj).1.entries.filter fun e => e.objectName = name)) := by
  obtain ⟨timer, htake⟩ := (r.storeHandle name obj).1.takeMatching_eq name
  refine ⟨timer, ?_⟩
  simp only [armAgainst, htake, arming, bumped]
  split_ifs <;> rfl

/-- The transport proved the object unreachable. -/
def abandon (r : Registry) (name : QString) : Registry × List Instr :=
  let (matched, r) := r.takeMatching name
  (r, matched.map .abandon ++
    if matched = [] then [] else [.report name .abandoned (qstr "object_unreachable")])

/-- A handle the transport has just made. -/
def newHandle (r : Registry) : ℕ × Registry :=
  (r.nextHandle, { r with nextHandle := r.nextHandle + 1 })

/-- What the transport said when asked to acquire an object. -/
inductive AcquireKind
  | deferred
  | declined
  | unsupported
  deriving DecidableEq, Repr

/-- `async` says whether the transport can defer an acquire. -/
def startAcquire (async : Bool) (r : Registry) (name : QString) (o : Oracle) :
    AcquireKind × Registry :=
  if ¬ async then (.unsupported, r)
  else if r.acquiring name then (.deferred, r)
  else if ¬ o.accepted then (.declined, r)
  else (.deferred, { r with
    acquiring := Function.update r.acquiring name true
    inFlight := name :: r.inFlight })

/-- Acquire without blocking; says whether a handle was there. -/
def beginAcquire (async : Bool) (r : Registry) (name : QString) (o : Oracle) :
    (Registry × List Instr) × Bool :=
  if async ∧ ¬ r.acquiring name ∧ o.now then
    let (obj, r) := r.newHandle
    (r.armAgainst name obj, true)
  else
    match startAcquire async r name o with
    | (.unsupported, r) =>
      if o.found then
        let (obj, r) := r.newHandle
        (r.armAgainst name obj, true)
      else ((r, []), false)
    | (_, r) => ((r, []), false)

/-- The transport has a handle for the object at once. -/
def offers (async : Bool) (r : Registry) (name : QString) (o : Oracle) : Prop :=
  async ∧ ¬ r.acquiring name ∧ o.now ∨ ¬ async ∧ o.found

instance (async : Bool) (r : Registry) (name : QString) (o : Oracle) :
    Decidable (r.offers async name o) :=
  inferInstanceAs (Decidable (_ ∨ _))

/-- An acquire arms against a new handle, or notes at most that one is in flight. -/
theorem beginAcquire_cases (async : Bool) (r : Registry) (name : QString) (o : Oracle) :
    (r.offers async name o ∧
      r.beginAcquire async name o = (r.newHandle.2.armAgainst name r.newHandle.1, true)) ∨
    (¬ r.offers async name o ∧ ∃ acquiring inFlight, r.beginAcquire async name o =
        (({ r with acquiring := acquiring, inFlight := inFlight }, []), false)) := by
  simp only [beginAcquire, startAcquire, offers]
  cases async with
  | true =>
    cases r.acquiring name with
    | true => exact .inr ⟨by simp, _, _, rfl⟩
    | false =>
      cases o.now with
      | true => exact .inl ⟨by simp, rfl⟩
      | false => cases o.accepted <;> exact .inr ⟨by simp, _, _, rfl⟩
  | false =>
    cases o.found with
    | true => exact .inl ⟨by simp, rfl⟩
    | false => exact .inr ⟨by simp, _, _, rfl⟩

/-! ## Losses -/

/-- The objects whose stored handle is no longer valid. -/
def deadObjects (r : Registry) : List QString :=
  (r.handles.entries.filter fun e => ¬ r.valid e.2).map Sigma.fst

/-- Take a stored handle and release it. -/
def releaseHandle (r : Registry) (name : QString) : Registry :=
  match r.handles.lookup name with
  | some h => { r with handles := r.handles.erase name }.emit (.released h)
  | none => r

/-- Drop a dead handle and move what was attached to it. -/
def dropHandle (r : Registry) (name : QString) : Registry × List Instr :=
  let held := r.manual name
  let wasArmed := r.hasArmedFor name
  let r := r.releaseHandle name
  let r := { r with acquiring := Function.update r.acquiring name false }
  -- The Manual ones go first, so that the rest is Automatic.
  let r := (r.holdArmed name).reviveArmed name
  let event : SubscriptionEvent := if held then .held else .lost
  (r, (if wasArmed then [.report name event (qstr "provider_unavailable")] else []) ++
    [.chase name])

theorem releaseHandle_eq (r : Registry) (name : QString) : r.releaseHandle name = { r with
    handles := r.handles.erase name
    log := r.log ++ (r.handles.lookup name).toList.map .released } := by
  unfold releaseHandle
  cases hlookup : r.handles.lookup name with
  | none =>
    have herase : r.handles.erase name = r.handles :=
      AList.ext (List.kerase_of_notMem_keys (AList.lookup_eq_none.mp hlookup))
    simp [herase]
  | some h => rfl

/-- The armed entries of an object go to the held ones or to those that wait. -/
theorem holdArmed_reviveArmed (r : Registry) (name : QString) :
    (r.holdArmed name).reviveArmed name = { r with
      entries := r.entries ++ if r.manual name then [] else
        r.armed.filter fun e => e.objectName = name
      held := r.held ++ if r.manual name then r.armed.filter fun e => e.objectName = name else []
      armed := r.armed.filter fun e => e.objectName ≠ name } := by
  unfold holdArmed
  split_ifs
  · simp [reviveArmed, List.filter_filter]
  · simp [reviveArmed]

theorem dropHandle_eq (r : Registry) (name : QString) : r.dropHandle name = ({ r with
      handles := r.handles.erase name
      acquiring := Function.update r.acquiring name false
      entries := r.entries ++ if r.manual name then [] else
        r.armed.filter fun e => e.objectName = name
      held := r.held ++ if r.manual name then r.armed.filter fun e => e.objectName = name else []
      armed := r.armed.filter fun e => e.objectName ≠ name
      log := r.log ++ (r.handles.lookup name).toList.map .released },
    (if r.hasArmedFor name then
      [.report name (if r.manual name then .held else .lost) (qstr "provider_unavailable")]
      else []) ++ [.chase name]) := by
  simp only [dropHandle, releaseHandle_eq, holdArmed_reviveArmed]
  rfl

/-- The objects that `tick` asks the transport for. -/
def wantedObjects (r : Registry) : List QString :=
  ((r.entries.filter fun e => ¬ r.acquiring e.objectName).map Entry.objectName).dedup

/-! ## The operations -/

/-- A new entry waits, under the next id. -/
def push (r : Registry) (e : Entry) : Registry :=
  { r with
    nextId := r.nextId + 1
    entries := r.entries ++ [{ e with id := r.nextId }] }.emit (.added r.nextId)

/-- `add`; the id it returns is the old `nextId`. -/
def add (async : Bool) (r : Registry) (e : Entry) (o : Oracle) : Registry × List Instr :=
  let r := r.push e
  match r.liveHandle e.objectName with
  | some obj => r.armAgainst e.objectName obj
  | none =>
    match r.beginAcquire async e.objectName o with
    | (r, true) => r
    | (r, false) => (r.1.ensureTimer, r.2)

/-- A new entry is armed at once, against a live or a new handle, or it waits. -/
theorem add_cases (async : Bool) (r : Registry) (e : Entry) (o : Oracle) :
    (∃ obj, (r.push e).liveHandle e.objectName = some obj ∧
      r.add async e o = (r.push e).armAgainst e.objectName obj) ∨
    ((r.push e).liveHandle e.objectName = none ∧ (r.push e).offers async e.objectName o ∧
      r.add async e o =
        (r.push e).newHandle.2.armAgainst e.objectName (r.push e).newHandle.1) ∨
    ((r.push e).liveHandle e.objectName = none ∧ ¬ (r.push e).offers async e.objectName o ∧
      ∃ acquiring inFlight timer, r.add async e o = ({ r.push e with
        acquiring := acquiring, inFlight := inFlight, timer := timer }, [])) := by
  simp only [add]
  cases hlive : (r.push e).liveHandle e.objectName with
  | some obj => exact .inl ⟨obj, rfl, rfl⟩
  | none =>
    refine .inr ?_
    rcases (r.push e).beginAcquire_cases async e.objectName o with
      ⟨hoffer, h⟩ | ⟨hoffer, acquiring, inFlight, h⟩
    · exact .inl ⟨rfl, hoffer, by simp only [h]⟩
    · let waiting := { r.push e with acquiring := acquiring, inFlight := inFlight }
      have htimer := ensureTimer_eq waiting
      exact .inr ⟨rfl, hoffer, acquiring, inFlight, waiting.ensureTimer.timer, by simp only [h]; rw [htimer]⟩

/-- What a refused subscription or probe is answered. -/
def refuse (r : Registry) (onArmed : Option ℕ) : Registry × List Instr :=
  (r, if onArmed.isSome then [.callback] else [])

def cancel (r : Registry) (id : ℕ) : Registry × Bool :=
  if r.entries.any fun e => e.id = id then
    ({ r with entries := r.entries.eraseP fun e => e.id = id }.stopTimerIfIdle.emit
      (.cancelled id), true)
  else if r.armed.any fun e => e.id = id then
    ({ r with armed := r.armed.eraseP fun e => e.id = id }.emit (.cancelled id), true)
  else if r.held.any fun e => e.id = id then
    ({ r with held := r.held.eraseP fun e => e.id = id }.emit (.cancelled id), true)
  else (r, false)

/-- An edge, if a status callback is installed. -/
def report (r : Registry) (name : QString) (event : SubscriptionEvent) (reason : QString) :
    Registry × List Instr :=
  if (r.targets name).onStatus then
    (r.emit (.edge name event (r.targets name).generation reason), [.callback])
  else (r, [])

/-- Install a status callback; it is told where the object is. -/
def setStatusCallback (r : Registry) (name : QString) (installed : Bool) :
    Registry × List Instr :=
  let r := r.setTarget name { r.targets name with onStatus := installed }
  if r.hasArmedFor name then r.report name .armed []
  else if r.hasHeldFor name then r.report name .held (qstr "provider_unavailable")
  else (r, [])

def setRestartPolicy (r : Registry) (name : QString) (policy : RestartPolicy) : Registry :=
  r.setTarget name { r.targets name with restart := policy }

/-- The loop of `rearm` over the held entries: those of other objects are moved into a local
vector, which takes the place of the held ones only if something matched. -/
def reviveHeld (r : Registry) (name : QString) : Registry × Bool :=
  let matching := r.held.filter fun e => e.objectName = name
  if matching = [] then ({ r with held := r.held.map Entry.movedFrom }, false)
  else
    ({ r with
      entries := r.entries ++ matching.map fun e => { e with warnLevel := 0 }
      held := r.held.filter fun e => e.objectName ≠ name }, true)

def rearm (async : Bool) (r : Registry) (name : QString) (o : Oracle) :
    (Registry × List Instr) × Bool :=
  match r.reviveHeld name with
  | (r, false) => ((r, []), false)
  | (r, true) =>
    let (r, k) := match r.liveHandle name with
      | some obj => r.armAgainst name obj
      | none => (r.beginAcquire async name o).1
    ((r, k ++ [.ensureTimer]), true)

/-- The moves of `reconnected`, and the objects held and chased by it. -/
def reviveAll (r : Registry) : Registry × List QString × List QString :=
  let held := r.armed.filter fun e => r.manual e.objectName
  let revived := r.armed.filter fun e => ¬ r.manual e.objectName
  ({ r with
    handles := ∅
    acquiring := fun _ => false
    armed := []
    held := r.held ++ held
    entries := r.entries ++ revived.map fun e => { e with warnLevel := 0 }
    log := r.log ++ r.handles.entries.map fun e => .released e.2 },
    (held.map Entry.objectName).dedup, (revived.map Entry.objectName).dedup)

/-- The transport cancels its deferred acquires, and the registry starts over. -/
def reconnected (r : Registry) (o : Oracle) : Option (Registry × List Instr) :=
  let (r, holdReported, chase) := { r with inFlight := [] }.reviveAll
  if o.order.Perm holdReported ∧ o.order'.Perm chase then
    some (r, o.order.map (.report · .held (qstr "connection_reset")) ++
      o.order'.map .beginAcquire ++ [.ensureTimer])
  else none

/-- The callback of a deferred acquire. -/
def acquired (r : Registry) (name : QString) (ok : Bool) : Registry × List Instr :=
  let r := { r with
    inFlight := r.inFlight.erase name
    acquiring := Function.update r.acquiring name false }
  if ok then
    let (obj, r) := r.newHandle
    r.armAgainst name obj
  else r.abandon name

end Registry

/-! ## The program -/

/-- Run one instruction. -/
def exec (async : Bool) (r : Registry) (i : Instr) (o : Oracle) :
    Option (Registry × List Instr) :=
  match i with
  | .callback => some (r, [])
  | .arm handle e =>
    if e.readinessOnly then
      -- Answered once and forgotten.
      let r := r.emit (.answered e.id)
      if e.onArmed.isSome then some (r.emit (.onArmed e.id true), [.callback]) else some (r, [])
    else
      let r := r.emit (.attached e.id e.objectName handle)
      let e := { e with everArmed := true }
      if e.onArmed.isSome then
        some (r.emit (.onArmed e.id true), [.callback, .pushArmed e])
      else some (r, [.pushArmed e])
  | .pushArmed e => some ({ r with armed := r.armed ++ [e] }, [])
  | .abandon e =>
    let r := r.emit (.abandoned e.id)
    if e.onArmed.isSome then some (r.emit (.onArmed e.id false), [.callback]) else some (r, [])
  | .report name event reason => some (r.report name event reason)
  | .ensureTimer => some (r.ensureTimer, [])
  | .beginAcquire name => some (r.beginAcquire async name o).1
  | .checkLiveness =>
    if r.armed = [] ∨ r.deadObjects = [] then some (r, [])
    else if o.order.Perm r.deadObjects then
      some (r, o.order.map .drop ++ [.ensureTimer])
    else none
  | .drop name => some (r.dropHandle name)
  | .chase name =>
    if r.hasPendingFor name then some (r.beginAcquire async name o).1 else some (r, [])
  | .chaseWanted =>
    if o.order.Perm r.wantedObjects then some (r, o.order.map .beginAcquire) else none
  | .finishTick => some ((r.reportStillPending o.elapsed).rescheduleOrStop, [])

/-- Accept a call. -/
def call (async : Bool) (r : Registry) (op : Op) (o : Oracle) :
    Option (Registry × List Instr) :=
  match op with
  | .onEventWhenAvailable objectName eventName callback onArmed =>
    if objectName = [] then some (r.refuse onArmed)
    else some (r.add async
      { id := 0, objectName, eventName, callback := some callback, onArmed } o)
  | .whenObjectAvailable objectName onReady =>
    if objectName = [] then some (r.refuse (some onReady))
    else some (r.add async
      { id := 0, objectName, eventName := [], callback := none, onArmed := some onReady,
        readinessOnly := true } o)
  | .cancelEventSubscription id => some ((r.cancel id).1, [])
  | .setSubscriptionStatusCallback objectName installed =>
    if objectName = [] then some (r, []) else some (r.setStatusCallback objectName installed)
  | .setSubscriptionRestartPolicy objectName policy =>
    if objectName = [] then some (r, []) else some (r.setRestartPolicy objectName policy, [])
  | .rearmSubscriptions objectName =>
    if objectName = [] then some (r, []) else some (r.rearm async objectName o).1
  | .reconnect => r.reconnected o
  | .tick => some (r, [.checkLiveness, .chaseWanted, .finishTick])
  | .acquired objectName ok =>
    if objectName ∈ r.inFlight then some (r.acquired objectName ok) else none
  | .setValid handle valid => some ({ r with valid := Function.update r.valid handle valid }, [])

/-- The registry as a program with callbacks. -/
def program (async : Bool) : Program Registry Instr Op Oracle where
  init := {}
  exec := exec async
  call := call async
  isCallback i := i = .callback

end LogosProtocol.PendingSubscriptions
