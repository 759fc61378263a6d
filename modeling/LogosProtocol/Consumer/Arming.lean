import LogosProtocol.Consumer.Partition

/-!
# The steps that arm

Five operations end in `armAgainst`: a new entry, a rearm, an acquire that begins or is chased,
and a deferred acquire that completes.  `arming` says, of a configuration and an action, which
call of `armAgainst` the action makes.  A side condition on runs can so be put on the registry
as it is when the loop is entered.

## Main definitions

* `Arming` — the arguments of a call of `armAgainst`.
* `arming` — the call that an action makes.
-/

namespace LogosProtocol.PendingSubscriptions

/-- The arguments of `armAgainst`. -/
structure Arming where
  registry : Registry
  objectName : QString
  obj : ℕ

def Arming.run (a : Arming) : Registry × List Instr := a.registry.armAgainst a.objectName a.obj

namespace Registry

/-- An acquire arms against a new handle. -/
def acquireArming (async : Bool) (r : Registry) (name : QString) (o : Oracle) : Option Arming :=
  if r.offers async name o then some ⟨r.newHandle.2, name, r.newHandle.1⟩ else none

/-- The live handle comes first. -/
def liveOrAcquire (async : Bool) (r : Registry) (name : QString) (o : Oracle) : Option Arming :=
  match r.liveHandle name with
  | some obj => some ⟨r, name, obj⟩
  | none => r.acquireArming async name o

def addArming (async : Bool) (r : Registry) (e : Entry) (o : Oracle) : Option Arming :=
  (r.push e).liveOrAcquire async e.objectName o

def rearmArming (async : Bool) (r : Registry) (name : QString) (o : Oracle) : Option Arming :=
  if (r.reviveHeld name).2 then (r.reviveHeld name).1.liveOrAcquire async name o else none

def acquiredArming (r : Registry) (name : QString) : Arming :=
  let r := { r with
    inFlight := r.inFlight.erase name
    acquiring := Function.update r.acquiring name false }
  ⟨r.newHandle.2, name, r.newHandle.1⟩

/-- The handle that is stored for the object is dead. -/
def Dead (r : Registry) (name : QString) : Prop :=
  ∃ handle, r.handles.lookup name = some handle ∧ r.valid handle = false

end Registry

/-- The call of `armAgainst` that an instruction makes. -/
def Instr.arming (async : Bool) (r : Registry) (o : Oracle) : Instr → Option Arming
  | .beginAcquire name => r.acquireArming async name o
  | .chase name => if r.hasPendingFor name then r.acquireArming async name o else none
  | _ => none

/-- The call of `armAgainst` that an operation makes. -/
def Op.arming (async : Bool) (r : Registry) (o : Oracle) : Op → Option Arming
  | .onEventWhenAvailable objectName eventName callback onArmed =>
    if objectName = [] then none else r.addArming async
      { id := 0, objectName, eventName, callback := some callback, onArmed } o
  | .whenObjectAvailable objectName onReady =>
    if objectName = [] then none else r.addArming async
      { id := 0, objectName, eventName := [], callback := none, onArmed := some onReady,
        readinessOnly := true } o
  | .rearmSubscriptions objectName =>
    if objectName = [] then none else r.rearmArming async objectName o
  | .acquired objectName ok => if ok then some (r.acquiredArming objectName) else none
  | _ => none

/-- The call of `armAgainst` that an action makes. -/
def arming (async : Bool) (c : Program.Config Registry Instr) :
    Program.Action Op Oracle → Option Arming
  | .call op o => op.arming async c.data o
  | .step o => c.stack.head?.bind (·.arming async c.data o)

section cases
variable {async : Bool} {r : Registry} {o : Oracle}

/-- An acquire arms, or it leaves the entries alone. -/
theorem beginAcquire_arming (async : Bool) (r : Registry) (name : QString) (o : Oracle) :
    (∃ a, r.acquireArming async name o = some a ∧ a = ⟨r.newHandle.2, name, r.newHandle.1⟩ ∧
      r.beginAcquire async name o = (a.run, true)) ∨
    (r.acquireArming async name o = none ∧ ∃ acquiring inFlight, r.beginAcquire async name o =
      (({ r with acquiring := acquiring, inFlight := inFlight }, []), false)) := by
  rcases r.beginAcquire_cases async name o with ⟨hoffer, h⟩ | ⟨hoffer, h⟩
  · exact .inl ⟨_, if_pos hoffer, rfl, h⟩
  · exact .inr ⟨if_neg hoffer, h⟩

/-- A live handle arms at once. -/
theorem liveOrAcquire_live {name : QString} {obj : ℕ} (h : r.liveHandle name = some obj) :
    r.liveOrAcquire async name o = some ⟨r, name, obj⟩ := by
  simp [Registry.liveOrAcquire, h]

theorem liveOrAcquire_none {name : QString} (h : r.liveHandle name = none) :
    r.liveOrAcquire async name o = r.acquireArming async name o := by
  simp [Registry.liveOrAcquire, h]

/-- The handle is the live one, or it is new. -/
theorem liveOrAcquire_cases {name : QString} {a : Arming}
    (h : r.liveOrAcquire async name o = some a) :
    (∃ obj, r.liveHandle name = some obj ∧ a = ⟨r, name, obj⟩) ∨
      a = ⟨r.newHandle.2, name, r.newHandle.1⟩ := by
  cases hlive : r.liveHandle name with
  | some obj =>
    rw [liveOrAcquire_live hlive] at h
    exact .inl ⟨obj, rfl, (Option.some.inj h).symm⟩
  | none =>
    rw [liveOrAcquire_none hlive] at h
    exact .inr (Option.some.inj (Option.ite_none_right_eq_some.mp h).2 ▸ rfl)

/-- A new entry arms, or it waits. -/
theorem add_arming (async : Bool) (r : Registry) (e : Entry) (o : Oracle) :
    (∃ a, r.addArming async e o = some a ∧ r.add async e o = a.run) ∨
    (r.addArming async e o = none ∧ ∃ acquiring inFlight timer, r.add async e o =
      ({ r.push e with acquiring := acquiring, inFlight := inFlight, timer := timer }, [])) := by
  rcases r.add_cases async e o with
    ⟨obj, hlive, h⟩ | ⟨hlive, hoffer, h⟩ | ⟨hlive, hoffer, acquiring, inFlight, timer, h⟩
  · exact .inl ⟨_, liveOrAcquire_live hlive, h⟩
  · exact .inl ⟨_, (liveOrAcquire_none hlive).trans (if_pos hoffer), h⟩
  · exact .inr ⟨(liveOrAcquire_none hlive).trans (if_neg hoffer), acquiring, inFlight, timer, h⟩

/-- A rearm finds nothing, or it arms, or its entries wait. -/
theorem rearm_arming (async : Bool) (r : Registry) (name : QString) (o : Oracle) :
    ((r.reviveHeld name).2 = false ∧ r.rearmArming async name o = none ∧
      r.rearm async name o = (((r.reviveHeld name).1, []), false)) ∨
    (∃ a, r.rearmArming async name o = some a ∧
      (r.rearm async name o).1 = (a.run.1, a.run.2 ++ [.ensureTimer])) ∨
    (r.rearmArming async name o = none ∧ ∃ acquiring inFlight, (r.rearm async name o).1 =
      ({ (r.reviveHeld name).1 with acquiring := acquiring, inFlight := inFlight },
        [.ensureTimer])) := by
  simp only [Registry.rearm, Registry.rearmArming]
  generalize r.reviveHeld name = revived
  obtain ⟨r₁, found⟩ := revived
  cases found with
  | false => exact .inl ⟨rfl, rfl, rfl⟩
  | true =>
    refine .inr ?_
    dsimp only
    cases hlive : r₁.liveHandle name with
    | some obj => exact .inl ⟨_, liveOrAcquire_live hlive, rfl⟩
    | none =>
      rcases beginAcquire_arming async r₁ name o with ⟨a, ha, -, h⟩ | ⟨hnone, acquiring, inFlight, h⟩
      · exact .inl ⟨a, (liveOrAcquire_none hlive).trans ha, by simp only [h]⟩
      · exact .inr ⟨(liveOrAcquire_none hlive).trans hnone, acquiring, inFlight, by simp only [h]; rfl⟩

end cases

/-! ## What is logged -/

/-- Only the loop of `armAgainst` attaches. -/
theorem exec_attaches {async : Bool} {r : Registry} {i : Instr} {o : Oracle}
    {r' : Registry × List Instr} (hexec : exec async r i o = some r') :
    ∃ es, r'.1.log = r.log ++ es ∧ ∀ n name handle, .attached n name handle ∈ es →
      ∃ e, i = .arm handle e ∧ e.id = n ∧ e.objectName = name ∧ e.readinessOnly = false := by
  cases hi : i.entry with
  | none =>
    obtain ⟨es, hlog, hquiet⟩ := (exec_moves hi hexec).log
    refine ⟨es, hlog, fun n name handle hin => ?_⟩
    cases hquiet _ hin
  | some e =>
    cases i with
    | arm handle e' =>
      cases hprobe : e'.readinessOnly with
      | true =>
        rw [exec_arm_probe r handle o hprobe] at hexec
        cases hexec
        refine ⟨_, rfl, fun n name handle' hin => ?_⟩
        rcases List.mem_cons.mp hin with hin | hin
        · cases hin
        · cases eq_of_mem_firing hin
      | false =>
        rw [exec_arm_real r handle o hprobe] at hexec
        cases hexec
        refine ⟨_, rfl, fun n name handle' hin => ?_⟩
        rcases List.mem_cons.mp hin with hin | hin
        · cases hin
          exact ⟨e', rfl, rfl, rfl, hprobe⟩
        · cases eq_of_mem_firing hin
    | pushArmed e' =>
      cases hexec
      exact ⟨[], (List.append_nil _).symm, by simp⟩
    | abandon e' =>
      rw [exec_abandon] at hexec
      cases hexec
      refine ⟨_, rfl, fun n name handle' hin => ?_⟩
      rcases List.mem_cons.mp hin with hin | hin
      · cases hin
      · cases eq_of_mem_firing hin
    | _ => cases hi

/-- No call attaches. -/
theorem call_attaches {async : Bool} {r : Registry} {op : Op} {o : Oracle}
    {r' : Registry × List Instr} (hcall : call async r op o = some r') :
    ∃ es, r'.1.log = r.log ++ es ∧ ∀ n name handle, .attached n name handle ∉ es := by
  rcases call_cases hcall with hmoves | ⟨e, -, rfl⟩ | ⟨m, -, rfl⟩
  · obtain ⟨es, hlog, hquiet⟩ := hmoves.log
    refine ⟨es, hlog, fun n name handle hin => ?_⟩
    cases hquiet _ hin
  · obtain ⟨es, hlog, hquiet⟩ := (moves_add async r e o).log
    refine ⟨.added r.nextId :: es, ?_, fun n name handle hin => ?_⟩
    · rw [hlog]
      simp [Registry.push, Registry.emit]
    · rcases List.mem_cons.mp hin with hin | hin
      · cases hin
      · cases hquiet _ hin
  · rcases cancel_cases r [] m with ⟨b, -, hlog, -⟩ | hnone
    · exact ⟨_, hlog, by simp⟩
    · rw [hnone]
      exact ⟨[], (List.append_nil _).symm, by simp⟩

end LogosProtocol.PendingSubscriptions
