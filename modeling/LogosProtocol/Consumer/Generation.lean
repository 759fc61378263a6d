import LogosProtocol.Consumer.Arming
import LogosProtocol.Lib.Establishment

/-!
# Generations and edges

Seen from one object, the registry is a provider that is established and lost.  A step of the
registry is a step of the provider, unless it subscribes again on a handle that is used, loses
armed subscriptions without an edge, or does one of these things from inside a callback of an
arming or of an edge that is not finished.

## Main definitions

* `view` — the registry as the provider of one object.
* `Regular` — the side condition on steps.
* `Refines` — a step of the registry is a step of the provider.
-/

namespace LogosProtocol.PendingSubscriptions

open Establishment (Edge View Step Inv Tracked lossesTold)

/-! ## The view of one object -/

def SubscriptionEvent.edge : SubscriptionEvent → Edge
  | .armed => .established
  | .lost | .held => .lost
  | .abandoned => .abandoned

/-- The instruction will attach a subscription to the object. -/
def Instr.Serves (x : QString) (handle : ℕ) : Instr → Prop
  | .arm h e => h = handle ∧ e.objectName = x ∧ e.readinessOnly = false
  | _ => False

/-- The instruction will report a loss of the object. -/
def Instr.reportsLoss (x : QString) : Instr → Bool
  | .report name event _ => name = x ∧ event.edge = .lost
  | _ => false

/-- What an event tells of the object. -/
def Event.told (x : QString) : Event → Option (Edge × ℕ)
  | .edge name event generation _ => if name = x then some (event.edge, generation) else none
  | _ => none

def Event.cancels : Event → Option ℕ
  | .cancelled id => some id
  | _ => none

/-- The handle carries, or will, a subscription to the object. -/
def Served (x : QString) (r : Registry) (k : List Instr) (handle : ℕ) : Prop :=
  (∃ n, .attached n x handle ∈ r.log) ∨ ∃ i ∈ k, i.Serves x handle

def view (x : QString) (r : Registry) (k : List Instr) : View ℕ ℕ where
  generation := (r.targets x).generation
  armed := { n | ∃ e ∈ r.armed, e.objectName = x ∧ e.id = n }
  losses := k.countP (Instr.reportsLoss x)
  handle := r.handles.lookup x
  used := { h | Served x r k h }
  edges := r.log.filterMap (Event.told x)
  cancelled := r.log.filterMap Event.cancels

/-- Nothing to the object. -/
structure Instr.Neutral (x : QString) (i : Instr) : Prop where
  serves : ∀ handle, ¬ i.Serves x handle
  loss : i.reportsLoss x = false

structure Event.Neutral (x : QString) (e : Event) : Prop where
  attached : ∀ n handle, e ≠ .attached n x handle
  told : e.told x = none
  cancels : e.cancels = none

/-- The object is as it was. -/
structure Same (x : QString) (r r' : Registry) : Prop where
  generation : (r'.targets x).generation = (r.targets x).generation
  onStatus : (r'.targets x).onStatus = (r.targets x).onStatus
  armed : ∀ e, e.objectName = x → (e ∈ r'.armed ↔ e ∈ r.armed)
  handle : r'.handles.lookup x = r.handles.lookup x
  log : ∃ es, r'.log = r.log ++ es ∧ ∀ e ∈ es, e.Neutral x
  nextHandle : r.nextHandle ≤ r'.nextHandle

namespace Same
variable {x : QString} {r r' r'' : Registry}

theorem of_fields (htargets : r'.targets = r.targets) (harmed : r'.armed = r.armed)
    (hhandles : r'.handles = r.handles) (hlog : r'.log = r.log)
    (hnext : r.nextHandle ≤ r'.nextHandle) : Same x r r' where
  generation := by rw [htargets]
  onStatus := by rw [htargets]
  armed e _ := by rw [harmed]
  handle := by rw [hhandles]
  log := ⟨[], by rw [hlog, List.append_nil], by simp⟩
  nextHandle := hnext

theorem refl (x : QString) (r : Registry) : Same x r r := of_fields rfl rfl rfl rfl le_rfl

theorem trans (h : Same x r r') (h' : Same x r' r'') : Same x r r'' where
  generation := h'.generation.trans h.generation
  onStatus := h'.onStatus.trans h.onStatus
  armed e he := (h'.armed e he).trans (h.armed e he)
  handle := h'.handle.trans h.handle
  log := by
    obtain ⟨es, hlog, hes⟩ := h.log
    obtain ⟨es', hlog', hes'⟩ := h'.log
    refine ⟨es ++ es', by rw [hlog', hlog, List.append_assoc], fun e he => ?_⟩
    exact (List.mem_append.mp he).elim (hes e) (hes' e)
  nextHandle := h.nextHandle.trans h'.nextHandle

/-- What is logged is nothing to the object. -/
theorem emit (r : Registry) {e : Event} (he : e.Neutral x) : Same x r (r.emit e) where
  generation := rfl
  onStatus := rfl
  armed _ _ := .rfl
  handle := rfl
  log := ⟨[e], rfl, by simpa using he⟩
  nextHandle := le_rfl

/-- A new handle on both sides. -/
theorem insert (h : Same x r r') (handle : ℕ) :
    Same x { r with handles := r.handles.insert x handle }
      { r' with handles := r'.handles.insert x handle } where
  generation := h.generation
  onStatus := h.onStatus
  armed := h.armed
  handle := by simp
  log := h.log
  nextHandle := h.nextHandle

/-- The handle that is stored. -/
theorem kept (h : Same x r r') {handle : ℕ} (hlookup : r'.handles.lookup x = some handle) :
    Same x { r with handles := r.handles.insert x handle } r' where
  generation := h.generation
  onStatus := h.onStatus
  armed := h.armed
  handle := by simp [hlookup]
  log := h.log
  nextHandle := h.nextHandle

theorem view_eq (h : Same x r r') (k : List Instr) : view x r' k = view x r k := by
  obtain ⟨es, hlog, hes⟩ := h.log
  have htold : r'.log.filterMap (Event.told x) = r.log.filterMap (Event.told x) := by
    rw [hlog, List.filterMap_append,
      List.filterMap_eq_nil_iff.mpr fun e he => (hes e he).told, List.append_nil]
  have hcancels : r'.log.filterMap Event.cancels = r.log.filterMap Event.cancels := by
    rw [hlog, List.filterMap_append,
      List.filterMap_eq_nil_iff.mpr fun e he => (hes e he).cancels, List.append_nil]
  have hattached : ∀ n handle, .attached n x handle ∈ r'.log ↔ .attached n x handle ∈ r.log := by
    intro n handle
    rw [hlog, List.mem_append]
    exact ⟨fun hin => hin.resolve_right fun hin => (hes _ hin).attached n handle rfl, .inl⟩
  have harmed : ∀ n, (∃ e ∈ r'.armed, e.objectName = x ∧ e.id = n) ↔
      ∃ e ∈ r.armed, e.objectName = x ∧ e.id = n := by
    intro n
    refine exists_congr fun e => ?_
    exact ⟨fun ⟨he, hname, hid⟩ => ⟨(h.armed e hname).mp he, hname, hid⟩,
      fun ⟨he, hname, hid⟩ => ⟨(h.armed e hname).mpr he, hname, hid⟩⟩
  simp only [view, h.generation, h.handle, harmed, Served, hattached, htold, hcancels]

end Same

/-- Instructions that attach nothing to the object. -/
theorem view_append_losses {x : QString} (r : Registry) {k' : List Instr}
    (hk' : ∀ i ∈ k', ∀ handle, ¬ i.Serves x handle) (k : List Instr) :
    view x r (k' ++ k) = { view x r k with
      losses := (view x r k).losses + k'.countP (Instr.reportsLoss x) } := by
  have hserved : ∀ handle, Served x r (k' ++ k) handle ↔ Served x r k handle := by
    intro handle
    refine or_congr .rfl (exists_congr fun i => ?_)
    rw [List.mem_append]
    exact ⟨fun ⟨hi, h⟩ => ⟨hi.resolve_left fun hi => hk' i hi handle h, h⟩, fun ⟨hi, h⟩ => ⟨.inr hi, h⟩⟩
  simp only [view, hserved, List.countP_append]
  rw [Nat.add_comm]

/-- Instructions that are nothing to the object. -/
theorem view_append {x : QString} (r : Registry) {k' : List Instr}
    (hk' : ∀ i ∈ k', i.Neutral x) (k : List Instr) : view x r (k' ++ k) = view x r k := by
  have hlosses : k'.countP (Instr.reportsLoss x) = 0 :=
    List.countP_eq_zero.mpr fun i hi => by simp [(hk' i hi).loss]
  rw [view_append_losses r (fun i hi => (hk' i hi).serves) k, hlosses, add_zero]

theorem view_cons {x : QString} (r : Registry) {i : Instr} (hi : i.Neutral x) (k : List Instr) :
    view x r (i :: k) = view x r k := by
  have hall : ∀ j ∈ [i], j.Neutral x := by simpa using hi
  exact view_append r hall k

/-- A step of the registry is a step of the provider. -/
structure Refines (x : QString) (r : Registry) (k : List Instr) (r' : Registry) (k' : List Instr) :
    Prop where
  step : Step (view x r k) (view x r' k')
  onStatus : (r'.targets x).onStatus = (r.targets x).onStatus
  nextHandle : r.nextHandle ≤ r'.nextHandle
  stored : ∀ handle, r'.handles.lookup x = some handle →
    r.handles.lookup x = some handle ∨ handle < r'.nextHandle

theorem Same.refines {x : QString} {r r' : Registry} {k k' : List Instr} (h : Same x r r')
    (hk' : ∀ i ∈ k', i.Neutral x) : Refines x r k r' (k' ++ k) where
  step := by
    rw [view_append r' hk', h.view_eq]
    exact .stutter _
  onStatus := h.onStatus
  nextHandle := h.nextHandle
  stored handle hlookup := .inl (h.handle ▸ hlookup)

/-! ## The side condition -/

/-- A subscription to the object waits when `armAgainst` is called. -/
def Arming.Real (a : Arming) : Prop :=
  ∃ e ∈ a.registry.entries, e.objectName = a.objectName ∧ e.readinessOnly = false

/-- A loss of the object is not reported yet. -/
def Untold (x : QString) (k : List Instr) : Prop := ∃ i ∈ k, i.reportsLoss x = true

/-- The call of `armAgainst` for the object is in order. -/
structure Arming.Regular (x : QString) (r : Registry) (k : List Instr) (a : Arming) : Prop where
  /-- A handle that stays has not carried a subscription. -/
  unused : a.Real → ∀ handle, a.registry.handles.lookup x = some handle →
    a.registry.valid handle = true → ¬ Served x r k handle
  /-- A dead handle that goes has nothing armed on it. -/
  noticed : a.registry.Dead x → a.registry.hasArmedFor x = false
  /-- The last loss is reported. -/
  told : a.Real → ¬ Untold x k

/-- The step is in order, for the object. -/
structure Regular (async : Bool) (x : QString) (c : Program.Config Registry Instr)
    (action : Program.Action Op Oracle) : Prop where
  arms : ∀ a, arming async c action = some a → a.objectName = x → a.Regular x c.data c.stack
  /-- What the loop puts down is on a handle that is still there. -/
  pushes : ∀ o e, action = .step o → c.stack.head? = some (.pushArmed e) → e.objectName = x →
    ∃ handle, c.data.handles.lookup x = some handle ∧ Served x c.data c.stack handle
  /-- Under the Automatic policy nothing is armed when the connection is rebuilt. -/
  reconnects : ∀ o, action = .call .reconnect o →
    c.data.manual x = false → c.data.hasArmedFor x = false

/-- The status callback of the object is not touched. -/
def KeepsWatch (x : QString) : Program.Action Op Oracle → Prop
  | .call (.setSubscriptionStatusCallback name _) _ => name ≠ x
  | _ => True

/-- Handles that are stored or used were made. -/
structure Issued (x : QString) (r : Registry) (k : List Instr) : Prop where
  stored : ∀ handle, r.handles.lookup x = some handle → handle < r.nextHandle
  used : ∀ handle, Served x r k handle → handle < r.nextHandle

/-! ## Arming -/

/-- The loop of an arming, seen from its object. -/
theorem view_arming {x : QString} (r : Registry) (handle : ℕ) {matched : List Entry}
    (hmatched : ∀ e ∈ matched, e.objectName = x) (k : List Instr) :
    view x r (Registry.arming x handle matched ++ k) = { view x r k with
      used := { h | (h = handle ∧ ∃ e ∈ matched, e.readinessOnly = false) ∨
        h ∈ (view x r k).used } } := by
  have hmem : ∀ i, i ∈ Registry.arming x handle matched ↔ (∃ e ∈ matched, i = .arm handle e) ∨
      i ∈ (if matched.any fun e => ¬ e.readinessOnly then [Instr.report x .armed []] else []) ∨
      i = .ensureTimer := by
    intro i
    simp only [Registry.arming, List.mem_append, List.mem_map, List.mem_singleton, or_assoc, eq_comm]
  have hreport : ∀ i ∈ (if matched.any fun e => ¬ e.readinessOnly then
      [Instr.report x .armed []] else []), i = .report x .armed [] := by
    intro i hi
    split at hi
    · exact List.mem_singleton.mp hi
    · cases hi
  have hserved : ∀ h, Served x r (Registry.arming x handle matched ++ k) h ↔
      (h = handle ∧ ∃ e ∈ matched, e.readinessOnly = false) ∨ Served x r k h := by
    intro h
    simp only [Served, List.mem_append, hmem]
    constructor
    · rintro (hlog | ⟨i, ((⟨e, he, rfl⟩ | hi | rfl) | hi), hserves⟩)
      · exact .inr (.inl hlog)
      · exact .inl ⟨hserves.1.symm, e, he, hserves.2.2⟩
      · rw [hreport i hi] at hserves
        exact hserves.elim
      · exact hserves.elim
      · exact .inr (.inr ⟨i, hi, hserves⟩)
    · rintro (⟨rfl, e, he, hreal⟩ | hlog | ⟨i, hi, hserves⟩)
      · exact .inr ⟨_, .inl (.inl ⟨e, he, rfl⟩), rfl, hmatched e he, hreal⟩
      · exact .inl hlog
      · exact .inr ⟨i, .inr hi, hserves⟩
  have hlosses : (Registry.arming x handle matched).countP (Instr.reportsLoss x) = 0 := by
    refine List.countP_eq_zero.mpr fun i hi => ?_
    rcases (hmem i).mp hi with ⟨e, -, rfl⟩ | hi | rfl
    · exact Bool.false_ne_true
    · rw [hreport i hi]
      simp [Instr.reportsLoss, SubscriptionEvent.edge]
    · exact Bool.false_ne_true
  simp only [view, hserved, List.countP_append, hlosses, zero_add]
  rfl

/-- The registry with another handle for the object. -/
theorem view_insert (x : QString) (r : Registry) (handle : ℕ) (k : List Instr) :
    view x { r with handles := r.handles.insert x handle } k =
      { view x r k with handle := some handle } := by
  simp only [view, AList.lookup_insert]
  rfl

/-- The generation after a match. -/
theorem bumped_generation (r : Registry) (x : QString) (matched : List Entry) :
    (r.bumped x matched x).generation = (r.targets x).generation +
      if ∃ e ∈ matched, e.readinessOnly = false then 1 else 0 := by
  have hany : (matched.any fun e => ¬ e.readinessOnly) = true ↔
      ∃ e ∈ matched, e.readinessOnly = false := by simp
  by_cases hreal : ∃ e ∈ matched, e.readinessOnly = false
  · rw [Registry.bumped, if_pos (hany.mpr hreal), if_pos hreal]
    simp
  · rw [Registry.bumped, if_neg fun h => hreal (hany.mp h), if_neg hreal, add_zero]

/-- The loop of `armAgainst`, once the handle is stored: the first subscriptions on it, or none. -/
theorem refines_arm {x : QString} {r r₁ : Registry} {k more : List Instr} {handle : ℕ}
    (timer : Timer) (hsame : Same x { r with handles := r.handles.insert x handle } r₁)
    (hmade : r.handles.lookup x = some handle ∨ handle < r₁.nextHandle)
    (hstays : r.handles.lookup x = some handle ∨
      (handle ∉ (view x r k).used ∧ (view x r k).armed = ∅))
    (hreal : (∃ e ∈ r₁.entries.filter fun e => e.objectName = x, e.readinessOnly = false) →
      handle ∉ (view x r k).used ∧ (view x r k).armed = ∅ ∧ (view x r k).losses = 0)
    (hmore : ∀ i ∈ more, i.Neutral x) :
    Refines x r k
      { r₁ with
        entries := r₁.entries.filter fun e => e.objectName ≠ x
        targets := r₁.bumped x (r₁.entries.filter fun e => e.objectName = x)
        timer := timer }
      (Registry.arming x handle (r₁.entries.filter fun e => e.objectName = x) ++ more ++ k) := by
  have hmatched : ∀ e ∈ r₁.entries.filter fun e => e.objectName = x, e.objectName = x :=
    fun e he => by simpa using (List.mem_filter.mp he).2
  generalize hes : (r₁.entries.filter fun e => e.objectName = x) = matched at hreal hmatched ⊢
  have hview : view x { r₁ with
        entries := r₁.entries.filter fun e => e.objectName ≠ x
        targets := r₁.bumped x matched
        timer := timer } k = { view x r k with
      handle := some handle
      generation := (r.targets x).generation +
        if ∃ e ∈ matched, e.readinessOnly = false then 1 else 0 } := by
    have hcore := (hsame.view_eq k).trans (view_insert x r handle k)
    have hgeneration : (r₁.targets x).generation = (r.targets x).generation := hsame.generation
    rw [← hgeneration, ← bumped_generation]
    calc view x { r₁ with
          entries := r₁.entries.filter fun e => e.objectName ≠ x
          targets := r₁.bumped x matched
          timer := timer } k
        = { view x r₁ k with generation := (r₁.bumped x matched x).generation } := rfl
      _ = _ := by rw [hcore]
  refine ⟨?_, ?_, hsame.nextHandle, ?_⟩
  · rw [List.append_assoc, view_arming _ _ hmatched, view_append _ hmore, hview]
    by_cases hsome : ∃ e ∈ matched, e.readinessOnly = false
    · obtain ⟨hused, harmed, hlosses⟩ := hreal hsome
      have hstep := Step.establish (view x r k) handle hused harmed hlosses
      simp only [hsome, and_true]
      exact hstep
    · simp only [hsome, and_false, false_or, Set.ofPred_mem_eq, if_false, add_zero]
      rcases hstays with hlookup | ⟨hused, harmed⟩
      · rw [← hlookup]
        exact .stutter _
      · exact .store (view x r k) handle hused harmed
  · exact (Registry.bumped_apply r₁ x matched x).2.trans hsame.onStatus
  · intro h hlookup
    rw [show _ = _ from hsame.handle, AList.lookup_insert] at hlookup
    obtain rfl := Option.some.inj hlookup
    exact hmade

/-- An arming of another object. -/
theorem same_run {x : QString} {a : Arming} (hname : a.objectName ≠ x) :
    Same x a.registry a.run.1 ∧ ∀ i ∈ a.run.2, i.Neutral x := by
  have hreleased : ∀ h, (Event.released h).Neutral x := fun h => ⟨by simp, rfl, rfl⟩
  have hstore : Same x a.registry (a.registry.storeHandle a.objectName a.obj).1 := by
    rcases a.registry.storeHandle_cases a.objectName a.obj with
      ⟨-, h⟩ | ⟨-, h⟩ | ⟨_, -, -, -, h⟩ | ⟨old, -, -, -, h⟩
    · rw [h]
      exact ⟨rfl, rfl, fun _ _ => .rfl, AList.lookup_insert_ne hname.symm,
        ⟨[], (List.append_nil _).symm, by simp⟩, le_rfl⟩
    · rw [h]
      exact .refl x _
    · rw [h]
      exact .emit _ (hreleased _)
    · rw [h]
      refine ⟨rfl, rfl, fun e he => ?_, AList.lookup_insert_ne hname.symm,
        ⟨[.released old], rfl, by simpa using hreleased old⟩, le_rfl⟩
      have hne : e.objectName ≠ a.objectName := fun heq => hname (heq.symm.trans he)
      simp [Registry.reviveArmed, Registry.emit, hne]
  obtain ⟨timer, harm⟩ := a.registry.armAgainst_eq a.objectName a.obj
  rw [Arming.run, harm]
  generalize a.registry.storeHandle a.objectName a.obj = stored at hstore ⊢
  have hbumped : ∀ matched, stored.1.bumped a.objectName matched x = stored.1.targets x := by
    intro matched
    unfold Registry.bumped
    split_ifs
    · exact Function.update_of_ne hname.symm _ _
    · rfl
  refine ⟨hstore.trans ⟨by simp only [hbumped], by simp only [hbumped], fun _ _ => .rfl, rfl,
    ⟨[], (List.append_nil _).symm, by simp⟩, le_rfl⟩, fun i hi => ?_⟩
  simp only [Registry.arming, List.mem_append, List.mem_map, List.mem_singleton] at hi
  rcases hi with (⟨e, he, rfl⟩ | hi) | rfl
  · have hobject : e.objectName = a.objectName := by simpa using (List.mem_filter.mp he).2
    exact ⟨fun h hserves => hname (hobject.symm.trans hserves.2.1), rfl⟩
  · split at hi
    · rw [List.mem_singleton.mp hi]
      exact ⟨fun _ => id, by simp [Instr.reportsLoss, SubscriptionEvent.edge]⟩
    · cases hi
  · exact ⟨fun _ => id, rfl⟩

/-- An arming in order. -/
theorem refines_run {x : QString} {r : Registry} {k more : List Instr} {a : Arming}
    (hsame : Same x r a.registry)
    (hobj : a.registry.liveHandle a.objectName = some a.obj ∨
      r.nextHandle ≤ a.obj ∧ a.obj < a.registry.nextHandle)
    (hinv : Inv (view x r k)) (hissued : Issued x r k)
    (hregular : a.objectName = x → a.Regular x r k) (hmore : ∀ i ∈ more, i.Neutral x) :
    Refines x r k a.run.1 (a.run.2 ++ more ++ k) := by
  by_cases hname : a.objectName = x
  swap
  · obtain ⟨hrun, hneutral⟩ := same_run hname
    refine (hsame.trans hrun).refines fun i hi => ?_
    exact (List.mem_append.mp hi).elim (hneutral i) (hmore i)
  have hreg := hregular hname
  obtain ⟨registry, objectName, obj⟩ := a
  obtain rfl : objectName = x := hname
  dsimp only at hsame hobj hreg
  have hlookup : registry.handles.lookup objectName = r.handles.lookup objectName := hsame.handle
  -- Nothing is attached when the handle that is stored, if one is, has carried nothing.
  have hempty : (∀ h, r.handles.lookup objectName = some h → ¬ Served objectName r k h) →
      (view objectName r k).armed = ∅ := by
    intro hnone
    by_contra hne
    obtain ⟨h, hstored, hused⟩ := hinv.carried (Set.nonempty_iff_ne_empty.mpr hne)
    exact hnone h hstored hused
  have htold : Arming.Real ⟨registry, objectName, obj⟩ → (view objectName r k).losses = 0 := by
    intro hreal
    refine List.countP_eq_zero.mpr fun i hi hloss => hreg.told hreal ⟨i, hi, hloss⟩
  have hfresh : r.nextHandle ≤ obj → ¬ Served objectName r k obj := fun hle hserved =>
    absurd (hissued.used obj hserved) (by omega)
  have hlive : registry.liveHandle objectName = some obj →
      registry.handles.lookup objectName = some obj ∧ registry.valid obj = true := fun h =>
    Option.filter_eq_some_iff.mp h
  -- A handle that stays and is valid carries its first subscriptions.
  have hcarries : ∀ h, r.handles.lookup objectName = some h →
      registry.handles.lookup objectName = some h → registry.valid h = true →
      (∃ e ∈ registry.entries.filter fun e => e.objectName = objectName, e.readinessOnly = false) →
      h ∉ (view objectName r k).used ∧ (view objectName r k).armed = ∅ ∧
        (view objectName r k).losses = 0 := by
    rintro h hstored hself hvalid ⟨e, he, hreal⟩
    obtain ⟨he, hobject⟩ := List.mem_filter.mp he
    have hwaits : Arming.Real ⟨registry, objectName, obj⟩ := ⟨e, he, by simpa using hobject, hreal⟩
    have hunused := hreg.unused hwaits h hself hvalid
    have harmed := hempty fun h' hstored' => by
      obtain rfl := Option.some.inj (hstored.symm.trans hstored')
      exact hunused
    exact ⟨hunused, harmed, htold hwaits⟩
  obtain ⟨timer, harm⟩ := registry.armAgainst_eq objectName obj
  rw [Arming.run]
  dsimp only
  rw [harm]
  rcases registry.storeHandle_cases objectName obj with
    ⟨hnone, h⟩ | ⟨hself, h⟩ | ⟨old, hold, -, hvalid, h⟩ | ⟨old, hold, hne, hvalid, h⟩
  · -- A new handle, and none was stored.
    have hnew : r.nextHandle ≤ obj ∧ obj < registry.nextHandle := by
      refine hobj.resolve_left fun h => ?_
      rw [(hlive h).1] at hnone
      cases hnone
    have harmed := hempty fun h hstored => by
      rw [← hlookup, hnone] at hstored
      cases hstored
    rw [h]
    refine refines_arm timer (hsame.insert obj) (.inr hnew.2)
      (.inr ⟨hfresh hnew.1, harmed⟩) ?_ hmore
    rintro ⟨e, he, hreal⟩
    obtain ⟨he, hobject⟩ := List.mem_filter.mp he
    exact ⟨hfresh hnew.1, harmed, htold ⟨e, he, by simpa using hobject, hreal⟩⟩
  · -- The live handle.
    have hstored : r.handles.lookup objectName = some obj := hlookup ▸ hself
    have hvalid : registry.valid obj = true := by
      rcases hobj with hobj | ⟨hle, -⟩
      · exact (hlive hobj).2
      · exact absurd (hissued.stored obj hstored) (by omega)
    rw [h]
    refine refines_arm timer (hsame.kept hself) (.inl hstored) (.inl hstored) ?_ hmore
    exact hcarries obj hstored hself hvalid
  · -- A new handle is given back for a live one.
    have hstored : r.handles.lookup objectName = some old := hlookup ▸ hold
    rw [h]
    have hback : Same objectName registry (registry.emit (.released obj)) :=
      .emit _ ⟨by simp, rfl, rfl⟩
    refine refines_arm timer ((hsame.trans hback).kept hold) (.inl hstored) (.inl hstored) ?_ hmore
    exact hcarries old hstored hold hvalid
  · -- A new handle replaces a dead one.
    have hdead : registry.Dead objectName := ⟨old, hold, hvalid⟩
    have hnew : r.nextHandle ≤ obj ∧ obj < registry.nextHandle := by
      refine hobj.resolve_left fun h => hne ?_
      exact Option.some.inj (hold.symm.trans (hlive h).1)
    have hnotArmed : ∀ e ∈ registry.armed, e.objectName ≠ objectName := by
      simpa [Registry.hasArmedFor] using hreg.noticed hdead
    have harmed : (view objectName r k).armed = ∅ := by
      refine Set.eq_empty_iff_forall_notMem.mpr fun n ⟨e, he, hobject, _⟩ => ?_
      exact hnotArmed e ((hsame.armed e hobject).mpr he) hobject
    have hnoneRevived : (registry.armed.filter fun e => e.objectName = objectName) = [] :=
      List.filter_eq_nil_iff.mpr fun e he => by simpa using hnotArmed e he
    have hentries : (registry.reviveArmed objectName).entries = registry.entries := by
      simp [Registry.reviveArmed, hnoneRevived]
    have hrevived : Same objectName registry
        ((registry.reviveArmed objectName).emit (.released old)) := by
      refine ⟨rfl, rfl, fun e he => ?_, rfl, ⟨[.released old], rfl, ?_⟩, le_rfl⟩
      · simp only [Registry.reviveArmed, Registry.emit, List.mem_filter, decide_eq_true_eq]
        exact ⟨And.left, fun hin => ⟨hin, hnotArmed e hin⟩⟩
      · simpa using ⟨by simp, rfl, rfl⟩
    rw [h]
    refine refines_arm timer ((hsame.trans hrevived).insert obj) (.inr hnew.2)
      (.inr ⟨hfresh hnew.1, harmed⟩) ?_ hmore
    rintro ⟨e, he, hreal⟩
    obtain ⟨he, hobject⟩ := List.mem_filter.mp he
    refine ⟨hfresh hnew.1, harmed, htold ⟨e, ?_, by simpa using hobject, hreal⟩⟩
    exact hentries ▸ he

/-! ## Steps -/

/-- The head was nothing to the object. -/
theorem Refines.cons {x : QString} {r r' : Registry} {i : Instr} {k k' : List Instr}
    (h : Refines x r k r' k') (hi : i.Neutral x) : Refines x r (i :: k) r' k' :=
  ⟨by rw [view_cons r hi]; exact h.step, h.onStatus, h.nextHandle, h.stored⟩

theorem Arming.Regular.of_cons {x : QString} {r : Registry} {i : Instr} {k : List Instr}
    {a : Arming} (h : a.Regular x r (i :: k)) : a.Regular x r k where
  unused hreal handle hlookup hvalid := by
    intro hserved
    refine h.unused hreal handle hlookup hvalid (hserved.imp id ?_)
    exact fun ⟨j, hj, hserves⟩ => ⟨j, List.mem_cons_of_mem i hj, hserves⟩
  noticed := h.noticed
  told hreal := fun ⟨j, hj, hloss⟩ => h.told hreal ⟨j, List.mem_cons_of_mem i hj, hloss⟩

theorem Issued.of_cons {x : QString} {r : Registry} {i : Instr} {k : List Instr}
    (h : Issued x r (i :: k)) : Issued x r k where
  stored := h.stored
  used handle hserved := by
    refine h.used handle (hserved.imp id ?_)
    exact fun ⟨j, hj, hserves⟩ => ⟨j, List.mem_cons_of_mem i hj, hserves⟩

theorem Instr.not_serves {x : QString} {i : Instr} (hentry : i.entry = none) (handle : ℕ) :
    ¬ i.Serves x handle := by
  intro hserves
  cases i <;> first | exact hserves | cases hentry

/-- An instruction with no entry in hand and no loss to report. -/
theorem Instr.neutral_of {x : QString} {i : Instr} (hentry : i.entry = none)
    (hloss : i.reportsLoss x = false) : i.Neutral x :=
  ⟨Instr.not_serves hentry, hloss⟩

theorem neutral_userCode {x : QString} {e : Entry} {i : Instr} (h : i ∈ userCode e) :
    i.Neutral x := by
  unfold userCode at h
  split at h
  · rw [List.mem_singleton.mp h]
    exact Instr.neutral_of rfl rfl
  · cases h

theorem neutral_firing {x : QString} {e : Entry} {ok : Bool} {ev : Event}
    (h : ev ∈ firing e ok) : ev.Neutral x := by
  rw [eq_of_mem_firing h]
  exact ⟨by simp, rfl, rfl⟩

theorem neutral_nil {x : QString} : ∀ i ∈ ([] : List Instr), i.Neutral x := by simp

theorem neutral_callback {x : QString} : ∀ i ∈ [Instr.callback], i.Neutral x := by
  intro i hi
  rw [List.mem_singleton.mp hi]
  exact Instr.neutral_of rfl rfl

section steps
variable {x : QString} {r : Registry} {k : List Instr}

/-- An acquire, in order. -/
theorem refines_beginAcquire (async : Bool) (name : QString) (o : Oracle)
    (hinv : Inv (view x r k)) (hissued : Issued x r k)
    (hregular : ∀ a, r.acquireArming async name o = some a → a.objectName = x → a.Regular x r k) :
    Refines x r k (r.beginAcquire async name o).1.1 ((r.beginAcquire async name o).1.2 ++ k) := by
  rcases beginAcquire_arming async r name o with
    ⟨a, ha, rfl, hacquire⟩ | ⟨-, acquiring, inFlight, hacquire⟩
  · rw [hacquire]
    have hsame : Same x r r.newHandle.2 := .of_fields rfl rfl rfl rfl (Nat.le_succ _)
    have hrun := refines_run (a := ⟨r.newHandle.2, name, r.newHandle.1⟩) hsame
      (.inr ⟨le_rfl, Nat.lt_succ_self _⟩) hinv hissued (hregular _ ha) neutral_nil
    rwa [List.append_nil] at hrun
  · rw [hacquire]
    have hsame : Same x r { r with acquiring := acquiring, inFlight := inFlight } :=
      .of_fields rfl rfl rfl rfl le_rfl
    exact hsame.refines neutral_nil

/-- The live handle, or a new one. -/
theorem refines_liveOrAcquire {r₀ : Registry} {async : Bool} {name : QString} {o : Oracle}
    {a : Arming} {more : List Instr} (hsame : Same x r r₀) (hinv : Inv (view x r k))
    (hissued : Issued x r k) (ha : r₀.liveOrAcquire async name o = some a)
    (hregular : a.objectName = x → a.Regular x r k) (hmore : ∀ i ∈ more, i.Neutral x) :
    Refines x r k a.run.1 (a.run.2 ++ more ++ k) := by
  rcases liveOrAcquire_cases ha with ⟨obj, hlive, rfl⟩ | rfl
  · exact refines_run hsame (.inl hlive) hinv hissued hregular hmore
  · have hnew : Same x r₀ r₀.newHandle.2 := .of_fields rfl rfl rfl rfl (Nat.le_succ _)
    exact refines_run (hsame.trans hnew) (.inr ⟨hsame.nextHandle, Nat.lt_succ_self _⟩) hinv hissued
      hregular hmore

/-- An edge to report. -/
theorem view_report (r : Registry) (x : QString) (event : SubscriptionEvent) (reason : QString)
    (k : List Instr) : view x r (.report x event reason :: k) = { view x r k with
      losses := (view x r k).losses + if event.edge = .lost then 1 else 0 } := by
  simp [view, Served, Instr.Serves, Instr.reportsLoss, List.countP_cons]

/-- An edge of the object. -/
theorem refines_report (event : SubscriptionEvent) (reason : QString)
    (hstatus : (r.targets x).onStatus = true) : Refines x r (.report x event reason :: k)
      (r.report x event reason).1 ((r.report x event reason).2 ++ k) := by
  have hreport : r.report x event reason =
      (r.emit (.edge x event (r.targets x).generation reason), [.callback]) := if_pos hstatus
  have htold : view x (r.emit (.edge x event (r.targets x).generation reason)) k =
      { view x r k with
        edges := (view x r k).edges ++ [(event.edge, (view x r k).generation)] } := by
    simp [view, Registry.emit, Served, Event.told, Event.cancels]
  rw [hreport]
  refine ⟨?_, rfl, le_rfl, fun _ => .inl⟩
  rw [view_append _ neutral_callback, htold, view_report]
  by_cases hloss : event.edge = .lost
  · rw [if_pos hloss, hloss]
    exact .tellLoss { view x r k with losses := (view x r k).losses + 1 } _ rfl
  · rw [if_neg hloss, add_zero]
    exact .tell (view x r k) event.edge hloss

/-- An edge of another object. -/
theorem same_report {name : QString} (hname : name ≠ x) (event : SubscriptionEvent)
    (reason : QString) : Same x r (r.report name event reason).1 ∧
      ∀ i ∈ (r.report name event reason).2, i.Neutral x := by
  simp only [Registry.report]
  split_ifs
  · exact ⟨.emit _ ⟨by simp, if_neg hname, rfl⟩, neutral_callback⟩
  · exact ⟨.refl x r, by simp⟩

/-- The handle of another object is dropped. -/
theorem same_dropHandle {name : QString} (hname : name ≠ x) :
    Same x r (r.dropHandle name).1 ∧ ∀ i ∈ (r.dropHandle name).2, i.Neutral x := by
  refine ⟨?_, fun i hi => Instr.neutral_of (entry_dropHandle hi) ?_⟩
  · rw [Registry.dropHandle_eq]
    refine ⟨rfl, rfl, fun e he => ?_, AList.lookup_erase_ne hname.symm, ⟨_, rfl, ?_⟩, le_rfl⟩
    · have hne : e.objectName ≠ name := fun heq => hname (heq.symm.trans he)
      simp [hne]
    · intro ev hev
      obtain ⟨h, -, rfl⟩ := List.mem_map.mp hev
      exact ⟨by simp, rfl, rfl⟩
  · rw [Registry.dropHandle_eq] at hi
    rcases List.mem_append.mp hi with hi | hi
    · split at hi
      · rw [List.mem_singleton.mp hi]
        simp [Instr.reportsLoss, hname]
      · cases hi
    · rw [List.mem_singleton.mp hi]
      rfl

/-- The handle of the object is dropped. -/
theorem refines_dropHandle (x : QString) (r : Registry) (k : List Instr) :
    Refines x r k (r.dropHandle x).1 ((r.dropHandle x).2 ++ k) := by
  have hchase : (Instr.chase x).Neutral x := Instr.neutral_of rfl rfl
  have harmed : (view x r k).armed.Nonempty ↔ r.hasArmedFor x = true := by
    simp only [view, Registry.hasArmedFor, List.any_eq_true, decide_eq_true_eq]
    exact ⟨fun ⟨_, e, he, hname, _⟩ => ⟨e, he, hname⟩, fun ⟨e, he, hname⟩ => ⟨e.id, e, he, hname, rfl⟩⟩
  have hview : view x (r.dropHandle x).1 k = { view x r k with handle := none, armed := ∅ } := by
    have hlog : ∀ h : Option ℕ, (h.toList.map Event.released).filterMap (Event.told x) = [] ∧
        (h.toList.map Event.released).filterMap Event.cancels = [] := fun h => by
      cases h <;> exact ⟨rfl, rfl⟩
    have hnone : { n | ∃ e ∈ r.armed.filter fun e => e.objectName ≠ x, e.objectName = x ∧ e.id = n } =
        ∅ := by
      refine Set.eq_empty_iff_forall_notMem.mpr ?_
      rintro n ⟨e, he, hname, -⟩
      simpa [hname] using (List.mem_filter.mp he).2
    have hattached : ∀ n h, Event.attached n x h ∈
        r.log ++ (r.handles.lookup x).toList.map Event.released ↔ Event.attached n x h ∈ r.log := by
      simp
    rw [Registry.dropHandle_eq]
    simp only [view, Served, AList.lookup_erase, hattached, List.filterMap_append, hlog,
      List.append_nil, hnone]
  refine ⟨?_, ?_, ?_, fun h hlookup => ?_⟩
  · have hlose := Step.lose (view x r k)
      ((view x r k).losses + if r.hasArmedFor x then 1 else 0)
      (fun hsome => by rw [if_pos (harmed.mp hsome)])
      (fun hnone => by
        have hnot : ¬ r.hasArmedFor x = true := fun h => by
          simpa [hnone] using harmed.mpr h
        rw [if_neg hnot, add_zero])
    have hstack : (r.dropHandle x).2 = (if r.hasArmedFor x then
        [.report x (if r.manual x then .held else .lost) (qstr "provider_unavailable")]
        else []) ++ [.chase x] := by rw [Registry.dropHandle_eq]
    rw [hstack, List.append_assoc, List.singleton_append]
    by_cases hsome : r.hasArmedFor x = true
    · have hedge : (if r.manual x then SubscriptionEvent.held else .lost).edge = .lost := by
        split_ifs <;> rfl
      rw [if_pos hsome] at hlose ⊢
      rw [List.singleton_append, view_report, if_pos hedge, view_cons _ hchase, hview]
      exact hlose
    · rw [if_neg hsome] at hlose ⊢
      rw [List.nil_append, view_cons _ hchase, hview]
      exact hlose
  · rw [Registry.dropHandle_eq]
  · rw [Registry.dropHandle_eq]
  · rw [Registry.dropHandle_eq, AList.lookup_erase] at hlookup
    cases hlookup

/-- An entry about to be put down. -/
theorem neutral_pushArmed (x : QString) (e : Entry) : (Instr.pushArmed e).Neutral x :=
  ⟨fun _ => id, rfl⟩

/-- What follows an entry that is attached. -/
theorem neutral_put {x : QString} {e e' : Entry} {i : Instr}
    (h : i ∈ userCode e ++ [.pushArmed e']) : i.Neutral x := by
  rcases List.mem_append.mp h with h | h
  · exact neutral_userCode h
  · exact List.mem_singleton.mp h ▸ neutral_pushArmed x e'

/-- A subscription of the object is attached. -/
theorem refines_attach {handle : ℕ} {e : Entry} (hname : e.objectName = x)
    (hreal : e.readinessOnly = false) : Refines x r (.arm handle e :: k)
      { r with log := r.log ++ .attached e.id e.objectName handle :: firing e true }
      (userCode e ++ [.pushArmed { e with everArmed := true }] ++ k) := by
  refine ⟨?_, rfl, le_rfl, fun _ => .inl⟩
  rw [view_append _ fun i => neutral_put]
  have hfiring : ∀ ev ∈ firing e true, ev.Neutral x := fun ev => neutral_firing
  have htold : (firing e true).filterMap (Event.told x) = [] :=
    List.filterMap_eq_nil_iff.mpr fun ev hev => (hfiring ev hev).told
  have hcancels : (firing e true).filterMap Event.cancels = [] :=
    List.filterMap_eq_nil_iff.mpr fun ev hev => (hfiring ev hev).cancels
  have hserved : ∀ h, Served x
      { r with log := r.log ++ .attached e.id e.objectName handle :: firing e true } k h ↔
      Served x r (.arm handle e :: k) h := by
    intro h
    constructor
    · rintro (⟨n, hin⟩ | ⟨i, hi, hserves⟩)
      · rcases List.mem_append.mp hin with hin | hin
        · exact .inl ⟨n, hin⟩
        rcases List.mem_cons.mp hin with hin | hin
        · cases hin
          exact .inr ⟨_, List.mem_cons_self, rfl, hname, hreal⟩
        · exact absurd rfl ((hfiring _ hin).attached n h)
      · exact .inr ⟨i, List.mem_cons_of_mem _ hi, hserves⟩
    · rintro (⟨n, hin⟩ | ⟨i, hi, hserves⟩)
      · exact .inl ⟨n, List.mem_append_left _ hin⟩
      · rcases List.mem_cons.mp hi with rfl | hi
        · obtain ⟨rfl, -, -⟩ := hserves
          exact .inl ⟨e.id, List.mem_append_right _ (by simp [hname])⟩
        · exact .inr ⟨i, hi, hserves⟩
  have hview : view x { r with log := r.log ++ .attached e.id e.objectName handle :: firing e true }
      k = view x r (.arm handle e :: k) := by
    simp only [view, hserved, List.filterMap_append, List.filterMap_cons, Event.told,
      Event.cancels, htold, hcancels, List.append_nil]
    simp [Instr.reportsLoss]
  rw [hview]
  exact .stutter _

/-- It is armed, and its handle is still there. -/
theorem refines_push {e : Entry} {handle : ℕ} (hname : e.objectName = x)
    (hlookup : r.handles.lookup x = some handle) (hserved : Served x r k handle) :
    Refines x r k { r with armed := r.armed ++ [e] } k := by
  refine ⟨?_, rfl, le_rfl, fun _ => .inl⟩
  have harmed : ∀ n, (∃ e' ∈ r.armed ++ [e], e'.objectName = x ∧ e'.id = n) ↔
      n = e.id ∨ ∃ e' ∈ r.armed, e'.objectName = x ∧ e'.id = n := by
    intro n
    constructor
    · rintro ⟨e', he, hrest⟩
      rcases List.mem_append.mp he with he | he
      · exact .inr ⟨e', he, hrest⟩
      · rw [List.mem_singleton.mp he] at hrest
        exact .inl hrest.2.symm
    · rintro (rfl | ⟨e', he, hrest⟩)
      · exact ⟨e, by simp, hname, rfl⟩
      · exact ⟨e', List.mem_append_left _ he, hrest⟩
  have hview : view x { r with armed := r.armed ++ [e] } k =
      { view x r k with armed := insert e.id (view x r k).armed } := by
    simp only [view, harmed]
    rfl
  rw [hview]
  exact .push (view x r k) e.id handle hlookup hserved

theorem refines_cancel (n : ℕ) : Refines x r k (r.cancel n).1 k := by
  have hkeeps : ∀ r' : Registry, r'.targets = r.targets → r'.handles = r.handles →
      r'.nextHandle = r.nextHandle → r'.log = r.log ++ [.cancelled n] →
      (∀ e ∈ r'.armed, e ∈ r.armed) → (∀ e ∈ r.armed, e.id ≠ n → e ∈ r'.armed) →
      Refines x r k r' k := by
    intro r' htargets hhandles hnext hlog hsub hrest
    refine ⟨?_, by rw [htargets], hnext.ge, fun h hlookup => .inl (hhandles ▸ hlookup)⟩
    have hcancel := Step.cancel (view x r k) n (view x r' k).armed
      (fun m ⟨e, he, hm⟩ => ⟨e, hsub e he, hm⟩)
      (fun m ⟨e, he, hname, hid⟩ hne => ⟨e, hrest e he (hid ▸ hne), hname, hid⟩)
    have hview : view x r' k = { view x r k with
        armed := (view x r' k).armed, cancelled := (view x r k).cancelled ++ [n] } := by
      simp only [view, htargets, hhandles, hlog, Served, List.filterMap_append]
      simp [Event.told, Event.cancels]
    rw [hview]
    exact hcancel
  simp only [Registry.cancel]
  split_ifs
  · rw [Registry.stopTimerIfIdle_eq]
    exact hkeeps _ rfl rfl rfl rfl (fun e he => he) fun e he _ => he
  · refine hkeeps _ rfl rfl rfl rfl (fun e he => List.mem_of_mem_eraseP he) fun e he hne => ?_
    exact (List.mem_eraseP_of_neg (by simpa using hne)).mpr he
  · exact hkeeps _ rfl rfl rfl rfl (fun e he => he) fun e he _ => he
  · exact (Same.refl x r).refines neutral_nil

/-- The connection is rebuilt. -/
theorem refines_reconnected {o : Oracle} {r' : Registry × List Instr}
    (hautomatic : r.manual x = false → r.hasArmedFor x = false)
    (h : r.reconnected o = some r') : Refines x r k r'.1 (r'.2 ++ k) := by
  simp only [Registry.reconnected, Option.ite_none_right_eq_some, Option.some.injEq] at h
  obtain ⟨⟨horder, -⟩, rfl⟩ := h
  -- The object is among those that are reported as held, once, if something is armed for it.
  have hin : x ∈ o.order ↔ (view x r k).armed.Nonempty := by
    have hmem : x ∈ o.order ↔ ∃ e ∈ r.armed, r.manual x = true ∧ e.objectName = x := by
      simp only [horder.mem_iff, Registry.reviveAll, List.mem_dedup, List.mem_map, List.mem_filter]
      constructor
      · rintro ⟨e, ⟨he, hmanual⟩, rfl⟩
        exact ⟨e, he, hmanual, rfl⟩
      · rintro ⟨e, he, hmanual, rfl⟩
        exact ⟨e, ⟨he, hmanual⟩, rfl⟩
    rw [hmem]
    constructor
    · rintro ⟨e, he, -, hname⟩
      exact ⟨e.id, e, he, hname, rfl⟩
    · rintro ⟨n, e, he, hname, -⟩
      refine ⟨e, he, ?_, hname⟩
      by_contra hnot
      have hnone := hautomatic (by simpa using hnot)
      simp only [Registry.hasArmedFor, List.any_eq_false, decide_eq_true_eq] at hnone
      exact hnone e he hname
  have hnodup : o.order.Nodup := horder.nodup_iff.mpr (List.nodup_dedup _)
  have hlosses : ∀ names : List QString, names.Nodup →
      (names.map fun name => Instr.report name .held (qstr "connection_reset")).countP
        (Instr.reportsLoss x) = if x ∈ names then 1 else 0 := by
    intro names hnames
    have hcount : (names.map fun name => Instr.report name .held (qstr "connection_reset")).countP
        (Instr.reportsLoss x) = names.count x := by
      rw [List.countP_map, List.count_eq_countP]
      refine List.countP_congr fun name _ => ?_
      simp [Instr.reportsLoss, SubscriptionEvent.edge]
    rw [hcount]
    split_ifs with hmem
    · exact List.count_eq_one_of_mem hnames hmem
    · exact List.count_eq_zero_of_not_mem hmem
  have hneutral : ∀ i ∈ o.order'.map Instr.beginAcquire ++ [.ensureTimer], i.Neutral x := by
    intro i hi
    simp only [List.mem_append, List.mem_map, List.mem_singleton] at hi
    rcases hi with ⟨name, -, rfl⟩ | rfl <;> exact Instr.neutral_of rfl rfl
  have hreports : ∀ i ∈ o.order.map fun name => Instr.report name .held (qstr "connection_reset"),
      ∀ handle, ¬ i.Serves x handle := by
    intro i hi handle
    obtain ⟨name, -, rfl⟩ := List.mem_map.mp hi
    exact id
  refine ⟨?_, rfl, le_rfl, fun h hlookup => by cases hlookup⟩
  have hlose := Step.lose (view x r k) ((view x r k).losses + if x ∈ o.order then 1 else 0)
    (fun hsome => by rw [if_pos (hin.mpr hsome)])
    (fun hnone => by
      rw [if_neg fun hmem => by simpa [hnone] using hin.mp hmem, add_zero])
  have hview : view x (Registry.reviveAll { r with inFlight := [] }).1 k =
      { view x r k with handle := none, armed := ∅ } := by
    have hreleased : ∀ es : List (Σ _ : QString, ℕ),
        (es.map fun e => Event.released e.2).filterMap (Event.told x) = [] ∧
        (es.map fun e => Event.released e.2).filterMap Event.cancels = [] := fun es => by
      constructor <;>
      · refine List.filterMap_eq_nil_iff.mpr fun ev hev => ?_
        obtain ⟨e, -, rfl⟩ := List.mem_map.mp hev
        rfl
    have hattached : ∀ n h, Event.attached n x h ∈
        r.log ++ r.handles.entries.map (fun e => Event.released e.2) ↔
          Event.attached n x h ∈ r.log := by simp
    simp only [view, Served, Registry.reviveAll, hattached, List.filterMap_append, hreleased,
      List.append_nil]
    simp
  rw [List.append_assoc, List.append_assoc, view_append_losses _ hreports,
    ← List.append_assoc, view_append _ hneutral, hview, hlosses _ hnodup]
  exact hlose

/-- The waiting entries of an object are given up. -/
theorem refines_abandon {r₀ : Registry} (hsame : Same x r r₀) (name : QString) :
    Refines x r k (r₀.abandon name).1 ((r₀.abandon name).2 ++ k) := by
  obtain ⟨timer, htake⟩ := r₀.takeMatching_eq name
  simp only [Registry.abandon, htake]
  have htaken : Same x r₀ { r₀ with
      entries := r₀.entries.filter fun e => e.objectName ≠ name, timer := timer } :=
    .of_fields rfl rfl rfl rfl le_rfl
  refine (hsame.trans htaken).refines fun i hi => ?_
  rcases List.mem_append.mp hi with hi | hi
  · obtain ⟨e, -, rfl⟩ := List.mem_map.mp hi
    exact ⟨fun _ => id, rfl⟩
  · split at hi
    · cases hi
    · rw [List.mem_singleton.mp hi]
      exact Instr.neutral_of rfl (by simp [Instr.reportsLoss, SubscriptionEvent.edge])

/-- Running one instruction is a step of the provider. -/
theorem refines_exec {async : Bool} {i : Instr} {o : Oracle} {r' : Registry × List Instr}
    (hinv : Inv (view x r (i :: k))) (hissued : Issued x r (i :: k))
    (hstatus : (r.targets x).onStatus = true)
    (hregular : Regular async x ⟨r, i :: k⟩ (.step o)) (hexec : exec async r i o = some r') :
    Refines x r (i :: k) r'.1 (r'.2 ++ k) := by
  have hsame : Same x r r := .refl x r
  have hneutral : ∀ j : Instr, j.entry = none → j.reportsLoss x = false → j.Neutral x :=
    fun _ => Instr.neutral_of
  have hacquire : ∀ name, i.Neutral x → (∀ a, r.acquireArming async name o = some a →
      i.arming async r o = some a) → Refines x r (i :: k) (r.beginAcquire async name o).1.1
        ((r.beginAcquire async name o).1.2 ++ k) := by
    intro name hi harming
    refine (refines_beginAcquire async name o (by rwa [view_cons r hi] at hinv) hissued.of_cons
      fun a ha hname => ?_).cons hi
    exact (hregular.arms a (harming a ha) hname).of_cons
  cases i with
  | callback =>
    cases hexec
    exact (hsame.refines neutral_nil).cons (hneutral _ rfl rfl)
  | arm handle e =>
    cases hprobe : e.readinessOnly with
    | true =>
      rw [exec_arm_probe r handle o hprobe] at hexec
      cases hexec
      have hlog : ∀ ev ∈ .answered e.id :: firing e true, ev.Neutral x := by
        intro ev hev
        rcases List.mem_cons.mp hev with rfl | hev
        · exact ⟨by simp, rfl, rfl⟩
        · exact neutral_firing hev
      have hanswered : Same x r { r with log := r.log ++ .answered e.id :: firing e true } :=
        ⟨rfl, rfl, fun _ _ => .rfl, rfl, ⟨_, rfl, hlog⟩, le_rfl⟩
      refine (hanswered.refines fun j => neutral_userCode).cons ⟨fun h hserves => ?_, rfl⟩
      have hreal : e.readinessOnly = false := hserves.2.2
      rw [hprobe] at hreal
      cases hreal
    | false =>
      rw [exec_arm_real r handle o hprobe] at hexec
      cases hexec
      by_cases hname : e.objectName = x
      · exact refines_attach hname hprobe
      · have hlog : ∀ ev ∈ .attached e.id e.objectName handle :: firing e true, ev.Neutral x := by
          intro ev hev
          rcases List.mem_cons.mp hev with rfl | hev
          · exact ⟨by simp [hname], rfl, rfl⟩
          · exact neutral_firing hev
        have hattached : Same x r
            { r with log := r.log ++ .attached e.id e.objectName handle :: firing e true } :=
          ⟨rfl, rfl, fun _ _ => .rfl, rfl, ⟨_, rfl, hlog⟩, le_rfl⟩
        exact (hattached.refines fun j => neutral_put).cons ⟨fun h hserves => hname hserves.2.1, rfl⟩
  | pushArmed e =>
    cases hexec
    have hpush := neutral_pushArmed x e
    by_cases hname : e.objectName = x
    · obtain ⟨handle, hlookup, hserved⟩ := hregular.pushes o e rfl rfl hname
      have hbehind : Served x r k handle := by
        have hused : handle ∈ (view x r (.pushArmed e :: k)).used := hserved
        rwa [view_cons r hpush] at hused
      exact (refines_push hname hlookup hbehind).cons hpush
    · have hpushed : Same x r { r with armed := r.armed ++ [e] } := by
        refine ⟨rfl, rfl, fun e' he' => ?_, rfl, ⟨[], (List.append_nil _).symm, by simp⟩, le_rfl⟩
        have hne : e' ≠ e := by
          rintro rfl
          exact hname he'
        simp [hne]
      exact (hpushed.refines neutral_nil).cons hpush
  | abandon e =>
    rw [exec_abandon] at hexec
    cases hexec
    have hlog : ∀ ev ∈ .abandoned e.id :: firing e false, ev.Neutral x := by
      intro ev hev
      rcases List.mem_cons.mp hev with rfl | hev
      · exact ⟨by simp, rfl, rfl⟩
      · exact neutral_firing hev
    have habandoned : Same x r { r with log := r.log ++ .abandoned e.id :: firing e false } :=
      ⟨rfl, rfl, fun _ _ => .rfl, rfl, ⟨_, rfl, hlog⟩, le_rfl⟩
    exact (habandoned.refines fun j => neutral_userCode).cons ⟨fun _ => id, rfl⟩
  | report name event reason =>
    cases hexec
    by_cases hname : name = x
    · rw [hname]
      exact refines_report event reason hstatus
    · obtain ⟨hother, hstack⟩ := same_report (r := r) hname event reason
      exact (hother.refines hstack).cons (hneutral _ rfl (by simp [Instr.reportsLoss, hname]))
  | ensureTimer =>
    cases hexec
    have htimer : Same x r r.ensureTimer := by
      rw [Registry.ensureTimer_eq]
      exact .of_fields rfl rfl rfl rfl le_rfl
    exact (htimer.refines neutral_nil).cons (hneutral _ rfl rfl)
  | beginAcquire name =>
    cases hexec
    exact hacquire name (hneutral _ rfl rfl) fun a ha => ha
  | checkLiveness =>
    simp only [exec] at hexec
    split_ifs at hexec
    · cases hexec
      exact (hsame.refines neutral_nil).cons (hneutral _ rfl rfl)
    · cases hexec
      refine (hsame.refines fun j hj => ?_).cons (hneutral _ rfl rfl)
      simp only [List.mem_append, List.mem_map, List.mem_singleton] at hj
      rcases hj with ⟨name, -, rfl⟩ | rfl <;> exact hneutral _ rfl rfl
  | drop name =>
    cases hexec
    have hdrop : (Instr.drop name).Neutral x := hneutral _ rfl rfl
    by_cases hname : name = x
    · subst hname
      exact (refines_dropHandle name r k).cons hdrop
    · obtain ⟨hother, hstack⟩ := same_dropHandle (r := r) hname
      exact (hother.refines hstack).cons hdrop
  | chase name =>
    simp only [exec] at hexec
    split_ifs at hexec with hpending
    · cases hexec
      exact hacquire name (hneutral _ rfl rfl) fun a ha => (if_pos hpending).trans ha
    · cases hexec
      exact (hsame.refines neutral_nil).cons (hneutral _ rfl rfl)
  | chaseWanted =>
    simp only [exec, Option.ite_none_right_eq_some, Option.some.injEq] at hexec
    obtain ⟨-, rfl⟩ := hexec
    refine (hsame.refines fun j hj => ?_).cons (hneutral _ rfl rfl)
    obtain ⟨name, -, rfl⟩ := List.mem_map.mp hj
    exact hneutral _ rfl rfl
  | finishTick =>
    cases hexec
    have htick : Same x r (r.reportStillPending o.elapsed).rescheduleOrStop := by
      rw [Registry.rescheduleOrStop_eq]
      exact .of_fields rfl rfl rfl rfl le_rfl
    exact (htick.refines neutral_nil).cons (hneutral _ rfl rfl)

theorem same_push (x : QString) (r : Registry) (e : Entry) : Same x r (r.push e) := by
  refine ⟨rfl, rfl, fun _ _ => .rfl, rfl, ⟨[.added r.nextId], rfl, ?_⟩, le_rfl⟩
  simpa using ⟨by simp, rfl, rfl⟩

theorem same_reviveHeld (x : QString) (r : Registry) (name : QString) :
    Same x r (r.reviveHeld name).1 := by
  simp only [Registry.reviveHeld]
  split
  · exact .of_fields rfl rfl rfl rfl le_rfl
  · exact .of_fields rfl rfl rfl rfl le_rfl

/-- A new entry. -/
theorem refines_add {async : Bool} {e : Entry} {o : Oracle} (hinv : Inv (view x r k))
    (hissued : Issued x r k)
    (hregular : ∀ a, r.addArming async e o = some a → a.objectName = x → a.Regular x r k) :
    Refines x r k (r.add async e o).1 ((r.add async e o).2 ++ k) := by
  have hpush := same_push x r e
  rcases add_arming async r e o with ⟨a, ha, hr⟩ | ⟨-, acquiring, inFlight, timer, hr⟩
  · rw [hr]
    have hlive := refines_liveOrAcquire hpush hinv hissued ha (hregular a ha) neutral_nil
    rwa [List.append_nil] at hlive
  · rw [hr]
    have hwaits : Same x (r.push e) { r.push e with
        acquiring := acquiring, inFlight := inFlight, timer := timer } :=
      .of_fields rfl rfl rfl rfl le_rfl
    exact (hpush.trans hwaits).refines neutral_nil

/-- A call is a step of the provider. -/
theorem refines_call {async : Bool} {op : Op} {o : Oracle} {r' : Registry × List Instr}
    (hinv : Inv (view x r k)) (hissued : Issued x r k) (hwatch : KeepsWatch x (.call op o))
    (hregular : Regular async x ⟨r, k⟩ (.call op o)) (hcall : call async r op o = some r') :
    Refines x r k r'.1 (r'.2 ++ k) := by
  have hsame : Same x r r := .refl x r
  have hrefuse : ∀ onArmed, ∀ i ∈ (r.refuse onArmed).2, i.Neutral x := by
    intro onArmed i hi
    simp only [Registry.refuse] at hi
    split at hi
    · exact neutral_callback i hi
    · cases hi
  cases op with
  | onEventWhenAvailable objectName eventName callback onArmed =>
    simp only [call] at hcall
    split_ifs at hcall with hname
    · cases hcall
      exact hsame.refines (hrefuse onArmed)
    · cases hcall
      exact refines_add hinv hissued fun a ha => hregular.arms a ((if_neg hname).trans ha)
  | whenObjectAvailable objectName onReady =>
    simp only [call] at hcall
    split_ifs at hcall with hname
    · cases hcall
      exact hsame.refines (hrefuse _)
    · cases hcall
      exact refines_add hinv hissued fun a ha => hregular.arms a ((if_neg hname).trans ha)
  | cancelEventSubscription n =>
    cases hcall
    exact refines_cancel n
  | setSubscriptionStatusCallback objectName installed =>
    simp only [call] at hcall
    split_ifs at hcall
    · cases hcall
      exact hsame.refines neutral_nil
    · cases hcall
      have hname : objectName ≠ x := hwatch
      have htarget : Same x r (r.setTarget objectName
          { r.targets objectName with onStatus := installed }) := by
        have hsame : Function.update r.targets objectName
            { r.targets objectName with onStatus := installed } x = r.targets x :=
          Function.update_of_ne hname.symm _ _
        exact ⟨congrArg _ hsame, congrArg _ hsame, fun _ _ => .rfl, rfl,
          ⟨[], (List.append_nil _).symm, by simp⟩, le_rfl⟩
      simp only [Registry.setStatusCallback]
      split_ifs
      · obtain ⟨hother, hstack⟩ := same_report hname .armed []
        exact (htarget.trans hother).refines hstack
      · obtain ⟨hother, hstack⟩ := same_report hname .held (qstr "provider_unavailable")
        exact (htarget.trans hother).refines hstack
      · exact htarget.refines neutral_nil
  | setSubscriptionRestartPolicy objectName policy =>
    simp only [call] at hcall
    split_ifs at hcall
    · cases hcall
      exact hsame.refines neutral_nil
    · cases hcall
      have htarget : Same x r (r.setRestartPolicy objectName policy) := by
        refine ⟨?_, ?_, fun _ _ => .rfl, rfl, ⟨[], (List.append_nil _).symm, by simp⟩, le_rfl⟩
        all_goals
          by_cases hname : x = objectName
          · subst hname
            simp [Registry.setRestartPolicy, Registry.setTarget]
          · simp [Registry.setRestartPolicy, Registry.setTarget, hname]
      exact htarget.refines neutral_nil
  | rearmSubscriptions objectName =>
    simp only [call] at hcall
    split_ifs at hcall with hname
    · cases hcall
      exact hsame.refines neutral_nil
    · cases hcall
      have hrevive := same_reviveHeld x r objectName
      have htimer : ∀ i ∈ [Instr.ensureTimer], i.Neutral x := by
        simpa using Instr.neutral_of rfl rfl
      rcases rearm_arming async r objectName o with
        ⟨-, -, hr⟩ | ⟨a, ha, hr⟩ | ⟨-, acquiring, inFlight, hr⟩
      · rw [hr]
        exact hrevive.refines neutral_nil
      · rw [hr]
        have hlive := (Option.ite_none_right_eq_some.mp ha).2
        exact refines_liveOrAcquire hrevive hinv hissued hlive
          (hregular.arms a ((if_neg hname).trans ha)) htimer
      · rw [hr]
        have hwaits : Same x (r.reviveHeld objectName).1 { (r.reviveHeld objectName).1 with
            acquiring := acquiring, inFlight := inFlight } := .of_fields rfl rfl rfl rfl le_rfl
        exact (hrevive.trans hwaits).refines htimer
  | reconnect =>
    exact refines_reconnected (hregular.reconnects o rfl) hcall
  | tick =>
    cases hcall
    refine hsame.refines fun i hi => ?_
    simp only [List.mem_cons, List.not_mem_nil, or_false] at hi
    rcases hi with rfl | rfl | rfl <;> exact Instr.neutral_of rfl rfl
  | acquired objectName ok =>
    simp only [call, Option.ite_none_right_eq_some, Option.some.injEq] at hcall
    obtain ⟨-, rfl⟩ := hcall
    simp only [Registry.acquired]
    split_ifs with hhandle
    · have hdone : Same x r (r.acquiredArming objectName).registry :=
        .of_fields rfl rfl rfl rfl (Nat.le_succ _)
      have hrun := refines_run hdone (.inr ⟨le_rfl, Nat.lt_succ_self _⟩) hinv hissued
        (hregular.arms _ (if_pos hhandle)) neutral_nil
      rwa [List.append_nil] at hrun
    · have hdone : Same x r { r with
          inFlight := r.inFlight.erase objectName
          acquiring := Function.update r.acquiring objectName false } :=
        .of_fields rfl rfl rfl rfl le_rfl
      exact refines_abandon hdone objectName
  | setValid handle valid =>
    cases hcall
    have hvalid : Same x r { r with valid := Function.update r.valid handle valid } :=
      .of_fields rfl rfl rfl rfl le_rfl
    exact hvalid.refines neutral_nil

end steps

/-! ## Runs -/

/-- What holds of a watched object along a run in order. -/
structure Watched (x : QString) (c : Program.Config Registry Instr) : Prop where
  inv : Inv (view x c.data c.stack)
  issued : Issued x c.data c.stack
  onStatus : (c.data.targets x).onStatus = true

section runs
variable {async : Bool} {x : QString} {c c' : Program.Config Registry Instr}
  {a : Program.Action Op Oracle}

theorem Watched.refines (h : Watched x c)
    (hrefines : Refines x c.data c.stack c'.data c'.stack) : Watched x c' where
  inv := h.inv.step hrefines.step
  issued := by
    have hstored : ∀ handle, c'.data.handles.lookup x = some handle →
        handle < c'.data.nextHandle := fun handle hlookup =>
      (hrefines.stored handle hlookup).elim
        (fun hlookup => (h.issued.stored handle hlookup).trans_le hrefines.nextHandle) id
    refine ⟨hstored, fun handle hserved => ?_⟩
    rcases hrefines.step.used hserved with hused | hlookup
    · exact (h.issued.used handle hused).trans_le hrefines.nextHandle
    · exact hstored handle hlookup
  onStatus := hrefines.onStatus.trans h.onStatus

/-- One step of a run in order. -/
theorem Watched.next (h : Watched x c) (hwatch : KeepsWatch x a) (hregular : Regular async x c a)
    (hstep : (program async).next c a = some c') :
    Refines x c.data c.stack c'.data c'.stack := by
  cases a with
  | call op o =>
    obtain ⟨r, hr, rfl⟩ := Program.next_call hstep
    exact refines_call h.inv h.issued hwatch hregular hr
  | step o =>
    obtain ⟨i, k, r, hstack, hr, rfl⟩ := Program.next_step hstep
    obtain ⟨data, stack⟩ := c
    obtain rfl : stack = i :: k := hstack
    exact refines_exec h.inv h.issued h.onStatus hregular hr

/-- A step appends to the log. -/
theorem next_log (hstep : (program async).next c a = some c') :
    ∃ es, c'.data.log = c.data.log ++ es := by
  cases a with
  | call op o =>
    obtain ⟨r, hr, rfl⟩ := Program.next_call hstep
    exact (call_attaches hr).imp fun _ => And.left
  | step o =>
    obtain ⟨i, k, r, -, hr, rfl⟩ := Program.next_step hstep
    exact (exec_attaches hr).imp fun _ => And.left

/-- The registry when a status callback has just been installed. -/
theorem watched_initial (hx : x ≠ []) {o : Oracle} (h : (program async).next ⟨{}, []⟩
    (.call (.setSubscriptionStatusCallback x true) o) = some c) : Watched x c := by
  obtain ⟨r, hr, rfl⟩ := Program.next_call h
  have hcall : call async {} (.setSubscriptionStatusCallback x true) o =
      some (Registry.setTarget {} x { onStatus := true }, []) := if_neg hx
  obtain rfl : (Registry.setTarget {} x { onStatus := true }, []) = r :=
    Option.some.inj (hcall.symm.trans hr)
  refine ⟨⟨?_, fun hne => absurd rfl hne, Nat.zero_le 1⟩, ⟨?_, ?_⟩, ?_⟩
  · rintro ⟨n, e, he, -⟩
    cases he
  · intro handle hlookup
    cases hlookup
  · rintro handle (⟨n, hin⟩ | ⟨i, hi, -⟩)
    · cases hin
    · cases hi
  · simp [Registry.setTarget]

end runs

/-! ## The law -/

/-- A handle comes to carry its first subscription to the object. -/
def Establishes (x : QString) (c c' : Program.Config Registry Instr) : Prop :=
  ∃ handle, ¬ Served x c.data c.stack handle ∧ Served x c'.data c'.stack handle

/-- The step reports an Armed edge. -/
def TellsArmed (x : QString) (g : ℕ) (c c' : Program.Config Registry Instr) : Prop :=
  ∃ reason, c'.data.log = c.data.log ++ [.edge x .armed g reason]

/-- A Lost or a Held edge of a generation. -/
def Event.loses (x : QString) (g : ℕ) : Event → Bool
  | .edge name .lost generation _ | .edge name .held generation _ => name = x ∧ generation = g
  | _ => false

/-- The runs that the law is about. -/
def watchedRuns (async : Bool) (x : QString) :
    TransitionSystem (Program.Config Registry Instr) (Program.Action Op Oracle) :=
  (program async).system.restrict fun c a => KeepsWatch x a ∧ Regular async x c a

section law
variable {async : Bool} {x : QString} {c c' d d' : Program.Config Registry Instr}
  {a b : Program.Action Op Oracle} {as : List (Program.Action Op Oracle)}

/-- The losses that are told, read off the log. -/
theorem lossesTold_filterMap (x : QString) (g : ℕ) (es : List Event) :
    lossesTold (es.filterMap (Event.told x)) g = es.countP (Event.loses x g) := by
  rw [lossesTold, List.countP_filterMap]
  refine List.countP_congr fun e _ => ?_
  cases e with
  | edge name event generation reason =>
    by_cases hname : name = x
    · cases event <;> simp [Event.told, Event.loses, SubscriptionEvent.edge, Establishment.isLoss, hname]
    · cases event <;> simp [Event.told, Event.loses, hname]
  | _ => rfl

theorem view_edges (x : QString) {es : List Event} (k k' : List Instr) (h : d.data.log = c.data.log ++ es) :
    (view x d.data k').edges = (view x c.data k).edges ++ es.filterMap (Event.told x) := by
  simp only [view, h, List.filterMap_append]

theorem Watched.run (h : Watched x c) (hrun : (watchedRuns async x).Run c as d) : Watched x d := by
  refine hrun.invariant (I := Watched x) ?_ h
  rintro s b s' hs ⟨hstep, hwatch, hregular⟩
  exact hs.refines (hs.next hwatch hregular hstep)

/-- The generation counts the handles that carried a subscription. -/
theorem Watched.generation (h : Watched x c) (hstep : (watchedRuns async x).step c a c') :
    (Establishes x c c' →
      (c'.data.targets x).generation = (c.data.targets x).generation + 1) ∧
    (¬ Establishes x c c' → (c'.data.targets x).generation = (c.data.targets x).generation) := by
  obtain ⟨hnext, hwatch, hregular⟩ := hstep
  rcases (h.next hwatch hregular hnext).step.generation with ⟨hg, handle, hnew, hused⟩ | ⟨hg, hused⟩
  · refine ⟨fun _ => hg, fun hnot => absurd ⟨handle, hnew, ?_⟩ hnot⟩
    have hin : handle ∈ (view x c'.data c'.stack).used := hused ▸ Set.mem_insert _ _
    exact hin
  · refine ⟨fun ⟨handle, hnew, hserved⟩ => absurd ?_ hnew, fun _ => hg⟩
    have hin : handle ∈ (view x c'.data c'.stack).used := hserved
    rwa [hused] at hin

/-- A subscription since an Armed edge. -/
theorem Watched.tracked (h : Watched x c) {n g : ℕ} (hin : n ∈ (view x c.data c.stack).armed)
    (hg : (c.data.targets x).generation = g) (hrun : (watchedRuns async x).Run c as d)
    (hkept : .cancelled n ∉ d.data.log) : ∃ es, d.data.log = c.data.log ++ es ∧
      Tracked g n (es.filterMap (Event.told x)) (view x d.data d.stack) := by
  refine (hrun.invariant (I := fun d => Watched x d ∧ ∃ es, d.data.log = c.data.log ++ es ∧
    (.cancelled n ∉ d.data.log →
      Tracked g n (es.filterMap (Event.told x)) (view x d.data d.stack))) ?_ ?_).2.imp
    fun es hes => ⟨hes.1, hes.2 hkept⟩
  · rintro s b s' ⟨hs, es, hlog, htracked⟩ ⟨hstep, hwatch, hregular⟩
    have hrefines := hs.next hwatch hregular hstep
    obtain ⟨es', hlog'⟩ := next_log hstep
    refine ⟨hs.refines hrefines, es ++ es', by rw [hlog', hlog, List.append_assoc], fun hkept => ?_⟩
    have hbefore : .cancelled n ∉ s.data.log := fun hin =>
      hkept (hlog' ▸ List.mem_append_left es' hin)
    have hcancelled : n ∉ (view x s'.data s'.stack).cancelled := by
      intro hin
      obtain ⟨e, he, hcancels⟩ := List.mem_filterMap.mp hin
      cases e with
      | cancelled m =>
        obtain rfl : m = n := Option.some.inj hcancels
        exact hkept he
      | _ => cases hcancels
    obtain ⟨told, hedges, htold⟩ := (htracked hbefore).step hs.inv hrefines.step hcancelled
    rw [view_edges x s.stack s'.stack hlog'] at hedges
    obtain rfl := List.append_cancel_left hedges
    rwa [List.filterMap_append]
  · exact ⟨h, [], (List.append_nil _).symm, fun _ => .inl ⟨hg, hin, rfl⟩⟩

/-- **The generation and edge law, in runs that are in order.**  The generation goes up by one in
the steps in which a handle comes to carry its first subscription, and in no others.  A
subscription that is armed when an Armed edge is reported, and that is not cancelled, sees one
Lost or Held edge of that generation before an Armed edge of a later one. -/
theorem generation_law (hx : x ≠ []) {o : Oracle} {c₀ : Program.Config Registry Instr}
    (hwatch : (program async).next ⟨{}, []⟩
      (.call (.setSubscriptionStatusCallback x true) o) = some c₀)
    (hrun : (watchedRuns async x).Run c₀ as c) (hstep : (watchedRuns async x).step c a c') :
    ((Establishes x c c' →
        (c'.data.targets x).generation = (c.data.targets x).generation + 1) ∧
      (¬ Establishes x c c' →
        (c'.data.targets x).generation = (c.data.targets x).generation)) ∧
    ∀ n g g' bs d b d', TellsArmed x g c c' →
      (∃ e ∈ c.data.armed, e.objectName = x ∧ e.id = n) →
      (watchedRuns async x).Run c' bs d → (watchedRuns async x).step d b d' →
      TellsArmed x g' d d' → g < g' → .cancelled n ∉ d'.data.log →
      ∃ es, d.data.log = c'.data.log ++ es ∧ es.countP (Event.loses x g) = 1 := by
  have hc : Watched x c := (watched_initial hx hwatch).run hrun
  refine ⟨hc.generation hstep, ?_⟩
  rintro n g g' bs d b d' ⟨reason, harmed⟩ hn hrun' hstep' ⟨reason', harmed'⟩ hg hkept
  have htold : ∀ s reason, [Event.edge x .armed s reason].filterMap (Event.told x) =
      [(.established, s)] := fun s reason => by simp [Event.told, SubscriptionEvent.edge]
  obtain ⟨hnext, hw, hregular⟩ := hstep
  have hrefines := hc.next hw hregular hnext
  have hedges := view_edges x c.stack c'.stack harmed
  rw [htold] at hedges
  obtain ⟨-, hgeneration, hsame⟩ := hrefines.step.told hedges nofun
  have hc' := hc.refines hrefines
  have hd := hc'.run hrun'
  obtain ⟨hnext', hw', hregular'⟩ := hstep'
  have hedges' := view_edges x d.stack d'.stack harmed'
  rw [htold] at hedges'
  obtain ⟨hlater, -, -⟩ := (hd.next hw' hregular' hnext').step.told hedges' nofun
  have hin : n ∈ (view x c'.data c'.stack).armed := hsame ▸ hn
  obtain ⟨es, hlog, htracked⟩ := hc'.tracked hin hgeneration hrun' fun hin =>
    hkept (harmed' ▸ List.mem_append_left _ hin)
  refine ⟨es, hlog, ?_⟩
  rw [← lossesTold_filterMap]
  exact htracked.lossesTold_eq (hg.trans_eq hlater.symm)

end law

/-! ## A run -/

/-- A step that arms nothing, puts nothing down and is no reconnect. -/
theorem Regular.of_quiet {async : Bool} {x : QString} {c : Program.Config Registry Instr}
    {a : Program.Action Op Oracle} (harming : arming async c a = none)
    (hpush : ∀ e, c.stack.head? ≠ some (.pushArmed e))
    (hconnected : ∀ o, a ≠ .call .reconnect o) : Regular async x c a where
  arms b hb := by
    rw [harming] at hb
    cases hb
  pushes _ e _ hhead := absurd hhead (hpush e)
  reconnects o ha := absurd ha (hconnected o)

/-- A step of the loop that puts an entry down. -/
theorem Regular.of_push {async : Bool} {x : QString} {c : Program.Config Registry Instr} {e : Entry}
    {o : Oracle} {handle : ℕ} (hhead : c.stack.head? = some (.pushArmed e))
    (hlookup : c.data.handles.lookup x = some handle)
    (hserved : ∃ n, .attached n x handle ∈ c.data.log) : Regular async x c (.step o) where
  arms b hb := by
    rw [arming, hhead] at hb
    cases hb
  pushes _ _ _ _ _ := ⟨handle, hlookup, .inl hserved⟩
  reconnects o ha := by cases ha

/-- A call of `armAgainst` when no handle is stored. -/
theorem Arming.Regular.of_none {x : QString} {r : Registry} {k : List Instr} {a : Arming}
    (hlookup : a.registry.handles.lookup x = none) (htold : ¬ Untold x k) : a.Regular x r k where
  unused _ handle hstored := by
    rw [hlookup] at hstored
    cases hstored
  noticed := by
    rintro ⟨handle, hstored, -⟩
    rw [hlookup] at hstored
    cases hstored
  told _ := htold

theorem Regular.of_arming {async : Bool} {x : QString} {c : Program.Config Registry Instr}
    {a : Program.Action Op Oracle} {b : Arming} (harming : arming async c a = some b)
    (hb : b.Regular x c.data c.stack) (hpush : ∀ e, c.stack.head? ≠ some (.pushArmed e))
    (hconnected : ∀ o, a ≠ .call .reconnect o) : Regular async x c a where
  arms b' hb' _ := by
    obtain rfl := Option.some.inj (harming.symm.trans hb')
    exact hb
  pushes _ e _ hhead := absurd hhead (hpush e)
  reconnects o ha := absurd ha (hconnected o)

/-- A wallet is watched. -/
def watchedWallet : Program.Config Registry Instr :=
  ((program true).next ⟨{}, []⟩
    (.call (.setSubscriptionStatusCallback (qstr "wallet") true) {})).get rfl

/-- A subscription arms against its handle; the Armed edge is next. -/
def armingWallet : Program.Config Registry Instr :=
  (TransitionSystem.exec (program true).next watchedWallet
    [.call (.onEventWhenAvailable (qstr "wallet") [] 7 none) { now := true }, .step {},
      .step {}]).get rfl

def armedWallet : Program.Config Registry Instr :=
  ((program true).next armingWallet (.step {})).get rfl

/-- The handle dies, and a tick finds another one; its Armed edge is next. -/
def rearmingWallet : Program.Config Registry Instr :=
  (TransitionSystem.exec (program true).next armedWallet
    [.step {}, .step {}, .call (.setValid 0 false) {}, .call .tick {},
      .step { order := [qstr "wallet"] }, .step {}, .step {}, .step {}, .step { now := true },
      .step {}, .step {}]).get rfl

def rearmedWallet : Program.Config Registry Instr :=
  ((program true).next rearmingWallet (.step {})).get rfl

/-- From the first Armed edge to the second there is one loss. -/
theorem generation_law_rearmed : TellsArmed (qstr "wallet") 1 armingWallet armedWallet ∧
    TellsArmed (qstr "wallet") 2 rearmingWallet rearmedWallet ∧
    ∃ es, rearmingWallet.data.log = armedWallet.data.log ++ es ∧
      es.countP (Event.loses (qstr "wallet") 1) = 1 := by
  have hnone : ∀ k : List Instr, (k.all fun i => ¬ i.reportsLoss (qstr "wallet")) = true →
      ¬ Untold (qstr "wallet") k := by
    rintro k hall ⟨i, hi, hloss⟩
    have hnot := List.all_eq_true.mp hall i hi
    simp [hloss] at hnot
  have hr₀ : (watchedRuns true (qstr "wallet")).Run watchedWallet [] _ := .nil _
  have hr₁ := hr₀.next (.call (.onEventWhenAvailable (qstr "wallet") [] 7 none) { now := true })
    ⟨trivial, .of_arming rfl (.of_none rfl (hnone _ rfl)) nofun nofun⟩ rfl
  have hr₂ := hr₁.next (.step {}) ⟨trivial, .of_quiet rfl nofun nofun⟩ rfl
  have hr₃ : (watchedRuns true (qstr "wallet")).Run watchedWallet _ armingWallet :=
    hr₂.next (.step {}) ⟨trivial, .of_push rfl rfl ⟨1, by decide⟩⟩ rfl
  have hs₃ : (watchedRuns true (qstr "wallet")).step armingWallet (.step {}) armedWallet :=
    ⟨rfl, trivial, .of_quiet rfl nofun nofun⟩
  have hd₀ : (watchedRuns true (qstr "wallet")).Run armedWallet [] _ := .nil _
  have hd₁ := hd₀.next (.step {}) ⟨trivial, .of_quiet rfl nofun nofun⟩ rfl
  have hd₂ := hd₁.next (.step {}) ⟨trivial, .of_quiet rfl nofun nofun⟩ rfl
  have hd₃ := hd₂.next (.call (.setValid 0 false) {}) ⟨trivial, .of_quiet rfl nofun nofun⟩ rfl
  have hd₄ := hd₃.next (.call .tick {}) ⟨trivial, .of_quiet rfl nofun nofun⟩ rfl
  have hd₅ := hd₄.next (.step { order := [qstr "wallet"] })
    ⟨trivial, .of_quiet rfl nofun nofun⟩ rfl
  have hd₆ := hd₅.next (.step {}) ⟨trivial, .of_quiet rfl nofun nofun⟩ rfl
  have hd₇ := hd₆.next (.step {}) ⟨trivial, .of_quiet rfl nofun nofun⟩ rfl
  have hd₈ := hd₇.next (.step {}) ⟨trivial, .of_quiet rfl nofun nofun⟩ rfl
  have hd₉ := hd₈.next (.step { now := true })
    ⟨trivial, .of_arming rfl (.of_none rfl (hnone _ rfl)) nofun nofun⟩ rfl
  have hd₁₀ := hd₉.next (.step {}) ⟨trivial, .of_quiet rfl nofun nofun⟩ rfl
  have hd₁₁ : (watchedRuns true (qstr "wallet")).Run armedWallet _ rearmingWallet :=
    hd₁₀.next (.step {}) ⟨trivial, .of_push rfl rfl ⟨1, by decide⟩⟩ rfl
  have hs₁₁ : (watchedRuns true (qstr "wallet")).step rearmingWallet (.step {}) rearmedWallet :=
    ⟨rfl, trivial, .of_quiet rfl nofun nofun⟩
  have harmed : TellsArmed (qstr "wallet") 1 armingWallet armedWallet := ⟨[], rfl⟩
  have hrearmed : TellsArmed (qstr "wallet") 2 rearmingWallet rearmedWallet := ⟨[], rfl⟩
  have hwatch : (program true).next ⟨{}, []⟩
      (.call (.setSubscriptionStatusCallback (qstr "wallet") true) {}) = some watchedWallet := rfl
  have hlaw := (generation_law (by decide) hwatch hr₃ hs₃).2 1 1 2 _ _ _ _ harmed
    ⟨_, List.mem_cons_self, rfl, rfl⟩ hd₁₁ hs₁₁ hrearmed (by decide) (by decide)
  exact ⟨harmed, hrearmed, hlaw⟩

/-- All runs in which the object stays watched. -/
def allWatchedRuns (async : Bool) (x : QString) :
    TransitionSystem (Program.Config Registry Instr) (Program.Action Op Oracle) :=
  (program async).system.restrict fun _ a => KeepsWatch x a

/-- The wallet's subscription is armed and told. -/
def settledWallet : Program.Config Registry Instr :=
  (TransitionSystem.exec (program true).next armedWallet [.step {}, .step {}]).get rfl

/-- Another subscription arms against the same handle. -/
def bumpedWallet : Program.Config Registry Instr :=
  ((program true).next settledWallet
    (.call (.onEventWhenAvailable (qstr "wallet") [] 8 none) {})).get rfl

/-- A second subscription to the wallet on its live handle takes the generation from 1 to 2. -/
theorem generation_bumped : ∃ o as a, (program true).next ⟨{}, []⟩
      (.call (.setSubscriptionStatusCallback (qstr "wallet") true) o) = some watchedWallet ∧
    (allWatchedRuns true (qstr "wallet")).Run watchedWallet as settledWallet ∧
    (allWatchedRuns true (qstr "wallet")).step settledWallet a bumpedWallet ∧
    ¬ (¬ Establishes (qstr "wallet") settledWallet bumpedWallet →
      (bumpedWallet.data.targets (qstr "wallet")).generation =
        (settledWallet.data.targets (qstr "wallet")).generation) := by
  have hr₀ : (allWatchedRuns true (qstr "wallet")).Run watchedWallet [] _ := .nil _
  have hr₁ := hr₀.next (.call (.onEventWhenAvailable (qstr "wallet") [] 7 none) { now := true })
    trivial rfl
  have hr₂ := hr₁.next (.step {}) trivial rfl
  have hr₃ := hr₂.next (.step {}) trivial rfl
  have hr₄ := hr₃.next (.step {}) trivial rfl
  have hr₅ := hr₄.next (.step {}) trivial rfl
  have hr₆ : (allWatchedRuns true (qstr "wallet")).Run watchedWallet _ settledWallet :=
    hr₅.next (.step {}) trivial rfl
  refine ⟨{}, _, .call (.onEventWhenAvailable (qstr "wallet") [] 8 none) {}, rfl, hr₆,
    ⟨rfl, trivial⟩, fun hclaim => ?_⟩
  have hnot : ¬ Establishes (qstr "wallet") settledWallet bumpedWallet := by
    have hserved : Served (qstr "wallet") settledWallet.data settledWallet.stack 0 :=
      .inl ⟨1, by decide⟩
    have hstack : bumpedWallet.stack = [.arm 0 ⟨2, qstr "wallet", [], some 8, none, false, 0, false⟩,
      .report (qstr "wallet") .armed [], .ensureTimer] := rfl
    have hlog : bumpedWallet.data.log = settledWallet.data.log ++ [.added 2] := rfl
    rintro ⟨handle, hnew, ⟨n, hin⟩ | ⟨i, hi, hserves⟩⟩
    · rw [hlog, List.mem_append, List.mem_singleton] at hin
      exact hnew (.inl ⟨n, hin.resolve_right nofun⟩)
    · rw [hstack] at hi
      simp only [List.mem_cons, List.not_mem_nil, or_false] at hi
      rcases hi with rfl | rfl | rfl
      · exact hnew (hserves.1 ▸ hserved)
      · exact hserves
      · exact hserves
  have hbumped := hclaim hnot
  revert hbumped
  decide

end LogosProtocol.PendingSubscriptions
