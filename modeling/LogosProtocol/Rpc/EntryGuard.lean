import LogosProtocol.Lib.Tally
import LogosProtocol.Lib.TransitionSystem

/-!
# The live references of a handle

Every entry point of `PlainLogosObject` holds an `EntryGuard`, which takes a live reference first
and drops it last; `release()` drops the owner's.  Whoever takes the count to zero deletes the
object.  Each atomic operation of a guard and of `release()` is one step; a thread runs the frame
it entered last, and a frame that calls out waits for those above it.

The client's side of the contract is `Contract`: one `release()`, and every outermost guard
constructed before it starts.

## Main definitions

* `Frame` — a guard or `release()`, with the operation it does next.
* `Frame.step` — that operation.
* `handle` — any number of threads on one handle.
* `Contract` — what the client promises.
-/

namespace LogosProtocol.EntryGuard

/-! ## Frames -/

/-- The next operation of a guard. -/
inductive GuardPc
  /-- `m_liveRefs.fetch_add(1)` -/
  | acquire
  /-- `m_callsInFlight.fetch_add(1)` -/
  | count
  /-- `m_lastEntryPoint.exchange(entryPoint)` -/
  | exchange
  /-- `m_released.load()` -/
  | check
  /-- The entry point runs. -/
  | inside
  /-- `m_lastEntryPoint.store(m_prev)` -/
  | restore
  /-- `m_callsInFlight.fetch_sub(1)` -/
  | uncount
  /-- `m_liveRefs.fetch_sub(1)` -/
  | drop
  /-- `delete obj` -/
  | delete
  deriving DecidableEq

/-- The next operation of `release()`. -/
inductive ReleasePc
  /-- `m_released.store(true)` -/
  | raise
  | disconnectEventsImpl
  | stopAndCancelCalls
  /-- `m_liveRefs.fetch_sub(1)` -/
  | drop
  /-- `delete this` -/
  | delete
  deriving DecidableEq

/-- One activation on a thread. -/
inductive Frame
  | guard (entryPoint : String) (prev : Option String) (pc : GuardPc)
  | release (pc : ReleasePc)
  deriving DecidableEq

namespace Frame

def isGuard : Frame → Bool
  | guard .. => true
  | release _ => false

/-- The guard is being constructed. -/
def constructing : Frame → Bool
  | guard _ _ .acquire | guard _ _ .count | guard _ _ .exchange | guard _ _ .check => true
  | _ => false

/-- The frame owns a live reference. -/
def holds : Frame → Bool
  | guard _ _ .acquire | guard _ _ .delete | release .delete => false
  | _ => true

/-- The guard is counted as a call in flight. -/
def counted : Frame → Bool
  | guard _ _ .exchange | guard _ _ .check | guard _ _ .inside | guard _ _ .restore
  | guard _ _ .uncount => true
  | _ => false

/-- The frame has taken the count to zero and deletes the object next. -/
def deleting : Frame → Bool
  | guard _ _ .delete | release .delete => true
  | _ => false

/-- The frame runs code that may enter the object again. -/
def callsOut : Frame → Bool
  | guard _ _ .inside | release .disconnectEventsImpl | release .stopAndCancelCalls => true
  | _ => false

end Frame

/-! ## The object -/

/-- The members of the object.  How often it was deleted, whether `release()` was called and
which entry points were reported are recorded here too. -/
structure Shared where
  liveRefs : ℕ := 1
  callsInFlight : ℕ := 0
  lastEntryPoint : Option String := none
  released : Bool := false
  releaseCalled : Bool := false
  deletes : ℕ := 0
  reported : List String := []

/-- Drop a reference, and go on to delete the object if it was the last one. -/
def Shared.dropRef (s : Shared) (last : Frame) : Shared × Option Frame :=
  if s.liveRefs = 1 then ({ s with liveRefs := 0 }, some last)
  else ({ s with liveRefs := s.liveRefs - 1 }, none)

/-- The next operation of a frame on a thread with `depth` guards: what it does to the object,
and the frame afterwards, if it goes on.  A frame that is inside the entry point has none. -/
def Frame.step (depth : ℕ) (s : Shared) : Frame → Option (Shared × Option Frame)
  | guard entryPoint prev pc =>
    match pc with
    | .acquire => some ({ s with liveRefs := s.liveRefs + 1 }, guard entryPoint prev .count)
    | .count => some ({ s with callsInFlight := s.callsInFlight + 1 }, guard entryPoint prev .exchange)
    | .exchange =>
      some ({ s with lastEntryPoint := entryPoint }, guard entryPoint s.lastEntryPoint .check)
    | .check =>
      -- Only a fresh entry is reported.
      if depth = 1 ∧ s.released = true then
        some ({ s with reported := s.reported ++ [entryPoint] }, guard entryPoint prev .inside)
      else some (s, guard entryPoint prev .inside)
    | .inside => none
    | .restore => some ({ s with lastEntryPoint := prev }, guard entryPoint prev .uncount)
    | .uncount => some ({ s with callsInFlight := s.callsInFlight - 1 }, guard entryPoint prev .drop)
    | .drop => some (s.dropRef (guard entryPoint prev .delete))
    | .delete => some ({ s with deletes := s.deletes + 1 }, none)
  | release pc =>
    match pc with
    | .raise => some ({ s with released := true }, release .disconnectEventsImpl)
    | .disconnectEventsImpl => some (s, release .stopAndCancelCalls)
    | .stopAndCancelCalls => some (s, release .drop)
    | .drop => some (s.dropRef (release .delete))
    | .delete => some ({ s with deletes := s.deletes + 1 }, none)

/-! ## Threads -/

variable {Thread : Type}

/-- The object, and the frames of each thread, the last one first. -/
structure State (Thread : Type) where
  shared : Shared := {}
  frames : Thread → List Frame := fun _ => []

inductive Action (Thread : Type)
  /-- An entry point is called. -/
  | enter (t : Thread) (entryPoint : String)
  /-- The entry point is done. -/
  | leave (t : Thread)
  /-- `release()` is called. -/
  | release (t : Thread)
  /-- The last frame does its next operation. -/
  | step (t : Thread)

namespace State

/-- The thread is free, or its last frame calls out. -/
def mayCall (s : State Thread) (t : Thread) : Bool := (s.frames t).head?.all Frame.callsOut

variable [DecidableEq Thread]

def setFrames (s : State Thread) (t : Thread) (frames : List Frame) : State Thread :=
  { s with frames := Function.update s.frames t frames }

@[simp] theorem shared_setFrames (s : State Thread) (t : Thread) (frames : List Frame) :
    (s.setFrames t frames).shared = s.shared := rfl

@[simp] theorem frames_setFrames_self (s : State Thread) (t : Thread) (frames : List Frame) :
    (s.setFrames t frames).frames t = frames := Function.update_self ..

theorem frames_setFrames_of_ne (s : State Thread) {t t' : Thread} (h : t' ≠ t)
    (frames : List Frame) : (s.setFrames t frames).frames t' = s.frames t' :=
  Function.update_of_ne h ..

def next (s : State Thread) : Action Thread → Option (State Thread)
  | .enter t entryPoint =>
    if s.mayCall t then some (s.setFrames t (.guard entryPoint none .acquire :: s.frames t)) else none
  | .leave t =>
    match s.frames t with
    | .guard entryPoint prev .inside :: rest =>
      some (s.setFrames t (.guard entryPoint prev .restore :: rest))
    | _ => none
  | .release t =>
    if s.mayCall t then
      some { (s.setFrames t (.release .raise :: s.frames t)) with
        shared := { s.shared with releaseCalled := true } }
    else none
  | .step t =>
    match s.frames t with
    | [] => none
    | frame :: rest =>
      (frame.step ((frame :: rest).countP Frame.isGuard) s.shared).map fun r =>
        { (s.setFrames t (r.2.toList ++ rest)) with shared := r.1 }

end State

/-- Any number of threads on one handle. -/
def handle (Thread : Type) [DecidableEq Thread] : TransitionSystem (State Thread) (Action Thread) :=
  .ofNext {} State.next

/-- What the client promises: no outermost guard is constructed once `release()` was called, which
happens once. -/
def Contract (s : State Thread) : Action Thread → Prop
  | .enter t _ => s.shared.releaseCalled = true → (s.frames t).any Frame.isGuard = true
  | .release _ => s.shared.releaseCalled = false ∧
      ∀ t frame, s.frames t = [frame] → frame.constructing = false
  | .leave _ | .step _ => True

/-! ## What a step changes -/

/-- How many frames of a thread are of a kind. -/
def State.weight (s : State Thread) (p : Frame → Bool) (t : Thread) : ℕ := (s.frames t).countP p

/-- Replacing the frames of one thread changes a counter by the difference. -/
theorem tally_setFrames [DecidableEq Thread] {s : State Thread} {p : Frame → Bool} {t : Thread} {frames : List Frame}
    {n n' : ℕ} (h : Tally n (s.weight p))
    (hn : n' + (s.frames t).countP p = n + frames.countP p) :
    Tally n' ((s.setFrames t frames).weight p) := by
  have hweight : (s.setFrames t frames).weight p =
      Function.update (s.weight p) t (frames.countP p) := by
    funext t'
    by_cases heq : t' = t
    · rw [heq]
      simp [State.weight]
    · simp [State.weight, s.frames_setFrames_of_ne heq, heq]
  rw [hweight]
  exact h.update hn

/-- One if the object is about to be deleted, or is. -/
def Shared.doomed (s : Shared) : ℕ := if s.liveRefs = 0 then 1 else 0

/-- The owner's reference, until `release()` is called. -/
def Shared.owner (s : Shared) : ℕ := if s.releaseCalled then 0 else 1

/-- A frame's operation keeps the books: what the frame gains or loses the counters do. -/
structure Frame.Balanced (frame : Frame) (s s' : Shared) (frame' : Option Frame) : Prop where
  holds : s'.liveRefs + [frame].countP Frame.holds = s.liveRefs + frame'.toList.countP Frame.holds
  counted : s'.callsInFlight + [frame].countP Frame.counted =
    s.callsInFlight + frame'.toList.countP Frame.counted
  deleting : s'.deletes + frame'.toList.countP Frame.deleting + s.doomed =
    s.deletes + [frame].countP Frame.deleting + s'.doomed
  releaseCalled : s'.releaseCalled = s.releaseCalled

/-- The drop of a reference, by a frame that holds one. -/
theorem Shared.dropRef_balanced {s : Shared} (hrefs : s.liveRefs ≠ 0) {frame last : Frame}
    (hholds : frame.holds = true) (hcounted : frame.counted = false)
    (hdeleting : frame.deleting = false) (hlast : last.deleting = true)
    (hlast' : last.holds = false) (hlast'' : last.counted = false) :
    frame.Balanced s (s.dropRef last).1 (s.dropRef last).2 := by
  simp only [dropRef]
  split_ifs with hone
  · refine ⟨?_, ?_, ?_, rfl⟩
    · simp [hholds, hlast', hone]
    · simp [hcounted, hlast'']
    · simp [hdeleting, hlast, doomed, hone]
  · have hleft : s.liveRefs - 1 ≠ 0 := by omega
    refine ⟨?_, ?_, ?_, rfl⟩
    · simp only [List.countP_singleton, hholds, if_true, Option.toList_none, List.countP_nil]
      omega
    · simp [hcounted]
    · simp [hdeleting, doomed, hrefs, hleft]

theorem Frame.step_balanced {frame : Frame} {depth : ℕ} {s s' : Shared} {frame' : Option Frame}
    (h : frame.step depth s = some (s', frame')) (hrefs : s.liveRefs ≠ 0 ∨ frame.deleting = true)
    (hcalls : frame.counted = true → s.callsInFlight ≠ 0) :
    frame.Balanced s s' frame' := by
  cases frame with
  | guard entryPoint prev pc =>
    cases pc with
    | acquire =>
      have hne : s.liveRefs ≠ 0 := by simpa [deleting] using hrefs
      obtain ⟨rfl, rfl⟩ := Prod.mk.inj (Option.some.inj h)
      refine ⟨rfl, rfl, ?_, rfl⟩
      simp [deleting, Shared.doomed, hne]
    | check =>
      simp only [step] at h
      split_ifs at h
      · obtain ⟨rfl, rfl⟩ := Prod.mk.inj (Option.some.inj h)
        exact ⟨rfl, rfl, rfl, rfl⟩
      · obtain ⟨rfl, rfl⟩ := Prod.mk.inj (Option.some.inj h)
        exact ⟨rfl, rfl, rfl, rfl⟩
    | inside => cases h
    | uncount =>
      have hne : s.callsInFlight ≠ 0 := hcalls rfl
      obtain ⟨rfl, rfl⟩ := Prod.mk.inj (Option.some.inj h)
      refine ⟨rfl, ?_, rfl, rfl⟩
      simp only [List.countP_singleton, counted, if_true, Option.toList_some]
      simp
      omega
    | drop =>
      have hne : s.liveRefs ≠ 0 := by simpa [deleting] using hrefs
      obtain ⟨rfl, rfl⟩ := Prod.ext_iff.mp (Option.some.inj h)
      exact Shared.dropRef_balanced hne rfl rfl rfl rfl rfl rfl
    | delete =>
      obtain ⟨rfl, rfl⟩ := Prod.mk.inj (Option.some.inj h)
      exact ⟨rfl, rfl, rfl, rfl⟩
    | count | exchange | restore =>
      obtain ⟨rfl, rfl⟩ := Prod.mk.inj (Option.some.inj h)
      exact ⟨rfl, rfl, rfl, rfl⟩
  | release pc =>
    cases pc with
    | drop =>
      have hne : s.liveRefs ≠ 0 := by simpa [deleting] using hrefs
      obtain ⟨rfl, rfl⟩ := Prod.ext_iff.mp (Option.some.inj h)
      exact Shared.dropRef_balanced hne rfl rfl rfl rfl rfl rfl
    | raise | disconnectEventsImpl | stopAndCancelCalls | delete =>
      obtain ⟨rfl, rfl⟩ := Prod.mk.inj (Option.some.inj h)
      exact ⟨rfl, rfl, rfl, rfl⟩

/-- A frame stays a guard or `release()`, and a guard that is constructed stays so. -/
theorem Frame.step_kind {frame frame' : Frame} {depth : ℕ} {s s' : Shared}
    (h : frame.step depth s = some (s', some frame')) :
    frame'.isGuard = frame.isGuard ∧ (frame'.constructing = true → frame.constructing = true) := by
  have hdrop : ∀ last, s.dropRef last = (s', some frame') → frame' = last := by
    intro last heq
    simp only [Shared.dropRef] at heq
    split_ifs at heq
    · exact (Option.some.inj (Prod.mk.inj heq).2).symm
    · cases heq
  cases frame with
  | guard entryPoint prev pc =>
    cases pc with
    | drop =>
      rw [hdrop _ (Option.some.inj h)]
      exact ⟨rfl, nofun⟩
    | check =>
      simp only [step] at h
      split_ifs at h <;> cases h <;> exact ⟨rfl, nofun⟩
    | acquire | count | exchange =>
      cases h
      exact ⟨rfl, fun _ => rfl⟩
    | inside => cases h
    | delete => cases h
    | restore | uncount =>
      cases h
      exact ⟨rfl, nofun⟩
  | release pc =>
    cases pc with
    | drop =>
      rw [hdrop _ (Option.some.inj h)]
      exact ⟨rfl, nofun⟩
    | delete => cases h
    | raise | disconnectEventsImpl | stopAndCancelCalls =>
      cases h
      exact ⟨rfl, nofun⟩

/-- Only `release()` raises the flag, and only a fresh guard under construction is reported. -/
theorem Frame.step_flags {frame : Frame} {frame' : Option Frame} {depth : ℕ} {s s' : Shared}
    (h : frame.step depth s = some (s', frame')) :
    (s'.released = s.released ∨ frame.isGuard = false) ∧
      (s'.reported = s.reported ∨ depth = 1 ∧ s.released = true ∧ frame.isGuard = true ∧
        frame.constructing = true) := by
  have hdrop : ∀ last, (s.dropRef last).1.released = s.released ∧
      (s.dropRef last).1.reported = s.reported := by
    intro last
    rw [Shared.dropRef]
    split_ifs <;> exact ⟨rfl, rfl⟩
  cases frame with
  | guard entryPoint prev pc =>
    cases pc with
    | drop =>
      obtain ⟨rfl, -⟩ := Prod.ext_iff.mp (Option.some.inj h)
      exact ⟨.inl (hdrop _).1, .inl (hdrop _).2⟩
    | check =>
      simp only [step] at h
      split_ifs at h with hfresh
      · exact ⟨.inl (by cases h; rfl), .inr ⟨hfresh.1, hfresh.2, rfl, rfl⟩⟩
      · cases h
        exact ⟨.inl rfl, .inl rfl⟩
    | acquire | count | exchange | inside | restore | uncount | delete =>
      cases h <;> exact ⟨.inl rfl, .inl rfl⟩
  | release pc =>
    cases pc with
    | drop =>
      obtain ⟨rfl, -⟩ := Prod.ext_iff.mp (Option.some.inj h)
      exact ⟨.inr rfl, .inl (hdrop _).2⟩
    | raise | disconnectEventsImpl | stopAndCancelCalls | delete =>
      cases h
      exact ⟨.inr rfl, .inl rfl⟩

/-- The operation that takes the count to zero leaves the frame to delete the object. -/
theorem Frame.step_last {frame : Frame} {frame' : Option Frame} {depth : ℕ} {s s' : Shared}
    (h : frame.step depth s = some (s', frame')) (hrefs : s.liveRefs ≠ 0)
    (hrefs' : s'.liveRefs = 0) : ∃ last, frame' = some last ∧ last.deleting = true := by
  have hdrop : ∀ last, s.dropRef last = (s', frame') → frame' = some last := by
    intro last heq
    simp only [Shared.dropRef] at heq
    split_ifs at heq with hone
    · exact (Prod.mk.inj heq).2.symm
    · have hleft : s.liveRefs - 1 = s'.liveRefs := congrArg (·.1.liveRefs) heq
      omega
  cases frame with
  | guard entryPoint prev pc =>
    cases pc with
    | drop => exact ⟨_, hdrop _ (Option.some.inj h), rfl⟩
    | inside => cases h
    | check =>
      simp only [step] at h
      split_ifs at h <;> cases h <;> exact absurd hrefs' hrefs
    | acquire =>
      cases h
      exact absurd hrefs' (Nat.succ_ne_zero _)
    | count | exchange | restore | uncount | delete =>
      cases h
      exact absurd hrefs' hrefs
  | release pc =>
    cases pc with
    | drop => exact ⟨_, hdrop _ (Option.some.inj h), rfl⟩
    | raise | disconnectEventsImpl | stopAndCancelCalls | delete =>
      cases h
      exact absurd hrefs' hrefs

theorem Frame.step_of_deleting {frame : Frame} (h : frame.deleting = true) (depth : ℕ)
    (s : Shared) : frame.step depth s = some ({ s with deletes := s.deletes + 1 }, none) := by
  fun_cases deleting frame <;> first | rfl | simp_all [deleting]

/-! ## The invariant -/

/-- The frames of a thread, by whether `release()` was called. -/
structure Shape (called : Bool) (frames : List Frame) : Prop where
  /-- A frame that is not the last calls out. -/
  waiting : ∀ below ∈ frames.tail, below.callsOut = true
  guards : called = false → ∀ frame ∈ frames, frame.isGuard = true
  /-- After `release()` was called only nested guards are constructed. -/
  nested : called = true → ∀ frame ∈ frames.head?, frame.constructing = true →
    ∃ below ∈ frames.tail, below.isGuard = true

/-- What holds of the handle at all times. -/
structure Inv (s : State Thread) : Prop where
  shape : ∀ t, Shape s.shared.releaseCalled (s.frames t)
  refs : ∃ held, Tally held (s.weight Frame.holds) ∧ s.shared.liveRefs = held + s.shared.owner
  calls : Tally s.shared.callsInFlight (s.weight Frame.counted)
  deletes : ∃ deleting, Tally deleting (s.weight Frame.deleting) ∧
    s.shared.deletes + deleting = s.shared.doomed
  released : s.shared.released = true → s.shared.releaseCalled = true
  quiet : s.shared.reported = []

theorem Frame.holds_of_callsOut {frame : Frame} (h : frame.callsOut = true) :
    frame.holds = true := by
  fun_cases callsOut frame <;> first | rfl | simp_all [callsOut]

theorem Frame.holds_of_counted {frame : Frame} (h : frame.counted = true) :
    frame.holds = true := by
  fun_cases counted frame <;> first | rfl | simp_all [counted]

theorem Frame.not_constructing_of_callsOut {frame : Frame} (h : frame.callsOut = true) :
    frame.constructing = false := by
  fun_cases callsOut frame <;> first | rfl | simp_all [callsOut]

theorem Frame.not_deleting_of_callsOut {frame : Frame} (h : frame.callsOut = true) :
    frame.deleting = false := by
  fun_cases callsOut frame <;> first | rfl | simp_all [callsOut]

/-- A frame without a reference has dropped the last one, or has not taken one yet. -/
theorem Frame.not_holds {frame : Frame} (h : frame.holds = false) :
    frame.deleting = true ∨ frame.constructing = true := by
  fun_cases holds frame <;> simp_all [holds, deleting, constructing]

namespace Inv
variable {s s' : State Thread} {t : Thread} {frame : Frame} {rest : List Frame}

/-- When no reference is left nothing holds one. -/
theorem not_holds (h : Inv s) (hrefs : s.shared.liveRefs = 0) (hframe : frame ∈ s.frames t) :
    frame.holds = false := by
  obtain ⟨held, hheld, heq⟩ := h.refs
  have hzero : held = 0 := by omega
  rw [hzero] at hheld
  have hcount : (s.frames t).countP Frame.holds = 0 := hheld.eq_zero t
  simpa using List.countP_eq_zero.mp hcount frame hframe

/-- When no reference is left a thread does nothing but delete the object. -/
theorem doomed_frames (h : Inv s) (hrefs : s.shared.liveRefs = 0)
    (hframes : s.frames t = frame :: rest) : frame.deleting = true ∧ rest = [] := by
  have hrest : rest = [] := by
    cases rest with
    | nil => rfl
    | cons below rest =>
      have hbelow := (h.shape t).waiting below (by simp [hframes])
      have hmem : below ∈ s.frames t := by simp [hframes]
      have hnone := h.not_holds hrefs hmem
      rw [Frame.holds_of_callsOut hbelow] at hnone
      cases hnone
  have hcalled : s.shared.releaseCalled = true := by
    obtain ⟨held, -, heq⟩ := h.refs
    by_contra hnot
    simp only [Shared.owner, hnot] at heq
    simp at heq
    omega
  refine ⟨?_, hrest⟩
  have hframe : frame ∈ s.frames t := by simp [hframes]
  rcases Frame.not_holds (h.not_holds hrefs hframe) with hdel | hcon
  · exact hdel
  · obtain ⟨below, hbelow, -⟩ := (h.shape t).nested hcalled frame (by simp [hframes]) hcon
    simp [hframes, hrest] at hbelow

theorem alive (h : Inv s) (hframes : s.frames t = frame :: rest) :
    s.shared.liveRefs ≠ 0 ∨ frame.deleting = true := by
  by_cases hrefs : s.shared.liveRefs = 0
  · exact .inr (h.doomed_frames hrefs hframes).1
  · exact .inl hrefs

theorem counted_pos (h : Inv s) (hframes : s.frames t = frame :: rest)
    (hcounted : frame.counted = true) : s.shared.callsInFlight ≠ 0 := by
  have hle : (s.frames t).countP Frame.counted ≤ s.shared.callsInFlight := h.calls.le t
  simp only [hframes, List.countP_cons, hcounted, if_true] at hle
  omega

end Inv

namespace Shape
variable {called : Bool} {frames rest : List Frame} {frame : Frame}

/-- A call from a thread that is free or whose last frame calls out. -/
theorem push (h : Shape called frames) (hcall : frames.head?.all Frame.callsOut = true)
    (hguard : called = false → frame.isGuard = true)
    (hnested : called = true → frame.constructing = true → ∃ below ∈ frames, below.isGuard = true) :
    Shape called (frame :: frames) where
  waiting := by
    intro below hbelow
    cases frames with
    | nil => cases hbelow
    | cons last rest =>
      rcases List.mem_cons.mp hbelow with rfl | hrest
      · simpa using hcall
      · exact h.waiting below hrest
  guards hcalled := List.forall_mem_cons.mpr ⟨hguard hcalled, h.guards hcalled⟩
  nested := by
    intro hcalled last hlast hcon
    obtain rfl : frame = last := by simpa using hlast
    exact hnested hcalled hcon

/-- The last frame goes on, or is done. -/
theorem replace (h : Shape called (frame :: rest)) (frame' : Option Frame)
    (hkind : ∀ next, frame' = some next → next.isGuard = frame.isGuard ∧
      (next.constructing = true → frame.constructing = true)) :
    Shape called (frame'.toList ++ rest) := by
  cases frame' with
  | none =>
    refine ⟨?_, ?_, ?_⟩
    · intro below hbelow
      exact h.waiting below (List.mem_of_mem_tail hbelow)
    · intro hcalled below hbelow
      exact h.guards hcalled below (List.mem_cons_of_mem _ hbelow)
    · intro _ last hlast hcon
      have hout := h.waiting last (List.mem_of_mem_head? hlast)
      rw [Frame.not_constructing_of_callsOut hout] at hcon
      cases hcon
  | some next =>
    refine ⟨h.waiting, ?_, ?_⟩
    · intro hcalled
      obtain ⟨hframe, hrest⟩ := List.forall_mem_cons.mp (h.guards hcalled)
      exact List.forall_mem_cons.mpr ⟨(hkind next rfl).1.trans hframe, hrest⟩
    · intro hcalled last hlast hcon
      obtain rfl : next = last := by simpa using hlast
      exact h.nested hcalled frame rfl ((hkind next rfl).2 hcon)

/-- `release()` is called somewhere while no outermost guard is under construction. -/
theorem afterCall (h : Shape false frames)
    (hcontract : ∀ frame, frames = [frame] → frame.constructing = false) : Shape true frames where
  waiting := h.waiting
  guards := nofun
  nested := by
    intro _ last hlast hcon
    match frames, hlast with
    | [_], rfl =>
      rw [hcontract last rfl] at hcon
      cases hcon
    | _ :: below :: rest, rfl =>
      exact ⟨below, by simp, h.guards rfl below (by simp)⟩

end Shape

/-! ## Steps -/

namespace Inv
variable {s s' : State Thread} {t : Thread} {frame : Frame} {rest : List Frame}

theorem initial : Inv ({} : State Thread) where
  shape _ := ⟨nofun, fun _ => nofun, fun _ => nofun⟩
  refs := ⟨0, .zero fun _ => rfl, rfl⟩
  calls := .zero fun _ => rfl
  deletes := ⟨0, .zero fun _ => rfl, rfl⟩
  released := nofun
  quiet := rfl

variable [DecidableEq Thread]

theorem shape_setFrames (h : Inv s) {frames : List Frame}
    (hframes : Shape s.shared.releaseCalled frames) (t' : Thread) :
    Shape s.shared.releaseCalled ((s.setFrames t frames).frames t') := by
  by_cases ht : t' = t
  · rwa [ht, s.frames_setFrames_self]
  · rw [s.frames_setFrames_of_ne ht]
    exact h.shape t'

theorem enter (h : Inv s) {entryPoint : String} (hcall : s.mayCall t = true)
    (hcontract : Contract s (.enter t entryPoint)) :
    Inv (s.setFrames t (.guard entryPoint none .acquire :: s.frames t)) where
  shape := by
    refine h.shape_setFrames ((h.shape t).push hcall (fun _ => rfl) fun hcalled _ => ?_)
    simpa using hcontract hcalled
  refs := by
    obtain ⟨held, hheld, heq⟩ := h.refs
    exact ⟨held, tally_setFrames hheld (by simp [Frame.holds]), heq⟩
  calls := tally_setFrames h.calls (by simp [Frame.counted])
  deletes := by
    obtain ⟨deleting, hdeleting, heq⟩ := h.deletes
    exact ⟨deleting, tally_setFrames hdeleting (by simp [Frame.deleting]), heq⟩
  released := h.released
  quiet := h.quiet

theorem leave (h : Inv s) {entryPoint : String} {prev : Option String}
    (hframes : s.frames t = .guard entryPoint prev .inside :: rest) :
    Inv (s.setFrames t (.guard entryPoint prev .restore :: rest)) where
  shape := by
    have hshape := h.shape t
    rw [hframes] at hshape
    refine h.shape_setFrames (hshape.replace (some _) fun next heq => ?_)
    cases heq
    exact ⟨rfl, nofun⟩
  refs := by
    obtain ⟨held, hheld, heq⟩ := h.refs
    exact ⟨held, tally_setFrames hheld (by rw [hframes]; rfl), heq⟩
  calls := tally_setFrames h.calls (by rw [hframes]; rfl)
  deletes := by
    obtain ⟨deleting, hdeleting, heq⟩ := h.deletes
    exact ⟨deleting, tally_setFrames hdeleting (by rw [hframes]; rfl), heq⟩
  released := h.released
  quiet := h.quiet

theorem release (h : Inv s) (hcall : s.mayCall t = true) (hcontract : Contract s (.release t)) :
    Inv { (s.setFrames t (.release .raise :: s.frames t)) with
      shared := { s.shared with releaseCalled := true } } where
  shape := by
    intro t'
    obtain ⟨hnot, hconstructed⟩ := hcontract
    have hshape : ∀ t', Shape true (s.frames t') := fun t' =>
      Shape.afterCall (hnot ▸ h.shape t') (hconstructed t')
    by_cases ht : t' = t
    · rw [ht]
      simp only [State.setFrames, Function.update_self]
      exact (hshape t).push hcall nofun nofun
    · simp only [State.setFrames, Function.update_of_ne ht]
      exact hshape t'
  refs := by
    obtain ⟨held, hheld, heq⟩ := h.refs
    refine ⟨held + 1, tally_setFrames hheld ?_, ?_⟩
    · rw [List.countP_cons]
      simp only [Frame.holds, if_true]
      omega
    · simpa [Shared.owner, hcontract.1] using heq
  calls := tally_setFrames h.calls (by simp [Frame.counted])
  deletes := by
    obtain ⟨deleting, hdeleting, heq⟩ := h.deletes
    exact ⟨deleting, tally_setFrames hdeleting (by simp [Frame.deleting]), heq⟩
  released := fun _ => rfl
  quiet := h.quiet

theorem step (h : Inv s) (hframes : s.frames t = frame :: rest) {shared : Shared}
    {frame' : Option Frame}
    (hstep : frame.step ((frame :: rest).countP Frame.isGuard) s.shared = some (shared, frame')) :
    Inv { (s.setFrames t (frame'.toList ++ rest)) with shared := shared } := by
  have hbalanced := Frame.step_balanced hstep (h.alive hframes) (h.counted_pos hframes)
  have hshape := h.shape t
  rw [hframes] at hshape
  obtain ⟨hraised, hreported⟩ := Frame.step_flags hstep
  -- What the thread weighs before the step and after it.
  have hbefore : ∀ p, (s.frames t).countP p = [frame].countP p + rest.countP p := by
    intro p
    rw [hframes, ← List.countP_append, List.singleton_append]
  have hafter : ∀ p, (frame'.toList ++ rest).countP p = frame'.toList.countP p + rest.countP p :=
    fun p => List.countP_append
  refine ⟨?_, ?_, ?_, ?_, ?_, ?_⟩
  · intro t'
    rw [hbalanced.releaseCalled]
    refine h.shape_setFrames (hshape.replace _ fun next heq => ?_) t'
    exact Frame.step_kind (heq ▸ hstep)
  · obtain ⟨held, hheld, heq⟩ := h.refs
    have hle := hheld.le t
    rw [State.weight, hbefore] at hle
    have howner : shared.owner = s.shared.owner := by
      rw [Shared.owner, Shared.owner, hbalanced.releaseCalled]
    have hcount := hbalanced.holds
    refine ⟨held + frame'.toList.countP Frame.holds - [frame].countP Frame.holds,
      tally_setFrames hheld ?_, ?_⟩
    · rw [hbefore, hafter]
      omega
    · rw [howner]
      simp only
      omega
  · refine tally_setFrames h.calls ?_
    have hcount := hbalanced.counted
    rw [hbefore, hafter]
    simp only
    omega
  · obtain ⟨deleting, hdeleting, heq⟩ := h.deletes
    have hle := hdeleting.le t
    rw [State.weight, hbefore] at hle
    have hcount := hbalanced.deleting
    refine ⟨deleting + frame'.toList.countP Frame.deleting - [frame].countP Frame.deleting,
      tally_setFrames hdeleting ?_, ?_⟩
    · rw [hbefore, hafter]
      omega
    · simp only
      omega
  · intro hreleased
    rw [hbalanced.releaseCalled]
    rcases hraised with hsame | hrelease
    · exact h.released (hsame ▸ hreleased)
    · by_contra hnot
      have hguard := hshape.guards (by simpa using hnot) frame (List.mem_cons_self ..)
      rw [hrelease] at hguard
      cases hguard
  · rcases hreported with hsame | ⟨hdepth, hreleased, hguard, hcon⟩
    · exact hsame.trans h.quiet
    · obtain ⟨below, hbelow, hbguard⟩ := hshape.nested (h.released hreleased) frame rfl hcon
      have hpos : 0 < rest.countP Frame.isGuard := List.countP_pos_iff.mpr ⟨below, hbelow, hbguard⟩
      rw [List.countP_cons, if_pos hguard] at hdepth
      omega

/-- One step of the client or of a frame. -/
theorem next (h : Inv s) {a : Action Thread} (hs : s.next a = some s') (hc : Contract s a) :
    Inv s' := by
  cases a with
  | enter t entryPoint =>
    simp only [State.next] at hs
    split_ifs at hs with hcall
    obtain rfl := Option.some.inj hs
    exact h.enter hcall hc
  | leave t =>
    simp only [State.next] at hs
    split at hs
    · rename_i hframes
      obtain rfl := Option.some.inj hs
      exact h.leave hframes
    · cases hs
  | release t =>
    simp only [State.next] at hs
    split_ifs at hs with hcall
    obtain rfl := Option.some.inj hs
    exact h.release hcall hc
  | step t =>
    simp only [State.next] at hs
    split at hs
    · cases hs
    · rename_i frame rest hframes
      obtain ⟨⟨shared, frame'⟩, hstep, rfl⟩ := Option.map_eq_some_iff.mp hs
      exact h.step hframes hstep

end Inv

/-! ## Deletion -/

variable [DecidableEq Thread]

theorem inv_of_reachable {s : State Thread}
    (h : ((handle Thread).restrict Contract).Reachable s) : Inv s := by
  refine h.invariant ?_ fun s a s' hinv hstep => hinv.next hstep.1 hstep.2
  intro s hinit
  rw [show s = {} from hinit]
  exact .initial

/-- No reference is left: the object is deleted and no thread is in it, or one thread is about to
delete it and no other is in it. -/
inductive State.Deleted (s : State Thread) : Prop
  | done : s.shared.deletes = 1 → (∀ t, s.frames t = []) → Deleted s
  | last (t : Thread) (frame : Frame) : s.shared.deletes = 0 → frame.deleting = true →
      s.frames t = [frame] → (∀ t', t' ≠ t → s.frames t' = []) → Deleted s

namespace Inv
variable {s s' : State Thread}

omit [DecidableEq Thread] in
theorem empty_of_weight (h : Inv s) (hrefs : s.shared.liveRefs = 0) {t : Thread}
    (hweight : s.weight Frame.deleting t = 0) : s.frames t = [] := by
  cases hframes : s.frames t with
  | nil => rfl
  | cons frame rest =>
    have hdeleting := (h.doomed_frames hrefs hframes).1
    rw [State.weight, hframes, List.countP_cons, if_pos hdeleting] at hweight
    omega

theorem deleted (h : Inv s) (hrefs : s.shared.liveRefs = 0) : s.Deleted := by
  obtain ⟨deleting, hdeleting, heq⟩ := h.deletes
  rw [Shared.doomed, if_pos hrefs] at heq
  by_cases hzero : deleting = 0
  · rw [hzero] at hdeleting
    exact .done (by omega) fun t => h.empty_of_weight hrefs (hdeleting.eq_zero t)
  · obtain ⟨t, ht⟩ := hdeleting.exists_pos hzero
    cases hframes : s.frames t with
    | nil => simp [State.weight, hframes] at ht
    | cons frame rest =>
      obtain ⟨hframe, rfl⟩ := h.doomed_frames hrefs hframes
      refine .last t frame (by omega) hframe hframes fun t' hne => ?_
      have hle := hdeleting.add_le hne
      exact h.empty_of_weight hrefs (by omega)

omit [DecidableEq Thread] in
theorem not_deleting (h : Inv s) (hrefs : s.shared.liveRefs ≠ 0) :
    s.shared.deletes = 0 ∧ ∀ t, ∀ frame ∈ s.frames t, frame.deleting = false := by
  obtain ⟨deleting, hdeleting, heq⟩ := h.deletes
  rw [Shared.doomed, if_neg hrefs] at heq
  have hzero : deleting = 0 := by omega
  rw [hzero] at hdeleting
  refine ⟨by omega, fun t frame hframe => ?_⟩
  simpa using List.countP_eq_zero.mp (hdeleting.eq_zero t) frame hframe

omit [DecidableEq Thread] in
theorem releaseCalled (h : Inv s) (hrefs : s.shared.liveRefs = 0) :
    s.shared.releaseCalled = true := by
  obtain ⟨held, -, heq⟩ := h.refs
  by_contra hnot
  rw [Shared.owner, if_neg hnot] at heq
  omega

end Inv

namespace Inv
variable {s s' : State Thread} {a : Action Thread}

omit [DecidableEq Thread] in
theorem deletes_of_empty (h : Inv s) (hcalled : s.shared.releaseCalled = true)
    (hempty : ∀ t, s.frames t = []) : s.shared.deletes = 1 := by
  obtain ⟨held, hheld, hrefs⟩ := h.refs
  obtain ⟨deleting, hdeleting, heq⟩ := h.deletes
  have hheld' : held = 0 := by
    by_contra hne
    obtain ⟨t, ht⟩ := hheld.exists_pos hne
    simp [State.weight, hempty t] at ht
  have hdeleting' : deleting = 0 := by
    by_contra hne
    obtain ⟨t, ht⟩ := hdeleting.exists_pos hne
    simp [State.weight, hempty t] at ht
  rw [Shared.owner, if_pos hcalled] at hrefs
  rw [Shared.doomed, if_pos (by omega)] at heq
  omega

omit [DecidableEq Thread] in
theorem callsInFlight_eq_zero (h : Inv s) (hrefs : s.shared.liveRefs = 0) :
    s.shared.callsInFlight = 0 := by
  obtain ⟨held, hheld, heq⟩ := h.refs
  have hle := hheld.mono h.calls fun t =>
    List.countP_mono_left fun frame _ hcounted => Frame.holds_of_counted hcounted
  omega

/-- With no reference left, the only step is the deletion. -/
theorem step_of_doomed (h : Inv s) (hrefs : s.shared.liveRefs = 0) (hs : s.next a = some s')
    (hc : Contract s a) :
    ∃ t frame, a = .step t ∧ s.frames t = [frame] ∧ frame.deleting = true ∧
      s'.shared.deletes = 1 := by
  cases a with
  | enter t entryPoint =>
    simp only [State.next] at hs
    split_ifs at hs with hcall
    have hguard := hc (h.releaseCalled hrefs)
    cases hframes : s.frames t with
    | nil => simp [hframes] at hguard
    | cons frame rest =>
      have hdeleting := (h.doomed_frames hrefs hframes).1
      rw [State.mayCall, hframes, List.head?_cons, Option.all_some] at hcall
      cases frame.not_deleting_of_callsOut hcall ▸ hdeleting
  | leave t =>
    simp only [State.next] at hs
    split at hs
    · rename_i hframes
      cases (h.doomed_frames hrefs hframes).1
    · cases hs
  | release t => exact absurd (h.releaseCalled hrefs) (by simp [hc.1])
  | step t =>
    simp only [State.next] at hs
    split at hs
    · cases hs
    · rename_i frame rest hframes
      obtain ⟨hdeleting, rfl⟩ := h.doomed_frames hrefs hframes
      refine ⟨t, frame, rfl, hframes, hdeleting, ?_⟩
      rw [frame.step_of_deleting hdeleting] at hs
      obtain rfl := Option.some.inj hs
      obtain ⟨deleting, htally, heq⟩ := h.deletes
      have hle := htally.le t
      rw [State.weight, hframes, List.countP_singleton, if_pos hdeleting] at hle
      rw [Shared.doomed, if_pos hrefs] at heq
      simp only
      omega

/-- The step that takes the count to zero is that of the frame that deletes the object. -/
theorem step_of_last (h : Inv s) (hrefs : s.shared.liveRefs ≠ 0) (hs : s.next a = some s')
    (hc : Contract s a) (hrefs' : s'.shared.liveRefs = 0) :
    ∃ t frame, a = .step t ∧ s'.frames t = [frame] ∧ frame.deleting = true := by
  have hinv' := h.next hs hc
  cases a with
  | enter t entryPoint =>
    simp only [State.next] at hs
    split_ifs at hs
    obtain rfl := Option.some.inj hs
    exact absurd hrefs' hrefs
  | leave t =>
    simp only [State.next] at hs
    split at hs
    · obtain rfl := Option.some.inj hs
      exact absurd hrefs' hrefs
    · cases hs
  | release t =>
    simp only [State.next] at hs
    split_ifs at hs
    obtain rfl := Option.some.inj hs
    exact absurd hrefs' hrefs
  | step t =>
    simp only [State.next] at hs
    split at hs
    · cases hs
    · rename_i frame rest hframes
      obtain ⟨⟨shared, frame'⟩, hstep, rfl⟩ := Option.map_eq_some_iff.mp hs
      obtain ⟨last, rfl, hlast⟩ := Frame.step_last hstep hrefs hrefs'
      have hframes' : ((s.setFrames t (last :: rest)).frames t) = last :: rest :=
        s.frames_setFrames_self t _
      obtain ⟨-, rfl⟩ := hinv'.doomed_frames hrefs' (t := t) hframes'
      exact ⟨t, last, rfl, hframes', hlast⟩

end Inv

/-- **The object is deleted exactly once, by whoever takes the count to zero.** In every state of
every run that keeps the contract: the object was deleted at most once, and exactly once when
`release()` was called and no thread is in it any more; while references are left it is not
deleted and nobody is about to; and when none is left, either it is deleted and no thread is in
it, or the only frame of all threads is the one that is about to delete it.  The step that drops
the last reference is that frame's, and the deletion is the only step after it, so nothing
touches the object any more; and no entry is ever reported. -/
theorem deleted_once {s : State Thread} (h : ((handle Thread).restrict Contract).Reachable s) :
    s.shared.deletes ≤ 1 ∧
    (s.shared.releaseCalled = true → (∀ t, s.frames t = []) → s.shared.deletes = 1) ∧
    (s.shared.liveRefs ≠ 0 →
      s.shared.deletes = 0 ∧ ∀ t, ∀ frame ∈ s.frames t, frame.deleting = false) ∧
    (s.shared.liveRefs = 0 → s.Deleted ∧ s.shared.callsInFlight = 0) ∧
    (∀ a s', ((handle Thread).restrict Contract).step s a s' →
      (s.shared.liveRefs ≠ 0 → s'.shared.liveRefs = 0 →
        ∃ t frame, a = .step t ∧ s'.frames t = [frame] ∧ frame.deleting = true) ∧
      (s.shared.liveRefs = 0 →
        ∃ t frame, a = .step t ∧ s.frames t = [frame] ∧ frame.deleting = true ∧
          s'.shared.deletes = 1)) ∧
    s.shared.reported = [] := by
  have hinv := inv_of_reachable h
  refine ⟨?_, hinv.deletes_of_empty, hinv.not_deleting, ?_, ?_, hinv.quiet⟩
  · obtain ⟨deleting, -, heq⟩ := hinv.deletes
    rw [Shared.doomed] at heq
    split_ifs at heq <;> omega
  · intro hrefs
    exact ⟨hinv.deleted hrefs, hinv.callsInFlight_eq_zero hrefs⟩
  · intro a s' hstep
    exact ⟨fun hrefs hrefs' => hinv.step_of_last hrefs hstep.1 hstep.2 hrefs',
      fun hrefs => hinv.step_of_doomed hrefs hstep.1 hstep.2⟩

/-- `release()` is called from inside a guard, whose own drop is then the last one. -/
theorem deleted_once_inside :
    ∃ s : State Unit, ((handle Unit).restrict Contract).Reachable s ∧
      s.shared.releaseCalled = true ∧ s.shared.deletes = 1 := by
  have h₀ : ((handle Unit).restrict Contract).Reachable {} := .init rfl
  -- The guard is constructed.
  have h₁ := h₀.next (.enter () "onEvent()") nofun rfl
  have h₂ := h₁.next (.step ()) trivial rfl
  have h₃ := h₂.next (.step ()) trivial rfl
  have h₄ := h₃.next (.step ()) trivial rfl
  have h₅ := h₄.next (.step ()) trivial rfl
  -- `release()` drops the owner's reference.
  have h₆ := h₅.next (.release ()) ⟨rfl, fun _ _ h => by cases h; rfl⟩ rfl
  have h₇ := h₆.next (.step ()) trivial rfl
  have h₈ := h₇.next (.step ()) trivial rfl
  have h₉ := h₈.next (.step ()) trivial rfl
  have h₁₀ := h₉.next (.step ()) trivial rfl
  -- The guard leaves.
  have h₁₁ := h₁₀.next (.leave ()) trivial rfl
  have h₁₂ := h₁₁.next (.step ()) trivial rfl
  have h₁₃ := h₁₂.next (.step ()) trivial rfl
  have h₁₄ := h₁₃.next (.step ()) trivial rfl
  have h₁₅ := h₁₄.next (.step ()) trivial rfl
  exact ⟨_, h₁₅, rfl, (deleted_once h₁₅).2.1 rfl fun _ => rfl⟩

end LogosProtocol.EntryGuard
