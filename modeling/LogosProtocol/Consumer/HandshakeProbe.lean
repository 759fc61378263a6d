import LogosProtocol.Qt

/-!
# The negative handshake cache

A token is delivered on the handshake surface of a module if it has one.  A module that was
built before there were such surfaces is remembered: the probe missed, and then the business
object was there.  But the two are looked for in waits that follow each other, and a module
may publish both in the second.  Then a surface that exists is remembered as absent, until
the handles are dropped.

Time is counted in milliseconds, and what is published stays published.

## Main definitions

* `acquireCachedObject` — a handle, from the cache or by waiting for the object.
* `informModuleTokenModule` — the probe, and the business object after it.
* `Consumer.run` — any sequence of grants and reconnects.
* `Races` — both objects are published while a grant waits for the business object.
-/

namespace LogosProtocol.HandshakeProbe

/-- The name of a module's handshake surface. -/
def handshakeObjectName (moduleName : QString) : QString := moduleName ++ qstr "__handshake"

theorem handshakeObjectName_inj {x y : QString} :
    handshakeObjectName x = handshakeObjectName y ↔ x = y :=
  List.append_left_inj _

/-- How long the probe waits. -/
def kHandshakeProbeTimeoutMs : ℕ := 250

/-- When each object is published, if it ever is. -/
abbrev Publication := QString → Option ℕ

/-- An object is published by then. -/
def PublishedBy (pub : Publication) (objectName : QString) (time : ℕ) : Prop :=
  ∃ t ∈ pub objectName, t ≤ time

instance (pub : Publication) (objectName : QString) (time : ℕ) :
    Decidable (PublishedBy pub objectName time) :=
  inferInstanceAs (Decidable (∃ t ∈ pub objectName, t ≤ time))

structure Consumer where
  /-- The clock. -/
  now : ℕ := 0
  /-- The names under which `m_objectCache` holds a handle. -/
  objectCache : List QString := []
  noHandshakeSurface : List QString := []
  deriving DecidableEq

/-- The caller's side of a grant. -/
structure Grant where
  originModule : QString
  timeoutMs : ℤ

/-- What the rest of the world does during a grant: the time since the last one, and how the
two objects answer `informModuleToken` and how long they take. -/
structure Oracle where
  idle : ℕ
  early : Bool × ℕ
  business : Bool × ℕ

/-! ## Acquiring an object -/

/-- `requestObject`: a wait that ends when the object is published or the time is over. -/
def requestObject (pub : Publication) (c : Consumer) (objectName : QString) (timeoutMs : ℕ) :
    Bool × Consumer :=
  match pub objectName with
  | some t =>
    if t ≤ c.now + timeoutMs then (true, { c with now := max c.now t })
    else (false, { c with now := c.now + timeoutMs })
  | none => (false, { c with now := c.now + timeoutMs })

/-- A cached handle while its source is there, or a new one. -/
def acquireCachedObject (pub : Publication) (c : Consumer) (objectName : QString)
    (timeoutMs : ℕ) : Bool × Consumer :=
  if objectName ∈ c.objectCache ∧ PublishedBy pub objectName c.now then (true, c)
  else
    let c := { c with objectCache := c.objectCache.erase objectName }
    match requestObject pub c objectName timeoutMs with
    | (true, c) => (true, { c with objectCache := objectName :: c.objectCache })
    | (false, c) => (false, c)

/-- Delivery on the business object: whether it was accepted, and whether the object was
reached. -/
def informModuleTokenViaBusinessObject (pub : Publication) (c : Consumer) (originModule : QString)
    (timeoutMs : ℕ) (answer : Bool × ℕ) : (Bool × Bool) × Consumer :=
  match acquireCachedObject pub c originModule timeoutMs with
  | (false, c) => ((false, false), c)
  | (true, c) => ((answer.1, true), { c with now := c.now + answer.2 })

/-- A budget that is not positive is replaced. -/
def Grant.budget (g : Grant) : ℕ := if g.timeoutMs ≤ 0 then 20000 else g.timeoutMs.toNat

/-- Whether a grant was delivered, and the consumer afterwards. -/
def informModuleTokenModule (pub : Publication) (c : Consumer) (g : Grant) (o : Oracle) :
    Bool × Consumer :=
  let handshake := handshakeObjectName g.originModule
  if handshake ∈ c.noHandshakeSurface then
    match informModuleTokenViaBusinessObject pub c g.originModule g.budget o.business with
    | ((delivered, _), c) => (delivered, c)
  else
    match acquireCachedObject pub c handshake kHandshakeProbeTimeoutMs with
    | (true, c) =>
      let c := { c with now := c.now + o.early.2 }
      if o.early.1 then (true, c)
      else
        -- A refusal on the surface is not the answer.
        match informModuleTokenViaBusinessObject pub c g.originModule g.budget o.business with
        | ((delivered, _), c) => (delivered, c)
    | (false, c) =>
      match informModuleTokenViaBusinessObject pub c g.originModule g.budget o.business with
      | ((delivered, reachedModule), c) =>
        (delivered, if reachedModule then
          { c with noHandshakeSurface := c.noHandshakeSurface.insert handshake } else c)

/-- Drop every handle, and the remembered absences. -/
def clearObjectCache (c : Consumer) : Consumer :=
  { c with objectCache := [], noHandshakeSurface := [] }

/-! ## Runs -/

inductive Action
  | grant (g : Grant) (o : Oracle)
  /-- The registry reconnects. -/
  | reconnect

namespace Consumer

/-- Time passes before a grant. -/
def pass (c : Consumer) (time : ℕ) : Consumer := { c with now := c.now + time }

def step (pub : Publication) (c : Consumer) : Action → Consumer
  | .grant g o => (informModuleTokenModule pub (c.pass o.idle) g o).2
  | .reconnect => clearObjectCache c

def run (pub : Publication) (actions : List Action) : Consumer :=
  actions.foldl (step pub) {}

theorem run_concat (pub : Publication) (actions : List Action) (a : Action) :
    run pub (actions ++ [a]) = (run pub actions).step pub a := by
  simp [run]

end Consumer

/-! ## What a wait finds -/

theorem requestObject_iff (pub : Publication) (c : Consumer) (x : QString) (timeoutMs : ℕ) :
    (requestObject pub c x timeoutMs).1 = true ↔ PublishedBy pub x (c.now + timeoutMs) := by
  unfold requestObject PublishedBy
  cases pub x with
  | none => simp
  | some t =>
    simp only [Option.mem_def, Option.some.injEq, exists_eq_left']
    split_ifs with h
    · simp [h]
    · simp [h]

/-- **An object is acquired exactly when it is published within the wait.** -/
theorem acquireCachedObject_iff (pub : Publication) (c : Consumer) (x : QString) (timeoutMs : ℕ) :
    (acquireCachedObject pub c x timeoutMs).1 = true ↔ PublishedBy pub x (c.now + timeoutMs) := by
  unfold acquireCachedObject
  split_ifs with hcached
  · obtain ⟨t, ht, hle⟩ := hcached.2
    exact iff_of_true rfl ⟨t, ht, by omega⟩
  · have hrequest := requestObject_iff pub { c with objectCache := c.objectCache.erase x } x
      timeoutMs
    rw [← hrequest]
    simp only
    split
    · rename_i heq
      rw [heq]
    · rename_i heq
      rw [heq]

/-- A wait that finds nothing takes all its time, and no wait touches the absences. -/
theorem acquireCachedObject_spec (pub : Publication) (c : Consumer) (x : QString)
    (timeoutMs : ℕ) :
    ((acquireCachedObject pub c x timeoutMs).1 = false →
      (acquireCachedObject pub c x timeoutMs).2.now = c.now + timeoutMs) ∧
    (acquireCachedObject pub c x timeoutMs).2.noHandshakeSurface = c.noHandshakeSurface := by
  unfold acquireCachedObject requestObject
  split_ifs with hcached
  · exact ⟨fun h => absurd h (by simp), rfl⟩
  · cases pub x with
    | none => exact ⟨fun _ => rfl, rfl⟩
    | some t =>
      by_cases ht : t ≤ c.now + timeoutMs
      · simp [ht]
      · simp [ht]

theorem viaBusinessObject_spec (pub : Publication) (c : Consumer) (x : QString) (timeoutMs : ℕ)
    (answer : Bool × ℕ) :
    ((informModuleTokenViaBusinessObject pub c x timeoutMs answer).1.2 = true ↔
      PublishedBy pub x (c.now + timeoutMs)) ∧
    (informModuleTokenViaBusinessObject pub c x timeoutMs answer).2.noHandshakeSurface =
      c.noHandshakeSurface := by
  have hiff := acquireCachedObject_iff pub c x timeoutMs
  have hspec := (acquireCachedObject_spec pub c x timeoutMs).2
  unfold informModuleTokenViaBusinessObject
  rcases hacquire : acquireCachedObject pub c x timeoutMs with ⟨_ | _, c'⟩
  · rw [hacquire] at hiff hspec
    exact ⟨hiff, hspec⟩
  · rw [hacquire] at hiff hspec
    exact ⟨hiff, hspec⟩

/-! ## What is remembered -/

/-- The probe of a grant ends before the handshake surface is published, and the wait that
follows does not end before the business object is. -/
def Races (pub : Publication) (moduleName : QString) (c : Consumer) : Action → Prop
  | .grant g o =>
    let probed := c.now + o.idle + kHandshakeProbeTimeoutMs
    g.originModule = moduleName ∧ ¬ PublishedBy pub (handshakeObjectName moduleName) probed ∧
      PublishedBy pub moduleName (probed + g.budget)
  | .reconnect => False

/-- What one grant adds to the absences. -/
theorem noHandshakeSurface_grant (pub : Publication) (c : Consumer) (g : Grant) (o : Oracle) :
    (informModuleTokenModule pub c g o).2.noHandshakeSurface =
      if handshakeObjectName g.originModule ∉ c.noHandshakeSurface ∧
          ¬ PublishedBy pub (handshakeObjectName g.originModule)
            (c.now + kHandshakeProbeTimeoutMs) ∧
          PublishedBy pub g.originModule (c.now + kHandshakeProbeTimeoutMs + g.budget)
      then c.noHandshakeSurface.insert (handshakeObjectName g.originModule)
      else c.noHandshakeSurface := by
  unfold informModuleTokenModule
  by_cases hknown : handshakeObjectName g.originModule ∈ c.noHandshakeSurface
  · rw [if_pos hknown, if_neg fun h => h.1 hknown]
    exact (viaBusinessObject_spec ..).2
  · rw [if_neg hknown]
    have hprobe := acquireCachedObject_iff pub c (handshakeObjectName g.originModule)
      kHandshakeProbeTimeoutMs
    have hspec := acquireCachedObject_spec pub c (handshakeObjectName g.originModule)
      kHandshakeProbeTimeoutMs
    rcases hacquire : acquireCachedObject pub c (handshakeObjectName g.originModule)
      kHandshakeProbeTimeoutMs with ⟨_ | _, c'⟩
    · -- The probe misses, so the wait for the business object starts when its time is over.
      rw [hacquire] at hprobe hspec
      have hmissed := mt hprobe.mpr Bool.false_ne_true
      have hnow : c'.now = c.now + kHandshakeProbeTimeoutMs := hspec.1 rfl
      have hsame : c'.noHandshakeSurface = c.noHandshakeSurface := hspec.2
      obtain ⟨hreached, hkept⟩ := viaBusinessObject_spec pub c' g.originModule g.budget o.business
      rw [hnow] at hreached
      rw [hsame] at hkept
      simp only [hknown, hmissed, not_false_eq_true, true_and, ← hreached]
      split_ifs
      · rw [← hkept]
      · exact hkept
    · rw [hacquire] at hprobe hspec
      have hfound := hprobe.mp rfl
      have hsame : c'.noHandshakeSurface = c.noHandshakeSurface := hspec.2
      rw [if_neg fun h => h.2.1 hfound]
      simp only
      split_ifs
      · exact hsame
      · exact (viaBusinessObject_spec ..).2.trans hsame

/-- **What one grant remembers**: the surface of its own module, when it races. -/
theorem mem_noHandshakeSurface_grant (pub : Publication) (c : Consumer) (g : Grant) (o : Oracle)
    (x : QString) :
    handshakeObjectName x ∈ (c.step pub (.grant g o)).noHandshakeSurface ↔
      handshakeObjectName x ∈ c.noHandshakeSurface ∨ Races pub x c (.grant g o) := by
  have hgrant := noHandshakeSurface_grant pub (c.pass o.idle) g o
  simp only [Consumer.step, Races]
  rw [hgrant]
  split_ifs with hraces
  · rw [List.mem_insert_iff, handshakeObjectName_inj]
    constructor
    · rintro (rfl | hmem)
      · exact .inr ⟨rfl, hraces.2⟩
      · exact .inl hmem
    · rintro (hmem | ⟨rfl, -⟩)
      · exact .inr hmem
      · exact .inl rfl
  · constructor
    · exact .inl
    · rintro (hmem | ⟨rfl, hraces'⟩)
      · exact hmem
      · by_contra hnot
        exact hraces ⟨hnot, hraces'⟩

/-- **Which absences are never wrong.**  The surface of a module never enters the negative cache
exactly when no grant to the module races: none probes before the surface is published and
then waits until the business object is. -/
theorem absence_never_entered_iff (pub : Publication) (moduleName : QString)
    (actions : List Action) :
    (∀ before, before <+: actions →
      handshakeObjectName moduleName ∉ (Consumer.run pub before).noHandshakeSurface) ↔
    ∀ before a, before ++ [a] <+: actions →
      ¬ Races pub moduleName (Consumer.run pub before) a := by
  constructor
  · intro h before a hprefix hraces
    refine h (before ++ [a]) hprefix ?_
    cases a with
    | grant g o =>
      rw [Consumer.run_concat, mem_noHandshakeSurface_grant]
      exact .inr hraces
    | reconnect => exact hraces.elim
  · intro h before
    induction before using List.reverseRecOn with
    | nil =>
      intro _
      exact List.not_mem_nil
    | append_singleton before a ih =>
      intro hprefix
      have hbefore : before <+: actions := (List.prefix_append before [a]).trans hprefix
      rw [Consumer.run_concat]
      cases a with
      | grant g o =>
        rw [mem_noHandshakeSurface_grant, not_or]
        exact ⟨ih hbefore, h before _ hprefix⟩
      | reconnect => exact List.not_mem_nil

/-! ## A module that is slow to start -/

/-- The wallet publishes both of its objects after 300 ms. -/
def slowWallet : Publication := fun objectName =>
  if objectName = qstr "wallet" ∨ objectName = handshakeObjectName (qstr "wallet") then some 300
  else none

/-- The token is delivered, and the surface of the wallet is remembered as absent. -/
theorem slow_surface_entered :
    (Consumer.run slowWallet [.grant ⟨qstr "wallet", 20000⟩ ⟨0, (true, 0), (true, 1)⟩]) =
      ⟨301, [qstr "wallet"], [handshakeObjectName (qstr "wallet")]⟩ ∧
    PublishedBy slowWallet (handshakeObjectName (qstr "wallet")) 300 ∧
    ¬ PublishedBy slowWallet (qstr "wallet") 299 := by
  decide

end LogosProtocol.HandshakeProbe
