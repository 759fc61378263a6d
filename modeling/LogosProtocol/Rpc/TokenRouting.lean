import LogosProtocol.Rpc.FanOut
import LogosProtocol.Token.TokenAbi

/-!
# Where a module token arrives

A Token message names the caller that the token is for, and not the object of the handle it was
sent through.  The host looks the caller up among its own objects, and falls back to the first of
them.  With one published object both choices are the object of the handle; with several, the
token of a handle can arrive at another object.

## Main definitions

* `PlainLogosObject.informModuleToken`, `LocalLogosObject.informModuleToken` — the two handles.
* `Host.onToken` — what either host does with a Token message.
* `TokenLink` — a host and the messages on their way to it.
-/

namespace LogosProtocol.Subscriptions

/-- A queued call of `informModuleToken` on a published object; an object is its address. -/
structure TokenInvocation where
  object : ℕ
  authToken : QString
  moduleName : QString
  token : QString
  deriving DecidableEq

/-! ## The handles -/

/-- A handle, as far as `informModuleToken` reads it. -/
structure PlainLogosObject where
  objectName : Bytes
  isOpen : Bool

/-- What is returned, and what is sent. -/
def PlainLogosObject.informModuleToken (handle : PlainLogosObject)
    (authToken moduleName token : QString) : Bool × Option TokenMessage :=
  if !handle.isOpen then (false, none)
  else
    (true, some
      { authToken := authToken.toUtf8
        moduleName := moduleName.toUtf8
        token := token.toUtf8 })

/-- The in-process handle calls its own proxy. -/
def LocalLogosObject.informModuleToken (proxy : Option ℕ)
    (authToken moduleName token : QString) : Option TokenInvocation :=
  proxy.map fun object => ⟨object, authToken, moduleName, token⟩

/-! ## The hosts -/

/-- The published objects, in the order of their names. -/
structure Published where
  objects : List (Bytes × ℕ) := []
  ordered : Fields.Ordered objects := by exact .nil

namespace Published

/-- Anything but a module proxy is refused. -/
def publishObject (published : Published) (name : QString) (object : Option ℕ) :
    Bool × Published :=
  match object with
  | none => (false, published)
  | some object =>
    (true,
      { objects := Fields.set name.toUtf8 object published.objects
        ordered := published.ordered.set name.toUtf8 object })

def unpublishObject (published : Published) (name : QString) : Published where
  objects := Fields.erase name.toUtf8 published.objects
  ordered := published.ordered.erase name.toUtf8

/-- The object a token goes to: the one its caller is published as, or else the first. -/
def route (published : Published) (moduleName : Bytes) : Option ℕ :=
  match Fields.get? moduleName published.objects with
  | some object => some object
  | none => published.objects.head?.map Prod.snd

end Published

/-- The call that is queued on an object. -/
def postToken (fromUtf8 : Bytes → QString) (req : TokenMessage) (object : ℕ) : TokenInvocation where
  object := object
  authToken := fromUtf8 req.authToken
  moduleName := fromUtf8 req.moduleName
  token := fromUtf8 req.token

def PlainTransportHost.onToken (fromUtf8 : Bytes → QString) (published : Published)
    (req : TokenMessage) : Option TokenInvocation :=
  (published.route req.moduleName).map (postToken fromUtf8 req)

def WebTransportHost.onToken (fromUtf8 : Bytes → QString) (published : Published)
    (req : TokenMessage) : Option TokenInvocation :=
  (published.route req.moduleName).map (postToken fromUtf8 req)

def Host.onToken : Host → (Bytes → QString) → Published → TokenMessage → Option TokenInvocation
  | .plain => PlainTransportHost.onToken
  | .web => WebTransportHost.onToken

/-! ## A link -/

/-- A host, and the messages on their way to it, each with the name of the handle's object, which
is not sent.  For each message that arrived: the object of the handle, and what was queued. -/
structure TokenLink where
  published : Published := {}
  isOpen : Bool := true
  wire : List (Bytes × TokenMessage) := []
  received : List (Option ℕ × Option TokenInvocation) := []

inductive TokenAction
  | publishObject (name : QString) (object : Option ℕ)
  | unpublishObject (name : QString)
  | informModuleToken (objectName : Bytes) (authToken moduleName token : QString)
  | onToken
  | close

namespace TokenLink

/-- Messages arrive in the order they were sent; a link that closes loses what is on its way. -/
def next (host : Host) (fromUtf8 : Bytes → QString) (s : TokenLink) :
    TokenAction → Option TokenLink
  | .publishObject name object =>
    some { s with published := (s.published.publishObject name object).2 }
  | .unpublishObject name => some { s with published := s.published.unpublishObject name }
  | .informModuleToken objectName authToken moduleName token =>
    let sent := PlainLogosObject.informModuleToken ⟨objectName, s.isOpen⟩ authToken moduleName token
    some { s with wire := s.wire ++ sent.2.toList.map fun req => (objectName, req) }
  | .onToken =>
    match s.wire with
    | [] => none
    | (objectName, req) :: wire =>
      let object := Fields.get? objectName s.published.objects
      some { s with
        wire := wire
        received := s.received ++ [(object, host.onToken fromUtf8 s.published req)] }
  | .close => some { s with isOpen := false, wire := [] }

end TokenLink

/-- Objects come and go, and handles for any of them send tokens. -/
def tokenLinks (host : Host) (fromUtf8 : Bytes → QString) :
    TransitionSystem TokenLink TokenAction :=
  .ofNext {} (TokenLink.next host fromUtf8)

/-! ## Where the route leads -/

/-- The caller is published as the object itself, or it is not published and the object is the
first. -/
def Published.LeadsTo (published : Published) (moduleName : Bytes) (object : ℕ) : Prop :=
  Fields.get? moduleName published.objects = some object ∨
    Fields.get? moduleName published.objects = none ∧
      published.objects.head?.map Prod.snd = some object

theorem Published.route_eq_some_iff (published : Published) (moduleName : Bytes) (object : ℕ) :
    published.route moduleName = some object ↔ published.LeadsTo moduleName object := by
  rw [route, LeadsTo]
  cases Fields.get? moduleName published.objects with
  | none => simp
  | some object' => simp

/-- The next message, if the object of its handle is published, leads to that object. -/
def TokenLink.Routed (s : TokenLink) : TokenAction → Prop
  | .onToken => ∀ objectName req wire object, s.wire = (objectName, req) :: wire →
      Fields.get? objectName s.published.objects = some object →
        s.published.LeadsTo req.moduleName object
  | _ => True

/-- Each message that arrived was queued on the object of its handle. -/
def TokenLink.Home (s : TokenLink) : Prop :=
  ∀ arrival ∈ s.received, ∀ object, arrival.1 = some object →
    arrival.2.map TokenInvocation.object = some object

theorem object_onToken (host : Host) (fromUtf8 : Bytes → QString) (published : Published)
    (req : TokenMessage) :
    (host.onToken fromUtf8 published req).map TokenInvocation.object =
      published.route req.moduleName := by
  have hroute : host.onToken fromUtf8 published req =
      (published.route req.moduleName).map (postToken fromUtf8 req) := by
    cases host <;> rfl
  rw [hroute, Option.map_map]
  exact Option.map_id'

theorem TokenLink.Home.next {host : Host} {fromUtf8 : Bytes → QString} {s s' : TokenLink}
    {a : TokenAction} (h : s.Home) (hs : s.next host fromUtf8 a = some s') (hroute : s.Routed a) :
    s'.Home := by
  cases a with
  | publishObject name object =>
    obtain rfl := Option.some.inj hs
    exact h
  | unpublishObject name =>
    obtain rfl := Option.some.inj hs
    exact h
  | informModuleToken objectName authToken moduleName token =>
    obtain rfl := Option.some.inj hs
    exact h
  | close =>
    obtain rfl := Option.some.inj hs
    exact h
  | onToken =>
    cases hwire : s.wire with
    | nil => simp [TokenLink.next, hwire] at hs
    | cons sent wire =>
      simp only [TokenLink.next, hwire, Option.some.injEq] at hs
      rw [← hs]
      intro arrival harrival object hobject
      rcases List.mem_append.mp harrival with hold | hnew
      · exact h arrival hold object hobject
      · rw [List.mem_singleton] at hnew
        subst hnew
        rw [object_onToken, Published.route_eq_some_iff]
        exact hroute sent.1 sent.2 wire object hwire hobject

/-- **A token arrives at the object of its handle exactly when the route by the caller's name
leads there.** For a handle of a published object, what the host queues is on that object and on
no other, as with an in-process handle, if and only if the link is open and the caller is
published as the same object, or is not published while the object is the first; and in every run
whose arrivals meet this, each message is queued on the object of its handle. -/
theorem token_home_iff (host : Host) (fromUtf8 : Bytes → QString) :
    (∀ (published : Published) (handle : PlainLogosObject) (object : ℕ)
        (authToken moduleName token : QString),
        Fields.get? handle.objectName published.objects = some object →
        (((handle.informModuleToken authToken moduleName token).2.bind
              (host.onToken fromUtf8 published)).map TokenInvocation.object =
            (LocalLogosObject.informModuleToken (some object) authToken moduleName token).map
              TokenInvocation.object ↔
          handle.isOpen = true ∧ published.LeadsTo moduleName.toUtf8 object)) ∧
    ∀ s, ((tokenLinks host fromUtf8).restrict TokenLink.Routed).Reachable s → s.Home := by
  constructor
  · intro published handle object authToken moduleName token _
    rw [← Published.route_eq_some_iff]
    cases hopen : handle.isOpen with
    | false => simp [PlainLogosObject.informModuleToken, hopen, LocalLogosObject.informModuleToken]
    | true =>
      simp only [PlainLogosObject.informModuleToken, hopen, Bool.not_true, Bool.false_eq_true,
        if_false, Option.bind_some, object_onToken, LocalLogosObject.informModuleToken,
        Option.map_some, true_and]
  · intro s hs
    refine hs.invariant (I := TokenLink.Home) ?_ ?_
    · rintro s rfl
      simp [TokenLink.Home]
    · intro s a s' h hstep
      exact h.next hstep.1 hstep.2

/-- A host with `capability_module` and `wallet`, at two addresses. -/
def twoPublished : Published where
  objects := [(bstr "capability_module", 1), (bstr "wallet", 2)]
  ordered := List.pairwise_pair.mpr (by decide)

/-- The token for the first object's name reaches the first object. -/
theorem token_home_first :
    (((⟨bstr "capability_module", true⟩ : PlainLogosObject).informModuleToken (qstr "auth")
          (qstr "chat") (qstr "t")).2.bind
        (Host.plain.onToken asciiFromUtf8 twoPublished)).map TokenInvocation.object =
      (LocalLogosObject.informModuleToken (some 1) (qstr "auth") (qstr "chat") (qstr "t")).map
        TokenInvocation.object := by
  have hleads : twoPublished.LeadsTo (qstr "chat").toUtf8 1 := .inr (by decide)
  exact ((token_home_iff .plain asciiFromUtf8).1 twoPublished _ 1 _ _ _ (by decide)).mpr
    ⟨rfl, hleads⟩

/-- The token for "chat", sent through a handle of `wallet`, is queued on `capability_module`. -/
theorem token_astray :
    Fields.get? (bstr "wallet") twoPublished.objects = some 2 ∧
      (((⟨bstr "wallet", true⟩ : PlainLogosObject).informModuleToken (qstr "auth") (qstr "chat")
          (qstr "t")).2.bind (Host.plain.onToken asciiFromUtf8 twoPublished)).map
        TokenInvocation.object = some 1 := by
  decide

end LogosProtocol.Subscriptions
