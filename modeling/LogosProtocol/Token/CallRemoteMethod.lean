import LogosProtocol.Client.ApiClient
import LogosProtocol.Lib.Scoped
import LogosProtocol.Token.ModuleProxy

/-!
# The calls a module proxy answers

A proxy answers three introspection calls itself and hands every other call on to its provider,
once it has authorized it and under the caller document it has found.  For a provider whose own
dispatch does not know `name` and `version` it answers these from the provider's accessors, and it
lists them beside what the provider lists, so that the listing and the answers agree.

The listing looks names up over methods and events alike and is split by type afterwards: an event
of that name keeps the method from being listed.

## Main definitions

* `QJsonValue`, `ProviderInterface` — what a provider says of itself.
* `getPluginInterface`, `getPluginMethods`, `getPluginEvents` — the listings.
* `callRemoteMethod` — one call, around the provider's own dispatch.
-/

namespace LogosProtocol

/-- A `QJsonValue`; an object has its entries in the order of their keys. -/
inductive QJsonValue
  | null
  | bool (b : Bool)
  | double (d : Double)
  | string (s : QString)
  | array (items : List QJsonValue)
  | object (entries : List (QString × QJsonValue))

namespace QJsonValue

def isObject : QJsonValue → Bool
  | .object _ => true
  | _ => false

/-- `toObject().value(key).toString()`: the text under a key, empty if there is none. -/
def textAt (v : QJsonValue) (key : QString) : QString :=
  match v with
  | .object entries =>
    match entries.find? fun e => e.1 = key with
    | some (_, .string s) => s
    | _ => []
  | _ => []

end QJsonValue

/-- What a provider says of itself. -/
structure ProviderInterface where
  /-- Its methods and events. -/
  getMethods : List QJsonValue
  providerName : QString
  providerVersion : QString

namespace ModuleProxy

/-! ## The listings -/

/-- An entry with no type is a method. -/
def isEvent (v : QJsonValue) : Bool := v.textAt (qstr "type") = qstr "event"

def filterInterface (iface : List QJsonValue) (keepEvents : Bool) : List QJsonValue :=
  iface.filter fun v => isEvent v == keepEvents

/-- An entry of this name, of either type. -/
def lists (iface : List QJsonValue) (name : QString) : Bool :=
  iface.any fun v => v.isObject && v.textAt (qstr "name") = name

/-- What every module answers, with its description. -/
def identity : List (QString × QString) :=
  [(qstr "name", qstr "The module's name, as declared in its metadata."),
    (qstr "version", qstr "The module's version, as declared in its metadata.")]

def identityEntry (id : QString × QString) : QJsonValue :=
  .object
    [(qstr "description", .string id.2),
      (qstr "isInvokable", .bool true),
      (qstr "name", .string id.1),
      (qstr "returnType", .string (qstr "QString")),
      (qstr "signature", .string (id.1 ++ qstr "()")),
      (qstr "type", .string (qstr "method"))]

/-- List an identity method, unless the name is listed. -/
def advertise (iface : List QJsonValue) (id : QString × QString) : List QJsonValue :=
  if lists iface id.1 then iface else iface ++ [identityEntry id]

def getPluginInterface (provider : Option ProviderInterface) : List QJsonValue :=
  match provider with
  | none => []
  | some provider => identity.foldl advertise provider.getMethods

def getPluginMethods (provider : Option ProviderInterface) : List QJsonValue :=
  filterInterface (getPluginInterface provider) false

def getPluginEvents (provider : Option ProviderInterface) : List QJsonValue :=
  filterInterface (getPluginInterface provider) true

end ModuleProxy

/-! ## One call -/

/-- A call that reaches a proxy. -/
structure CallRequest where
  proxy : ModuleProxy
  provider : Option ProviderInterface
  authToken : QString
  methodName : QString
  args : List QVariant := []
  transportProtocol : QString := qstr "local"

/-- What a call returns: a value, or a listing. -/
inductive CallAnswer
  | value (v : QVariant)
  | interface (items : List QJsonValue)

def QVariant.isValid : QVariant → Bool
  | .invalid => false
  | _ => true

namespace CallRequest

/-- What `authorize` makes of the call. -/
def authorization (req : CallRequest) : Authorization :=
  req.proxy.authorize req.authToken req.transportProtocol

/-- The answer for a provider whose own dispatch gave `result`. -/
def identityFallback (req : CallRequest) (provider : ProviderInterface) (result : QVariant) :
    QVariant :=
  if !result.isValid && req.args.isEmpty then
    if req.methodName = qstr "name" then .string provider.providerName
    else if req.methodName = qstr "version" then .string provider.providerVersion
    else result
  else result

end CallRequest

open Scoped in
/-- One call.  `callMethod` is the provider's dispatch; the ambient value is the caller document
of the dispatch that runs on this thread, if one does. -/
def callRemoteMethod {ε ω : Type} (req : CallRequest)
    (callMethod : Comp (Option CallerDocument) ε ω QVariant) :
    Comp (Option CallerDocument) ε ω CallAnswer :=
  match req.provider with
  | none => return .value .invalid
  | some provider =>
    if req.methodName = [] then return .value .invalid
    else if req.methodName = qstr "getPluginMethods" ∧ req.args.isEmpty then
      return .interface (ModuleProxy.getPluginMethods req.provider)
    else if req.methodName = qstr "getPluginEvents" ∧ req.args.isEmpty then
      return .interface (ModuleProxy.getPluginEvents req.provider)
    else if req.methodName = qstr "getPluginInterface" ∧ req.args.isEmpty then
      return .interface (ModuleProxy.getPluginInterface req.provider)
    else if !req.authorization.authorized then return .value makeUnauthorizedSentinel
    else
      -- The scope closes on every way out, a throw of the handler included.
      Comp.scope (some req.authorization.caller) do
        let result ← callMethod
        return .value (req.identityFallback provider result)

namespace ModuleProxy

/-! ## What is listed -/

/-- A method entry of this name. -/
def listsMethod (iface : List QJsonValue) (name : QString) : Bool :=
  iface.any fun v => v.isObject && v.textAt (qstr "name") = name && !isEvent v

theorem textAt_identityEntry (id : QString × QString) :
    (identityEntry id).textAt (qstr "name") = id.1 := by
  simp [identityEntry, QJsonValue.textAt, qstr]

theorem isObject_identityEntry (id : QString × QString) : (identityEntry id).isObject = true := rfl

theorem isEvent_identityEntry (id : QString × QString) : isEvent (identityEntry id) = false := by
  simp [identityEntry, isEvent, QJsonValue.textAt, qstr]

theorem lists_append_identityEntry (iface : List QJsonValue) (id : QString × QString)
    (name : QString) :
    lists (iface ++ [identityEntry id]) name = (lists iface name || id.1 = name) := by
  simp [lists, textAt_identityEntry, isObject_identityEntry]

/-- What the provider lists comes first, then the identity methods whose names it does not list. -/
theorem foldl_advertise (ids : List (QString × QString)) (hids : (ids.map Prod.fst).Nodup)
    (iface : List QJsonValue) :
    ids.foldl advertise iface =
      iface ++ (ids.filter fun id => !lists iface id.1).map identityEntry := by
  induction ids generalizing iface with
  | nil => simp
  | cons id ids ih =>
    rw [List.map_cons, List.nodup_cons] at hids
    rw [List.foldl_cons, ih hids.2, advertise]
    split_ifs with hlisted
    · simp [hlisted]
    · have hsame : (ids.filter fun id' => !lists (iface ++ [identityEntry id]) id'.1) =
          ids.filter fun id' => !lists iface id'.1 := by
        refine List.filter_congr ?_
        intro id' hid'
        have hne : id.1 ≠ id'.1 := fun heq => hids.1 (heq ▸ List.mem_map_of_mem hid')
        simp [lists_append_identityEntry, hne]
      rw [hsame, List.filter_cons_of_pos (by simpa using hlisted), List.map_cons,
        List.append_assoc, List.singleton_append]

theorem nodup_identity : (identity.map Prod.fst).Nodup := by decide

/-- The identity entries that are added. -/
def added (provider : ProviderInterface) : List QJsonValue :=
  (identity.filter fun id => !lists provider.getMethods id.1).map identityEntry

theorem getPluginInterface_some (provider : ProviderInterface) :
    getPluginInterface (some provider) = provider.getMethods ++ added provider :=
  foldl_advertise identity nodup_identity provider.getMethods

theorem isEvent_of_mem_added {provider : ProviderInterface} {v : QJsonValue}
    (h : v ∈ added provider) : isEvent v = false := by
  obtain ⟨id, -, rfl⟩ := List.mem_map.mp h
  exact isEvent_identityEntry id

/-- What is added is a method. -/
theorem getPluginMethods_some (provider : ProviderInterface) :
    getPluginMethods (some provider) =
      filterInterface provider.getMethods false ++ added provider := by
  have hadded : filterInterface (added provider) false = added provider := by
    rw [filterInterface, List.filter_eq_self]
    intro v hv
    rw [isEvent_of_mem_added hv]
    rfl
  rw [getPluginMethods, getPluginInterface_some, filterInterface, List.filter_append,
    ← filterInterface, ← filterInterface, hadded]

theorem listsMethod_filterInterface (iface : List QJsonValue) (name : QString) :
    listsMethod (filterInterface iface false) name = listsMethod iface name := by
  rw [listsMethod, filterInterface, List.any_filter, listsMethod]
  congr 1
  funext v
  cases isEvent v <;> simp

/-- An identity method is listed if a method of its name is, or nothing of its name. -/
theorem listsMethod_getPluginMethods (provider : ProviderInterface) {id : QString × QString}
    (hid : id ∈ identity) :
    listsMethod (getPluginMethods (some provider)) id.1 = true ↔
      (lists provider.getMethods id.1 = true → listsMethod provider.getMethods id.1 = true) := by
  have hadded : listsMethod (added provider) id.1 = !lists provider.getMethods id.1 := by
    rw [Bool.eq_iff_iff, listsMethod, List.any_eq_true]
    simp only [added, List.mem_map, List.mem_filter, Bool.not_eq_true']
    constructor
    · rintro ⟨v, ⟨id', ⟨-, hnot⟩, rfl⟩, hv⟩
      simp only [textAt_identityEntry, Bool.and_eq_true, decide_eq_true_eq] at hv
      rwa [← hv.1.2]
    · intro hnot
      refine ⟨identityEntry id, ⟨id, ⟨hid, hnot⟩, rfl⟩, ?_⟩
      simp [textAt_identityEntry, isEvent_identityEntry, isObject_identityEntry]
  rw [getPluginMethods_some, listsMethod, List.any_append, ← listsMethod, ← listsMethod,
    listsMethod_filterInterface, hadded]
  cases lists provider.getMethods id.1 <;> simp

/-! ## The listing and the answers -/

/-- The two listings share the entries of the interface out between them, each in order. -/
theorem listings_partition (provider : Option ProviderInterface) :
    (getPluginMethods provider ++ getPluginEvents provider).Perm (getPluginInterface provider) ∧
      (getPluginMethods provider).Sublist (getPluginInterface provider) ∧
      (getPluginEvents provider).Sublist (getPluginInterface provider) ∧
      ∀ v ∈ getPluginMethods provider, v ∉ getPluginEvents provider := by
  have hmethods : ∀ v ∈ getPluginMethods provider, isEvent v = false := by
    intro v hv
    simpa using (List.mem_filter.mp hv).2
  have hevents : ∀ v ∈ getPluginEvents provider, isEvent v = true := by
    intro v hv
    simpa using (List.mem_filter.mp hv).2
  refine ⟨?_, List.filter_sublist, List.filter_sublist, ?_⟩
  · have hperm :=
      List.filter_append_perm (fun v => isEvent v == false) (getPluginInterface provider)
    have hrest : (getPluginInterface provider).filter (fun v => !(isEvent v == false)) =
        getPluginEvents provider :=
      List.filter_congr fun v _ => by cases isEvent v <;> rfl
    rwa [hrest] at hperm
  · intro v hv hv'
    have hfalse := hmethods v hv
    rw [hevents v hv'] at hfalse
    cases hfalse

/-- A call that is authorized and not answered by the proxy itself. -/
def Dispatched (req : CallRequest) (provider : ProviderInterface) : Prop :=
  req.provider = some provider ∧ req.args = [] ∧ req.authorization.authorized = true

/-- The listing agrees with dispatch: both identity methods are listed and answered, what the
provider lists is kept in order, and the listings split the interface. -/
structure ListingAgrees (provider : ProviderInterface) : Prop where
  name : listsMethod (getPluginMethods (some provider)) (qstr "name") = true
  version : listsMethod (getPluginMethods (some provider)) (qstr "version") = true
  order : filterInterface provider.getMethods false <+: getPluginMethods (some provider)
  partition : (getPluginMethods (some provider) ++ getPluginEvents (some provider)).Perm
      (getPluginInterface (some provider)) ∧
    (getPluginMethods (some provider)).Sublist (getPluginInterface (some provider)) ∧
    (getPluginEvents (some provider)).Sublist (getPluginInterface (some provider)) ∧
    ∀ v ∈ getPluginMethods (some provider), v ∉ getPluginEvents (some provider)
  answers : ∀ (req : CallRequest), Dispatched req provider → ∀ ambient,
    (req.methodName = qstr "name" →
      (callRemoteMethod (ε := Unit) (ω := Unit) req (pure .invalid) ambient).outcome =
        .ok (.value (.string provider.providerName))) ∧
    (req.methodName = qstr "version" →
      (callRemoteMethod (ε := Unit) (ω := Unit) req (pure .invalid) ambient).outcome =
        .ok (.value (.string provider.providerVersion)))

/-- A provider that does not know the method is spoken for by its accessors. -/
theorem outcome_identityFallback {req : CallRequest} {provider : ProviderInterface}
    (h : Dispatched req provider) (hname : req.methodName = qstr "name" ∨
      req.methodName = qstr "version") (ambient : Option CallerDocument) :
    (callRemoteMethod (ε := Unit) (ω := Unit) req (pure .invalid) ambient).outcome =
      .ok (.value (req.identityFallback provider .invalid)) := by
  obtain ⟨hprovider, hargs, hauthorized⟩ := h
  have hne : req.methodName ≠ [] ∧ req.methodName ≠ qstr "getPluginMethods" ∧
      req.methodName ≠ qstr "getPluginEvents" ∧ req.methodName ≠ qstr "getPluginInterface" := by
    rcases hname with hname | hname <;> rw [hname] <;> decide
  simp only [callRemoteMethod, hprovider, hne.1, hne.2.1, hne.2.2.1, hne.2.2.2, hauthorized,
    false_and, if_false, Bool.not_true, Bool.false_eq_true]
  rfl

theorem answers_identity (provider : ProviderInterface) (req : CallRequest)
    (h : Dispatched req provider) (ambient : Option CallerDocument) :
    (req.methodName = qstr "name" →
      (callRemoteMethod (ε := Unit) (ω := Unit) req (pure .invalid) ambient).outcome =
        .ok (.value (.string provider.providerName))) ∧
    (req.methodName = qstr "version" →
      (callRemoteMethod (ε := Unit) (ω := Unit) req (pure .invalid) ambient).outcome =
        .ok (.value (.string provider.providerVersion))) := by
  have hargs : req.args.isEmpty = true := by
    rw [h.2.1]
    rfl
  constructor
  · intro hname
    rw [outcome_identityFallback h (.inl hname)]
    simp [CallRequest.identityFallback, QVariant.isValid, hargs, hname]
  · intro hversion
    have hne : qstr "version" ≠ qstr "name" := by decide
    rw [outcome_identityFallback h (.inr hversion)]
    simp [CallRequest.identityFallback, QVariant.isValid, hargs, hversion, hne]

/-- An event of this name keeps the method out of the listing: the provider lists the name, but
not as a method. -/
def Shadows (provider : ProviderInterface) (name : QString) : Prop :=
  lists provider.getMethods name = true ∧ listsMethod provider.getMethods name = false

/-- **The listing agrees with dispatch exactly when no event shadows an identity method.** -/
theorem listingAgrees_iff (provider : ProviderInterface) :
    ListingAgrees provider ↔
      ¬ Shadows provider (qstr "name") ∧ ¬ Shadows provider (qstr "version") := by
  have hname := listsMethod_getPluginMethods provider (show identity[0] ∈ identity by decide)
  have hversion := listsMethod_getPluginMethods provider (show identity[1] ∈ identity by decide)
  have hshadows : ∀ name, ¬ Shadows provider name ↔
      (lists provider.getMethods name = true → listsMethod provider.getMethods name = true) := by
    intro name
    rw [Shadows, not_and, Bool.not_eq_false]
  rw [hshadows, hshadows]
  constructor
  · intro h
    exact ⟨hname.mp h.name, hversion.mp h.version⟩
  · intro ⟨hn, hv⟩
    refine ⟨hname.mpr hn, hversion.mpr hv, ?_, listings_partition _, answers_identity provider⟩
    rw [getPluginMethods_some]
    exact List.prefix_append _ _

/-- A provider with an event of this name and no method of it. -/
def eventNamed (name : QString) : ProviderInterface where
  getMethods := [.object [(qstr "name", .string name), (qstr "type", .string (qstr "event"))]]
  providerName := qstr "clock"
  providerVersion := qstr "1.0"

/-- With an event `name` the method is answered and not listed. -/
theorem listing_shadowed :
    listsMethod (getPluginMethods (some (eventNamed (qstr "name")))) (qstr "name") = false ∧
      ¬ ListingAgrees (eventNamed (qstr "name")) := by
  have hnot : listsMethod (getPluginMethods (some (eventNamed (qstr "name")))) (qstr "name") =
      false := by decide
  refine ⟨hnot, ?_⟩
  intro h
  have hname := h.name
  rw [hnot] at hname
  cases hname

end ModuleProxy

end LogosProtocol
