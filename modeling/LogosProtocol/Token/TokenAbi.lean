import LogosProtocol.Lib.Lockstep
import LogosProtocol.Lib.Fields
import LogosProtocol.Token.TwoMaps
import LogosProtocol.Wire.Json

/-!
# The token calls of the C ABI, in two images

A module calls `lp_token_save`, `lp_token_save_inbound`, `lp_token_get`, `lp_token_keys` and
`lp_grant_host_services`.  A desktop image answers them from `TokenManager::instance()`, a wasm
image from a store of two `std::map`s.  The two copies of the entry points differ in where a
name is refused: the Qt entry point of `lp_token_save` asks only for the reserved character, and
the wasm store also refuses the empty name.

`QString::fromUtf8` and the JSON parser are parameters.

## Main definitions

* `TokenCall`, `TokenAnswer` — the calls and what they return; a hash lists its keys in any
  order, so answers are compared by `TokenAnswer.Same`.
* `QtImage`, `WasmTokenStore`, `WasmImage` — the two images and their entry points.
* `QtImage.apply`, `WasmImage.apply` — one call.
-/

namespace LogosProtocol

/-- A call of the token ABI.  An argument is a C string or a null pointer. -/
inductive TokenCall
  | save (moduleName token : Option Bytes)
  | saveInbound (caller token : Option Bytes)
  | get (moduleName : Option Bytes)
  | keys
  | grant (servicesJson : Option Bytes)
  deriving DecidableEq

/-- What a call returns: a code, a token or null, or the names in the array or null. -/
inductive TokenAnswer
  | code (rc : ℤ)
  | token (token : Option Bytes)
  | keys (names : Option (List Bytes))
  deriving DecidableEq

/-- The same answer; the names of an array may stand in any order. -/
inductive TokenAnswer.Same : TokenAnswer → TokenAnswer → Prop
  | refl (a : TokenAnswer) : Same a a
  | reorder {names names' : List Bytes} :
      names.Perm names' → Same (.keys (some names)) (.keys (some names'))

namespace TokenAnswer.Same
variable {a b c : TokenAnswer}

theorem symm (h : a.Same b) : b.Same a := by
  cases h with
  | refl => exact .refl a
  | reorder h => exact .reorder h.symm

theorem trans (h : a.Same b) (h' : b.Same c) : a.Same c := by
  cases h with
  | refl => exact h'
  | reorder h =>
    cases h' with
    | refl => exact .reorder h
    | reorder h' => exact .reorder (h.trans h')

end TokenAnswer.Same

def lpOk : ℤ := 0
def lpErrInvalidArg : ℤ := -1

/-! ## Host services -/

def serviceTokenRegistry : UInt32 := 1
def serviceTokenDelivery : UInt32 := 2

def hostServiceBit (name : Bytes) : Option UInt32 :=
  if name = bstr "token_registry" then some serviceTokenRegistry
  else if name = bstr "token_delivery" then some serviceTokenDelivery
  else none

def hostServiceGranted (hostServices service : UInt32) : Bool := hostServices &&& service != 0

/-- The loop over the entries: anything but the name of a service rejects the whole list. -/
def addServices (granted : UInt32) : List Json → Option UInt32
  | [] => some granted
  | .string name :: entries =>
    match hostServiceBit name with
    | none => none
    | some bit => addServices (granted ||| bit) entries
  | _ :: _ => none

/-- What a list of services grants; none if it is rejected. -/
def grantedBy (parse : Bytes → Option Json) (servicesJson : Option Bytes) : Option UInt32 :=
  match servicesJson with
  | none => some 0
  | some [] => some 0
  | some text =>
    match parse text with
    | some (.array entries) => addServices 0 entries
    | _ => none

/-! ## The Qt image -/

theorem TokenManager.outbound_saveInboundToken (m : TokenManager) (caller token : QString) :
    (m.saveInboundToken caller token).2.maps.outbound = m.maps.outbound := by
  have hmaps := congrArg Prod.snd (m.maps_saveInboundToken caller token)
  rw [show (m.saveInboundToken caller token).2.maps = _ from hmaps, TokenMaps.apply_outbound]

/-- `TokenManager::instance()` and the grant. -/
structure QtImage where
  tokens : TokenManager := .empty
  hostServices : UInt32 := 0

namespace QtImage

def lpTokenSave (fromUtf8 : Bytes → QString) (image : QtImage) :
    Option Bytes → Option Bytes → TokenAnswer × QtImage
  | some moduleName, some token =>
    let key := fromUtf8 moduleName
    if isReservedKey key then (.code lpErrInvalidArg, image)
    else (.code lpOk, { image with tokens := image.tokens.saveToken key (fromUtf8 token) })
  | _, _ => (.code lpErrInvalidArg, image)

def lpTokenSaveInbound (fromUtf8 : Bytes → QString) (image : QtImage) :
    Option Bytes → Option Bytes → TokenAnswer × QtImage
  | some caller, some token =>
    let callerName := fromUtf8 caller
    let value := fromUtf8 token
    let saved := image.tokens.saveInboundToken callerName value
    if !saved.1 then (.code lpErrInvalidArg, image)
    -- The carve-out: the registry presents what it is given.
    else if hostServiceGranted image.hostServices serviceTokenRegistry then
      (.code lpOk, { image with tokens := saved.2.saveToken callerName value })
    else (.code lpOk, { image with tokens := saved.2 })
  | _, _ => (.code lpErrInvalidArg, image)

def lpTokenGet (fromUtf8 : Bytes → QString) (image : QtImage) (moduleName : Option Bytes) :
    TokenAnswer :=
  match moduleName with
  | none => .token none
  | some moduleName =>
    let token := image.tokens.getToken (fromUtf8 moduleName)
    if token.isEmpty then .token none else .token (some token.toUtf8)

def lpTokenKeys (image : QtImage) : TokenAnswer :=
  if !hostServiceGranted image.hostServices serviceTokenRegistry then .keys none
  else .keys (some (image.tokens.getTokenKeys.map QString.toUtf8))

def lpGrantHostServices (parse : Bytes → Option Json) (image : QtImage)
    (servicesJson : Option Bytes) : TokenAnswer × QtImage :=
  match grantedBy parse servicesJson with
  | none => (.code lpErrInvalidArg, image)
  | some granted => (.code lpOk, { image with hostServices := granted })

def apply (fromUtf8 : Bytes → QString) (parse : Bytes → Option Json) (image : QtImage) :
    TokenCall → TokenAnswer × QtImage
  | .save moduleName token => image.lpTokenSave fromUtf8 moduleName token
  | .saveInbound caller token => image.lpTokenSaveInbound fromUtf8 caller token
  | .get moduleName => (image.lpTokenGet fromUtf8 moduleName, image)
  | .keys => (image.lpTokenKeys, image)
  | .grant servicesJson => image.lpGrantHostServices parse servicesJson

end QtImage

/-! ## The wasm image -/

/-- Two ordered maps, one for each direction. -/
structure WasmTokenStore where
  outbound : List (Bytes × Bytes) := []
  inbound : List (Bytes × Bytes) := []
  outbound_ordered : Fields.Ordered outbound := by exact .nil
  inbound_ordered : Fields.Ordered inbound := by exact .nil

namespace WasmTokenStore

def kNamespaceChar : UInt8 := 1

def isReservedKey (key : Bytes) : Bool := key.contains kNamespaceChar

def saveOutbound (store : WasmTokenStore) (moduleName token : Bytes) : Bool × WasmTokenStore :=
  if moduleName.isEmpty || isReservedKey moduleName then (false, store)
  else
    (true,
      { store with
        outbound := Fields.set moduleName token store.outbound
        outbound_ordered := store.outbound_ordered.set moduleName token })

/-- Empty when absent. -/
def outboundToken (store : WasmTokenStore) (moduleName : Bytes) : Bytes :=
  (Fields.get? moduleName store.outbound).getD []

def outboundKeys (store : WasmTokenStore) : List Bytes := store.outbound.map Prod.fst

def saveInbound (store : WasmTokenStore) (caller token : Bytes) : Bool × WasmTokenStore :=
  if caller.isEmpty || token.isEmpty || isReservedKey caller then (false, store)
  else
    (true,
      { store with
        inbound := Fields.set caller token store.inbound
        inbound_ordered := store.inbound_ordered.set caller token })

/-- Recording what a caller may present leaves the outbound map alone. -/
theorem outbound_saveInbound (store : WasmTokenStore) (caller token : Bytes) :
    (store.saveInbound caller token).2.outbound = store.outbound := by
  rw [saveInbound]
  split_ifs <;> rfl

end WasmTokenStore

/-- `WasmTokenStore::instance()` and the grant. -/
structure WasmImage where
  store : WasmTokenStore := {}
  hostServices : UInt32 := 0

namespace WasmImage

def lpTokenSave (image : WasmImage) : Option Bytes → Option Bytes → TokenAnswer × WasmImage
  | some moduleName, some token =>
    let saved := image.store.saveOutbound moduleName token
    if saved.1 then (.code lpOk, { image with store := saved.2 })
    else (.code lpErrInvalidArg, image)
  | _, _ => (.code lpErrInvalidArg, image)

def lpTokenSaveInbound (image : WasmImage) :
    Option Bytes → Option Bytes → TokenAnswer × WasmImage
  | some caller, some token =>
    let saved := image.store.saveInbound caller token
    if !saved.1 then (.code lpErrInvalidArg, image)
    else if hostServiceGranted image.hostServices serviceTokenRegistry then
      (.code lpOk, { image with store := (saved.2.saveOutbound caller token).2 })
    else (.code lpOk, { image with store := saved.2 })
  | _, _ => (.code lpErrInvalidArg, image)

def lpTokenGet (image : WasmImage) (moduleName : Option Bytes) : TokenAnswer :=
  match moduleName with
  | none => .token none
  | some moduleName =>
    let token := image.store.outboundToken moduleName
    if token.isEmpty then .token none else .token (some token)

def lpTokenKeys (image : WasmImage) : TokenAnswer :=
  if !hostServiceGranted image.hostServices serviceTokenRegistry then .keys none
  else .keys (some image.store.outboundKeys)

def lpGrantHostServices (parse : Bytes → Option Json) (image : WasmImage)
    (servicesJson : Option Bytes) : TokenAnswer × WasmImage :=
  match grantedBy parse servicesJson with
  | none => (.code lpErrInvalidArg, image)
  | some granted => (.code lpOk, { image with hostServices := granted })

def apply (parse : Bytes → Option Json) (image : WasmImage) : TokenCall → TokenAnswer × WasmImage
  | .save moduleName token => image.lpTokenSave moduleName token
  | .saveInbound caller token => image.lpTokenSaveInbound caller token
  | .get moduleName => (image.lpTokenGet moduleName, image)
  | .keys => (image.lpTokenKeys, image)
  | .grant servicesJson => image.lpGrantHostServices parse servicesJson

end WasmImage

/-! ## The parameters on texts used as examples -/

/-- `QString::fromUtf8` of an ASCII text. -/
def asciiFromUtf8 (b : Bytes) : QString := b.map fun c => c.toNat.toUInt16

/-- A list of one service, as JSON text. -/
def registryJson : Bytes := bstr "[\"token_registry\"]"

/-- The parser on that text. -/
def parseRegistry (text : Bytes) : Option Json :=
  if text = registryJson then some (.array [.string (bstr "token_registry")]) else none

end LogosProtocol
