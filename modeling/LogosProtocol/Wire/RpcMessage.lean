import LogosProtocol.Wire.Json

/-!
# The values and messages of the wire

## Main definitions

* `RpcValue` — what an argument, a result or an event carries.
* `AnyMessage` — the eight messages; `messageTypeOf` is the tag each is sent under.
-/

namespace LogosProtocol

/-- A value of the wire RPC layer.  A map keeps its entries as they were added. -/
inductive RpcValue where
  | null
  | bool (b : Bool)
  | int (n : Int64)
  | uint (n : UInt64)
  | double (d : Double)
  | string (s : Bytes)
  | bytes (data : Bytes)
  | list (items : List RpcValue)
  | map (entries : List (Bytes × RpcValue))
  deriving Repr

namespace RpcValue

/-- `makeInteger`: the unsigned alternative is only for what `int64_t` cannot hold. -/
def makeInteger (n : UInt64) : RpcValue :=
  if n ≤ Int64.maxValue.toUInt64 then .int n.toInt64 else .uint n

/-- To prove something of every value, take the members of a list and the values of a map
as given. -/
@[induction_eliminator]
theorem induct {motive : RpcValue → Prop} (null : motive .null) (bool : ∀ b, motive (.bool b))
    (int : ∀ n, motive (.int n)) (uint : ∀ n, motive (.uint n))
    (double : ∀ d, motive (.double d)) (string : ∀ s, motive (.string s))
    (bytes : ∀ data, motive (.bytes data))
    (list : ∀ items, (∀ v ∈ items, motive v) → motive (.list items))
    (map : ∀ entries, (∀ e ∈ entries, motive e.2) → motive (.map entries)) :
    ∀ v, motive v
  | .null => null
  | .bool b => bool b
  | .int n => int n
  | .uint n => uint n
  | .double d => double d
  | .string s => string s
  | .bytes data => bytes data
  | .list items =>
    list items fun v _ => induct null bool int uint double string bytes list map v
  | .map entries =>
    map entries fun e _ => induct null bool int uint double string bytes list map e.2
termination_by v => sizeOf v
decreasing_by
  · have := List.sizeOf_lt_of_mem ‹v ∈ items›
    simp
    omega
  · have := List.sizeOf_lt_of_mem ‹e ∈ entries›
    have : sizeOf e.2 < sizeOf e := by
      obtain ⟨key, v⟩ := e
      simp
    simp
    omega

end RpcValue

/-! ## Messages -/

/-- The tag byte of a frame that holds a message. -/
inductive MessageType
  | call
  | result
  | subscribe
  | unsubscribe
  | event
  | token
  | methods
  | methodsResult
  deriving DecidableEq, Repr

namespace MessageType

/-- The value on the wire. -/
def code : MessageType → UInt8
  | call => 1
  | result => 2
  | subscribe => 3
  | unsubscribe => 4
  | event => 5
  | token => 6
  | methods => 7
  | methodsResult => 8

/-- The message type a tag byte stands for; the cast of a byte checks nothing, so a tag may
stand for none. -/
def ofCode? (tag : UInt8) : Option MessageType :=
  [call, result, subscribe, unsubscribe, event, token, methods, methodsResult].find?
    fun t => t.code == tag

@[simp] theorem ofCode?_code (t : MessageType) : ofCode? t.code = some t := by
  cases t <;> rfl

end MessageType

/-- What introspection says of one method. -/
structure MethodMetadata where
  name : Bytes := []
  signature : Bytes := []
  returnType : Bytes := []
  isInvokable : Bool := true
  parameters : List RpcValue := []
  deriving Repr

structure CallMessage where
  id : UInt64
  authToken : Bytes
  object : Bytes
  method : Bytes
  args : List RpcValue
  /-- The caller document; empty is "not supplied". -/
  caller : Bytes
  deriving Repr

structure ResultMessage where
  id : UInt64
  ok : Bool := false
  /-- Present when `ok`. -/
  value : RpcValue := .null
  /-- Present when not `ok`, as is the next. -/
  err : Bytes := []
  errCode : Bytes := []
  deriving Repr

structure SubscribeMessage where
  object : Bytes
  eventName : Bytes
  deriving DecidableEq, Repr

structure UnsubscribeMessage where
  object : Bytes
  eventName : Bytes
  deriving DecidableEq, Repr

structure EventMessage where
  object : Bytes
  eventName : Bytes
  data : List RpcValue
  deriving Repr

structure TokenMessage where
  authToken : Bytes
  moduleName : Bytes
  token : Bytes
  deriving DecidableEq, Repr

structure MethodsMessage where
  id : UInt64
  authToken : Bytes
  object : Bytes
  deriving DecidableEq, Repr

structure MethodsResultMessage where
  id : UInt64
  ok : Bool := false
  methods : List MethodMetadata := []
  err : Bytes := []
  deriving Repr

/-- Every message the wire knows. -/
inductive AnyMessage
  | call (m : CallMessage)
  | result (m : ResultMessage)
  | subscribe (m : SubscribeMessage)
  | unsubscribe (m : UnsubscribeMessage)
  | event (m : EventMessage)
  | token (m : TokenMessage)
  | methods (m : MethodsMessage)
  | methodsResult (m : MethodsResultMessage)
  deriving Repr

/-- The tag a message is sent under. -/
def messageTypeOf : AnyMessage → MessageType
  | .call _ => .call
  | .result _ => .result
  | .subscribe _ => .subscribe
  | .unsubscribe _ => .unsubscribe
  | .event _ => .event
  | .token _ => .token
  | .methods _ => .methods
  | .methodsResult _ => .methodsResult

end LogosProtocol
