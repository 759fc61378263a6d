import LogosProtocol.Lib.Fields
import LogosProtocol.Wire.Base64Url

/-!
# `nlohmann::json`

The part of the JSON library the wire codec uses: the value type with its three kinds of
number, objects kept in key order, and the accessors with the exceptions they throw.  A
`what()` is the text the library gives, as a failed decode reports it.

## Main definitions

* `Json` — a JSON value; `object` holds its entries in key order.
* `Json.value` — `j.value(key, default)`.
* `taggedText`, `bytesToJson` — bytes as an object with the single key `_bytes`.
-/

namespace LogosProtocol

/-- A `double`, by its bits. -/
structure Double where
  bits : UInt64
  deriving DecidableEq, Repr

namespace Double

/-- The exponent field. -/
def exponent (d : Double) : ℕ := d.bits.toNat / 2 ^ 52 % 2 ^ 11

/-- Neither an infinity nor a NaN. -/
def IsFinite (d : Double) : Prop := d.exponent ≠ 2047

instance (d : Double) : Decidable d.IsFinite := inferInstanceAs (Decidable (_ ≠ _))

/-- The magnitude of a finite double, rounded towards zero. -/
def truncAbs (d : Double) : ℕ :=
  let fraction := d.bits.toNat % 2 ^ 52
  let mantissa := if d.exponent = 0 then fraction else 2 ^ 52 + fraction
  if 1075 ≤ d.exponent then mantissa * 2 ^ (d.exponent - 1075)
  else mantissa / 2 ^ (1075 - max d.exponent 1)

/-- `static_cast<uint64_t>`, where the language defines it. -/
def toUInt64? (d : Double) : Option UInt64 :=
  if ¬ d.IsFinite then none
  else if 2 ^ 63 ≤ d.bits.toNat ∧ d.truncAbs ≠ 0 then none
  else if 2 ^ 64 ≤ d.truncAbs then none
  else some d.truncAbs.toUInt64

end Double

/-- A JSON value. -/
inductive Json where
  | null
  | boolean (b : Bool)
  | numberInteger (n : Int64)
  | numberUnsigned (n : UInt64)
  | numberFloat (d : Double)
  | string (s : Bytes)
  | array (items : List Json)
  | object (fields : List (Bytes × Json))
  | binary (b : Bytes)
  deriving Repr

/-- Why a decode stops. -/
inductive DecodeError
  /-- `CodecError`, thrown by the mapping itself. -/
  | codecError (what : String)
  /-- `json::type_error`, thrown by an accessor. -/
  | typeError (id : ℕ) (text : String)
  /-- A conversion of a `double` that the language leaves undefined. -/
  | undefinedCast
  deriving DecidableEq, Repr

namespace DecodeError

/-- `what()` of the exception. -/
def what : DecodeError → String
  | codecError what => what
  | typeError id text => s!"[json.exception.type_error.{id}] {text}"
  | undefinedCast => ""

end DecodeError

namespace Json

/-- The name of a value's kind in exception texts. -/
def typeName : Json → String
  | null => "null"
  | boolean _ => "boolean"
  | numberInteger _ => "number"
  | numberUnsigned _ => "number"
  | numberFloat _ => "number"
  | string _ => "string"
  | array _ => "array"
  | object _ => "object"
  | binary _ => "binary"

/-- `get<bool>()`. -/
def getBool : Json → Except DecodeError Bool
  | boolean b => .ok b
  | j => .error (.typeError 302 s!"type must be boolean, but is {j.typeName}")

/-- `get<uint64_t>()`: any number is cast. -/
def getUInt64 : Json → Except DecodeError UInt64
  | numberUnsigned n => .ok n
  | numberInteger n => .ok n.toUInt64
  | numberFloat d =>
    match d.toUInt64? with
    | some n => .ok n
    | none => .error .undefinedCast
  | j => .error (.typeError 302 s!"type must be number, but is {j.typeName}")

/-- `get<std::string>()`. -/
def getString : Json → Except DecodeError Bytes
  | string s => .ok s
  | j => .error (.typeError 302 s!"type must be string, but is {j.typeName}")

/-- `j[key]` for a key that may be missing. -/
def field? (j : Json) (key : Bytes) : Option Json :=
  match j with
  | object fields => Fields.get? key fields
  | _ => none

/-- `j.value(key, default)`: the default only stands in for a missing key. -/
def value {α : Type} (j : Json) (key : Bytes) (get : Json → Except DecodeError α) (default : α) :
    Except DecodeError α :=
  match j with
  | object fields =>
    match Fields.get? key fields with
    | some v => get v
    | none => .ok default
  | j => .error (.typeError 306 s!"cannot use value() with {j.typeName}")

end Json

/-! ## Tagged bytes -/

/-- The key of the bytes escape. -/
def bytesKey : Bytes := bstr "_bytes"

/-- Bytes, as the object with the single key `_bytes`. -/
def bytesToJson (bytes : Bytes) : Json := .object [(bytesKey, .string (b64UrlEncode bytes))]

/-- The text of the fields `{"_bytes": text}`: exactly one key, `_bytes`, holding a string. -/
def taggedText (fields : List (Bytes × Json)) : Option Bytes :=
  match fields with
  | [(key, .string text)] => if key = bytesKey then some text else none
  | _ => none

theorem taggedText_eq_some_iff (fields : List (Bytes × Json)) (text : Bytes) :
    taggedText fields = some text ↔ fields = [(bytesKey, .string text)] := by
  constructor
  · intro h
    unfold taggedText at h
    split at h
    · split_ifs at h with hkey
      rw [hkey, Option.some.inj h]
    · cases h
  · intro h
    rw [h]
    simp [taggedText]

end LogosProtocol
