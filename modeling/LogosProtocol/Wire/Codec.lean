import LogosProtocol.Lib.Except
import LogosProtocol.Wire.Floats
import LogosProtocol.Wire.JsonText

/-!
# The typed codec

The canonical JSON form of a typed value, and its decoder.  The codec is one template with a
specialisation for each type: a type code says which one the compiler picks, and a vector of
`uint8_t` picks the one for bytes before the one for vectors.  A value that does not match
its type stops the decode with the path of the element that does not.

## Main definitions

* `TypeCode`, `TypeCode.Value` — the types the codec is defined for, and their values.
* `Codec.toJson`, `Codec.fromJson` — the encoder and the decoder of a type.
* `bytesFromJsonLenient` — the forms of bytes the decoder takes.
-/

namespace LogosProtocol

/-! ## Types and values -/

/-- The width of an integral type. -/
inductive Width
  | w8 | w16 | w32 | w64
  deriving DecidableEq, Repr

/-- The width in bits. -/
def Width.bits : Width → ℕ
  | w8 => 8
  | w16 => 16
  | w32 => 32
  | w64 => 64

/-- An integral type other than `bool`. -/
structure Integral where
  isUnsigned : Bool
  width : Width
  deriving DecidableEq, Repr

/-- `uint8_t`. -/
@[match_pattern] def Integral.uint8 : Integral := ⟨true, .w8⟩

/-- The values of an integral type. -/
abbrev Integral.Value (T : Integral) : Type := BitVec T.width.bits

/-- A string-keyed map, as its entries in key order. -/
structure StringMap (V : Type) where
  entries : List (Bytes × V)
  ordered : Fields.Ordered entries

/-- The types the codec is defined for. -/
inductive TypeCode
  | bool
  | string
  | integral (T : Integral)
  | float
  | double
  | any
  | vector (t : TypeCode)
  | map (t : TypeCode)
  | optional (t : TypeCode)
  deriving DecidableEq, Repr

namespace TypeCode

/-- `bstr`. -/
abbrev bytes : TypeCode := .vector (.integral .uint8)

/-- The values of a type. -/
def Value : TypeCode → Type
  | bool => Bool
  | string => Bytes
  | integral T => T.Value
  | float => Single
  | double => Double
  | any => Json
  | vector t => List t.Value
  | map t => StringMap t.Value
  | optional t => Option t.Value

end TypeCode

/-! ## Errors -/

/-- `CodecError`, with its `what()`. -/
structure CodecError where
  what : Bytes
  deriving DecidableEq, Repr

namespace Codec

def joinPath (path step : Bytes) : Bytes := path ++ step

/-- The error for a value of another type than the one expected. -/
def typeError (path : Bytes) (expected : String) (got : Json) : CodecError :=
  ⟨bstr "expected " ++ bstr expected ++
    (if path = [] then bstr " at value" else bstr " at " ++ path) ++
    bstr ", got " ++ bstr got.typeName⟩

end Codec

/-! ## Integers -/

namespace Integral

/-- `std::numeric_limits<T>::min()`. -/
def min (T : Integral) : ℤ := if T.isUnsigned then 0 else -2 ^ (T.width.bits - 1)

/-- `std::numeric_limits<T>::max()`. -/
def max (T : Integral) : ℤ :=
  if T.isUnsigned then 2 ^ T.width.bits - 1 else 2 ^ (T.width.bits - 1) - 1

/-- `static_cast<T>`. -/
def ofInt (T : Integral) (i : ℤ) : T.Value := BitVec.ofInt T.width.bits i

/-- An unsigned type gives an unsigned number, a signed type a signed one. -/
def toJson (T : Integral) (v : T.Value) : Json :=
  if T.isUnsigned then .numberUnsigned (BitVec.toNat v).toUInt64
  else .numberInteger (Int64.ofInt (BitVec.toInt v))

/-- A whole-valued double that the type can represent. -/
def fromFloat (T : Integral) (d : Double) (path : Bytes) : Except CodecError T.Value :=
  let j := Json.numberFloat d
  if ¬ d.isWhole then .error (Codec.typeError path "integer" j)
  else if T.isUnsigned ∧ (d.toInt < 0 ∨ 2 ^ 64 ≤ d.toInt ∨ ¬ d.IsFinite) then
    .error (Codec.typeError path "unsigned integer in range" j)
  else if ¬ T.isUnsigned ∧ (d.toInt < -2 ^ 63 ∨ 2 ^ 63 ≤ d.toInt ∨ ¬ d.IsFinite) then
    .error (Codec.typeError path "signed integer in range" j)
  else if d.toInt < T.min ∨ T.max < d.toInt then
    .error (Codec.typeError path "integer in range" j)
  else .ok (T.ofInt d.toInt)

/-- The decoder of an integral type. -/
def fromJson (T : Integral) (j : Json) (path : Bytes) : Except CodecError T.Value :=
  match j with
  | .numberFloat d => T.fromFloat d path
  | .numberUnsigned n =>
    if T.max < n.toNat then
      .error (Codec.typeError path
        (if T.isUnsigned then "unsigned integer in range" else "signed integer in range") j)
    else .ok (T.ofInt n.toNat)
  | .numberInteger n =>
    if T.isUnsigned then
      if n < 0 then .error (Codec.typeError path "unsigned integer" j)
      else if T.max < n.toInt then
        .error (Codec.typeError path "unsigned integer in range" j)
      else .ok (T.ofInt n.toInt)
    else if n.toInt < T.min ∨ T.max < n.toInt then
      .error (Codec.typeError path "signed integer in range" j)
    else .ok (T.ofInt n.toInt)
  | j => .error (Codec.typeError path "integer" j)

end Integral

/-! ## Bytes, strings and floating point -/

section lenient
variable (floatText : Double → Bytes)

/-- The text of a number. -/
def numberText : Json → Bytes
  | .numberInteger n => bstr (toString n.toInt)
  | .numberUnsigned n => bstr (toString n.toNat)
  | .numberFloat d => if d.IsFinite then floatText d else bstr "null"
  | _ => []

/-- The low byte of an integer of the array, or none for another element. -/
def lowByte? : Json → Option UInt8
  | .numberInteger n => some n.toUInt64.toUInt8
  | .numberUnsigned n => some n.toUInt8
  | _ => none

/-- Tagged bytes, and the other shapes a byte parameter arrives in: a string is its bytes, a
number its decimal text, and an array the integers in it. -/
def bytesFromJsonLenient (j : Json) (path : Bytes) : Except CodecError Bytes :=
  match j with
  | .object fields =>
    match taggedText fields with
    | some text => .ok (b64UrlDecode text)
    | none => .error (Codec.typeError path "bytes" j)
  | .string s => .ok s
  | .numberInteger _ => .ok (numberText floatText j)
  | .numberUnsigned _ => .ok (numberText floatText j)
  | .numberFloat _ => .ok (numberText floatText j)
  | .array items => .ok (items.filterMap lowByte?)
  | j => .error (Codec.typeError path "bytes" j)

end lenient

/-- `get<double>()` of a number. -/
def Json.getDouble : Json → Option Double
  | .numberFloat d => some d
  | .numberInteger n => some (Double.ofInt n.toInt)
  | .numberUnsigned n => some (Double.ofInt n.toNat)
  | _ => none

/-- `get<float>()` of a number. -/
def Json.getFloat : Json → Option Single
  | .numberFloat d => some d.toSingle
  | .numberInteger n => some (Single.ofInt n.toInt)
  | .numberUnsigned n => some (Single.ofInt n.toNat)
  | _ => none

/-! ## Containers -/

namespace StringMap
variable {V : Type}

/-- `std::map::emplace`: a key that is there keeps its value. -/
def emplace (m : StringMap V) (key : Bytes) (v : V) : StringMap V :=
  match Fields.get? key m.entries with
  | some _ => m
  | none => ⟨Fields.set key v m.entries, m.ordered.set key v⟩

end StringMap

namespace Codec

section loops
variable {V : Type} (decode : Json → Bytes → Except CodecError V)

/-- The elements of an array from an index on, each decoded under its own path. -/
def fromItems (path : Bytes) : ℕ → List Json → Except CodecError (List V)
  | _, [] => .ok []
  | i, j :: items => do
    let v ← decode j (joinPath path (bstr s!"[{i}]"))
    let vs ← fromItems path (i + 1) items
    return v :: vs

/-- The members of an object, each decoded under its own path and emplaced. -/
def fromMembers (path : Bytes) :
    StringMap V → List (Bytes × Json) → Except CodecError (StringMap V)
  | out, [] => .ok out
  | out, (key, j) :: fields => do
    let v ← decode j (joinPath path (bstr "." ++ key))
    fromMembers path (out.emplace key v) fields

end loops

/-! ## The codec of a type -/

/-- The encoder of a vector: the one for `std::vector<uint8_t>`, or the generic one. -/
def vectorToJson : (t : TypeCode) → (t.Value → Json) → List t.Value → Json
  | .integral .uint8, _, v => bytesToJson (v.map UInt8.ofBitVec)
  | _, encode, v => .array (v.map encode)

/-- The decoder of an array. -/
def fromArray {V : Type} (decode : Json → Bytes → Except CodecError V) (j : Json)
    (path : Bytes) : Except CodecError (List V) :=
  match j with
  | .array items => fromItems decode path 0 items
  | j => .error (typeError path "array" j)

/-- The decoder of a vector, chosen the same way. -/
def vectorFromJson (floatText : Double → Bytes) : (t : TypeCode) →
    (Json → Bytes → Except CodecError t.Value) → Json → Bytes → Except CodecError (List t.Value)
  | .integral .uint8, _, j, path =>
    (bytesFromJsonLenient floatText j path).map (List.map UInt8.toBitVec)
  | _, decode, j, path => fromArray decode j path

/-- The encoder of a type. -/
def toJson : (t : TypeCode) → t.Value → Json
  | .bool, v => .boolean v
  | .string, v => .string v
  | .integral T, v => T.toJson v
  | .float, v => .numberFloat (Single.toDouble v)
  | .double, v => .numberFloat v
  | .any, v => v
  | .vector t, v => vectorToJson t (toJson t) v
  | .map t, v => .object (Fields.setAll [] (v.entries.map fun e => (e.1, toJson t e.2)))
  | .optional t, v =>
    match v with
    | none => .null
    | some v => toJson t v

/-- The decoder of a type. -/
def fromJson (floatText : Double → Bytes) :
    (t : TypeCode) → Json → Bytes → Except CodecError t.Value
  | .bool, j, path =>
    match j with
    | .boolean b => .ok b
    | j => .error (typeError path "bool" j)
  | .string, j, path =>
    match j with
    | .string s => .ok s
    | j => .error (typeError path "string" j)
  | .integral T, j, path => T.fromJson j path
  | .float, j, path =>
    match j.getFloat with
    | some v => .ok v
    | none => .error (typeError path "number" j)
  | .double, j, path =>
    match j.getDouble with
    | some v => .ok v
    | none => .error (typeError path "number" j)
  | .any, j, _ => .ok j
  | .vector t, j, path => vectorFromJson floatText t (fromJson floatText t) j path
  | .map t, j, path =>
    match j with
    | .object fields => fromMembers (fromJson floatText t) path ⟨[], .nil⟩ fields
    | j => .error (typeError path "object" j)
  | .optional t, j, path =>
    match j with
    | .null => .ok none
    | j => (fromJson floatText t j path).map some

/-! ## What the codec of a type unfolds to -/

section equations
variable (floatText : Double → Bytes) (t : TypeCode)

/-- A vector of `uint8_t` picks the codec for bytes. -/
theorem vectorToJson_uint8 (encode : Integral.uint8.Value → Json)
    (v : List Integral.uint8.Value) : vectorToJson (.integral .uint8) encode v =
      bytesToJson (v.map UInt8.ofBitVec) := rfl

theorem vectorFromJson_uint8 (decode : Json → Bytes → Except CodecError Integral.uint8.Value)
    (j : Json) (path : Bytes) : vectorFromJson floatText (.integral .uint8) decode j path =
      (bytesFromJsonLenient floatText j path).map (List.map UInt8.toBitVec) := rfl

/-- A vector of anything but `uint8_t` picks the generic codec. -/
theorem vectorToJson_of_ne {t : TypeCode} (h : t ≠ .integral .uint8) (encode : t.Value → Json)
    (v : List t.Value) : vectorToJson t encode v = .array (v.map encode) := by
  cases t with
  | integral T =>
    obtain ⟨u, w⟩ := T
    cases u <;> cases w <;> first | rfl | exact absurd rfl h
  | _ => rfl

theorem vectorFromJson_of_ne {t : TypeCode} (h : t ≠ .integral .uint8)
    (decode : Json → Bytes → Except CodecError t.Value) (j : Json) (path : Bytes) :
    vectorFromJson floatText t decode j path = fromArray decode j path := by
  cases t with
  | integral T =>
    obtain ⟨u, w⟩ := T
    cases u <;> cases w <;> first | rfl | exact absurd rfl h
  | _ => rfl

theorem toJson_vector_eq (v : List t.Value) :
    toJson (.vector t) v = vectorToJson t (toJson t) v := rfl

theorem toJson_map_eq (v : StringMap t.Value) : toJson (.map t) v =
    .object (Fields.setAll [] (v.entries.map fun e => (e.1, toJson t e.2))) := rfl

theorem toJson_some (v : t.Value) : toJson (.optional t) (some v) = toJson t v := rfl

theorem fromJson_vector_eq (j : Json) (path : Bytes) : fromJson floatText (.vector t) j path =
    vectorFromJson floatText t (fromJson floatText t) j path := rfl

theorem fromJson_map_object (fields : List (Bytes × Json)) (path : Bytes) :
    fromJson floatText (.map t) (.object fields) path =
      fromMembers (fromJson floatText t) path ⟨[], .nil⟩ fields := rfl

/-- A value that is not null is decoded by the codec of the element. -/
theorem fromJson_optional_of_ne {j : Json} (h : j ≠ .null) (path : Bytes) :
    fromJson floatText (.optional t) j path = (fromJson floatText t j path).map some := by
  cases j with
  | null => exact absurd rfl h
  | _ => rfl

end equations

end Codec

end LogosProtocol
