import LogosProtocol.Qt.Text
import LogosProtocol.Wire.ByValue
import LogosProtocol.Wire.JsonMapping

/-!
# Values held by a `QVariant`

The three converters at the Qt boundary: to JSON for a caller in the same process, to a value
of the wire for a peer, and from JSON.  The first two are written separately, each with its
own list of types; what a type they do not name becomes is up to Qt.  The `QVariant` here has
the types the converters tell apart, where the calls of a handle only tell apart what an
answer can hold.

## Main definitions

* `QVariant` — a value of one of the types the converters meet.
* `qvariantToNlohmann`, `qvariantToRpcValue` — the two ways out.
* `nlohmannToQVariant`, `nlohmannArgsToQVariantList` — the way in.
-/

namespace LogosProtocol.Convert

/-- A value of one of the types the converters meet.  A `QVariantMap` is its entries in key
order, and a `LogosResult` its three fields. -/
inductive QVariant where
  | invalid
  | bool (b : Bool)
  | int (n : Int32)
  | uint (n : UInt32)
  | longLong (n : Int64)
  | ulongLong (n : UInt64)
  | double (d : Double)
  | string (s : QString)
  | byteArray (b : Bytes)
  | stringList (items : List QString)
  | list (items : List QVariant)
  | map (entries : List (QString × QVariant))
  | logosResult (success : Bool) (value error : QVariant)
  deriving Repr

namespace QVariant

/-- To prove something of every value, take the members of a list, the values of a map and the
payloads of a result as given. -/
theorem induct {motive : QVariant → Prop} (invalid : motive .invalid)
    (bool : ∀ b, motive (.bool b)) (int : ∀ n, motive (.int n)) (uint : ∀ n, motive (.uint n))
    (longLong : ∀ n, motive (.longLong n)) (ulongLong : ∀ n, motive (.ulongLong n))
    (double : ∀ d, motive (.double d)) (string : ∀ s, motive (.string s))
    (byteArray : ∀ b, motive (.byteArray b)) (stringList : ∀ items, motive (.stringList items))
    (list : ∀ items, (∀ v ∈ items, motive v) → motive (.list items))
    (map : ∀ entries, (∀ e ∈ entries, motive e.2) → motive (.map entries))
    (logosResult : ∀ success value error, motive value → motive error →
      motive (.logosResult success value error)) : ∀ v, motive v
  | .invalid => invalid
  | .bool b => bool b
  | .int n => int n
  | .uint n => uint n
  | .longLong n => longLong n
  | .ulongLong n => ulongLong n
  | .double d => double d
  | .string s => string s
  | .byteArray b => byteArray b
  | .stringList items => stringList items
  | .list items => list items fun v _ => induct invalid bool int uint longLong ulongLong double
    string byteArray stringList list map logosResult v
  | .map entries => map entries fun e _ => induct invalid bool int uint longLong ulongLong double
    string byteArray stringList list map logosResult e.2
  | .logosResult success value error => logosResult success value error
    (induct invalid bool int uint longLong ulongLong double string byteArray stringList list map
      logosResult value)
    (induct invalid bool int uint longLong ulongLong double string byteArray stringList list map
      logosResult error)
termination_by v => sizeOf v
decreasing_by
  · have := List.sizeOf_lt_of_mem ‹v ∈ items›
    simp
    omega
  · have := List.sizeOf_lt_of_mem ‹e ∈ entries›
    have : sizeOf e.2 < sizeOf e := by
      obtain ⟨key, v⟩ := e
      simp
    simp
    omega
  · simp
    omega
  · simp

end QVariant

/-! ## Qt's own conversions -/

/-- `QJsonValue::fromVariant(v).toString()`, where that is a string: a string, and what else
converts to a text that is not empty. -/
def jsonText : QVariant → Option QString
  | .string s => some s
  | .byteArray b =>
    let text := QString.fromStdString b
    if text = [] then none else some text
  | _ => none

/-- A double through a `QJsonValue`, which stores a whole one as an integer and has no other
number than the finite ones. -/
def jsonDouble (d : Double) : Json :=
  if d.IsFinite then .numberFloat (if d.bits = 0x8000000000000000 then ⟨0⟩ else d) else .null

/-- `QVariant::toString()` of a string list, which converts if there is exactly one. -/
def singleText : List QString → QString
  | [s] => s
  | _ => []

/-! ## To JSON -/

mutual

def qvariantToNlohmann : QVariant → Json
  | .byteArray b => bytesToJson b
  | .logosResult success value error => jsonObject [
      (bstr "success", .boolean success),
      (bstr "value", qvariantToNlohmann value),
      (bstr "error",
        match jsonText error with
        | some text => .string text.toUtf8
        | none => .null)]
  | .int n => .numberInteger n.toInt64
  | .uint n => .numberUnsigned n.toUInt64
  | .longLong n => .numberInteger n
  | .ulongLong n => .numberUnsigned n
  | .stringList items => .array (items.map fun s => .string s.toUtf8)
  | .list items => .array (itemsToNlohmann items)
  | .map entries => .object (Fields.setAll [] (entriesToNlohmann entries))
  | .string s => .string s.toUtf8
  | .bool b => .boolean b
  | .double d => jsonDouble d
  | .invalid => .null

def itemsToNlohmann : List QVariant → List Json
  | [] => []
  | v :: items => qvariantToNlohmann v :: itemsToNlohmann items

def entriesToNlohmann : List (QString × QVariant) → List (Bytes × Json)
  | [] => []
  | (key, v) :: entries => (key.toUtf8, qvariantToNlohmann v) :: entriesToNlohmann entries

end

/-! ## To a value of the wire -/

mutual

def qvariantToRpcValue : QVariant → RpcValue
  | .invalid => .null
  | .logosResult success value error => .map [
      (bstr "success", .bool success),
      (bstr "value", qvariantToRpcValue value),
      (bstr "error", qvariantToRpcValue error)]
  | .bool b => .bool b
  | .int n => .int n.toInt64
  | .longLong n => .int n
  | .uint n => .makeInteger n.toUInt64
  | .ulongLong n => .makeInteger n
  | .double d => .double d
  | .string s => .string s.toUtf8
  | .byteArray b => .bytes b
  | .list items => .list (itemsToRpc items)
  | .map entries => .map (entriesToRpc entries)
  -- The best-effort fallback: stringify.
  | .stringList items => .string (singleText items).toUtf8

def itemsToRpc : List QVariant → List RpcValue
  | [] => []
  | v :: items => qvariantToRpcValue v :: itemsToRpc items

def entriesToRpc : List (QString × QVariant) → List (Bytes × RpcValue)
  | [] => []
  | (key, v) :: entries => (key.toUtf8, qvariantToRpcValue v) :: entriesToRpc entries

end

/-! ## From JSON -/

mutual

def nlohmannToQVariant : Json → QVariant
  | .null => .invalid
  | .boolean b => .bool b
  | .numberUnsigned n => .ulongLong n
  | .numberInteger n => .longLong n
  | .numberFloat d => .double d
  | .string s => .string (QString.fromStdString s)
  | .object fields =>
    match taggedText fields with
    | some text => .byteArray (b64UrlDecode text)
    | none => .map (Fields.setAll [] (fieldsToEntries fields))
  | .array items => .list (itemsToQVariants items)
  | .binary _ => .invalid

def itemsToQVariants : List Json → List QVariant
  | [] => []
  | j :: items => nlohmannToQVariant j :: itemsToQVariants items

def fieldsToEntries : List (Bytes × Json) → List (QString × QVariant)
  | [] => []
  | (key, j) :: fields =>
    (QString.fromStdString key, nlohmannToQVariant j) :: fieldsToEntries fields

end

/-- One argument of a call. -/
def nlohmannArgToQVariant : Json → QVariant
  | .string s => .string (QString.fromStdString s)
  | .boolean b => .bool b
  | .numberUnsigned n => .ulongLong n
  | .numberInteger n => .longLong n
  | .numberFloat d => .double d
  | .null => .invalid
  | .object fields =>
    match taggedText fields with
    | some text => .byteArray (b64UrlDecode text)
    | none => nlohmannToQVariant (.object fields)
  | .array items => nlohmannToQVariant (.array items)
  | .binary _ => .invalid

/-- The arguments of a call; what is not an array carries none. -/
def nlohmannArgsToQVariantList : Json → List QVariant
  | .array args => args.map nlohmannArgToQVariant
  | _ => []

/-! ## What the converters do to containers -/

@[simp] theorem qvariantToNlohmann_list (items : List QVariant) :
    qvariantToNlohmann (.list items) = .array (items.map qvariantToNlohmann) := by
  have hitems : itemsToNlohmann items = items.map qvariantToNlohmann := by
    induction items with
    | nil => rfl
    | cons v items ih => rw [itemsToNlohmann, ih, List.map_cons]
  rw [qvariantToNlohmann, hitems]

@[simp] theorem qvariantToNlohmann_map (entries : List (QString × QVariant)) :
    qvariantToNlohmann (.map entries) = .object (Fields.setAll []
      (entries.map fun e => (e.1.toUtf8, qvariantToNlohmann e.2))) := by
  have hentries : entriesToNlohmann entries =
      entries.map fun e => (e.1.toUtf8, qvariantToNlohmann e.2) := by
    induction entries with
    | nil => rfl
    | cons e entries ih => rw [entriesToNlohmann, ih, List.map_cons]
  rw [qvariantToNlohmann, hentries]

@[simp] theorem qvariantToRpcValue_list (items : List QVariant) :
    qvariantToRpcValue (.list items) = .list (items.map qvariantToRpcValue) := by
  have hitems : itemsToRpc items = items.map qvariantToRpcValue := by
    induction items with
    | nil => rfl
    | cons v items ih => rw [itemsToRpc, ih, List.map_cons]
  rw [qvariantToRpcValue, hitems]

@[simp] theorem qvariantToRpcValue_map (entries : List (QString × QVariant)) :
    qvariantToRpcValue (.map entries) =
      .map (entries.map fun e => (e.1.toUtf8, qvariantToRpcValue e.2)) := by
  have hentries : entriesToRpc entries =
      entries.map fun e => (e.1.toUtf8, qvariantToRpcValue e.2) := by
    induction entries with
    | nil => rfl
    | cons e entries ih => rw [entriesToRpc, ih, List.map_cons]
  rw [qvariantToRpcValue, hentries]

@[simp] theorem nlohmannToQVariant_array (items : List Json) :
    nlohmannToQVariant (.array items) = .list (items.map nlohmannToQVariant) := by
  have hitems : itemsToQVariants items = items.map nlohmannToQVariant := by
    induction items with
    | nil => rfl
    | cons j items ih => rw [itemsToQVariants, ih, List.map_cons]
  rw [nlohmannToQVariant, hitems]

/-- An object that is not tagged bytes becomes a map. -/
theorem nlohmannToQVariant_object {fields : List (Bytes × Json)} (h : taggedText fields = none) :
    nlohmannToQVariant (.object fields) = .map (Fields.setAll []
      (fields.map fun e => (QString.fromStdString e.1, nlohmannToQVariant e.2))) := by
  have hentries : fieldsToEntries fields =
      fields.map fun e => (QString.fromStdString e.1, nlohmannToQVariant e.2) := by
    clear h
    induction fields with
    | nil => rfl
    | cons e fields ih => rw [fieldsToEntries, ih, List.map_cons]
  rw [nlohmannToQVariant, h, hentries]

/-- **An argument is converted like any other value.** -/
theorem nlohmannArgToQVariant_eq (j : Json) : nlohmannArgToQVariant j = nlohmannToQVariant j := by
  cases j with
  | object fields =>
    simp only [nlohmannArgToQVariant]
    cases h : taggedText fields with
    | some text => simp only [nlohmannToQVariant, h]
    | none => rfl
  | null => rfl
  | boolean b => rfl
  | numberInteger n => rfl
  | numberUnsigned n => rfl
  | numberFloat d => rfl
  | string s => rfl
  | array items => rfl
  | binary b => rfl

end LogosProtocol.Convert
