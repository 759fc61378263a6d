import LogosProtocol.Rpc.PendingCalls
import LogosProtocol.Wire.Numbers
import LogosProtocol.Wire.WebMessage

/-!
# Numbers of a received message

A received envelope has a `type` and most payloads have an `id`.  Both are numbers of a JSON
value, and both are read with `get<integral>()`, which casts: the type to an `int`, after a check
that it is an integer, and the id to a `uint64_t`, after none.  A cast keeps the low bits of an
integer and drops the fraction of a double, so a message may be taken for one of another type, or
for the answer to another call.

## Main definitions

* `decodeWebMessage` — the message of an envelope.
* `TagExact`, `IdExact` — a message is taken for what its numbers say.

## Main results

* `decode_exact_iff` — the envelopes and payloads of which this holds.
-/

namespace LogosProtocol

/-! ## The decoder -/

/-- Why an envelope is not decoded. -/
inductive WebDecodeError
  | framing (e : FramingError)
  | decode (e : DecodeError)
  deriving DecidableEq, Repr

/-- The message of an envelope.  The cap is checked before the text is parsed. -/
def decodeWebMessage (json : WireCodec) (text : Bytes) : Except WebDecodeError AnyMessage :=
  if exceedsCap text.length then .error (.framing .frameLengthExceedsCap)
  else
    match json.parse text with
    | .error what => .error (.decode (.codecError s!"web message parse failed: {what}"))
    | .ok envelope =>
      match envelope.field? (bstr "type"), envelope.field? (bstr "payload") with
      | some type, some payload =>
        if !type.isNumberInteger then
          .error (.decode (.codecError "web message type tag is not an integer"))
        else
          match type.getInt with
          | .error e => .error (.decode e)
          | .ok tag =>
            if tag < 1 ∨ 8 < tag then
              .error (.decode (.codecError "web message carries an unknown type tag"))
            else (jsonToMessage tag.toInt.toNat.toUInt8 payload).mapError .decode
      | _, _ => .error (.decode (.codecError "web message is not a \x7btype, payload\x7d envelope"))

/-! ## The type of an envelope -/

/-- The casts of two integers are the same when their low 32 bits are. -/
theorem toInt_ofInt_eq_iff (v : ℤ) (t : MessageType) :
    (Int32.ofInt v).toInt = t.code.toNat ↔ v % 2 ^ 32 = t.code.toNat := by
  have hsmall : t.code.toNat < 9 := by cases t <;> decide
  rw [Int32.toInt_ofInt, Int.bmod_def, show (Int32.size : ℤ) = 2 ^ 32 from rfl]
  split_ifs
  · rfl
  · omega

/-- The tags in range are those of the messages. -/
theorem exists_code_iff (tag : Int32) :
    ¬ (tag < 1 ∨ 8 < tag) ↔ ∃ t : MessageType, tag.toInt = t.code.toNat := by
  have hone : (1 : Int32).toInt = 1 := rfl
  have height : (8 : Int32).toInt = 8 := rfl
  rw [Int32.lt_iff_toInt_lt, Int32.lt_iff_toInt_lt, hone, height]
  constructor
  · intro h
    have hcases : tag.toInt = 1 ∨ tag.toInt = 2 ∨ tag.toInt = 3 ∨ tag.toInt = 4 ∨ tag.toInt = 5 ∨
        tag.toInt = 6 ∨ tag.toInt = 7 ∨ tag.toInt = 8 := by omega
    rcases hcases with h | h | h | h | h | h | h | h
    · exact ⟨.call, h⟩
    · exact ⟨.result, h⟩
    · exact ⟨.subscribe, h⟩
    · exact ⟨.unsubscribe, h⟩
    · exact ⟨.event, h⟩
    · exact ⟨.token, h⟩
    · exact ⟨.methods, h⟩
    · exact ⟨.methodsResult, h⟩
  · rintro ⟨t, ht⟩
    have hsmall : 1 ≤ t.code.toNat ∧ t.code.toNat ≤ 8 := by cases t <;> decide
    omega

/-- Only an object has fields. -/
theorem Json.field?_eq_some_iff (j : Json) (key : Bytes) (v : Json) :
    j.field? key = some v ↔ ∃ fields, j = .object fields ∧ Fields.get? key fields = some v := by
  cases j <;> simp [field?]

/-- What a text holds that may be decoded: it is within the cap, and an object with a payload
and an integer for a type. -/
structure Envelope (json : WireCodec) (text : Bytes) (type : ℤ) (payload : Json) : Prop where
  cap : exceedsCap text.length = false
  fields : ∃ fields number, json.parse text = .ok (.object fields) ∧
    Fields.get? (bstr "type") fields = some number ∧ number.integer? = some type ∧
    Fields.get? (bstr "payload") fields = some payload

/-- **What an envelope is taken for**: the message whose tag the low bits of its type are. -/
theorem decodeWebMessage_eq_ok_iff (json : WireCodec) (text : Bytes) (m : AnyMessage) :
    decodeWebMessage json text = .ok m ↔
      ∃ v payload t, Envelope json text v payload ∧ v % 2 ^ 32 = (t : MessageType).code.toNat ∧
        jsonToMessage t.code payload = .ok m := by
  constructor
  · intro h
    unfold decodeWebMessage at h
    cases hcap : exceedsCap text.length with
    | true => simp [hcap] at h
    | false =>
      cases hparse : json.parse text with
      | error what => simp [hcap, hparse] at h
      | ok envelope =>
        simp only [hcap, hparse, Bool.false_eq_true, if_false] at h
        split at h
        · rename_i number payload htype hpayload
          obtain ⟨fields, rfl, htype⟩ := (Json.field?_eq_some_iff _ _ _).mp htype
          cases hinteger : number.isNumberInteger with
          | false => simp [hinteger] at h
          | true =>
            obtain ⟨v, hv⟩ := (Json.isNumberInteger_iff number).mp hinteger
            simp only [hinteger, (Json.getInt_eq hv).2, Bool.not_true, Bool.false_eq_true,
              if_false] at h
            split_ifs at h with hrange
            obtain ⟨t, ht⟩ := (exists_code_iff _).mp hrange
            rw [mapError_eq_ok_iff, ht] at h
            refine ⟨v, payload, t, ⟨hcap, fields, number, hparse, htype, hv, hpayload⟩,
              (toInt_ofInt_eq_iff v t).mp ht, ?_⟩
            simpa using h
        · cases h
  · rintro ⟨v, payload, t, ⟨hcap, fields, number, hparse, htype, hv, hpayload⟩, ht, h⟩
    have htag : (Int32.ofInt v).toInt = t.code.toNat := (toInt_ofInt_eq_iff v t).mpr ht
    have hrange := (exists_code_iff (Int32.ofInt v)).mpr ⟨t, htag⟩
    obtain ⟨hinteger, hget⟩ := Json.getInt_eq hv
    unfold decodeWebMessage
    simp only [hcap, hparse, Json.field?, htype, hpayload, hinteger, hget, Bool.not_true,
      Bool.false_eq_true, if_false]
    rw [if_neg hrange, mapError_eq_ok_iff, htag]
    simpa using h

/-- A message is of the type it is decoded as. -/
theorem messageTypeOf_of_jsonToMessage {t : MessageType} {j : Json} {m : AnyMessage}
    (h : jsonToMessage t.code j = .ok m) : messageTypeOf m = t := by
  cases j with
  | object fields =>
    rw [jsonToMessage_code] at h
    cases t
    all_goals
      obtain ⟨a, -, rfl⟩ := (map_eq_ok_iff _ _ _).mp h
      rfl
  | _ => cases h

/-- An accepted envelope is of the type its integer says, and its payload is decoded as that. -/
def TagExact (json : WireCodec) (text : Bytes) : Prop :=
  ∀ m, decodeWebMessage json text = .ok m → ∃ payload,
    Envelope json text (messageTypeOf m).code.toNat payload ∧
      jsonToMessage (messageTypeOf m).code payload = .ok m

/-- The integer is a tag, or its low bits are none, or the payload is refused under the tag they
are. -/
def TagKept (json : WireCodec) (text : Bytes) : Prop :=
  ∀ v payload t, Envelope json text v payload → v % 2 ^ 32 = (t : MessageType).code.toNat →
    v = t.code.toNat ∨ ¬ Succeeds (jsonToMessage t.code payload)

theorem Envelope.unique {json : WireCodec} {text : Bytes} {v v' : ℤ} {payload payload' : Json}
    (h : Envelope json text v payload) (h' : Envelope json text v' payload') :
    v = v' ∧ payload = payload' := by
  obtain ⟨-, fields, number, hparse, htype, hv, hpayload⟩ := h
  obtain ⟨-, fields', number', hparse', htype', hv', hpayload'⟩ := h'
  obtain rfl : fields = fields' := by simpa [hparse] using hparse'
  obtain rfl : number = number' := by simpa [htype] using htype'
  constructor
  · simpa [hv] using hv'
  · simpa [hpayload] using hpayload'

theorem tagExact_iff (json : WireCodec) (text : Bytes) :
    TagExact json text ↔ TagKept json text := by
  constructor
  · intro h v payload t henvelope ht
    by_cases hdecodes : Succeeds (jsonToMessage t.code payload)
    · obtain ⟨m, hm⟩ := hdecodes
      obtain ⟨payload', hexact, -⟩ :=
        h m ((decodeWebMessage_eq_ok_iff json text m).mpr ⟨v, payload, t, henvelope, ht, hm⟩)
      rw [messageTypeOf_of_jsonToMessage hm] at hexact
      exact .inl (henvelope.unique hexact).1
    · exact .inr hdecodes
  · intro h m hm
    obtain ⟨v, payload, t, henvelope, ht, hdecodes⟩ :=
      (decodeWebMessage_eq_ok_iff json text m).mp hm
    have hv := (h v payload t henvelope ht).resolve_right fun hno => hno ⟨m, hdecodes⟩
    rw [messageTypeOf_of_jsonToMessage hdecodes]
    exact ⟨payload, hv ▸ henvelope, hdecodes⟩

/-! ## The id of a payload -/

def idKey : Bytes := bstr "id"

/-- The messages that carry an id. -/
def MessageType.carriesId : MessageType → Bool
  | call => true
  | result => true
  | methods => true
  | methodsResult => true
  | _ => false

namespace AnyMessage

/-- The id of a message that carries one. -/
def id? : AnyMessage → Option UInt64
  | call m => some m.id
  | result m => some m.id
  | methods m => some m.id
  | methodsResult m => some m.id
  | _ => none

/-- The message with this id, if it carries one. -/
def withId (n : UInt64) : AnyMessage → AnyMessage
  | call m => .call { m with id := n }
  | result m => .result { m with id := n }
  | methods m => .methods { m with id := n }
  | methodsResult m => .methodsResult { m with id := n }
  | m => m

theorem id?_withId {m : AnyMessage} (h : (messageTypeOf m).carriesId = true) (n : UInt64) :
    (m.withId n).id? = some n := by
  cases m with
  | call m => rfl
  | result m => rfl
  | methods m => rfl
  | methodsResult m => rfl
  | _ => cases h

/-- An answer is for the request of its id. -/
theorem id_of_answeredBy {m : AnyMessage} {r : PendingCalls.Request}
    (h : PendingCalls.answeredBy m = some r) : m.id? = some r.id := by
  cases m with
  | result m => rw [← Option.some.inj h]; rfl
  | methodsResult m => rw [← Option.some.inj h]; rfl
  | _ => cases h

end AnyMessage

section id
variable {fields : List (Bytes × Json)} {v : Json}

/-- The other fields are read as if there were no id. -/
theorem value_erase_id {α : Type} {key : Bytes} (hkey : key ≠ idKey)
    (get : Json → Except DecodeError α) (default : α) :
    (Json.object (Fields.erase idKey fields)).value key get default =
      (Json.object fields).value key get default := by
  simp only [Json.value, Fields.get?_erase, if_neg hkey]

theorem field?_erase_id {key : Bytes} (hkey : key ≠ idKey) :
    (Json.object (Fields.erase idKey fields)).field? key = (Json.object fields).field? key := by
  simp only [Json.field?, Fields.get?_erase, if_neg hkey]

theorem value_id (h : Fields.get? idKey fields = some v) :
    (Json.object fields).value idKey Json.getUInt64 0 = v.getUInt64 := by
  simp only [Json.value, h]

theorem value_id_erase :
    (Json.object (Fields.erase idKey fields)).value idKey Json.getUInt64 0 = .ok 0 := by
  simp only [Json.value, Fields.get?_erase, if_true]

theorem callFromJson_id (h : Fields.get? idKey fields = some v) :
    callFromJson (.object fields) = do
      let n ← v.getUInt64
      let m ← callFromJson (.object (Fields.erase idKey fields))
      return { m with id := n } := by
  have hid : bstr "id" = idKey := rfl
  unfold callFromJson argsField
  rw [hid, value_id h, value_id_erase]
  simp +decide only [value_erase_id, field?_erase_id, ok_bind, bind_assoc, pure_bind]

theorem resultFromJson_id (h : Fields.get? idKey fields = some v) :
    resultFromJson (.object fields) = do
      let n ← v.getUInt64
      let m ← resultFromJson (.object (Fields.erase idKey fields))
      return { m with id := n } := by
  have hid : bstr "id" = idKey := rfl
  unfold resultFromJson
  rw [hid, value_id h, value_id_erase]
  simp +decide only [value_erase_id, field?_erase_id, ok_bind, bind_assoc]
  refine bind_congr fun n => bind_congr fun ok => ?_
  cases ok with
  | true =>
    simp only [if_true]
    cases (Json.object fields).field? (bstr "value") with
    | none => rfl
    | some value => simp only [bind_assoc, pure_bind]
  | false => simp only [Bool.false_eq_true, if_false, bind_assoc, pure_bind]

theorem methodsRequestFromJson_id (h : Fields.get? idKey fields = some v) :
    methodsRequestFromJson (.object fields) = do
      let n ← v.getUInt64
      let m ← methodsRequestFromJson (.object (Fields.erase idKey fields))
      return { m with id := n } := by
  have hid : bstr "id" = idKey := rfl
  unfold methodsRequestFromJson
  rw [hid, value_id h, value_id_erase]
  simp +decide only [value_erase_id, ok_bind, bind_assoc, pure_bind]

theorem methodsResultFromJson_id (h : Fields.get? idKey fields = some v) :
    methodsResultFromJson (.object fields) = do
      let n ← v.getUInt64
      let m ← methodsResultFromJson (.object (Fields.erase idKey fields))
      return { m with id := n } := by
  have hid : bstr "id" = idKey := rfl
  unfold methodsResultFromJson
  rw [hid, value_id h, value_id_erase]
  simp +decide only [value_erase_id, field?_erase_id, ok_bind, bind_assoc]
  refine bind_congr fun n => bind_congr fun ok => ?_
  cases ok with
  | true =>
    simp only [if_true]
    split
    · simp only [bind_assoc, pure_bind]
    · rfl
  | false => simp only [Bool.false_eq_true, if_false, bind_assoc, pure_bind]

/-- The same, of a message that is read as one of the eight. -/
theorem map_bind_id {α : Type} {x y : Except DecodeError α} {id : Except DecodeError UInt64}
    {withId : α → UInt64 → α} {wrap : α → AnyMessage}
    (h : x = do
      let n ← id
      let m ← y
      return withId m n)
    (hwrap : ∀ n m, wrap (withId m n) = (wrap m).withId n) :
    x.map wrap = do
      let n ← id
      let m ← y.map wrap
      return m.withId n := by
  rw [h]
  cases id with
  | error e => rfl
  | ok n =>
    cases y with
    | error e => rfl
    | ok m => exact congrArg Except.ok (hwrap n m)

/-- **The id is read on its own**: a payload is decoded as without it, and the id is what the
cast makes of it. -/
theorem jsonToMessage_id {t : MessageType} (ht : t.carriesId = true)
    (h : Fields.get? idKey fields = some v) :
    jsonToMessage t.code (.object fields) = do
      let n ← v.getUInt64
      let m ← jsonToMessage t.code (.object (Fields.erase idKey fields))
      return m.withId n := by
  rw [jsonToMessage_code, jsonToMessage_code]
  cases t with
  | call => exact map_bind_id (callFromJson_id h) fun n m => rfl
  | result => exact map_bind_id (resultFromJson_id h) fun n m => rfl
  | methods => exact map_bind_id (methodsRequestFromJson_id h) fun n m => rfl
  | methodsResult => exact map_bind_id (methodsResultFromJson_id h) fun n m => rfl
  | _ => cases ht

end id

/-! ## Undefined casts -/

/-- Nothing is done that the language leaves undefined. -/
structure Defined {α : Type} (x : Except DecodeError α) : Prop where
  ne : x ≠ .error .undefinedCast

namespace Defined
variable {α β : Type}

theorem ok (a : α) : Defined (.ok a) := ⟨by simp⟩

theorem bind {x : Except DecodeError α} {f : α → Except DecodeError β} (hx : Defined x)
    (hf : ∀ a, Defined (f a)) : Defined (x >>= f) := by
  cases x with
  | ok a => exact hf a
  | error e => exact ⟨by simpa using hx.ne⟩

theorem map {x : Except DecodeError α} (hx : Defined x) (f : α → β) : Defined (x.map f) := by
  cases x with
  | ok a => exact .ok (f a)
  | error e => exact ⟨by simpa [Except.map] using hx.ne⟩

theorem mapM {l : List α} {f : α → Except DecodeError β} (hf : ∀ a ∈ l, Defined (f a)) :
    Defined (l.mapM f) := by
  induction l with
  | nil => exact .ok []
  | cons a l ih =>
    rw [List.mapM_cons]
    refine (hf a (List.mem_cons_self ..)).bind fun b => ?_
    exact (ih fun b hb => hf b (List.mem_cons_of_mem a hb)).bind fun bs => .ok (b :: bs)

theorem getString (j : Json) : Defined j.getString := by
  cases j <;> exact ⟨by simp [Json.getString]⟩

theorem getBool (j : Json) : Defined j.getBool := by
  cases j <;> exact ⟨by simp [Json.getBool]⟩

theorem value {get : Json → Except DecodeError α} (hget : ∀ j, Defined (get j)) (j : Json)
    (key : Bytes) (default : α) : Defined (j.value key get default) := by
  cases j with
  | object fields =>
    simp only [Json.value]
    cases Fields.get? key fields with
    | some v => exact hget v
    | none => exact .ok default
  | _ => exact ⟨by simp [Json.value]⟩

theorem string (j : Json) (key default : Bytes) : Defined (j.value key Json.getString default) :=
  value getString j key default

theorem bool (j : Json) (key : Bytes) (default : Bool) :
    Defined (j.value key Json.getBool default) :=
  value getBool j key default

theorem jsonToValue (j : Json) : Defined (jsonToValue j) := by
  induction j using Json.induct with
  | array items ih =>
    rw [LogosProtocol.jsonToValue, jsonToValues_eq]
    exact (mapM ih).bind fun vs => .ok _
  | object fields ih =>
    unfold LogosProtocol.jsonToValue
    cases taggedText fields with
    | some text =>
      cases hdecode : b64UrlDecodeChecked text with
      | some data => exact ⟨by simp [hdecode]⟩
      | none => exact ⟨by simp [hdecode]⟩
    | none =>
      simp only [jsonToEntries_eq]
      refine (mapM fun e he => ?_).bind fun entries => .ok _
      exact (ih e he).map (Prod.mk e.1)
  | _ => exact ⟨by simp [LogosProtocol.jsonToValue]⟩

theorem argsField (j : Json) (key : Bytes) : Defined (argsField j key) := by
  unfold LogosProtocol.argsField
  cases j.field? key with
  | none => exact .ok []
  | some args =>
    cases args with
    | array items =>
      simp only [argsFromJson, jsonToValues_eq]
      exact mapM fun j _ => jsonToValue j
    | _ => exact .ok []

theorem methodFromJson (j : Json) : Defined (methodFromJson j) := by
  unfold LogosProtocol.methodFromJson
  refine (string ..).bind fun _ => (string ..).bind fun _ => (string ..).bind fun _ =>
    (bool ..).bind fun _ => ?_
  simp only [jsonToValues_eq]
  split
  · exact (mapM fun j _ => jsonToValue j).bind fun _ => .ok _
  · exact .ok _

/-- Only the cast of an id may be undefined. -/
theorem jsonToMessage {t : MessageType} {fields : List (Bytes × Json)}
    (hid : Defined ((Json.object fields).value idKey Json.getUInt64 0)) :
    Defined (jsonToMessage t.code (.object fields)) := by
  rw [jsonToMessage_code]
  cases t with
  | call =>
    refine map (hid.bind fun _ => ?_) _
    exact (string ..).bind fun _ => (string ..).bind fun _ => (string ..).bind fun _ =>
      (string ..).bind fun _ => (argsField ..).bind fun _ => .ok _
  | result =>
    refine map (hid.bind fun _ => (bool ..).bind fun ok => ?_) _
    cases ok with
    | true =>
      simp only [if_true]
      split
      · exact (jsonToValue _).bind fun _ => .ok _
      · exact .ok _
    | false =>
      simp only [Bool.false_eq_true, if_false]
      exact (string ..).bind fun _ => (string ..).bind fun _ => .ok _
  | subscribe => exact map ((string ..).bind fun _ => (string ..).bind fun _ => .ok _) _
  | unsubscribe => exact map ((string ..).bind fun _ => (string ..).bind fun _ => .ok _) _
  | event =>
    refine map ((string ..).bind fun _ => (string ..).bind fun _ => ?_) _
    exact (argsField ..).bind fun _ => .ok _
  | token =>
    exact map ((string ..).bind fun _ => (string ..).bind fun _ => (string ..).bind fun _ =>
      .ok _) _
  | methods =>
    refine map (hid.bind fun _ => ?_) _
    exact (string ..).bind fun _ => (string ..).bind fun _ => .ok _
  | methodsResult =>
    refine map (hid.bind fun _ => (bool ..).bind fun ok => ?_) _
    cases ok with
    | true =>
      simp only [if_true]
      split
      · rw [methodsFromJson_eq]
        exact (mapM fun j _ => methodFromJson j).bind fun _ => .ok _
      · exact .ok _
    | false =>
      simp only [Bool.false_eq_true, if_false]
      exact (string ..).bind fun _ => .ok _

end Defined

/-! ## Ids that are kept -/

/-- A payload with this id is refused, or it is decoded with the id the number is worth, and
answers a request of that id. -/
def IdExact (t : MessageType) (fields : List (Bytes × Json)) (v : Json) : Prop :=
  match jsonToMessage t.code (.object fields) with
  | .ok m => (∃ n, m.id? = some n ∧ v.numberValue = some (n.toNat : ℚ)) ∧
      ∀ r, PendingCalls.answeredBy m = some r → v.numberValue = some (r.id.toNat : ℚ)
  | .error e => e ≠ .undefinedCast

/-- The id is no number, or is worth a natural number below `2 ^ 64`, or has a defined cast and
stands in a payload that is refused without it. -/
def IdKept (t : MessageType) (fields : List (Bytes × Json)) (v : Json) : Prop :=
  v.isNumber = false ∨ (∃ k : ℕ, k < 2 ^ 64 ∧ v.numberValue = some (k : ℚ)) ∨
    (Defined v.getUInt64 ∧ ¬ Succeeds (jsonToMessage t.code (.object (Fields.erase idKey fields))))

theorem Json.getUInt64_of_not_number {v : Json} (h : v.isNumber = false) :
    Defined v.getUInt64 ∧ ¬ Succeeds v.getUInt64 := by
  cases v with
  | numberInteger n => cases h
  | numberUnsigned n => cases h
  | numberFloat d => cases h
  | _ => exact ⟨⟨by simp [getUInt64]⟩, by simp [getUInt64]⟩

/-- A number that is not read is one whose cast is undefined. -/
theorem Json.eq_undefinedCast_of_number {v : Json} (h : v.isNumber = true) {e : DecodeError}
    (he : v.getUInt64 = .error e) : e = .undefinedCast := by
  cases v with
  | numberInteger n => cases he
  | numberUnsigned n => cases he
  | numberFloat d =>
    simp only [getUInt64] at he
    split at he
    · cases he
    · cases he
      rfl
  | _ => cases h

/-- The payload is decoded with exactly this id. -/
theorem idExact_of_ok {t : MessageType} (ht : t.carriesId = true)
    {fields : List (Bytes × Json)} {v : Json} {n : UInt64} {m : AnyMessage}
    (hm : jsonToMessage t.code (.object (Fields.erase idKey fields)) = .ok m)
    (h : jsonToMessage t.code (.object fields) = .ok (m.withId n)) :
    IdExact t fields v ↔ v.numberValue = some (n.toNat : ℚ) := by
  have hcarries : (messageTypeOf m).carriesId = true := by
    rw [messageTypeOf_of_jsonToMessage hm, ht]
  have hid := m.id?_withId hcarries n
  unfold IdExact
  rw [h]
  constructor
  · rintro ⟨⟨n', hn', hvalue⟩, -⟩
    obtain rfl := Option.some.inj (hid.symm.trans hn')
    exact hvalue
  · intro hvalue
    refine ⟨⟨n, hid, hvalue⟩, fun r hr => ?_⟩
    have hanswered := AnyMessage.id_of_answeredBy hr
    rw [hid, Option.some.injEq] at hanswered
    rw [← hanswered]
    exact hvalue

theorem idExact_of_error {t : MessageType} {fields : List (Bytes × Json)} {v : Json}
    {e : DecodeError} (h : jsonToMessage t.code (.object fields) = .error e) :
    IdExact t fields v ↔ e ≠ .undefinedCast := by
  unfold IdExact
  rw [h]

/-- **The ids that are kept.** -/
theorem idExact_iff {t : MessageType} (ht : t.carriesId = true) {fields : List (Bytes × Json)}
    {v : Json} (hv : Fields.get? idKey fields = some v) :
    IdExact t fields v ↔ IdKept t fields v := by
  have hread := jsonToMessage_id ht hv
  have hrest : Defined (jsonToMessage t.code (.object (Fields.erase idKey fields))) :=
    .jsonToMessage (by rw [value_id_erase]; exact .ok 0)
  cases hget : v.getUInt64 with
  | error e =>
    rw [hget, error_bind] at hread
    rw [idExact_of_error hread]
    constructor
    · intro he
      cases hnumber : v.isNumber with
      | false => exact .inl hnumber
      | true => exact absurd (Json.eq_undefinedCast_of_number hnumber hget) he
    · rintro (hnumber | ⟨k, hk, hvalue⟩ | ⟨hdefined, -⟩) rfl
      · exact (Json.getUInt64_of_not_number hnumber).1.ne hget
      · rw [Json.getUInt64_of_numberValue hk hvalue] at hget
        cases hget
      · exact hdefined.ne hget
  | ok n =>
    rw [hget, ok_bind] at hread
    cases hbody : jsonToMessage t.code (.object (Fields.erase idKey fields)) with
    | error e =>
      rw [hbody] at hread hrest
      rw [idExact_of_error hread]
      refine iff_of_true (fun he => hrest.ne (congrArg _ he)) (.inr (.inr ⟨?_, ?_⟩))
      · rw [hget]
        exact .ok n
      · rw [hbody]
        exact not_succeeds_error e
    | ok m =>
      rw [hbody, ok_bind] at hread
      rw [idExact_of_ok ht hbody hread]
      constructor
      · intro hvalue
        exact .inr (.inl ⟨n.toNat, n.toNat_lt, hvalue⟩)
      · rintro (hnumber | ⟨k, hk, hvalue⟩ | ⟨-, hrefused⟩)
        · exact absurd ⟨n, hget⟩ (Json.getUInt64_of_not_number hnumber).2
        · rw [Json.getUInt64_of_numberValue hk hvalue, Except.ok.injEq] at hget
          have hn : n.toNat = k := by
            rw [← hget, Nat.toUInt64_eq, UInt64.toNat_ofNat']
            omega
          rw [hn]
          exact hvalue
        · exact absurd ⟨m, hbody⟩ hrefused

/-- **No number is coerced, exactly of these**: an envelope whose type is a tag, or has low bits
that are none, or has a payload that is refused; and a payload whose id is a natural number below
`2 ^ 64`, or no number, or stands in what is refused anyway. -/
theorem decode_exact_iff (json : WireCodec) :
    (∀ text, TagExact json text ↔ TagKept json text) ∧
      ∀ (t : MessageType) fields v, t.carriesId = true → Fields.get? idKey fields = some v →
        (IdExact t fields v ↔ IdKept t fields v) :=
  ⟨tagExact_iff json, fun _ _ _ ht hv => idExact_iff ht hv⟩

/-! ## A type beyond 32 bits, and an id that is not whole -/

/-- An envelope with the type `2 ^ 32 + 1`. -/
def narrowedText : Bytes :=
  bstr "\x7b\"payload\":\x7b\x7d,\"type\":4294967297\x7d"

/-- A JSON library that writes texts as usual and reads this one. -/
def narrowedCodec : WireCodec where
  name := "json"
  serialise := textCodec.serialise
  parse text :=
    if text = narrowedText then
      .ok (.object [(bstr "payload", .object []), (bstr "type", .numberUnsigned 4294967297)])
    else .error "not read"

/-- The double 1.5. -/
def oneAndAHalf : Double := ⟨0x3FF8000000000000⟩

theorem numberValue_oneAndAHalf : (Json.numberFloat oneAndAHalf).numberValue = some (3 / 2) := by
  have hfinite : oneAndAHalf.IsFinite := by decide
  have hexponent : oneAndAHalf.exponent = 1023 := by decide
  have hmantissa : oneAndAHalf.mantissa = 3 * 2 ^ 51 := by decide
  have hsign : oneAndAHalf.sign = 0 := by decide
  have hmagnitude : oneAndAHalf.magnitude = 3 / 2 := by
    rw [Double.magnitude, hexponent, hmantissa]
    norm_num
  rw [Json.numberValue, if_pos hfinite, Double.toRat, hsign, hmagnitude]
  rfl

/-- The envelope is taken for a Call, and a Result with the id 1.5 answers call 1. -/
theorem decode_narrowed :
    (decodeWebMessage narrowedCodec narrowedText = .ok (.call
        { id := 0, authToken := [], object := [], method := [], args := [], caller := [] }) ∧
      ¬ TagExact narrowedCodec narrowedText) ∧
    (jsonToMessage 2 (.object [(idKey, .numberFloat oneAndAHalf)]) = .ok (.result { id := 1 }) ∧
      ¬ IdExact .result [(idKey, .numberFloat oneAndAHalf)] (.numberFloat oneAndAHalf)) := by
  have htag : Envelope narrowedCodec narrowedText 4294967297 (.object []) :=
    ⟨rfl, _, _, rfl, rfl, rfl, rfl⟩
  have hid : jsonToMessage MessageType.result.code
      (.object [(idKey, .numberFloat oneAndAHalf)]) = .ok (.result { id := 1 }) := rfl
  refine ⟨⟨rfl, fun hexact => ?_⟩, rfl, fun hexact => ?_⟩
  · obtain ⟨payload, hnamed, -⟩ := hexact _ rfl
    have hvalue : (4294967297 : ℤ) = (MessageType.call.code.toNat : ℤ) := (htag.unique hnamed).1
    exact absurd hvalue (by decide)
  · unfold IdExact at hexact
    rw [hid] at hexact
    obtain ⟨⟨n, hn, hvalue⟩, -⟩ := hexact
    obtain rfl : (1 : UInt64) = n := Option.some.inj hn
    have hone : (1 : UInt64).toNat = 1 := rfl
    rw [numberValue_oneAndAHalf, Option.some.injEq, hone] at hvalue
    norm_num at hvalue

end LogosProtocol
