import LogosProtocol.Wire.Framing
import LogosProtocol.Wire.HandleFrame
import LogosProtocol.Wire.JsonText

/-!
# The two encodings of a message

The byte transport sends the payload of a message in a frame, under the message's tag.  The
web transport sends one JSON text, an envelope with the tag and the payload.  Both refuse
what exceeds the same cap, and measure it alike, one byte and a text.  But the text is the
payload in the one and the envelope in the other, which is 21 bytes longer.

## Main definitions

* `WireCodec.encodeFrame` — a message as a frame.
* `encodeWebMessage` — a message as an envelope.
-/

namespace LogosProtocol

/-- Why a message is not encoded. -/
inductive EncodeError
  /-- What the JSON library throws. -/
  | serialise (what : String)
  | framing (e : FramingError)
  deriving DecidableEq, Repr

/-- `encodeFrame` of a message, with a codec. -/
def WireCodec.encodeFrame (codec : WireCodec) (m : AnyMessage) : Except EncodeError Bytes :=
  match codec.encode m with
  | .ok payload => (LogosProtocol.encodeFrame ⟨(messageTypeOf m).code, payload⟩).mapError .framing
  | .error what => .error (.serialise what)

/-- One byte for the tag, and the text. -/
def exceedsCap (textLength : ℕ) : Bool := kMaxFrameLength.toNat < 1 + textLength

/-- The tag of a message and its payload. -/
def webEnvelope (m : AnyMessage) : Json :=
  jsonObject [(bstr "type", .numberInteger (.ofNat (messageTypeOf m).code.toNat)),
    (bstr "payload", messageToJson m)]

/-- A message as a text, written by the JSON library. -/
def encodeWebMessage (json : WireCodec) (m : AnyMessage) : Except EncodeError Bytes :=
  match json.serialise (webEnvelope m) with
  | .ok text => if exceedsCap text.length then .error (.framing .frameTooLarge) else .ok text
  | .error what => .error (.serialise what)

/-- `FramingError` is thrown. -/
def Oversize (x : Except EncodeError Bytes) : Prop := ∃ e, x = .error (.framing e)

@[simp] theorem oversize_error (e : FramingError) :
    Oversize (.error (.framing e)) := ⟨e, rfl⟩

@[simp] theorem not_oversize_ok (text : Bytes) : ¬ Oversize (.ok text) := by
  rintro ⟨e, he⟩
  cases he

@[simp] theorem not_oversize_serialise (what : String) :
    ¬ Oversize (.error (.serialise what)) := by
  rintro ⟨e, he⟩
  cases he

/-! ## The byte transport -/

theorem encodeFrame_of_encode {codec : WireCodec} {m : AnyMessage} {payload : Bytes}
    (h : codec.encode m = .ok payload) :
    codec.encodeFrame m = if kMaxFrameLength.toNat < 1 + payload.length
      then .error (.framing .frameTooLarge)
      else .ok (frameBytes ⟨(messageTypeOf m).code, payload⟩) := by
  rw [WireCodec.encodeFrame, h]
  simp only [LogosProtocol.encodeFrame]
  split_ifs
  · rfl
  · rfl

theorem encodeFrame_of_error {codec : WireCodec} {m : AnyMessage} {what : String}
    (h : codec.encode m = .error what) :
    codec.encodeFrame m = .error (.serialise what) := by
  rw [WireCodec.encodeFrame, h]

/-! ## The web transport -/

/-- The entries of an envelope, in key order. -/
theorem webEnvelope_eq (m : AnyMessage) :
    webEnvelope m = .object [(bstr "payload", messageToJson m),
      (bstr "type", .numberInteger (.ofNat (messageTypeOf m).code.toNat))] := by
  have hlt : bstr "payload" < bstr "type" := by decide
  simp only [webEnvelope, jsonObject, Fields.setAll, Fields.set, hlt, if_true]

/-- Every tag is written with one digit. -/
theorem length_tagText (t : MessageType) :
    (bstr (toString (Int64.ofNat t.code.toNat).toInt)).length = 1 := by
  cases t
  all_goals rfl

section envelope
variable {json : WireCodec} (hjson : DumpsJson json.serialise)
include hjson

/-- **An envelope is 21 bytes longer than its payload**, and written whenever that is. -/
theorem serialise_webEnvelope {m : AnyMessage} {payload : Bytes}
    (h : json.encode m = .ok payload) :
    ∃ text, json.serialise (webEnvelope m) = .ok text ∧ text.length = payload.length + 21 := by
  have htag := length_tagText (messageTypeOf m)
  have hpayload := hjson.plain (bstr "payload") rfl
  have htype := hjson.plain (bstr "type") rfl
  have hkeys : (quoted (bstr "payload")).length = 9 ∧ (quoted (bstr "type")).length = 6 :=
    ⟨rfl, rfl⟩
  have hbody : json.serialise (messageToJson m) = .ok payload := h
  have htext : json.serialise (webEnvelope m) = .ok (0x7B ::
      joinComma [quoted (bstr "payload") ++ 0x3A :: payload, quoted (bstr "type") ++
        0x3A :: bstr (toString (Int64.ofNat (messageTypeOf m).code.toNat).toInt)] ++ [0x7D]) := by
    rw [webEnvelope_eq, hjson.object]
    simp only [List.mapM_cons, List.mapM_nil, hpayload, htype, hbody, hjson.integer, ok_bind,
      pure_bind]
    rfl
  refine ⟨_, htext, ?_⟩
  simp only [joinComma, List.length_append, List.length_cons, List.length_nil, hkeys.1, hkeys.2,
    htag]
  omega

theorem serialise_webEnvelope_of_error {m : AnyMessage} {what : String}
    (h : json.encode m = .error what) : json.serialise (webEnvelope m) = .error what := by
  have hpayload := hjson.plain (bstr "payload") rfl
  have hbody : json.serialise (messageToJson m) = .error what := h
  rw [webEnvelope_eq, hjson.object]
  simp only [List.mapM_cons, hpayload, hbody, ok_bind, error_bind]

/-- What the web transport does, by the length of the payload. -/
theorem encodeWebMessage_of_encode {m : AnyMessage} {payload : Bytes}
    (h : json.encode m = .ok payload) :
    ∃ text, encodeWebMessage json m =
      if kMaxFrameLength.toNat < 1 + (payload.length + 21) then .error (.framing .frameTooLarge)
      else .ok text := by
  obtain ⟨text, htext, hlen⟩ := serialise_webEnvelope hjson h
  refine ⟨text, ?_⟩
  rw [encodeWebMessage, htext]
  simp only [exceedsCap, hlen, decide_eq_true_eq]

/-- **The two transports accept the same messages outside a band below the cap.**  A message
whose payload is written with a length in the band is sent in a frame and refused as an
envelope; any other is refused by both for its length, refused by neither, or cannot be
written at all. -/
theorem web_accepts_iff (m : AnyMessage) :
    ((Oversize (encodeWebMessage json m) ↔ Oversize (json.encodeFrame m)) ∧
      (Succeeds (encodeWebMessage json m) ↔ Succeeds (json.encodeFrame m))) ↔
    ∀ payload, json.encode m = .ok payload →
      ¬ (kMaxFrameLength.toNat ≤ payload.length + 21 ∧
        payload.length < kMaxFrameLength.toNat) := by
  cases hpayload : json.encode m with
  | error what =>
    have hweb : encodeWebMessage json m = .error (.serialise what) := by
      rw [encodeWebMessage, serialise_webEnvelope_of_error hjson hpayload]
    rw [hweb, encodeFrame_of_error hpayload]
    simp
  | ok payload =>
    obtain ⟨text, hweb⟩ := encodeWebMessage_of_encode hjson hpayload
    simp only [Except.ok.injEq, forall_eq']
    rw [hweb, encodeFrame_of_encode hpayload]
    -- The envelope is the longer of the two, so there are three cases.
    by_cases hplain : kMaxFrameLength.toNat < 1 + payload.length
    · have hlong : kMaxFrameLength.toNat < 1 + (payload.length + 21) := by omega
      rw [if_pos hlong, if_pos hplain]
      simp only [iff_self, true_and, true_iff]
      omega
    · by_cases hlong : kMaxFrameLength.toNat < 1 + (payload.length + 21)
      · rw [if_pos hlong, if_neg hplain]
        simp only [oversize_error, not_oversize_ok, iff_false, not_true, false_and, false_iff]
        omega
      · rw [if_neg hlong, if_neg hplain]
        simp only [not_oversize_ok, succeeds_ok, iff_self, true_and, true_iff]
        omega

end envelope

/-! ## Messages with a long name -/

/-- A text of so many letters. -/
def repeated (n : ℕ) : Bytes := List.replicate n 0x61

theorem dump_repeated {dump : Json → Except String Bytes} (h : DumpsJson dump) (n : ℕ) :
    dump (.string (repeated n)) = .ok (quoted (repeated n)) := by
  apply h.string
  intro b hb
  rw [List.eq_of_mem_replicate hb]
  decide

/-- A subscription to an object whose name is so many letters. -/
def letters (n : ℕ) : AnyMessage := .subscribe { object := repeated n, eventName := [] }

/-- Its payload is the name and 24 bytes. -/
theorem encode_letters {json : WireCodec} (hjson : DumpsJson json.serialise) (n : ℕ) :
    ∃ payload, json.encode (letters n) = .ok payload ∧ payload.length = n + 24 := by
  have hletters := dump_repeated hjson n
  have hempty := hjson.plain [] rfl
  have hobject := hjson.plain (bstr "object") rfl
  have hevent := hjson.plain (bstr "event") rfl
  have hkeys : (quoted (bstr "object")).length = 8 ∧ (quoted (bstr "event")).length = 7 :=
    ⟨rfl, rfl⟩
  have hfields : messageToJson (letters n) = .object [(bstr "event", .string []),
      (bstr "object", .string (repeated n))] := by
    have hgt : bstr "event" < bstr "object" := by decide
    simp only [letters, messageToJson, jsonObject, Fields.setAll, Fields.set, hgt, if_true]
  have htext : json.encode (letters n) = .ok (0x7B ::
      joinComma [quoted (bstr "event") ++ 0x3A :: quoted [],
        quoted (bstr "object") ++ 0x3A :: quoted (repeated n)] ++ [0x7D]) := by
    rw [WireCodec.encode, hfields, hjson.object]
    simp only [List.mapM_cons, List.mapM_nil, hletters, hempty, hobject, hevent, ok_bind,
      pure_bind]
    rfl
  refine ⟨_, htext, ?_⟩
  simp only [joinComma, quoted, repeated, List.length_append, List.length_cons, List.length_nil,
    List.length_replicate] at hkeys ⊢
  omega

/-- The JSON codec, over a library that writes and parses nothing. -/
def textCodec : WireCodec where
  name := "json"
  serialise := Json.dump (fun _ => []) (fun _ => "")
  parse _ := .error ""

theorem dumpsJson_textCodec : DumpsJson textCodec.serialise := dumpsJson_dump _ _

/-- A short message is accepted by both. -/
theorem web_accepts_iff_short :
    (Oversize (encodeWebMessage textCodec (letters 6)) ↔
      Oversize (textCodec.encodeFrame (letters 6))) ∧
    (Succeeds (encodeWebMessage textCodec (letters 6)) ↔
      Succeeds (textCodec.encodeFrame (letters 6))) := by
  apply (web_accepts_iff dumpsJson_textCodec (letters 6)).mpr
  intro payload hpayload
  obtain ⟨payload', henc, hlen⟩ := encode_letters dumpsJson_textCodec 6
  rw [hpayload, Except.ok.injEq] at henc
  rw [henc, hlen, toNat_kMaxFrameLength]
  omega

/-- A payload of 12 bytes less than the cap goes out in a frame and not as an envelope. -/
theorem web_refuses_alone :
    Oversize (encodeWebMessage textCodec (letters 16777180)) ∧
    Succeeds (textCodec.encodeFrame (letters 16777180)) ∧
    ¬ (Oversize (encodeWebMessage textCodec (letters 16777180)) ↔
      Oversize (textCodec.encodeFrame (letters 16777180))) := by
  obtain ⟨payload, hpayload, hlen⟩ := encode_letters dumpsJson_textCodec 16777180
  obtain ⟨text, hweb⟩ := encodeWebMessage_of_encode dumpsJson_textCodec hpayload
  have hlong : kMaxFrameLength.toNat < 1 + (payload.length + 21) := by
    rw [hlen, toNat_kMaxFrameLength]
    omega
  have hshort : ¬ kMaxFrameLength.toNat < 1 + payload.length := by
    rw [hlen, toNat_kMaxFrameLength]
    omega
  rw [hweb, if_pos hlong, encodeFrame_of_encode hpayload, if_neg hshort]
  simp

end LogosProtocol
