import LogosProtocol.Convert.QVariant
import LogosProtocol.Wasm.OutboundDoor

/-!
# Two doors for one call

`lp_invoke_async` is exported by the Qt image and by a wasm image, and a module is compiled
against either.  Both parse the arguments alike and refuse what is not an array.  The Qt image
then converts every element, bytes that are not base64url included.  The wasm image converts
with the decoder of the wire, which throws for those, and nothing between it and the C boundary
catches.  What an accepted call sends before it returns may also throw there.

## Main definitions

* `QtDoor.lpInvokeAsync` — the door of the Qt image, up to the client library.
* `Json.Nested` — one value occurs in another, at any depth.
* `OutboundDoor.Writable` — what a call sends before it returns can be written.

## Main results

* `OutboundDoor.invoke_doors_iff` — exactly when the two doors agree and the wasm door returns.
-/

namespace LogosProtocol

/-! ## The Qt image -/

namespace QtDoor

/-- The handle of a client, as far as a call reads it. -/
structure Client where
  target : QString
  origin : QString

/-- What is handed to the client library. -/
structure Invocation where
  target : QString
  method : QString
  args : List Convert.QVariant
  timeout : ℤ

/-- `Timeout()` stands in for a timeout that is not positive. -/
def lpTimeout (timeoutMs : ℤ) : ℤ := if 0 < timeoutMs then timeoutMs else 20000

def errInvalidArgs (origin : QString) : CallError where
  code := bstr "invalid_args"
  message := bstr "args_json must be a JSON array"
  origin := origin.toUtf8

/-- The arguments of a call, or an error for a text that is not an array. -/
def parseArgs (parse : Bytes → Option Json) (argsJson : Option Bytes) (origin : QString) :
    Except CallError (List Convert.QVariant) :=
  match argsJson with
  | none => .ok []
  | some [] => .ok []
  | some text =>
    match parse text with
    | some (.array items) => .ok (Convert.nlohmannArgsToQVariantList (.array items))
    | _ => .error (errInvalidArgs origin)

/-- `lp_invoke_async`: the code it returns, and the call it makes.  A client is none for a null
handle and for one that holds no client. -/
def lpInvokeAsync (parse : Bytes → Option Json) (client : Option Client)
    (method argsJson : Option Bytes) (timeoutMs : ℤ) (cb : Bool) : ℤ × Option Invocation :=
  match client, method with
  | none, _ => (lpErrInvalidArg, none)
  | _, none => (lpErrInvalidArg, none)
  | _, some [] => (lpErrInvalidArg, none)
  | some client, some method =>
    if !cb then (lpErrInvalidArg, none)
    else
      match parseArgs parse argsJson client.origin with
      | .error _ => (lpErrInvalidArg, none)
      | .ok args => (lpOk, some { target := client.target, method := QString.fromStdString method,
                                  args, timeout := lpTimeout timeoutMs })

end QtDoor

/-! ## Arguments that convert -/

namespace Json

/-- The value occurs in another, at any depth. -/
inductive Nested (t : Json) : Json → Prop
  | refl : Nested t t
  | item {items : List Json} {j : Json} (hj : j ∈ items) (h : Nested t j) :
      Nested t (.array items)
  | field {fields : List (Bytes × Json)} {e : Bytes × Json} (he : e ∈ fields)
      (h : Nested t e.2) : Nested t (.object fields)

/-- Wherever bytes are written in the value, their text is base64url. -/
def BytesDecode (j : Json) : Prop :=
  ∀ fields text, Nested (.object fields) j → taggedText fields = some text →
    (b64UrlDecodeChecked text).isSome

/-- A value with nothing in it has no bytes in it. -/
theorem bytesDecode_of_leaf {j : Json} (hobject : ∀ fields, j ≠ .object fields)
    (harray : ∀ items, j ≠ .array items) : j.BytesDecode := by
  intro fields text hnested _
  cases hnested with
  | refl => exact absurd rfl (hobject fields)
  | item hj h => exact absurd rfl (harray _)
  | field he h => exact absurd rfl (hobject _)

theorem bytesDecode_array_iff (items : List Json) :
    (array items).BytesDecode ↔ ∀ j ∈ items, j.BytesDecode := by
  constructor
  · intro h j hj fields text hnested
    exact h fields text (.item hj hnested)
  · intro h fields text hnested
    cases hnested with
    | item hj hnested => exact h _ hj fields text hnested

theorem bytesDecode_object_iff (fields : List (Bytes × Json)) :
    (object fields).BytesDecode ↔
      (∀ text, taggedText fields = some text → (b64UrlDecodeChecked text).isSome) ∧
        ∀ e ∈ fields, e.2.BytesDecode := by
  constructor
  · intro h
    constructor
    · intro text
      exact h fields text .refl
    · intro e he fields' text hnested
      exact h fields' text (.field he hnested)
  · intro ⟨htag, h⟩ fields' text hnested
    cases hnested with
    | refl => exact htag text
    | field he hnested => exact h _ he fields' text hnested

end Json

/-- **A value converts exactly when all bytes in it decode.** -/
theorem succeeds_jsonToValue (j : Json) : Succeeds (jsonToValue j) ↔ j.BytesDecode := by
  induction j using Json.induct with
  | null => simpa [jsonToValue] using Json.bytesDecode_of_leaf (by simp) (by simp)
  | boolean b => simpa [jsonToValue] using Json.bytesDecode_of_leaf (by simp) (by simp)
  | numberInteger n => simpa [jsonToValue] using Json.bytesDecode_of_leaf (by simp) (by simp)
  | numberUnsigned n => simpa [jsonToValue] using Json.bytesDecode_of_leaf (by simp) (by simp)
  | numberFloat d => simpa [jsonToValue] using Json.bytesDecode_of_leaf (by simp) (by simp)
  | string s => simpa [jsonToValue] using Json.bytesDecode_of_leaf (by simp) (by simp)
  | binary b => simpa [jsonToValue] using Json.bytesDecode_of_leaf (by simp) (by simp)
  | array items ih =>
    rw [jsonToValue, jsonToValues_eq, succeeds_bind_iff fun vs => succeeds_pure _,
      succeeds_mapM_iff, Json.bytesDecode_array_iff]
    exact forall₂_congr ih
  | object fields ih =>
    rw [Json.bytesDecode_object_iff]
    cases htag : taggedText fields with
    | some text =>
      -- Its one member is the text.
      have hfields := (taggedText_eq_some_iff fields text).mp htag
      have hmember : ∀ e ∈ fields, e.2.BytesDecode := by
        rw [hfields]
        intro e he
        rw [List.mem_singleton.mp he]
        exact Json.bytesDecode_of_leaf (by simp) (by simp)
      simp only [jsonToValue, htag, Option.some.injEq, forall_eq']
      cases b64UrlDecodeChecked text with
      | some data => simpa using fun key j hj => hmember (key, j) hj
      | none => simp
    | none =>
      simp only [jsonToValue, htag]
      rw [succeeds_bind_iff fun entries => succeeds_pure _, jsonToEntries_eq, succeeds_mapM_iff]
      simp only [succeeds_functor_map_iff, reduceCtorEq, false_imp_iff, implies_true, true_and]
      exact forall₂_congr ih

theorem succeeds_jsonToValues (items : List Json) :
    Succeeds (jsonToValues items) ↔ (Json.array items).BytesDecode := by
  rw [jsonToValues_eq, succeeds_mapM_iff, Json.bytesDecode_array_iff]
  exact forall₂_congr fun j _ => succeeds_jsonToValue j

/-! ## What an accepted call sends -/

namespace OutboundDoor

/-- The Call of an outbound call. -/
def outboundCall (d : Door) (c : ℕ) (target method authToken : Bytes) (args : List RpcValue) :
    CallMessage where
  id := (d.conn c).nextId
  authToken := authToken
  object := target
  method := method
  args := args
  caller := []

/-- What a call sends before it returns can be written: the Call itself where its token is there
or it needs none, else the request for one; and the error that is reported where no connection
is open. -/
def Writable (json : WireCodec) (d : Door) (k : Client) (method : Bytes) (args : List RpcValue) :
    Prop :=
  match d.openConnection with
  | none => Succeeds (json.serialise (errorJson (callErrorTransport k.target noHostChannel)))
  | some c =>
    let held := d.image.store.outboundToken k.target
    if held ≠ [] ∨ k.target = kCapabilityModule then
      Succeeds (encodeWebMessage json (.call (outboundCall d c k.target method held args)))
    else
      Succeeds (encodeWebMessage json (.call
        (tokenRequest d (d.conn c).nextId k.origin k.target)))

section writable
variable (json : WireCodec) {d : Door} {c : ℕ}

/-- An installed connection is open unless it has stopped. -/
theorem not_stopped_of_openConnection (h : d.openConnection = some c) :
    (d.conn c).stopped = false := by
  simpa using (Option.filter_eq_some_iff.mp h).2

theorem stopped_fetchId (d : Door) (c : ℕ) :
    ((d.fetchId c).2.conn c).stopped = (d.conn c).stopped := by
  simp [Door.fetchId]

/-- On an open connection a call ends when its message is written, and throws when it cannot
be; there is no answer yet. -/
theorem sendCallAsync_returns_iff (h : (d.conn c).stopped = false) (m : CallMessage) (k : Handler)
    (answer : ResultMessage → Door → Bool × Door) :
    (match sendCallAsync json d c m k with
      | (.written, d) => (false, d)
      | (.threw, d) => (true, d)
      | (.answered res, d) => answer res d).1 = false ↔
      Succeeds (encodeWebMessage json (.call m)) := by
  have hopen : ((d.register c m.id k).conn c).stopped = false := h
  unfold sendCallAsync
  simp only [hopen, Bool.false_eq_true, if_false]
  cases encodeWebMessage json (.call m) with
  | ok text => simp
  | error e => simp

theorem sendOutboundCall_returns_iff (h : (d.conn c).stopped = false) (n client : ℕ)
    (target method authToken : Bytes) (args : List RpcValue) :
    (sendOutboundCall json d c n client target method authToken args).1 = false ↔
      Succeeds (encodeWebMessage json (.call (outboundCall d c target method authToken args))) := by
  have hopen : ((d.fetchId c).2.conn c).stopped = false := (stopped_fetchId d c).trans h
  exact sendCallAsync_returns_iff json hopen _ (.result n client target) fun res d =>
    runResult json d n client target res

theorem requestTokenThenSend_returns_iff (h : (d.conn c).stopped = false) (n client : ℕ)
    (target origin method : Bytes) (args : List RpcValue) :
    (requestTokenThenSend json d c n client target origin method args).1 = false ↔
      Succeeds (encodeWebMessage json (.call
        (tokenRequest d (d.conn c).nextId origin target))) := by
  have hopen : (((d.logged (.asked n)).fetchId c).2.conn c).stopped = false :=
    (stopped_fetchId (d.logged (.asked n)) c).trans h
  exact sendCallAsync_returns_iff json hopen _ (.grant n client c target method args) fun res d =>
    runGrant json d n client c target method args res

theorem failCall_returns_iff (d : Door) (n : ℕ) (e : CallError) :
    (failCall json d n e).1 = false ↔ Succeeds (json.serialise (errorJson e)) := by
  unfold failCall
  cases json.serialise (errorJson e) with
  | ok text => simp
  | error what => simp

/-- **An accepted call returns when what it sends can be written.** -/
theorem dispatch_returns_iff (d : Door) (n client : ℕ) (k : Client) (method : Bytes)
    (args : List RpcValue) :
    (dispatch json d n client k method args).1 = false ↔ Writable json d k method args := by
  unfold dispatch Writable
  cases hconn : d.openConnection with
  | none => exact failCall_returns_iff json d n _
  | some c =>
    have hopen := not_stopped_of_openConnection hconn
    simp only
    split_ifs
    · exact sendOutboundCall_returns_iff json hopen n client k.target method _ args
    · exact requestTokenThenSend_returns_iff json hopen n client k.target k.origin method args

end writable

/-! ## The two doors -/

/-- The elements of the arguments, if they are an array. -/
def argsItems (parse : Bytes → Option Json) (argsJson : Option Bytes) : Option (List Json) :=
  match argsJson with
  | none => some []
  | some [] => some []
  | some text =>
    match parse text with
    | some (.array items) => some items
    | _ => none

theorem parseArgs_eq (parse : Bytes → Option Json) (argsJson : Option Bytes) :
    parseArgs parse argsJson = (argsItems parse argsJson).map jsonToValues := by
  unfold parseArgs argsItems
  cases argsJson with
  | none => rfl
  | some text =>
    cases text with
    | nil => rfl
    | cons b text =>
      cases hparse : parse (b :: text) with
      | none => simp [hparse]
      | some j => cases j <;> simp [hparse]

/-- The Qt door refuses what is not an array. -/
theorem qt_refuses_iff (parse : Bytes → Option Json) (qt : QtDoor.Client) {method : Bytes}
    (hmethod : method ≠ []) (argsJson : Option Bytes) (timeoutMs : ℤ) :
    (QtDoor.lpInvokeAsync parse (some qt) (some method) argsJson timeoutMs true).1 =
      lpErrInvalidArg ↔ argsItems parse argsJson = none := by
  obtain ⟨b, method, rfl⟩ := List.exists_cons_of_ne_nil hmethod
  have hcodes : lpOk ≠ lpErrInvalidArg := by decide
  have hparse : (∃ e, QtDoor.parseArgs parse argsJson qt.origin = .error e) ↔
      argsItems parse argsJson = none := by
    unfold QtDoor.parseArgs argsItems
    cases argsJson with
    | none => simp
    | some text =>
      cases text with
      | nil => simp
      | cons b text =>
        simp only
        split
        · simp
        · simp
  rw [← hparse]
  unfold QtDoor.lpInvokeAsync
  simp only [Bool.not_true, Bool.false_eq_true, if_false]
  cases QtDoor.parseArgs parse argsJson qt.origin with
  | ok args => simpa using hcodes
  | error e => simp

section wasm
variable (json : WireCodec) {parse : Bytes → Option Json} {method : Bytes}
  {argsJson : Option Bytes} {items : List Json}

/-- The wasm door refuses what is not an array. -/
theorem lpInvokeAsync_refuses (d : Door) (client : ℕ) (k : Client) (hmethod : method ≠ [])
    (h : argsItems parse argsJson = none) :
    lpInvokeAsync json parse d client k (some method) argsJson true =
      (some lpErrInvalidArg, d) := by
  obtain ⟨b, method, rfl⟩ := List.exists_cons_of_ne_nil hmethod
  unfold lpInvokeAsync
  simp only [Bool.not_true, Bool.false_eq_true, if_false, parseArgs_eq, h, Option.map_none]

/-- With an array it returns `LP_OK`, or throws. -/
theorem lpInvokeAsync_cases (d : Door) (client : ℕ) (k : Client) (hmethod : method ≠ [])
    (h : argsItems parse argsJson = some items) :
    ((lpInvokeAsync json parse d client k (some method) argsJson true).1 = some lpOk ∧
      ∃ args, jsonToValues items = .ok args ∧ Writable json d k method args) ∨
    ((lpInvokeAsync json parse d client k (some method) argsJson true).1 = none ∧
      ∀ args, jsonToValues items = .ok args → ¬ Writable json d k method args) := by
  obtain ⟨b, method, rfl⟩ := List.exists_cons_of_ne_nil hmethod
  unfold lpInvokeAsync
  simp only [Bool.not_true, Bool.false_eq_true, if_false, parseArgs_eq, h, Option.map_some]
  cases jsonToValues items with
  | error e => simp
  | ok args =>
    have hreturns := dispatch_returns_iff json (d.accept client k.target) d.calls client
      k (b :: method) args
    have hsame : Writable json (d.accept client k.target) k (b :: method) args ↔
        Writable json d k (b :: method) args := Iff.rfl
    rw [hsame] at hreturns
    simp only [Except.ok.injEq, exists_eq_left', forall_eq', ← hreturns]
    obtain ⟨threw, d'⟩ := dispatch json (d.accept client k.target) d.calls client k
      (b :: method) args
    cases threw with
    | true => simp
    | false => simp

end wasm

/-- **Exactly when the doors agree and the wasm door returns**: the arguments are refused, or
all bytes in them decode and what the call sends first can be written. -/
theorem invoke_doors_iff (json : WireCodec) (parse : Bytes → Option Json) (d : Door) (client : ℕ)
    (k : Client) (qt : QtDoor.Client) (timeoutMs : ℤ) (method : Bytes) (hmethod : method ≠ [])
    (argsJson : Option Bytes) :
    ((lpInvokeAsync json parse d client k (some method) argsJson true).1 ≠ none ∧
      ((lpInvokeAsync json parse d client k (some method) argsJson true).1 =
          some lpErrInvalidArg ↔
        (QtDoor.lpInvokeAsync parse (some qt) (some method) argsJson timeoutMs true).1 =
          lpErrInvalidArg)) ↔
    ∀ items, argsItems parse argsJson = some items →
      (Json.array items).BytesDecode ∧
        ∀ args, jsonToValues items = .ok args → Writable json d k method args := by
  rw [qt_refuses_iff parse qt hmethod]
  cases hitems : argsItems parse argsJson with
  | none => simp [lpInvokeAsync_refuses json d client k hmethod hitems]
  | some items =>
    have hcodes : lpOk ≠ lpErrInvalidArg := by decide
    simp only [Option.some.injEq, forall_eq', reduceCtorEq, iff_false, ← succeeds_jsonToValues]
    rcases lpInvokeAsync_cases json d client k hmethod hitems with
      ⟨hcode, args, hargs, hwritable⟩ | ⟨hthrown, hnot⟩
    · simp only [hcode, ne_eq, reduceCtorEq, not_false_eq_true, Option.some.injEq, hcodes, true_and,
        true_iff]
      constructor
      · exact ⟨args, hargs⟩
      · intro args' hargs'
        rw [hargs, Except.ok.injEq] at hargs'
        rwa [← hargs']
    · simp only [hthrown, ne_eq, not_true, false_and, false_iff]
      rintro ⟨⟨args, hargs⟩, hwritable⟩
      exact hnot args hargs (hwritable args hargs)

/-! ## A text that is not base64url -/

/-- The call `requestModule([{"_bytes":"!"}])`, or one with this text in place of the `!`. -/
def bytesArgument (text : Bytes) : Bytes :=
  bstr "[\x7b\"_bytes\":\"" ++ text ++ bstr "\"\x7d]"

/-- A parser that reads the arguments with these two texts. -/
def parseBytesArgument (argsJson : Bytes) : Option Json :=
  if argsJson = bytesArgument (bstr "!") then
    some (.array [.object [(bytesKey, .string (bstr "!"))]])
  else if argsJson = bytesArgument (bstr "AA") then
    some (.array [.object [(bytesKey, .string (bstr "AA"))]])
  else none

/-- A client of the capability module. -/
def capabilityClient : Client := { target := kCapabilityModule, origin := bstr "app" }

set_option maxRecDepth 4000 in
/-- With bytes that decode the doors agree. -/
theorem invoke_doors_decoded :
    (lpInvokeAsync textCodec parseBytesArgument connected 0 capabilityClient
        (some (bstr "f")) (some (bytesArgument (bstr "AA"))) true).1 ≠ none ∧
      ((lpInvokeAsync textCodec parseBytesArgument connected 0 capabilityClient
          (some (bstr "f")) (some (bytesArgument (bstr "AA"))) true).1 = some lpErrInvalidArg ↔
        (QtDoor.lpInvokeAsync parseBytesArgument (some ⟨[], []⟩) (some (bstr "f"))
          (some (bytesArgument (bstr "AA"))) 0 true).1 = lpErrInvalidArg) := by
  apply (invoke_doors_iff textCodec parseBytesArgument connected 0 capabilityClient ⟨[], []⟩ 0
    (bstr "f") (by decide) (some (bytesArgument (bstr "AA")))).mpr
  intro items hitems
  have hread : argsItems parseBytesArgument (some (bytesArgument (bstr "AA"))) =
      some [.object [(bytesKey, .string (bstr "AA"))]] := rfl
  have hvalues : jsonToValues [.object [(bytesKey, .string (bstr "AA"))]] =
      .ok [.bytes [0]] := rfl
  rw [hread, Option.some.injEq] at hitems
  subst hitems
  refine ⟨(succeeds_jsonToValues _).mp ⟨_, hvalues⟩, ?_⟩
  intro args hargs
  rw [hvalues, Except.ok.injEq] at hargs
  subst hargs
  exact ⟨_, rfl⟩

/-- With `!` the Qt door makes the call, and an exception leaves the wasm door. -/
theorem invoke_doors_undecoded :
    (lpInvokeAsync textCodec parseBytesArgument connected 0 capabilityClient
        (some (bstr "f")) (some (bytesArgument (bstr "!"))) true).1 = none ∧
      (QtDoor.lpInvokeAsync parseBytesArgument (some ⟨[], []⟩) (some (bstr "f"))
        (some (bytesArgument (bstr "!"))) 0 true).1 = lpOk ∧
    ¬ ((lpInvokeAsync textCodec parseBytesArgument connected 0 capabilityClient
          (some (bstr "f")) (some (bytesArgument (bstr "!"))) true).1 ≠ none ∧
        ((lpInvokeAsync textCodec parseBytesArgument connected 0 capabilityClient
            (some (bstr "f")) (some (bytesArgument (bstr "!"))) true).1 = some lpErrInvalidArg ↔
          (QtDoor.lpInvokeAsync parseBytesArgument (some ⟨[], []⟩) (some (bstr "f"))
            (some (bytesArgument (bstr "!"))) 0 true).1 = lpErrInvalidArg)) := by
  have hthrown : (lpInvokeAsync textCodec parseBytesArgument connected 0 capabilityClient
      (some (bstr "f")) (some (bytesArgument (bstr "!"))) true).1 = none := rfl
  have hmade : (QtDoor.lpInvokeAsync parseBytesArgument (some ⟨[], []⟩) (some (bstr "f"))
      (some (bytesArgument (bstr "!"))) 0 true).1 = lpOk := rfl
  exact ⟨hthrown, hmade, fun h => h.1 hthrown⟩

end OutboundDoor

end LogosProtocol
