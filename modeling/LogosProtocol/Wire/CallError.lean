import LogosProtocol.Wire.Base64Url

/-!
# The error of a call

The error every transport gives its callers.  The codes are spelled here only, so that a
caller reads the same ones whichever connection the call went over.

## Main definitions

* `CallError` — the code, the text and the module the error is about.
* `callErrorTimeout`, `callErrorObjectUnavailable`, `callErrorTransport`,
  `callErrorCallFailed` — its constructors.
* `callErrorFromWire` — the error for the code and the text of a failed reply.
-/

namespace LogosProtocol

/-- An empty code is no error. -/
structure CallError where
  code : Bytes := []
  message : Bytes := []
  origin : Bytes := []
  deriving DecidableEq, Repr

def callErrorTimeout (origin method : Bytes) (timeoutMs : Int) : CallError where
  code := bstr "timeout"
  message := bstr "call to '" ++ origin ++ bstr "." ++ method ++ bstr "' timed out after " ++
    bstr (toString timeoutMs) ++ bstr "ms"
  origin := origin

def callErrorObjectUnavailable (origin detail : Bytes) : CallError :=
  { code := bstr "object_unavailable", message := detail, origin := origin }

def callErrorTransport (origin detail : Bytes) : CallError :=
  { code := bstr "transport_error", message := detail, origin := origin }

def callErrorCallFailed (origin detail : Bytes) : CallError :=
  { code := bstr "call_failed", message := detail, origin := origin }

/-- The code and the text of a failed reply, in the caller's vocabulary. -/
def callErrorFromWire (origin wireCode message : Bytes) : CallError :=
  let detail := if message = [] then wireCode else message
  if wireCode = bstr "MODULE_NOT_LOADED" then callErrorObjectUnavailable origin detail
  else if wireCode = bstr "TRANSPORT_CLOSED" ∨ wireCode = bstr "TRANSPORT_ERROR" then
    callErrorTransport origin detail
  else callErrorCallFailed origin detail

end LogosProtocol
