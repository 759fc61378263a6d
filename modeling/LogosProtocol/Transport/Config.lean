import LogosProtocol.Token.TokenAbi
import LogosProtocol.Wire.HandleFrame
import LogosProtocol.Wire.Numbers

/-!
# Transport configurations

One configuration says how a module is reached, and a set of them travels as a JSON array from a
parent process to its child, or from a caller of the C interface.  The writer leaves out what a
protocol has no use for.  The reader takes a default for every key that is missing, passes over an
entry whose port is out of range, and gives back nothing for a text it cannot parse.  It reads the
fields with `value()`, outside of the block that catches what the parser throws.

## Main definitions

* `LogosTransportConfig` — a configuration.
* `transportSetToJsonString`, `transportSetFromJsonString` — a set as a text, and back.
* `parseTransportJson` — the configuration of a caller of the C interface.
* `lpSetDefaultTransport`, `lpClientTransports` — the functions of the interface that read one.
-/

namespace LogosProtocol.Transport

/-! ## Configurations -/

/-- `LogosProtocol`. -/
inductive Protocol
  | localSocket | tcp | tcpSsl | web
  deriving DecidableEq, Repr

inductive LogosWireCodec
  | json | cbor
  deriving DecidableEq, Repr

structure LogosTransportConfig where
  protocol : Protocol := .localSocket
  host : Bytes := bstr "127.0.0.1"
  port : UInt16 := 0
  caFile : Bytes := []
  certFile : Bytes := []
  keyFile : Bytes := []
  verifyPeer : Bool := true
  codec : LogosWireCodec := .json
  deriving DecidableEq, Repr

abbrev LogosTransportSet := List LogosTransportConfig

def protocolToString : Protocol → Bytes
  | .localSocket => bstr "local"
  | .tcp => bstr "tcp"
  | .tcpSsl => bstr "tcp_ssl"
  | .web => bstr "web"

/-- What is not known is a local socket. -/
def protocolFromString (s : Bytes) : Protocol :=
  if s = bstr "tcp" then .tcp
  else if s = bstr "tcp_ssl" then .tcpSsl
  else if s = bstr "web" then .web
  else .localSocket

def codecToString : LogosWireCodec → Bytes
  | .cbor => bstr "cbor"
  | .json => bstr "json"

def codecFromString (s : Bytes) : LogosWireCodec := if s = bstr "cbor" then .cbor else .json

@[simp] theorem protocolFromString_toString (p : Protocol) :
    protocolFromString (protocolToString p) = p := by
  cases p <;> decide

@[simp] theorem codecFromString_toString (c : LogosWireCodec) :
    codecFromString (codecToString c) = c := by
  cases c <;> decide

/-! ## Writing -/

/-- An entry for a text that may be empty. -/
def fileEntry (key file : Bytes) : List (Bytes × Json) :=
  if file = [] then [] else [(key, .string file)]

/-- What is written of a configuration, in order.  A local socket and a web channel have no
address, and only TLS has files. -/
def configEntries (cfg : LogosTransportConfig) : List (Bytes × Json) :=
  [(bstr "protocol", .string (protocolToString cfg.protocol))] ++
  (if cfg.protocol ≠ .localSocket ∧ cfg.protocol ≠ .web then
    [(bstr "host", .string cfg.host), (bstr "port", .numberUnsigned cfg.port.toUInt64),
      (bstr "codec", .string (codecToString cfg.codec))]
  else []) ++
  (if cfg.protocol = .tcpSsl then
    fileEntry (bstr "ca_file") cfg.caFile ++ fileEntry (bstr "cert_file") cfg.certFile ++
      fileEntry (bstr "key_file") cfg.keyFile ++ [(bstr "verify_peer", .boolean cfg.verifyPeer)]
  else [])

def transportSetToJson (set : LogosTransportSet) : Json :=
  .array (set.map fun cfg => jsonObject (configEntries cfg))

def transportSetToJsonString (json : WireCodec) (set : LogosTransportSet) : Except String Bytes :=
  json.serialise (transportSetToJson set)

/-! ## Reading -/

/-- One element of the array: a configuration, or none for one that is passed over. -/
def configFromJson (o : Json) : Except DecodeError (Option LogosTransportConfig) :=
  match o with
  | .object _ => do
    let protocol ← o.value (bstr "protocol") Json.getString (bstr "local")
    let host ← o.value (bstr "host") Json.getString (bstr "127.0.0.1")
    let rawPort ← o.value (bstr "port") Json.getInt 0
    if rawPort < 0 ∨ 0xFFFF < rawPort then return none
    let codec ← o.value (bstr "codec") Json.getString (bstr "json")
    let caFile ← o.value (bstr "ca_file") Json.getString []
    let certFile ← o.value (bstr "cert_file") Json.getString []
    let keyFile ← o.value (bstr "key_file") Json.getString []
    let verifyPeer ← o.value (bstr "verify_peer") Json.getBool true
    return some {
      protocol := protocolFromString protocol, host, port := rawPort.toUInt32.toUInt16
      caFile, certFile, keyFile, verifyPeer, codec := codecFromString codec }
  | _ => .ok none

/-- The loop over the array. -/
def configsFromJson : List Json → Except DecodeError LogosTransportSet
  | [] => .ok []
  | o :: items => do
    let cfg ← configFromJson o
    let set ← configsFromJson items
    return cfg.toList ++ set

/-- A set, or what a field of the wrong type makes `value()` throw. -/
def transportSetFromJsonString (json : WireCodec) (text : Bytes) :
    Except DecodeError LogosTransportSet :=
  if text = [] then .ok []
  else
    match json.parse text with
    | .ok (.array items) => configsFromJson items
    | _ => .ok []

/-! ## The C interface -/

section interface
variable (json : WireCodec) (default : LogosTransportConfig)

/-- One object, through the parser of sets.  A null pointer, an empty text and `null` stand for the
default of the process. -/
def parseTransportJson : Option Bytes → Except DecodeError (Option LogosTransportConfig)
  | none => .ok (some default)
  | some text =>
    if text = [] ∨ text = bstr "null" then .ok (some default)
    else do
      let set ← transportSetFromJsonString json (0x5B :: text ++ [0x5D])
      return set.head?

/-- `lp_set_default_transport`: the code it returns, and the default from then on. -/
def lpSetDefaultTransport :
    Option Bytes → Except DecodeError (ℤ × LogosTransportConfig)
  | none => .ok (lpErrInvalidArg, default)
  | some text => do
    match ← parseTransportJson json default (some text) with
    | none => return (lpErrInvalidArg, default)
    | some cfg => return (lpOk, cfg)

/-- `lp_client_create`, up to the configurations of the client: none for a null handle. -/
def lpClientTransports (targetModule originModule targetJson capabilityJson : Option Bytes) :
    Except DecodeError (Option (LogosTransportConfig × LogosTransportConfig)) :=
  if targetModule.getD [] = [] ∨ originModule = none then .ok none
  else do
    let some targetCfg ← parseTransportJson json default targetJson | return none
    let some capabilityCfg ← parseTransportJson json default capabilityJson | return none
    return some (targetCfg, capabilityCfg)

end interface

end LogosProtocol.Transport
