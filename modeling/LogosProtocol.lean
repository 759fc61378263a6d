import LogosProtocol.Lib.TransitionSystem
import LogosProtocol.Token.Noninterference
import LogosProtocol.Wire.Framing
import LogosProtocol.Wire.Base64Url
import LogosProtocol.Wire.CallError
import LogosProtocol.Wire.RpcMessage
import LogosProtocol.Wire.JsonMapping
import LogosProtocol.Lib.Except
import LogosProtocol.Wire.RoundTrip
import LogosProtocol.Wire.HandleFrame
import LogosProtocol.Rpc.ExactlyOnce
import LogosProtocol.Rpc.Answers
import LogosProtocol.Lib.OrderedChannel
import LogosProtocol.Rpc.SubscriptionAgreement
import LogosProtocol.Async.CallState
import LogosProtocol.Lib.OneShotGate
import LogosProtocol.Async.AsyncCall
import LogosProtocol.Async.ExactlyOnce
import LogosProtocol.Async.Retention
import LogosProtocol.Rpc.Connection
import LogosProtocol.Consumer.Registry
import LogosProtocol.Consumer.Partition
import LogosProtocol.Consumer.Attachment
import LogosProtocol.Consumer.Rearm
import LogosProtocol.Consumer.Arming
import LogosProtocol.Consumer.RestartPolicy
import LogosProtocol.Consumer.Generation
import LogosProtocol.Consumer.Cancel
import LogosProtocol.Client.ApiClient
import LogosProtocol.Client.Handshake
import LogosProtocol.Client.Continuations
import LogosProtocol.Client.Exchanges
import LogosProtocol.Client.Rejections
import LogosProtocol.Token.HostAnchor
import LogosProtocol.Lib.Lockstep
import LogosProtocol.Token.TokenAbi
import LogosProtocol.Token.ImageRefinement
import LogosProtocol.Token.GrantNoninterference
import LogosProtocol.Lib.Tally
import LogosProtocol.Rpc.EntryGuard
import LogosProtocol.Rpc.TokenRouting
import LogosProtocol.Client.Budgets
import LogosProtocol.Lib.Staging
import LogosProtocol.Async.Parking
import LogosProtocol.Async.SyncCalls
import LogosProtocol.Async.EarlyCompletions
import LogosProtocol.Qt.DeferredCalls
import LogosProtocol.Qt.LocalObject
import LogosProtocol.Qt.RemoteObject
import LogosProtocol.Qt.Unclaimed
import LogosProtocol.Wire.WebMessage
import LogosProtocol.Rpc.EventDispatch
import LogosProtocol.Rpc.FailedSends
import LogosProtocol.Consumer.HandshakeProbe
import LogosProtocol.Wasm.OutboundDoor
import LogosProtocol.Wasm.OutboundCalls
import LogosProtocol.Wasm.TokenExchanges
import LogosProtocol.Wire.Floats
import LogosProtocol.Wire.Codec
import LogosProtocol.Wire.ExactIntegers
import LogosProtocol.Wire.CodecRoundTrip
import LogosProtocol.Qt.Text
import LogosProtocol.Wire.ByValue
import LogosProtocol.Convert.QVariant
import LogosProtocol.Convert.TwoPaths
import LogosProtocol.Wire.CanonicalBase64
import LogosProtocol.Convert.Hops
import LogosProtocol.Lib.Obligations
import LogosProtocol.Qt.LocalCallbacks
import LogosProtocol.Qt.CallbacksServed
import LogosProtocol.Lib.Grouped
import LogosProtocol.Rpc.PeerRegistry
import LogosProtocol.Rpc.SinkTables
import LogosProtocol.Token.TokenIntake
import LogosProtocol.Lib.Scoped
import LogosProtocol.Token.CallRemoteMethod
import LogosProtocol.Token.CallerScope
import LogosProtocol.Token.SharedAnchors
import LogosProtocol.Wasm.InvokeDoors
import LogosProtocol.Wire.Numbers
import LogosProtocol.Wire.WebDecode
import LogosProtocol.Wire.StrictBase64
import LogosProtocol.Wire.LenientBytes
import LogosProtocol.Transport.Config
import LogosProtocol.Transport.Parsing
import LogosProtocol.Transport.RoundTrip
import LogosProtocol.Consumer.Watchdog
import LogosProtocol.Lib.Errands
import LogosProtocol.Client.ReExchange
import LogosProtocol.Async.Filed
import LogosProtocol.Async.PlainObject
import LogosProtocol.Qt.CompletionChannel
