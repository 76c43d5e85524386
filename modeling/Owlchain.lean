import Owlchain.Library.Loop
import Owlchain.Library.Agree
import Owlchain.Library.Transition
import Owlchain.Library.While
import Owlchain.Library.Search
import Owlchain.Library.Subset
import Owlchain.Library.Cyclic
import Owlchain.Library.DynArray
import Owlchain.Library.Endian
import Owlchain.Library.Radix
import Owlchain.Library.LogTable
import Owlchain.Library.PowerCheck
import Owlchain.Runtime
import Owlchain.Crypto.Runtime
import Owlchain.Crypto.ReedSolomon
import Owlchain.Crypto.Symbol
import Owlchain.Crypto.Checksum
import Owlchain.Crypto.Conversion
import Owlchain.Crypto.Encode
import Owlchain.Crypto.EncodeLoop
import Owlchain.Crypto.EncodeNegative
import Owlchain.Crypto.Letters
import Owlchain.Crypto.Decode
import Owlchain.Crypto.DecodeTotal
import Owlchain.Crypto.Acceptance
import Owlchain.Crypto.Address
import Owlchain.Crypto.Prefixed
import Owlchain.Vibe.MatchGraph
import Owlchain.Vibe.Disambiguate
import Owlchain.Vibe.MatchTree
import Owlchain.Vibe.RouteMatch
import Owlchain.Vibe.UrlEncode
import Owlchain.Vibe.Router
import Owlchain.Vibe.Rest
import Owlchain.Vibe.RingBuffer
import Owlchain.Vibe.MessageQueue
import Owlchain.Vibe.Frame
import Owlchain.Vibe.WebSocketMessage
import Owlchain.Vibe.WebSocket
import Owlchain.Vibe.WebSocketLink
import Owlchain.Ui.Payment
import Owlchain.Ui.Registry
import Owlchain.Ui.RegistryLog
import Owlchain.Ui.ContractPage
import Owlchain.Ui.WalletPage
import Owlchain.Ui.Sockets
import Owlchain.Ui.Broadcast
import Owlchain.Ui.Routes
