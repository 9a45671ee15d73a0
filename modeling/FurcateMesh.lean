import FurcateMesh.Library.Runs
import FurcateMesh.Library.SparseFile
import FurcateMesh.Library.InodeStore
import FurcateMesh.Library.StoreView
import FurcateMesh.Library.ContentStore
import FurcateMesh.Library.LogicalClock
import FurcateMesh.Library.Pipeline
import FurcateMesh.Library.Ticker
import FurcateMesh.Library.Binary64
import FurcateMesh.Library.SortBy
import FurcateMesh.Library.LastWriter
import FurcateMesh.Library.KeyExpr
import FurcateMesh.Library.Base64Url
import FurcateMesh.Library.Serde
import FurcateMesh.Library.RecordByName
import FurcateMesh.Library.ValueCode
import FurcateMesh.Library.Cbor
import FurcateMesh.PeerId
import FurcateMesh.HybridLogicalClock
import FurcateMesh.ClockDrift
import FurcateMesh.MeshEvent
import FurcateMesh.Wire
import FurcateMesh.WireEvolution
import FurcateMesh.WireCbor
import FurcateMesh.Identity
import FurcateMesh.IdentityCrash
import FurcateMesh.IdentityLife
import FurcateMesh.IdentityTls
import FurcateMesh.IdentityHandshake
import FurcateMesh.Discovery
import FurcateMesh.DiscoveryStream
import FurcateMesh.Transfer
import FurcateMesh.Keys
import FurcateMesh.PeerUp
import FurcateMesh.TransferPull
import FurcateMesh.TransferSession
import FurcateMesh.TransferCache
import FurcateMesh.TransferConcurrent
import FurcateMesh.TransferStream
import FurcateMesh.TransferReceive
import FurcateMesh.TransferReplies
import FurcateMesh.TransferContract
import FurcateMesh.TransferRoundTrip
import FurcateMesh.TransferParallel
import FurcateMesh.ModelShare
import FurcateMesh.Router
import FurcateMesh.RouterOrder
import FurcateMesh.RouterHistory
import FurcateMesh.RouterDeterminism
import FurcateMesh.HeartbeatLiveness
import FurcateMesh.GossipConvergence
import FurcateMesh.Subscribe
import FurcateMesh.HopBudget
import FurcateMesh.RouterAgreement
