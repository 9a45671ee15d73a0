import FurcateMesh.HybridLogicalClock
import FurcateMesh.Library.Binary64
import FurcateMesh.PeerId

/-!
# Mesh events

`MeshEvent` of `furcate-mesh-core`: the ten variants every peer publishes and
subscribes to.  The fields the source calls `from` and `to` are `sender` and
`target` here.
-/

namespace FurcateMesh

inductive MeshEvent where
  | heartbeat (peer : PeerId) (clock : HybridLogicalClock) (load : Binary64)
  | modelAnnounce (peer : PeerId) (clock : HybridLogicalClock) (modelName : String)
      (digestBlake3 : String) (format : String)
  | workOffer (sender target : PeerId) (request : Bytes) (hops : UInt8)
  | workResult (sender target : PeerId) (response : Bytes)
  | agentState (peer : PeerId) (clock : HybridLogicalClock) (agentId : String) (state : Bytes)
  | sensorReading (peer : PeerId) (clock : HybridLogicalClock) (sensorId metric : String)
      (value : Binary64) (unit : String) (raw : Option Bytes)
  | command (target : PeerId) (clock : HybridLogicalClock) (verb : String) (params : Bytes)
  | attestation (peer : PeerId) (clock : HybridLogicalClock) (format : String) (evidence : Bytes)
  | otaOffer (target : PeerId) (clock : HybridLogicalClock) (imageId : String) (version : UInt32)
      (url sha256 : String) (size : UInt64)
  | otaStatus (peer : PeerId) (clock : HybridLogicalClock) (imageId state detail : String)
deriving DecidableEq

/-- The variants by name. -/
inductive EventKind where
  | heartbeat
  | modelAnnounce
  | workOffer
  | workResult
  | agentState
  | sensorReading
  | command
  | attestation
  | otaOffer
  | otaStatus
deriving DecidableEq, Repr

def MeshEvent.kind : MeshEvent → EventKind
  | .heartbeat .. => .heartbeat
  | .modelAnnounce .. => .modelAnnounce
  | .workOffer .. => .workOffer
  | .workResult .. => .workResult
  | .agentState .. => .agentState
  | .sensorReading .. => .sensorReading
  | .command .. => .command
  | .attestation .. => .attestation
  | .otaOffer .. => .otaOffer
  | .otaStatus .. => .otaStatus

end FurcateMesh
