import FurcateMesh.Keys
import FurcateMesh.Wire

/-!
# The heartbeat loop

The loop that `peer_up` of `furcate-mesh-cli/src/main.rs` spawns: at each tick it reads
the system time, builds a `Heartbeat` and publishes it; a failed publish is only logged.
When the ticks come is the matter of `HeartbeatLiveness`; here a tick is what the loop finds
at it, a reading of the system time and a session.

The loop keeps no clock between ticks, so the published clocks are the readings
themselves: they increase exactly when the readings do
(`heartbeat_clocks_increase_iff`).  The system time may stand still within a millisecond, and
it may be set back; `HybridLogicalClock::now` hides neither.
-/

namespace FurcateMesh.PeerUp

open Serde Wire
open Keys (keyFor)

/-- `Session::put`: what the session answers to a key and a payload. -/
abbrev Put := String → Bytes → Except String Unit

/-- `Transport::publish`, for the events that have a key. -/
def publish (json : Format) (put : Put) (event : MeshEvent) :
    Option (Except TransportError Unit) :=
  (keyFor event).map fun key =>
    match publishPayload json event with
    | .error e => .error e
    | .ok bytes =>
        match put key bytes with
        | .error e => .error (.zenoh ("put " ++ key ++ ": " ++ e))
        | .ok () => .ok ()

structure Tick where
  sinceEpoch : Option Nat
  put : Put

structure Loop where
  published : List MeshEvent
  warned : List TransportError

/-- The event of a tick.  The load is a placeholder. -/
def Tick.heartbeat (peer : PeerId) (tick : Tick) : MeshEvent :=
  .heartbeat peer (.now tick.sinceEpoch) ⟨0⟩

section Loop

variable (json : Format) (peer : PeerId)

def Loop.tick (s : Loop) (tick : Tick) : Loop :=
  match publish json tick.put (tick.heartbeat peer) with
  | some (.ok ()) => { s with published := s.published ++ [tick.heartbeat peer] }
  | some (.error e) => { s with warned := s.warned ++ [e] }
  | none => s

def heartbeatLoop (ticks : List Tick) : Loop := ticks.foldl (Loop.tick json peer) ⟨[], []⟩

def Tick.sent (tick : Tick) : Bool :=
  match publish json tick.put (tick.heartbeat peer) with
  | some (.ok ()) => true
  | _ => false

/-- The millisecond that `now` makes of a reading. -/
def Tick.reading (tick : Tick) : Nat := min (tick.sinceEpoch.getD 0) (2 ^ 64 - 1)

def clockOf : MeshEvent → Option HybridLogicalClock
  | .heartbeat _ clock _ => some clock
  | _ => none

def Loop.clocks (s : Loop) : List HybridLogicalClock := s.published.filterMap clockOf

variable {json peer}

theorem toNat_wallMs_now (tick : Tick) :
    (HybridLogicalClock.now tick.sinceEpoch).wallMs.toNat = tick.reading := by
  rcases tick with ⟨_ | ms, put⟩
  · rfl
  · have hlt : min ms (2 ^ 64 - 1) < 2 ^ 64 := by omega
    exact UInt64.toNat_ofNat_of_lt' hlt

/-- Two readings order their clocks: the counter of `now` is always zero. -/
theorem now_lt_now_iff (a b : Tick) :
    HybridLogicalClock.now a.sinceEpoch < HybridLogicalClock.now b.sinceEpoch ↔
      a.reading < b.reading := by
  have hzero : ∀ reading, (HybridLogicalClock.now reading).counter = 0 := fun _ => rfl
  rw [HybridLogicalClock.lt_iff, toNat_wallMs_now, toNat_wallMs_now, hzero, hzero]
  simp

theorem published_tick (s : Loop) (tick : Tick) :
    (s.tick json peer tick).published =
      s.published ++ if tick.sent json peer then [tick.heartbeat peer] else [] := by
  rw [Loop.tick, Tick.sent]
  rcases publish json tick.put (tick.heartbeat peer) with _ | _ | _
  · simp
  · simp
  · simp

/-- **A run of the loop** publishes the heartbeats of the ticks that are sent. -/
theorem published_heartbeatLoop (ticks : List Tick) :
    (heartbeatLoop json peer ticks).published =
      (ticks.filter (Tick.sent json peer)).map (Tick.heartbeat peer) := by
  induction ticks using List.reverseRecOn with
  | nil => rfl
  | append_singleton ticks tick ih =>
    rw [heartbeatLoop, List.foldl_append, List.foldl_cons, List.foldl_nil, ← heartbeatLoop,
      published_tick, ih, List.filter_append, List.map_append]
    cases hsent : tick.sent json peer with
    | false => simp [hsent]
    | true => simp [hsent]

theorem clocks_heartbeatLoop (ticks : List Tick) :
    (heartbeatLoop json peer ticks).clocks =
      (ticks.filter (Tick.sent json peer)).map fun tick => .now tick.sinceEpoch := by
  rw [Loop.clocks, published_heartbeatLoop, List.filterMap_map]
  exact congrFun List.filterMap_eq_map' _

variable (json peer) in
/-- **When the published clocks increase.**  For every sequence of ticks, whatever the
    system time reads and whichever publishes fail: the clocks of the heartbeats that are
    sent increase strictly iff the readings at those ticks, in milliseconds and with times
    before the epoch as zero, increase strictly. -/
theorem heartbeat_clocks_increase_iff (ticks : List Tick) :
    (heartbeatLoop json peer ticks).clocks.Pairwise (· < ·) ↔
      (ticks.filter (Tick.sent json peer)).Pairwise fun a b => a.reading < b.reading := by
  rw [clocks_heartbeatLoop, List.pairwise_map]
  simp only [now_lt_now_iff]

/-- Two ticks in one millisecond, and a tick after the system time stepped back: the second
    clock equals the first, the third is below it. -/
theorem heartbeat_clocks_repeat :
    (heartbeatLoop ValueCode.nullsNonFinite ⟨Vector.replicate 32 0⟩
      [⟨some 5, fun _ _ => .ok ()⟩, ⟨some 5, fun _ _ => .ok ()⟩, ⟨some 3, fun _ _ => .ok ()⟩]).clocks =
        [⟨5, 0⟩, ⟨5, 0⟩, ⟨3, 0⟩] ∧
    ¬ [⟨5, 0⟩, ⟨5, 0⟩, (⟨3, 0⟩ : HybridLogicalClock)].Pairwise (· < ·) := by
  constructor
  · decide +kernel
  · decide +kernel

end Loop

end FurcateMesh.PeerUp
