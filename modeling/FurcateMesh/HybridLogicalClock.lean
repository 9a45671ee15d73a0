import Mathlib
import FurcateMesh.Library.LogicalClock

/-!
# The hybrid logical clock

`HybridLogicalClock` of `furcate-mesh-core`, its derived order, `now` and
`bump_past`, and the peers that stamp events with it.

`bump_past` increments a 32-bit counter with saturation and never carries into
`wall_ms`.  So a stored clock whose counter is at its maximum stays where it is,
and an event emitted from it is stamped no higher than an event already seen
(`saturated_emission_not_after`).  As long as no emission starts from such a clock,
happens-before implies a smaller clock (`happensBefore_clock_lt`), whatever the system times
read and whatever clocks come in over the wire.

A peer that emits bumps its stored clock past `now`, and a peer that receives bumps it past
the clock of the event.  That is the protocol of the library module `LogicalClock` with
`bump_past` for its operation, and what has to be shown here is when `bump_past` is strict
(`lt_bumpPast_iff`).
-/

namespace FurcateMesh

open Relation (ReflTransGen)

structure HybridLogicalClock where
  wallMs : UInt64
  counter : UInt32
deriving DecidableEq, Repr

namespace HybridLogicalClock

/-- The fields in declaration order: what the derived `Ord` compares. -/
def key (clock : HybridLogicalClock) : Nat ×ₗ Nat := toLex (clock.wallMs.toNat, clock.counter.toNat)

theorem key_injective : Function.Injective key := by
  intro left right heq
  have hpair : (left.wallMs.toNat, left.counter.toNat) =
      (right.wallMs.toNat, right.counter.toNat) := heq
  obtain ⟨hwall, hcounter⟩ := Prod.mk.inj hpair
  cases left
  cases right
  rw [mk.injEq]
  exact ⟨UInt64.toNat_inj.mp hwall, UInt32.toNat_inj.mp hcounter⟩

instance : LinearOrder HybridLogicalClock := LinearOrder.lift' key key_injective

theorem lt_iff (left right : HybridLogicalClock) :
    left < right ↔ left.wallMs.toNat < right.wallMs.toNat ∨
      left.wallMs.toNat = right.wallMs.toNat ∧ left.counter.toNat < right.counter.toNat :=
  Prod.Lex.toLex_lt_toLex

/-- `now`, from the milliseconds since the epoch, if the system time is not before
    it. -/
def now (sinceEpoch : Option Nat) : HybridLogicalClock :=
  ⟨sinceEpoch.elim 0 fun ms => UInt64.ofNat (min ms (2 ^ 64 - 1)), 0⟩

def saturatingAdd (a b : UInt32) : UInt32 :=
  if a.toNat + b.toNat < 2 ^ 32 then a + b else 0xFFFFFFFF

def bumpPast (clock other : HybridLogicalClock) : HybridLogicalClock :=
  let raised := if other > clock then other else clock
  { raised with counter := saturatingAdd raised.counter 1 }

/-! ### What `bump_past` guarantees -/

theorem toNat_saturatingAdd_one (n : UInt32) :
    (saturatingAdd n 1).toNat = if n = 0xFFFFFFFF then n.toNat else n.toNat + 1 := by
  have hn := n.toNat_lt
  have hmax : n = 0xFFFFFFFF ↔ n.toNat = 2 ^ 32 - 1 := by
    rw [← UInt32.toNat_inj]
    rfl
  unfold saturatingAdd
  by_cases h : n = 0xFFFFFFFF
  · rw [if_pos h, h]
    rfl
  · have hlt : n.toNat + (1 : UInt32).toNat < 2 ^ 32 := by
      have : n.toNat ≠ 2 ^ 32 - 1 := fun hbad => h (hmax.mpr hbad)
      rw [show (1 : UInt32).toNat = 1 from rfl]
      omega
    rw [if_neg h, if_pos hlt, UInt32.toNat_add, Nat.mod_eq_of_lt hlt]
    rfl

/-- Incrementing the counter raises the clock unless the counter saturates. -/
theorem lt_increment_iff (clock : HybridLogicalClock) :
    clock < { clock with counter := saturatingAdd clock.counter 1 } ↔
      clock.counter ≠ 0xFFFFFFFF := by
  rw [lt_iff]
  simp only [lt_irrefl, true_and, false_or, toNat_saturatingAdd_one]
  split <;> simp_all

theorem le_increment (clock : HybridLogicalClock) :
    clock ≤ { clock with counter := saturatingAdd clock.counter 1 } := by
  refine not_lt.mp fun h => ?_
  rw [lt_iff] at h
  simp only [lt_irrefl, true_and, false_or, toNat_saturatingAdd_one] at h
  split at h <;> omega

theorem bumpPast_eq (clock other : HybridLogicalClock) :
    bumpPast clock other =
      { max clock other with counter := saturatingAdd (max clock other).counter 1 } := by
  unfold bumpPast
  by_cases h : clock < other
  · rw [if_pos h, max_eq_right h.le]
  · rw [if_neg h, max_eq_left (not_lt.mp h)]

theorem le_bumpPast_left (clock other : HybridLogicalClock) : clock ≤ bumpPast clock other := by
  rw [bumpPast_eq]
  exact le_trans (le_max_left _ _) (le_increment _)

theorem le_bumpPast_right (clock other : HybridLogicalClock) : other ≤ bumpPast clock other := by
  rw [bumpPast_eq]
  exact le_trans (le_max_right _ _) (le_increment _)

/-- **When a bump is strict.**  The result is above the bumped clock iff its counter
    is not at the maximum or the other clock is above it. -/
theorem lt_bumpPast_iff (clock other : HybridLogicalClock) :
    clock < bumpPast clock other ↔ clock.counter ≠ 0xFFFFFFFF ∨ clock < other := by
  rw [bumpPast_eq]
  by_cases h : clock < other
  · simp only [h, or_true, iff_true, max_eq_right h.le]
    exact lt_of_lt_of_le h (le_increment other)
  · simp only [h, or_false, max_eq_left (not_lt.mp h)]
    exact lt_increment_iff clock

end HybridLogicalClock

/-! ### Peers that stamp events -/

open HybridLogicalClock

/-- What happens at the peers: an emission at a reading of the system time, an
    event that enters from the wire with any clock, and a reception. -/
inductive PeerAction (ι : Type) where
  | emit (peer : ι) (sinceEpoch : Option Nat)
  | wire (clock : HybridLogicalClock)
  | receive (peer : ι) (event : Nat)

abbrev Peers (ι : Type) := LogicalClock.State ι HybridLogicalClock

section Peers

variable {ι : Type} [DecidableEq ι]

/-- The peers as processes with a logical clock: an emission bumps past `now`. -/
def PeerAction.action : PeerAction ι → LogicalClock.Action ι HybridLogicalClock
  | .emit peer sinceEpoch => .emit peer (now sinceEpoch)
  | .wire clock => .forge clock
  | .receive peer event => .deliver peer event

def Peers.Step (s s' : Peers ι) : Prop :=
  ∃ action : PeerAction ι, s' = s.act bumpPast action.action

/-- An emission starts from a counter that can still be incremented, or from a
    stored clock that the system time has passed. -/
def Peers.Unsaturated (s : Peers ι) : PeerAction ι → Prop
  | .emit peer sinceEpoch =>
      (s.stored peer).counter ≠ 0xFFFFFFFF ∨ s.stored peer < now sinceEpoch
  | _ => True

def Peers.UnsaturatedStep (s s' : Peers ι) : Prop :=
  ∃ action : PeerAction ι, Peers.Unsaturated s action ∧ s' = s.act bumpPast action.action

theorem Peers.UnsaturatedStep.strictStep {s s' : Peers ι} (h : Peers.UnsaturatedStep s s') :
    s.StrictStep bumpPast s' := by
  obtain ⟨action, hunsat, rfl⟩ := h
  refine ⟨action.action, ?_, rfl⟩
  cases action with
  | emit peer sinceEpoch => exact (lt_bumpPast_iff _ _).mpr hunsat
  | wire clock => trivial
  | receive peer event => trivial

/-- **Happens-before implies a smaller clock as long as no emission saturates.**
    In every run of any number of peers from any stored clocks, with arbitrary
    system times and arbitrary clocks on the wire, whose emissions all start from
    an unsaturated counter or a stored clock in the past. -/
theorem happensBefore_clock_lt {stored : ι → HybridLogicalClock} {s : Peers ι}
    (hrun : ReflTransGen Peers.UnsaturatedStep (LogicalClock.State.initial stored) s) {a b : Nat}
    (h : s.HappensBefore a b) : s.ClockLt a b :=
  LogicalClock.happensBefore_lt le_bumpPast_left le_bumpPast_right
    (hrun.lift id fun _ _ hstep => hstep.strictStep) h

def Peers.run (actions : List (PeerAction ι)) (s : Peers ι) : Peers ι :=
  actions.foldl (fun s action => s.act bumpPast action.action) s

theorem Peers.run_steps :
    ∀ (actions : List (PeerAction ι)) (s : Peers ι), ReflTransGen Peers.Step s (s.run actions) := by
  intro actions
  induction actions with
  | nil => intro s; exact .refl
  | cons action actions ih => intro s; exact .head ⟨action, rfl⟩ (ih _)

end Peers

namespace ClockSample

/-- Peer `true` emits, peer `false` receives the event and emits with a system time
    that lies behind. -/
def relay : Peers Bool :=
  Peers.run [.emit true (some 5), .receive false 0, .emit false (some 3)]
    (LogicalClock.State.initial fun _ => ⟨0, 0⟩)

/-- A peer receives a clock with the largest counter and emits in the same
    millisecond. -/
def saturated : Peers Unit :=
  Peers.run [.wire ⟨5, 0xFFFFFFFF⟩, .receive () 0, .emit () (some 5)]
    (LogicalClock.State.initial fun _ => ⟨0, 0⟩)

end ClockSample

theorem happensBefore_clock_lt_relay :
    ClockSample.relay.HappensBefore 0 1 ∧ ClockSample.relay.ClockLt 0 1 := by
  have hrun : ReflTransGen Peers.UnsaturatedStep
      (LogicalClock.State.initial fun _ => ⟨0, 0⟩) ClockSample.relay :=
    .head ⟨.emit true (some 5), Or.inl (by decide), rfl⟩ <|
      .head ⟨.receive false 0, trivial, rfl⟩ <|
        .head ⟨.emit false (some 3), Or.inl (by decide), rfl⟩ .refl
  have hcause : ClockSample.relay.HappensBefore 0 1 := .single ⟨_, rfl, List.mem_cons_self⟩
  exact ⟨hcause, happensBefore_clock_lt hrun hcause⟩

/-- An event emitted after one with a saturated counter was received gets the same
    clock. -/
theorem saturated_emission_not_after :
    ReflTransGen Peers.Step (LogicalClock.State.initial fun _ => ⟨0, 0⟩) ClockSample.saturated ∧
      ClockSample.saturated.HappensBefore 0 1 ∧
      ClockSample.saturated.events.map (fun event => event.clock) =
        [⟨5, 0xFFFFFFFF⟩, ⟨5, 0xFFFFFFFF⟩] ∧
      ¬ ClockSample.saturated.ClockLt 0 1 := by
  refine ⟨Peers.run_steps _ _, .single ⟨_, rfl, List.mem_cons_self⟩, by decide, ?_⟩
  rintro ⟨event, event', hevent, hevent', hlt⟩
  cases hevent
  cases hevent'
  exact absurd hlt (by decide)

end FurcateMesh
