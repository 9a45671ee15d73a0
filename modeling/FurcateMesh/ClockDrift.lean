import FurcateMesh.HybridLogicalClock

/-!
# How far the clocks of a mesh can run

The peers of `HybridLogicalClock` in a closed mesh: every event they receive was emitted by
one of them.

The peers start with counters of zero, as `now` gives them.  Then no clock is ahead of the
system times: its `wall_ms` is one that a peer has read, or started with, and its counter is
at most the number of actions since (`closed_mesh_clocks_grounded`).  So a counter can only
saturate at a peer whose system time stood still, or lay behind the others', for `u32::MAX`
actions of the mesh; in any other run happens-before implies a smaller clock
(`closed_mesh_causal`).

A counter counts from the first reading of its millisecond: an action raises it by one at
most, and a clock with a new millisecond takes over the counter of a clock of that
millisecond, or zero.  The invariant `Grounded` says this of every stored clock and every
stamp, relative to the actions done so far.
-/

namespace FurcateMesh

open Relation (ReflTransGen)
open HybridLogicalClock

section Drift

variable {ι : Type}

/-- Some peer started with the millisecond, or read it in one of the actions. -/
def WallRead (stored : ι → HybridLogicalClock) (done : List (PeerAction ι)) (wall : UInt64) :
    Prop :=
  (∃ peer, (stored peer).wallMs = wall) ∨
    ∃ peer sinceEpoch, .emit peer sinceEpoch ∈ done ∧ (now sinceEpoch).wallMs = wall

def Closed (actions : List (PeerAction ι)) : Prop := ∀ clock, .wire clock ∉ actions

/-- The counter is at most the number of actions since the clock's millisecond was first read. -/
def CounterAge (stored : ι → HybridLogicalClock) (done : List (PeerAction ι))
    (clock : HybridLogicalClock) : Prop :=
  ∀ before after, done = before ++ after →
    before = [] ∨ ¬ WallRead stored before clock.wallMs → clock.counter.toNat ≤ after.length

structure Grounded (stored : ι → HybridLogicalClock) (done : List (PeerAction ι))
    (clock : HybridLogicalClock) : Prop where
  wall : WallRead stored done clock.wallMs
  counter : CounterAge stored done clock

variable {stored : ι → HybridLogicalClock} {done : List (PeerAction ι)}
  {clock other : HybridLogicalClock}

theorem WallRead.append {wall : UInt64} (h : WallRead stored done wall) (action : PeerAction ι) :
    WallRead stored (done ++ [action]) wall := by
  rcases h with hstored | ⟨peer, sinceEpoch, hmem, hwall⟩
  · exact .inl hstored
  · exact .inr ⟨peer, sinceEpoch, List.mem_append_left _ hmem, hwall⟩

theorem wallRead_now (peer : ι) (sinceEpoch : Option Nat) :
    WallRead stored (done ++ [.emit peer sinceEpoch]) (now sinceEpoch).wallMs :=
  .inr ⟨peer, sinceEpoch, List.mem_append_right _ (List.mem_singleton_self _), rfl⟩

/-- After one more action the counter may be one higher. -/
theorem Grounded.of_succ {action : PeerAction ι}
    (hwall : WallRead stored (done ++ [action]) other.wallMs) (hage : CounterAge stored done clock)
    (hsame : other.wallMs = clock.wallMs)
    (hcounter : other.counter.toNat ≤ clock.counter.toNat + 1) :
    Grounded stored (done ++ [action]) other := by
  refine ⟨hwall, ?_⟩
  intro before after hsplit hfresh
  rcases List.eq_nil_or_concat' after with rfl | ⟨after, last, rfl⟩
  · -- the millisecond has been read by now
    rw [List.append_nil] at hsplit
    subst hsplit
    rcases hfresh with hnil | hunread
    · exact absurd hnil (List.append_ne_nil_of_right_ne_nil _ (List.cons_ne_nil _ _))
    · exact absurd hwall hunread
  · rw [← List.append_assoc] at hsplit
    obtain ⟨hdone, _⟩ := List.append_inj' hsplit rfl
    rw [hsame] at hfresh
    have hle := hage before after hdone hfresh
    rw [List.length_append, List.length_singleton]
    omega

theorem Grounded.append (h : Grounded stored done clock) (action : PeerAction ι) :
    Grounded stored (done ++ [action]) clock :=
  .of_succ (h.wall.append action) h.counter rfl (Nat.le_succ _)

theorem toNat_counter_increment_le (clock : HybridLogicalClock) :
    (saturatingAdd clock.counter 1).toNat ≤ clock.counter.toNat + 1 := by
  rw [toNat_saturatingAdd_one]
  split
  · exact Nat.le_succ _
  · exact Nat.le_refl _

theorem Grounded.bumpPast {action : PeerAction ι} (h : Grounded stored done clock)
    (hwall : WallRead stored (done ++ [action]) other.wallMs)
    (hage : CounterAge stored done other) :
    Grounded stored (done ++ [action]) (bumpPast clock other) := by
  rw [bumpPast_eq]
  rcases max_choice clock other with hmax | hmax
  · rw [hmax]
    exact .of_succ (h.wall.append action) h.counter rfl (toNat_counter_increment_le clock)
  · rw [hmax]
    exact .of_succ hwall hage rfl (toNat_counter_increment_le other)

/-- No peer emits at a system time that does not pass a millisecond which was read
    `u32::MAX - 1` or more actions before. -/
def TimeMoves (stored : ι → HybridLogicalClock) (actions : List (PeerAction ι)) : Prop :=
  ∀ before middle peer sinceEpoch rest,
    actions = before ++ middle ++ .emit peer sinceEpoch :: rest → 2 ^ 32 - 2 ≤ middle.length →
      ∀ wall, WallRead stored before wall → wall < (now sinceEpoch).wallMs

/-- Where time moves, an emission finds a counter it can still raise. -/
theorem Grounded.unsaturated {peer : ι} {sinceEpoch : Option Nat} {rest : List (PeerAction ι)}
    (h : Grounded stored done clock)
    (hmoves : TimeMoves stored (done ++ .emit peer sinceEpoch :: rest)) :
    clock.counter ≠ 0xFFFFFFFF ∨ clock < now sinceEpoch := by
  by_cases hsat : clock.counter = 0xFFFFFFFF
  · right
    have hmax : clock.counter.toNat = 2 ^ 32 - 1 := by
      rw [hsat]
      rfl
    -- the millisecond was read before the last `2 ^ 32 - 2` actions, or the counter is lower
    have hsplit := (List.take_append_drop (done.length - (2 ^ 32 - 2)) done).symm
    have hlength : (done.drop (done.length - (2 ^ 32 - 2))).length =
        done.length - (done.length - (2 ^ 32 - 2)) := List.length_drop
    have hread : WallRead stored (done.take (done.length - (2 ^ 32 - 2))) clock.wallMs := by
      by_contra hunread
      have hle := h.counter _ _ hsplit (.inr hunread)
      omega
    have hlong : 2 ^ 32 - 1 ≤ done.length := by
      have hle := h.counter [] done rfl (.inl rfl)
      omega
    rw [lt_iff]
    left
    apply UInt64.lt_iff_toNat_lt.mp
    apply hmoves _ _ peer sinceEpoch rest (by rw [← hsplit]) _ _ hread
    omega
  · exact .inl hsat

theorem TimeMoves.init {action : PeerAction ι} (h : TimeMoves stored (done ++ [action])) :
    TimeMoves stored done := by
  intro before middle peer sinceEpoch rest hsplit
  apply h before middle peer sinceEpoch (rest ++ [action])
  rw [hsplit, List.append_assoc, List.cons_append]

structure Peers.AllGrounded (stored : ι → HybridLogicalClock) (done : List (PeerAction ι))
    (s : Peers ι) : Prop where
  peers : ∀ peer, Grounded stored done (s.stored peer)
  events : ∀ event ∈ s.events, Grounded stored done event.clock

theorem Peers.allGrounded_initial (hzero : ∀ peer, (stored peer).counter = 0) :
    Peers.AllGrounded stored [] (LogicalClock.State.initial stored) := by
  refine ⟨fun peer => ⟨.inl ⟨peer, rfl⟩, ?_⟩, fun event hevent => absurd hevent List.not_mem_nil⟩
  intro before after _ _
  change (stored peer).counter.toNat ≤ _
  rw [hzero peer]
  exact Nat.zero_le _

variable [DecidableEq ι]

/-- **One action of a closed mesh.** -/
theorem Peers.AllGrounded.act {s : Peers ι} (h : Peers.AllGrounded stored done s)
    {action : PeerAction ι} (hclosed : ∀ clock, action ≠ .wire clock) :
    Peers.AllGrounded stored (done ++ [action])
      (s.act HybridLogicalClock.bumpPast action.action) := by
  -- a peer other than the one that acts keeps its clock
  have hupdate : ∀ {peer clock}, Grounded stored (done ++ [action]) clock → ∀ q,
      Grounded stored (done ++ [action]) (Function.update s.stored peer clock q) := by
    intro peer clock hclock q
    by_cases hq : q = peer
    · rw [hq, Function.update_self]
      exact hclock
    · rw [Function.update_of_ne hq]
      exact (h.peers q).append action
  have hold : ∀ event ∈ s.events, Grounded stored (done ++ [action]) event.clock :=
    fun event hevent => (h.events event hevent).append action
  cases action with
  | emit peer sinceEpoch =>
    have hclock := (h.peers peer).bumpPast (wallRead_now peer sinceEpoch)
      fun _ _ _ _ => Nat.zero_le _
    refine ⟨hupdate hclock, ?_⟩
    intro event hevent
    rcases List.mem_append.mp hevent with hevent | hnew
    · exact hold event hevent
    · cases List.mem_singleton.mp hnew
      exact hclock
  | wire clock => exact absurd rfl (hclosed clock)
  | receive peer k =>
    simp only [PeerAction.action, LogicalClock.State.act]
    split
    · exact ⟨fun q => (h.peers q).append _, hold⟩
    · next event hk =>
      have hevent := h.events event (List.mem_of_getElem? hk)
      exact ⟨hupdate ((h.peers peer).bumpPast (hevent.wall.append _) hevent.counter), hold⟩

theorem Peers.run_append (done : List (PeerAction ι)) (action : PeerAction ι) (s : Peers ι) :
    s.run (done ++ [action]) = (s.run done).act HybridLogicalClock.bumpPast action.action :=
  List.foldl_concat ..

theorem Peers.allGrounded_run (hzero : ∀ peer, (stored peer).counter = 0)
    {actions : List (PeerAction ι)} (hclosed : Closed actions) :
    Peers.AllGrounded stored actions (Peers.run actions (.initial stored)) := by
  induction actions using List.reverseRecOn with
  | nil => exact Peers.allGrounded_initial hzero
  | append_singleton done action ih =>
    rw [Peers.run_append]
    apply (ih fun clock hmem => hclosed clock (List.mem_append_left _ hmem)).act
    rintro clock rfl
    exact hclosed clock (List.mem_append_right _ (List.mem_singleton_self _))

/-- **No clock runs ahead of the system times.**  In every run of a closed mesh whose peers
    start with a counter of zero, as `now` gives it: the `wall_ms` of every stored clock and
    of every stamp is a millisecond that some peer read in the run or started with, and the
    counter is at most the number of actions, emissions and receptions of all peers, since
    the millisecond was first read. -/
theorem closed_mesh_clocks_grounded (hzero : ∀ peer, (stored peer).counter = 0)
    (actions : List (PeerAction ι)) (hclosed : Closed actions) {clock : HybridLogicalClock}
    (hclock : (∃ peer, (Peers.run actions (.initial stored)).stored peer = clock) ∨
      ∃ event ∈ (Peers.run actions (.initial stored)).events, event.clock = clock) :
    WallRead stored actions clock.wallMs ∧ clock.counter.toNat ≤ actions.length ∧
      ∀ before after, actions = before ++ after → ¬ WallRead stored before clock.wallMs →
        clock.counter.toNat ≤ after.length := by
  have hall := Peers.allGrounded_run hzero hclosed
  have hgrounded : Grounded stored actions clock := by
    rcases hclock with ⟨peer, rfl⟩ | ⟨event, hevent, rfl⟩
    · exact hall.peers peer
    · exact hall.events event hevent
  exact ⟨hgrounded.wall, hgrounded.counter [] actions rfl (.inl rfl),
    fun before after hsplit hunread => hgrounded.counter before after hsplit (.inr hunread)⟩

end Drift

namespace ClockSample

def relayed : List (PeerAction Bool) :=
  [.emit true (some 5), .receive false 0, .emit false (some 3)]

theorem closed_relayed : Closed relayed := by
  intro clock hmem
  simp [relayed] at hmem

end ClockSample

/-- The last stamp has the millisecond the other peer read. -/
theorem closed_mesh_clocks_grounded_relayed :
    WallRead (fun _ : Bool => ⟨0, 0⟩) ClockSample.relayed 5 :=
  (closed_mesh_clocks_grounded (fun _ => rfl) ClockSample.relayed ClockSample.closed_relayed
    (.inl ⟨false, show _ = ⟨5, 3⟩ by decide⟩)).1

section Causality

variable {ι : Type} [DecidableEq ι] {stored : ι → HybridLogicalClock}

/-- **A run in which time moves** never saturates a counter at an emission. -/
theorem Peers.run_unsaturated (hzero : ∀ peer, (stored peer).counter = 0)
    {actions : List (PeerAction ι)} (hclosed : Closed actions) (hmoves : TimeMoves stored actions) :
    ReflTransGen Peers.UnsaturatedStep (LogicalClock.State.initial stored)
      (Peers.run actions (.initial stored)) := by
  induction actions using List.reverseRecOn with
  | nil => exact .refl
  | append_singleton done action ih =>
    have hdone : Closed done := fun clock hmem => hclosed clock (List.mem_append_left _ hmem)
    apply (ih hdone hmoves.init).tail
    refine ⟨action, ?_, Peers.run_append done action _⟩
    cases action with
    | emit peer sinceEpoch =>
      exact ((Peers.allGrounded_run hzero hdone).peers peer).unsaturated hmoves
    | wire clock => trivial
    | receive peer k => trivial

/-- **Causality in a closed mesh.**  In every run of a closed mesh, of any length, whose
    peers start with a counter of zero and in which no peer emits at a system time that does
    not pass a millisecond read `u32::MAX - 1` or more actions before: an event that happens
    before another has the smaller clock. -/
theorem closed_mesh_causal (hzero : ∀ peer, (stored peer).counter = 0)
    (actions : List (PeerAction ι)) (hclosed : Closed actions) (hmoves : TimeMoves stored actions)
    {a b : Nat} (h : (Peers.run actions (.initial stored)).HappensBefore a b) :
    (Peers.run actions (.initial stored)).ClockLt a b := by
  have hrun := (Peers.run_unsaturated hzero hclosed hmoves).lift id
    fun _ _ hstep => hstep.strictStep
  exact LogicalClock.happensBefore_lt le_bumpPast_left le_bumpPast_right hrun h

end Causality

theorem closed_mesh_causal_relayed :
    (Peers.run ClockSample.relayed (.initial fun _ => ⟨0, 0⟩)).ClockLt 0 1 := by
  apply closed_mesh_causal (fun _ => rfl) ClockSample.relayed ClockSample.closed_relayed
  · intro before middle peer sinceEpoch rest hsplit hlong
    have hlength := congrArg List.length hsplit
    simp only [ClockSample.relayed, List.length_append, List.length_cons,
      List.length_nil] at hlength
    omega
  · exact .single ⟨_, rfl, List.mem_cons_self⟩

end FurcateMesh
