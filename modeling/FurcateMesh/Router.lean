import Mathlib.Data.List.AList
import FurcateMesh.Library.Binary64
import FurcateMesh.Library.SortBy
import FurcateMesh.PeerId

/-!
# The router

`furcate-mesh-routing/src/lib.rs`: the table built from gossip and the decision
where to serve a request.

The table is a hash map, so `route` takes the order in which iterating it yields
the entries, any permutation of them, and the sort of the standard library enters
through its contract.  Instants are nanoseconds on the monotonic clock.

`record_announce` and `record_heartbeat` share their first half: they ignore the local peer,
take the peer's entry or insert a fresh one, and then modify it (`upsert`).  A fresh entry of
an announcement has the load `f64::MAX`, which stands for unknown; one of a heartbeat has no
models.  That the table never has an entry for the router's own peer is a field of `Router`,
so no result here has to prove it again.

A request is decided in the order of the source: served locally if the model is loaded here,
refused if it has used up its hops, refused if no live peer advertises the model, and else
forwarded to the first candidate after sorting.  `sort_by` may panic if its comparator is not
a total order, which is what `none` stands for.  `Outcome` lists these results with the
condition of each, and `route_outcome` is the only proof that unfolds `route`.
-/

namespace FurcateMesh

/-- The fields of `MeshConfig` that routing reads. -/
structure MeshConfig where
  peerDeadAfterSecs : UInt64 := 30
  maxHops : UInt8 := 1

abbrev Instant := Nat

def durationFromSecs (secs : UInt64) : Nat := secs.toNat * 1000000000

/-- `Instant::duration_since`, which saturates at zero. -/
def durationSince (now earlier : Instant) : Nat := now - earlier

inductive RoutingError where
  | noSuchModel (modelName : String)
  | hopBudget (maxHops : UInt8)
deriving DecidableEq

inductive Decision where
  | serveLocal
  | forward (target : PeerId)
deriving DecidableEq

/-- Snapshot of one peer's gossiped state.  The load `MAX` means unknown. -/
structure PeerState where
  load : Binary64
  lastSeen : Instant
  models : List String
deriving DecidableEq

abbrev Entry := Sigma fun _ : PeerId => PeerState

/-- The router.  It never has an entry for its own peer. -/
structure Router where
  cfg : MeshConfig
  localPeer : PeerId
  state : AList fun _ : PeerId => PeerState
  selfAbsent : state.lookup localPeer = none

namespace Router

def new (localPeer : PeerId) (cfg : MeshConfig) : Router where
  cfg := cfg
  localPeer := localPeer
  state := ∅
  selfAbsent := AList.lookup_empty localPeer

/-- The common part of both record functions: ignore the local peer, else take the
    peer's entry, or insert `fresh`, and modify it. -/
def upsert (router : Router) (peer : PeerId) (fresh : PeerState)
    (modify : PeerState → PeerState) : Router :=
  if h : peer = router.localPeer then router
  else
    { router with
      state := router.state.insert peer (modify ((router.state.lookup peer).getD fresh))
      selfAbsent := by
        rw [AList.lookup_insert_ne (Ne.symm h)]
        exact router.selfAbsent }

def recordAnnounce (router : Router) (now : Instant) (peer : PeerId) (modelName : String) : Router :=
  router.upsert peer ⟨Binary64.MAX, now, []⟩ fun entry =>
    { entry with
      models := if entry.models.any (· == modelName) then entry.models
        else entry.models ++ [modelName]
      lastSeen := now }

def recordHeartbeat (router : Router) (now : Instant) (peer : PeerId) (load : Binary64) : Router :=
  router.upsert peer ⟨load, now, []⟩ fun entry => { entry with load := load, lastSeen := now }

/-- The comparator of the sort: load ascending, then `PeerId` ascending. -/
def compareCandidates (a b : PeerId × Binary64) : Ordering :=
  ((a.2.partialCmp b.2).getD .eq).then (compare a.1 b.1)

/-- The live entries that advertise the model, in iteration order. -/
def candidates (router : Router) (order : List Entry) (modelName : String) (now : Instant) :
    List (PeerId × Binary64) :=
  ((order.filter fun entry =>
        durationSince now entry.2.lastSeen < durationFromSecs router.cfg.peerDeadAfterSecs).filter
      fun entry => entry.2.models.any (· == modelName)).map fun entry => (entry.1, entry.2.load)

/-- Decide where to serve a request.  `none` is a panic of the sort. -/
def route (sorter : SortBy.Sorter (PeerId × Binary64)) (router : Router) (order : List Entry)
    (modelName : String) (localHas : Bool) (hopsSoFar : UInt8) (now : Instant) :
    Option (Except RoutingError Decision) :=
  if localHas then some (.ok .serveLocal)
  else if hopsSoFar ≥ router.cfg.maxHops then some (.error (.hopBudget router.cfg.maxHops))
  else
    let found := router.candidates order modelName now
    if found.isEmpty then some (.error (.noSuchModel modelName))
    else
      match sorter.sort compareCandidates found with
      | none => none
      | some sorted => sorted.head?.map fun candidate => .ok (.forward candidate.1)

/-! ### The table -/

/-- What an `upsert` changes of anything read off an entry. -/
theorem map_lookup_upsert {β : Type} (f : PeerState → β) (router : Router) (peer : PeerId)
    (fresh : PeerState) (modify : PeerState → PeerState) (other : PeerId) :
    ((router.upsert peer fresh modify).state.lookup other).map f =
      if other = peer ∧ peer ≠ router.localPeer then
        some (f (modify ((router.state.lookup peer).getD fresh)))
      else (router.state.lookup other).map f := by
  unfold upsert
  by_cases hlocal : peer = router.localPeer
  · rw [dif_pos hlocal, if_neg fun h => h.2 hlocal]
  · rw [dif_neg hlocal]
    by_cases h : other = peer
    · rw [if_pos ⟨h, hlocal⟩, h, AList.lookup_insert, Option.map_some]
    · rw [if_neg fun hand => h hand.1, AList.lookup_insert_ne h]

@[simp] theorem upsert_localPeer (router : Router) (peer : PeerId) (fresh : PeerState)
    (modify : PeerState → PeerState) :
    (router.upsert peer fresh modify).localPeer = router.localPeer := by
  unfold upsert
  split <;> rfl

@[simp] theorem upsert_cfg (router : Router) (peer : PeerId) (fresh : PeerState)
    (modify : PeerState → PeerState) : (router.upsert peer fresh modify).cfg = router.cfg := by
  unfold upsert
  split <;> rfl

/-! ### What the table says of one peer -/

def lastSeen (router : Router) (peer : PeerId) : Option Instant :=
  (router.state.lookup peer).map PeerState.lastSeen

/-- The peer's load, unknown without an entry. -/
def load (router : Router) (peer : PeerId) : Binary64 :=
  ((router.state.lookup peer).map PeerState.load).getD Binary64.MAX

def models (router : Router) (peer : PeerId) : List String :=
  ((router.state.lookup peer).map PeerState.models).getD []

section Views

variable (router : Router) (now : Instant) (peer other : PeerId)

theorem models_getD (fresh : PeerState) (hfresh : fresh.models = []) :
    ((router.state.lookup peer).getD fresh).models = router.models peer := by
  unfold models
  cases router.state.lookup peer with
  | none => exact hfresh
  | some entry => rfl

theorem lastSeen_recordAnnounce (modelName : String) :
    (router.recordAnnounce now peer modelName).lastSeen other =
      if other = peer ∧ peer ≠ router.localPeer then some now else router.lastSeen other :=
  map_lookup_upsert PeerState.lastSeen router peer _ _ other

theorem load_recordAnnounce (modelName : String) :
    (router.recordAnnounce now peer modelName).load other = router.load other := by
  rw [load, recordAnnounce, map_lookup_upsert]
  split
  · rename_i h
    rw [h.1, load]
    cases router.state.lookup peer <;> rfl
  · rfl

theorem mem_models_recordAnnounce (modelName name : String) :
    name ∈ (router.recordAnnounce now peer modelName).models other ↔
      name ∈ router.models other ∨
        (other = peer ∧ peer ≠ router.localPeer) ∧ name = modelName := by
  rw [models, recordAnnounce, map_lookup_upsert]
  by_cases h : other = peer ∧ peer ≠ router.localPeer
  · obtain ⟨rfl, hlocal⟩ := h
    simp only [ne_eq, hlocal, not_false_eq_true, and_self, if_true, Option.getD_some,
      models_getD router other ⟨Binary64.MAX, now, []⟩ rfl, true_and]
    split
    · rename_i hmem
      have hknown : modelName ∈ router.models other := by simpa using hmem
      exact ⟨Or.inl, fun hor => hor.elim id fun heq => heq ▸ hknown⟩
    · rw [List.mem_append, List.mem_singleton]
  · rw [if_neg h, ← models]
    exact ⟨Or.inl, fun hor => hor.elim id fun hand => absurd hand.1 h⟩

theorem lastSeen_recordHeartbeat (load : Binary64) :
    (router.recordHeartbeat now peer load).lastSeen other =
      if other = peer ∧ peer ≠ router.localPeer then some now else router.lastSeen other :=
  map_lookup_upsert PeerState.lastSeen router peer _ _ other

theorem load_recordHeartbeat (load : Binary64) :
    (router.recordHeartbeat now peer load).load other =
      if other = peer ∧ peer ≠ router.localPeer then load else router.load other := by
  rw [Router.load, recordHeartbeat, map_lookup_upsert]
  split <;> rfl

theorem models_recordHeartbeat (load : Binary64) :
    (router.recordHeartbeat now peer load).models other = router.models other := by
  rw [models, recordHeartbeat, map_lookup_upsert]
  split
  · rename_i h
    rw [h.1, Option.getD_some]
    exact models_getD router peer _ rfl
  · rfl

end Views

/-! ### The candidates -/

section Candidates

variable {router : Router} {order : List Entry} {modelName : String} {now : Instant}

/-- The entry is live and advertises the model. -/
def Eligible (router : Router) (modelName : String) (now : Instant) (state : PeerState) : Prop :=
  durationSince now state.lastSeen < durationFromSecs router.cfg.peerDeadAfterSecs ∧
    modelName ∈ state.models

theorem mem_candidates (horder : order.Perm router.state.entries) {peer : PeerId}
    {load : Binary64} :
    (peer, load) ∈ router.candidates order modelName now ↔
      ∃ state, router.state.lookup peer = some state ∧ router.Eligible modelName now state ∧
        state.load = load := by
  have hentry : ∀ state, (⟨peer, state⟩ : Entry) ∈ order ↔ router.state.lookup peer = some state := by
    intro state
    rw [horder.mem_iff]
    exact AList.mem_lookup_iff.symm
  simp only [candidates, List.mem_map, List.mem_filter, decide_eq_true_eq, List.any_eq_true,
    beq_iff_eq, exists_eq_right, Prod.mk.injEq]
  constructor
  · rintro ⟨⟨p, state⟩, ⟨⟨hmem, hlive⟩, hmodel⟩, rfl, rfl⟩
    exact ⟨state, (hentry state).mp hmem, ⟨hlive, hmodel⟩, rfl⟩
  · rintro ⟨state, hlookup, ⟨hlive, hmodel⟩, rfl⟩
    exact ⟨⟨peer, state⟩, ⟨⟨(hentry state).mpr hlookup, hlive⟩, hmodel⟩, rfl, rfl⟩

/-- The same, in terms of what the table says of the peer. -/
theorem mem_candidates_iff (horder : order.Perm router.state.entries) {peer : PeerId}
    {load : Binary64} :
    (peer, load) ∈ router.candidates order modelName now ↔
      (∃ seen, router.lastSeen peer = some seen ∧
        durationSince now seen < durationFromSecs router.cfg.peerDeadAfterSecs) ∧
      modelName ∈ router.models peer ∧ router.load peer = load := by
  rw [mem_candidates horder, lastSeen, models, Router.load]
  cases router.state.lookup peer with
  | none => simp
  | some state => simp [Eligible, and_assoc]

theorem candidates_nodup (horder : order.Perm router.state.entries) :
    ((router.candidates order modelName now).map Prod.fst).Nodup := by
  have hkeys : (order.map Sigma.fst).Nodup :=
    (horder.map Sigma.fst).nodup_iff.mpr router.state.nodupKeys
  have hsub : ((router.candidates order modelName now).map Prod.fst).Sublist
      (order.map Sigma.fst) := by
    rw [candidates, List.map_map]
    exact ((List.filter_sublist).trans List.filter_sublist).map _
  exact hkeys.sublist hsub

theorem candidates_perm {order' : List Entry} (horder : order.Perm order') :
    (router.candidates order modelName now).Perm (router.candidates order' modelName now) :=
  ((horder.filter _).filter _).map _

/-- The outcomes of `route`, each with the hop budget and the candidates it needs. -/
inductive Outcome (sorter : SortBy.Sorter (PeerId × Binary64)) (router : Router)
    (order : List Entry) (modelName : String) (localHas : Bool) (hopsSoFar : UInt8)
    (now : Instant) : Option (Except RoutingError Decision) → Prop
  | serveLocal (hlocal : localHas = true) :
      Outcome sorter router order modelName localHas hopsSoFar now (some (.ok .serveLocal))
  | hopBudget (hlocal : localHas = false) (hhops : router.cfg.maxHops ≤ hopsSoFar) :
      Outcome sorter router order modelName localHas hopsSoFar now
        (some (.error (.hopBudget router.cfg.maxHops)))
  | noSuchModel (hlocal : localHas = false) (hhops : hopsSoFar < router.cfg.maxHops)
      (hnone : router.candidates order modelName now = []) :
      Outcome sorter router order modelName localHas hopsSoFar now
        (some (.error (.noSuchModel modelName)))
  | forward (hlocal : localHas = false) (hhops : hopsSoFar < router.cfg.maxHops)
      (target : PeerId × Binary64) (rest : List (PeerId × Binary64))
      (hmem : target ∈ router.candidates order modelName now)
      (hsort : sorter.sort compareCandidates (router.candidates order modelName now) =
        some (target :: rest)) :
      Outcome sorter router order modelName localHas hopsSoFar now
        (some (.ok (.forward target.1)))
  | panic (hlocal : localHas = false) (hhops : hopsSoFar < router.cfg.maxHops)
      (hne : router.candidates order modelName now ≠ [])
      (hsort : sorter.sort compareCandidates (router.candidates order modelName now) = none) :
      Outcome sorter router order modelName localHas hopsSoFar now none

/-- **What `route` returns**, with the reason for it. -/
theorem route_outcome {sorter : SortBy.Sorter (PeerId × Binary64)} {localHas : Bool}
    {hopsSoFar : UInt8} {result : Option (Except RoutingError Decision)}
    (h : route sorter router order modelName localHas hopsSoFar now = result) :
    Outcome sorter router order modelName localHas hopsSoFar now result := by
  subst h
  unfold route
  cases localHas with
  | true => exact .serveLocal rfl
  | false =>
    rw [if_neg Bool.false_ne_true]
    split
    · next hhops => exact .hopBudget rfl hhops
    · next hhops =>
      have hlt := UInt8.not_le.mp hhops
      simp only
      split
      · next hempty => exact .noSuchModel rfl hlt (List.isEmpty_iff.mp hempty)
      · next hempty =>
        have hne : router.candidates order modelName now ≠ [] :=
          fun hnil => hempty (List.isEmpty_iff.mpr hnil)
        split
        · next hsort => exact .panic rfl hlt hne hsort
        · next sorted hsort =>
          -- the sorted list has the elements of the unsorted one
          cases sorted with
          | nil => exact absurd (sorter.perm hsort).nil_eq.symm hne
          | cons target rest =>
            exact .forward rfl hlt target rest
              ((sorter.perm hsort).mem_iff.mp List.mem_cons_self) hsort

end Candidates

end Router

namespace RouterSample

def pid (byte : UInt8) : PeerId := ⟨Vector.replicate 32 byte⟩

def low : Binary64 := ⟨0x3FB999999999999A⟩

def high : Binary64 := ⟨0x3FECCCCCCCCCCCCD⟩

def nan : Binary64 := ⟨0x7FF8000000000000⟩

end RouterSample

end FurcateMesh
