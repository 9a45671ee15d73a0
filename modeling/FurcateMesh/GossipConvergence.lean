import FurcateMesh.Library.LastWriter
import FurcateMesh.MeshEvent
import FurcateMesh.RouterHistory

/-!
# Delivery order and the views of the gossip

Three consumers build a table from `Heartbeat` and `ModelAnnounce` events: the
router, `peers list` and `model list` (`furcate-mesh-cli/src/main.rs`).  All three
overwrite on arrival and drop the event's clock, so they are replicas where the
last arrival wins.  They agree with last-writer-wins by clock, in every order of
delivery, iff the events hold no two conflicting writes (`gossip_converges_iff`).

An event is read as a stamped write in two ways: a heartbeat writes a load under its peer, an
announcement writes a digest and a format under its peer and model name.  Each of the three
views is then the last arrival among these writes (`routerAfter_load`,
`peersLoad_eq_arriveAll`, `modelList_eq_arriveAll`), and the convergence of such replicas is
a general fact (`LastWriter.converges_iff`).  The models that a router knows of a peer are a
set to which announcements only add, so they never conflict.

Two columns are left out of the comparison, since they hold times of arrival and not data of
the events: the instant at which the router last heard of a peer, and the time that
`peers list` shows.
-/

namespace FurcateMesh

open LastWriter (Write arriveAll ConflictFree LastWriterWins)

/-- An event as it reaches a peer: the monotonic instant and the system time in
    seconds at which it is handled. -/
structure Delivery where
  arrival : Instant
  wallSecs : Nat
  event : MeshEvent

/-! ### The three consumers -/

def MeshEvent.record : MeshEvent → Option Router.Record
  | .heartbeat peer _ load => some (.heartbeat peer load)
  | .modelAnnounce peer _ modelName _ _ => some (.announce peer modelName)
  | _ => none

def recordCalls (deliveries : List Delivery) : Router.History :=
  deliveries.filterMap fun d => d.event.record.map fun rec => (d.arrival, rec)

def routerAfter (localPeer : PeerId) (cfg : MeshConfig) (deliveries : List Delivery) : Router :=
  (Router.new localPeer cfg).replay (recordCalls deliveries)

/-- The `seen` table of `peers_list`: load and time of arrival. -/
def peersList (deliveries : List Delivery) : PeerId → Option (Binary64 × Nat) :=
  deliveries.foldl
    (fun seen d =>
      match d.event with
      | .heartbeat peer _ load => Function.update seen peer (some (load, d.wallSecs))
      | _ => seen)
    fun _ => none

/-- The `seen` table of `model_list`: digest and format. -/
def modelList (deliveries : List Delivery) : PeerId × String → Option (String × String) :=
  deliveries.foldl
    (fun seen d =>
      match d.event with
      | .modelAnnounce peer _ modelName digest format =>
          Function.update seen (peer, modelName) (some (digest, format))
      | _ => seen)
    fun _ => none

def peersLoad (deliveries : List Delivery) (peer : PeerId) : Option Binary64 :=
  (peersList deliveries peer).map Prod.fst

/-! ### The events as stamped writes -/

def MeshEvent.loadWrite : MeshEvent → Option (Write PeerId HybridLogicalClock Binary64)
  | .heartbeat peer clock load => some ⟨peer, clock, load⟩
  | _ => none

def MeshEvent.modelWrite :
    MeshEvent → Option (Write (PeerId × String) HybridLogicalClock (String × String))
  | .modelAnnounce peer clock modelName digest format => some ⟨(peer, modelName), clock, (digest, format)⟩
  | _ => none

def loadWrites (events : List MeshEvent) : List (Write PeerId HybridLogicalClock Binary64) :=
  events.filterMap MeshEvent.loadWrite

/-- The announcements as writes of a digest and a format. -/
def modelWrites (events : List MeshEvent) :
    List (Write (PeerId × String) HybridLogicalClock (String × String)) :=
  events.filterMap MeshEvent.modelWrite

def AnnouncedModel (events : List MeshEvent) (peer : PeerId) (modelName : String) : Prop :=
  ∃ clock digest format, .modelAnnounce peer clock modelName digest format ∈ events

def delivered (deliveries : List Delivery) : List MeshEvent := deliveries.map Delivery.event

/-! ### Every consumer overwrites on arrival -/

/-- One more delivery adds at most one write, whichever writes are read off the events. -/
theorem filterMap_concat {α β : Type} (f : α → Option β) (xs : List α) (x : α) :
    (xs ++ [x]).filterMap f = xs.filterMap f ++ (f x).toList := by
  rw [List.filterMap_append]
  cases h : f x <;> simp [h]

theorem delivered_concat (deliveries : List Delivery) (d : Delivery) :
    delivered (deliveries ++ [d]) = delivered deliveries ++ [d.event] := by
  simp only [delivered, List.map_append, List.map_cons, List.map_nil]

theorem loadWrites_concat (deliveries : List Delivery) (d : Delivery) :
    loadWrites (delivered (deliveries ++ [d])) =
      loadWrites (delivered deliveries) ++ d.event.loadWrite.toList := by
  rw [delivered_concat, loadWrites, filterMap_concat, loadWrites]

theorem modelWrites_concat (deliveries : List Delivery) (d : Delivery) :
    modelWrites (delivered (deliveries ++ [d])) =
      modelWrites (delivered deliveries) ++ d.event.modelWrite.toList := by
  rw [delivered_concat, modelWrites, filterMap_concat, modelWrites]

theorem recordCalls_concat (deliveries : List Delivery) (d : Delivery) :
    recordCalls (deliveries ++ [d]) =
      recordCalls deliveries ++ (d.event.record.map fun rec => (d.arrival, rec)).toList := by
  rw [recordCalls, filterMap_concat, recordCalls]

theorem peersLoad_eq_arriveAll (deliveries : List Delivery) :
    peersLoad deliveries = arriveAll (loadWrites (delivered deliveries)) := by
  induction deliveries using List.reverseRecOn with
  | nil => rfl
  | append_singleton deliveries d ih =>
    obtain ⟨arrival, wallSecs, event⟩ := d
    rw [loadWrites_concat]
    cases event with
    | heartbeat sender clock load =>
      rw [MeshEvent.loadWrite, Option.toList_some, LastWriter.arriveAll_concat, ← ih]
      funext peer
      by_cases h : peer = sender
      · rw [h, Function.update_self, peersLoad, peersList, List.foldl_append]
        simp only [List.foldl_cons, List.foldl_nil, Function.update_self, Option.map_some]
      · rw [Function.update_of_ne h, peersLoad, peersList, List.foldl_append]
        simp only [List.foldl_cons, List.foldl_nil, Function.update_of_ne h]
        rfl
    | _ =>
      rw [MeshEvent.loadWrite, Option.toList_none, List.append_nil, ← ih]
      · funext peer
        rw [peersLoad, peersList, List.foldl_append]
        rfl
      · nofun

theorem modelList_eq_arriveAll (deliveries : List Delivery) :
    modelList deliveries = arriveAll (modelWrites (delivered deliveries)) := by
  induction deliveries using List.reverseRecOn with
  | nil => rfl
  | append_singleton deliveries d ih =>
    obtain ⟨arrival, wallSecs, event⟩ := d
    rw [modelWrites_concat, modelList, List.foldl_append]
    cases event with
    | modelAnnounce sender clock modelName digest format =>
      rw [MeshEvent.modelWrite, Option.toList_some, LastWriter.arriveAll_concat, ← ih]
      rfl
    | _ =>
      rw [MeshEvent.modelWrite, Option.toList_none, List.append_nil, ← ih]
      · rfl
      · nofun

theorem reportedLoad_eq_arriveAll (deliveries : List Delivery) (peer : PeerId) :
    Router.reportedLoad (recordCalls deliveries) peer =
      (arriveAll (loadWrites (delivered deliveries)) peer).getD Binary64.MAX := by
  induction deliveries using List.reverseRecOn with
  | nil => rfl
  | append_singleton deliveries d ih =>
    obtain ⟨arrival, wallSecs, event⟩ := d
    rw [recordCalls_concat, loadWrites_concat]
    cases event with
    | heartbeat sender clock load =>
      simp only [MeshEvent.record, MeshEvent.loadWrite, Option.map_some, Option.toList_some,
        LastWriter.arriveAll_concat, Router.reportedLoad_append_heartbeat]
      by_cases h : peer = sender
      · rw [h, if_pos rfl, Function.update_self, Option.getD_some]
      · rw [if_neg (Ne.symm h), Function.update_of_ne h, ih]
    | modelAnnounce sender clock modelName digest format =>
      simp only [MeshEvent.record, MeshEvent.loadWrite, Option.map_some, Option.toList_some,
        Option.toList_none, List.append_nil, Router.reportedLoad_append_announce, ih]
    | _ =>
      simp only [MeshEvent.record, MeshEvent.loadWrite, Option.map_none, Option.toList_none,
        List.append_nil, ih]

theorem announced_recordCalls (deliveries : List Delivery) (peer : PeerId) (modelName : String) :
    Router.Announced (recordCalls deliveries) peer modelName ↔
      AnnouncedModel (delivered deliveries) peer modelName := by
  simp only [Router.Announced, AnnouncedModel, recordCalls, delivered, List.mem_filterMap,
    List.mem_map, Option.map_eq_some_iff, Prod.mk.injEq]
  constructor
  · rintro ⟨_, ⟨arrival, wallSecs, event⟩, hmem, rec, hrec, _, rfl⟩
    cases event with
    | modelAnnounce sender clock name digest format =>
      cases hrec
      exact ⟨clock, digest, format, _, hmem, rfl⟩
    | _ => cases hrec
  · rintro ⟨clock, digest, format, ⟨arrival, wallSecs, event⟩, hmem, rfl⟩
    exact ⟨arrival, _, hmem, _, rfl, rfl, rfl⟩

section Views

variable (localPeer : PeerId) (cfg : MeshConfig)

theorem localPeer_routerAfter (deliveries : List Delivery) :
    (routerAfter localPeer cfg deliveries).localPeer = localPeer :=
  Router.localPeer_replay (Router.new localPeer cfg) _

/-- The load the router holds for another peer is the one that arrived last. -/
theorem routerAfter_load (deliveries : List Delivery) {peer : PeerId} (hpeer : peer ≠ localPeer) :
    (routerAfter localPeer cfg deliveries).load peer =
      (arriveAll (loadWrites (delivered deliveries)) peer).getD Binary64.MAX := by
  have href := Router.replay_refines localPeer cfg (recordCalls deliveries)
  rw [← reportedLoad_eq_arriveAll]
  refine href.load peer ?_
  rw [Router.localPeer_replay]
  exact hpeer

/-- The router holds the announced models of another peer. -/
theorem mem_routerAfter_models (deliveries : List Delivery) {peer : PeerId}
    (hpeer : peer ≠ localPeer) (modelName : String) :
    modelName ∈ (routerAfter localPeer cfg deliveries).models peer ↔
      AnnouncedModel (delivered deliveries) peer modelName := by
  have href := Router.replay_refines localPeer cfg (recordCalls deliveries)
  rw [← announced_recordCalls]
  refine href.models peer ?_ modelName
  rw [Router.localPeer_replay]
  exact hpeer

theorem lookup_routerAfter_local (deliveries : List Delivery) :
    (routerAfter localPeer cfg deliveries).state.lookup localPeer = none := by
  have habsent := (routerAfter localPeer cfg deliveries).selfAbsent
  rwa [localPeer_routerAfter] at habsent

/-! ### Convergence -/

structure SameViews (deliveries deliveries' : List Delivery) : Prop where
  routerLoad : ∀ peer, (routerAfter localPeer cfg deliveries).load peer =
    (routerAfter localPeer cfg deliveries').load peer
  routerModels : ∀ peer modelName,
    modelName ∈ (routerAfter localPeer cfg deliveries).models peer ↔
      modelName ∈ (routerAfter localPeer cfg deliveries').models peer
  peersLoad : peersLoad deliveries = peersLoad deliveries'
  modelList : modelList deliveries = modelList deliveries'

/-- The views are last-writer-wins by clock over the events. -/
structure LwwViews (events : List MeshEvent) (deliveries : List Delivery) : Prop where
  routerLoad : ∃ view, LastWriterWins (loadWrites events) view ∧ ∀ peer, peer ≠ localPeer →
    (routerAfter localPeer cfg deliveries).load peer = (view peer).getD Binary64.MAX
  routerModels : ∀ peer, peer ≠ localPeer → ∀ modelName,
    modelName ∈ (routerAfter localPeer cfg deliveries).models peer ↔
      AnnouncedModel events peer modelName
  peersLoad : LastWriterWins (loadWrites events) (peersLoad deliveries)
  modelList : LastWriterWins (modelWrites events) (modelList deliveries)

def inOrder (events : List MeshEvent) : List Delivery := events.map fun event => ⟨0, 0, event⟩

theorem delivered_inOrder (events : List MeshEvent) : delivered (inOrder events) = events := by
  rw [delivered, inOrder, List.map_map]
  exact List.map_id events

/-- Conflict-free events give the same router table in every order. -/
theorem sameViews_of_arriveAll {deliveries deliveries' : List Delivery}
    (hperm : (delivered deliveries).Perm (delivered deliveries'))
    (hload : arriveAll (loadWrites (delivered deliveries)) =
      arriveAll (loadWrites (delivered deliveries')))
    (hmodel : arriveAll (modelWrites (delivered deliveries)) =
      arriveAll (modelWrites (delivered deliveries'))) :
    SameViews localPeer cfg deliveries deliveries' := by
  refine ⟨fun peer => ?_, fun peer modelName => ?_, ?_, ?_⟩
  · by_cases hpeer : peer = localPeer
    · rw [hpeer, Router.load, Router.load, lookup_routerAfter_local, lookup_routerAfter_local]
    · rw [routerAfter_load _ _ _ hpeer, routerAfter_load _ _ _ hpeer, hload]
  · by_cases hpeer : peer = localPeer
    · rw [hpeer, Router.models, Router.models, lookup_routerAfter_local, lookup_routerAfter_local]
    · rw [mem_routerAfter_models _ _ _ hpeer, mem_routerAfter_models _ _ _ hpeer]
      simp only [AnnouncedModel, hperm.mem_iff]
  · rw [peersLoad_eq_arriveAll, peersLoad_eq_arriveAll, hload]
  · rw [modelList_eq_arriveAll, modelList_eq_arriveAll, hmodel]

/-- **When the gossip converges.**  All orders in which a set of events can be
    delivered lead to the same views, and these are last-writer-wins by clock, iff
    no two heartbeats of one peer carry different loads and no two announcements
    of one model by one peer carry different digests or formats. -/
theorem gossip_converges_iff (events : List MeshEvent) :
    (∀ deliveries deliveries' : List Delivery, (delivered deliveries).Perm events →
        (delivered deliveries').Perm events →
        SameViews localPeer cfg deliveries deliveries' ∧
          LwwViews localPeer cfg events deliveries) ↔
      ConflictFree (loadWrites events) ∧ ConflictFree (modelWrites events) := by
  constructor
  · intro hviews
    have hinOrder : ∀ {order : List MeshEvent}, order.Perm events →
        (delivered (inOrder order)).Perm events := by
      intro order horder
      rw [delivered_inOrder]
      exact horder
    constructor
    · refine (LastWriter.converges_iff MeshEvent.loadWrite events).mp fun order order' h h' => ?_
      obtain ⟨hsame, hlww⟩ := hviews _ _ (hinOrder h) (hinOrder h')
      have hload := hsame.peersLoad
      have hlast := hlww.peersLoad
      rw [peersLoad_eq_arriveAll, delivered_inOrder] at hload hlast
      rw [peersLoad_eq_arriveAll, delivered_inOrder] at hload
      exact ⟨hload, hlast⟩
    · refine (LastWriter.converges_iff MeshEvent.modelWrite events).mp fun order order' h h' => ?_
      obtain ⟨hsame, hlww⟩ := hviews _ _ (hinOrder h) (hinOrder h')
      have hmodel := hsame.modelList
      have hlast := hlww.modelList
      rw [modelList_eq_arriveAll, delivered_inOrder] at hmodel hlast
      rw [modelList_eq_arriveAll, delivered_inOrder] at hmodel
      exact ⟨hmodel, hlast⟩
  · rintro ⟨hloads, hmodels⟩ deliveries deliveries' h h'
    obtain ⟨hload, hloadLast⟩ :=
      (LastWriter.converges_iff MeshEvent.loadWrite events).mpr hloads _ _ h h'
    obtain ⟨hmodel, hmodelLast⟩ :=
      (LastWriter.converges_iff MeshEvent.modelWrite events).mpr hmodels _ _ h h'
    refine ⟨sameViews_of_arriveAll _ _ (h.trans h'.symm) hload hmodel, ?_⟩
    refine ⟨⟨_, hloadLast, fun peer hpeer => routerAfter_load _ _ _ hpeer⟩,
      fun peer hpeer modelName => ?_, ?_, ?_⟩
    · rw [mem_routerAfter_models _ _ _ hpeer]
      simp only [AnnouncedModel, h.mem_iff]
    · rw [peersLoad_eq_arriveAll]
      exact hloadLast
    · rw [modelList_eq_arriveAll]
      exact hmodelLast

end Views

namespace RouterSample

/-- A peer reports a high load and, later by its clock, a low one. -/
def highThenLow : List MeshEvent :=
  [.heartbeat (pid 1) ⟨1, 0⟩ high, .heartbeat (pid 1) ⟨2, 0⟩ low]

end RouterSample

open RouterSample in
/-- Delivered in the opposite order, the two heartbeats leave the older load in the
    router and in `peers list`. -/
theorem gossip_keeps_older_load :
    highThenLow.Pairwise (fun e e' => e.loadWrite.map Write.stamp ≠ e'.loadWrite.map Write.stamp) ∧
      highThenLow.reverse.Perm highThenLow ∧
      (routerAfter (pid 0) {} (inOrder highThenLow)).load (pid 1) = low ∧
      (routerAfter (pid 0) {} (inOrder highThenLow.reverse)).load (pid 1) = high ∧
      peersLoad (inOrder highThenLow) (pid 1) = some low ∧
      peersLoad (inOrder highThenLow.reverse) (pid 1) = some high ∧
      low ≠ high := by
  decide +kernel

end FurcateMesh
