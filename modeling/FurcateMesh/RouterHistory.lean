import Mathlib.Data.List.Induction
import FurcateMesh.RouterOrder

/-!
# The router refines its event history

The declarative reading of the router: what a request gets is a function of the
records received so far.  `replay_refines` connects it with the incrementally
updated table, one step lemma for each of the two record functions.

In terms of a history, a list of record calls with their instants,

* a peer has announced a model if some record of its says so, however long ago;
* it was last heard at the instant of its latest record, of either kind;
* its load is that of its latest heartbeat, and unknown if there is none;
* it is live for a request if it is not the router's own, has announced the model and was
  last heard less than `peer_dead_after_secs` ago;
* the best of the live peers is the one before all others by load and then by id.

`Decides` says what a request gets in these words, without a table, a map order or a sort.
`route_refines_history` shows that `route` returns exactly that, for histories whose loads are
numbers; for the others see `RouterDeterminism`.
-/

namespace FurcateMesh

namespace Router

inductive Record where
  | announce (peer : PeerId) (modelName : String)
  | heartbeat (peer : PeerId) (load : Binary64)

def Record.peer : Record → PeerId
  | .announce peer _ => peer
  | .heartbeat peer _ => peer

abbrev History := List (Instant × Record)

def record (router : Router) (now : Instant) : Record → Router
  | .announce peer modelName => router.recordAnnounce now peer modelName
  | .heartbeat peer load => router.recordHeartbeat now peer load

def replay (router : Router) (history : History) : Router :=
  history.foldl (fun router call => router.record call.1 call.2) router

/-! ### The history, read declaratively -/

def Announced (history : History) (peer : PeerId) (modelName : String) : Prop :=
  ∃ now, (now, Record.announce peer modelName) ∈ history

/-- The instant of the peer's latest record of either kind. -/
def latest (history : History) (peer : PeerId) : Option Instant :=
  ((history.filter fun call => call.2.peer = peer).getLast?).map Prod.fst

def heartbeatLoads (history : History) (peer : PeerId) : List Binary64 :=
  history.filterMap fun call =>
    match call.2 with
    | .heartbeat sender load => if sender = peer then some load else none
    | .announce _ _ => none

/-- The load of the peer's latest heartbeat, unknown if it never sent one. -/
def reportedLoad (history : History) (peer : PeerId) : Binary64 :=
  ((heartbeatLoads history peer).getLast?).getD Binary64.MAX

/-- The peers a request for the model may be forwarded to at `now`. -/
structure LivePeer (localPeer : PeerId) (cfg : MeshConfig) (history : History) (modelName : String)
    (now : Instant) (peer : PeerId) : Prop where
  remote : peer ≠ localPeer
  announced : Announced history peer modelName
  recent : ∃ seen, latest history peer = some seen ∧
    durationSince now seen < durationFromSecs cfg.peerDeadAfterSecs

/-- The first peer comes before the second by load, then by id. -/
def Preferred (history : History) (peer other : PeerId) : Prop :=
  (reportedLoad history peer).partialCmp (reportedLoad history other) = some .lt ∨
    (reportedLoad history peer).partialCmp (reportedLoad history other) = some .eq ∧ peer < other

structure BestPeer (localPeer : PeerId) (cfg : MeshConfig) (history : History) (modelName : String)
    (now : Instant) (peer : PeerId) : Prop where
  live : LivePeer localPeer cfg history modelName now peer
  least : ∀ other, LivePeer localPeer cfg history modelName now other → other ≠ peer →
    Preferred history peer other

/-- What a request gets, as a relation on the history alone. -/
inductive Decides (localPeer : PeerId) (cfg : MeshConfig) (history : History) (modelName : String)
    (localHas : Bool) (hopsSoFar : UInt8) (now : Instant) : Except RoutingError Decision → Prop
  | serveLocal (hlocal : localHas = true) :
      Decides localPeer cfg history modelName localHas hopsSoFar now (.ok .serveLocal)
  | hopBudget (hlocal : localHas = false) (hhops : hopsSoFar ≥ cfg.maxHops) :
      Decides localPeer cfg history modelName localHas hopsSoFar now
        (.error (.hopBudget cfg.maxHops))
  | noSuchModel (hlocal : localHas = false) (hhops : ¬ hopsSoFar ≥ cfg.maxHops)
      (hnone : ∀ peer, ¬ LivePeer localPeer cfg history modelName now peer) :
      Decides localPeer cfg history modelName localHas hopsSoFar now
        (.error (.noSuchModel modelName))
  | forward (hlocal : localHas = false) (hhops : ¬ hopsSoFar ≥ cfg.maxHops) (target : PeerId)
      (hbest : BestPeer localPeer cfg history modelName now target) :
      Decides localPeer cfg history modelName localHas hopsSoFar now (.ok (.forward target))

/-! ### The table agrees with the history -/

/-- The table holds exactly what the history says of every other peer. -/
structure Refines (router : Router) (history : History) : Prop where
  seen : ∀ peer, peer ≠ router.localPeer → router.lastSeen peer = latest history peer
  load : ∀ peer, peer ≠ router.localPeer → router.load peer = reportedLoad history peer
  models : ∀ peer, peer ≠ router.localPeer → ∀ modelName,
    modelName ∈ router.models peer ↔ Announced history peer modelName

theorem latest_append (history : History) (now : Instant) (rec : Record) (peer : PeerId) :
    latest (history ++ [(now, rec)]) peer =
      if rec.peer = peer then some now else latest history peer := by
  unfold latest
  rw [List.filter_append]
  by_cases h : rec.peer = peer <;> simp [h]

theorem announced_append (history : History) (now : Instant) (rec : Record) (peer : PeerId)
    (modelName : String) :
    Announced (history ++ [(now, rec)]) peer modelName ↔
      Announced history peer modelName ∨ rec = .announce peer modelName := by
  simp only [Announced, List.mem_append, List.mem_singleton, Prod.mk.injEq]
  constructor
  · rintro ⟨at_, h | ⟨_, h⟩⟩
    · exact Or.inl ⟨at_, h⟩
    · exact Or.inr h.symm
  · rintro (⟨at_, h⟩ | h)
    · exact ⟨at_, Or.inl h⟩
    · exact ⟨now, Or.inr ⟨rfl, h.symm⟩⟩

theorem reportedLoad_append_announce (history : History) (now : Instant) (sender peer : PeerId)
    (modelName : String) :
    reportedLoad (history ++ [(now, .announce sender modelName)]) peer =
      reportedLoad history peer := by
  rw [reportedLoad, heartbeatLoads, List.filterMap_append]
  simp only [List.filterMap_cons, List.filterMap_nil, List.append_nil]
  rfl

theorem reportedLoad_append_heartbeat (history : History) (now : Instant) (sender peer : PeerId)
    (load : Binary64) :
    reportedLoad (history ++ [(now, .heartbeat sender load)]) peer =
      if sender = peer then load else reportedLoad history peer := by
  rw [reportedLoad, heartbeatLoads, List.filterMap_append]
  by_cases h : sender = peer
  · simp [h]
  · simp only [List.filterMap_cons, List.filterMap_nil, if_neg h, List.append_nil]
    rfl

@[simp] theorem localPeer_record (router : Router) (now : Instant) (rec : Record) :
    (router.record now rec).localPeer = router.localPeer := by
  cases rec <;> exact upsert_localPeer ..

@[simp] theorem cfg_record (router : Router) (now : Instant) (rec : Record) :
    (router.record now rec).cfg = router.cfg := by
  cases rec <;> exact upsert_cfg ..

theorem localPeer_replay (router : Router) (history : History) :
    (router.replay history).localPeer = router.localPeer := by
  induction history generalizing router with
  | nil => rfl
  | cons call history ih => exact (ih _).trans (localPeer_record ..)

theorem cfg_replay (router : Router) (history : History) :
    (router.replay history).cfg = router.cfg := by
  induction history generalizing router with
  | nil => rfl
  | cons call history ih => exact (ih _).trans (cfg_record ..)

/-- **One record keeps the refinement.** -/
theorem Refines.record {router : Router} {history : History} (href : Refines router history)
    (now : Instant) (rec : Record) :
    Refines (router.record now rec) (history ++ [(now, rec)]) := by
  cases rec with
  | announce sender name =>
    refine ⟨fun peer hpeer => ?_, fun peer hpeer => ?_, fun peer hpeer modelName => ?_⟩ <;>
      rw [localPeer_record] at hpeer
    · rw [latest_append, Router.record, lastSeen_recordAnnounce, href.seen peer hpeer]
      exact if_congr ⟨fun h => h.1.symm, fun h => ⟨h.symm, fun hs => hpeer (h ▸ hs)⟩⟩ rfl rfl
    · rw [reportedLoad_append_announce, Router.record, load_recordAnnounce, href.load peer hpeer]
    · rw [announced_append, Router.record, mem_models_recordAnnounce,
        href.models peer hpeer modelName, Record.announce.injEq]
      refine or_congr_right ⟨fun h => ⟨h.1.1.symm, h.2.symm⟩, fun h => ?_⟩
      exact ⟨⟨h.1.symm, fun hs => hpeer (h.1 ▸ hs)⟩, h.2.symm⟩
  | heartbeat sender load =>
    refine ⟨fun peer hpeer => ?_, fun peer hpeer => ?_, fun peer hpeer modelName => ?_⟩ <;>
      rw [localPeer_record] at hpeer
    · rw [latest_append, Router.record, lastSeen_recordHeartbeat, href.seen peer hpeer]
      exact if_congr ⟨fun h => h.1.symm, fun h => ⟨h.symm, fun hs => hpeer (h ▸ hs)⟩⟩ rfl rfl
    · rw [reportedLoad_append_heartbeat, Router.record, load_recordHeartbeat, href.load peer hpeer]
      exact if_congr ⟨fun h => h.1.symm, fun h => ⟨h.symm, fun hs => hpeer (h ▸ hs)⟩⟩ rfl rfl
    · rw [announced_append, Router.record, models_recordHeartbeat, href.models peer hpeer modelName]
      exact ⟨Or.inl, fun h => h.elim id nofun⟩

/-- **The table of a run refines its history.** -/
theorem replay_refines (localPeer : PeerId) (cfg : MeshConfig) (history : History) :
    Refines ((new localPeer cfg).replay history) history := by
  induction history using List.reverseRecOn with
  | nil =>
    refine ⟨fun peer _ => rfl, fun peer _ => rfl, fun peer _ modelName => ?_⟩
    exact ⟨fun h => absurd h List.not_mem_nil, fun ⟨_, h⟩ => absurd h List.not_mem_nil⟩
  | append_singleton history call ih =>
    rw [replay, List.foldl_append]
    exact ih.record call.1 call.2

/-! ### The decision -/

section Decision

variable {localPeer : PeerId} {cfg : MeshConfig} {history : History} {order : List Entry}
  {modelName : String} {now : Instant}

variable (modelName now) in
theorem mem_candidates_replay
    (horder : order.Perm ((new localPeer cfg).replay history).state.entries) (peer : PeerId)
    (load : Binary64) :
    (peer, load) ∈ ((new localPeer cfg).replay history).candidates order modelName now ↔
      LivePeer localPeer cfg history modelName now peer ∧ reportedLoad history peer = load := by
  have href := replay_refines localPeer cfg history
  have hlocal : ((new localPeer cfg).replay history).localPeer = localPeer :=
    localPeer_replay (new localPeer cfg) history
  rw [mem_candidates_iff horder, cfg_replay]
  by_cases hpeer : peer = localPeer
  · -- the router has no entry for its own peer
    have hnone : ((new localPeer cfg).replay history).lastSeen localPeer = none := by
      have habsent := ((new localPeer cfg).replay history).selfAbsent
      rw [hlocal] at habsent
      rw [lastSeen, habsent, Option.map_none]
    rw [hpeer, hnone]
    refine ⟨fun h => ?_, fun h => absurd rfl h.1.remote⟩
    obtain ⟨⟨_, hseen, _⟩, _⟩ := h
    cases hseen
  · have hremote : peer ≠ ((new localPeer cfg).replay history).localPeer := by rwa [hlocal]
    rw [href.seen peer hremote, href.models peer hremote modelName, href.load peer hremote]
    exact ⟨fun h => ⟨⟨hpeer, h.2.1, h.1⟩, h.2.2⟩, fun h => ⟨h.1.recent, h.1.announced, h.2⟩⟩

theorem reportedLoad_not_isNaN
    (hnumbers : ∀ at_ peer load, (at_, Record.heartbeat peer load) ∈ history → load.isNaN = false)
    (peer : PeerId) : (reportedLoad history peer).isNaN = false := by
  unfold reportedLoad
  cases hlast : (heartbeatLoads history peer).getLast? with
  | none => exact Binary64.isNaN_MAX
  | some load =>
    have hmem := List.mem_of_getLast? hlast
    obtain ⟨⟨at_, rec⟩, hrec, hload⟩ := List.mem_filterMap.mp hmem
    cases rec with
    | announce sender name => cases hload
    | heartbeat sender load' =>
      simp only [Option.ite_none_right_eq_some, Option.some.injEq] at hload
      rw [Option.getD_some, ← hload.2]
      exact hnumbers at_ sender load' hrec

/-- For two peers with comparable loads the comparator decides by `Preferred`. -/
theorem preferred_of_ne_gt {peer other : PeerId} (hne : other ≠ peer)
    (hpeer : (reportedLoad history peer).isNaN = false)
    (hother : (reportedLoad history other).isNaN = false)
    (h : compareCandidates (peer, reportedLoad history peer) (other, reportedLoad history other) ≠
      .gt) : Preferred history peer other := by
  have hor := (compareCandidates_ne_gt_of_not_isNaN (a := (peer, reportedLoad history peer))
    (b := (other, reportedLoad history other)) hpeer hother).mp h
  rcases hor with h | ⟨h, hle⟩
  · exact Or.inl (Binary64.partialCmp_eq_lt_iff.mpr ⟨hpeer, hother, h⟩)
  · exact Or.inr ⟨Binary64.partialCmp_eq_eq_iff.mpr ⟨hpeer, hother, h⟩,
      lt_of_le_of_ne hle (Ne.symm hne)⟩

theorem Preferred.asymm {peer other : PeerId} (h : Preferred history peer other) :
    ¬ Preferred history other peer := by
  simp only [Preferred, Binary64.partialCmp_eq_lt_iff, Binary64.partialCmp_eq_eq_iff] at h ⊢
  rintro (h' | ⟨h', hlt'⟩) <;> rcases h with h | ⟨h, hlt⟩
  · omega
  · omega
  · omega
  · exact lt_asymm hlt hlt'

theorem BestPeer.unique {peer other : PeerId}
    (hpeer : BestPeer localPeer cfg history modelName now peer)
    (hother : BestPeer localPeer cfg history modelName now other) : peer = other := by
  by_contra hne
  exact (hother.least peer hpeer.live hne).asymm (hpeer.least other hother.live (Ne.symm hne))

variable (modelName now) in
/-- Some result is decided, and it is what `route` returns. -/
theorem exists_route_decides (sorter : SortBy.Sorter (PeerId × Binary64))
    (hnumbers : ∀ at_ peer load, (at_, Record.heartbeat peer load) ∈ history → load.isNaN = false)
    (horder : order.Perm ((new localPeer cfg).replay history).state.entries) (localHas : Bool)
    (hopsSoFar : UInt8) :
    ∃ result, route sorter ((new localPeer cfg).replay history) order modelName localHas hopsSoFar
        now = some result ∧
      Decides localPeer cfg history modelName localHas hopsSoFar now result := by
  have hcfg : ((new localPeer cfg).replay history).cfg = cfg := cfg_replay (new localPeer cfg) history
  have hmem := mem_candidates_replay modelName now horder
  have hnum := reportedLoad_not_isNaN hnumbers
  have htotal := (compareCandidates_totalOn_iff (candidates_nodup horder)).mpr (by
    rintro ⟨_, _, ⟨mid, load⟩, hmid, _, _, _, _, hnan, _⟩
    rw [← ((hmem mid load).mp hmid).2, hnum mid] at hnan
    cases hnan)
  generalize hroute : route sorter ((new localPeer cfg).replay history) order modelName localHas
    hopsSoFar now = result
  cases route_outcome hroute with
  | serveLocal hlocal => exact ⟨_, rfl, .serveLocal hlocal⟩
  | hopBudget hlocal hhops =>
    rw [hcfg] at hhops ⊢
    exact ⟨_, rfl, .hopBudget hlocal hhops⟩
  | noSuchModel hlocal hhops hnone =>
    rw [hcfg] at hhops
    refine ⟨_, rfl, .noSuchModel hlocal (UInt8.not_le.mpr hhops) fun peer hlive => ?_⟩
    have hcand := (hmem peer _).mpr ⟨hlive, rfl⟩
    rw [hnone] at hcand
    cases hcand
  | forward hlocal hhops target rest htarget hsort =>
    rw [hcfg] at hhops
    obtain ⟨first, _, hsort', _, hleast⟩ := sorter.exists_least htotal (List.ne_nil_of_mem htarget)
    rw [hsort] at hsort'
    cases hsort'
    obtain ⟨hlive, hload⟩ := (hmem target.1 target.2).mp htarget
    refine ⟨_, rfl, .forward hlocal (UInt8.not_le.mpr hhops) target.1 ⟨hlive, fun other hother hne => ?_⟩⟩
    have hnot := hleast _ ((hmem other _).mpr ⟨hother, rfl⟩)
    rw [show target = (target.1, target.2) from rfl, ← hload] at hnot
    exact preferred_of_ne_gt hne (hnum target.1) (hnum other) hnot
  | panic hlocal hhops hne hsort =>
    obtain ⟨_, _, hsort', _⟩ := sorter.exists_least htotal hne
    rw [hsort] at hsort'
    cases hsort'

theorem Decides.unique {localHas : Bool} {hopsSoFar : UInt8}
    {result other : Except RoutingError Decision}
    (hresult : Decides localPeer cfg history modelName localHas hopsSoFar now result)
    (hother : Decides localPeer cfg history modelName localHas hopsSoFar now other) :
    result = other := by
  cases hresult with
  | serveLocal hlocal => cases hother <;> simp_all
  | hopBudget hlocal hhops => cases hother <;> simp_all
  | noSuchModel hlocal hhops hnone =>
    cases hother with
    | noSuchModel => rfl
    | forward _ _ target hbest => exact absurd hbest.live (hnone target)
    | _ => simp_all
  | forward hlocal hhops target hbest =>
    cases hother with
    | noSuchModel _ _ hnone => exact absurd hbest.live (hnone target)
    | forward _ _ other hbest' => rw [hbest.unique hbest']
    | _ => simp_all

end Decision

/-- **The router refines its event history.**  For every run of record calls whose
    loads are numbers, at any instants, every order in which the map iterates and
    every sort that meets its contract, `route` returns a result, it is exactly
    the one the history decides, and it is never a forward to the router itself. -/
theorem route_refines_history (sorter : SortBy.Sorter (PeerId × Binary64)) (localPeer : PeerId)
    (cfg : MeshConfig) (history : History)
    (hnumbers : ∀ at_ peer load, (at_, Record.heartbeat peer load) ∈ history → load.isNaN = false)
    {order : List Entry} (horder : order.Perm ((new localPeer cfg).replay history).state.entries)
    (modelName : String) (localHas : Bool) (hopsSoFar : UInt8) (now : Instant) :
    (∃ result, route sorter ((new localPeer cfg).replay history) order modelName localHas hopsSoFar
        now = some result) ∧
      (∀ result, route sorter ((new localPeer cfg).replay history) order modelName localHas
          hopsSoFar now = some result ↔
        Decides localPeer cfg history modelName localHas hopsSoFar now result) ∧
      route sorter ((new localPeer cfg).replay history) order modelName localHas hopsSoFar now ≠
        some (.ok (.forward localPeer)) := by
  obtain ⟨result, hroute, hdecides⟩ :=
    exists_route_decides modelName now sorter hnumbers horder localHas hopsSoFar
  rw [hroute]
  refine ⟨⟨result, rfl⟩, fun other => ⟨fun h => ?_, fun h => ?_⟩, fun h => ?_⟩
  · cases h
    exact hdecides
  · rw [hdecides.unique h]
  · cases h
    cases hdecides with
    | forward _ _ _ hbest => exact hbest.live.remote rfl

end Router

namespace RouterSample

def twoPeers : Router.History :=
  [(1, .announce (pid 1) "llama"), (2, .announce (pid 2) "llama"), (3, .heartbeat (pid 1) high),
    (4, .heartbeat (pid 2) low)]

end RouterSample

theorem Router.route_refines_history_two_peers :
    Router.Decides (RouterSample.pid 0) {} RouterSample.twoPeers "llama" false 0 5
      (.ok (.forward (RouterSample.pid 2))) := by
  refine ((Router.route_refines_history SortBy.insertion (RouterSample.pid 0) {}
    RouterSample.twoPeers ?_ (List.Perm.refl _) "llama" false 0 5).2.1 _).mp ?_
  · intro at_ peer load hmem
    simp only [RouterSample.twoPeers, List.mem_cons, Prod.mk.injEq, reduceCtorEq, and_false,
      Router.Record.heartbeat.injEq, List.not_mem_nil, or_false, false_or] at hmem
    rcases hmem with ⟨_, _, rfl⟩ | ⟨_, _, rfl⟩ <;> decide
  · decide +kernel

end FurcateMesh
