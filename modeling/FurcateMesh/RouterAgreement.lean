import FurcateMesh.HopBudget

/-!
# Routers that heard the same gossip

`route` sorts by load and then by id "so two peers making the same decision pick the
same target" (`furcate-mesh-routing/src/lib.rs`).  Two routers with one history do pick
the same target, with one exception that no order can remove: a router never forwards to
itself, so where one of the two is the target of the other they differ
(`routers_agree`).  Loads are numbers throughout; with NaN loads already one router may
decide in several ways.

A mesh whose peers announce only what their engines have needs no more than one hop
for any request (`honest_mesh_one_hop`), which is the default budget.  Engines keep their
models meanwhile, and the request enters with a hop count of 0.  Tables may still hold NaN
loads, and a call that has to sort may then panic; only the first call can, since the second
is at a router whose engine has the model and does not sort.
-/

namespace FurcateMesh

open Relation (ReflTransGen)

namespace Router

section Agreement

variable {here there : PeerId} {cfg cfg' : MeshConfig} {history : History} {modelName : String}
  {now : Instant}

/-- A live peer is live for every router but its own. -/
theorem LivePeer.seen_from {peer : PeerId} (hlive : LivePeer here cfg history modelName now peer)
    (hremote : peer ≠ there) (hdead : cfg.peerDeadAfterSecs = cfg'.peerDeadAfterSecs) :
    LivePeer there cfg' history modelName now peer := by
  refine ⟨hremote, hlive.announced, ?_⟩
  rw [← hdead]
  exact hlive.recent

/-- Two best peers are the same if each could be chosen by the other router. -/
theorem BestPeer.eq_of_remote {target target' : PeerId}
    (hbest : BestPeer here cfg history modelName now target)
    (hbest' : BestPeer there cfg' history modelName now target')
    (hdead : cfg.peerDeadAfterSecs = cfg'.peerDeadAfterSecs) (htarget : target ≠ there)
    (htarget' : target' ≠ here) : target = target' := by
  by_contra hne
  have hpreferred := hbest.least target' (hbest'.live.seen_from htarget' hdead.symm) (Ne.symm hne)
  have hpreferred' := hbest'.least target (hbest.live.seen_from htarget hdead) hne
  exact hpreferred.asymm hpreferred'

/-- A router whose own peer does not host the model decides like any other such router. -/
theorem Decides.of_nonhost {localHas : Bool} {hopsSoFar : UInt8}
    {result : Except RoutingError Decision}
    (hhere : ¬ Announced history here modelName) (hthere : ¬ Announced history there modelName)
    (h : Decides here cfg history modelName localHas hopsSoFar now result) :
    Decides there cfg history modelName localHas hopsSoFar now result := by
  have hlive : ∀ {a b peer}, ¬ Announced history b modelName →
      LivePeer a cfg history modelName now peer → LivePeer b cfg history modelName now peer := by
    intro a b peer hb hpeer
    refine hpeer.seen_from ?_ rfl
    rintro rfl
    exact hb hpeer.announced
  cases h with
  | serveLocal hlocal => exact .serveLocal hlocal
  | hopBudget hlocal hhops => exact .hopBudget hlocal hhops
  | noSuchModel hlocal hhops hnone =>
    exact .noSuchModel hlocal hhops fun peer hpeer => hnone peer (hlive hhere hpeer)
  | forward hlocal hhops target hbest =>
    exact .forward hlocal hhops target ⟨hlive hthere hbest.live, fun other hother =>
      hbest.least other (hlive hhere hother)⟩

/-- **Routers that heard the same gossip.**  Two routers have the same history of records,
    all of them numbers, and the same time after which a peer counts as dead.  At one
    instant, for one model, whatever the order of their tables and whichever sort they use:
    if both forward, they pick the same target iff neither is the target of the other; and
    if neither of the two hosts the model, they return the same result altogether. -/
theorem routers_agree (sorter sorter' : SortBy.Sorter (PeerId × Binary64)) (here there : PeerId)
    (cfg cfg' : MeshConfig) (hdead : cfg.peerDeadAfterSecs = cfg'.peerDeadAfterSecs)
    (history : History)
    (hnumbers : ∀ at_ peer load, (at_, Record.heartbeat peer load) ∈ history → load.isNaN = false)
    {order order' : List Entry}
    (horder : order.Perm ((new here cfg).replay history).state.entries)
    (horder' : order'.Perm ((new there cfg').replay history).state.entries)
    (modelName : String) (localHas : Bool) (hopsSoFar : UInt8) (now : Instant) :
    (∀ target target',
      route sorter ((new here cfg).replay history) order modelName localHas hopsSoFar now =
        some (.ok (.forward target)) →
      route sorter' ((new there cfg').replay history) order' modelName localHas hopsSoFar now =
        some (.ok (.forward target')) →
      (target = target' ↔ target ≠ there ∧ target' ≠ here)) ∧
    (cfg = cfg' → ¬ Announced history here modelName → ¬ Announced history there modelName →
      route sorter ((new here cfg).replay history) order modelName localHas hopsSoFar now =
        route sorter' ((new there cfg').replay history) order' modelName localHas hopsSoFar
          now) := by
  obtain ⟨result, hroute, hdecides⟩ :=
    exists_route_decides modelName now sorter hnumbers horder localHas hopsSoFar
  obtain ⟨result', hroute', hdecides'⟩ :=
    exists_route_decides modelName now sorter' hnumbers horder' localHas hopsSoFar
  rw [hroute, hroute']
  refine ⟨fun target target' hforward hforward' => ?_, ?_⟩
  · cases hforward
    cases hforward'
    cases hdecides with
    | forward _ _ _ hbest =>
      cases hdecides' with
      | forward _ _ _ hbest' =>
        constructor
        · rintro rfl
          exact ⟨hbest'.live.remote, hbest.live.remote⟩
        · rintro ⟨htarget, htarget'⟩
          exact hbest.eq_of_remote hbest' hdead htarget htarget'
  · rintro rfl hhere hthere
    rw [(hdecides.of_nonhost hhere hthere).unique hdecides']

end Agreement

open RouterSample in
/-- Peers 0 and 3 both forward to peer 2, which reported the lower load. -/
theorem routers_agree_two_peers :
    route SortBy.insertion ((new (pid 0) {}).replay twoPeers)
        ((new (pid 0) {}).replay twoPeers).state.entries "llama" false 0 5 =
      route SortBy.insertion ((new (pid 3) {}).replay twoPeers)
        ((new (pid 3) {}).replay twoPeers).state.entries "llama" false 0 5 := by
  have hnumbers : ∀ at_ peer load, (at_, Record.heartbeat peer load) ∈ twoPeers →
      load.isNaN = false := by
    intro at_ peer load hmem
    simp only [twoPeers, List.mem_cons, Prod.mk.injEq, reduceCtorEq, and_false,
      Record.heartbeat.injEq, List.not_mem_nil, or_false, false_or] at hmem
    rcases hmem with ⟨_, _, rfl⟩ | ⟨_, _, rfl⟩ <;> decide
  have habsent : ∀ byte : UInt8, byte = 0 ∨ byte = 3 → ¬ Announced twoPeers (pid byte) "llama" := by
    rintro byte hbyte ⟨at_, hmem⟩
    simp only [twoPeers, List.mem_cons, Prod.mk.injEq, reduceCtorEq, and_false,
      Record.announce.injEq, List.not_mem_nil, or_false, and_true] at hmem
    rcases hbyte with rfl | rfl <;> rcases hmem with ⟨_, h⟩ | ⟨_, h⟩ <;>
      exact absurd h (by decide +kernel)
  exact (routers_agree SortBy.insertion SortBy.insertion (pid 0) (pid 3) {} {} rfl twoPeers hnumbers
    (List.Perm.refl _) (List.Perm.refl _) "llama" false 0 5).2 rfl (habsent 0 (.inl rfl))
    (habsent 3 (.inr rfl))

/-! ### Honest announcements -/

theorem mem_models_record {router : Router} {now : Instant} {rec : Record} {peer : PeerId}
    {modelName : String} (h : modelName ∈ (router.record now rec).models peer) :
    modelName ∈ router.models peer ∨ rec = .announce peer modelName := by
  cases rec with
  | announce sender name =>
    rcases (mem_models_recordAnnounce router now sender peer name modelName).mp h with hold | hnew
    · exact .inl hold
    · obtain ⟨⟨rfl, _⟩, rfl⟩ := hnew
      exact .inr rfl
  | heartbeat sender load =>
    rw [Router.record, models_recordHeartbeat] at h
    exact .inl h

end Router

section Honest

variable (sorter : SortBy.Sorter (PeerId × Binary64)) (modelName : String) (has : PeerId → Bool)

/-- The tables list only peers that have the model. -/
def Mesh.Honest (mesh : Mesh) : Prop :=
  ∀ peer other, modelName ∈ (mesh.routers peer).models other → has other = true

/-- A step of a mesh where a peer announces the model only if its engine has it, and asks
    its router with what the engine has. -/
inductive Journey.HonestStep : Journey → Journey → Prop
  | record (s : Journey) (peer : PeerId) (now : Instant) (rec : Router.Record)
      (hrec : ∀ sender, rec = .announce sender modelName → has sender = true) :
      Journey.HonestStep s { s with mesh := s.mesh.record peer now rec }
  | call (s : Journey) (peer : PeerId) (hops : UInt8) (hrequest : s.request = .travelling peer hops)
      (order : List Entry) (horder : order.Perm (s.mesh.routers peer).state.entries)
      (now : Instant) (result : Option (Except RoutingError Decision))
      (hroute : Router.route sorter (s.mesh.routers peer) order modelName (has peer) hops now =
        result) :
      Journey.HonestStep s (s.after hops result)

/-- What holds along an honest journey: a request that was forwarded is with a peer that
    has the model. -/
structure Journey.Direct (s : Journey) : Prop where
  honest : s.mesh.Honest modelName has
  budgets : ∀ peer, 0 < (s.mesh.routers peer).cfg.maxHops
  travelling : ∀ peer hops, s.request = .travelling peer hops →
    s.calls = s.forwards ∧ (s.forwards = 0 ∧ hops = 0 ∨ s.forwards = 1 ∧ has peer = true)
  ended : ∀ result, s.request = .ended result → s.calls = s.forwards + 1 ∧
    (result = .ok .serveLocal ∧ s.forwards ≤ 1 ∨
      result = .error (.noSuchModel modelName) ∧ s.forwards = 0)
  panicked : s.request = .panicked → s.calls = 1 ∧ s.forwards = 0

variable {sorter modelName has}

theorem Mesh.Honest.record {mesh : Mesh} (hhonest : mesh.Honest modelName has) (peer : PeerId)
    (now : Instant) {rec : Router.Record}
    (hrec : ∀ sender, rec = .announce sender modelName → has sender = true) :
    (mesh.record peer now rec).Honest modelName has := by
  intro holder other hmem
  by_cases hholder : holder = peer
  · subst hholder
    simp only [Mesh.record, Function.update_self] at hmem
    rcases Router.mem_models_record hmem with hold | hnew
    · exact hhonest holder other hold
    · exact hrec other hnew
  · simp only [Mesh.record, Function.update_of_ne hholder] at hmem
    exact hhonest holder other hmem

/-- The answer that ends a journey. -/
theorem Journey.Direct.answer {s : Journey} (hdirect : s.Direct modelName has)
    {result : Except RoutingError Decision} (hcalls : s.calls = s.forwards)
    (hresult : result = .ok .serveLocal ∧ s.forwards ≤ 1 ∨
      result = .error (.noSuchModel modelName) ∧ s.forwards = 0) :
    Journey.Direct modelName has ⟨s.mesh, .ended result, s.calls + 1, s.forwards⟩ := by
  refine ⟨hdirect.honest, hdirect.budgets, fun peer hops h => ?_, fun other h => ?_, fun h => ?_⟩
  · cases h
  · cases h
    exact ⟨by rw [hcalls], hresult⟩
  · cases h

/-- **One honest step.** -/
theorem Journey.Direct.step {s s' : Journey} (hdirect : s.Direct modelName has)
    (hstep : Journey.HonestStep sorter modelName has s s') : s'.Direct modelName has := by
  cases hstep with
  | record peer now rec hrec =>
    refine ⟨hdirect.honest.record peer now hrec, fun other => ?_, hdirect.travelling, hdirect.ended,
      hdirect.panicked⟩
    rw [Mesh.maxHops_record]
    exact hdirect.budgets other
  | call peer hops hrequest order horder now result hroute =>
    obtain ⟨hcalls, hplace⟩ := hdirect.travelling peer hops hrequest
    -- only the first router may have to look at its table
    have hfirst : has peer = false → s.forwards = 0 ∧ hops = 0 := by
      intro hlocal
      rcases hplace with hfirst | ⟨_, hhas⟩
      · exact hfirst
      · rw [hlocal] at hhas
        cases hhas
    have houtcome := Router.route_outcome hroute
    cases houtcome with
    | serveLocal =>
      refine hdirect.answer hcalls (.inl ⟨rfl, ?_⟩)
      rcases hplace with ⟨h, _⟩ | ⟨h, _⟩ <;> omega
    | hopBudget hlocal hused =>
      obtain ⟨_, rfl⟩ := hfirst hlocal
      exact absurd hused (UInt8.not_le.mpr (hdirect.budgets peer))
    | noSuchModel hlocal => exact hdirect.answer hcalls (.inr ⟨rfl, (hfirst hlocal).1⟩)
    | forward hlocal _ target _ hmem =>
      obtain ⟨hzero, _⟩ := hfirst hlocal
      refine ⟨hdirect.honest, hdirect.budgets, fun other count h => ?_, fun other h => ?_,
        fun h => ?_⟩
      · cases h
        refine ⟨congrArg (· + 1) hcalls, .inr ⟨congrArg (· + 1) hzero, ?_⟩⟩
        exact hdirect.honest peer target.1 ((Router.mem_candidates_iff horder).mp hmem).2.1
      · cases h
      · cases h
    | panic hlocal =>
      obtain ⟨hzero, _⟩ := hfirst hlocal
      refine ⟨hdirect.honest, hdirect.budgets, fun _ _ h => (by cases h), fun _ h => (by cases h),
        fun _ => ⟨?_, hzero⟩⟩
      exact congrArg (· + 1) (hcalls.trans hzero)

variable (sorter)

/-- **Honest announcements need one hop.**  In a mesh whose tables list only peers that have
    the model, whose peers announce it only if they have it, and whose budgets are not zero, a
    request that enters anywhere with hop count 0 is forwarded at most once, however the tables
    change meanwhile.  It sees at most two calls, and after the second it has been served where
    the model is; it is refused only at its first router, because no live peer announced the
    model, and never for its hop count. -/
theorem honest_mesh_one_hop {mesh : Mesh} (hhonest : mesh.Honest modelName has)
    (hbudgets : ∀ peer, 0 < (mesh.routers peer).cfg.maxHops) (peer : PeerId) {s : Journey}
    (hrun : ReflTransGen (Journey.HonestStep sorter modelName has) (Journey.enter mesh peer 0) s) :
    s.forwards ≤ 1 ∧ s.calls ≤ 2 ∧
      (∀ holder hops, s.request = .travelling holder hops → s.forwards = 1 → has holder = true) ∧
      (∀ result, s.request = .ended result → result = .ok .serveLocal ∨
        result = .error (.noSuchModel modelName) ∧ s.forwards = 0) ∧
      (s.calls = 2 → s.request = .ended (.ok .serveLocal)) := by
  have hinit : (Journey.enter mesh peer 0).Direct modelName has := by
    refine ⟨hhonest, hbudgets, fun holder hops h => ?_, fun result h => ?_, fun h => ?_⟩
    · cases h
      exact ⟨rfl, .inl ⟨rfl, rfl⟩⟩
    · cases h
    · cases h
  have hdirect := Runs.invariant (Journey.Direct modelName has)
    (fun _ _ hinv hstep => hinv.step hstep) hinit hrun
  cases hrequest : s.request with
  | travelling holder hops =>
    obtain ⟨hcalls, hplace⟩ := hdirect.travelling holder hops hrequest
    have hforwards : s.forwards ≤ 1 := by rcases hplace with ⟨h, _⟩ | ⟨h, _⟩ <;> omega
    refine ⟨hforwards, by omega, fun other count h hone => ?_, fun _ h => (by cases h),
      fun htwo => by omega⟩
    cases h
    rcases hplace with ⟨hzero, _⟩ | ⟨_, hhas⟩
    · omega
    · exact hhas
  | ended result =>
    obtain ⟨hcalls, hresult⟩ := hdirect.ended result hrequest
    have hforwards : s.forwards ≤ 1 := by rcases hresult with ⟨_, h⟩ | ⟨_, h⟩ <;> omega
    refine ⟨hforwards, by omega, fun _ _ h => (by cases h), fun other h => ?_, fun htwo => ?_⟩
    · cases h
      exact hresult.imp_left And.left
    · rcases hresult with ⟨rfl, _⟩ | ⟨_, hzero⟩
      · rfl
      · omega
  | panicked =>
    obtain ⟨hcalls, hforwards⟩ := hdirect.panicked hrequest
    exact ⟨by omega, by omega, fun _ _ h => (by cases h), fun _ h => (by cases h),
      fun htwo => by omega⟩

end Honest

namespace RouterSample

def onlyOne (peer : PeerId) : Bool := peer = pid 1

def served : Journey := ⟨announcedMesh, .ended (.ok .serveLocal), 2, 1⟩

theorem served_run :
    ReflTransGen (Journey.HonestStep SortBy.insertion "llama" onlyOne)
      (Journey.enter quietMesh (pid 0) 0) served := by
  refine .head (.record _ (pid 0) 1 (.announce (pid 1) "llama") ?_) <|
    .head (.call _ (pid 0) 0 rfl _ (.refl _) 2 (some (.ok (.forward (pid 1))))
      (by decide +kernel)) <|
      .head (.call _ (pid 1) 1 rfl _ (.refl _) 3 (some (.ok .serveLocal)) (by decide +kernel)) .refl
  rintro sender ⟨⟩
  decide +kernel

end RouterSample

open RouterSample in
theorem honest_mesh_one_hop_served :
    served.forwards ≤ 1 ∧ served.calls ≤ 2 ∧ served.request = .ended (.ok .serveLocal) := by
  have hhonest : quietMesh.Honest "llama" onlyOne := fun _ _ h => by cases h
  have hbudgets : ∀ peer, 0 < (quietMesh.routers peer).cfg.maxHops :=
    fun _ => show (0 : UInt8) < 1 by decide
  have h := honest_mesh_one_hop SortBy.insertion hhonest hbudgets (pid 0) served_run
  exact ⟨h.1, h.2.1, h.2.2.2.2 rfl⟩

end FurcateMesh
