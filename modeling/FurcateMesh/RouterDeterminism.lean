import FurcateMesh.RouterHistory

/-!
# Routing and the iteration order of the peer map

Iterating a hash map yields its entries in an unspecified order, and `route` sorts
what it collects so that the order does not matter.  The sort promises that only
for a comparator that is a total order, so the promise is lost on tables with an
inversion around a NaN load.

A request that is served locally, or has used up its hops, is decided before the table is
read; it is clear, as is a request that reads a table without an inversion among the live
peers of its model (`Clear`).  For a clear request every order and every sort give one result
(`exists_route_eq_of_clear`, `route_eq_of_not_inversion`).  For any other, a sort within its
contract may return its input, and the target is then whichever peer the map yields first
(`route_lax_eq_first`); or it may panic (`route_strict_eq_none`).
-/

namespace FurcateMesh

namespace Router

def Candidate (router : Router) (modelName : String) (now : Instant) (c : PeerId × Binary64) : Prop :=
  ∃ state, router.state.lookup c.1 = some state ∧ router.Eligible modelName now state ∧
    state.load = c.2

/-- Three live peers that advertise the model: the one with the middle id has a NaN
    load, and the one with the highest id is less loaded than the one with the
    lowest. -/
def NaNInversion (router : Router) (modelName : String) (now : Instant) : Prop :=
  ∃ low mid high : PeerId × Binary64, router.Candidate modelName now low ∧
    router.Candidate modelName now mid ∧ router.Candidate modelName now high ∧
    low.1 < mid.1 ∧ mid.1 < high.1 ∧ mid.2.isNaN = true ∧
    high.2.partialCmp low.2 = some .lt

section Order

variable {router : Router} {modelName : String} {now : Instant} {order : List Entry}

theorem hasNaNInversion_iff (horder : order.Perm router.state.entries) :
    HasNaNInversion (router.candidates order modelName now) ↔ router.NaNInversion modelName now := by
  constructor
  · rintro ⟨low, hlow, mid, hmid, high, hhigh, hrest⟩
    exact ⟨low, mid, high, (mem_candidates horder).mp hlow, (mem_candidates horder).mp hmid,
      (mem_candidates horder).mp hhigh, hrest⟩
  · rintro ⟨low, mid, high, hlow, hmid, hhigh, hrest⟩
    exact ⟨low, (mem_candidates horder).mpr hlow, mid, (mem_candidates horder).mpr hmid, high,
      (mem_candidates horder).mpr hhigh, hrest⟩

/-- Two candidates that are not above each other are the same peer. -/
theorem eq_of_not_above {a b : PeerId × Binary64} (hab : compareCandidates a b ≠ .gt)
    (hba : compareCandidates b a ≠ .gt) : a.1 = b.1 := by
  have heq : compareCandidates a b = .eq := by
    rw [compareCandidates_swap a b] at hba
    cases hcmp : compareCandidates a b with
    | lt => rw [hcmp] at hba; exact absurd rfl hba
    | eq => rfl
    | gt => exact absurd hcmp hab
  exact compare_eq_iff_eq.mp (Ordering.then_eq_eq.mp heq).2

variable (modelName now) in
theorem exists_order_first {c : PeerId × Binary64} (hc : router.Candidate modelName now c) :
    ∃ order rest, order.Perm router.state.entries ∧
      router.candidates order modelName now = c :: rest := by
  obtain ⟨state, hlookup, ⟨hlive, hmodel⟩, hload⟩ := hc
  have hmem : (⟨c.1, state⟩ : Entry) ∈ router.state.entries := AList.mem_lookup_iff.mp hlookup
  obtain ⟨before, after, hsplit⟩ := List.append_of_mem hmem
  refine ⟨⟨c.1, state⟩ :: (before ++ after),
    router.candidates (before ++ after) modelName now, ?_, ?_⟩
  · rw [hsplit]
    exact List.perm_middle.symm
  · have hany : (state.models.any fun name => name == modelName) = true := by simpa using hmodel
    simp only [candidates, List.filter_cons, hlive, decide_true, if_true, hany, List.map_cons,
      hload]

/-- Without a total order a sort may return its input, and `route` then forwards to
    whichever candidate the map yields first. -/
theorem route_lax_eq_first {hopsSoFar : UInt8} {c : PeerId × Binary64}
    {rest : List (PeerId × Binary64)} (hhops : ¬ hopsSoFar ≥ router.cfg.maxHops)
    (horder : order.Perm router.state.entries)
    (hfirst : router.candidates order modelName now = c :: rest)
    (hinv : router.NaNInversion modelName now) :
    route SortBy.lax router order modelName false hopsSoFar now = some (.ok (.forward c.1)) := by
  have htotal : ¬ SortBy.TotalOn compareCandidates (router.candidates order modelName now) := by
    rw [compareCandidates_totalOn_iff (candidates_nodup horder), hasNaNInversion_iff horder]
    exact not_not_intro hinv
  have hsame := SortBy.lax_sort_of_not_totalOn htotal
  generalize hroute : route SortBy.lax router order modelName false hopsSoFar now = result
  cases route_outcome hroute with
  | serveLocal hlocal => cases hlocal
  | hopBudget _ hused => exact absurd hused hhops
  | noSuchModel _ _ hnone =>
    rw [hfirst] at hnone
    cases hnone
  | forward _ _ target _ _ hsort =>
    rw [hsame, hfirst] at hsort
    cases hsort
    rfl
  | panic _ _ _ hsort =>
    rw [hsame] at hsort
    cases hsort

/-- Without an inversion any two iteration orders lead to the same least candidate. -/
theorem route_eq_of_not_inversion (sorter : SortBy.Sorter (PeerId × Binary64)) {hopsSoFar : UInt8}
    {order' : List Entry} (hhops : ¬ hopsSoFar ≥ router.cfg.maxHops)
    (hinv : ¬ router.NaNInversion modelName now) (horder : order.Perm router.state.entries)
    (horder' : order'.Perm router.state.entries) :
    route sorter router order modelName false hopsSoFar now =
      route sorter router order' modelName false hopsSoFar now := by
  have hperm : (router.candidates order modelName now).Perm
      (router.candidates order' modelName now) := candidates_perm (horder.trans horder'.symm)
  have htotal : SortBy.TotalOn compareCandidates (router.candidates order modelName now) := by
    rw [compareCandidates_totalOn_iff (candidates_nodup horder), hasNaNInversion_iff horder]
    exact hinv
  by_cases hnil : router.candidates order modelName now = []
  · have hnil' : router.candidates order' modelName now = [] := by
      rw [hnil] at hperm
      exact hperm.nil_eq.symm
    simp only [route, hnil, hnil']
  · have hnil' : router.candidates order' modelName now ≠ [] := fun h => hnil (by
      rw [h] at hperm
      exact hperm.eq_nil)
    obtain ⟨a, ha, hroute, hleast⟩ := route_eq_forward sorter hhops hnil htotal
    obtain ⟨b, hb, hroute', hleast'⟩ := route_eq_forward sorter hhops hnil'
      (htotal.mono fun c hc => hperm.mem_iff.mpr hc)
    have hsame := eq_of_not_above (hleast b (hperm.mem_iff.mpr hb))
      (hleast' a (hperm.mem_iff.mp ha))
    rw [hroute, hroute', hsame]

/-- The request is decided before the table is read, or the table has no inversion. -/
def Clear (router : Router) (modelName : String) (localHas : Bool) (hopsSoFar : UInt8)
    (now : Instant) : Prop :=
  localHas = true ∨ hopsSoFar ≥ router.cfg.maxHops ∨ ¬ router.NaNInversion modelName now

/-- Then the sort returns, and `route` with it. -/
theorem exists_route_eq_of_clear (sorter : SortBy.Sorter (PeerId × Binary64)) {localHas : Bool}
    {hopsSoFar : UInt8} (horder : order.Perm router.state.entries)
    (hclear : router.Clear modelName localHas hopsSoFar now) :
    ∃ result, route sorter router order modelName localHas hopsSoFar now = some result := by
  generalize hroute : route sorter router order modelName localHas hopsSoFar now = result
  cases route_outcome hroute with
  | panic hlocal hhops hne hsort =>
    rcases hclear with hlocal' | hused | hinv
    · rw [hlocal] at hlocal'
      cases hlocal'
    · exact absurd hused (UInt8.not_le.mpr hhops)
    · have htotal : SortBy.TotalOn compareCandidates (router.candidates order modelName now) := by
        rw [compareCandidates_totalOn_iff (candidates_nodup horder), hasNaNInversion_iff horder]
        exact hinv
      obtain ⟨_, _, hsort', _⟩ := sorter.exists_least htotal hne
      rw [hsort] at hsort'
      cases hsort'
  | _ => exact ⟨_, rfl⟩

end Order

/-- **When routing does not depend on the map's order.**  For every router and every
    request: all iteration orders give one result, whatever the sort does within
    its contract, iff the request is decided before the table is read or the table
    has no inversion around a NaN load. -/
theorem route_order_independent_iff (router : Router) (modelName : String) (localHas : Bool)
    (hopsSoFar : UInt8) (now : Instant) :
    (∀ (sorter : SortBy.Sorter (PeerId × Binary64)) (order order' : List Entry),
        order.Perm router.state.entries → order'.Perm router.state.entries →
        route sorter router order modelName localHas hopsSoFar now =
          route sorter router order' modelName localHas hopsSoFar now) ↔
      localHas = true ∨ hopsSoFar ≥ router.cfg.maxHops ∨ ¬ router.NaNInversion modelName now := by
  cases localHas with
  | true => exact ⟨fun _ => Or.inl rfl, fun _ _ _ _ _ _ => rfl⟩
  | false =>
    by_cases hhops : hopsSoFar ≥ router.cfg.maxHops
    · refine ⟨fun _ => Or.inr (Or.inl hhops), fun _ sorter order order' _ _ => ?_⟩
      simp only [route, Bool.false_eq_true, if_false, if_pos hhops]
    · simp only [Bool.false_eq_true, hhops, false_or]
      constructor
      · rintro hsame hinv
        obtain ⟨low, mid, high, hlow, hmid, _, hlt, _⟩ := id hinv
        obtain ⟨order, rest, horder, hfirst⟩ := exists_order_first modelName now hlow
        obtain ⟨order', rest', horder', hfirst'⟩ := exists_order_first modelName now hmid
        have hroute := hsame SortBy.lax order order' horder horder'
        rw [route_lax_eq_first hhops horder hfirst hinv,
          route_lax_eq_first hhops horder' hfirst' hinv] at hroute
        simp only [Option.some.injEq, Except.ok.injEq, Decision.forward.injEq] at hroute
        exact absurd hroute hlt.ne
      · intro hinv sorter order order' horder horder'
        exact route_eq_of_not_inversion sorter hhops hinv horder horder'

end Router

namespace RouterSample

/-- Three peers that announce a model; the middle one reports a NaN load. -/
def nanBetween : Router.History :=
  [(1, .announce (pid 1) "llama"), (1, .announce (pid 2) "llama"), (1, .announce (pid 3) "llama"),
    (2, .heartbeat (pid 1) high), (2, .heartbeat (pid 2) nan), (2, .heartbeat (pid 3) low)]

def nanRouter : Router := (Router.new (pid 0) {}).replay nanBetween

def nanEntry (byte : UInt8) (load : Binary64) : Entry := ⟨pid byte, load, 2, ["llama"]⟩

end RouterSample

open RouterSample in
/-- One table, two iteration orders, two targets: with the insertion sort that the
    standard library uses on short slices, the request goes to peer 1 in one order
    and to peer 3 in the other. -/
theorem Router.route_depends_on_order :
    [nanEntry 1 high, nanEntry 2 nan, nanEntry 3 low].Perm nanRouter.state.entries ∧
      [nanEntry 3 low, nanEntry 1 high, nanEntry 2 nan].Perm nanRouter.state.entries ∧
      Router.route SortBy.insertion nanRouter [nanEntry 1 high, nanEntry 2 nan, nanEntry 3 low]
        "llama" false 0 3 = some (.ok (.forward (pid 1))) ∧
      Router.route SortBy.insertion nanRouter [nanEntry 3 low, nanEntry 1 high, nanEntry 2 nan]
        "llama" false 0 3 = some (.ok (.forward (pid 3))) := by
  decide +kernel

end FurcateMesh
