import FurcateMesh.Router

/-!
# When the routing comparator is a total order

`sort_by` in `Router::route` compares loads first and falls back to `PeerId` order
when the loads are equal or incomparable.  A NaN load is incomparable with every
load, so its owner is placed by id alone while the others are placed by load.  The
two rules agree unless a NaN owner's id lies strictly between the ids of two peers
whose loads are in the other order (`compareCandidates_totalOn_iff`).

Loads come from heartbeats of other peers, and nothing on the way rejects a NaN.  The three
peers of an inversion form a cycle of the comparator: the first is below the NaN owner and the
NaN owner below the third, by id, and the third is below the first, by load.  Transitivity is
the only law that can fail; antisymmetry holds since ids are distinct.
-/

namespace FurcateMesh

namespace Router

/-- Three candidates whose middle id has a NaN load, with the loads of the outer two
    in the opposite order of their ids. -/
def HasNaNInversion (found : List (PeerId × Binary64)) : Prop :=
  ∃ low ∈ found, ∃ mid ∈ found, ∃ high ∈ found, low.1 < mid.1 ∧ mid.1 < high.1 ∧
    mid.2.isNaN = true ∧ high.2.partialCmp low.2 = some .lt

/-! ### The comparator, case by case -/

theorem compareCandidates_of_isNaN {a b : PeerId × Binary64}
    (h : a.2.isNaN = true ∨ b.2.isNaN = true) : compareCandidates a b = compare a.1 b.1 := by
  have hnone : a.2.partialCmp b.2 = none :=
    h.elim (Binary64.partialCmp_of_isNaN_left _) (Binary64.partialCmp_of_isNaN_right _)
  rw [compareCandidates, hnone]
  rfl

theorem compareCandidates_of_not_isNaN {a b : PeerId × Binary64} (ha : a.2.isNaN = false)
    (hb : b.2.isNaN = false) :
    compareCandidates a b = (compare a.2.key b.2.key).then (compare a.1 b.1) := by
  rw [compareCandidates, Binary64.partialCmp_of_not_isNaN ha hb]
  rfl

theorem compareCandidates_swap (a b : PeerId × Binary64) :
    compareCandidates b a = (compareCandidates a b).swap := by
  by_cases h : a.2.isNaN = true ∨ b.2.isNaN = true
  · rw [compareCandidates_of_isNaN h, compareCandidates_of_isNaN h.symm]
    exact Std.OrientedCmp.eq_swap
  · obtain ⟨ha, hb⟩ : a.2.isNaN = false ∧ b.2.isNaN = false := by simpa using h
    rw [compareCandidates_of_not_isNaN ha hb, compareCandidates_of_not_isNaN hb ha,
      Ordering.swap_then, ← Std.OrientedCmp.eq_swap, ← Std.OrientedCmp.eq_swap]

/-- Not above, with a NaN involved: by id. -/
theorem compareCandidates_ne_gt_of_isNaN {a b : PeerId × Binary64}
    (h : a.2.isNaN = true ∨ b.2.isNaN = true) : compareCandidates a b ≠ .gt ↔ a.1 ≤ b.1 := by
  rw [compareCandidates_of_isNaN h]
  exact compare_le_iff_le

/-- Not above, for two numbers: by load, then by id. -/
theorem compareCandidates_ne_gt_of_not_isNaN {a b : PeerId × Binary64} (ha : a.2.isNaN = false)
    (hb : b.2.isNaN = false) :
    compareCandidates a b ≠ .gt ↔ a.2.key < b.2.key ∨ a.2.key = b.2.key ∧ a.1 ≤ b.1 := by
  rw [compareCandidates_of_not_isNaN ha hb]
  rcases lt_trichotomy a.2.key b.2.key with h | h | h
  · rw [compare_lt_iff_lt.mpr h]
    exact ⟨fun _ => Or.inl h, fun _ => Ordering.noConfusion⟩
  · rw [compare_eq_iff_eq.mpr h]
    simp only [h, lt_irrefl, true_and, false_or]
    exact compare_le_iff_le
  · rw [compare_gt_iff_gt.mpr h]
    exact ⟨fun hne => absurd rfl hne, fun hor => absurd hor (by omega)⟩

/-! ### The total order -/

section Total

variable {found : List (PeerId × Binary64)}

/-- Candidates with different ids are strictly ordered by id. -/
theorem id_lt_of_le (hnodup : (found.map Prod.fst).Nodup) {a b : PeerId × Binary64}
    (ha : a ∈ found) (hb : b ∈ found) (hne : a.2.isNaN ≠ b.2.isNaN) (hle : a.1 ≤ b.1) :
    a.1 < b.1 := by
  refine lt_of_le_of_ne hle fun heq => hne ?_
  rw [List.inj_on_of_nodup_map hnodup ha hb heq]

/-- Without an inversion the comparator is transitive.  The cases are which of the
    three loads are NaN: with none the order is by load and id, with two or three
    it is by id, and with one an inversion is what a failure would need. -/
theorem compareCandidates_trans (hnodup : (found.map Prod.fst).Nodup)
    (hinv : ¬ HasNaNInversion found) {a b c : PeerId × Binary64} (ha : a ∈ found) (hb : b ∈ found)
    (hc : c ∈ found) (hab : compareCandidates a b ≠ .gt) (hbc : compareCandidates b c ≠ .gt) :
    compareCandidates a c ≠ .gt := by
  have hfree : ∀ low ∈ found, ∀ mid ∈ found, ∀ high ∈ found, mid.2.isNaN = true →
      low.2.isNaN = false → high.2.isNaN = false → low.1 < mid.1 → mid.1 < high.1 →
      low.2.key ≤ high.2.key := by
    intro low hlow mid hmid high hhigh hnan hlow' hhigh' hlt hlt'
    refine not_lt.mp fun hkey => hinv ?_
    exact ⟨low, hlow, mid, hmid, high, hhigh, hlt, hlt', hnan,
      Binary64.partialCmp_eq_lt_iff.mpr ⟨hhigh', hlow', hkey⟩⟩
  cases hna : a.2.isNaN <;> cases hnb : b.2.isNaN <;> cases hnc : c.2.isNaN
  · rw [compareCandidates_ne_gt_of_not_isNaN hna hnb] at hab
    rw [compareCandidates_ne_gt_of_not_isNaN hnb hnc] at hbc
    rw [compareCandidates_ne_gt_of_not_isNaN hna hnc]
    rcases hab with hab | ⟨hab, hab'⟩ <;> rcases hbc with hbc | ⟨hbc, hbc'⟩
    · exact Or.inl (hab.trans hbc)
    · exact Or.inl (by omega)
    · exact Or.inl (by omega)
    · exact Or.inr ⟨hab.trans hbc, hab'.trans hbc'⟩
  · rw [compareCandidates_ne_gt_of_not_isNaN hna hnb] at hab
    rw [compareCandidates_ne_gt_of_isNaN (Or.inr hnc)] at hbc ⊢
    have hbc' := id_lt_of_le hnodup hb hc (by rw [hnb, hnc]; decide) hbc
    refine not_lt.mp fun hca => ?_
    have hkey := hfree b hb c hc a ha hnc hnb hna hbc' hca
    rcases hab with hab | ⟨_, hab⟩
    · omega
    · exact absurd (hab.trans_lt (hbc'.trans hca)) (lt_irrefl _)
  · rw [compareCandidates_ne_gt_of_isNaN (Or.inr hnb)] at hab
    rw [compareCandidates_ne_gt_of_isNaN (Or.inl hnb)] at hbc
    rw [compareCandidates_ne_gt_of_not_isNaN hna hnc]
    have hab' := id_lt_of_le hnodup ha hb (by rw [hna, hnb]; decide) hab
    have hbc' := id_lt_of_le hnodup hb hc (by rw [hnb, hnc]; decide) hbc
    have hkey := hfree a ha b hb c hc hnb hna hnc hab' hbc'
    rcases lt_or_eq_of_le hkey with hlt | heq
    · exact Or.inl hlt
    · exact Or.inr ⟨heq, hab.trans hbc⟩
  · rw [compareCandidates_ne_gt_of_isNaN (Or.inr hnb)] at hab
    rw [compareCandidates_ne_gt_of_isNaN (Or.inr hnc)] at hbc ⊢
    exact hab.trans hbc
  · rw [compareCandidates_ne_gt_of_isNaN (Or.inl hna)] at hab ⊢
    rw [compareCandidates_ne_gt_of_not_isNaN hnb hnc] at hbc
    have hab' := id_lt_of_le hnodup ha hb (by rw [hna, hnb]; decide) hab
    refine not_lt.mp fun hca => ?_
    have hkey := hfree c hc a ha b hb hna hnc hnb hca hab'
    rcases hbc with hbc | ⟨_, hbc⟩
    · omega
    · exact absurd (hbc.trans_lt (hca.trans hab')) (lt_irrefl _)
  · rw [compareCandidates_ne_gt_of_isNaN (Or.inl hna)] at hab ⊢
    rw [compareCandidates_ne_gt_of_isNaN (Or.inr hnc)] at hbc
    exact hab.trans hbc
  · rw [compareCandidates_ne_gt_of_isNaN (Or.inl hna)] at hab ⊢
    rw [compareCandidates_ne_gt_of_isNaN (Or.inl hnb)] at hbc
    exact hab.trans hbc
  · rw [compareCandidates_ne_gt_of_isNaN (Or.inl hna)] at hab ⊢
    rw [compareCandidates_ne_gt_of_isNaN (Or.inl hnb)] at hbc
    exact hab.trans hbc

/-- **When the comparator is a total order**: on candidates with distinct ids, iff
    there is no inversion around a NaN load. -/
theorem compareCandidates_totalOn_iff (hnodup : (found.map Prod.fst).Nodup) :
    SortBy.TotalOn compareCandidates found ↔ ¬ HasNaNInversion found := by
  constructor
  · rintro htotal ⟨low, hlow, mid, hmid, high, hhigh, hlt, hlt', hnan, hcmp⟩
    obtain ⟨hhigh', hlow', hkey⟩ := Binary64.partialCmp_eq_lt_iff.mp hcmp
    have hcycle := htotal.trans low hlow mid hmid high hhigh
      ((compareCandidates_ne_gt_of_isNaN (Or.inr hnan)).mpr hlt.le)
      ((compareCandidates_ne_gt_of_isNaN (Or.inl hnan)).mpr hlt'.le)
    rw [compareCandidates_ne_gt_of_not_isNaN hlow' hhigh'] at hcycle
    omega
  · intro hinv
    exact ⟨fun a _ b _ => compareCandidates_swap a b,
      fun a ha b hb c hc => compareCandidates_trans hnodup hinv ha hb hc⟩

/-! ### The choice -/

/-- A comparator that is a total order makes `route` forward to a least candidate. -/
theorem route_eq_forward (sorter : SortBy.Sorter (PeerId × Binary64)) {router : Router}
    {order : List Entry} {modelName : String} {hopsSoFar : UInt8} {now : Instant}
    (hhops : ¬ hopsSoFar ≥ router.cfg.maxHops)
    (hne : router.candidates order modelName now ≠ [])
    (htotal : SortBy.TotalOn compareCandidates (router.candidates order modelName now)) :
    ∃ a ∈ router.candidates order modelName now,
      route sorter router order modelName false hopsSoFar now = some (.ok (.forward a.1)) ∧
        ∀ b ∈ router.candidates order modelName now, compareCandidates a b ≠ .gt := by
  obtain ⟨a, rest, hsort, ha, hleast⟩ := sorter.exists_least htotal hne
  refine ⟨a, ha, ?_, hleast⟩
  generalize hroute : route sorter router order modelName false hopsSoFar now = result
  cases route_outcome hroute with
  | serveLocal hlocal => cases hlocal
  | hopBudget _ hused => exact absurd hused hhops
  | noSuchModel _ _ hnone => exact absurd hnone hne
  | forward _ _ target _ _ hsort' =>
    rw [hsort] at hsort'
    cases hsort'
    rfl
  | panic _ _ _ hnone =>
    rw [hsort] at hnone
    cases hnone

end Total

end Router

end FurcateMesh
