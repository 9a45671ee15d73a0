import Mathlib.Data.List.Basic

/-!
# Sorting by a comparator

The contract of a library sort that takes a comparison function.  If the function
is a total order on the elements, the result is a sorted permutation.  If it is
not, the sort may abort or return the elements in any order.

`Sorter` states that contract, and `insertion` is an implementation.  `lax` and `strict`
are the two extremes of what the contract allows without a total order: the one returns the
elements as they are, the other aborts.  Callers that only use the first element need no more
than `Sorter.exists_least`.
-/

namespace SortBy

variable {α : Type*}

/-- The comparator is a total order on the elements of the list. -/
structure TotalOn (cmp : α → α → Ordering) (l : List α) : Prop where
  swap : ∀ a ∈ l, ∀ b ∈ l, cmp b a = (cmp a b).swap
  trans : ∀ a ∈ l, ∀ b ∈ l, ∀ c ∈ l, cmp a b ≠ .gt → cmp b c ≠ .gt → cmp a c ≠ .gt

theorem TotalOn.mono {cmp : α → α → Ordering} {l l' : List α} (h : TotalOn cmp l)
    (hmem : ∀ a ∈ l', a ∈ l) : TotalOn cmp l' :=
  ⟨fun a ha b hb => h.swap a (hmem a ha) b (hmem b hb),
    fun a ha b hb c hc => h.trans a (hmem a ha) b (hmem b hb) c (hmem c hc)⟩

/-- A comparison sort.  `none` is an abort. -/
structure Sorter (α : Type*) where
  sort : (α → α → Ordering) → List α → Option (List α)
  perm : ∀ {cmp l l'}, sort cmp l = some l' → l'.Perm l
  sorted : ∀ {cmp l}, TotalOn cmp l →
    ∃ l', sort cmp l = some l' ∧ l'.Pairwise fun a b => cmp a b ≠ .gt

/-- Under a total order the first element of the result is a least one. -/
theorem Sorter.exists_least (sorter : Sorter α) {cmp : α → α → Ordering} {l : List α}
    (htotal : TotalOn cmp l) (hne : l ≠ []) :
    ∃ a rest, sorter.sort cmp l = some (a :: rest) ∧ a ∈ l ∧ ∀ b ∈ l, cmp a b ≠ .gt := by
  obtain ⟨l', hsort, hsorted⟩ := sorter.sorted htotal
  have hperm := sorter.perm hsort
  cases l' with
  | nil => exact absurd hperm.nil_eq.symm hne
  | cons a rest =>
    have ha : a ∈ l := hperm.mem_iff.mp List.mem_cons_self
    refine ⟨a, rest, hsort, ha, fun b hb => ?_⟩
    rcases List.mem_cons.mp (hperm.mem_iff.mpr hb) with rfl | hrest
    · -- an element is not above itself
      have hself := htotal.swap b hb b hb
      intro hgt
      rw [hgt] at hself
      cases hself
    · exact (List.pairwise_cons.mp hsorted).1 b hrest

/-! ### Insertion sort -/

section Insertion

variable (cmp : α → α → Ordering)

/-- Insert into a list kept in descending order, moving past the elements that are
    above `x`. -/
def insertDown (x : α) : List α → List α
  | [] => [x]
  | y :: ys => if cmp x y = .lt then y :: insertDown x ys else x :: y :: ys

def insertionSort (l : List α) : List α := (l.foldl (fun acc x => insertDown cmp x acc) []).reverse

variable {cmp}

theorem insertDown_perm (x : α) (l : List α) : (insertDown cmp x l).Perm (x :: l) := by
  induction l with
  | nil => exact .refl _
  | cons y ys ih =>
    rw [insertDown]
    split
    · exact (ih.cons y).trans (List.Perm.swap x y ys)
    · exact .refl _

theorem foldl_insertDown_perm (l : List α) :
    ∀ acc, (l.foldl (fun acc x => insertDown cmp x acc) acc).Perm (l.reverse ++ acc) := by
  induction l with
  | nil => intro acc; exact .refl _
  | cons x l ih =>
    intro acc
    rw [List.foldl_cons, List.reverse_cons, List.append_assoc]
    exact (ih _).trans ((insertDown_perm x acc).append_left l.reverse)

theorem insertionSort_perm (l : List α) : (insertionSort cmp l).Perm l := by
  have hfold : (l.foldl (fun acc x => insertDown cmp x acc) []).Perm (l.reverse ++ []) :=
    foldl_insertDown_perm l []
  rw [List.append_nil] at hfold
  exact (List.reverse_perm _).trans (hfold.trans (List.reverse_perm _))

theorem insertDown_sorted {x : α} {l : List α} (htotal : TotalOn cmp (x :: l))
    (hl : l.Pairwise fun a b => cmp b a ≠ .gt) :
    (insertDown cmp x l).Pairwise fun a b => cmp b a ≠ .gt := by
  induction l with
  | nil => exact List.pairwise_singleton _ _
  | cons y ys ih =>
    obtain ⟨hy, hys⟩ := List.pairwise_cons.mp hl
    have htail : TotalOn cmp (x :: ys) := htotal.mono fun a ha => by
      rcases List.mem_cons.mp ha with rfl | ha <;> simp_all
    rw [insertDown]
    split
    · rename_i hlt
      refine List.pairwise_cons.mpr ⟨fun b hb => ?_, ih htail hys⟩
      rcases List.mem_cons.mp ((insertDown_perm x ys).mem_iff.mp hb) with rfl | hb
      · rw [hlt]; decide
      · exact hy b hb
    · rename_i hnlt
      have hyx : cmp y x ≠ .gt := by
        rw [htotal.swap x List.mem_cons_self y (by simp)]
        exact fun hgt => hnlt (Ordering.swap_eq_gt.mp hgt)
      refine List.pairwise_cons.mpr ⟨fun b hb => ?_, hl⟩
      rcases List.mem_cons.mp hb with rfl | hys'
      · exact hyx
      · exact htotal.trans b (by simp [hys']) y (by simp) x (by simp) (hy b hys') hyx

theorem foldl_insertDown_sorted (l : List α) :
    ∀ acc, TotalOn cmp (l ++ acc) → (acc.Pairwise fun a b => cmp b a ≠ .gt) →
      (l.foldl (fun acc x => insertDown cmp x acc) acc).Pairwise fun a b => cmp b a ≠ .gt := by
  induction l with
  | nil => intro acc _ hacc; exact hacc
  | cons x l ih =>
    intro acc htotal hacc
    refine ih _ (htotal.mono fun a ha => ?_) (insertDown_sorted (htotal.mono fun a ha => ?_) hacc)
    · rcases List.mem_append.mp ha with ha | ha
      · simp [ha]
      · rcases List.mem_cons.mp ((insertDown_perm x acc).mem_iff.mp ha) with rfl | ha <;> simp [*]
    · rcases List.mem_cons.mp ha with rfl | ha <;> simp [*]

end Insertion

def insertion : Sorter α where
  sort cmp l := some (insertionSort cmp l)
  perm := by
    intro cmp l l' h
    cases h
    exact insertionSort_perm l
  sorted := by
    intro cmp l htotal
    refine ⟨_, rfl, ?_⟩
    rw [insertionSort, List.pairwise_reverse]
    exact foldl_insertDown_sorted l [] (by rwa [List.append_nil]) List.Pairwise.nil

open Classical in
/-- A sort that promises no more than the contract: without a total order it does as
    `fallback` says. -/
noncomputable def orElse (fallback : List α → Option (List α))
    (hperm : ∀ {l l'}, fallback l = some l' → l'.Perm l) : Sorter α where
  sort cmp l := if TotalOn cmp l then some (insertionSort cmp l) else fallback l
  perm := by
    intro cmp l l' h
    split at h
    · exact insertion.perm h
    · exact hperm h
  sorted := by
    intro cmp l htotal
    rw [if_pos htotal]
    exact insertion.sorted htotal

noncomputable def lax : Sorter α := orElse some fun h => by cases h; exact .refl _

theorem lax_sort_of_not_totalOn {cmp : α → α → Ordering} {l : List α} (h : ¬ TotalOn cmp l) :
    lax.sort cmp l = some l := if_neg h

end SortBy
