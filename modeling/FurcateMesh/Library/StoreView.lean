import Mathlib.Data.Set.Defs
import FurcateMesh.Library.InodeStore

/-!
# A program's view of a shared store

Several programs work on one store.  What one of them can see is the files at the
entries it names and the file behind its open handle; inode numbers themselves are
arbitrary.  `SameView` relates two stores that look the same to such a program,
although its handle is a different number in each.

An operation is `Confined` to some entries and inodes if it changes nothing else.
Operations confined elsewhere leave a view alone (`SameView.frame`), and an operation
of the program itself, done on both sides, keeps the two views the same.

The inodes at the entries are not related by number either: the two stores have a file at the
same entries, with the same contents, and the handle leads to the file at an entry on the one
side exactly if it does on the other.
-/

namespace InodeStore

open SparseFile

variable {Loc Cell : Type*}

/-- The operation changes only these entries and the contents of these inodes. -/
def Op.Confined (locs : Set Loc) (owned : Nat → Prop) : Op Loc Cell → Prop
  | .skip => True
  | .create loc => loc ∈ locs
  | .truncate i => owned i
  | .write i _ _ => owned i
  | .unlink loc => loc ∈ locs
  | .rename src dst => src ∈ locs ∧ dst ∈ locs

/-- The stores look the same at the entries, and so do the files behind a handle that
    is open on both sides. -/
structure SameView (locs : Set Loc) (s t : Store Loc Cell) (handles : Option (Nat × Nat)) :
    Prop where
  read : ∀ loc ∈ locs, s.read loc = t.read loc
  data : ∀ i j, handles = some (i, j) → s.data i = t.data j
  entry : ∀ i j, handles = some (i, j) → ∀ loc ∈ locs,
    (s.entry loc = some i ↔ t.entry loc = some j)

namespace Store

variable [DecidableEq Loc] {s t : Store Loc Cell} {locs : Set Loc} {owned : Nat → Prop}
  {op : Op Loc Cell} {filler : Cell}

/-! ### Operations confined elsewhere -/

theorem next_le_apply (s : Store Loc Cell) (filler : Cell) (op : Op Loc Cell) :
    s.next ≤ (s.apply filler op).next := by
  cases op with
  | create loc => exact Nat.le_succ _
  | _ => exact Nat.le_refl _

theorem entry_apply_of_confined (hop : op.Confined locs owned) {loc : Loc} (hloc : loc ∉ locs) :
    (s.apply filler op).entry loc = s.entry loc := by
  cases op with
  | create l =>
    have hne : loc ≠ l := by rintro rfl; exact hloc hop
    exact Function.update_of_ne hne _ _
  | unlink l =>
    have hne : loc ≠ l := by rintro rfl; exact hloc hop
    exact Function.update_of_ne hne _ _
  | rename src dst =>
    have hsrc : loc ≠ src := by rintro rfl; exact hloc hop.1
    have hdst : loc ≠ dst := by rintro rfl; exact hloc hop.2
    simp only [apply, rename, renameEntry, if_neg hsrc, if_neg hdst]
  | _ => rfl

theorem data_apply_of_confined (hop : op.Confined locs owned) {i : Nat} (hi : i < s.next)
    (howned : ¬ owned i) : (s.apply filler op).data i = s.data i := by
  cases op with
  | create l => exact Function.update_of_ne (Nat.ne_of_lt hi) _ _
  | truncate j =>
    have hne : i ≠ j := by rintro rfl; exact howned hop
    exact Function.update_of_ne hne _ _
  | write j off chunk =>
    have hne : i ≠ j := by rintro rfl; exact howned hop
    exact Function.update_of_ne hne _ _
  | _ => rfl

theorem read_apply_of_confined (hop : op.Confined locs owned) {loc : Loc} (hloc : loc ∉ locs)
    (howned : ∀ i, s.entry loc = some i → ¬ owned i) :
    (s.apply filler op).read loc = s.read loc := by
  rw [read, read, entry_apply_of_confined hop hloc]
  rcases hentry : s.entry loc with _ | i
  · rfl
  · rw [Option.map_some, Option.map_some,
      data_apply_of_confined hop (s.allocated loc i hentry) (howned i hentry)]

/-- Where an entry of the changed store comes from. -/
theorem entry_origin (hop : op.Confined locs owned) {loc : Loc} {i : Nat}
    (h : (s.apply filler op).entry loc = some i) :
    s.entry loc = some i ∨
      loc ∈ locs ∧ (i = s.next ∨ ∃ src ∈ locs, s.entry src = some i) := by
  cases op with
  | create l =>
    by_cases hl : loc = l
    · subst hl
      simp only [apply, create, Function.update_self, Option.some.injEq] at h
      exact .inr ⟨hop, .inl h.symm⟩
    · simp only [apply, create, Function.update_of_ne hl] at h
      exact .inl h
  | unlink l =>
    by_cases hl : loc = l
    · subst hl
      simp only [apply, unlink, Function.update_self] at h
      cases h
    · simp only [apply, unlink, Function.update_of_ne hl] at h
      exact .inl h
  | rename src dst =>
    simp only [apply, rename, renameEntry] at h
    split at h
    · next hdst =>
      subst hdst
      exact .inr ⟨hop.2, .inr ⟨src, hop.1, h⟩⟩
    · split at h
      · cases h
      · exact .inl h
  | _ => exact .inl h

end Store

namespace SameView

variable {s t : Store Loc Cell} {locs : Set Loc} {handles : Option (Nat × Nat)}

theorem refl (locs : Set Loc) (s : Store Loc Cell) : SameView locs s s none where
  read _ _ := rfl
  data _ _ h := by cases h
  entry _ _ h := by cases h

/-- A handle that is closed on both sides no longer matters. -/
theorem mono {handles' : Option (Nat × Nat)} (h : SameView locs s t handles)
    (hsub : ∀ pair, handles' = some pair → handles = some pair) : SameView locs s t handles' where
  read := h.read
  data i j hij := h.data i j (hsub _ hij)
  entry i j hij := h.entry i j (hsub _ hij)

theorem entry_eq_none_iff (h : SameView locs s t handles) {loc : Loc} (hloc : loc ∈ locs) :
    s.entry loc = none ↔ t.entry loc = none := by
  have hread := h.read loc hloc
  rw [← Option.map_eq_none_iff (f := s.data), ← Option.map_eq_none_iff (f := t.data)]
  rw [Store.read, Store.read] at hread
  rw [hread]

/-! ### The program's own operations, on both sides -/

/-- The contents of the inode both handles stand for are replaced by the same file. -/
theorem setData {i j : Nat} (h : SameView locs s t handles)
    (hentry : ∀ loc ∈ locs, (s.entry loc = some i ↔ t.entry loc = some j)) (file : List Cell) :
    SameView locs (s.setData i file) (t.setData j file) (some (i, j)) := by
  constructor
  · intro loc hloc
    by_cases hi : s.entry loc = some i
    · have hj := (hentry loc hloc).mp hi
      simp only [Store.read, Store.setData, hi, hj, Option.map_some, Function.update_self]
    · have hj : t.entry loc ≠ some j := fun hj => hi ((hentry loc hloc).mpr hj)
      rw [Store.read_setData_of_ne s file hi, Store.read_setData_of_ne t file hj]
      exact h.read loc hloc
  · rintro _ _ ⟨⟩
    simp only [Store.setData, Function.update_self]
  · rintro _ _ ⟨⟩
    exact hentry

theorem truncate (h : SameView locs s t handles) {loc : Loc} {i j : Nat}
    (hi : s.entry loc = some i) (hj : t.entry loc = some j) :
    SameView locs (s.setData i []) (t.setData j []) (some (i, j)) := by
  refine h.setData ?_ []
  intro other _
  constructor
  · intro hother
    rw [s.single other loc i hother hi]
    exact hj
  · intro hother
    rw [t.single other loc j hother hj]
    exact hi

variable [DecidableEq Loc]

theorem create (h : SameView locs s t handles) (loc : Loc) :
    SameView locs (s.create loc) (t.create loc) (some (s.next, t.next)) := by
  constructor
  · intro other hother
    by_cases heq : other = loc
    · subst heq
      simp only [Store.read, Store.create, Function.update_self, Option.map_some]
    · rw [s.read_create_of_ne heq, t.read_create_of_ne heq]
      exact h.read other hother
  · rintro _ _ ⟨⟩
    simp only [Store.create, Function.update_self]
  · rintro _ _ ⟨⟩ other _
    by_cases heq : other = loc
    · subst heq
      simp only [Store.create, Function.update_self]
    · simp only [Store.create, Function.update_of_ne heq]
      -- a new inode has no other entry
      have hs : s.entry other ≠ some s.next := fun h => absurd (s.allocated _ _ h) (Nat.lt_irrefl _)
      have ht : t.entry other ≠ some t.next := fun h => absurd (t.allocated _ _ h) (Nat.lt_irrefl _)
      exact iff_of_false hs ht

theorem unlink (h : SameView locs s t handles) (loc : Loc) :
    SameView locs (s.unlink loc) (t.unlink loc) handles := by
  refine ⟨?_, h.data, ?_⟩
  · intro other hother
    by_cases heq : other = loc
    · subst heq
      simp only [Store.read, Store.unlink, Function.update_self, Option.map_none]
    · rw [s.read_unlink_of_ne heq, t.read_unlink_of_ne heq]
      exact h.read other hother
  · intro i j hij other hother
    by_cases heq : other = loc
    · subst heq
      simp only [Store.unlink, Function.update_self, reduceCtorEq]
    · simp only [Store.unlink, Function.update_of_ne heq]
      exact h.entry i j hij other hother

theorem rename (h : SameView locs s t handles) {src dst : Loc} (hsrc : src ∈ locs) :
    SameView locs (s.rename src dst) (t.rename src dst) handles := by
  refine ⟨?_, h.data, ?_⟩
  · intro other hother
    by_cases hdst : other = dst
    · rw [hdst, s.read_rename_dst, t.read_rename_dst]
      exact h.read src hsrc
    · by_cases heq : other = src
      · simp only [Store.read, Store.rename, Store.renameEntry, if_neg hdst, if_pos heq,
          Option.map_none]
      · rw [s.read_rename_of_ne heq hdst, t.read_rename_of_ne heq hdst]
        exact h.read other hother
  · intro i j hij other hother
    simp only [Store.rename, Store.renameEntry]
    split
    · exact h.entry i j hij src hsrc
    · split
      · simp only [reduceCtorEq]
      · exact h.entry i j hij other hother

/-! ### What others do -/

/-- What others do elsewhere is not seen. -/
theorem frame (h : SameView locs s t handles) {others : Set Loc} {owned : Nat → Prop}
    {op : Op Loc Cell} {filler : Cell} (hop : op.Confined others owned)
    (hapart : ∀ loc ∈ locs, loc ∉ others)
    (hentries : ∀ loc ∈ locs, ∀ i, s.entry loc = some i → ¬ owned i)
    (hhandle : ∀ i j, handles = some (i, j) → i < s.next ∧ ¬ owned i) :
    SameView locs (s.apply filler op) t handles := by
  constructor
  · intro loc hloc
    rw [Store.read_apply_of_confined hop (hapart loc hloc) (hentries loc hloc)]
    exact h.read loc hloc
  · intro i j hij
    obtain ⟨hi, howned⟩ := hhandle i j hij
    rw [Store.data_apply_of_confined hop hi howned]
    exact h.data i j hij
  · intro i j hij loc hloc
    rw [Store.entry_apply_of_confined hop (hapart loc hloc)]
    exact h.entry i j hij loc hloc

end SameView

end InodeStore
