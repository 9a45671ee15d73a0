import Mathlib.Logic.Function.Basic
import FurcateMesh.Library.SparseFile

/-!
# Directory entries over inodes

The part of a Unix file system that matters to programs which share files by
name and by open handle.  A directory entry points to an inode, the inode holds
the contents, and an open handle is an inode number: it keeps its meaning when
the entry is renamed, replaced or removed.

A `Store` carries the two facts every later argument needs: an entry only points
to an allocated inode, and no inode has two entries (there are no hard links).

`Op` lists what a program may do in one step: create a file, truncate one, write at an
offset of an inode, remove an entry, rename it over another one.  Each is atomic.  Inodes are
numbered in the order they are allocated and never used again, so a handle of a removed file
cannot come to mean another one.
-/

namespace InodeStore

open SparseFile

variable {Loc Cell : Type*}

structure Store (Loc Cell : Type*) where
  entry : Loc → Option Nat
  data : Nat → List Cell
  next : Nat
  allocated : ∀ loc i, entry loc = some i → i < next
  single : ∀ loc loc' i, entry loc = some i → entry loc' = some i → loc = loc'

/-- What a program may do to the store in one step. -/
inductive Op (Loc Cell : Type*) where
  | skip
  | create (loc : Loc)
  | truncate (i : Nat)
  | write (i off : Nat) (chunk : List Cell)
  | unlink (loc : Loc)
  | rename (src dst : Loc)

namespace Store

def read (s : Store Loc Cell) (loc : Loc) : Option (List Cell) := (s.entry loc).map s.data

def setData (s : Store Loc Cell) (i : Nat) (file : List Cell) : Store Loc Cell :=
  { s with data := Function.update s.data i file }

theorem read_eq_some_iff {s : Store Loc Cell} {loc : Loc} {file : List Cell} :
    s.read loc = some file ↔ ∃ i, s.entry loc = some i ∧ s.data i = file := by
  simp only [read, Option.map_eq_some_iff]

theorem read_setData_of_ne (s : Store Loc Cell) {i : Nat} (file : List Cell) {loc : Loc}
    (h : s.entry loc ≠ some i) : (s.setData i file).read loc = s.read loc := by
  unfold read setData
  cases hloc : s.entry loc with
  | none => rfl
  | some j =>
    have hji : j ≠ i := by rintro rfl; exact h hloc
    simp only [Option.map_some, Function.update_of_ne hji]

variable [DecidableEq Loc]

def create (s : Store Loc Cell) (loc : Loc) : Store Loc Cell where
  entry := Function.update s.entry loc (some s.next)
  data := Function.update s.data s.next []
  next := s.next + 1
  allocated := by
    intro l i h
    by_cases hl : l = loc
    · subst hl; rw [Function.update_self, Option.some.injEq] at h; omega
    · rw [Function.update_of_ne hl] at h
      exact Nat.lt_succ_of_lt (s.allocated l i h)
  single := by
    intro l l' i h h'
    by_cases hl : l = loc <;> by_cases hl' : l' = loc
    · rw [hl, hl']
    · subst hl
      rw [Function.update_self, Option.some.injEq] at h
      rw [Function.update_of_ne hl'] at h'
      exact absurd (s.allocated l' i h') (by omega)
    · subst hl'
      rw [Function.update_self, Option.some.injEq] at h'
      rw [Function.update_of_ne hl] at h
      exact absurd (s.allocated l i h) (by omega)
    · rw [Function.update_of_ne hl] at h
      rw [Function.update_of_ne hl'] at h'
      exact s.single l l' i h h'

/-- Remove an entry.  The inode stays, for the handles that are still open. -/
def unlink (s : Store Loc Cell) (loc : Loc) : Store Loc Cell where
  entry := Function.update s.entry loc none
  data := s.data
  next := s.next
  allocated := by
    intro l i h
    by_cases hl : l = loc
    · subst hl; rw [Function.update_self] at h; cases h
    · rw [Function.update_of_ne hl] at h; exact s.allocated l i h
  single := by
    intro l l' i h h'
    by_cases hl : l = loc
    · subst hl; rw [Function.update_self] at h; cases h
    · by_cases hl' : l' = loc
      · subst hl'; rw [Function.update_self] at h'; cases h'
      · rw [Function.update_of_ne hl] at h
        rw [Function.update_of_ne hl'] at h'
        exact s.single l l' i h h'

def renameEntry (entry : Loc → Option Nat) (src dst loc : Loc) : Option Nat :=
  if loc = dst then entry src else if loc = src then none else entry loc

/-- Rename an entry in one atomic step. -/
def rename (s : Store Loc Cell) (src dst : Loc) : Store Loc Cell where
  entry := renameEntry s.entry src dst
  data := s.data
  next := s.next
  allocated := by
    intro l i h
    unfold renameEntry at h
    split at h
    · exact s.allocated src i h
    · split at h
      · cases h
      · exact s.allocated l i h
  single := by
    intro l l' i h h'
    unfold renameEntry at h h'
    by_cases hl : l = dst <;> by_cases hl' : l' = dst
    · rw [hl, hl']
    · -- `l` now holds the inode of `src`, which no third entry can hold
      rw [if_pos hl] at h
      rw [if_neg hl'] at h'
      split at h'
      · cases h'
      · rename_i hne
        exact absurd (s.single l' src i h' h) hne
    · rw [if_pos hl'] at h'
      rw [if_neg hl] at h
      split at h
      · cases h
      · rename_i hne
        exact absurd (s.single l src i h h') hne
    · rw [if_neg hl] at h
      rw [if_neg hl'] at h'
      split at h
      · cases h
      · split at h'
        · cases h'
        · exact s.single l l' i h h'

def apply (filler : Cell) (s : Store Loc Cell) : Op Loc Cell → Store Loc Cell
  | .skip => s
  | .create loc => s.create loc
  | .truncate i => s.setData i []
  | .write i off chunk => s.setData i (writeAt filler (s.data i) off chunk)
  | .unlink loc => s.unlink loc
  | .rename src dst => s.rename src dst

@[simp] theorem apply_skip (filler : Cell) (s : Store Loc Cell) : s.apply filler .skip = s := rfl

/-! ### Reading after an operation -/

theorem read_create_of_ne (s : Store Loc Cell) {loc l : Loc} (h : l ≠ loc) :
    (s.create loc).read l = s.read l := by
  simp only [read, create, Function.update_of_ne h]
  cases hl : s.entry l with
  | none => rfl
  | some j =>
    have hj : j ≠ s.next := Nat.ne_of_lt (s.allocated l j hl)
    simp only [Option.map_some, Function.update_of_ne hj]

theorem read_unlink_of_ne (s : Store Loc Cell) {loc l : Loc} (h : l ≠ loc) :
    (s.unlink loc).read l = s.read l := by
  simp only [read, unlink, Function.update_of_ne h]

theorem read_rename_dst (s : Store Loc Cell) (src dst : Loc) :
    (s.rename src dst).read dst = s.read src := by
  simp only [read, rename, renameEntry, if_true]

theorem read_rename_of_ne (s : Store Loc Cell) {src dst l : Loc} (hsrc : l ≠ src)
    (hdst : l ≠ dst) : (s.rename src dst).read l = s.read l := by
  simp only [read, rename, renameEntry, if_neg hsrc, if_neg hdst]

end Store

end InodeStore
