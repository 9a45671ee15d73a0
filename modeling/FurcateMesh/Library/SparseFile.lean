import Mathlib.Data.List.Basic

/-!
# Sparse files under positioned writes

A file is a list of cells.  A positioned write seeks to an offset and stores a
chunk there: a gap between the old end of the file and the offset is filled with
a fixed cell, and an empty chunk stores nothing, wherever the offset points.

The main result, `writeAll_eq_iff_corrected`, says exactly when a sequence of
writes whose chunks cover a target produces that target: when every wrong cell
that some write stores is covered again by a later write.

A write says what every position it covers holds afterwards, and leaves the others alone
(`getElem?_writeAt_of_covers`, `getElem?_writeAt_of_not_covers`); the rest follows position by
position.  A chunk may also be stored in pieces (`writeAt_append`), which is what happens when
the program that writes is cut off between two of them.
-/

namespace SparseFile

variable {α : Type*}

/-- Store `chunk` at offset `off` of `file`. -/
def writeAt (filler : α) (file : List α) (off : Nat) : List α → List α
  | [] => file
  | cell :: chunk =>
      file.take off ++ List.replicate (off - file.length) filler ++
        (cell :: chunk) ++ file.drop (off + (chunk.length + 1))

/-- One positioned write: an offset and the chunk stored there. -/
abbrev Write (α : Type*) := Nat × List α

def Write.Covers (w : Write α) (i : Nat) : Prop := w.1 ≤ i ∧ i < w.1 + w.2.length

instance (w : Write α) (i : Nat) : Decidable (w.Covers i) :=
  inferInstanceAs (Decidable (_ ∧ _))

def writeAll (filler : α) (file : List α) (ws : List (Write α)) : List α :=
  ws.foldl (fun file w => writeAt filler file w.1 w.2) file

@[simp] theorem writeAll_nil (filler : α) (file : List α) :
    writeAll filler file [] = file := rfl

@[simp] theorem writeAll_cons (filler : α) (file : List α) (w : Write α) (ws : List (Write α)) :
    writeAll filler file (w :: ws) = writeAll filler (writeAt filler file w.1 w.2) ws := rfl

theorem writeAll_concat (filler : α) (file : List α) (ws : List (Write α)) (w : Write α) :
    writeAll filler file (ws ++ [w]) = writeAt filler (writeAll filler file ws) w.1 w.2 := by
  rw [writeAll, List.foldl_append]
  rfl

/-! ### One write -/

theorem length_writeAt (filler : α) (file : List α) (off : Nat) {chunk : List α}
    (hchunk : chunk ≠ []) :
    (writeAt filler file off chunk).length = max file.length (off + chunk.length) := by
  cases chunk with
  | nil => exact absurd rfl hchunk
  | cons cell chunk =>
    simp only [writeAt, List.length_append, List.length_take, List.length_replicate,
      List.length_cons, List.length_drop]
    omega

theorem length_writeAt_le (filler : α) (file : List α) (off : Nat) (chunk : List α) :
    (writeAt filler file off chunk).length ≤ max file.length (off + chunk.length) := by
  by_cases hchunk : chunk = []
  · rw [hchunk, writeAt]
    exact Nat.le_max_left _ _
  · exact Nat.le_of_eq (length_writeAt filler file off hchunk)

theorem getElem?_writeAt_of_covers (filler : α) (file : List α) (off : Nat) {chunk : List α}
    {i : Nat} (hi : Write.Covers (off, chunk) i) :
    (writeAt filler file off chunk)[i]? = chunk[i - off]? := by
  obtain ⟨hlo, hhi⟩ := hi
  cases chunk with
  | nil => simp only [List.length_nil] at hhi; omega
  | cons cell chunk =>
    simp only [List.length_cons] at hhi
    have hpad : (file.take off ++ List.replicate (off - file.length) filler).length = off := by
      simp only [List.length_append, List.length_take, List.length_replicate]; omega
    rw [writeAt, List.append_assoc, List.getElem?_append_right (by rw [hpad]; exact hlo),
      hpad, List.getElem?_append_left (by simp only [List.length_cons]; omega)]

theorem getElem?_writeAt_of_not_covers (filler : α) (file : List α) (off : Nat)
    {chunk : List α} {i : Nat} (hi : ¬ Write.Covers (off, chunk) i) (hfile : i < file.length) :
    (writeAt filler file off chunk)[i]? = file[i]? := by
  cases chunk with
  | nil => rfl
  | cons cell chunk =>
    simp only [Write.Covers, List.length_cons] at hi
    by_cases hlt : i < off
    · rw [writeAt, List.append_assoc, List.append_assoc,
        List.getElem?_append_left (by rw [List.length_take]; omega),
        List.getElem?_take, if_pos hlt]
    · have hpad : (file.take off ++ List.replicate (off - file.length) filler ++
          (cell :: chunk)).length = off + (chunk.length + 1) := by
        simp only [List.length_append, List.length_take, List.length_replicate,
          List.length_cons]
        omega
      rw [writeAt, List.getElem?_append_right (by rw [hpad]; omega), hpad,
        List.getElem?_drop]
      congr 1
      omega

theorem lt_length_writeAt_of_covers (filler : α) (file : List α) {w : Write α} {i : Nat}
    (hi : w.Covers i) : i < (writeAt filler file w.1 w.2).length := by
  have hlo := hi.1
  have hhi := hi.2
  have hchunk : w.2 ≠ [] := by
    intro hnil
    rw [hnil, List.length_nil] at hhi
    omega
  rw [length_writeAt filler file w.1 hchunk]
  omega

theorem length_le_writeAt (filler : α) (file : List α) (off : Nat) (chunk : List α) :
    file.length ≤ (writeAt filler file off chunk).length := by
  by_cases hchunk : chunk = []
  · subst hchunk; exact Nat.le_refl _
  · rw [length_writeAt filler file off hchunk]; exact Nat.le_max_left _ _

theorem writeAt_length (filler : α) (file chunk : List α) :
    writeAt filler file file.length chunk = file ++ chunk := by
  cases chunk with
  | nil => rw [writeAt, List.append_nil]
  | cons cell chunk =>
    rw [writeAt, List.take_length, Nat.sub_self, List.replicate_zero, List.append_nil,
      List.drop_eq_nil_of_le (by omega), List.append_nil]

/-- If storing a chunk changes nothing, storing the first part of it changes
    nothing either. -/
theorem writeAt_eq_self_of_prefix (filler : α) {file chunk part : List α} {off : Nat}
    (hchunk : writeAt filler file off chunk = file) (hpart : part <+: chunk) :
    writeAt filler file off part = file := by
  by_cases hnil : part = []
  · rw [hnil]; rfl
  have hne : chunk ≠ [] := by
    rintro rfl
    exact hnil (List.prefix_nil.mp hpart)
  have hlen := length_writeAt filler file off hne
  rw [hchunk] at hlen
  have hle := hpart.length_le
  have hlen' := length_writeAt filler file off hnil
  apply List.ext_getElem?
  intro i
  by_cases hi : Write.Covers (off, part) i
  · have hcover : Write.Covers (off, chunk) i :=
      ⟨hi.1, Nat.lt_of_lt_of_le hi.2 (Nat.add_le_add_left hle off)⟩
    have hidx : i - off < part.length := Nat.sub_lt_left_of_lt_add hi.1 hi.2
    rw [getElem?_writeAt_of_covers filler file off hi, List.getElem?_eq_getElem hidx,
      hpart.getElem hidx, ← List.getElem?_eq_getElem,
      ← getElem?_writeAt_of_covers filler file off hcover, hchunk]
  · by_cases hin : i < file.length
    · exact getElem?_writeAt_of_not_covers filler file off hi hin
    · rw [List.getElem?_eq_none (by omega), List.getElem?_eq_none (by omega)]

theorem writeAt_of_ne_nil (filler : α) (file : List α) (off : Nat) {chunk : List α}
    (h : chunk ≠ []) :
    writeAt filler file off chunk =
      file.take off ++ List.replicate (off - file.length) filler ++ chunk ++
        file.drop (off + chunk.length) := by
  cases chunk with
  | nil => exact absurd rfl h
  | cons cell chunk => rw [writeAt, List.length_cons]

/-- A chunk stored in two pieces, one after the other, is the chunk stored at once. -/
theorem writeAt_append (filler : α) (file : List α) (off : Nat) (first second : List α) :
    writeAt filler (writeAt filler file off first) (off + first.length) second =
      writeAt filler file off (first ++ second) := by
  by_cases hfirst : first = []
  · rw [hfirst, writeAt, List.length_nil, Nat.add_zero, List.nil_append]
  by_cases hsecond : second = []
  · rw [hsecond, writeAt, List.append_nil]
  have hpad : (file.take off ++ List.replicate (off - file.length) filler).length = off := by
    simp only [List.length_append, List.length_take, List.length_replicate]
    omega
  have hboth : first ++ second ≠ [] := by simp [hfirst]
  rw [writeAt_of_ne_nil filler file off hfirst, writeAt_of_ne_nil _ _ _ hsecond,
    writeAt_of_ne_nil _ _ _ hboth]
  generalize file.take off ++ List.replicate (off - file.length) filler = pad at hpad ⊢
  have hstart : (pad ++ first).length = off + first.length := by rw [List.length_append, hpad]
  have hlen : off + first.length ≤ (pad ++ first ++ file.drop (off + first.length)).length := by
    rw [List.length_append, hstart]
    exact Nat.le_add_right _ _
  rw [Nat.sub_eq_zero_of_le hlen, List.replicate_zero, List.append_nil, ← hstart, List.take_left,
    ← List.drop_drop, List.drop_left, List.drop_drop, hstart, List.length_append, Nat.add_assoc,
    List.append_assoc pad]

/-! ### A sequence of writes -/

theorem getElem?_writeAll_of_not_covers (filler : α) {i : Nat} :
    ∀ (ws : List (Write α)) (file : List α), (∀ w ∈ ws, ¬ w.Covers i) → i < file.length →
      (writeAll filler file ws)[i]? = file[i]? := by
  intro ws
  induction ws with
  | nil => intro file _ _; rfl
  | cons w ws ih =>
    intro file hfree hi
    have hlen := Nat.lt_of_lt_of_le hi (length_le_writeAt filler file w.1 w.2)
    rw [writeAll_cons, ih _ (fun v hv => hfree v (List.mem_cons_of_mem _ hv)) hlen]
    exact getElem?_writeAt_of_not_covers filler file w.1 (hfree w List.mem_cons_self) hi

theorem length_le_writeAll (filler : α) :
    ∀ (ws : List (Write α)) (file : List α), file.length ≤ (writeAll filler file ws).length := by
  intro ws
  induction ws with
  | nil => intro file; exact Nat.le_refl _
  | cons w ws ih =>
    intro file
    exact Nat.le_trans (length_le_writeAt filler file w.1 w.2) (ih _)

theorem lt_length_writeAll_of_covers (filler : α) {w : Write α} {i : Nat} :
    ∀ (ws : List (Write α)) (file : List α), w ∈ ws → w.Covers i →
      i < (writeAll filler file ws).length := by
  intro ws
  induction ws with
  | nil => intro file hw; cases hw
  | cons v ws ih =>
    intro file hw hi
    rw [writeAll_cons]
    rcases List.mem_cons.mp hw with rfl | hw
    · exact Nat.lt_of_lt_of_le (lt_length_writeAt_of_covers filler file hi)
        (length_le_writeAll filler ws _)
    · exact ih _ hw hi

theorem length_writeAll_le (filler : α) {n : Nat} :
    ∀ (ws : List (Write α)) (file : List α), (∀ w ∈ ws, w.2 ≠ [] → w.1 + w.2.length ≤ n) →
      file.length ≤ n → (writeAll filler file ws).length ≤ n := by
  intro ws
  induction ws with
  | nil => intro file _ hfile; exact hfile
  | cons w ws ih =>
    intro file hws hfile
    rw [writeAll_cons]
    refine ih _ (fun v hv => hws v (List.mem_cons_of_mem _ hv)) ?_
    by_cases hchunk : w.2 = []
    · rw [hchunk]; exact hfile
    · rw [length_writeAt filler file w.1 hchunk]
      exact Nat.max_le.mpr ⟨hfile, hws w List.mem_cons_self hchunk⟩

/-- Every cell that differs from the target is covered again by a later write. -/
def Corrected (target : List α) : List (Write α) → Prop
  | [] => True
  | w :: later =>
      (∀ i, w.Covers i → w.2[i - w.1]? ≠ target[i]? → ∃ v ∈ later, v.Covers i) ∧
        Corrected target later

/-- Writes that only store cells of the target leave nothing to correct. -/
theorem corrected_of_slices {target : List α} :
    ∀ {ws : List (Write α)}, (∀ w ∈ ws, ∀ i, w.Covers i → w.2[i - w.1]? = target[i]?) →
      Corrected target ws := by
  intro ws
  induction ws with
  | nil => intro _; exact trivial
  | cons w later ih =>
    intro hslice
    refine ⟨fun i hi hwrong => ?_, ih fun v hv => hslice v (List.mem_cons_of_mem _ hv)⟩
    exact absurd (hslice w List.mem_cons_self i hi) hwrong

/-- Under `Corrected`, a covered position ends up with the target's cell,
    whatever the file held before. -/
theorem getElem?_writeAll_of_corrected (filler : α) {target : List α} {i : Nat} :
    ∀ (ws : List (Write α)) (file : List α), Corrected target ws → (∃ w ∈ ws, w.Covers i) →
      (writeAll filler file ws)[i]? = target[i]? := by
  intro ws
  induction ws with
  | nil => intro file _ hcov; obtain ⟨w, hw, _⟩ := hcov; cases hw
  | cons w later ih =>
    intro file hcor hcov
    rw [writeAll_cons]
    by_cases hlater : ∃ v ∈ later, v.Covers i
    · exact ih _ hcor.2 hlater
    · -- `w` is the last write that covers `i`, so its cell survives and is right
      have hfree : ∀ v ∈ later, ¬ v.Covers i := fun v hv hvi => hlater ⟨v, hv, hvi⟩
      have hwi : w.Covers i := by
        obtain ⟨v, hv, hvi⟩ := hcov
        rcases List.mem_cons.mp hv with rfl | hv
        · exact hvi
        · exact absurd hvi (hfree v hv)
      have hcell : w.2[i - w.1]? = target[i]? :=
        Classical.byContradiction fun hwrong => hlater (hcor.1 i hwi hwrong)
      have hstored := getElem?_writeAt_of_covers filler file w.1 hwi
      have hin := lt_length_writeAt_of_covers filler file hwi
      rw [getElem?_writeAll_of_not_covers filler later _ hfree hin, hstored, hcell]

/-- A sequence of writes that ends in the target on the positions it covers has
    corrected each of its wrong cells. -/
theorem corrected_of_getElem? (filler : α) {target : List α} :
    ∀ (ws : List (Write α)) (file : List α),
      (∀ i, (∃ w ∈ ws, w.Covers i) → (writeAll filler file ws)[i]? = target[i]?) →
      Corrected target ws := by
  intro ws
  induction ws with
  | nil => intro _ _; exact trivial
  | cons w later ih =>
    intro file hend
    refine ⟨fun i hwi hwrong => ?_, ih (writeAt filler file w.1 w.2) fun i hi => ?_⟩
    · refine Classical.byContradiction fun hlater => hwrong ?_
      have hfree : ∀ v ∈ later, ¬ v.Covers i := fun v hv hvi => hlater ⟨v, hv, hvi⟩
      have hstored := getElem?_writeAt_of_covers filler file w.1 hwi
      have hin := lt_length_writeAt_of_covers filler file hwi
      have hkept := getElem?_writeAll_of_not_covers filler later _ hfree hin
      rw [← hstored, ← hkept]
      exact hend i ⟨w, List.mem_cons_self, hwi⟩
    · obtain ⟨v, hv, hvi⟩ := hi
      exact hend i ⟨v, List.mem_cons_of_mem _ hv, hvi⟩

/-- Under `Corrected` no write stores anything past the end of the target. -/
theorem Corrected.covers_lt (filler : α) {target : List α} {ws : List (Write α)}
    (hcor : Corrected target ws) {w : Write α} (hw : w ∈ ws) {i : Nat} (hi : w.Covers i) :
    i < target.length := by
  have hcell := getElem?_writeAll_of_corrected filler ws [] hcor ⟨w, hw, hi⟩
  have hin := lt_length_writeAll_of_covers filler ws [] hw hi
  rw [List.getElem?_eq_getElem hin] at hcell
  exact (List.getElem?_eq_some_iff.mp hcell.symm).1

/-- **Exact outcome of a covering sequence of writes.**  Writes that cover the
    target, performed on the empty file, produce the target iff each wrong cell
    is covered again later. -/
theorem writeAll_eq_iff_corrected (filler : α) {target : List α} {ws : List (Write α)}
    (hcover : ∀ i < target.length, ∃ w ∈ ws, w.Covers i) :
    writeAll filler [] ws = target ↔ Corrected target ws := by
  constructor
  · intro heq
    exact corrected_of_getElem? filler ws [] fun i _ => by rw [heq]
  · intro hcor
    have hlen : (writeAll filler [] ws).length ≤ target.length := by
      refine length_writeAll_le filler ws [] (fun w hw hchunk => ?_) (Nat.zero_le _)
      have hpos : 0 < w.2.length := List.length_pos_iff.mpr hchunk
      have hlast : w.Covers (w.1 + w.2.length - 1) :=
        ⟨by omega, by omega⟩
      have := hcor.covers_lt filler hw hlast
      omega
    apply List.ext_getElem?
    intro i
    by_cases hi : i < target.length
    · exact getElem?_writeAll_of_corrected filler ws [] hcor (hcover i hi)
    · rw [List.getElem?_eq_none (by omega), List.getElem?_eq_none (by omega)]

end SparseFile
