import Mathlib.Data.Fintype.Basic
import FurcateMesh.TransferCache

/-!
# Concurrent pulls of one digest

Several calls of `pull_with_options` for one digest share one cache directory, and
so one temp file name.  Their steps interleave in any order: the steps of each task,
and the moments at which the blocking pool lands the piece a call has in flight, which
may come after the call has returned.  A handle that one call opened keeps writing
into the same inode after another call has renamed the temp file.

A file is *checked* when it is installed at the digest, or is the temp file of a call
that has compared its root hash and not renamed it yet.  The calls are safe as long as
no step disturbs a checked file (`concurrent_pulls_verified`), that is

* no task opens the temp file between the root hash and the rename of another call,
* no piece that lands in a checked file changes it.

At the start there is nothing at the digest, or a file that hashes to it.

Nothing in the code rules either disturbance out: two calls can interleave so that one of
them returns the path of a file that the other has just emptied
(`concurrent_pull_returns_empty_file`).

The invariant says that every checked file hashes to the digest and that a path, once
returned, leads to the file at the digest.  A step can make a file checked in two ways, by
comparing its hash or by renaming it; in the first case the hash has just been computed from
what the file holds, in the second the file was checked before.  What remains is that the
contents of a checked file do not change, which is what `Undisturbing` asks of a step.
-/

namespace FurcateMesh.Transfer

open InodeStore SparseFile
open Relation (ReflTransGen)

structure System (ι : Type) where
  disk : Disk
  pull : ι → Pull

-- all calls are about to start on the same disk
def System.initial {ι : Type} (disk : Disk) : System ι := ⟨disk, fun _ => .start⟩

section Interleaving

variable {ι : Type} [DecidableEq ι]
variable (host : Host) (blake : Blake3) (codec : HeaderCodec) (calls : ι → PullCall)

inductive System.StepBy (i : ι) (thread : Thread) : System ι → System ι → Prop
  | move {s : System ι} {pull : Pull} {op : DiskOp} (io : Io)
      (h : pullStep host blake codec (calls i) thread io s.disk (s.pull i) = some (pull, op)) :
      System.StepBy i thread s ⟨s.disk.apply 0 op, Function.update s.pull i pull⟩

def System.Step (s s' : System ι) : Prop :=
  ∃ i thread, System.StepBy host blake codec calls i thread s s'

variable (digest : String)

/-- The inode is the file at the digest, or the temp file of a call that has
    checked the root hash and has not renamed yet. -/
def System.Checked (s : System ι) (n : Nat) : Prop :=
  (host.locate digest).bind s.disk.entry = some n ∨
    (∃ j, (s.pull j).pc = .renameTemp) ∧ (host.locate (tempPath digest)).bind s.disk.entry = some n

/-- The next step of a thread of call `i` leaves checked files alone.  The task does
    not open the temp file while a call stands between its root hash and its rename,
    and what the pool lands in a checked file is what the file holds there already. -/
def System.Undisturbing (s : System ι) (i : ι) : Thread → Prop
  | .task => (s.pull i).pc = .openTemp → ∀ j, (s.pull j).pc ≠ .renameTemp
  | .pool => ∀ q ∈ (s.pull i).queued, s.Checked host digest q.handle →
      writeAt 0 (s.disk.data q.handle) q.offset q.bytes = s.disk.data q.handle

def System.UndisturbedStep (s s' : System ι) : Prop :=
  ∃ i thread, s.Undisturbing host digest i thread ∧
    System.StepBy host blake codec calls i thread s s'

/-- The invariant of the interleaving: every checked file hashes to the digest,
    and a call that returned a path returned the digest's, where a file is. -/
structure System.Inv (s : System ι) : Prop where
  checked : ∀ n, s.Checked host digest n → chunkHash blake (s.disk.data n) = digest
  returned : ∀ i path, (s.pull i).pc = .done (.ok path) → path = digest ∧
    ∃ n, (host.locate digest).bind s.disk.entry = some n

variable {host blake codec calls digest}

/-! ### One step -/

omit [DecidableEq ι] in
theorem System.Inv.verifiedFile {s : System ι} (hinv : s.Inv host blake digest)
    (hwalk : host.walk digest = none) {i : ι} {path : String}
    (hdone : (s.pull i).pc = .done (.ok path)) : VerifiedFile host blake s.disk path digest := by
  obtain ⟨rfl, n, hentry⟩ := hinv.returned i path hdone
  refine ⟨hwalk, s.disk.data n, ?_, fun sched => ?_⟩
  · obtain ⟨loc, hloc, hn⟩ := Option.bind_eq_some_iff.mp hentry
    rw [Host.readFile, hloc, Option.bind_some, Store.read, hn, Option.map_some]
  · rw [rootHash_eq_chunkHash]
    exact hinv.checked n (Or.inl hentry)

/-- An operation on the temp file's own entry leaves the digest's entry alone. -/
theorem bind_entry_of_ne {disk disk' : Disk} {temp : Loc}
    (htemp : host.locate (tempPath digest) = some temp)
    (hframe : ∀ loc, loc ≠ temp → disk'.entry loc = disk.entry loc) :
    (host.locate digest).bind disk'.entry = (host.locate digest).bind disk.entry := by
  cases hloc : host.locate digest with
  | none => rfl
  | some loc => exact hframe loc (locate_ne_tempPath hloc htemp)

theorem create_entry_of_ne (disk : Disk) {temp loc : Loc} (hne : loc ≠ temp) :
    (disk.create temp).entry loc = disk.entry loc := Function.update_of_ne hne _ _

theorem unlink_entry_of_ne (disk : Disk) {temp loc : Loc} (hne : loc ≠ temp) :
    (disk.unlink temp).entry loc = disk.entry loc := Function.update_of_ne hne _ _

/-- After the rename the digest's entry is the temp file's old one, and the temp
    file has none. -/
theorem bind_entry_rename (disk : Disk) {src dst : Loc}
    (hsrc : host.locate (tempPath digest) = some src) (hdst : host.locate digest = some dst) :
    (host.locate digest).bind (disk.rename src dst).entry = disk.entry src ∧
      (host.locate (tempPath digest)).bind (disk.rename src dst).entry = none := by
  have hne := locate_ne_tempPath hdst hsrc
  constructor
  · simp only [hdst, Option.bind_some, Store.rename, Store.renameEntry, if_true]
  · simp only [hsrc, Option.bind_some, Store.rename, Store.renameEntry, if_neg (Ne.symm hne),
      if_true]

theorem entry_persists {disk : Disk} {call : PullCall} {s s' : Pull} {thread : Thread} {op : DiskOp}
    (hmove : PullMove host blake call disk s thread s' op) {n : Nat}
    (hentry : (host.locate call.digest).bind disk.entry = some n) :
    ∃ n', (host.locate call.digest).bind (disk.apply 0 op).entry = some n' := by
  cases hmove with
  | create temp hpc htemp =>
    exact ⟨n, by rw [← hentry]; exact bind_entry_of_ne htemp fun _ => create_entry_of_ne disk⟩
  | remove error temp hpc htemp =>
    exact ⟨n, by rw [← hentry]; exact bind_entry_of_ne htemp fun _ => unlink_entry_of_ne disk⟩
  | rename src dst i hpc hwalk hsrc hdst hsrcEntry =>
    exact ⟨i, by rw [← hsrcEntry]; exact (bind_entry_rename disk hsrc hdst).1⟩
  | _ => exact ⟨n, hentry⟩

/-- A call that has returned a path after a step had returned it before, or returns the
    digest's now, where a file is. -/
theorem returned_of_move {disk : Disk} {call : PullCall} {s s' : Pull} {thread : Thread}
    {op : DiskOp} {path : String} (hwalk : host.walk call.digest = none)
    (hmove : PullMove host blake call disk s thread s' op) (hdone : s'.pc = .done (.ok path)) :
    s.pc = .done (.ok path) ∨ path = call.digest ∧
      ∃ n, (host.locate call.digest).bind (disk.apply 0 op).entry = some n := by
  cases hmove with
  | cached hpc hexists =>
    cases hdone
    simp only [Host.pathExists, hwalk, Option.isSome_none, Bool.false_or, Host.readFile] at hexists
    obtain ⟨file, hfile⟩ := Option.isSome_iff_exists.mp hexists
    obtain ⟨loc, hloc, hread⟩ := Option.bind_eq_some_iff.mp hfile
    obtain ⟨n, hentry, _⟩ := Store.read_eq_some_iff.mp hread
    exact .inr ⟨rfl, n, by rw [hloc]; exact hentry⟩
  | keep handle pc hpc hpc' =>
    obtain rfl : pc = .done (.ok path) := hdone
    cases hpc'
  | handed q pc hpc hpc' =>
    obtain rfl : pc = .done (.ok path) := hdone
    cases hpc'
  | landed => exact .inl hdone
  | rename src dst i hpc _ hsrc hdst hentry =>
    cases hdone
    exact .inr ⟨rfl, i, by rw [← hentry]; exact (bind_entry_rename disk hsrc hdst).1⟩
  | _ => cases hdone

/-- A step that neither checks a file nor touches an entry checks no inode that was
    not checked before. -/
theorem System.Checked.of_update {s : System ι} {i : ι} {pull : Pull} {disk' : Disk} {n : Nat}
    (hpull : pull.pc = .renameTemp → (s.pull i).pc = .renameTemp)
    (hentry : disk'.entry = s.disk.entry)
    (h : System.Checked host digest ⟨disk', Function.update s.pull i pull⟩ n) :
    s.Checked host digest n := by
  unfold System.Checked at h ⊢
  rw [← hentry]
  rcases h with h | ⟨⟨j, hj⟩, h⟩
  · exact Or.inl h
  · refine Or.inr ⟨⟨j, ?_⟩, h⟩
    by_cases hji : j = i
    · subst hji
      exact hpull (by simpa using hj)
    · simpa [Function.update_of_ne hji] using hj

/-- While a call opens the temp file, only the file at the digest is checked. -/
theorem System.Checked.of_open {s : System ι} {i : ι} {pull : Pull} {disk' : Disk} {n : Nat}
    (hopens : ∀ j, (s.pull j).pc ≠ .renameTemp) (hpull : pull.pc ≠ .renameTemp)
    (h : System.Checked host digest ⟨disk', Function.update s.pull i pull⟩ n) :
    (host.locate digest).bind disk'.entry = some n := by
  rcases h with h | ⟨⟨j, hj⟩, _⟩
  · exact h
  · by_cases hji : j = i
    · subst hji
      exact absurd (by simpa using hj) hpull
    · exact absurd (by simpa [Function.update_of_ne hji] using hj) (hopens j)

/-- **An undisturbing step keeps every checked file verified.** -/
theorem System.Inv.checked_step {s : System ι} {i : ι} {thread : Thread} {pull : Pull} {op : DiskOp}
    (hdigest : (calls i).digest = digest) (hinv : s.Inv host blake digest)
    (hquiet : s.Undisturbing host digest i thread)
    (hmove : PullMove host blake (calls i) s.disk (s.pull i) thread pull op) {n : Nat}
    (hn : System.Checked host digest ⟨s.disk.apply 0 op, Function.update s.pull i pull⟩ n) :
    chunkHash blake ((s.disk.apply 0 op).data n) = digest := by
  subst hdigest
  cases hmove with
  | truncate temp k hpc htemp hentry =>
    have hold := hn.of_open (hquiet hpc) (by simp)
    have hnk : n ≠ k := by
      rintro rfl
      obtain ⟨loc, hloc, hn⟩ := Option.bind_eq_some_iff.mp hold
      exact locate_ne_tempPath hloc htemp (s.disk.single _ _ _ hn hentry)
    simp only [Store.apply, Store.setData, Function.update_of_ne hnk]
    exact hinv.checked n (Or.inl hold)
  | create temp hpc htemp hentry =>
    have hold := hn.of_open (hquiet hpc) (by simp)
    rw [Store.apply, bind_entry_of_ne htemp fun _ => create_entry_of_ne s.disk] at hold
    obtain ⟨loc, _, hn⟩ := Option.bind_eq_some_iff.mp hold
    simp only [Store.apply, Store.create,
      Function.update_of_ne (Nat.ne_of_lt (s.disk.allocated _ _ hn))]
    exact hinv.checked n (Or.inl hold)
  | keep handle pc _ hpc' =>
    exact hinv.checked n (hn.of_update (fun h => absurd h (Pc.ne_of_handle hpc').2) rfl)
  | handed q pc _ hpc' =>
    exact hinv.checked n (hn.of_update (fun h => absurd h (Pc.ne_of_handle hpc').2) rfl)
  | landed q stored error hqueued hstored =>
    have hold : s.Checked host (calls i).digest n := by
      refine hn.of_update (fun hpc => ?_) rfl
      exact hpc
    simp only [Store.apply, Store.setData]
    by_cases hnq : n = q.handle
    · -- the piece stores what the checked file already holds
      subst hnq
      rw [Function.update_self, writeAt_eq_self_of_prefix 0 (hquiet q hqueued hold) hstored]
      exact hinv.checked _ hold
    · rw [Function.update_of_ne hnq]
      exact hinv.checked n hold
  | verified file hpc hread hhash =>
    rcases hn with hn | ⟨_, hn⟩
    · exact hinv.checked n (Or.inl hn)
    · obtain ⟨loc, hloc, hn⟩ := Option.bind_eq_some_iff.mp hn
      rw [Host.readFile, hloc, Option.bind_some] at hread
      obtain ⟨n', hn', hfile⟩ := Store.read_eq_some_iff.mp hread
      have hsame : n' = n := Option.some.inj (hn'.symm.trans hn)
      rw [← hhash, ← hfile, hsame]
      rfl
  | remove error temp hpc htemp =>
    rcases hn with hn | ⟨_, hn⟩
    · rw [Store.apply, bind_entry_of_ne htemp fun _ => unlink_entry_of_ne s.disk] at hn
      exact hinv.checked n (Or.inl hn)
    · simp only [htemp, Option.bind_some, Store.apply, Store.unlink, Function.update_self] at hn
      cases hn
  | rename src dst k hpc hwalk hsrc hdst hentry =>
    obtain ⟨hfinal, htemp⟩ := bind_entry_rename s.disk hsrc hdst
    rcases hn with hn | ⟨_, hn⟩
    · -- the installed inode is the temp file this call has checked
      rw [Store.apply, hfinal] at hn
      exact hinv.checked n (Or.inr ⟨⟨i, hpc⟩, by rw [hsrc]; exact hn⟩)
    · rw [Store.apply, htemp] at hn
      cases hn
  | _ => exact hinv.checked n (hn.of_update (by simp) rfl)

theorem System.Inv.step {s s' : System ι} (hdigest : ∀ i, (calls i).digest = digest)
    (hwalk : host.walk digest = none) (hinv : s.Inv host blake digest)
    (hstep : System.UndisturbedStep host blake codec calls digest s s') :
    s'.Inv host blake digest := by
  obtain ⟨i, thread, hquiet, hmoved⟩ := hstep
  cases hmoved with
  | @move pull op io h =>
    have hmove := pullStep_move h
    refine ⟨fun n hn => hinv.checked_step (hdigest i) hquiet hmove hn, fun j path hj => ?_⟩
    have hkept : ∀ k, (s.pull k).pc = .done (.ok path) → path = digest ∧
        ∃ n, (host.locate digest).bind (s.disk.apply 0 op).entry = some n := by
      intro k hk
      obtain ⟨hpath, n, hentry⟩ := hinv.returned k path hk
      rw [← hdigest i] at hentry ⊢
      exact ⟨by rw [hpath, hdigest i], entry_persists hmove hentry⟩
    by_cases hji : j = i
    · subst hji
      simp only [Function.update_self] at hj
      rcases returned_of_move (by rw [hdigest j]; exact hwalk) hmove hj with hbefore | hnow
      · exact hkept j hbefore
      · rw [hdigest j] at hnow
        exact hnow
    · simp only [Function.update_of_ne hji] at hj
      exact hkept j hj

variable (host blake codec calls digest)

/-- **Concurrent pulls that do not disturb a checked file are safe.**  Any number
    of calls for one digest start on a disk where that digest is absent or
    verified.  If no step disturbs a checked file, then in every state reached the
    path of every call that has returned one is a verified file. -/
theorem concurrent_pulls_verified (hdigest : ∀ i, (calls i).digest = digest) {disk : Disk}
    (hdisk : host.pathExists disk digest = true → VerifiedFile host blake disk digest digest)
    {s : System ι}
    (hrun : ReflTransGen (System.UndisturbedStep host blake codec calls digest)
      (System.initial disk) s)
    {i : ι} {path : String} (hdone : (s.pull i).pc = .done (.ok path)) :
    VerifiedFile host blake s.disk path digest := by
  have hwalk : host.walk digest = none := by
    cases hdir : host.walk digest with
    | none => rfl
    | some dir =>
      obtain ⟨hnone, _⟩ := hdisk (by rw [Host.pathExists, hdir]; rfl)
      rw [hdir] at hnone
      exact hnone
  have hinit : (System.initial disk : System ι).Inv host blake digest := by
    refine ⟨fun n hn => ?_, fun j path hj => by cases hj⟩
    rcases hn with hn | ⟨⟨j, hj⟩, _⟩
    · obtain ⟨loc, hloc, hentry⟩ := Option.bind_eq_some_iff.mp hn
      have hread : host.readFile disk digest = some (disk.data n) := by
        rw [Host.readFile, hloc, Option.bind_some]
        exact Store.read_eq_some_iff.mpr ⟨n, hentry, rfl⟩
      obtain ⟨_, file, hfile, hhash⟩ :=
        hdisk (by rw [Host.pathExists, hread, Option.isSome_some, Bool.or_true])
      rw [hread, Option.some.injEq] at hfile
      rw [← hhash fun _ => 1, rootHash_eq_chunkHash, ← hfile]
      rfl
    · cases hj
  have hinv := Runs.invariant (System.Inv host blake digest)
    (fun _ _ hinv hstep => hinv.step hdigest hwalk hstep) hinit hrun
  exact hinv.verifiedFile hwalk hdone

/-! ### Running a schedule -/

instance [Fintype ι] (s : System ι) (n : Nat) : Decidable (s.Checked host digest n) :=
  inferInstanceAs (Decidable (_ ∨ (_ ∧ _)))

instance [Fintype ι] (s : System ι) (i : ι) (thread : Thread) :
    Decidable (s.Undisturbing host digest i thread) :=
  match thread with
  | .task => inferInstanceAs (Decidable (_ → ∀ _, _ ≠ _))
  | .pool => inferInstanceAs (Decidable (∀ q ∈ _, _ → _ = _))

def System.schedule : List ι → System ι → System ι
  | [], s => s
  | i :: rest, s =>
      match pullStep host blake codec (calls i) ((s.pull i).thread (calls i)) .ok s.disk
          (s.pull i) with
      | none => System.schedule rest s
      | some (pull, op) =>
          System.schedule rest ⟨s.disk.apply 0 op, Function.update s.pull i pull⟩

/-- The same schedule, refused when a step would disturb a checked file. -/
def System.quietSchedule [Fintype ι] : List ι → System ι → Option (System ι)
  | [], s => some s
  | i :: rest, s =>
      if s.Undisturbing host digest i ((s.pull i).thread (calls i)) then
        match pullStep host blake codec (calls i) ((s.pull i).thread (calls i)) .ok s.disk
            (s.pull i) with
        | none => System.quietSchedule rest s
        | some (pull, op) =>
            System.quietSchedule rest ⟨s.disk.apply 0 op, Function.update s.pull i pull⟩
      else none

theorem System.schedule_run :
    ∀ (order : List ι) (s : System ι),
      ReflTransGen (System.Step host blake codec calls) s
        (System.schedule host blake codec calls order s) := by
  intro order
  induction order with
  | nil => intro s; exact .refl
  | cons i rest ih =>
    intro s
    rw [System.schedule]
    split
    · exact ih s
    · rename_i pull op hstep
      exact .head ⟨i, _, .move .ok hstep⟩ (ih _)

theorem System.quietSchedule_run [Fintype ι] :
    ∀ {order : List ι} {s s' : System ι},
      System.quietSchedule host blake codec calls digest order s = some s' →
      ReflTransGen (System.UndisturbedStep host blake codec calls digest) s s' := by
  intro order
  induction order with
  | nil => intro s s' h; cases h; exact .refl
  | cons i rest ih =>
    intro s s' h
    rw [System.quietSchedule] at h
    split at h
    · rename_i hquiet
      split at h
      · exact ih h
      · rename_i pull op hstep
        exact .head ⟨i, _, hquiet, .move .ok hstep⟩ (ih h)
    · cases h

end Interleaving

namespace Sample

def rivals : Bool → PullCall
  | true => goodCall
  | false => call digest []

def checkedOrder : List Bool :=
  [true, true, false, false, true, true, true, true, true, true, true, true, true, true]

/-- The second call opens the temp file after the first has renamed it away. -/
def polite : Option (System Bool) :=
  System.quietSchedule host blake3 codec rivals digest (checkedOrder ++ [true, false])
    (System.initial disk)

/-- The second call opens the temp file between the root hash and the rename of
    the first. -/
def rude : System Bool :=
  System.schedule host blake3 codec rivals (checkedOrder ++ [false, true]) (System.initial disk)

end Sample

theorem concurrent_pulls_verified_polite :
    ∃ s, Sample.polite = some s ∧ (s.pull true).pc = .done (.ok Sample.digest) ∧
      VerifiedFile Sample.host Sample.blake3 s.disk Sample.digest Sample.digest := by
  have hpc : Sample.polite.map (fun s => (s.pull true).pc) = some (.done (.ok Sample.digest)) := by
    decide +kernel
  obtain ⟨s, hs, hdone⟩ := Option.map_eq_some_iff.mp hpc
  have hmissing : Sample.host.pathExists Sample.disk Sample.digest = false := by decide +kernel
  refine ⟨s, hs, hdone, ?_⟩
  exact concurrent_pulls_verified Sample.host Sample.blake3 Sample.codec Sample.rivals Sample.digest
    (fun i => by cases i <;> rfl) (fun h => by rw [hmissing] at h; cases h)
    (System.quietSchedule_run _ _ _ _ _ hs) hdone

/-- Two calls for one digest on an empty cache: one returns its path, and the file
    there is the empty file the other has just truncated. -/
theorem concurrent_pull_returns_empty_file :
    ReflTransGen (System.Step Sample.host Sample.blake3 Sample.codec Sample.rivals)
        (System.initial Sample.disk) Sample.rude ∧
      (Sample.rude.pull true).pc = .done (.ok Sample.digest) ∧
      Sample.host.readFile Sample.rude.disk Sample.digest = some [] ∧
      ¬ VerifiedFile Sample.host Sample.blake3 Sample.rude.disk Sample.digest Sample.digest := by
  have hread : Sample.host.readFile Sample.rude.disk Sample.digest = some [] := by decide +kernel
  refine ⟨System.schedule_run _ _ _ _ _ _, by decide +kernel, hread, ?_⟩
  rintro ⟨_, file, hfile, hhash⟩
  rw [hread, Option.some.injEq] at hfile
  have hempty := hhash fun _ => CHUNK_SIZE
  rw [← hfile, rootHash_eq_chunkHash] at hempty
  exact absurd hempty (by decide +kernel)

end FurcateMesh.Transfer
