import FurcateMesh.Library.ContentStore
import FurcateMesh.TransferSession

/-!
# Cache integrity over whole runs

Calls to `pull_with_options` run one after another on one cache directory.  A call
may be dropped at any step, and the process may die at any step; the next call then
starts on whatever the disk holds.

The abstract cache is the map of the names that do not end in `.partial`, and it is
a write-once content-addressed store.  `World.simulates` shows that a step of a call
either leaves it alone or installs one file under its own digest.

One thing can break this.  A call that returns early, or is dropped, closes its temp
file with a piece still in flight, and the blocking pool stores that piece later.  If
the next call opens the same temp file before that, fills it, hashes it and renames
it, the late piece lands in a file that is already installed.  `World` therefore keeps
the pieces of ended calls (`adrift`), and `World.Settled` says what the integrity of
the cache depends on: a task does not open a temp file while such a piece is in flight
for it.

The invariant is about inodes.  An inode is loose if it is allocated and no name of the
abstract cache leads to it; the handle of the call in progress and every piece in flight are
for loose inodes (`CallInv`, `World.Inv`), so nothing that is still to be written can change
an installed file.  The rename is the one step that makes an inode cease to be loose, and the
call has compared its root hash before and has nothing in flight there.

* `cache_integrity`: in every run whose steps are settled, every installed file hashes
  to its name in every state, and no later settled step changes or removes it.
* `late_write_spoils_installed_file`: two calls without any fault, the second of which
  opens the temp file while a piece of the first is in flight for it.
* `pull_ok_verified_iff`: under the same condition a call returns only verified files
  iff it is asked for a hex digest or finds nothing at its path.

The sample worlds follow two stories.  In the first, `lateCall` pulls the digest of `a`, is
sent the chunk `b` and then an error, and returns with `b` in flight (`overtaken`); the next
call installs `a` in the same temp file (`installed`), and then `b` lands (`overwritten`).  In
the second, a failed pull of the name `x` leaves `x.partial`, which is then asked for by name.
-/

namespace FurcateMesh.Transfer

open InodeStore
open Relation (ReflTransGen)

/-- The disk, the call in progress, and the pieces that calls which have ended left
    in flight. -/
structure World where
  disk : Disk
  active : Option (PullCall × Pull)
  adrift : List QueuedWrite

section Runs

variable (host : Host) (blake : Blake3) (codec : HeaderCodec)

/-- The process does not act: the call in progress takes a step of one of its threads,
    the task only where `allowed` lets it, or a piece of an ended call lands. -/
inductive World.Advance (allowed : World → Prop) : World → World → Prop
  | step {disk : Disk} {call : PullCall} {s s' : Pull} {op : DiskOp} {adrift : List QueuedWrite}
      (thread : Thread) (io : Io)
      (hallowed : thread = .task → allowed ⟨disk, some (call, s), adrift⟩)
      (h : pullStep host blake codec call thread io disk s = some (s', op)) :
      World.Advance allowed ⟨disk, some (call, s), adrift⟩
        ⟨disk.apply 0 op, some (call, s'), adrift⟩
  | land {disk : Disk} {active : Option (PullCall × Pull)} (before : List QueuedWrite)
      (q : QueuedWrite) (after : List QueuedWrite) (io : Io) :
      World.Advance allowed ⟨disk, active, before ++ q :: after⟩
        ⟨disk.apply 0 (q.land host io).2, active, before ++ after⟩

def World.inFlight (w : World) : List QueuedWrite :=
  (w.active.bind fun call => call.2.queued).toList ++ w.adrift

-- a call that is still in progress is dropped, and its piece in flight goes adrift
def World.start (w : World) (call : PullCall) : World :=
  ⟨w.disk, some (call, .start), w.inFlight⟩

-- nothing that is in flight survives the process
def World.crash (w : World) : World := ⟨w.disk, none, []⟩

inductive World.Step (allowed : World → Prop) : World → World → Prop
  | start (w : World) (call : PullCall) : World.Step allowed w (w.start call)
  | crash (w : World) : World.Step allowed w w.crash
  | advance {w w' : World} (h : World.Advance host blake codec allowed w w') :
      World.Step allowed w w'

/-- If the task is about to open its temp file, no piece of an ended call is in flight
    for the file that is there. -/
def World.Settled (w : World) : Prop :=
  ∀ call s, w.active = some (call, s) → s.pc = .openTemp →
    ∀ loc i, host.locate (tempPath call.digest) = some loc → w.disk.entry loc = some i →
      ∀ q ∈ w.adrift, q.handle ≠ i

/-! ### The abstract cache -/

/-- The cache as a map from names to contents, without the temp files. -/
def sealedFiles (disk : Disk) (name : String) : Option Bytes :=
  if IsPartial name then none else disk.read (CACHE, name)

def EmptyCache (disk : Disk) : Prop := ∀ name, disk.entry (CACHE, name) = none

def Unsealed (disk : Disk) (i : Nat) : Prop :=
  ∀ name, disk.entry (CACHE, name) = some i → IsPartial name

-- an inode that may still be written to
def Loose (disk : Disk) (i : Nat) : Prop := i < disk.next ∧ Unsealed disk i

/-- Program points after the temp file was opened and before the return. -/
def Pc.Opened : Pc → Prop
  | .get _ | .recv _ _ _ _ | .seek _ _ _ _ _ | .write _ _ _ _ _ _ | .flush _ | .hashTemp
  | .renameTemp => True
  | _ => False

def Pull.Holds (s : Pull) (i : Nat) : Prop :=
  s.pc.handle = some i ∨ ∃ q, s.queued = some q ∧ q.handle = i

structure CallInv (disk : Disk) (call : PullCall) (s : Pull) : Prop where
  absent : s.pc = .openTemp ∨ s.pc.Opened → host.pathExists disk call.digest = false
  holds : ∀ i, s.Holds i → Loose disk i
  idle : s.pc = .hashTemp ∨ s.pc = .renameTemp → s.queued = none
  verified : s.pc = .renameTemp → ∃ file, host.readFile disk (tempPath call.digest) = some file ∧
    chunkHash blake file = call.digest
  returned : ∀ path, s.pc = .done (.ok path) → path = call.digest ∧
    host.pathExists disk call.digest = true

/-- The invariant of a world: its cache is content-addressed, the call in progress is
    where its disk says it can be, and no piece of an ended call is in flight for a
    file of the cache or for the temp file of the call. -/
structure World.Inv (w : World) : Prop where
  addressed : ContentStore.Addressed (chunkHash blake) (sealedFiles w.disk)
  call : ∀ call s, w.active = some (call, s) → CallInv host blake w.disk call s
  adrift : ∀ q ∈ w.adrift, Loose w.disk q.handle
  apart : ∀ call s, w.active = some (call, s) → s.pc.Opened →
    ∀ loc i, host.locate (tempPath call.digest) = some loc → w.disk.entry loc = some i →
      ∀ q ∈ w.adrift, q.handle ≠ i

/-! ### Disk operations against the abstract cache -/

variable {host blake codec}

theorem sealedFiles_setData {disk : Disk} {i : Nat} (hi : Unsealed disk i) (file : Bytes) :
    sealedFiles (disk.setData i file) = sealedFiles disk := by
  funext name
  unfold sealedFiles
  by_cases hname : IsPartial name
  · rw [if_pos hname, if_pos hname]
  · rw [if_neg hname, if_neg hname]
    exact disk.read_setData_of_ne file fun hentry => hname (hi name hentry)

theorem sealedFiles_create {disk : Disk} {loc : Loc} (hloc : IsPartial loc.2) :
    sealedFiles (disk.create loc) = sealedFiles disk := by
  funext name
  unfold sealedFiles
  by_cases hname : IsPartial name
  · rw [if_pos hname, if_pos hname]
  · rw [if_neg hname, if_neg hname]
    exact disk.read_create_of_ne fun h => hname (by rw [← h] at hloc; exact hloc)

theorem sealedFiles_unlink {disk : Disk} {loc : Loc} (hloc : IsPartial loc.2) :
    sealedFiles (disk.unlink loc) = sealedFiles disk := by
  funext name
  unfold sealedFiles
  by_cases hname : IsPartial name
  · rw [if_pos hname, if_pos hname]
  · rw [if_neg hname, if_neg hname]
    exact disk.read_unlink_of_ne fun h => hname (by rw [← h] at hloc; exact hloc)

/-- Renaming a verified temp file to its free digest seals one value. -/
theorem sealedFiles_rename {disk : Disk} {src : Loc} {digest : String} {file : Bytes}
    (hsrc : IsPartial src.2) (hdigest : IsHexDigest digest)
    (hfree : disk.read (CACHE, digest) = none) (hread : disk.read src = some file)
    (hhash : chunkHash blake file = digest) :
    ContentStore.Step (chunkHash blake) (sealedFiles disk)
      (sealedFiles (disk.rename src (CACHE, digest))) := by
  have hsealed := not_isPartial_of_isHexDigest hdigest
  refine .sealed file ?_ ?_ fun name hname => ?_
  · rw [hhash, sealedFiles, if_neg hsealed, hfree]
  · rw [hhash, sealedFiles, if_neg hsealed, disk.read_rename_dst, hread]
  · unfold sealedFiles
    by_cases hpartial : IsPartial name
    · rw [if_pos hpartial, if_pos hpartial]
    · rw [if_neg hpartial, if_neg hpartial]
      refine disk.read_rename_of_ne (fun h => ?_) fun h => ?_
      · rw [← h] at hsrc
        exact hpartial hsrc
      · rw [hhash] at hname
        exact hname (Prod.mk.inj h).2

theorem unsealed_of_entry {disk : Disk} {loc : Loc} {i : Nat} (hloc : IsPartial loc.2)
    (hentry : disk.entry loc = some i) : Unsealed disk i := by
  intro name hname
  have hsame := disk.single _ _ i hname hentry
  rw [← hsame] at hloc
  exact hloc

theorem unsealed_create {disk : Disk} {loc : Loc} (hloc : IsPartial loc.2) :
    Unsealed (disk.create loc) disk.next :=
  unsealed_of_entry hloc (by simp only [Store.create, Function.update_self])

/-- The temp file is never the file at the digest itself. -/
theorem locate_ne_tempPath {digest : String} {loc temp : Loc}
    (hloc : host.locate digest = some loc)
    (htemp : host.locate (tempPath digest) = some temp) : loc ≠ temp := by
  obtain ⟨dir, hdir, rfl⟩ := Host.locate_tempPath htemp
  rw [hloc, Option.some.injEq] at hdir
  rw [hdir]
  intro h
  have hlen := congrArg (fun name => name.toList.length) (Prod.mk.inj h).2
  simp only [String.toList_append, List.length_append] at hlen
  have hpos : PARTIAL.toList.length = 8 := by decide
  omega

/-! ### Inodes that may still be written to -/

theorem Loose.of_entry {disk disk' : Disk} {i : Nat} (h : Loose disk i)
    (hnext : disk.next ≤ disk'.next)
    (hentry : ∀ name, disk'.entry (CACHE, name) = some i →
      IsPartial name ∨ disk.entry (CACHE, name) = some i) : Loose disk' i := by
  refine ⟨Nat.lt_of_lt_of_le h.1 hnext, fun name hname => ?_⟩
  rcases hentry name hname with hpartial | hold
  · exact hpartial
  · exact h.2 name hold

/-- What a move leaves loose: every inode but the one it renames. -/
theorem PullMove.loose {disk : Disk} {call : PullCall} {s s' : Pull} {thread : Thread}
    {op : DiskOp} (hmove : PullMove host blake call disk s thread s' op) {i : Nat}
    (hi : Loose disk i)
    (hrename : s.pc = .renameTemp →
      ∀ loc, host.locate (tempPath call.digest) = some loc → disk.entry loc ≠ some i) :
    Loose (disk.apply 0 op) i := by
  cases hmove with
  | truncate loc j hpc hloc hentry => exact hi
  | create loc hpc hloc hentry =>
    refine hi.of_entry (Nat.le_succ _) fun name hname => ?_
    by_cases hsame : (CACHE, name) = loc
    · have hpartial := Host.locate_tempPath_isPartial hloc
      rw [← hsame] at hpartial
      exact .inl hpartial
    · simp only [Store.apply, Store.create, Function.update_of_ne hsame] at hname
      exact .inr hname
  | remove error loc hpc hloc =>
    refine hi.of_entry (Nat.le_refl _) fun name hname => ?_
    by_cases hsame : (CACHE, name) = loc
    · simp only [Store.apply, Store.unlink, hsame, Function.update_self] at hname
      cases hname
    · simp only [Store.apply, Store.unlink, Function.update_of_ne hsame] at hname
      exact .inr hname
  | rename src dst j hpc hwalk hsrc hdst hentry =>
    refine hi.of_entry (Nat.le_refl _) fun name hname => ?_
    simp only [Store.apply, Store.rename, Store.renameEntry] at hname
    split at hname
    · exact absurd hname (hrename hpc src hsrc)
    · split at hname
      · cases hname
      · exact .inr hname
  | _ => exact hi

theorem Pc.opened_of_handle {pc : Pc} {i : Nat} (h : pc.handle = some i) : pc.Opened := by
  cases pc <;> trivial

theorem Pc.ne_of_handle {pc : Pc} {i : Nat} (h : pc.handle = some i) :
    pc ≠ .hashTemp ∧ pc ≠ .renameTemp := by
  constructor
  all_goals
    rintro rfl
    cases h

/-- A call that has ended, or is about to, still holds the piece in flight. -/
theorem CallInv.idle_at {disk : Disk} {call : PullCall} {s : Pull}
    (hholds : ∀ q, s.queued = some q → Loose disk q.handle) (hpc : ¬ s.pc.Opened)
    (hopen : s.pc ≠ .openTemp) (hreturned : ∀ path, s.pc ≠ .done (.ok path)) :
    CallInv host blake disk call s where
  absent h := (h.elim hopen hpc).elim
  holds i h := by
    rcases h with hhandle | ⟨q, hqueued, rfl⟩
    · exact absurd (Pc.opened_of_handle hhandle) hpc
    · exact hholds q hqueued
  idle h := by
    rcases h with h | h
    all_goals exact absurd (h ▸ trivial) hpc
  verified h := absurd (h ▸ trivial) hpc
  returned path h := absurd h (hreturned path)

theorem CallInv.flying {disk : Disk} {call : PullCall} {s : Pull} {i : Nat}
    (hhandle : s.pc.handle = some i) (habsent : host.pathExists disk call.digest = false)
    (hholds : ∀ i, s.Holds i → Loose disk i) : CallInv host blake disk call s where
  absent _ := habsent
  holds := hholds
  idle h := (h.elim (Pc.ne_of_handle hhandle).1 (Pc.ne_of_handle hhandle).2).elim
  verified h := absurd h (Pc.ne_of_handle hhandle).2
  returned _ h := by rw [h] at hhandle; cases hhandle

theorem Pull.holds_to {s : Pull} {pc : Pc} {i : Nat} (hpc : ∀ j, pc.handle = some j → s.Holds j)
    (h : (s.to pc).Holds i) : s.Holds i := by
  rcases h with hhandle | hqueued
  · exact hpc i hhandle
  · exact .inr hqueued

/-- The disk under a call that keeps its handle changes in the inode of a piece only. -/
theorem CallInv.setData {disk : Disk} {call : PullCall} {s : Pull}
    (hinv : CallInv host blake disk call s) (i : Nat) (file : Bytes)
    (hverified : s.pc = .renameTemp →
      host.readFile (disk.setData i file) (tempPath call.digest) =
        host.readFile disk (tempPath call.digest)) :
    CallInv host blake (disk.setData i file) call s where
  absent h := by rw [Host.pathExists_setData]; exact hinv.absent h
  holds := hinv.holds
  idle := hinv.idle
  verified h := by rw [hverified h]; exact hinv.verified h
  returned path h := by rw [Host.pathExists_setData]; exact hinv.returned path h

/-- The rename installs what was verified, under a name that was free. -/
theorem CallInv.rename {disk : Disk} {call : PullCall} {s : Pull} {src dst : Loc}
    (hinv : CallInv host blake disk call s) (hpc : s.pc = .renameTemp)
    (hsrc : host.locate (tempPath call.digest) = some src)
    (hdst : host.locate call.digest = some dst) :
    CallInv host blake (disk.apply 0 (.rename src dst)) call (s.to (.done (.ok call.digest))) ∧
      ContentStore.Step (chunkHash blake) (sealedFiles disk)
        (sealedFiles (disk.apply 0 (.rename src dst))) := by
  obtain ⟨file, hread, hhash⟩ := hinv.verified hpc
  have hdigest : IsHexDigest call.digest := by
    rw [← hhash]
    exact chunkHash_isHexDigest blake file
  have hplain := host.locate_plain (isPlainName_of_isHexDigest hdigest)
  rw [hplain, Option.some.injEq] at hdst
  subst hdst
  rw [Host.readFile, hsrc, Option.bind_some] at hread
  have habsent := hinv.absent (.inr (by rw [hpc]; trivial))
  simp only [Host.pathExists, Host.readFile, hplain, Option.bind_some, Bool.or_eq_false_iff,
    Option.isSome_eq_false_iff, Option.isNone_iff_eq_none] at habsent
  have hnone := hinv.idle (.inr hpc)
  refine ⟨⟨?_, ?_, ?_, ?_, ?_⟩, ?_⟩
  · simp [Pc.Opened]
  · rintro j (hj | ⟨q, hq, -⟩)
    · cases hj
    · rw [Pull.to_queued, hnone] at hq
      cases hq
  · simp
  · simp
  · intro path hpath
    cases hpath
    refine ⟨rfl, ?_⟩
    simp only [Host.pathExists, Host.readFile, hplain, Option.bind_some, Store.apply,
      Store.read_rename_dst, hread, Option.isSome_some, Bool.or_true]
  · exact sealedFiles_rename (Host.locate_tempPath_isPartial hsrc) hdigest habsent.2 hread hhash

/-- **One step simulates the abstract cache.**  It keeps the call's invariant and
    changes the abstract cache by at most one sealed file. -/
theorem CallInv.step {disk : Disk} {call : PullCall} {s s' : Pull} {thread : Thread} {op : DiskOp}
    (hinv : CallInv host blake disk call s)
    (hmove : PullMove host blake call disk s thread s' op) :
    CallInv host blake (disk.apply 0 op) call s' ∧
      ContentStore.Step (chunkHash blake) (sealedFiles disk) (sealedFiles (disk.apply 0 op)) := by
  have hqueued : ∀ q, s.queued = some q → Loose disk q.handle :=
    fun q hq => hinv.holds q.handle (.inr ⟨q, hq, rfl⟩)
  cases hmove with
  | fail error => exact ⟨.idle_at hqueued id (by simp) (by simp), .idle _⟩
  | dirReady hpc => exact ⟨.idle_at hqueued id (by simp) (by simp), .idle _⟩
  | giveUp error => exact ⟨.idle_at hqueued id (by simp) (by simp), .idle _⟩
  | cached hpc hexists =>
    refine ⟨⟨?_, ?_, ?_, ?_, ?_⟩, .idle _⟩
    · simp [Pc.Opened]
    · exact fun i hi => hinv.holds i (Pull.holds_to (by simp [Pc.handle]) hi)
    · simp
    · simp
    · intro path hpath
      cases hpath
      exact ⟨rfl, hexists⟩
  | missing hpc hexists =>
    refine ⟨⟨fun _ => hexists, ?_, by simp, by simp, by simp⟩, .idle _⟩
    exact fun i hi => hinv.holds i (Pull.holds_to (by simp [Pc.handle]) hi)
  | truncate loc i hpc hloc hentry =>
    have hpartial := Host.locate_tempPath_isPartial hloc
    have hloose : Loose disk i := ⟨disk.allocated loc i hentry, unsealed_of_entry hpartial hentry⟩
    refine ⟨.flying rfl ?_ fun j hj => ?_, ?_⟩
    · rw [Store.apply, Host.pathExists_setData]
      exact hinv.absent (.inl hpc)
    · rcases hj with hj | ⟨q, hq, rfl⟩
      · cases hj
        exact hloose
      · exact hqueued q hq
    · rw [Store.apply, sealedFiles_setData hloose.2]
      exact .idle _
  | create loc hpc hloc hentry =>
    have hpartial := Host.locate_tempPath_isPartial hloc
    have hkept := (PullMove.create loc hpc hloc hentry :
      PullMove host blake call disk s _ _ _)
    refine ⟨.flying rfl ?_ fun j hj => ?_, ?_⟩
    · rw [← hinv.absent (.inl hpc)]
      refine Host.pathExists_congr fun l hl => ?_
      have hne := locate_ne_tempPath hl hloc
      simp only [Store.apply, Store.create, Function.update_of_ne hne]
    · rcases hj with hj | ⟨q, hq, rfl⟩
      · cases hj
        exact ⟨Nat.lt_succ_self _, unsealed_create hpartial⟩
      · exact hkept.loose (hqueued q hq) (by simp [hpc])
    · rw [Store.apply, sealedFiles_create hpartial]
      exact .idle _
  | keep handle pc hpc hpc' =>
    refine ⟨.flying hpc' (hinv.absent (.inr (Pc.opened_of_handle hpc))) fun j hj => ?_, .idle _⟩
    refine hinv.holds j (Pull.holds_to (fun k hk => .inl ?_) hj)
    rw [hpc, ← hpc', hk]
  | handed q pc hpc hpc' hnone =>
    refine ⟨.flying hpc' (hinv.absent (.inr (Pc.opened_of_handle hpc))) fun j hj => ?_, .idle _⟩
    refine hinv.holds j (.inl ?_)
    rcases hj with hj | ⟨q', hq', rfl⟩
    · rw [hpc, ← hpc', ← hj]
    · cases hq'
      exact hpc
  | landed q stored error hq hstored =>
    have hloose := hqueued q hq
    have hidle : s.pc ≠ .renameTemp := by
      intro hpc
      rw [hinv.idle (.inr hpc)] at hq
      cases hq
    refine ⟨?_, ?_⟩
    · have hsame := hinv.setData q.handle
        (SparseFile.writeAt 0 (disk.data q.handle) q.offset stored) fun hpc => absurd hpc hidle
      refine ⟨hsame.absent, fun i hi => hsame.holds i ?_, fun _ => rfl, hsame.verified,
        hsame.returned⟩
      rcases hi with hpc | ⟨q', hq', -⟩
      · exact .inl hpc
      · cases hq'
    · rw [Store.apply, sealedFiles_setData hloose.2]
      exact .idle _
  | flushed handle hpc hnone =>
    have habsent := hinv.absent (.inr (by rw [hpc]; trivial))
    refine ⟨⟨fun _ => habsent, fun i hi => ?_, fun _ => hnone, by simp, by simp⟩, .idle _⟩
    exact hinv.holds i (Pull.holds_to (by simp [Pc.handle]) hi)
  | verified file hpc hread hhash =>
    have habsent := hinv.absent (.inr (by rw [hpc]; trivial))
    refine ⟨⟨fun _ => habsent, fun i hi => ?_, fun _ => hinv.idle (.inl hpc),
      fun _ => ⟨file, hread, hhash⟩, by simp⟩, .idle _⟩
    exact hinv.holds i (Pull.holds_to (by simp [Pc.handle]) hi)
  | remove error loc hpc hloc =>
    have hkept := (PullMove.remove error loc hpc hloc : PullMove host blake call disk s _ _ _)
    refine ⟨.idle_at (fun q hq => hkept.loose (hqueued q hq) (by simp [hpc])) id (by simp)
      (by simp), ?_⟩
    rw [Store.apply, sealedFiles_unlink (Host.locate_tempPath_isPartial hloc)]
    exact .idle _
  | rename src dst i hpc hwalk hsrc hdst hentry =>
    exact hinv.rename hpc hsrc hdst

/-- After a step of a call its temp file is still apart from the pieces that ended
    calls left in flight. -/
theorem PullMove.apart {disk : Disk} {call : PullCall} {s s' : Pull} {thread : Thread}
    {op : DiskOp} (hmove : PullMove host blake call disk s thread s' op) {j : Nat}
    (hj : j < disk.next)
    (hsettled : s.pc = .openTemp ∨ s.pc.Opened →
      ∀ loc i, host.locate (tempPath call.digest) = some loc → disk.entry loc = some i → j ≠ i)
    (hopened : s'.pc.Opened) :
    ∀ loc i, host.locate (tempPath call.digest) = some loc →
      (disk.apply 0 op).entry loc = some i → j ≠ i := by
  cases hmove with
  | truncate loc i hpc hloc hentry => exact hsettled (.inl hpc)
  | create loc hpc hloc hentry =>
    intro loc' i hloc' hentry'
    cases hloc.symm.trans hloc'
    simp only [Store.apply, Store.create, Function.update_self, Option.some.injEq] at hentry'
    omega
  | keep handle pc hpc hpc' => exact hsettled (.inr (Pc.opened_of_handle hpc))
  | handed q pc hpc hpc' hnone => exact hsettled (.inr (Pc.opened_of_handle hpc))
  | landed q stored error hq hstored => exact hsettled (.inr hopened)
  | flushed handle hpc hnone => exact hsettled (.inr (by rw [hpc]; trivial))
  | verified file hpc hread hhash => exact hsettled (.inr (by rw [hpc]; trivial))
  | _ => exact hopened.elim

theorem World.Inv.advance {w w' : World} (hinv : World.Inv host blake w)
    (hstep : World.Advance host blake codec (World.Settled host) w w') :
    World.Inv host blake w' ∧
      ContentStore.Step (chunkHash blake) (sealedFiles w.disk) (sealedFiles w'.disk) := by
  cases hstep with
  | @step disk call s s' op adrift thread io hallowed h =>
    have hmove := pullStep_move h
    obtain ⟨hcall, hsealed⟩ := (hinv.call _ _ rfl).step hmove
    refine ⟨⟨hsealed.addressed hinv.addressed, ?_, ?_, ?_⟩, hsealed⟩
    · rintro call' s'' ⟨⟩
      exact hcall
    · intro q hq
      refine hmove.loose (hinv.adrift q hq) fun hpc loc hloc hentry => ?_
      exact hinv.apart _ _ rfl (by rw [hpc]; trivial) loc _ hloc hentry q hq rfl
    · rintro call' s'' ⟨⟩ hopened loc i hloc hentry q hq
      refine hmove.apart (hinv.adrift q hq).1 ?_ hopened loc i hloc hentry
      rintro (hpc | hopened') loc i hloc hentry
      · -- the task opens its temp file, or the pool lands a piece before it does
        cases thread with
        | task => exact hallowed rfl call s rfl hpc loc i hloc hentry q hq
        | pool =>
          cases hmove with
          | landed => rw [hpc] at hopened; exact hopened.elim
      · exact hinv.apart _ _ rfl hopened' loc i hloc hentry q hq
  | @land disk active before q after io =>
    obtain ⟨error, stored, hland, -⟩ := q.land_cases host io
    have hq : Loose disk q.handle := hinv.adrift q (by simp)
    have hmem : ∀ q' ∈ before ++ after, q' ∈ before ++ q :: after := by
      intro q' hq'
      rcases List.mem_append.mp hq' with h | h
      · exact List.mem_append_left _ h
      · exact List.mem_append_right _ (List.mem_cons_of_mem _ h)
    rw [hland]
    have hsame : sealedFiles (disk.apply 0 (.write q.handle q.offset stored)) = sealedFiles disk :=
      sealedFiles_setData hq.2 _
    refine ⟨⟨?_, ?_, ?_, ?_⟩, ?_⟩
    · rw [hsame]
      exact hinv.addressed
    · intro call s hactive
      refine (hinv.call call s hactive).setData _ _ fun hpc => ?_
      -- a call that is about to rename has its temp file for itself
      cases hloc : host.locate (tempPath call.digest) with
      | none => simp only [Host.readFile, hloc, Option.bind_none]
      | some loc =>
        simp only [Host.readFile, hloc, Option.bind_some]
        refine disk.read_setData_of_ne _ fun hentry => ?_
        exact hinv.apart call s hactive (by rw [hpc]; trivial) loc _ hloc hentry q (by simp) rfl
    · exact fun q' hq' => hinv.adrift q' (hmem q' hq')
    · intro call s hactive hopened loc i hloc hentry q' hq'
      exact hinv.apart call s hactive hopened loc i hloc hentry q' (hmem q' hq')
    · rw [hsame]
      exact .idle _

theorem World.Inv.start {w : World} (hinv : World.Inv host blake w) (call : PullCall) :
    World.Inv host blake (w.start call) := by
  refine ⟨hinv.addressed, ?_, ?_, ?_⟩
  · rintro call' s ⟨⟩
    exact .idle_at (fun q hq => by cases hq) id (by simp [Pull.start]) (by simp [Pull.start])
  · intro q hq
    rcases List.mem_append.mp hq with hq | hq
    · obtain ⟨⟨call', s⟩, hactive, hqueued⟩ := Option.bind_eq_some_iff.mp (Option.mem_toList.mp hq)
      exact (hinv.call call' s hactive).holds _ (.inr ⟨q, hqueued, rfl⟩)
    · exact hinv.adrift q hq
  · rintro call' s ⟨⟩ hopened
    exact hopened.elim

theorem World.Inv.idle {disk : Disk}
    (haddr : ContentStore.Addressed (chunkHash blake) (sealedFiles disk)) :
    World.Inv host blake ⟨disk, none, []⟩ where
  addressed := haddr
  call _ _ hactive := by cases hactive
  adrift _ hq := by cases hq
  apart _ _ hactive := by cases hactive

/-- **A settled step simulates the abstract cache.** -/
theorem World.simulates {w w' : World} (hinv : World.Inv host blake w)
    (hstep : World.Step host blake codec (World.Settled host) w w') :
    World.Inv host blake w' ∧
      ContentStore.Step (chunkHash blake) (sealedFiles w.disk) (sealedFiles w'.disk) := by
  cases hstep with
  | start call => exact ⟨hinv.start call, .idle _⟩
  | crash => exact ⟨.idle hinv.addressed, .idle _⟩
  | advance hadvance => exact hinv.advance hadvance

theorem World.inv_of_emptyCache {disk : Disk} (hempty : EmptyCache disk) :
    World.Inv host blake ⟨disk, none, []⟩ := by
  refine .idle fun name file hfile => ?_
  unfold sealedFiles at hfile
  split at hfile
  · cases hfile
  · rw [Store.read, hempty name] at hfile
    cases hfile

/-- A run of the calls is a run of the abstract cache. -/
theorem World.run_simulates {w w' : World} (hinv : World.Inv host blake w)
    (hrun : ReflTransGen (World.Step host blake codec (World.Settled host)) w w') :
    World.Inv host blake w' ∧
      ReflTransGen (ContentStore.Step (chunkHash blake)) (sealedFiles w.disk)
        (sealedFiles w'.disk) :=
  Runs.simulation (World.Inv host blake) (fun w => sealedFiles w.disk)
    (fun _ _ hinv hstep => World.simulates hinv hstep) hinv hrun

theorem World.run_of_advances {allowed : World → Prop} {w w' : World}
    (hrun : ReflTransGen (World.Advance host blake codec allowed) w w') :
    ReflTransGen (World.Step host blake codec allowed) w w' :=
  hrun.lift id fun _ _ h => World.Step.advance h

theorem World.land_only {allowed : World → Prop} {w : World} {q : QueuedWrite}
    (h : w.adrift = [q]) (io : Io) :
    World.Advance host blake codec allowed w
      ⟨w.disk.apply 0 (q.land host io).2, w.active, []⟩ := by
  obtain ⟨disk, active, adrift⟩ := w
  cases h
  exact .land [] q [] io

theorem sealedFiles_of_not_isPartial {disk : Disk} {name : String} (hname : ¬ IsPartial name) :
    sealedFiles disk name = disk.read (CACHE, name) := if_neg hname

variable (host blake codec)

/-- The steps of a session are steps of the world it runs in. -/
theorem World.session_run (allowed : World → Prop) (call : PullCall) (faults : Thread → Pc → Io)
    (adrift : List QueuedWrite) (hallowed : ∀ disk s, allowed ⟨disk, some (call, s), adrift⟩)
    (disk : Disk) (n : Nat) :
    ReflTransGen (World.Advance host blake codec allowed) ⟨disk, some (call, .start), adrift⟩
      ⟨(Session.run host blake codec call faults disk n).disk,
        some (call, (Session.run host blake codec call faults disk n).pull), adrift⟩ := by
  induction n with
  | zero => exact .refl
  | succ n ih =>
    rw [Session.run_succ, Session.step]
    split
    · exact ih
    · next pull op hmove => exact ih.tail (.step _ _ (fun _ => hallowed _ _) hmove)

variable {host} in
theorem World.settled_of_adrift_nil {disk : Disk} {active : Option (PullCall × Pull)} :
    World.Settled host ⟨disk, active, []⟩ := by
  intro call s hactive hpc loc i hloc hentry q hq
  cases hq

/-- **Cache integrity.**  In every state of every sequence of settled calls on a cache
    that started empty, a file whose name does not end in `.partial` hashes to its
    name, and no later settled step changes or removes it. -/
theorem cache_integrity {disk : Disk} (hempty : EmptyCache disk) {w : World}
    (hrun : ReflTransGen (World.Step host blake codec (World.Settled host)) ⟨disk, none, []⟩ w) :
    ∀ name file, ¬ IsPartial name → w.disk.read (CACHE, name) = some file →
      (∀ sched, rootHash blake sched file = name) ∧
        ∀ w', ReflTransGen (World.Step host blake codec (World.Settled host)) w w' →
          w'.disk.read (CACHE, name) = some file := by
  obtain ⟨hinv, _⟩ := World.run_simulates (World.inv_of_emptyCache hempty) hrun
  intro name file hname hfile
  rw [← sealedFiles_of_not_isPartial hname] at hfile
  refine ⟨fun sched => ?_, fun w' hlater => ?_⟩
  · rw [rootHash_eq_chunkHash]
    exact hinv.addressed name file hfile
  · rw [← sealedFiles_of_not_isPartial hname]
    obtain ⟨_, hsealed⟩ := World.run_simulates hinv hlater
    exact ContentStore.run_extends hsealed name file hfile

end Runs

namespace Sample

def noFaults : Thread → Pc → Io := fun _ _ => .ok

def finished (call : PullCall) (disk : Disk) : Session :=
  Session.returned host blake3 codec call noFaults disk

def goodCall : PullCall := call digest [reply 0 [0x61] true]

/-- The world after that call ran on an empty cache. -/
def pulled : World := ⟨(finished goodCall disk).disk, some (goodCall, (finished goodCall disk).pull), []⟩

theorem pulled_run :
    ReflTransGen (World.Step host blake3 codec (World.Settled host)) ⟨disk, none, []⟩ pulled :=
  .head (.start _ goodCall) (World.run_of_advances
    (World.session_run host blake3 codec _ goodCall noFaults []
      (fun _ _ => World.settled_of_adrift_nil) disk _))

end Sample

theorem cache_integrity_pulled :
    (∀ sched, rootHash Sample.blake3 sched [0x61] = Sample.digest) ∧
      ∀ w', ReflTransGen (World.Step Sample.host Sample.blake3 Sample.codec
          (World.Settled Sample.host)) Sample.pulled w' →
        w'.disk.read (CACHE, Sample.digest) = some [0x61] :=
  cache_integrity Sample.host Sample.blake3 Sample.codec (fun _ => rfl) Sample.pulled_run
    Sample.digest [0x61] (by decide +kernel) (by decide +kernel)

namespace Sample

/-- A pull of the digest of `a` that is sent the chunk `b`, then an error.  Its write
    lands only after it has returned. -/
def lateCall : PullCall :=
  { call digest [reply 0 [0x62] true, .error none] with lands := fun _ => false }

def latePiece : QueuedWrite := ⟨0, 0, [0x62]⟩

def overtaken : World :=
  ⟨(finished lateCall disk).disk, some (lateCall, (finished lateCall disk).pull), []⟩

/-- The world in which the next call has pulled `a` into the same temp file. -/
def installed : World :=
  ⟨(finished goodCall overtaken.disk).disk,
    some (goodCall, (finished goodCall overtaken.disk).pull), [latePiece]⟩

theorem overtaken_inFlight : overtaken.inFlight = [latePiece] := by decide +kernel

theorem installed_run :
    ReflTransGen (World.Step host blake3 codec fun _ => True) ⟨disk, none, []⟩ installed := by
  have hlate : ReflTransGen (World.Step host blake3 codec fun _ => True)
      ⟨disk, some (lateCall, .start), []⟩ overtaken :=
    World.run_of_advances (World.session_run host blake3 codec _ lateCall noFaults []
      (fun _ _ => trivial) disk _)
  have hgood : ReflTransGen (World.Step host blake3 codec fun _ => True)
      (overtaken.start goodCall) installed := by
    rw [World.start, overtaken_inFlight]
    exact World.run_of_advances (World.session_run host blake3 codec _ goodCall noFaults
      [latePiece] (fun _ _ => trivial) overtaken.disk _)
  exact .head (.start _ lateCall) (hlate.trans (.head (.start _ goodCall) hgood))

end Sample

/-- The world in which the late piece has landed. -/
def Sample.overwritten : World :=
  ⟨Sample.installed.disk.apply 0 (Sample.latePiece.land Sample.host .ok).2,
    Sample.installed.active, []⟩

/-- A write that outlives its call: the pull of `a` has returned and `a` is installed,
    then the piece `b` of the call before it lands in the installed file. -/
theorem late_write_spoils_installed_file :
    ReflTransGen (World.Step Sample.host Sample.blake3 Sample.codec fun _ => True)
        ⟨Sample.disk, none, []⟩ Sample.installed ∧
      World.Step Sample.host Sample.blake3 Sample.codec (fun _ => True) Sample.installed
        Sample.overwritten ∧
      Sample.installed.active.map (fun call => call.2.pc) = some (.done (.ok Sample.digest)) ∧
      ¬ IsPartial Sample.digest ∧ Sample.installed.disk.read (CACHE, Sample.digest) = some [0x61] ∧
      Sample.overwritten.disk.read (CACHE, Sample.digest) = some [0x62] ∧
      rootHash Sample.blake3 Sample.goodCall.sched [0x62] ≠ Sample.digest := by
  refine ⟨Sample.installed_run, .advance (World.land_only rfl .ok), ?_⟩
  decide +kernel

section Runs

variable (host : Host) (blake : Blake3) (codec : HeaderCodec)

/-! ### What a successful call returns -/

/-- The path names a regular file whose root hash is `digest`. -/
def VerifiedFile (disk : Disk) (path digest : String) : Prop :=
  host.walk path = none ∧
    ∃ file, host.readFile disk path = some file ∧ ∀ sched, rootHash blake sched file = digest

variable {host blake codec}

theorem VerifiedFile.isHexDigest {disk : Disk} {path digest : String}
    (h : VerifiedFile host blake disk path digest) : IsHexDigest digest := by
  obtain ⟨_, file, _, hhash⟩ := h
  rw [← hhash fun _ => CHUNK_SIZE, rootHash_eq_chunkHash]
  exact chunkHash_isHexDigest blake file

/-- In a content-addressed cache, an existing hex digest is a verified file. -/
theorem verifiedFile_of_pathExists {disk : Disk} {digest : String}
    (haddr : ContentStore.Addressed (chunkHash blake) (sealedFiles disk))
    (hdigest : IsHexDigest digest) (hexists : host.pathExists disk digest = true) :
    VerifiedFile host blake disk digest digest := by
  have hplain := isPlainName_of_isHexDigest hdigest
  have hwalk := host.walk_plain digest hplain
  simp only [Host.pathExists, hwalk, Option.isSome_none, Bool.false_or] at hexists
  obtain ⟨file, hfile⟩ := Option.isSome_iff_exists.mp hexists
  refine ⟨hwalk, file, hfile, fun sched => ?_⟩
  rw [rootHash_eq_chunkHash]
  apply haddr digest file
  rw [sealedFiles_of_not_isPartial (not_isPartial_of_isHexDigest hdigest)]
  rw [Host.readFile, host.locate_plain hplain, Option.bind_some] at hfile
  exact hfile

/-- A call whose digest is not hex never installs it. -/
theorem CallInv.pathExists_apply {disk : Disk} {call : PullCall} {s s' : Pull} {thread : Thread}
    {op : DiskOp} (hinv : CallInv host blake disk call s)
    (hmove : PullMove host blake call disk s thread s' op) (hdigest : ¬ IsHexDigest call.digest) :
    host.pathExists (disk.apply 0 op) call.digest = host.pathExists disk call.digest := by
  cases hmove with
  | truncate loc i hpc hloc hentry => exact Host.pathExists_setData disk i [] call.digest
  | landed q => exact Host.pathExists_setData disk q.handle _ call.digest
  | create loc hpc hloc hentry =>
    refine Host.pathExists_congr fun l hl => ?_
    simp only [Store.apply, Store.create, Function.update_of_ne (locate_ne_tempPath hl hloc)]
  | remove error loc hpc hloc =>
    refine Host.pathExists_congr fun l hl => ?_
    simp only [Store.apply, Store.unlink, Function.update_of_ne (locate_ne_tempPath hl hloc)]
  | rename src dst i hpc hwalk hsrc hdst hentry =>
    obtain ⟨file, _, hhash⟩ := hinv.verified hpc
    refine absurd ?_ hdigest
    rw [← hhash]
    exact chunkHash_isHexDigest blake file
  | _ => rfl

/-- What holds along the settled steps of one call that starts in a good world. -/
theorem World.call_run {w w' : World} {call : PullCall} (hinv : World.Inv host blake w)
    (hrun : ReflTransGen (World.Advance host blake codec (World.Settled host)) (w.start call) w') :
    World.Inv host blake w' ∧ (∃ s, w'.active = some (call, s)) ∧
      (¬ IsHexDigest call.digest →
        host.pathExists w'.disk call.digest = host.pathExists w.disk call.digest) := by
  induction hrun with
  | refl => exact ⟨hinv.start call, ⟨_, rfl⟩, fun _ => rfl⟩
  | tail _ hlast ih =>
    obtain ⟨hinv', ⟨s, hactive⟩, hexists⟩ := ih
    refine ⟨(hinv'.advance hlast).1, ?_⟩
    cases hlast with
    | step thread io hallowed h =>
      cases hactive
      refine ⟨⟨_, rfl⟩, fun hdigest => ?_⟩
      rw [(hinv'.call _ _ rfl).pathExists_apply (pullStep_move h) hdigest, hexists hdigest]
    | land before q after io =>
      obtain ⟨error, stored, hland, -⟩ := q.land_cases host io
      refine ⟨⟨s, hactive⟩, fun hdigest => ?_⟩
      rw [hland, ← hexists hdigest]
      exact Host.pathExists_setData _ _ _ _

variable (blake codec)

/-- The cached shortcut: two steps return the path of whatever exists there. -/
theorem World.cached_run {allowed : World → Prop} (w : World) (call : PullCall)
    (hallowed : ∀ s, s.pc ≠ .openTemp → allowed ⟨w.disk, some (call, s), w.inFlight⟩)
    (hexists : host.pathExists w.disk call.digest = true) :
    ReflTransGen (World.Advance host blake codec allowed) (w.start call)
      ⟨w.disk, some (call, Pull.start.to (.done (.ok call.digest))), w.inFlight⟩ := by
  have hready : pullStep host blake codec call .task .ok w.disk .start =
      some (Pull.start.to .checkExists, .skip) := rfl
  have hcached : pullStep host blake codec call .task .ok w.disk (Pull.start.to .checkExists) =
      some (Pull.start.to (.done (.ok call.digest)), .skip) := by
    simp only [pullStep, taskStep, Pull.to_pc, hexists, if_true]
    rfl
  exact .head (.step .task .ok (fun _ => hallowed _ (by simp [Pull.start])) hready)
    (.head (.step .task .ok (fun _ => hallowed _ (by simp)) hcached) .refl)

variable (host)

/-- **A successful pull returns verified bytes, except through the cached shortcut on a
    name that is no digest.**  After any sequence of settled calls on a cache that
    started empty, a settled call returns only verified files iff its digest string is
    64 lowercase hex digits or nothing exists at that path. -/
theorem pull_ok_verified_iff {disk : Disk} (hempty : EmptyCache disk) {w : World}
    (hrun : ReflTransGen (World.Step host blake codec (World.Settled host)) ⟨disk, none, []⟩ w)
    (call : PullCall) :
    (∀ path w' s,
      ReflTransGen (World.Advance host blake codec (World.Settled host)) (w.start call) w' →
      w'.active = some (call, s) → s.pc = .done (.ok path) →
        VerifiedFile host blake w'.disk path call.digest) ↔
      (IsHexDigest call.digest ∨ host.pathExists w.disk call.digest = false) := by
  obtain ⟨hinv, _⟩ := World.run_simulates (World.inv_of_emptyCache hempty) hrun
  constructor
  · intro hverified
    by_cases hexists : host.pathExists w.disk call.digest = false
    · exact Or.inr hexists
    · have hallowed : ∀ s, s.pc ≠ .openTemp →
          World.Settled host ⟨w.disk, some (call, s), w.inFlight⟩ := by
        rintro s hs call' s' ⟨⟩ hpc
        exact absurd hpc hs
      have hsteps := World.cached_run blake codec w call hallowed (by simpa using hexists)
      exact Or.inl (hverified call.digest _ _ hsteps rfl rfl).isHexDigest
  · intro hcond path w' s hsteps hactive hdone
    obtain ⟨hinv', _, hexists⟩ := World.call_run hinv hsteps
    obtain ⟨hpath, hfound⟩ := (hinv'.call _ _ hactive).returned path hdone
    rw [hpath]
    by_cases hdigest : IsHexDigest call.digest
    · exact verifiedFile_of_pathExists hinv'.addressed hdigest hfound
    · rw [hexists hdigest, hcond.resolve_left hdigest] at hfound
      cases hfound

end Runs

theorem pull_ok_verified_iff_pulled :
    IsHexDigest Sample.goodCall.digest ∧
      ∀ path w' s, ReflTransGen (World.Advance Sample.host Sample.blake3 Sample.codec
          (World.Settled Sample.host)) (Sample.pulled.start Sample.goodCall) w' →
        w'.active = some (Sample.goodCall, s) → s.pc = .done (.ok path) →
          VerifiedFile Sample.host Sample.blake3 w'.disk path Sample.goodCall.digest := by
  have hdigest : IsHexDigest Sample.goodCall.digest := by decide +kernel
  exact ⟨hdigest, (pull_ok_verified_iff Sample.host Sample.blake3 Sample.codec (fun _ => rfl)
    Sample.pulled_run Sample.goodCall).mpr (Or.inl hdigest)⟩

namespace Sample

def failedCall : PullCall := call "x" [.error none]

/-- The world after that call: it left `x.partial` in the cache. -/
def leftover : World :=
  ⟨(finished failedCall disk).disk, some (failedCall, (finished failedCall disk).pull), []⟩

def partialCall : PullCall := call "x.partial" []

end Sample

/-- A failed pull of `x` leaves `x.partial`, and a pull of the string `x.partial` then
    returns that file, unverified.  No piece is in flight at any of the steps. -/
theorem pull_returns_leftover_partial :
    ReflTransGen (World.Step Sample.host Sample.blake3 Sample.codec (World.Settled Sample.host))
        ⟨Sample.disk, none, []⟩ Sample.leftover ∧
      ReflTransGen (World.Advance Sample.host Sample.blake3 Sample.codec
          (World.Settled Sample.host)) (Sample.leftover.start Sample.partialCall)
        ⟨Sample.leftover.disk,
          some (Sample.partialCall, Pull.start.to (.done (.ok "x.partial"))), []⟩ ∧
      ¬ VerifiedFile Sample.host Sample.blake3 Sample.leftover.disk "x.partial" "x.partial" := by
  have hflight : Sample.leftover.inFlight = [] := by decide +kernel
  refine ⟨?_, ?_, fun h => absurd h.isHexDigest (by decide)⟩
  · exact .head (.start _ Sample.failedCall) (World.run_of_advances
      (World.session_run Sample.host Sample.blake3 Sample.codec _ Sample.failedCall Sample.noFaults []
        (fun _ _ => World.settled_of_adrift_nil) Sample.disk _))
  · have hsettled : ∀ s : Pull, s.pc ≠ .openTemp → World.Settled Sample.host
        ⟨Sample.leftover.disk, some (Sample.partialCall, s), Sample.leftover.inFlight⟩ := by
      intro s _
      rw [hflight]
      exact World.settled_of_adrift_nil
    have hexists : Sample.host.pathExists Sample.leftover.disk Sample.partialCall.digest = true := by
      decide +kernel
    have hrun := World.cached_run Sample.blake3 Sample.codec Sample.leftover Sample.partialCall
      hsettled hexists
    rw [hflight] at hrun
    exact hrun

end FurcateMesh.Transfer
