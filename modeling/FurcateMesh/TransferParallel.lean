import FurcateMesh.Library.StoreView
import FurcateMesh.TransferConcurrent
import FurcateMesh.TransferRoundTrip

/-!
# Concurrent pulls of different digests

Calls of `pull_with_options` for different digests share the cache directory but no
name in it: each works on its digest and its own temp file (`footprint`).  Their steps may
interleave in any order, faults of the environment and late writes included, and every
call goes exactly the way it goes when it runs alone (`concurrent_pulls_independent`).

Inode numbers do depend on the interleaving, so a call and its run alone are related
by `SameView`: the handle of the one stands for the handle of the other.  A call has at
most one inode to write to, the one its task holds open or, after it has closed it, the
one of the piece in flight (`Pull.handle`).  `Pull.at` replaces that number in the state of a
call, and `Pull.handles` pairs the number here with the one in the run alone.

Two facts carry the induction.  A step of a call is a step of its run alone when the two
see the same files (`pullStep_alone`): with the temp file open the task does not look at the
disk at all (`taskStep_at`), and otherwise it looks at its own names only.  And no call can
reach an inode of another (`System.Owned.private`), so the steps of the others are not seen.
`System.Separate` puts them together: for every call there is a run alone with the same view,
the inodes are owned, and what no call names is as it was at the start.

The run alone is a run of `World`, in which no other call was before; what is known of such
runs therefore carries over.  `concurrent_digests_verified` is cache integrity for calls that
run at the same time, and `scheduled_pull_outcome` says that a call which gets enough turns
returns what it returns alone, whatever the order of the turns.
-/

namespace FurcateMesh.Transfer

open InodeStore SparseFile
open Relation (ReflTransGen)

def footprint (host : Host) (digest : String) : Set Loc :=
  {loc | host.locate digest = some loc ∨ host.locate (tempPath digest) = some loc}

def Apart (host : Host) (digest digest' : String) : Prop :=
  Disjoint (footprint host digest) (footprint host digest')

/-! ### The handle of a call -/

/-- The inode a call may still write to. -/
def Pull.handle (s : Pull) : Option Nat := s.pc.handle.or (s.queued.map QueuedWrite.handle)

def Pull.at (handle : Nat) (s : Pull) : Pull :=
  ⟨s.pc.at handle, s.queued.map fun q => { q with handle := handle }, s.writeError⟩

def Pull.handles (s : Pull) (handle : Nat) : Option (Nat × Nat) := s.handle.map fun i => (i, handle)

/-- Nothing is in flight before the temp file is open, and while it is open, what is in
    flight is for it. -/
structure Pull.Coherent (s : Pull) : Prop where
  early : s.pc = .createDir ∨ s.pc = .checkExists ∨ s.pc = .openTemp → s.queued = none
  same : ∀ q i, s.queued = some q → s.pc.handle = some i → q.handle = i

theorem Pull.Coherent.handle_of_queued {s : Pull} (h : s.Coherent) {q : QueuedWrite}
    (hqueued : s.queued = some q) : s.handle = some q.handle := by
  rw [Pull.handle, hqueued]
  rcases hpc : s.pc.handle with _ | i
  · rfl
  · rw [h.same q i hqueued hpc]
    rfl

theorem Pull.handle_of_pc {s : Pull} {i : Nat} (h : s.pc.handle = some i) : s.handle = some i := by
  rw [Pull.handle, h, Option.some_or]

/-- A step of the task that opens nothing keeps its handle or gives it up. -/
theorem Pull.Coherent.handle_to {s : Pull} (h : s.Coherent) {pc : Pc}
    (hpc : ∀ i, pc.handle = some i → s.pc.handle = some i) {i : Nat}
    (hi : (s.to pc).handle = some i) : s.handle = some i := by
  rw [Pull.handle, Pull.to_pc, Pull.to_queued] at hi
  rcases hhandle : pc.handle with _ | j
  · rw [hhandle, Option.none_or] at hi
    obtain ⟨q, hqueued, rfl⟩ := Option.map_eq_some_iff.mp hi
    exact h.handle_of_queued hqueued
  · rw [hhandle, Option.some_or] at hi
    rw [← hi]
    exact Pull.handle_of_pc (hpc j hhandle)

theorem Pull.thread_at (call : PullCall) (handle : Nat) (s : Pull) :
    (s.at handle).thread call = s.thread call := by
  obtain ⟨pc, queued, error⟩ := s
  have hawaits : (pc.at handle).awaits = pc.awaits := by cases pc <;> rfl
  have hshape : (pc.at handle).at 0 = pc.at 0 := by cases pc <;> rfl
  simp only [Pull.thread, Pull.at, Option.isSome_map, hawaits, hshape]

theorem Pc.eq_done_of_at {handle : Nat} {pc : Pc} {result : Except TransferError String}
    (h : pc.at handle = .done result) : pc = .done result := by
  cases pc with
  | done => exact h
  | _ => cases h

section Alone

variable {host : Host} {blake : Blake3} {codec : HeaderCodec} {call : PullCall}

theorem PullMove.coherent {disk : Disk} {s s' : Pull} {thread : Thread} {op : DiskOp}
    (hmove : PullMove host blake call disk s thread s' op) (h : s.Coherent) : s'.Coherent := by
  cases hmove with
  | dirReady hpc => exact ⟨fun _ => h.early (.inl hpc), fun _ _ _ hi => by cases hi⟩
  | missing hpc => exact ⟨fun _ => h.early (.inr (.inl hpc)), fun _ _ _ hi => by cases hi⟩
  | truncate loc i hpc | create loc hpc =>
    have hnone := h.early (.inr (.inr hpc))
    refine ⟨fun _ => hnone, fun q i hq => ?_⟩
    rw [Pull.to_queued, hnone] at hq
    cases hq
  | keep handle pc hpc hpc' =>
    refine ⟨fun hearly => ?_, fun q i hq hi => ?_⟩
    · rcases hearly with hearly | hearly | hearly
      all_goals
        rw [Pull.to_pc] at hearly
        rw [hearly] at hpc'
        cases hpc'
    · rw [Pull.to_pc, hpc'] at hi
      exact h.same q i hq (hpc.trans hi)
  | handed q pc hpc hpc' =>
    refine ⟨fun hearly => ?_, fun q' i hq hi => ?_⟩
    · rcases hearly with rfl | rfl | rfl
      all_goals cases hpc'
    · cases hq
      exact Option.some.inj (hpc'.symm.trans hi)
  | landed => exact ⟨fun _ => rfl, fun q i hq => by cases hq⟩
  | fail | cached | giveUp | flushed | verified | remove | rename =>
    exact ⟨fun hearly => by simp at hearly, fun q i _ hi => by cases hi⟩

theorem mem_footprint_digest {digest : String} {loc : Loc} (h : host.locate digest = some loc) :
    loc ∈ footprint host digest := .inl h

theorem mem_footprint_temp {digest : String} {loc : Loc}
    (h : host.locate (tempPath digest) = some loc) : loc ∈ footprint host digest := .inr h

section View

variable {disk alone : Disk} {handles : Option (Nat × Nat)}
  (hview : SameView (footprint host call.digest) disk alone handles)

include hview

theorem readFile_of_view {path : String}
    (hpath : path = call.digest ∨ path = tempPath call.digest) :
    host.readFile disk path = host.readFile alone path := by
  unfold Host.readFile
  rcases hloc : host.locate path with _ | loc
  · rfl
  · refine hview.read loc ?_
    rcases hpath with rfl | rfl
    · exact mem_footprint_digest hloc
    · exact mem_footprint_temp hloc

theorem pathExists_of_view :
    host.pathExists disk call.digest = host.pathExists alone call.digest := by
  rw [Host.pathExists, Host.pathExists, readFile_of_view hview (.inl rfl)]

/-- Opening the temp file fails on both sides, or opens the same file. -/
theorem openTruncate_of_view :
    (∃ e, host.openTruncate disk (tempPath call.digest) = .error e ∧
        host.openTruncate alone (tempPath call.digest) = .error e) ∨
      ∃ i j op op', host.openTruncate disk (tempPath call.digest) = .ok (i, op) ∧
        host.openTruncate alone (tempPath call.digest) = .ok (j, op') ∧
        SameView (footprint host call.digest) (disk.apply 0 op) (alone.apply 0 op')
          (some (i, j)) := by
  unfold Host.openTruncate
  split
  · exact .inl ⟨_, rfl, rfl⟩
  · rcases hloc : host.locate (tempPath call.digest) with _ | loc
    · exact .inl ⟨_, rfl, rfl⟩
    · right
      have hmem := mem_footprint_temp hloc
      rcases hi : disk.entry loc with _ | i
      · have hj := (hview.entry_eq_none_iff hmem).mp hi
        exact ⟨disk.next, alone.next, .create loc, .create loc, by simp only [hi],
          by simp only [hj], hview.create loc⟩
      · rcases hj : alone.entry loc with _ | j
        · rw [(hview.entry_eq_none_iff hmem).mpr hj] at hi
          cases hi
        · exact ⟨i, j, .truncate i, .truncate j, by simp only [hi], by simp only [hj],
            hview.truncate hi hj⟩

theorem removeFile_of_view :
    (∃ e, host.removeFile disk (tempPath call.digest) = .error e ∧
        host.removeFile alone (tempPath call.digest) = .error e) ∨
      ∃ op, host.removeFile disk (tempPath call.digest) = .ok op ∧
        host.removeFile alone (tempPath call.digest) = .ok op ∧
        SameView (footprint host call.digest) (disk.apply 0 op) (alone.apply 0 op) handles := by
  unfold Host.removeFile
  rcases hloc : host.locate (tempPath call.digest) with _ | loc
  · exact .inl ⟨_, rfl, rfl⟩
  · have hmem := mem_footprint_temp hloc
    rcases hi : disk.entry loc with _ | i
    · have hj := (hview.entry_eq_none_iff hmem).mp hi
      exact .inl ⟨.notFound, by simp only [hi], by simp only [hj]⟩
    · rcases hj : alone.entry loc with _ | j
      · rw [(hview.entry_eq_none_iff hmem).mpr hj] at hi
        cases hi
      · exact .inr ⟨.unlink loc, by simp only [hi], by simp only [hj], hview.unlink loc⟩

theorem renameFile_of_view :
    (∃ e, host.renameFile disk (tempPath call.digest) call.digest = .error e ∧
        host.renameFile alone (tempPath call.digest) call.digest = .error e) ∨
      ∃ op, host.renameFile disk (tempPath call.digest) call.digest = .ok op ∧
        host.renameFile alone (tempPath call.digest) call.digest = .ok op ∧
        SameView (footprint host call.digest) (disk.apply 0 op) (alone.apply 0 op) handles := by
  unfold Host.renameFile
  split
  · exact .inl ⟨_, rfl, rfl⟩
  · rcases hsrc : host.locate (tempPath call.digest) with _ | src
    · exact .inl ⟨_, rfl, rfl⟩
    · rcases hdst : host.locate call.digest with _ | dst
      · exact .inl ⟨_, rfl, rfl⟩
      · have hmem := mem_footprint_temp hsrc
        rcases hi : disk.entry src with _ | i
        · have hj := (hview.entry_eq_none_iff hmem).mp hi
          exact .inl ⟨.notFound, by simp only [hi], by simp only [hj]⟩
        · rcases hj : alone.entry src with _ | j
          · rw [(hview.entry_eq_none_iff hmem).mpr hj] at hi
            cases hi
          · exact .inr ⟨.rename src dst, by simp only [hi], by simp only [hj], hview.rename hmem⟩

end View

section Step

variable {disk alone : Disk} {s s' : Pull} {op : DiskOp} {handle : Nat}

theorem Pull.Coherent.view_to (h : s.Coherent) {pc : Pc}
    (hpc : ∀ i, pc.handle = some i → s.pc.handle = some i)
    (hview : SameView (footprint host call.digest) disk alone (s.handles handle)) :
    SameView (footprint host call.digest) disk alone ((s.to pc).handles handle) := by
  refine hview.mono fun pair hpair => ?_
  obtain ⟨i, hi, rfl⟩ := Option.map_eq_some_iff.mp hpair
  rw [Pull.handles, h.handle_to hpc hi, Option.map_some]

/-- With the temp file open, a step of the task does not look at the disk. -/
theorem taskStep_at {i : Nat} (hopen : s.pc.handle = some i) (io : Io) :
    taskStep host blake codec call io alone (s.at handle) =
      (taskStep host blake codec call io disk s).map fun r => (r.1.at handle, r.2) := by
  obtain ⟨pc, queued, error⟩ := s
  cases pc with
  | get i =>
    simp only [taskStep, Pull.at, Pc.at]
    cases call.replies <;> rfl
  | recv i gotAny gotLast pending =>
    rcases pending with _ | ⟨reply, pending⟩
    · cases gotAny <;> cases gotLast <;> rfl
    · simp only [taskStep, Pull.at, Pc.at]
      cases acceptReply blake codec reply <;> rfl
  | seek i gotLast pending header chunk =>
    cases queued with
    | some q => rfl
    | none =>
      cases io with
      | fail e written => rfl
      | ok =>
        by_cases hoffset : header.offset.toNat > host.maxFileSize
        · simp only [taskStep, Pull.at, Pc.at, Option.map_none, if_pos hoffset]
          rfl
        · simp only [taskStep, Pull.at, Pc.at, Option.map_none, if_neg hoffset]
          rfl
  | write i gotLast pending header chunk sent =>
    by_cases hsent : chunk.length ≤ sent
    · simp only [taskStep, Pull.at, Pc.at, if_pos hsent]
      rfl
    · simp only [taskStep, Pull.at, Pc.at, if_neg hsent]
      cases queued with
      | some q => rfl
      | none => cases error <;> cases io <;> rfl
  | flush i =>
    cases queued with
    | some q => rfl
    | none => cases error <;> cases io <;> rfl
  | createDir | checkExists | openTemp | removeTemp | hashTemp | renameTemp | done => cases hopen

/-- With the temp file open, a step of the task leaves the disk alone and opens nothing. -/
theorem PullMove.of_open {i : Nat} (hcoherent : s.Coherent) (hopen : s.pc.handle = some i)
    (hmove : PullMove host blake call disk s .task s' op) :
    op = .skip ∧ ∀ j, s'.handle = some j → s.handle = some j := by
  cases hmove with
  | fail | cached | giveUp | flushed =>
    exact ⟨rfl, fun j hj => hcoherent.handle_to (fun _ hi => by cases hi) hj⟩
  | keep i' pc hpc hpc' =>
    refine ⟨rfl, fun j hj => hcoherent.handle_to (fun k hk => ?_) hj⟩
    rw [hpc, ← hpc', hk]
  | handed q pc hpc hpc' =>
    refine ⟨rfl, fun j hj => ?_⟩
    rw [Pull.handle_of_pc hpc]
    exact (Pull.handle_of_pc hpc').symm.trans hj
  | dirReady hpc | missing hpc | truncate loc i hpc | create loc hpc | verified file hpc
  | remove error loc hpc | rename src dst i hpc =>
    rw [hpc] at hopen
    cases hopen

/-- With the temp file not open, a step sees the same names in the run alone. -/
theorem taskStep_alone_of_closed {io : Io} (hcoherent : s.Coherent) (hclosed : s.pc.handle = none)
    (hview : SameView (footprint host call.digest) disk alone (s.handles handle))
    (h : taskStep host blake codec call io disk s = some (s', op)) :
    ∃ handle' op', taskStep host blake codec call io alone (s.at handle) =
        some (s'.at handle', op') ∧
      SameView (footprint host call.digest) (disk.apply 0 op) (alone.apply 0 op')
        (s'.handles handle') := by
  -- a step that opens nothing leaves the call without a handle, but for the piece in flight
  have hdrop : ∀ {pc : Pc}, pc.handle = none →
      SameView (footprint host call.digest) disk alone ((s.to pc).handles handle) := by
    intro pc hpc
    refine hcoherent.view_to (fun i hi => ?_) hview
    rw [hpc] at hi
    cases hi
  obtain ⟨pc, queued, error⟩ := s
  cases pc with
  | createDir =>
    cases io with
    | fail e written => cases h; exact ⟨handle, .skip, rfl, hdrop rfl⟩
    | ok => cases h; exact ⟨handle, .skip, rfl, hdrop rfl⟩
  | checkExists =>
    have hsame := pathExists_of_view hview
    cases hexists : host.pathExists disk call.digest with
    | true =>
      rw [hexists] at hsame
      simp only [taskStep, hexists, if_true] at h
      cases h
      exact ⟨handle, .skip, by simp only [Pull.at, Pc.at, taskStep, ← hsame, if_true]; rfl,
        hdrop rfl⟩
    | false =>
      rw [hexists] at hsame
      simp only [taskStep, hexists, Bool.false_eq_true, if_false] at h
      cases h
      exact ⟨handle, .skip,
        by simp only [Pull.at, Pc.at, taskStep, ← hsame, Bool.false_eq_true, if_false]; rfl,
        hdrop rfl⟩
  | openTemp =>
    cases io with
    | fail e written => cases h; exact ⟨handle, .skip, rfl, hdrop rfl⟩
    | ok =>
      obtain rfl : queued = none := hcoherent.early (.inr (.inr rfl))
      rcases openTruncate_of_view hview with
        ⟨e, hdisk, halone⟩ | ⟨i, j, op₁, op₂, hdisk, halone, hopened⟩
      · simp only [taskStep, hdisk] at h
        cases h
        exact ⟨handle, .skip, by simp only [Pull.at, Pc.at, taskStep, halone]; rfl, hdrop rfl⟩
      · simp only [taskStep, hdisk] at h
        cases h
        exact ⟨j, op₂, by simp only [Pull.at, Pc.at, taskStep, halone]; rfl, hopened⟩
  | removeTemp failure =>
    cases io with
    | fail e written => cases h; exact ⟨handle, .skip, rfl, hdrop rfl⟩
    | ok =>
      rcases removeFile_of_view hview with ⟨e, hdisk, halone⟩ | ⟨op', hdisk, halone, hremoved⟩
      · simp only [taskStep, hdisk] at h
        cases h
        exact ⟨handle, .skip, by simp only [Pull.at, Pc.at, taskStep, halone]; rfl, hdrop rfl⟩
      · simp only [taskStep, hdisk] at h
        cases h
        exact ⟨handle, op, by simp only [Pull.at, Pc.at, taskStep, halone]; rfl,
          hcoherent.view_to (fun _ hi => by cases hi) hremoved⟩
  | hashTemp =>
    cases io with
    | fail e written => cases h; exact ⟨handle, .skip, rfl, hdrop rfl⟩
    | ok =>
      have hsame := readFile_of_view hview (.inr rfl)
      rcases hread : host.readFile disk (tempPath call.digest) with _ | file
      · rw [hread] at hsame
        simp only [taskStep, hread] at h
        cases h
        exact ⟨handle, .skip, by simp only [Pull.at, Pc.at, taskStep, ← hsame]; rfl, hdrop rfl⟩
      · rw [hread] at hsame
        by_cases hhash : rootHash blake call.sched file ≠ call.digest
        · simp only [taskStep, hread, if_pos hhash] at h
          cases h
          exact ⟨handle, .skip,
            by simp only [Pull.at, Pc.at, taskStep, ← hsame, if_pos hhash]; rfl, hdrop rfl⟩
        · simp only [taskStep, hread, if_neg hhash] at h
          cases h
          exact ⟨handle, .skip,
            by simp only [Pull.at, Pc.at, taskStep, ← hsame, if_neg hhash]; rfl, hdrop rfl⟩
  | renameTemp =>
    cases io with
    | fail e written => cases h; exact ⟨handle, .skip, rfl, hdrop rfl⟩
    | ok =>
      rcases renameFile_of_view hview with ⟨e, hdisk, halone⟩ | ⟨op', hdisk, halone, hrenamed⟩
      · simp only [taskStep, hdisk] at h
        cases h
        exact ⟨handle, .skip, by simp only [Pull.at, Pc.at, taskStep, halone]; rfl, hdrop rfl⟩
      · simp only [taskStep, hdisk] at h
        cases h
        exact ⟨handle, op, by simp only [Pull.at, Pc.at, taskStep, halone]; rfl,
          hcoherent.view_to (fun _ hi => by cases hi) hrenamed⟩
  | done result => cases h
  | get | recv | seek | write | flush => cases hclosed

/-- A step of the task in the run alone. -/
theorem taskStep_alone {io : Io} (hcoherent : s.Coherent)
    (hview : SameView (footprint host call.digest) disk alone (s.handles handle))
    (h : taskStep host blake codec call io disk s = some (s', op)) :
    ∃ handle' op', taskStep host blake codec call io alone (s.at handle) =
        some (s'.at handle', op') ∧
      SameView (footprint host call.digest) (disk.apply 0 op) (alone.apply 0 op')
        (s'.handles handle') := by
  rcases hopen : s.pc.handle with _ | i
  · exact taskStep_alone_of_closed hcoherent hopen hview h
  · have hmove : PullMove host blake call disk s .task s' op := pullStep_move h
    obtain ⟨rfl, hkept⟩ := hmove.of_open hcoherent hopen
    refine ⟨handle, .skip, by rw [taskStep_at hopen, h, Option.map_some], ?_⟩
    refine hview.mono fun pair hpair => ?_
    obtain ⟨j, hj, rfl⟩ := Option.map_eq_some_iff.mp hpair
    rw [Pull.handles, hkept j hj, Option.map_some]

theorem QueuedWrite.land_handle (io : Io) (q : QueuedWrite) (handle : Nat) :
    ∃ error stored, q.land host io = (error, .write q.handle q.offset stored) ∧
      ({ q with handle := handle } : QueuedWrite).land host io =
        (error, .write handle q.offset stored) := by
  cases io with
  | ok =>
    by_cases hfits : q.offset + q.bytes.length ≤ host.maxFileSize
    · exact ⟨_, _, by rw [QueuedWrite.land, if_pos hfits], by rw [QueuedWrite.land, if_pos hfits]⟩
    · exact ⟨_, _, by rw [QueuedWrite.land, if_neg hfits], by rw [QueuedWrite.land, if_neg hfits]⟩
  | fail e written => exact ⟨_, _, rfl, rfl⟩

/-- A piece lands in the run alone. -/
theorem poolStep_alone {io : Io} (hcoherent : s.Coherent)
    (hview : SameView (footprint host call.digest) disk alone (s.handles handle))
    (h : poolStep host io s = some (s', op)) :
    ∃ op', poolStep host io (s.at handle) = some (s'.at handle, op') ∧
      SameView (footprint host call.digest) (disk.apply 0 op) (alone.apply 0 op')
        (s'.handles handle) := by
  obtain ⟨q, hqueued, heq⟩ := Option.map_eq_some_iff.mp h
  obtain ⟨error, stored, hland, hland'⟩ := q.land_handle io handle
  rw [hland] at heq
  cases heq
  have hpair : s.handles handle = some (q.handle, handle) := by
    rw [Pull.handles, hcoherent.handle_of_queued hqueued, Option.map_some]
  refine ⟨.write handle q.offset stored, ?_, ?_⟩
  · simp only [poolStep, Pull.at, hqueued, Option.map_some, hland', Option.map_none]
  · have hwrite : SameView (footprint host call.digest)
        (disk.apply 0 (.write q.handle q.offset stored))
        (alone.apply 0 (.write handle q.offset stored)) (some (q.handle, handle)) := by
      rw [Store.apply, Store.apply, hview.data q.handle handle hpair]
      exact hview.setData (hview.entry q.handle handle hpair) _
    refine hwrite.mono fun pair hkept => ?_
    obtain ⟨i, hi, rfl⟩ := Option.map_eq_some_iff.mp hkept
    have hpc : s.pc.handle = some i := by simpa [Pull.handle] using hi
    rw [hcoherent.same q i hqueued hpc]

/-- **A step of a call is a step of its run alone**, when the two see the same files. -/
theorem pullStep_alone {thread : Thread} {io : Io} (hcoherent : s.Coherent)
    (hview : SameView (footprint host call.digest) disk alone (s.handles handle))
    (h : pullStep host blake codec call thread io disk s = some (s', op)) :
    ∃ handle' op', pullStep host blake codec call thread io alone (s.at handle) =
        some (s'.at handle', op') ∧
      SameView (footprint host call.digest) (disk.apply 0 op) (alone.apply 0 op')
        (s'.handles handle') := by
  cases thread with
  | task => exact taskStep_alone hcoherent hview h
  | pool =>
    obtain ⟨op', hown, hview'⟩ := poolStep_alone hcoherent hview h
    exact ⟨handle, op', hown, hview'⟩

/-- A call with nothing left to do has nothing left to do alone. -/
theorem pullStep_none_alone {io : Io}
    (h : pullStep host blake codec call (s.thread call) io disk s = none) :
    pullStep host blake codec call (s.thread call) io alone (s.at handle) = none := by
  obtain ⟨result, hdone⟩ := done_of_pullStep_eq_none h
  cases hthread : s.thread call with
  | task => simp only [pullStep, taskStep, Pull.at, hdone, Pc.at]
  | pool =>
    rw [hthread] at h
    have hnone : s.queued = none := Option.map_eq_none_iff.mp h
    rw [pullStep, poolStep, Pull.at, hnone]
    rfl

end Step

/-! ### What a call can reach -/

variable (host) in
/-- The inodes a call can reach: the one behind its handle and those at its entries. -/
def Reaches (digest : String) (disk : Disk) (s : Pull) (m : Nat) : Prop :=
  s.handle = some m ∨ ∃ loc ∈ footprint host digest, disk.entry loc = some m

theorem PullMove.confined {disk : Disk} {s s' : Pull} {thread : Thread} {op : DiskOp}
    (hmove : PullMove host blake call disk s thread s' op) (hcoherent : s.Coherent) :
    op.Confined (footprint host call.digest) (Reaches host call.digest disk s) := by
  cases hmove with
  | truncate loc i hpc hloc hentry => exact .inr ⟨loc, mem_footprint_temp hloc, hentry⟩
  | create loc hpc hloc hentry => exact mem_footprint_temp hloc
  | landed q stored error hqueued hstored => exact .inl (hcoherent.handle_of_queued hqueued)
  | remove error loc hpc hloc => exact mem_footprint_temp hloc
  | rename src dst i hpc hwalk hsrc hdst hentry =>
    exact ⟨mem_footprint_temp hsrc, mem_footprint_digest hdst⟩
  | _ => exact trivial

/-- A handle is one the call could reach before, or a new inode. -/
theorem PullMove.handle_origin {disk : Disk} {s s' : Pull} {thread : Thread} {op : DiskOp} {m : Nat}
    (hmove : PullMove host blake call disk s thread s' op) (hcoherent : s.Coherent)
    (hm : s'.handle = some m) :
    Reaches host call.digest disk s m ∨ m = disk.next ∧ m < (disk.apply 0 op).next := by
  have hkeep : ∀ {pc : Pc}, s' = s.to pc → (∀ i, pc.handle = some i → s.pc.handle = some i) →
      Reaches host call.digest disk s m := by
    rintro pc rfl hpc
    exact .inl (hcoherent.handle_to hpc hm)
  cases hmove with
  | truncate loc i hpc hloc hentry =>
    cases hm
    exact .inl (.inr ⟨loc, mem_footprint_temp hloc, hentry⟩)
  | create loc hpc hloc hentry =>
    cases hm
    exact .inr ⟨rfl, Nat.lt_succ_self _⟩
  | keep handle pc hpc hpc' =>
    refine .inl (hkeep rfl fun i hi => ?_)
    rw [hpc, ← hpc', hi]
  | handed q pc hpc hpc' =>
    rw [Pull.handle_of_pc hpc'] at hm
    exact .inl (.inl (by rw [Pull.handle_of_pc hpc, hm]))
  | landed q stored error hqueued hstored =>
    have hpc : s.pc.handle = some m := by simpa [Pull.handle] using hm
    exact .inl (.inl (Pull.handle_of_pc hpc))
  | fail | dirReady | cached | missing | giveUp | flushed | verified | remove | rename =>
    exact .inl (hkeep rfl fun i hi => by cases hi)

end Alone

section Ownership

variable {ι : Type}
variable {host : Host} {blake : Blake3} {codec : HeaderCodec} {calls : ι → PullCall}

/-- Each open handle is the call's own: no other call holds it, and a file it still
    has a name for is at one of the call's entries. -/
structure System.Owned (host : Host) (calls : ι → PullCall) (s : System ι) : Prop where
  coherent : ∀ k, (s.pull k).Coherent
  allocated : ∀ k m, (s.pull k).handle = some m → m < s.disk.next
  named : ∀ k m, (s.pull k).handle = some m →
    ∀ loc, s.disk.entry loc = some m → loc ∈ footprint host (calls k).digest
  exclusive : ∀ j k m, j ≠ k → (s.pull j).handle = some m → (s.pull k).handle ≠ some m

theorem System.owned_initial (disk : Disk) : (System.initial disk : System ι).Owned host calls where
  coherent _ := ⟨fun _ => rfl, fun _ _ h => by cases h⟩
  allocated _ _ h := by cases h
  named _ _ h := by cases h
  exclusive _ _ _ _ h := by cases h

variable (hapart : Pairwise fun i j => Apart host (calls i).digest (calls j).digest)

/-- An inode that a call can reach has no name outside its entries. -/
theorem System.Owned.named_of_reaches {s : System ι} (howned : s.Owned host calls) {k : ι} {m : Nat}
    (hk : Reaches host (calls k).digest s.disk (s.pull k) m) {loc : Loc}
    (hloc : s.disk.entry loc = some m) : loc ∈ footprint host (calls k).digest := by
  rcases hk with hk | ⟨own, hown, hentry⟩
  · exact howned.named k m hk loc hloc
  · rw [s.disk.single loc own m hloc hentry]
    exact hown

theorem System.Owned.lt_next {s : System ι} (howned : s.Owned host calls) {k : ι} {m : Nat}
    (hk : Reaches host (calls k).digest s.disk (s.pull k) m) : m < s.disk.next := by
  rcases hk with hk | ⟨own, _, hentry⟩
  · exact howned.allocated k m hk
  · exact s.disk.allocated own m hentry

include hapart

/-- No two calls can reach the same inode. -/
theorem System.Owned.private {s : System ι} (howned : s.Owned host calls) {j k : ι} (hne : j ≠ k)
    {m : Nat} (hj : Reaches host (calls j).digest s.disk (s.pull j) m) :
    ¬ Reaches host (calls k).digest s.disk (s.pull k) m := by
  have hdisjoint := Set.disjoint_left.mp (hapart hne)
  rintro (hk | ⟨loc, hloc, hentry⟩)
  · rcases hj with hj | ⟨loc, hloc, hentry⟩
    · exact howned.exclusive j k m hne hj hk
    · exact hdisjoint hloc (howned.named k m hk loc hentry)
  · exact hdisjoint (howned.named_of_reaches hj hentry) hloc

/-- Other calls' steps do not change what a call sees. -/
theorem System.Owned.frame {s : System ι} (howned : s.Owned host calls) {i k : ι} (hne : k ≠ i)
    {thread : Thread} {pull : Pull} {op : DiskOp}
    (hmove : PullMove host blake (calls i) s.disk (s.pull i) thread pull op)
    {alone : Disk} {handle : Nat}
    (hview : SameView (footprint host (calls k).digest) s.disk alone ((s.pull k).handles handle)) :
    SameView (footprint host (calls k).digest) (s.disk.apply 0 op) alone
      ((s.pull k).handles handle) := by
  refine hview.frame (hmove.confined (howned.coherent i)) (fun _ h => Set.disjoint_left.mp (hapart hne) h) ?_ ?_
  · intro loc hloc m hentry
    exact howned.private hapart hne (.inr ⟨loc, hloc, hentry⟩)
  · intro m j hhandles
    obtain ⟨m', hm', heq⟩ := Option.map_eq_some_iff.mp hhandles
    cases heq
    exact ⟨howned.allocated k m hm', howned.private hapart hne (.inl hm')⟩

variable [DecidableEq ι]

/-- **Ownership is kept by every step of every call.** -/
theorem System.Owned.move {s : System ι} (howned : s.Owned host calls) {i : ι} {thread : Thread}
    {pull : Pull} {op : DiskOp}
    (hmove : PullMove host blake (calls i) s.disk (s.pull i) thread pull op) :
    System.Owned host calls ⟨s.disk.apply 0 op, Function.update s.pull i pull⟩ := by
  have hop := hmove.confined (howned.coherent i)
  have hnext := s.disk.next_le_apply 0 op
  -- a handle after the step: reached before it, or the new inode of call `i`
  have horigin : ∀ k m, ((Function.update s.pull i pull) k).handle = some m →
      Reaches host (calls k).digest s.disk (s.pull k) m ∨
        k = i ∧ m = s.disk.next ∧ m < (s.disk.apply 0 op).next := by
    intro k m hk
    by_cases hki : k = i
    · subst hki
      rw [Function.update_self] at hk
      exact (hmove.handle_origin (howned.coherent k) hk).imp_right fun h => ⟨rfl, h⟩
    · rw [Function.update_of_ne hki] at hk
      exact .inl (.inl hk)
  constructor
  · intro k
    by_cases hki : k = i
    · subst hki
      simp only [Function.update_self]
      exact hmove.coherent (howned.coherent k)
    · simp only [Function.update_of_ne hki]
      exact howned.coherent k
  · intro k m hk
    rcases horigin k m hk with hold | ⟨_, _, hnew⟩
    · exact Nat.lt_of_lt_of_le (howned.lt_next hold) hnext
    · exact hnew
  · intro k m hk loc hloc
    rcases Store.entry_origin hop hloc with hsame | ⟨hmem, hfrom⟩
    · rcases horigin k m hk with hold | ⟨_, rfl, _⟩
      · exact howned.named_of_reaches hold hsame
      · exact absurd (s.disk.allocated loc _ hsame) (Nat.lt_irrefl _)
    · by_cases hki : k = i
      · rw [hki]
        exact hmem
      · have hold := (horigin k m hk).resolve_right fun h => hki h.1
        rcases hfrom with rfl | ⟨src, hsrc, hentry⟩
        · exact absurd (howned.lt_next hold) (Nat.lt_irrefl _)
        · exact absurd (.inr ⟨src, hsrc, hentry⟩) (howned.private hapart hki hold)
  · intro j k m hne hj hk
    rcases horigin j m hj with hoj | ⟨hji, rfl, _⟩
    · rcases horigin k m hk with hok | ⟨_, rfl, _⟩
      · exact howned.private hapart hne hoj hok
      · exact absurd (howned.lt_next hoj) (Nat.lt_irrefl _)
    · have hki : k ≠ i := fun h => hne (hji.trans h.symm)
      have hok := (horigin k _ hk).resolve_right fun h => hki h.1
      exact absurd (howned.lt_next hok) (Nat.lt_irrefl _)

/-! ### Interleavings with faults -/

variable (host blake codec calls) in
structure System.Separate (disk : Disk) (s : System ι) : Prop where
  owned : s.Owned host calls
  alone : ∀ k, ∃ t handle,
    ReflTransGen (World.Advance host blake codec (World.Settled host))
      ⟨disk, some (calls k, .start), []⟩ ⟨t, some (calls k, (s.pull k).at handle), []⟩ ∧
    SameView (footprint host (calls k).digest) s.disk t ((s.pull k).handles handle)
  outside : ∀ loc, (∀ k, loc ∉ footprint host (calls k).digest) → s.disk.read loc = disk.read loc

omit hapart [DecidableEq ι] in
theorem System.separate_initial (disk : Disk) :
    (System.initial disk).Separate host blake codec calls disk where
  owned := System.owned_initial disk
  alone _ := ⟨disk, 0, .refl, .refl _ disk⟩
  outside _ _ := rfl

theorem System.Separate.step {disk : Disk} {s s' : System ι}
    (hinv : s.Separate host blake codec calls disk)
    (hstep : System.Step host blake codec calls s s') :
    s'.Separate host blake codec calls disk := by
  obtain ⟨i, thread, hstep⟩ := hstep
  cases hstep with
  | move io h =>
    have hmove := pullStep_move h
    have hcoherent := hinv.owned.coherent i
    refine ⟨hinv.owned.move hapart hmove, fun k => ?_, fun loc hloc => ?_⟩
    · obtain ⟨t, handle, hrun, hview⟩ := hinv.alone k
      by_cases hk : k = i
      · subst hk
        obtain ⟨handle', op', hown, hview'⟩ := pullStep_alone hcoherent hview h
        simp only [Function.update_self]
        exact ⟨t.apply 0 op', handle',
          hrun.tail (.step thread io (fun _ => World.settled_of_adrift_nil) hown), hview'⟩
      · simp only [Function.update_of_ne hk]
        exact ⟨t, handle, hrun, hinv.owned.frame hapart hk hmove hview⟩
    · rw [← hinv.outside loc hloc]
      refine Store.read_apply_of_confined (hmove.confined hcoherent) (hloc i) ?_
      intro m hentry hreach
      exact hloc i (hinv.owned.named_of_reaches hreach hentry)

theorem System.separate_of_run {disk : Disk} {s : System ι}
    (hrun : ReflTransGen (System.Step host blake codec calls) (System.initial disk) s) :
    s.Separate host blake codec calls disk :=
  Runs.invariant (System.Separate host blake codec calls disk)
    (fun _ _ hinv hstep => hinv.step hapart hstep) (System.separate_initial disk) hrun

/-! ### Schedules without faults -/

variable (blake codec) in
/-- A call that has its turns among others stands where as many steps of its own
    bring it. -/
theorem System.schedule_alone (k : ι) :
    ∀ (order : List ι) (handle : Nat) {s : System ι} {t : Session}, s.Owned host calls →
      t.pull = (s.pull k).at handle →
      SameView (footprint host (calls k).digest) s.disk t.disk ((s.pull k).handles handle) →
      ∃ handle', let t' :=
            (Session.step host blake codec (calls k) (fun _ _ => .ok))^[order.count k] t
        t'.pull = ((System.schedule host blake codec calls order s).pull k).at handle' ∧
        SameView (footprint host (calls k).digest)
          (System.schedule host blake codec calls order s).disk t'.disk
          (((System.schedule host blake codec calls order s).pull k).handles handle') := by
  intro order
  induction order with
  | nil =>
    intro handle s t _ hpull hview
    exact ⟨handle, hpull, hview⟩
  | cons i rest ih =>
    intro handle s t howned hpull hview
    rw [System.schedule]
    rcases hstep : pullStep host blake codec (calls i) ((s.pull i).thread (calls i)) .ok s.disk
      (s.pull i) with _ | ⟨pull, op⟩
    · -- call `i` has nothing left to do: its turn passes
      by_cases hik : i = k
      · subst hik
        have hidle : t.step host blake codec (calls i) (fun _ _ => .ok) = t := by
          rw [Session.step, hpull, Pull.thread_at, pullStep_none_alone hstep]
        rw [List.count_cons_self, Function.iterate_succ_apply, hidle]
        exact ih handle howned hpull hview
      · rw [List.count_cons_of_ne hik]
        exact ih handle howned hpull hview
    · have hmove := pullStep_move hstep
      have howned' := howned.move hapart hmove
      by_cases hik : i = k
      · subst hik
        obtain ⟨handle₁, op', hown, hview₁⟩ := pullStep_alone (howned.coherent i) hview hstep
        have hupdate : (Function.update s.pull i pull) i = pull := Function.update_self _ _ _
        rw [List.count_cons_self, Function.iterate_succ_apply]
        refine ih handle₁ howned' ?_ ?_
        · rw [Session.step, hpull, Pull.thread_at, hown]
          exact congrArg (Pull.at handle₁) hupdate.symm
        · rw [Session.step, hpull, Pull.thread_at, hown]
          simp only [hupdate]
          exact hview₁
      · have hupdate : (Function.update s.pull i pull) k = s.pull k :=
          Function.update_of_ne (Ne.symm hik) _ _
        have hframe := howned.frame hapart (Ne.symm hik) hmove hview
        rw [List.count_cons_of_ne hik]
        refine ih handle howned' ?_ ?_
        · simp only [hupdate]
          exact hpull
        · simp only [hupdate]
          exact hframe

end Ownership

/-! ### Different digests are apart -/

theorem footprint_hex (host : Host) {digest : String} (hdigest : IsHexDigest digest) :
    footprint host digest = {(CACHE, digest), (CACHE, tempPath digest)} := by
  have hname := host.locate_plain (isPlainName_of_isHexDigest hdigest)
  have htemp := (host.locate_tempPath_hex hdigest).2
  ext loc
  simp only [footprint, hname, htemp, Set.mem_ofPred_eq, Option.some.injEq, Set.mem_insert_iff,
    Set.mem_singleton_iff, eq_comm (a := loc)]

/-- **Distinct hex digests share no entry.** -/
theorem apart_of_hex (host : Host) {digest digest' : String} (hdigest : IsHexDigest digest)
    (hdigest' : IsHexDigest digest') (hne : digest ≠ digest') : Apart host digest digest' := by
  have hlen : ∀ {d d' : String}, IsHexDigest d → IsHexDigest d' → d ≠ tempPath d' := by
    rintro d d' hd hd' rfl
    have := hd.1
    rw [tempPath, String.toList_append, List.length_append, hd'.1] at this
    exact absurd this (by decide)
  have htemp : tempPath digest ≠ tempPath digest' := by
    intro h
    exact hne (String.append_left_inj _ |>.mp h)
  rw [Apart, footprint_hex host hdigest, footprint_hex host hdigest', Set.disjoint_left]
  rintro _ (rfl | rfl) (h | h) <;> simp only [Set.mem_singleton_iff, Prod.mk.injEq, true_and] at h
  · exact hne h
  · exact hlen hdigest hdigest' h
  · exact hlen hdigest' hdigest h.symm
  · exact htemp h

namespace Sample

def strangers : Bool → PullCall
  | true => goodCall
  | false => call digestAB shuffled

def turns : List Bool := (List.replicate 40 [true, false]).flatten

def mingled : System Bool := System.schedule host blake3 codec strangers turns (System.initial disk)

theorem strangers_hex (i : Bool) : IsHexDigest (strangers i).digest := by
  cases i <;> decide +kernel

theorem strangers_distinct : Function.Injective fun i => (strangers i).digest := by
  have hne : digest ≠ digestAB := by decide
  intro i j h
  cases i <;> cases j
  · rfl
  · exact absurd h.symm hne
  · exact absurd h hne
  · rfl

theorem strangers_apart :
    Pairwise fun i j => Apart host (strangers i).digest (strangers j).digest :=
  fun i j hne => apart_of_hex host (strangers_hex i) (strangers_hex j) (strangers_distinct.ne hne)

end Sample

section Main

variable {ι : Type} [DecidableEq ι]
variable (host : Host) (blake : Blake3) (codec : HeaderCodec) (calls : ι → PullCall)

/-- **Concurrent pulls of entries that are apart do not see each other.**  However
    their steps interleave, and whatever faults the environment injects, each call
    stands where a run of its own on the starting disk can stand, up to the number of
    its handle, and finds the same files under its names; what no call names is as at
    the start. -/
theorem concurrent_pulls_independent
    (hapart : Pairwise fun i j => Apart host (calls i).digest (calls j).digest) {disk : Disk}
    {s : System ι}
    (hrun : ReflTransGen (System.Step host blake codec calls) (System.initial disk) s) :
    (∀ i, ∃ t handle,
      ReflTransGen (World.Advance host blake codec (World.Settled host))
        ⟨disk, some (calls i, .start), []⟩ ⟨t, some (calls i, (s.pull i).at handle), []⟩ ∧
      host.readFile s.disk (calls i).digest = host.readFile t (calls i).digest ∧
      host.readFile s.disk (tempPath (calls i).digest) =
        host.readFile t (tempPath (calls i).digest)) ∧
    ∀ loc, (∀ i, loc ∉ footprint host (calls i).digest) → s.disk.read loc = disk.read loc := by
  have hinv := System.separate_of_run hapart hrun
  refine ⟨fun i => ?_, hinv.outside⟩
  obtain ⟨t, handle, halone, hview⟩ := hinv.alone i
  exact ⟨t, handle, halone, readFile_of_view hview (.inl rfl), readFile_of_view hview (.inr rfl)⟩

theorem concurrent_pulls_independent_mingled :
    ∃ t handle, ReflTransGen
        (World.Advance Sample.host Sample.blake3 Sample.codec (World.Settled Sample.host))
        ⟨Sample.disk, some (Sample.strangers true, .start), []⟩
        ⟨t, some (Sample.strangers true, (Sample.mingled.pull true).at handle), []⟩ := by
  have hrun : ReflTransGen (System.Step Sample.host Sample.blake3 Sample.codec Sample.strangers)
      (System.initial Sample.disk) Sample.mingled := System.schedule_run _ _ _ _ _ _
  obtain ⟨t, handle, halone, _⟩ := (concurrent_pulls_independent Sample.host Sample.blake3
    Sample.codec Sample.strangers Sample.strangers_apart hrun).1 true
  exact ⟨t, handle, halone⟩

/-- **A scheduler that gives a call enough turns gives it the result it has alone.**
    The order of the turns and the other calls do not matter. -/
theorem scheduled_pull_outcome
    (hapart : Pairwise fun i j => Apart host (calls i).digest (calls j).digest) (disk : Disk)
    (order : List ι) (i : ι)
    (hturns : Pull.remaining (calls i) .start ≤ order.count i) :
    ((System.schedule host blake codec calls order (System.initial disk)).pull i).pc =
        (pullWithOptions host blake codec (calls i) disk).2 ∧
      host.readFile (System.schedule host blake codec calls order (System.initial disk)).disk
          (calls i).digest =
        host.readFile (pullWithOptions host blake codec (calls i) disk).1 (calls i).digest := by
  obtain ⟨handle, hpull, hview⟩ := System.schedule_alone blake codec hapart i order 0
    (t := .start disk) (System.owned_initial disk) rfl (.refl _ disk)
  -- turns beyond the bound change nothing
  have hend : (Session.step host blake codec (calls i) (fun _ _ => .ok))^[order.count i]
      (Session.start disk) =
        Session.returned host blake codec (calls i) (fun _ _ => .ok) disk :=
    Session.iterate_of_remaining_le (Nat.le_refl _) hturns
  rw [hend] at hpull hview
  obtain ⟨result, hdone⟩ := pullWithOptions_returns host blake codec (calls i) disk
  have hpc : (pullWithOptions host blake codec (calls i) disk).2 =
      ((System.schedule host blake codec calls order (System.initial disk)).pull i).pc.at handle :=
    congrArg Pull.pc hpull
  rw [hpc] at hdone ⊢
  rw [Pc.eq_done_of_at hdone]
  exact ⟨rfl, readFile_of_view hview (.inl rfl)⟩

theorem scheduled_pull_outcome_mingled :
    (Sample.mingled.pull false).pc = (pullWithOptions Sample.host Sample.blake3 Sample.codec
        (Sample.strangers false) Sample.disk).2 ∧
      Sample.host.readFile Sample.mingled.disk Sample.digestAB =
        Sample.host.readFile (pullWithOptions Sample.host Sample.blake3 Sample.codec
          (Sample.strangers false) Sample.disk).1 Sample.digestAB :=
  scheduled_pull_outcome Sample.host Sample.blake3 Sample.codec Sample.strangers
    Sample.strangers_apart Sample.disk Sample.turns false (by decide +kernel)

/-- **Pulls of different digests into an empty cache return verified files only**, in
    every interleaving and under every fault. -/
theorem concurrent_digests_verified (hdigest : ∀ i, IsHexDigest (calls i).digest)
    (hdistinct : Function.Injective fun i => (calls i).digest) {disk : Disk}
    (hempty : EmptyCache disk) {s : System ι}
    (hrun : ReflTransGen (System.Step host blake codec calls) (System.initial disk) s) {i : ι}
    {path : String} (hdone : (s.pull i).pc = .done (.ok path)) :
    VerifiedFile host blake s.disk path (calls i).digest := by
  have hapart : Pairwise fun i j => Apart host (calls i).digest (calls j).digest :=
    fun j k hne => apart_of_hex host (hdigest j) (hdigest k) (hdistinct.ne hne)
  obtain ⟨t, handle, halone, hview⟩ := (System.separate_of_run hapart hrun).alone i
  have hreturned : ((s.pull i).at handle).pc = .done (.ok path) := congrArg (Pc.at handle) hdone
  obtain ⟨hinv, _⟩ := World.call_run (World.inv_of_emptyCache hempty) halone
  obtain ⟨rfl, hfound⟩ := (hinv.call _ _ rfl).returned path hreturned
  obtain ⟨hwalk, file, hfile, hhash⟩ := verifiedFile_of_pathExists hinv.addressed (hdigest i) hfound
  refine ⟨hwalk, file, ?_, hhash⟩
  rw [readFile_of_view hview (.inl rfl)]
  exact hfile

theorem concurrent_digests_verified_mingled :
    VerifiedFile Sample.host Sample.blake3 Sample.mingled.disk Sample.digestAB Sample.digestAB :=
  concurrent_digests_verified Sample.host Sample.blake3 Sample.codec Sample.strangers
    Sample.strangers_hex Sample.strangers_distinct (fun _ => rfl)
    (System.schedule_run _ _ _ _ _ _) (i := false) (by decide +kernel)

end Main

end FurcateMesh.Transfer
