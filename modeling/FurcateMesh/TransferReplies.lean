import FurcateMesh.TransferReceive

/-!
# What a failed call leaves behind

The replies of a pull come from peers that are not trusted, and a call may fail at any of
them.  The theorem here is about every way a call can fail, under any faults of the
environment and any timing of the blocking pool.

The temp file is removed only after the reply loop has ended, not on the way out of it.
So a failed call leaves the cache directory as it was exactly when it came to the end of
the loop and the removal worked (`failed_pull_unchanged_iff`).  A piece that is still in
flight when the temp file is removed lands in an inode that has no name any more.

`Progress` says where a call stands on a disk that had no temp file when it started:
before the temp file is opened nothing has changed, from then on the temp file is the
only difference, and a call that has returned has either removed it or left it.  `OnlyTemp`
is the middle part; it names the inode of the temp file, so that a piece in flight is known
to land there and nowhere else.

An I/O failure can come from any operation, before the temp file is opened, in the loop or
after it, so calls that return `Io` are not in the theorem.
-/

namespace FurcateMesh.Transfer

open InodeStore SparseFile

section Failed

variable {host : Host} {blake : Blake3} {codec : HeaderCodec} {call : PullCall}
  {faults : Thread → Pc → Io}

variable (host call) in
/-- The cache directory has the files it had, and no temp file. -/
def CacheUnchanged (start disk : Disk) : Prop :=
  (∀ name, disk.read (CACHE, name) = start.read (CACHE, name)) ∧
    host.pathExists disk (tempPath call.digest) = false

variable (blake codec call) in
/-- The query is sent and every reply passes the checks of the loop. -/
def AllAccepted : Prop :=
  ∃ replies, call.replies = .ok replies ∧
    ∀ reply ∈ replies, ∃ chunk, acceptReply blake codec reply = .ok chunk

variable (blake codec call) in
def Pc.Accepted : Pc → Prop
  | .recv _ _ _ pending | .seek _ _ pending _ _ | .write _ _ pending _ _ _ =>
      ∃ before, call.replies = .ok (before ++ pending) ∧
        ∀ reply ∈ before, ∃ chunk, acceptReply blake codec reply = .ok chunk
  | .flush _ | .hashTemp | .renameTemp | .removeTemp _ => AllAccepted blake codec call
  | _ => True

theorem Pc.Accepted.step {io : Io} {disk : Disk} {s s' : Pull} {thread : Thread} {op : DiskOp}
    (h : s.pc.Accepted blake codec call)
    (hbranch : PullBranch host blake codec call io disk s thread s' op) :
    s'.pc.Accepted blake codec call := by
  cases hbranch with
  | sent hpc hreplies => exact ⟨[], hreplies, by simp⟩
  | incomplete error hpc | complete hpc =>
    rw [hpc] at h
    obtain ⟨before, hreplies, hbefore⟩ := h
    exact ⟨before, by rw [hreplies, List.append_nil], hbefore⟩
  | accepted hpc haccept =>
    rw [hpc] at h
    obtain ⟨before, hreplies, hbefore⟩ := h
    refine ⟨before ++ [_], by rw [hreplies, List.append_assoc]; rfl, ?_⟩
    intro reply hmem
    rcases List.mem_append.mp hmem with hmem | hmem
    · exact hbefore reply hmem
    · rw [List.mem_singleton.mp hmem]
      exact ⟨_, haccept⟩
  | sought hpc | handed hpc | wrote hpc | flushed hpc | mismatched error hpc | verified hpc =>
    rw [hpc] at h
    exact h
  | landed => exact h
  | _ => trivial

variable (host call) in
/-- The disk differs from the one at the start in the temp file only, which is open and
    is where a piece in flight will land. -/
def OnlyTemp (start disk : Disk) (queued : Option QueuedWrite) (handle : Nat) : Prop :=
  ∃ loc, host.locate (tempPath call.digest) = some loc ∧ disk.entry loc = some handle ∧
    (∀ other, other ≠ loc → disk.read other = start.read other) ∧
    ∀ q, queued = some q → q.handle = handle

theorem OnlyTemp.not_unchanged {start disk : Disk} {queued : Option QueuedWrite} {handle : Nat}
    (h : OnlyTemp host call start disk queued handle) : ¬ CacheUnchanged host call start disk := by
  obtain ⟨loc, hloc, hentry, -⟩ := h
  rintro ⟨-, habsent⟩
  simp [Host.pathExists, Host.readFile, hloc, Store.read, hentry] at habsent

theorem OnlyTemp.land {start disk : Disk} {q : QueuedWrite} {handle : Nat} (io : Io)
    (h : OnlyTemp host call start disk (some q) handle) :
    OnlyTemp host call start (disk.apply 0 (q.land host io).2) none handle := by
  obtain ⟨loc, hloc, hentry, hother, hqueued⟩ := h
  obtain ⟨error, stored, hland, -⟩ := q.land_cases host io
  rw [hland]
  refine ⟨loc, hloc, hentry, ?_, fun q' hq' => by cases hq'⟩
  intro other hne
  rw [Store.apply, disk.read_setData_of_ne _ fun heq => hne ?_]
  · exact hother other hne
  · rw [hqueued q rfl] at heq
    exact disk.single other loc handle heq hentry

theorem OnlyTemp.create {disk : Disk} {loc : Loc}
    (hloc : host.locate (tempPath call.digest) = some loc) :
    OnlyTemp host call disk (disk.create loc) none disk.next :=
  ⟨loc, hloc, by simp only [Store.create, Function.update_self],
    fun _ hne => disk.read_create_of_ne hne, fun _ hq => by cases hq⟩

theorem pathExists_eq_false_iff {disk : Disk} {path : String} :
    host.pathExists disk path = false ↔
      host.walk path = none ∧ ∀ loc, host.locate path = some loc → disk.entry loc = none := by
  simp only [Host.pathExists, Host.readFile, Bool.or_eq_false_iff, Option.isSome_eq_false_iff,
    Option.isNone_iff_eq_none, Option.bind_eq_none_iff, Store.read, Option.map_eq_none_iff]

variable (host call) in
def Removed (start disk : Disk) (queued : Option QueuedWrite) : Prop :=
  CacheUnchanged host call start disk ∧
    ∀ q, queued = some q → ∀ loc, disk.entry loc ≠ some q.handle

theorem OnlyTemp.unlink {start disk : Disk} {queued : Option QueuedWrite} {handle : Nat} {loc : Loc}
    (habsent : host.pathExists start (tempPath call.digest) = false)
    (h : OnlyTemp host call start disk queued handle)
    (hloc : host.locate (tempPath call.digest) = some loc) :
    Removed host call start (disk.unlink loc) queued := by
  obtain ⟨loc', hloc', hentry, hother, hqueued⟩ := h
  cases hloc.symm.trans hloc'
  rw [pathExists_eq_false_iff] at habsent
  have hgone : (disk.unlink loc).entry loc = none := by simp only [Store.unlink, Function.update_self]
  refine ⟨⟨fun name => ?_, ?_⟩, fun q hq other hnamed => ?_⟩
  · by_cases hname : (CACHE, name) = loc
    · rw [hname, Store.read, Store.read, hgone, habsent.2 loc hloc, Option.map_none,
        Option.map_none]
    · rw [disk.read_unlink_of_ne hname, hother _ hname]
  · rw [pathExists_eq_false_iff]
    refine ⟨habsent.1, ?_⟩
    intro other hother
    cases hloc.symm.trans hother
    exact hgone
  · -- the temp file was the only name of its inode
    rw [hqueued q hq] at hnamed
    by_cases hsame : other = loc
    · rw [hsame, hgone] at hnamed
      cases hnamed
    · simp only [Store.unlink, Function.update_of_ne hsame] at hnamed
      exact hsame (disk.single _ _ _ hnamed hentry)

theorem Removed.land {start disk : Disk} {q : QueuedWrite} (io : Io)
    (h : Removed host call start disk (some q)) :
    Removed host call start (disk.apply 0 (q.land host io).2) none := by
  obtain ⟨⟨hread, habsent⟩, hfree⟩ := h
  obtain ⟨error, stored, hland, -⟩ := q.land_cases host io
  rw [hland]
  refine ⟨⟨fun name => ?_, ?_⟩, fun q' hq' => by cases hq'⟩
  · rw [Store.apply, disk.read_setData_of_ne _ (hfree q rfl _)]
    exact hread name
  · rw [Store.apply, Host.pathExists_setData]
    exact habsent

variable (host blake codec call faults) in
def Progress (start disk : Disk) (queued : Option QueuedWrite) : Pc → Prop
  | .createDir | .checkExists | .openTemp => disk = start ∧ queued = none
  | .get handle | .recv handle _ _ _ | .seek handle _ _ _ _ | .write handle _ _ _ _ _
  | .flush handle => OnlyTemp host call start disk queued handle
  | .hashTemp | .renameTemp | .removeTemp _ => ∃ handle, OnlyTemp host call start disk queued handle
  | .done (.ok _) => True
  | .done (.error e) =>
      (∀ error, e ≠ .io error) →
        Removed host call start disk queued ∧
            (AllAccepted blake codec call ∧ faults .task (.removeTemp e) = .ok) ∨
          (∃ handle, OnlyTemp host call start disk queued handle) ∧
            ¬ (AllAccepted blake codec call ∧ faults .task (.removeTemp e) = .ok)

section Progress

variable {start disk : Disk} {s : Pull}

theorem Progress.land {pc : Pc} {q : QueuedWrite} (io : Io)
    (h : Progress host blake codec call faults start disk (some q) pc) :
    Progress host blake codec call faults start (disk.apply 0 (q.land host io).2) none pc := by
  have hopen : (∃ handle, OnlyTemp host call start disk (some q) handle) →
      ∃ handle, OnlyTemp host call start (disk.apply 0 (q.land host io).2) none handle :=
    fun ⟨handle, htemp⟩ => ⟨handle, htemp.land io⟩
  cases pc with
  | createDir => cases h.2
  | checkExists => cases h.2
  | openTemp => cases h.2
  | hashTemp => exact hopen h
  | renameTemp => exact hopen h
  | removeTemp error => exact hopen h
  | done result =>
    cases result with
    | ok path => trivial
    | error e => exact fun hio => (h hio).imp (And.imp_left (Removed.land io)) (And.imp_left hopen)
  | _ => exact OnlyTemp.land io h

theorem Progress.io (queued : Option QueuedWrite) (error : IoError) :
    Progress host blake codec call faults start disk queued (.done (.error (.io error))) :=
  fun hio => absurd rfl (hio error)

/-- **One step of a call**, from where it stands to where it stands next. -/
theorem Progress.step {thread : Thread} {s' : Pull} {op : DiskOp}
    (habsent : host.pathExists start (tempPath call.digest) = false)
    (h : Progress host blake codec call faults start disk s.queued s.pc)
    (haccepted : s.pc.Accepted blake codec call)
    (hbranch : PullBranch host blake codec call (faults thread s.pc) disk s thread s' op) :
    Progress host blake codec call faults start (disk.apply 0 op) s'.queued s'.pc := by
  cases hbranch with
  | faulted | unopened | unsought | unwritten | unflushed | unread | unrenamed => exact .io _ _
  | dirReady hpc | missing hpc => rw [hpc] at h; exact h
  | cached | renamed => trivial
  | opened hpc hopen =>
    rw [hpc] at h
    obtain ⟨rfl, hqueued⟩ := h
    obtain ⟨loc, hloc, ⟨hentry, -⟩ | ⟨-, rfl, rfl⟩⟩ := openTruncate_cases hopen
    · rw [(pathExists_eq_false_iff.mp habsent).2 loc hloc] at hentry
      cases hentry
    · rw [Pull.to_queued, hqueued]
      exact OnlyTemp.create hloc
  | unsent error hpc hunsent =>
    rw [hpc] at h
    refine fun _ => .inr ⟨⟨_, h⟩, ?_⟩
    rintro ⟨⟨replies, hok, -⟩, -⟩
    cases hunsent.symm.trans hok
  | refused hpc hrefused =>
    rw [hpc] at h haccepted
    obtain ⟨before, hreplies, -⟩ := haccepted
    refine fun _ => .inr ⟨⟨_, h⟩, ?_⟩
    rintro ⟨⟨replies, hok, hall⟩, -⟩
    cases hreplies.symm.trans hok
    obtain ⟨chunk, hchunk⟩ := hall _ (List.mem_append_right _ List.mem_cons_self)
    cases hrefused.symm.trans hchunk
  | sent hpc | complete hpc | accepted hpc | sought hpc | wrote hpc => rw [hpc] at h; exact h
  | handed hpc =>
    rw [hpc] at h
    obtain ⟨loc, hloc, hentry, hother, -⟩ := h
    exact ⟨loc, hloc, hentry, hother, fun q hq => by cases hq; rfl⟩
  | incomplete error hpc | flushed hpc => rw [hpc] at h; exact ⟨_, h⟩
  | mismatched error hpc | verified hpc => rw [hpc] at h; exact h
  | removed hpc hio hremove =>
    rw [hpc] at h haccepted hio
    obtain ⟨handle, htemp⟩ := h
    obtain ⟨loc, hloc, rfl⟩ := removeFile_cases hremove
    exact fun _ => .inl ⟨htemp.unlink habsent hloc, haccepted, hio⟩
  | unremoved hpc hnot =>
    rw [hpc] at h hnot
    refine fun _ => .inr ⟨h, ?_⟩
    rintro ⟨-, hio⟩
    obtain ⟨handle, loc, hloc, hentry, -⟩ := h
    exact hnot (.unlink loc) hio (by simp only [Host.removeFile, hloc, hentry])
  | landed hqueued =>
    rw [hqueued] at h
    exact h.land _

end Progress

theorem Session.run_accepted (disk : Disk) (n : Nat) :
    (Session.run host blake codec call faults disk n).pull.pc.Accepted blake codec call :=
  Session.run_invariant (fun s => s.pull.pc.Accepted blake codec call) trivial
    (fun _ _ _ _ _ _ h hbranch => h.step hbranch) n

theorem Session.run_progress {disk : Disk}
    (habsent : host.pathExists disk (tempPath call.digest) = false) (n : Nat) :
    Progress host blake codec call faults disk
      (Session.run host blake codec call faults disk n).disk
      (Session.run host blake codec call faults disk n).pull.queued
      (Session.run host blake codec call faults disk n).pull.pc := by
  refine Session.run_invariant
    (fun s => Progress host blake codec call faults disk s.disk s.pull.queued s.pull.pc)
    ⟨rfl, rfl⟩ ?_ n
  rintro n s thread pull op rfl h hbranch
  exact h.step habsent (Session.run_accepted disk n) hbranch

variable (host blake codec call faults) in
/-- **When a failed pull leaves the cache as it was.**  Whatever the peers reply,
    whichever operations of the environment fail and whenever the pieces land: a call that
    starts without a temp file and returns an error other than `Io` leaves the cache
    directory unchanged iff the query was sent, every reply passed the checks of the loop,
    and the removal of the temp file, whose result the code ignores, succeeded. -/
theorem failed_pull_unchanged_iff (disk : Disk) (e : TransferError)
    (habsent : host.pathExists disk (tempPath call.digest) = false)
    (hreturn : (Session.returned host blake codec call faults disk).pull.pc = .done (.error e))
    (hio : ∀ error, e ≠ .io error) :
    CacheUnchanged host call disk (Session.returned host blake codec call faults disk).disk ↔
      AllAccepted blake codec call ∧ faults .task (.removeTemp e) = .ok := by
  have hprogress := @Session.run_progress host blake codec call faults disk habsent
    (Pull.remaining call .start)
  rw [Session.returned] at hreturn
  rw [hreturn] at hprogress
  rcases hprogress hio with ⟨hremoved, hcond⟩ | ⟨⟨handle, htemp⟩, hcond⟩
  · exact iff_of_true hremoved.1 hcond
  · exact iff_of_false htemp.not_unchanged hcond

/-- A call that no peer answers leaves nothing behind. -/
theorem failed_pull_unanswered :
    (Session.returned Sample.host Sample.blake3 Sample.codec (Sample.call Sample.digest [])
      (fun _ _ => .ok) Sample.disk).pull.pc =
        .done (.error (.peerMissing Sample.peer Sample.digest)) ∧
    CacheUnchanged Sample.host (Sample.call Sample.digest []) Sample.disk
      (Session.returned Sample.host Sample.blake3 Sample.codec (Sample.call Sample.digest [])
        (fun _ _ => .ok) Sample.disk).disk := by
  have hreturn : (Session.returned Sample.host Sample.blake3 Sample.codec
      (Sample.call Sample.digest []) (fun _ _ => .ok) Sample.disk).pull.pc =
        .done (.error (.peerMissing Sample.peer Sample.digest)) := by
    decide +kernel
  refine ⟨hreturn, (failed_pull_unchanged_iff _ _ _ _ _ _ _ (by decide +kernel) hreturn
    (by simp)).mpr ⟨⟨[], rfl, by simp⟩, rfl⟩⟩

/-- A good chunk and then an error reply: the call fails with `Transport`, without any
    fault of the environment, and the chunk stays in `<digest>.partial`. -/
theorem failed_pull_leaves_partial :
    Sample.host.pathExists Sample.disk Sample.digest = false ∧
    Sample.host.pathExists Sample.disk (tempPath Sample.digest) = false ∧
    (Session.returned Sample.host Sample.blake3 Sample.codec
      (Sample.call Sample.digest [Sample.reply 0 [0x61] true, .error (some "gone")])
      (fun _ _ => .ok) Sample.disk).pull.pc = .done (.error (.transport "reply error: gone")) ∧
    Sample.host.readFile (Session.returned Sample.host Sample.blake3 Sample.codec
      (Sample.call Sample.digest [Sample.reply 0 [0x61] true, .error (some "gone")])
      (fun _ _ => .ok) Sample.disk).disk (tempPath Sample.digest) = some [0x61] := by
  refine ⟨?_, ?_, ?_, ?_⟩
  all_goals decide +kernel

end Failed

end FurcateMesh.Transfer
