import FurcateMesh.TransferPull

/-!
# One call from its start to its return

`Session` runs one call of `pull_with_options` step by step.  Which of the two
threads moves is decided by the call's own environment: the pool moves when the task
waits for it, and before that if `PullCall.lands` says so.  Since no program point
comes back, a function of the program point covers every timing of the pool, and
`faults`, a function of the thread and the program point, every pattern of faults.
`Pc.at` gives a program point another handle: the number of an inode has no part in either
function, so a call behaves alike on disks that differ in their inode numbers.

A session also records the temp file the call opened and the chunks `write_all` took.
The code keeps neither; the theorems about what a reply can reach speak of both.

A call returns because `Pull.remaining` goes down with every step.  The bound counts the
program points that are left, and for each reply the pieces its chunk is cut into, of which
there are no more than it has bytes.

`Session.run_invariant` is the induction over the steps of a call, from which every
fact about its intermediate states is derived, and `Session.returned_done` says that
the call returns, so a fact about its result is a fact about a state it reaches.
-/

namespace FurcateMesh.Transfer

open InodeStore

structure Session where
  disk : Disk
  pull : Pull
  temp : Option Nat
  written : List (ChunkHeader × Bytes)

/-- The task waits here until the piece in flight has landed. -/
def Pc.awaits : Pc → Bool
  | .seek _ _ _ _ _ | .flush _ => true
  | .write _ _ _ _ chunk sent => sent < chunk.length
  | _ => false

def Pc.at (handle : Nat) : Pc → Pc
  | .get _ => .get handle
  | .recv _ gotAny gotLast pending => .recv handle gotAny gotLast pending
  | .seek _ gotLast pending header chunk => .seek handle gotLast pending header chunk
  | .write _ gotLast pending header chunk sent => .write handle gotLast pending header chunk sent
  | .flush _ => .flush handle
  | pc => pc

def Pull.thread (call : PullCall) (s : Pull) : Thread :=
  if s.queued.isSome && (s.pc.awaits || call.lands (s.pc.at 0)) then .pool else .task

/-- The handle a step that ends here has just opened. -/
def Pc.opened : Pc → Option Nat
  | .get handle => some handle
  | _ => none

/-- The chunk that `write_all` takes in a step: its first piece is handed over, or
    it is empty and there is nothing to hand over. -/
def Pc.takes : Pc → Pc → List (ChunkHeader × Bytes)
  | .write _ _ _ header chunk 0, .write _ _ _ _ _ (_ + 1) => [(header, chunk)]
  | .write _ _ _ header chunk 0, .recv _ _ _ _ => [(header, chunk)]
  | _, _ => []

@[simp] theorem Pc.takes_done (pc : Pc) (result : Except TransferError String) :
    pc.takes (.done result) = [] := by
  unfold Pc.takes
  split <;> first | rfl | contradiction

@[simp] theorem Pc.takes_self (pc : Pc) : pc.takes pc = [] := by
  cases pc with
  | write handle gotLast pending header chunk sent => cases sent <;> rfl
  | _ => rfl

section Session

variable (host : Host) (blake : Blake3) (codec : HeaderCodec) (call : PullCall)
  (faults : Thread → Pc → Io)

def Session.step (s : Session) : Session :=
  match pullStep host blake codec call (s.pull.thread call)
      (faults (s.pull.thread call) s.pull.pc) s.disk s.pull with
  | none => s
  | some (pull, op) =>
      ⟨s.disk.apply 0 op, pull, pull.pc.opened.or s.temp, s.written ++ s.pull.pc.takes pull.pc⟩

def Session.start (disk : Disk) : Session := ⟨disk, .start, none, []⟩

def Session.run (disk : Disk) (n : Nat) : Session :=
  (Session.step host blake codec call faults)^[n] (Session.start disk)

variable {host blake codec call faults}

theorem Session.run_succ (disk : Disk) (n : Nat) :
    Session.run host blake codec call faults disk (n + 1) =
      (Session.run host blake codec call faults disk n).step host blake codec call faults :=
  Function.iterate_succ_apply' _ _ _

/-- What holds at the start and is kept by every step of the call holds in all its
    states.  The step starts from a state of the same call, of which earlier invariants
    are known. -/
theorem Session.run_invariant {disk : Disk} (Inv : Session → Prop) (hstart : Inv (.start disk))
    (hstep : ∀ n s thread pull op, Session.run host blake codec call faults disk n = s → Inv s →
      PullBranch host blake codec call (faults thread s.pull.pc) s.disk s.pull thread pull op →
      Inv ⟨s.disk.apply 0 op, pull, pull.pc.opened.or s.temp,
        s.written ++ s.pull.pc.takes pull.pc⟩) :
    ∀ n, Inv (Session.run host blake codec call faults disk n) := by
  intro n
  induction n with
  | zero => exact hstart
  | succ n ih =>
    rw [Session.run_succ, Session.step]
    split
    · exact ih
    · next pull op hmove => exact hstep n _ _ pull op rfl ih (pullStep_branch hmove)

/-- A step that takes a chunk starts at the write of it, and finds no failed piece to
    report unless the chunk is empty. -/
theorem PullBranch.takes {io : Io} {disk : Disk} {s s' : Pull} {thread : Thread} {op : DiskOp}
    {chunk : ChunkHeader × Bytes} (h : PullBranch host blake codec call io disk s thread s' op)
    (hmem : chunk ∈ s.pc.takes s'.pc) :
    (∃ handle gotLast pending, s.pc = .write handle gotLast pending chunk.1 chunk.2 0) ∧
      (chunk.2 ≠ [] → s.queued = none ∧ s.writeError = none) := by
  cases h with
  | @handed handle gotLast pending header bytes sent hpc hsent hqueued herror =>
    cases sent with
    | zero =>
      have hchunk : chunk = (header, bytes) := by
        rw [hpc] at hmem
        unfold Pc.takes at hmem
        split at hmem
        · next heq _ => cases heq; exact List.mem_singleton.mp hmem
        · next heq _ => cases heq; exact List.mem_singleton.mp hmem
        · cases hmem
      rw [hchunk]
      exact ⟨⟨handle, gotLast, pending, hpc⟩, fun _ => ⟨hqueued, herror⟩⟩
    | succ sent => rw [hpc] at hmem; cases hmem
  | @wrote handle gotLast pending header bytes sent hpc hsent =>
    cases sent with
    | zero =>
      rw [hpc] at hmem
      rw [List.mem_singleton.mp hmem]
      refine ⟨⟨handle, gotLast, pending, hpc⟩, fun hne => absurd ?_ hne⟩
      exact List.length_eq_zero_iff.mp (Nat.le_zero.mp hsent)
    | succ sent => rw [hpc] at hmem; cases hmem
  | dirReady hpc | missing hpc | opened hpc | sent hpc | incomplete error hpc | complete hpc
  | accepted hpc | sought hpc | flushed hpc | mismatched error hpc | verified hpc =>
    rw [hpc] at hmem
    cases hmem
  | landed => rw [Pc.takes_self] at hmem; cases hmem
  | _ => rw [Pull.to_pc, Pc.takes_done] at hmem; cases hmem

end Session

/-! ### A call returns

Every task step lowers a bound on the steps of the task, and the pool can take at
most one step between two of them. -/

def Reply.size : Reply → Nat
  | .error _ => 0
  | .sample _ payload => payload.length

def repliesCost (replies : List Reply) : Nat := (replies.map fun reply => reply.size + 3).sum

def PullCall.cost (call : PullCall) : Nat :=
  match call.replies with
  | .ok replies => repliesCost replies
  | .error _ => 0

/-- A bound on the steps the task still has to take. -/
def Pc.remaining (call : PullCall) : Pc → Nat
  | .createDir => call.cost + 8
  | .checkExists => call.cost + 7
  | .openTemp => call.cost + 6
  | .get _ => call.cost + 5
  | .recv _ _ _ pending => repliesCost pending + 4
  | .seek _ _ pending _ chunk => repliesCost pending + chunk.length + 6
  | .write _ _ pending _ chunk sent => repliesCost pending + (chunk.length - sent) + 5
  | .flush _ => 3
  | .hashTemp => 2
  | .renameTemp => 1
  | .removeTemp _ => 1
  | .done _ => 0

def Pull.remaining (call : PullCall) (s : Pull) : Nat :=
  2 * s.pc.remaining call + if s.queued.isSome then 1 else 0

section Returns

variable {host : Host} {blake : Blake3} {codec : HeaderCodec} {call : PullCall}
  {faults : Thread → Pc → Io}

theorem Pc.done_of_remaining_eq_zero {pc : Pc} (h : pc.remaining call = 0) :
    ∃ result, pc = .done result := by
  cases pc with
  | done result => exact ⟨result, rfl⟩
  | _ => simp only [Pc.remaining] at h; omega

theorem acceptReply_payload {reply : Reply} {header : ChunkHeader} {chunk : Bytes}
    (h : acceptReply blake codec reply = .ok (header, chunk)) :
    ∃ attachment, reply = .sample attachment chunk := by
  unfold acceptReply at h
  split at h
  · cases h
  · cases h
  · next attachment payload =>
    split at h
    · cases h
    · split at h
      · cases h
      · cases h
        exact ⟨_, rfl⟩

theorem PullBranch.task_remaining {io : Io} {disk : Disk} {s s' : Pull} {op : DiskOp}
    (h : PullBranch host blake codec call io disk s .task s' op) :
    s'.pc.remaining call < s.pc.remaining call := by
  cases h with
  | faulted error written hio hpc =>
    refine Nat.pos_of_ne_zero ?_
    intro hzero
    obtain ⟨result, hdone⟩ := Pc.done_of_remaining_eq_zero hzero
    exact hpc result hdone
  | sent hpc hreplies =>
    simp only [hpc, Pull.to_pc, Pc.remaining, PullCall.cost, hreplies]
    omega
  | accepted hpc haccept =>
    obtain ⟨attachment, rfl⟩ := acceptReply_payload haccept
    simp only [hpc, Pull.to_pc, Pc.remaining, repliesCost, List.map_cons, List.sum_cons, Reply.size]
    omega
  | handed hpc hsent =>
    have hbuffer := host.bufferSize_pos
    simp only [hpc, Pc.remaining, List.length_take, List.length_drop]
    omega
  | unsent error hpc | refused hpc | incomplete error hpc | complete hpc | unsought hpc | sought hpc
  | unwritten hpc | wrote hpc | dirReady hpc | cached hpc | missing hpc | unopened hpc | opened hpc
  | removed hpc | unremoved hpc | unflushed hpc | flushed hpc | unread hpc | mismatched error hpc
  | verified hpc | unrenamed hpc | renamed hpc =>
    simp only [hpc, Pull.to_pc, Pc.remaining]
    omega

/-- **Every step uses up a unit of the bound.** -/
theorem PullBranch.remaining {thread : Thread} {io : Io} {disk : Disk} {s s' : Pull} {op : DiskOp}
    (h : PullBranch host blake codec call io disk s thread s' op) :
    s'.remaining call < s.remaining call := by
  cases thread with
  | task =>
    have hless := h.task_remaining
    simp only [Pull.remaining]
    split <;> omega
  | pool =>
    cases h with
    | landed hqueued => simp [Pull.remaining, hqueued]

/-- The task takes a step unless it has returned or waits for the pool. -/
theorem taskStep_ne_none {io : Io} {disk : Disk} {s : Pull} (hpc : ∀ result, s.pc ≠ .done result)
    (hidle : s.pc.awaits = true → s.queued = none) :
    taskStep host blake codec call io disk s ≠ none := by
  intro h
  unfold taskStep at h
  split at h
  all_goals
    repeat' split at h
    all_goals first | (simp at h; done) | simp_all [Pc.awaits]

theorem done_of_pullStep_eq_none {io : Io} {disk : Disk} {s : Pull}
    (h : pullStep host blake codec call (s.thread call) io disk s = none) :
    ∃ result, s.pc = .done result := by
  by_contra hreturned
  unfold Pull.thread at h
  split at h
  · next hpool =>
    rw [Bool.and_eq_true, Option.isSome_iff_exists] at hpool
    obtain ⟨⟨q, hqueued⟩, -⟩ := hpool
    simp [pullStep, poolStep, hqueued] at h
  · next htask =>
    refine taskStep_ne_none (fun result hdone => hreturned ⟨result, hdone⟩) ?_ h
    intro hawaits
    simpa [hawaits] using htask

/-- A call that has returned stays so: only the pool can still take a step. -/
theorem PullBranch.done {thread : Thread} {io : Io} {disk : Disk} {s s' : Pull} {op : DiskOp}
    (h : PullBranch host blake codec call io disk s thread s' op)
    {result : Except TransferError String} (hdone : s.pc = .done result) :
    s'.pc = .done result := by
  cases thread with
  | task =>
    have hless := h.task_remaining
    rw [hdone, Pc.remaining] at hless
    exact absurd hless (Nat.not_lt_zero _)
  | pool =>
    cases h with
    | landed hqueued => exact hdone

variable (host blake codec call faults) in
theorem Session.run_remaining (disk : Disk) (n : Nat) :
    (∃ result, (Session.run host blake codec call faults disk n).pull.pc = .done result) ∨
      (Session.run host blake codec call faults disk n).pull.remaining call + n ≤
        Pull.remaining call .start := by
  induction n with
  | zero => exact .inr (Nat.le_refl _)
  | succ n ih =>
    rw [Session.run_succ, Session.step]
    split
    · next hstuck => exact .inl (done_of_pullStep_eq_none hstuck)
    · next pull op hmove =>
      have hbranch := pullStep_branch hmove
      rcases ih with ⟨result, hdone⟩ | hbound
      · exact .inl ⟨result, hbranch.done hdone⟩
      · have hless := hbranch.remaining
        exact .inr (by simp only; omega)

variable (host blake codec call faults) in
/-- The whole call, and what the pool does after it if the environment lands its last
    piece then. -/
def Session.returned (disk : Disk) : Session :=
  Session.run host blake codec call faults disk (Pull.remaining call .start)

/-- **A call returns**, whatever it is sent and whatever the environment does. -/
theorem Session.returned_done (disk : Disk) :
    ∃ result, (Session.returned host blake codec call faults disk).pull.pc = .done result := by
  rcases Session.run_remaining host blake codec call faults disk (Pull.remaining call .start)
    with hdone | hbound
  · exact hdone
  · refine @Pc.done_of_remaining_eq_zero call _ ?_
    simp only [Pull.remaining] at hbound
    rw [Session.returned]
    simp only [Pull.remaining]
    omega

/-- Steps beyond the bound of a call change nothing. -/
theorem Session.iterate_of_remaining_le :
    ∀ {n m : Nat} {s : Session}, s.pull.remaining call ≤ n → n ≤ m →
      (Session.step host blake codec call faults)^[m] s =
        (Session.step host blake codec call faults)^[n] s := by
  intro n
  induction n with
  | zero =>
    intro m s hbound _
    have hfixed : s.step host blake codec call faults = s := by
      rw [Session.step]
      split
      · rfl
      · next pull op hmove =>
        have hless := (pullStep_branch hmove).remaining
        omega
    exact Function.iterate_fixed hfixed m
  | succ n ih =>
    intro m s hbound hle
    obtain ⟨more, rfl⟩ := Nat.exists_eq_add_of_le' (Nat.lt_of_lt_of_le (Nat.succ_pos n) hle)
    rw [Function.iterate_succ_apply, Function.iterate_succ_apply]
    rcases hmove : pullStep host blake codec call (s.pull.thread call)
      (faults (s.pull.thread call) s.pull.pc) s.disk s.pull with _ | ⟨pull, op⟩
    · have hfixed : s.step host blake codec call faults = s := by rw [Session.step, hmove]
      rw [hfixed, Function.iterate_fixed hfixed, Function.iterate_fixed hfixed]
    · have hless := (pullStep_branch hmove).remaining
      refine ih ?_ (by omega)
      rw [Session.step, hmove]
      simp only
      omega

end Returns

end FurcateMesh.Transfer
