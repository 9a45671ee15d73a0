import Mathlib.Data.List.TakeWhile
import FurcateMesh.Library.InodeStore
import FurcateMesh.Transfer

/-!
# The receiver as a step machine

`TransferService::pull_with_options` (transfer lib.rs 303-402), one step for each
operation the call performs on the cache directory or the network.  A step returns
the next state of the call and the operation it performs on the disk, so a run of
one call, a sequence of calls and any interleaving of calls all execute the same
function.

Every path the call forms is `cache_dir.join(text)`, and `text` may be any string
the caller passes.  `Host` says how such a path resolves: the directory part by an
arbitrary walk, the last component as an entry of that directory.  A file of the host holds
at most `maxFileSize` bytes; a write past that stores what fits and then fails.

The temp file is a `tokio::fs::File`, and its writes are not done when they return:

* `write_all` cuts the chunk into pieces, hands each one to the blocking pool and
  returns once the last piece is handed over.  A piece waits for the one before it.
* `seek` and `flush` wait for the piece in flight, as does the next `write_all`.  A
  piece that fails is reported by the next write of a nonempty chunk, or by
  `flush`; `seek` only remembers the failure.
* Returning, or dropping the call, closes the file but does not call the piece in
  flight back.  It lands later, in whatever file its inode has become.

So a call has two threads.  The `task` runs the code of `pull_with_options`; the
`pool` performs the piece in flight (`QueuedWrite`), at any moment between the
write that queued it and the end of the process.  `Pull` is the state both share:
the program point of the task, the piece in flight, and the failure that has not
been reported yet.

A program point carries the locals that are still needed: the handle of the temp file, the
replies that have not been taken, whether a final chunk has been seen.  Where the source
writes `?`, the step goes to `done` with the error and the file is closed as it is; the only
point at which the temp file is removed is after the loop.

`PullBranch` lists what a step can do with the condition of each branch, and
`PullMove` the effects of a step on the disk.  Every step is one of either
(`pullStep_branch`, `pullStep_move`), and the invariants of the later modules split on one of
the two instead of unfolding the step function.
-/

namespace FurcateMesh.Transfer

open InodeStore

/-! ### Paths

A path is a text.  An entry is a directory number and a name in it, and a path
names the entry of its last component in the directory of the rest. -/

def baseName (path : String) : String :=
  String.ofList (path.toList.reverse.takeWhile (· ≠ '/')).reverse

-- everything before the last component, with its slash
def parentPath (path : String) : String :=
  String.ofList (path.toList.reverse.dropWhile (· ≠ '/')).reverse

/-- A text that names an entry of the cache directory itself. -/
def IsPlainName (name : String) : Prop :=
  name ≠ "" ∧ name ≠ "." ∧ name ≠ ".." ∧ '/' ∉ name.toList

def PARTIAL : String := ".partial"

def IsPartial (name : String) : Prop := PARTIAL.toList <:+ name.toList

instance (name : String) : Decidable (IsPartial name) :=
  inferInstanceAs (Decidable (_ <:+ _))

def tempPath (digestHex : String) : String := digestHex ++ PARTIAL

-- the cache directory, as a directory number
def CACHE : Nat := 0

abbrev Loc := Nat × String

abbrev Disk := Store Loc UInt8

abbrev DiskOp := Op Loc UInt8

/-- The machine a pull runs on.  `walk text` is the directory that the whole path
    `cache_dir.join(text)` names, if it names one; the cache directory holds only
    regular files, so a plain name is never a directory.  A file of the cache can
    hold `maxFileSize` bytes, and the runtime hands a write to the blocking pool
    `bufferSize` bytes at a time. -/
structure Host where
  walk : String → Option Nat
  walk_cache : walk "" = some CACHE
  walk_plain : ∀ name, IsPlainName name → walk name = none
  maxFileSize : Nat
  maxFileSize_le : maxFileSize ≤ MAX_FILE_SIZE
  bufferSize : Nat
  bufferSize_pos : 0 < bufferSize

namespace Host

variable (host : Host)

def locate (path : String) : Option Loc :=
  (host.walk (parentPath path)).map fun dir => (dir, baseName path)

def readFile (disk : Disk) (path : String) : Option Bytes := (host.locate path).bind disk.read

/-- `Path::exists`: the path names a directory or an existing entry. -/
def pathExists (disk : Disk) (path : String) : Bool :=
  (host.walk path).isSome || (host.readFile disk path).isSome

def openTruncate (disk : Disk) (path : String) : Except IoError (Nat × DiskOp) :=
  if (host.walk path).isSome then .error .isDirectory
  else
    match host.locate path with
    | none => .error .notFound
    | some loc =>
        match disk.entry loc with
        | some i => .ok (i, .truncate i)
        | none => .ok (disk.next, .create loc)

def removeFile (disk : Disk) (path : String) : Except IoError DiskOp :=
  match host.locate path with
  | none => .error .notFound
  | some loc =>
      match disk.entry loc with
      | none => .error .notFound
      | some _ => .ok (.unlink loc)

/-- `rename`, which replaces an existing file but not a directory. -/
def renameFile (disk : Disk) (source target : String) : Except IoError DiskOp :=
  if (host.walk target).isSome then .error .isDirectory
  else
    match host.locate source, host.locate target with
    | some src, some dst =>
        match disk.entry src with
        | none => .error .notFound
        | some _ => .ok (.rename src dst)
    | _, _ => .error .notFound

end Host

/-! ### Path facts

The temp path of a digest is in the same directory as the digest itself, under a
name that ends in `.partial`; a hex digest names an entry of the cache. -/

private theorem partial_no_slash : ∀ c ∈ PARTIAL.toList.reverse, decide (c ≠ '/') = true :=
  List.all_eq_true.mp (by decide)

theorem baseName_tempPath (digestHex : String) :
    baseName (tempPath digestHex) = baseName digestHex ++ PARTIAL := by
  rw [baseName, tempPath, String.toList_append, List.reverse_append,
    List.takeWhile_append_of_pos partial_no_slash, List.reverse_append, List.reverse_reverse,
    String.ofList_append, String.ofList_toList, baseName]

theorem parentPath_tempPath (digestHex : String) :
    parentPath (tempPath digestHex) = parentPath digestHex := by
  rw [parentPath, tempPath, String.toList_append, List.reverse_append,
    List.dropWhile_append_of_pos partial_no_slash, parentPath]

theorem IsPartial.append (name : String) : IsPartial (name ++ PARTIAL) := by
  rw [IsPartial, String.toList_append]
  exact List.suffix_append _ _

theorem Host.locate_tempPath {host : Host} {digestHex : String} {loc : Loc}
    (h : host.locate (tempPath digestHex) = some loc) :
    ∃ dir, host.locate digestHex = some (dir, baseName digestHex) ∧
      loc = (dir, baseName digestHex ++ PARTIAL) := by
  rw [Host.locate, parentPath_tempPath, baseName_tempPath, Option.map_eq_some_iff] at h
  obtain ⟨dir, hdir, rfl⟩ := h
  exact ⟨dir, by rw [Host.locate, hdir]; rfl, rfl⟩

theorem Host.locate_tempPath_isPartial {host : Host} {digestHex : String} {loc : Loc}
    (h : host.locate (tempPath digestHex) = some loc) : IsPartial loc.2 := by
  obtain ⟨dir, _, rfl⟩ := Host.locate_tempPath h
  exact IsPartial.append _

theorem Host.locate_plain (host : Host) {name : String} (hname : IsPlainName name) :
    host.locate name = some (CACHE, name) := by
  have hall : ∀ c ∈ name.toList.reverse, decide (c ≠ '/') = true := by
    intro c hc
    rw [List.mem_reverse] at hc
    exact decide_eq_true fun h => hname.2.2.2 (h ▸ hc)
  have htake : name.toList.reverse.takeWhile (· ≠ '/') = name.toList.reverse :=
    List.takeWhile_eq_self_iff.mpr hall
  have hdrop : name.toList.reverse.dropWhile (· ≠ '/') = [] :=
    List.dropWhile_eq_nil_iff.mpr hall
  rw [Host.locate, parentPath, hdrop, baseName, htake, List.reverse_reverse, List.reverse_nil,
    String.ofList_toList]
  exact congrArg _ host.walk_cache

theorem isPlainName_of_isHexDigest {text : String} (h : IsHexDigest text) : IsPlainName text := by
  have hlen := h.1
  refine ⟨?_, ?_, ?_, fun hslash => absurd (h.2 _ hslash) (by decide)⟩
  all_goals
    rintro rfl
    exact absurd hlen (by decide)

theorem not_isPartial_of_isHexDigest {text : String} (h : IsHexDigest text) : ¬ IsPartial text := by
  intro hpartial
  have hdot : '.' ∈ text.toList := hpartial.subset (by decide)
  exact absurd (h.2 _ hdot) (by decide)

theorem Host.pathExists_congr {host : Host} {disk disk' : Disk} {path : String}
    (h : ∀ loc, host.locate path = some loc → disk'.entry loc = disk.entry loc) :
    host.pathExists disk' path = host.pathExists disk path := by
  unfold Host.pathExists Host.readFile
  cases hloc : host.locate path with
  | none => rfl
  | some loc => simp only [Option.bind_some, Store.read, Option.isSome_map, h loc hloc]

theorem Host.pathExists_setData {host : Host} (disk : Disk) (i : Nat) (file : Bytes) (path : String) :
    host.pathExists (disk.setData i file) path = host.pathExists disk path :=
  Host.pathExists_congr fun _ _ => rfl

/-! ### One reply -/

section Accept

variable (blake : Blake3) (codec : HeaderCodec)

/-- The checks the reply loop makes before it writes. -/
def acceptReply : Reply → Except TransferError (ChunkHeader × Bytes)
  | .error text => .error (.transport ("reply error: " ++ text.getD ""))
  | .sample none _ => .error (.malformedReply "reply missing chunk-header attachment")
  | .sample (some attachment) payload =>
      match codec.fromSlice attachment with
      | .error e => .error (.malformedReply ("decoding chunk header: " ++ e))
      | .ok header =>
          match verify blake header payload with
          | .error e => .error e
          | .ok () => .ok (header, payload)

end Accept

/-! ### One call -/

/-- Program points of `pull_with_options`.  An open temp file is a handle, that
    is, an inode number.  At `write` the first `sent` bytes of the chunk have been
    handed to the blocking pool. -/
inductive Pc where
  | createDir
  | checkExists
  | openTemp
  | get (handle : Nat)
  | recv (handle : Nat) (gotAny gotLast : Bool) (pending : List Reply)
  | seek (handle : Nat) (gotLast : Bool) (pending : List Reply) (header : ChunkHeader)
      (chunk : Bytes)
  | write (handle : Nat) (gotLast : Bool) (pending : List Reply) (header : ChunkHeader)
      (chunk : Bytes) (sent : Nat)
  | removeTemp (error : TransferError)
  | flush (handle : Nat)
  | hashTemp
  | renameTemp
  | done (result : Except TransferError String)
deriving DecidableEq

/-- The inputs of one call: its arguments, what `session.get` yields, the read sizes
    of the final root hash, and whether a write in flight has landed by the time the
    task stands at a program point that does not wait for it.  The number of the handle
    has no part in that, so the program point is given with handle 0. -/
structure PullCall where
  peer : PeerId
  digest : String
  replies : Except String (List Reply)
  sched : ReadSchedule
  lands : Pc → Bool

/-- Whether the environment lets an I/O operation succeed.  A failing write may
    have stored the first `written` bytes. -/
inductive Io where
  | ok
  | fail (error : IoError) (written : Nat)

structure QueuedWrite where
  handle : Nat
  offset : Nat
  bytes : Bytes
deriving DecidableEq

structure Pull where
  pc : Pc
  queued : Option QueuedWrite
  writeError : Option IoError
deriving DecidableEq

inductive Thread where
  | task
  | pool
deriving DecidableEq

def Pull.start : Pull := ⟨.createDir, none, none⟩

def Pull.to (s : Pull) (pc : Pc) : Pull := { s with pc := pc }

@[simp] theorem Pull.to_pc (s : Pull) (pc : Pc) : (s.to pc).pc = pc := rfl

@[simp] theorem Pull.to_queued (s : Pull) (pc : Pc) : (s.to pc).queued = s.queued := rfl

@[simp] theorem Pull.to_writeError (s : Pull) (pc : Pc) : (s.to pc).writeError = s.writeError := rfl

section Step

variable (host : Host) (blake : Blake3) (codec : HeaderCodec) (call : PullCall)

/-- What the blocking pool does with a piece: the failure it reports and the bytes
    it stores.  No byte is stored past the largest file the host can hold. -/
def QueuedWrite.land (io : Io) (q : QueuedWrite) : Option IoError × DiskOp :=
  match io with
  | .ok =>
      if q.offset + q.bytes.length ≤ host.maxFileSize then (none, .write q.handle q.offset q.bytes)
      else
        (some .fileTooLarge,
          .write q.handle q.offset (q.bytes.take (host.maxFileSize - q.offset)))
  | .fail e written =>
      (some e,
        .write q.handle q.offset (q.bytes.take (min written (host.maxFileSize - q.offset))))

-- `?` returns the error; a piece in flight stays in flight
def Pull.failed (s : Pull) (error : IoError) : Pull × DiskOp :=
  (s.to (.done (.error (.io error))), .skip)

/-- One step of the code of `pull_with_options`.  The result `ok text` is the path
    `cache_dir.join(text)`.  A step that has to wait for the piece in flight is
    `none` until the piece has landed. -/
def taskStep (io : Io) (disk : Disk) (s : Pull) : Option (Pull × DiskOp) :=
  match s.pc with
  | .createDir =>
      match io with
      | .fail e _ => some (s.failed e)
      | .ok => some (s.to .checkExists, .skip)
  | .checkExists =>
      if host.pathExists disk call.digest then some (s.to (.done (.ok call.digest)), .skip)
      else some (s.to .openTemp, .skip)
  | .openTemp =>
      match io with
      | .fail e _ => some (s.failed e)
      | .ok =>
        match host.openTruncate disk (tempPath call.digest) with
        | .error e => some (s.failed e)
        | .ok (handle, op) => some (s.to (.get handle), op)
  | .get handle =>
      match call.replies with
      | .error e =>
          some (s.to (.done (.error (.transport ("get " ++ selector call.digest ++ ": " ++ e)))),
            .skip)
      | .ok replies => some (s.to (.recv handle false false replies), .skip)
  | .recv handle gotAny gotLast [] =>
      -- the reply channel is closed
      if !gotAny then some (s.to (.removeTemp (.peerMissing call.peer call.digest)), .skip)
      else if !gotLast then
        some (s.to (.removeTemp (.malformedReply "stream ended without a final chunk")), .skip)
      else some (s.to (.flush handle), .skip)
  | .recv handle _ gotLast (reply :: pending) =>
      match acceptReply blake codec reply with
      | .error e => some (s.to (.done (.error e)), .skip)
      | .ok (header, chunk) => some (s.to (.seek handle gotLast pending header chunk), .skip)
  | .seek handle gotLast pending header chunk =>
      if s.queued.isSome then none
      else
        match io with
        | .fail e _ => some (s.failed e)
        | .ok =>
          -- the kernel refuses an offset no file can have
          if header.offset.toNat > host.maxFileSize then some (s.failed .invalidSeek)
          else some (s.to (.write handle gotLast pending header chunk 0), .skip)
  | .write handle gotLast pending header chunk sent =>
      if chunk.length ≤ sent then
        some (s.to (.recv handle true (gotLast || header.last) pending), .skip)
      else if s.queued.isSome then none
      else
        match s.writeError, io with
        | some e, _ => some (s.failed e)
        | none, .fail e _ => some (s.failed e)
        | none, .ok =>
          let piece := (chunk.drop sent).take host.bufferSize
          some (⟨.write handle gotLast pending header chunk (sent + piece.length),
            some ⟨handle, header.offset.toNat + sent, piece⟩, none⟩, .skip)
  | .removeTemp error =>
      -- the result of `remove_file` is ignored
      match io, host.removeFile disk (tempPath call.digest) with
      | .ok, .ok op => some (s.to (.done (.error error)), op)
      | _, _ => some (s.to (.done (.error error)), .skip)
  | .flush _ =>
      if s.queued.isSome then none
      else
        match s.writeError, io with
        | some e, _ => some (s.failed e)
        | none, .fail e _ => some (s.failed e)
        | none, .ok => some (s.to .hashTemp, .skip)
  | .hashTemp =>
      match io with
      | .fail e _ => some (s.failed e)
      | .ok =>
        match host.readFile disk (tempPath call.digest) with
        | none => some (s.failed .notFound)
        | some file =>
            if rootHash blake call.sched file ≠ call.digest then
              some (s.to (.removeTemp (.rootVerify call.digest (rootHash blake call.sched file))),
                .skip)
            else some (s.to .renameTemp, .skip)
  | .renameTemp =>
      match io with
      | .fail e _ => some (s.failed e)
      | .ok =>
        match host.renameFile disk (tempPath call.digest) call.digest with
        | .error e => some (s.failed e)
        | .ok op => some (s.to (.done (.ok call.digest)), op)
  | .done _ => none

/-- The piece in flight lands, and its failure is kept for a later report. -/
def poolStep (io : Io) (s : Pull) : Option (Pull × DiskOp) :=
  s.queued.map fun q =>
    ({ s with queued := none, writeError := (q.land host io).1 }, (q.land host io).2)

def pullStep (thread : Thread) (io : Io) (disk : Disk) (s : Pull) : Option (Pull × DiskOp) :=
  match thread with
  | .task => taskStep host blake codec call io disk s
  | .pool => poolStep host io s

/-! ### What a step can do -/

def Pc.handle : Pc → Option Nat
  | .get handle => some handle
  | .recv handle _ _ _ => some handle
  | .seek handle _ _ _ _ => some handle
  | .write handle _ _ _ _ _ => some handle
  | .flush handle => some handle
  | _ => none

/-- The branches of `pullStep`, with the condition under which each one is taken. -/
inductive PullBranch (io : Io) (disk : Disk) (s : Pull) : Thread → Pull → DiskOp → Prop
  -- the environment fails an operation, and `?` returns its error
  | faulted (error : IoError) (written : Nat) (hio : io = .fail error written)
      (hpc : ∀ result, s.pc ≠ .done result) :
      PullBranch io disk s .task (s.to (.done (.error (.io error)))) .skip
  | dirReady (hpc : s.pc = .createDir) : PullBranch io disk s .task (s.to .checkExists) .skip
  | cached (hpc : s.pc = .checkExists) (hexists : host.pathExists disk call.digest = true) :
      PullBranch io disk s .task (s.to (.done (.ok call.digest))) .skip
  | missing (hpc : s.pc = .checkExists) (hexists : host.pathExists disk call.digest = false) :
      PullBranch io disk s .task (s.to .openTemp) .skip
  | unopened {error : IoError} (hpc : s.pc = .openTemp)
      (hopen : host.openTruncate disk (tempPath call.digest) = .error error) :
      PullBranch io disk s .task (s.to (.done (.error (.io error)))) .skip
  | opened {handle : Nat} {op : DiskOp} (hpc : s.pc = .openTemp)
      (hopen : host.openTruncate disk (tempPath call.digest) = .ok (handle, op)) :
      PullBranch io disk s .task (s.to (.get handle)) op
  | unsent {handle : Nat} {e : String} (error : TransferError) (hpc : s.pc = .get handle)
      (hreplies : call.replies = .error e) :
      PullBranch io disk s .task (s.to (.done (.error error))) .skip
  | sent {handle : Nat} {replies : List Reply} (hpc : s.pc = .get handle)
      (hreplies : call.replies = .ok replies) :
      PullBranch io disk s .task (s.to (.recv handle false false replies)) .skip
  | incomplete {handle : Nat} {gotAny gotLast : Bool} (error : TransferError)
      (hpc : s.pc = .recv handle gotAny gotLast []) (hgot : ¬ (gotAny = true ∧ gotLast = true)) :
      PullBranch io disk s .task (s.to (.removeTemp error)) .skip
  | complete {handle : Nat} (hpc : s.pc = .recv handle true true []) :
      PullBranch io disk s .task (s.to (.flush handle)) .skip
  | refused {handle : Nat} {gotAny gotLast : Bool} {reply : Reply} {pending : List Reply}
      {error : TransferError} (hpc : s.pc = .recv handle gotAny gotLast (reply :: pending))
      (hrefused : acceptReply blake codec reply = .error error) :
      PullBranch io disk s .task (s.to (.done (.error error))) .skip
  | accepted {handle : Nat} {gotAny gotLast : Bool} {reply : Reply} {pending : List Reply}
      {header : ChunkHeader} {chunk : Bytes}
      (hpc : s.pc = .recv handle gotAny gotLast (reply :: pending))
      (haccept : acceptReply blake codec reply = .ok (header, chunk)) :
      PullBranch io disk s .task (s.to (.seek handle gotLast pending header chunk)) .skip
  | unsought {handle : Nat} {gotLast : Bool} {pending : List Reply} {header : ChunkHeader}
      {chunk : Bytes} (hpc : s.pc = .seek handle gotLast pending header chunk)
      (hqueued : s.queued = none) (hoffset : header.offset.toNat > host.maxFileSize) :
      PullBranch io disk s .task (s.to (.done (.error (.io .invalidSeek)))) .skip
  | sought {handle : Nat} {gotLast : Bool} {pending : List Reply} {header : ChunkHeader}
      {chunk : Bytes} (hpc : s.pc = .seek handle gotLast pending header chunk)
      (hqueued : s.queued = none) (hoffset : header.offset.toNat ≤ host.maxFileSize) :
      PullBranch io disk s .task (s.to (.write handle gotLast pending header chunk 0)) .skip
  -- the failure of an earlier piece is reported
  | unwritten {handle : Nat} {gotLast : Bool} {pending : List Reply} {header : ChunkHeader}
      {chunk : Bytes} {sent : Nat} {error : IoError}
      (hpc : s.pc = .write handle gotLast pending header chunk sent) (hsent : sent < chunk.length)
      (hqueued : s.queued = none) (herror : s.writeError = some error) :
      PullBranch io disk s .task (s.to (.done (.error (.io error)))) .skip
  | handed {handle : Nat} {gotLast : Bool} {pending : List Reply} {header : ChunkHeader}
      {chunk : Bytes} {sent : Nat}
      (hpc : s.pc = .write handle gotLast pending header chunk sent) (hsent : sent < chunk.length)
      (hqueued : s.queued = none) (herror : s.writeError = none) :
      PullBranch io disk s .task
        ⟨.write handle gotLast pending header chunk
            (sent + ((chunk.drop sent).take host.bufferSize).length),
          some ⟨handle, header.offset.toNat + sent, (chunk.drop sent).take host.bufferSize⟩, none⟩
        .skip
  | wrote {handle : Nat} {gotLast : Bool} {pending : List Reply} {header : ChunkHeader}
      {chunk : Bytes} {sent : Nat}
      (hpc : s.pc = .write handle gotLast pending header chunk sent) (hsent : chunk.length ≤ sent) :
      PullBranch io disk s .task (s.to (.recv handle true (gotLast || header.last) pending)) .skip
  | removed {error : TransferError} {op : DiskOp} (hpc : s.pc = .removeTemp error) (hio : io = .ok)
      (hremove : host.removeFile disk (tempPath call.digest) = .ok op) :
      PullBranch io disk s .task (s.to (.done (.error error))) op
  | unremoved {error : TransferError} (hpc : s.pc = .removeTemp error)
      (hnot : ∀ op, io = .ok → host.removeFile disk (tempPath call.digest) ≠ .ok op) :
      PullBranch io disk s .task (s.to (.done (.error error))) .skip
  | unflushed {handle : Nat} {error : IoError} (hpc : s.pc = .flush handle)
      (hqueued : s.queued = none) (herror : s.writeError = some error) :
      PullBranch io disk s .task (s.to (.done (.error (.io error)))) .skip
  | flushed {handle : Nat} (hpc : s.pc = .flush handle) (hqueued : s.queued = none)
      (herror : s.writeError = none) : PullBranch io disk s .task (s.to .hashTemp) .skip
  | unread (hpc : s.pc = .hashTemp) (hread : host.readFile disk (tempPath call.digest) = none) :
      PullBranch io disk s .task (s.to (.done (.error (.io .notFound)))) .skip
  | mismatched {file : Bytes} (error : TransferError) (hpc : s.pc = .hashTemp)
      (hread : host.readFile disk (tempPath call.digest) = some file)
      (hhash : rootHash blake call.sched file ≠ call.digest) :
      PullBranch io disk s .task (s.to (.removeTemp error)) .skip
  | verified {file : Bytes} (hpc : s.pc = .hashTemp)
      (hread : host.readFile disk (tempPath call.digest) = some file)
      (hhash : rootHash blake call.sched file = call.digest) :
      PullBranch io disk s .task (s.to .renameTemp) .skip
  | unrenamed {error : IoError} (hpc : s.pc = .renameTemp)
      (hrename : host.renameFile disk (tempPath call.digest) call.digest = .error error) :
      PullBranch io disk s .task (s.to (.done (.error (.io error)))) .skip
  | renamed {op : DiskOp} (hpc : s.pc = .renameTemp)
      (hrename : host.renameFile disk (tempPath call.digest) call.digest = .ok op) :
      PullBranch io disk s .task (s.to (.done (.ok call.digest))) op
  | landed {q : QueuedWrite} (hqueued : s.queued = some q) :
      PullBranch io disk s .pool { s with queued := none, writeError := (q.land host io).1 }
        (q.land host io).2

/-- The moves of a call on the disk, with the facts each one has checked. -/
inductive PullMove (disk : Disk) (s : Pull) : Thread → Pull → DiskOp → Prop
  | fail (error : TransferError) :
      PullMove disk s .task (s.to (.done (.error error))) .skip
  | dirReady (hpc : s.pc = .createDir) : PullMove disk s .task (s.to .checkExists) .skip
  | cached (hpc : s.pc = .checkExists) (hexists : host.pathExists disk call.digest = true) :
      PullMove disk s .task (s.to (.done (.ok call.digest))) .skip
  | missing (hpc : s.pc = .checkExists) (hexists : host.pathExists disk call.digest = false) :
      PullMove disk s .task (s.to .openTemp) .skip
  | truncate (loc : Loc) (i : Nat) (hpc : s.pc = .openTemp)
      (hloc : host.locate (tempPath call.digest) = some loc) (hentry : disk.entry loc = some i) :
      PullMove disk s .task (s.to (.get i)) (.truncate i)
  | create (loc : Loc) (hpc : s.pc = .openTemp)
      (hloc : host.locate (tempPath call.digest) = some loc) (hentry : disk.entry loc = none) :
      PullMove disk s .task (s.to (.get disk.next)) (.create loc)
  | keep (handle : Nat) (pc : Pc) (hpc : s.pc.handle = some handle)
      (hpc' : pc.handle = some handle) : PullMove disk s .task (s.to pc) .skip
  | handed (q : QueuedWrite) (pc : Pc) (hpc : s.pc.handle = some q.handle)
      (hpc' : pc.handle = some q.handle) (hqueued : s.queued = none) :
      PullMove disk s .task ⟨pc, some q, none⟩ .skip
  | landed (q : QueuedWrite) (stored : Bytes) (error : Option IoError)
      (hqueued : s.queued = some q) (hstored : stored <+: q.bytes) :
      PullMove disk s .pool { s with queued := none, writeError := error }
        (.write q.handle q.offset stored)
  | giveUp (error : TransferError) : PullMove disk s .task (s.to (.removeTemp error)) .skip
  | flushed (handle : Nat) (hpc : s.pc = .flush handle) (hqueued : s.queued = none) :
      PullMove disk s .task (s.to .hashTemp) .skip
  | verified (file : Bytes) (hpc : s.pc = .hashTemp)
      (hread : host.readFile disk (tempPath call.digest) = some file)
      (hhash : chunkHash blake file = call.digest) : PullMove disk s .task (s.to .renameTemp) .skip
  | remove (error : TransferError) (loc : Loc) (hpc : s.pc = .removeTemp error)
      (hloc : host.locate (tempPath call.digest) = some loc) :
      PullMove disk s .task (s.to (.done (.error error))) (.unlink loc)
  | rename (src dst : Loc) (i : Nat) (hpc : s.pc = .renameTemp) (hwalk : host.walk call.digest = none)
      (hsrc : host.locate (tempPath call.digest) = some src)
      (hdst : host.locate call.digest = some dst) (hentry : disk.entry src = some i) :
      PullMove disk s .task (s.to (.done (.ok call.digest))) (.rename src dst)

variable {host blake codec call}

theorem openTruncate_cases {disk : Disk} {path : String} {handle : Nat} {op : DiskOp}
    (h : host.openTruncate disk path = .ok (handle, op)) :
    ∃ loc, host.locate path = some loc ∧
      ((disk.entry loc = some handle ∧ op = .truncate handle) ∨
        (disk.entry loc = none ∧ handle = disk.next ∧ op = .create loc)) := by
  unfold Host.openTruncate at h
  split at h
  · cases h
  · split at h
    · cases h
    · rename_i loc hloc
      refine ⟨loc, hloc, ?_⟩
      split at h
      · rename_i i hentry
        cases h
        exact Or.inl ⟨hentry, rfl⟩
      · rename_i hentry
        cases h
        exact Or.inr ⟨hentry, rfl, rfl⟩

theorem removeFile_cases {disk : Disk} {path : String} {op : DiskOp}
    (h : host.removeFile disk path = .ok op) :
    ∃ loc, host.locate path = some loc ∧ op = .unlink loc := by
  unfold Host.removeFile at h
  split at h
  · cases h
  · rename_i loc hloc
    split at h
    · cases h
    · cases h
      exact ⟨loc, hloc, rfl⟩

theorem renameFile_cases {disk : Disk} {source target : String} {op : DiskOp}
    (h : host.renameFile disk source target = .ok op) :
    host.walk target = none ∧ ∃ src dst i, host.locate source = some src ∧
      host.locate target = some dst ∧ disk.entry src = some i ∧ op = .rename src dst := by
  unfold Host.renameFile at h
  split at h
  · cases h
  · rename_i hwalk
    refine ⟨by simpa using hwalk, ?_⟩
    split at h
    · rename_i src dst hsrc hdst
      split at h
      · cases h
      · rename_i i hentry
        cases h
        exact ⟨src, dst, i, hsrc, hdst, hentry, rfl⟩
    · cases h

variable (host) in
theorem QueuedWrite.land_cases (io : Io) (q : QueuedWrite) :
    ∃ error stored, q.land host io = (error, .write q.handle q.offset stored) ∧
      stored <+: q.bytes := by
  unfold QueuedWrite.land
  split
  · split
    · exact ⟨_, _, rfl, List.prefix_rfl⟩
    · exact ⟨_, _, rfl, List.take_prefix _ _⟩
  · exact ⟨_, _, rfl, List.take_prefix _ _⟩

theorem taskStep_branch {io : Io} {disk : Disk} {s s' : Pull} {op : DiskOp}
    (h : taskStep host blake codec call io disk s = some (s', op)) :
    PullBranch host blake codec call io disk s .task s' op := by
  unfold taskStep at h
  have hfault : ∀ {e : IoError} {written : Nat}, io = .fail e written →
      (∀ result, s.pc ≠ .done result) → some (s.failed e) = some (s', op) →
        PullBranch host blake codec call io disk s .task s' op := by
    rintro e written hio hpc ⟨⟩
    exact .faulted e written hio hpc
  split at h
  · next hpc =>
    split at h
    · exact hfault rfl (by simp [hpc]) h
    · cases h; exact .dirReady hpc
  · next hpc =>
    split at h
    · next hexists => cases h; exact .cached hpc hexists
    · next hexists => cases h; exact .missing hpc (by simpa using hexists)
  · next hpc =>
    split at h
    · exact hfault rfl (by simp [hpc]) h
    · split at h
      · next hopen => cases h; exact .unopened hpc hopen
      · next hopen => cases h; exact .opened hpc hopen
  · next hpc =>
    split at h
    · next hreplies => cases h; exact .unsent _ hpc hreplies
    · next hreplies => cases h; exact .sent hpc hreplies
  · next hpc =>
    -- the channel is closed: which of the two flags are set
    split at h
    · next hany => cases h; exact .incomplete _ hpc (by simp_all)
    · split at h
      · next hlast => cases h; exact .incomplete _ hpc (by simp_all)
      · cases h; exact .complete (by simp_all)
  · next hpc =>
    split at h
    · next hrefused => cases h; exact .refused hpc hrefused
    · next haccept => cases h; exact .accepted hpc haccept
  · next hpc =>
    split at h
    · cases h
    · next hqueued =>
      have hidle : s.queued = none := by simpa using hqueued
      split at h
      · exact hfault rfl (by simp [hpc]) h
      · split at h
        · next hoffset => cases h; exact .unsought hpc hidle hoffset
        · next hoffset => cases h; exact .sought hpc hidle (Nat.le_of_not_lt hoffset)
  · next hpc =>
    split at h
    · next hsent => cases h; exact .wrote hpc hsent
    · next hsent =>
      have hleft := Nat.lt_of_not_le hsent
      split at h
      · cases h
      · next hqueued =>
        have hidle : s.queued = none := by simpa using hqueued
        split at h
        · next herror => cases h; exact .unwritten hpc hleft hidle herror
        · exact hfault rfl (by simp [hpc]) h
        · next herror => cases h; exact .handed hpc hleft hidle herror
  · next hpc =>
    split at h
    · next hremove => cases h; exact .removed hpc rfl hremove
    · next hnot => cases h; exact .unremoved hpc hnot
  · next hpc =>
    split at h
    · cases h
    · next hqueued =>
      have hidle : s.queued = none := by simpa using hqueued
      split at h
      · next herror => cases h; exact .unflushed hpc hidle herror
      · exact hfault rfl (by simp [hpc]) h
      · next herror => cases h; exact .flushed hpc hidle herror
  · next hpc =>
    split at h
    · exact hfault rfl (by simp [hpc]) h
    · split at h
      · next hread => cases h; exact .unread hpc hread
      · next hread =>
        split at h
        · next hhash => cases h; exact .mismatched _ hpc hread hhash
        · next hhash => cases h; exact .verified hpc hread (Classical.not_not.mp hhash)
  · next hpc =>
    split at h
    · exact hfault rfl (by simp [hpc]) h
    · split at h
      · next hrename => cases h; exact .unrenamed hpc hrename
      · next hrename => cases h; exact .renamed hpc hrename
  · cases h

/-- **Every step takes one of the branches.** -/
theorem pullStep_branch {thread : Thread} {io : Io} {disk : Disk} {s s' : Pull} {op : DiskOp}
    (h : pullStep host blake codec call thread io disk s = some (s', op)) :
    PullBranch host blake codec call io disk s thread s' op := by
  cases thread with
  | task => exact taskStep_branch h
  | pool =>
    obtain ⟨q, hqueued, heq⟩ := Option.map_eq_some_iff.mp h
    cases heq
    exact .landed hqueued

/-- **Every step is one of the moves.** -/
theorem pullStep_move {thread : Thread} {io : Io} {disk : Disk} {s s' : Pull} {op : DiskOp}
    (h : pullStep host blake codec call thread io disk s = some (s', op)) :
    PullMove host blake call disk s thread s' op := by
  cases pullStep_branch h with
  | dirReady hpc => exact .dirReady hpc
  | cached hpc hexists => exact .cached hpc hexists
  | missing hpc hexists => exact .missing hpc hexists
  | opened hpc hopen =>
    obtain ⟨loc, hloc, ⟨hentry, rfl⟩ | ⟨hentry, rfl, rfl⟩⟩ := openTruncate_cases hopen
    · exact .truncate loc _ hpc hloc hentry
    · exact .create loc hpc hloc hentry
  | sent hpc | complete hpc | accepted hpc | sought hpc | wrote hpc =>
    exact .keep _ _ (by rw [hpc, Pc.handle]) rfl
  | handed hpc hsent hqueued => exact .handed _ _ (by rw [hpc, Pc.handle]) rfl hqueued
  | landed hqueued =>
    rename_i q
    obtain ⟨error, stored, hland, hstored⟩ := q.land_cases host io
    rw [hland]
    exact .landed q stored error hqueued hstored
  | incomplete | mismatched => exact .giveUp _
  | removed hpc hio hremove =>
    obtain ⟨loc, hloc, rfl⟩ := removeFile_cases hremove
    exact .remove _ loc hpc hloc
  | flushed hpc hqueued => exact .flushed _ hpc hqueued
  | verified hpc hread hhash =>
    rw [rootHash_eq_chunkHash] at hhash
    exact .verified _ hpc hread hhash
  | renamed hpc hrename =>
    obtain ⟨hwalk, src, dst, i, hsrc, hdst, hentry, rfl⟩ := renameFile_cases hrename
    exact .rename src dst i hpc hwalk hsrc hdst hentry
  | faulted | unopened | unsent | refused | unsought | unwritten | unremoved | unflushed | unread
  | unrenamed => exact .fail _

end Step

/-! ### A concrete host -/

namespace Sample

def walk (path : String) : Option Nat :=
  if path = "" ∨ path = "." ∨ path = "./" then some CACHE
  else if path = ".." ∨ path = "../" then some 1
  else none

theorem walk_plain (name : String) (hname : IsPlainName name) : walk name = none := by
  obtain ⟨hempty, hdot, hdots, hslash⟩ := hname
  have hdot' : name ≠ "./" := by rintro rfl; exact hslash (by decide)
  have hdots' : name ≠ "../" := by rintro rfl; exact hslash (by decide)
  rw [walk, if_neg (by simp [hempty, hdot, hdot']), if_neg (by simp [hdots, hdots'])]

def host : Host where
  walk := walk
  walk_cache := by decide
  walk_plain := walk_plain
  maxFileSize := MAX_FILE_SIZE
  maxFileSize_le := Nat.le_refl _
  bufferSize := 2 * 1024 * 1024
  bufferSize_pos := by decide

def disk : Disk where
  entry _ := none
  data _ := []
  next := 0
  allocated := nofun
  single := nofun

def peer : PeerId := ⟨Vector.replicate 32 0⟩

/-- A call fed the given replies, whose writes land at once. -/
def call (digest : String) (replies : List Reply) : PullCall :=
  ⟨peer, digest, .ok replies, fun _ => CHUNK_SIZE, fun _ => true⟩

def digest : String := "17762fddd969a453925d65717ac3eea21320b66b54342fde15128d6caf21215f"

def reply (offset : UInt64) (chunk : Bytes) (last : Bool) : Reply :=
  .sample (some (json offset chunk last)) chunk

end Sample

end FurcateMesh.Transfer
