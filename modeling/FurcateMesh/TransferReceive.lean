import FurcateMesh.TransferSession
import FurcateMesh.TransferStream

/-!
# The receiver as a function of its replies

`pullWithOptions` runs one call to its end, without faults of the environment.  On a
digest that is not cached its success is a condition on the replies alone, whenever
the pieces of its chunks land: `pull_ok_iff` says which reply sequences install which
file.

The replies complete a digest (`Completes`) if each of them passes the checks of the loop
and fits the file system, one of them is marked final, and the writes of all of them, in the
order they came, produce a file that hashes to the digest.  Nothing is said about the order,
about overlaps or about gaps: the receiver does not look at them.

The proof follows the call step by step (`Receiving`).  The file that counts in the
reply loop is not the one on the disk but the one the disk will hold once the piece in
flight has landed (`settledFile`): that file is the result of the writes of all
replies so far and of the pieces of the chunk at hand.  A piece that does not fit the
file system makes the call fail, but only later, at the next nonempty chunk or at
`flush`.  `Doomed` is the state in between, in which a piece has failed or is about to and
the call has not noticed.

`Receiving.step` has one case for each branch of a step.  The theorems about honest senders,
slices and mixed replies in `TransferRoundTrip` use `pull_ok_iff` and no step of the call.
-/

namespace FurcateMesh.Transfer

open InodeStore SparseFile

section Receive

variable (host : Host) (blake : Blake3) (codec : HeaderCodec)

/-- One call without faults of the environment, from its first step to its return. -/
def pullWithOptions (call : PullCall) (disk : Disk) : Disk × Pc :=
  let session := Session.returned host blake codec call (fun _ _ => .ok) disk
  (session.disk, session.pull.pc)

/-- The chunk a reply leaves in the temp file, if the reply passes every check on
    the way there. -/
def storedChunk (reply : Reply) : Option (ChunkHeader × Bytes) :=
  match acceptReply blake codec reply with
  | .error _ => none
  | .ok (header, chunk) =>
      if header.offset.toNat > host.maxFileSize then none
      else if chunk ≠ [] ∧ header.offset.toNat + chunk.length > host.maxFileSize then none
      else some (header, chunk)

-- the positioned write of a reply that passes
def replyWrite (reply : Reply) : Write UInt8 :=
  (storedChunk host blake codec reply).elim (0, []) chunkWrite

def replyLast (reply : Reply) : Bool :=
  (storedChunk host blake codec reply).any fun chunk => chunk.1.last

structure Completes (digest : String) (replies : List Reply) : Prop where
  stored : ∀ reply ∈ replies, (storedChunk host blake codec reply).isSome
  last : ∃ reply ∈ replies, replyLast host blake codec reply = true
  hash : chunkHash blake (writeAll 0 [] (replies.map (replyWrite host blake codec))) = digest

variable {host blake codec}

variable (host blake codec) in
theorem pullWithOptions_returns (call : PullCall) (disk : Disk) :
    ∃ result, (pullWithOptions host blake codec call disk).2 = .done result :=
  Session.returned_done disk

theorem storedChunk_eq_some_iff {reply : Reply} {chunk : ChunkHeader × Bytes} :
    storedChunk host blake codec reply = some chunk ↔
      acceptReply blake codec reply = .ok chunk ∧ chunk.1.offset.toNat ≤ host.maxFileSize ∧
      (chunk.2 ≠ [] → chunk.1.offset.toNat + chunk.2.length ≤ host.maxFileSize) := by
  unfold storedChunk
  cases haccept : acceptReply blake codec reply with
  | error e => simp
  | ok accepted =>
    obtain ⟨header, bytes⟩ := accepted
    simp only [Except.ok.injEq]
    constructor
    · intro h
      split at h
      · cases h
      · next hseek =>
        split at h
        · cases h
        · next hwrite =>
          cases h
          exact ⟨rfl, Nat.le_of_not_lt hseek,
            fun hne => Nat.le_of_not_lt fun hlt => hwrite ⟨hne, hlt⟩⟩
    · rintro ⟨rfl, hseek, hfits⟩
      rw [if_neg (Nat.not_lt.mpr hseek), if_neg]
      rintro ⟨hne, hlt⟩
      exact absurd (hfits hne) (Nat.not_le.mpr hlt)

/-- A chunk with a piece that does not fit the file system is not stored. -/
theorem storedChunk_eq_none_of_piece {reply : Reply} {header : ChunkHeader} {chunk : Bytes}
    {sent size : Nat} (haccept : acceptReply blake codec reply = .ok (header, chunk))
    (hsent : sent < chunk.length)
    (hover : host.maxFileSize <
      header.offset.toNat + sent + ((chunk.drop sent).take size).length) :
    storedChunk host blake codec reply = none := by
  have hpiece : ((chunk.drop sent).take size).length ≤ chunk.length - sent := by
    rw [List.length_take, List.length_drop]
    exact Nat.min_le_right _ _
  have hne : chunk ≠ [] := List.ne_nil_of_length_pos (Nat.zero_lt_of_lt hsent)
  rw [Option.eq_none_iff_forall_ne_some]
  intro stored hstored
  obtain ⟨haccept', -, hroom⟩ := storedChunk_eq_some_iff.mp hstored
  cases haccept.symm.trans haccept'
  have hfits : header.offset.toNat + chunk.length ≤ host.maxFileSize := hroom hne
  omega

theorem replyWrite_of_stored {reply : Reply} {chunk : ChunkHeader × Bytes}
    (h : storedChunk host blake codec reply = some chunk) :
    replyWrite host blake codec reply = chunkWrite chunk := by
  rw [replyWrite, h, Option.elim_some]

theorem replyLast_of_stored {reply : Reply} {chunk : ChunkHeader × Bytes}
    (h : storedChunk host blake codec reply = some chunk) :
    replyLast host blake codec reply = chunk.1.last := by
  rw [replyLast, h, Option.any_some]

/-! ### The temp file of a hex digest -/

theorem ne_of_tempPath {digest text : String} (hdigest : IsHexDigest digest)
    (htext : text.toList.length < 64) : tempPath digest ≠ text := by
  rintro rfl
  rw [tempPath, String.toList_append, List.length_append, hdigest.1] at htext
  omega

/-- The temp file of a hex digest is an entry of the cache directory. -/
theorem Host.locate_tempPath_hex (host : Host) {digest : String} (hdigest : IsHexDigest digest) :
    host.walk (tempPath digest) = none ∧
      host.locate (tempPath digest) = some (CACHE, tempPath digest) := by
  have hplain := isPlainName_of_isHexDigest hdigest
  have hslash : '/' ∉ PARTIAL.toList := by decide
  have htemp : IsPlainName (tempPath digest) := by
    refine ⟨?_, ?_, ?_, ?_⟩
    · exact fun h => ne_of_tempPath hdigest (by decide) h
    · exact fun h => ne_of_tempPath hdigest (by decide) h
    · exact fun h => ne_of_tempPath hdigest (by decide) h
    · rw [tempPath, String.toList_append, List.mem_append]
      exact not_or_intro hplain.2.2.2 hslash
  exact ⟨host.walk_plain _ htemp, host.locate_plain htemp⟩

/-- The temp file of a hex digest can be opened, and is then empty. -/
theorem Host.openTruncate_hex {disk : Disk} {digest : String} (hdigest : IsHexDigest digest)
    {handle : Nat} {op : DiskOp} (hopen : host.openTruncate disk (tempPath digest) = .ok (handle, op)) :
    (disk.apply 0 op).entry (CACHE, tempPath digest) = some handle ∧
      (disk.apply 0 op).data handle = [] := by
  obtain ⟨loc, hloc, hcases⟩ := openTruncate_cases hopen
  rw [(host.locate_tempPath_hex hdigest).2, Option.some.injEq] at hloc
  subst hloc
  rcases hcases with ⟨hentry, rfl⟩ | ⟨hentry, rfl, rfl⟩
  · exact ⟨hentry, by simp only [Store.apply, Store.setData, Function.update_self]⟩
  · constructor
    · simp only [Store.apply, Store.create, Function.update_self]
    · simp only [Store.apply, Store.create, Function.update_self]

theorem Host.openTruncate_hex_ne_error {disk : Disk} {digest : String} (hdigest : IsHexDigest digest)
    (error : IoError) : host.openTruncate disk (tempPath digest) ≠ .error error := by
  obtain ⟨hwalk, hloc⟩ := host.locate_tempPath_hex hdigest
  simp only [Host.openTruncate, hwalk, hloc, Option.isSome_none, Bool.false_eq_true, if_false]
  split <;> simp

/-! ### The file in the making -/

def settledFile (disk : Disk) (handle : Nat) : Option QueuedWrite → Bytes
  | none => disk.data handle
  | some q => writeAt 0 (disk.data handle) q.offset q.bytes

variable (host) in
/-- The temp file is open, holds the writes so far once the piece in flight has landed,
    and nothing has failed or is about to. -/
structure Clean (call : PullCall) (disk : Disk) (queued : Option QueuedWrite)
    (error : Option IoError) (handle : Nat) (writes : List (Write UInt8)) : Prop where
  entry : disk.entry (CACHE, tempPath call.digest) = some handle
  file : settledFile disk handle queued = writeAll 0 [] writes
  error : error = none
  piece : ∀ q, queued = some q → q.handle = handle ∧ q.offset + q.bytes.length ≤ host.maxFileSize

variable (host) in
def Doomed : Option QueuedWrite → Option IoError → Prop
  | none, error => error.isSome
  | some q, _ => host.maxFileSize < q.offset + q.bytes.length

theorem Doomed.error {error : Option IoError} (h : Doomed host none error) : error ≠ none := by
  rintro rfl
  cases h

theorem Doomed.land {error : Option IoError} {q : QueuedWrite} (h : Doomed host (some q) error)
    (io : Io) : Doomed host none (q.land host io).1 := by
  have hover : ¬ q.offset + q.bytes.length ≤ host.maxFileSize := Nat.not_le.mpr h
  cases io with
  | ok => simp only [Doomed, QueuedWrite.land, if_neg hover, Option.isSome_some]
  | fail e written => rfl

section Clean

variable {call : PullCall} {disk : Disk} {error : Option IoError} {handle : Nat}
  {writes : List (Write UInt8)}

theorem Clean.read {queued : Option QueuedWrite} (h : Clean host call disk queued error handle writes)
    (hqueued : queued = none) :
    disk.read (CACHE, tempPath call.digest) = some (writeAll 0 [] writes) := by
  rw [Store.read, h.entry, Option.map_some, ← h.file, hqueued, settledFile]

theorem Clean.readFile {queued : Option QueuedWrite} (hdigest : IsHexDigest call.digest)
    (h : Clean host call disk queued error handle writes) (hqueued : queued = none) :
    host.readFile disk (tempPath call.digest) = some (writeAll 0 [] writes) := by
  rw [Host.readFile, (host.locate_tempPath_hex hdigest).2, Option.bind_some, h.read hqueued]

theorem Clean.land {q : QueuedWrite} (h : Clean host call disk (some q) error handle writes) :
    Clean host call (disk.apply 0 (q.land host .ok).2) none (q.land host .ok).1 handle writes := by
  obtain ⟨rfl, hfits⟩ := h.piece q rfl
  simp only [QueuedWrite.land, if_pos hfits]
  refine ⟨h.entry, ?_, rfl, fun q' hq' => by cases hq'⟩
  rw [← h.file]
  simp only [settledFile, Store.apply, Store.setData, Function.update_self]

/-- The next piece of the chunk at hand is handed over. -/
theorem Clean.hand {offset sent : Nat} {chunk : Bytes} (size : Nat)
    (h : Clean host call disk none error handle (writes ++ [(offset, chunk.take sent)]))
    (hsent : sent ≤ chunk.length)
    (hfits : offset + sent + ((chunk.drop sent).take size).length ≤ host.maxFileSize) :
    Clean host call disk (some ⟨handle, offset + sent, (chunk.drop sent).take size⟩) none handle
      (writes ++ [(offset, chunk.take (sent + ((chunk.drop sent).take size).length))]) := by
  have hlen : (chunk.take sent).length = sent := by
    rw [List.length_take]
    exact Nat.min_eq_left hsent
  have hpieces : chunk.take sent ++ (chunk.drop sent).take size =
      chunk.take (sent + ((chunk.drop sent).take size).length) := by
    rw [List.take_add, List.length_take, ← List.take_eq_take_min]
  have hfile : disk.data handle = writeAll 0 [] (writes ++ [(offset, chunk.take sent)]) := h.file
  refine ⟨h.entry, ?_, rfl, ?_⟩
  · rw [writeAll_concat] at hfile ⊢
    simp only [settledFile, hfile]
    rw [← hpieces, ← writeAt_append, hlen]
  · rintro q ⟨⟩
    exact ⟨rfl, hfits⟩

end Clean

/-! ### One step of a call -/

variable (host blake codec) in
structure Taken (replies before : List Reply) (gotLast : Bool) (rest : List Reply) : Prop where
  split : replies = before ++ rest
  stored : ∀ reply ∈ before, (storedChunk host blake codec reply).isSome
  last : gotLast = before.any (replyLast host blake codec)

theorem Taken.all {replies before : List Reply} {gotLast : Bool}
    (h : Taken host blake codec replies before gotLast []) : replies = before := by
  rw [h.split, List.append_nil]

/-- A reply that is not stored makes the call fail, whatever comes after it. -/
theorem Taken.not_completes {digest : String} {replies before rest : List Reply} {reply : Reply}
    {gotLast : Bool} (h : Taken host blake codec replies before gotLast (reply :: rest))
    (hnone : storedChunk host blake codec reply = none) :
    ¬ Completes host blake codec digest replies := by
  intro hcompletes
  have hmem : reply ∈ replies := by
    rw [h.split]
    exact List.mem_append_right before List.mem_cons_self
  have hstored := hcompletes.stored reply hmem
  rw [hnone] at hstored
  cases hstored

theorem Taken.next {replies before rest : List Reply} {reply : Reply} {gotLast : Bool}
    {chunk : ChunkHeader × Bytes}
    (h : Taken host blake codec replies before gotLast (reply :: rest))
    (hstored : storedChunk host blake codec reply = some chunk) :
    Taken host blake codec replies (before ++ [reply]) (gotLast || chunk.1.last) rest where
  split := by rw [h.split, List.append_assoc]; rfl
  stored := by
    intro other hmem
    rcases List.mem_append.mp hmem with hmem | hmem
    · exact h.stored other hmem
    · rw [List.mem_singleton.mp hmem, hstored, Option.isSome_some]
  last := by
    rw [List.any_append, List.any_cons, List.any_nil, Bool.or_false, ← h.last,
      replyLast_of_stored hstored]

variable (host blake codec) in
/-- What holds of a call for a hex digest at each program point, on a disk that did not
    hold the digest at the start. -/
def Receiving (call : PullCall) (replies : List Reply) (start disk : Disk) (s : Pull) : Pc → Prop
  | .createDir | .checkExists | .openTemp =>
      disk = start ∧ s.queued = none ∧ s.writeError = none
  | .get handle => Clean host call disk s.queued s.writeError handle []
  | .recv handle gotAny gotLast pending =>
      (∃ before, Taken host blake codec replies before gotLast pending ∧
        gotAny = !before.isEmpty ∧
        Clean host call disk s.queued s.writeError handle (before.map (replyWrite host blake codec))) ∨
      Doomed host s.queued s.writeError ∧ ¬ Completes host blake codec call.digest replies
  | .seek handle gotLast pending header chunk =>
      (∃ before reply, Taken host blake codec replies before gotLast (reply :: pending) ∧
        acceptReply blake codec reply = .ok (header, chunk) ∧
        Clean host call disk s.queued s.writeError handle (before.map (replyWrite host blake codec))) ∨
      Doomed host s.queued s.writeError ∧ ¬ Completes host blake codec call.digest replies
  | .write handle gotLast pending header chunk sent =>
      (∃ before reply, Taken host blake codec replies before gotLast (reply :: pending) ∧
        acceptReply blake codec reply = .ok (header, chunk) ∧
        header.offset.toNat ≤ host.maxFileSize ∧ sent ≤ chunk.length ∧
        (0 < sent → header.offset.toNat + sent ≤ host.maxFileSize) ∧
        Clean host call disk s.queued s.writeError handle
          (before.map (replyWrite host blake codec) ++ [(header.offset.toNat, chunk.take sent)])) ∨
      Doomed host s.queued s.writeError ∧ ¬ Completes host blake codec call.digest replies
  | .flush handle =>
      (Taken host blake codec replies replies true [] ∧
        Clean host call disk s.queued s.writeError handle (replies.map (replyWrite host blake codec))) ∨
      Doomed host s.queued s.writeError ∧ ¬ Completes host blake codec call.digest replies
  | .hashTemp =>
      Taken host blake codec replies replies true [] ∧ s.queued = none ∧
        ∃ handle, Clean host call disk s.queued s.writeError handle (replies.map (replyWrite host blake codec))
  | .renameTemp =>
      Completes host blake codec call.digest replies ∧ s.queued = none ∧
        ∃ handle, Clean host call disk s.queued s.writeError handle (replies.map (replyWrite host blake codec))
  | .removeTemp _ => ¬ Completes host blake codec call.digest replies
  | .done (.error _) => ¬ Completes host blake codec call.digest replies
  | .done (.ok path) =>
      path = call.digest ∧ Completes host blake codec call.digest replies ∧ s.queued = none ∧
        host.readFile disk call.digest =
          some (writeAll 0 [] (replies.map (replyWrite host blake codec)))

section Step

variable {call : PullCall} {replies : List Reply} {start disk : Disk} {s : Pull}

/-- The pool lands the piece in flight. -/
theorem Receiving.land {pc : Pc} (h : Receiving host blake codec call replies start disk s pc)
    {q : QueuedWrite} (hqueued : s.queued = some q) :
    Receiving host blake codec call replies start (disk.apply 0 (q.land host .ok).2)
      { s with queued := none, writeError := (q.land host .ok).1 } pc := by
  obtain ⟨pc', queued, error⟩ := s
  obtain rfl : queued = some q := hqueued
  have hdoomed : ∀ {fails : Prop}, Doomed host (some q) error ∧ fails →
      Doomed host none (q.land host .ok).1 ∧ fails := And.imp_left fun h => h.land .ok
  cases pc with
  | get handle => exact Clean.land h
  | recv handle gotAny gotLast pending =>
    refine h.imp ?_ hdoomed
    rintro ⟨before, htaken, hany, hclean⟩
    exact ⟨before, htaken, hany, hclean.land⟩
  | seek handle gotLast pending header chunk =>
    refine h.imp ?_ hdoomed
    rintro ⟨before, reply, htaken, haccept, hclean⟩
    exact ⟨before, reply, htaken, haccept, hclean.land⟩
  | write handle gotLast pending header chunk sent =>
    refine h.imp ?_ hdoomed
    rintro ⟨before, reply, htaken, haccept, hseek, hsent, hfits, hclean⟩
    exact ⟨before, reply, htaken, haccept, hseek, hsent, hfits, hclean.land⟩
  | flush handle =>
    refine h.imp ?_ hdoomed
    rintro ⟨htaken, hclean⟩
    exact ⟨htaken, hclean.land⟩
  | removeTemp error => exact h
  | done result =>
    cases result with
    | error error => exact h
    | ok path => exact absurd h.2.2.1 (by simp)
  -- elsewhere nothing is in flight
  | _ => exact absurd h.2.1 (by simp)

/-- The next piece of the chunk at hand is handed over; if it does not fit, the call has
    failed without noticing. -/
theorem Receiving.hand {handle : Nat} {gotLast : Bool} {pending : List Reply} {header : ChunkHeader}
    {chunk : Bytes} {sent : Nat}
    (h : Receiving host blake codec call replies start disk s
      (.write handle gotLast pending header chunk sent))
    (hsent : sent < chunk.length) (hqueued : s.queued = none) (herror : s.writeError = none) :
    let piece := (chunk.drop sent).take host.bufferSize
    let pc := Pc.write handle gotLast pending header chunk (sent + piece.length)
    Receiving host blake codec call replies start disk
      ⟨pc, some ⟨handle, header.offset.toNat + sent, piece⟩, none⟩ pc := by
  intro piece pc
  simp only [Receiving, hqueued] at h
  rcases h with ⟨before, reply, htaken, haccept, hseek, hle, -, hclean⟩ | ⟨hdoomed, -⟩
  · by_cases hfits : header.offset.toNat + sent + piece.length ≤ host.maxFileSize
    · have hpiece : piece.length ≤ chunk.length - sent := by
        rw [List.length_take, List.length_drop]
        exact Nat.min_le_right _ _
      refine .inl ⟨before, reply, htaken, haccept, hseek, by omega, fun _ => ?_,
        hclean.hand _ hle hfits⟩
      rw [← Nat.add_assoc]
      exact hfits
    · -- the piece does not fit, so the chunk does not either
      have hover := Nat.lt_of_not_le hfits
      exact .inr ⟨hover, htaken.not_completes (storedChunk_eq_none_of_piece haccept hsent hover)⟩
  · exact absurd herror hdoomed.error

/-- The chunk at hand is stored once all of its pieces are handed over. -/
theorem Receiving.wrote {handle : Nat} {gotLast : Bool} {pending : List Reply}
    {header : ChunkHeader} {chunk : Bytes} {sent : Nat}
    (h : Receiving host blake codec call replies start disk s
      (.write handle gotLast pending header chunk sent))
    (hsent : chunk.length ≤ sent) :
    let pc := Pc.recv handle true (gotLast || header.last) pending
    Receiving host blake codec call replies start disk (s.to pc) pc := by
  refine h.imp_left ?_
  rintro ⟨before, reply, htaken, haccept, hseek, hle, hfits, hclean⟩
  have hall : sent = chunk.length := Nat.le_antisymm hle hsent
  have hstored : storedChunk host blake codec reply = some (header, chunk) := by
    refine storedChunk_eq_some_iff.mpr ⟨haccept, hseek, fun hne => ?_⟩
    rw [hall] at hfits
    exact hfits (List.length_pos_iff.mpr hne)
  refine ⟨before ++ [reply], htaken.next hstored, by simp, ?_⟩
  rw [List.map_append, List.map_cons, List.map_nil, replyWrite_of_stored hstored]
  rw [hall, List.take_length] at hclean
  exact hclean

/-- **One step of a call** on replies that may be anything. -/
theorem Receiving.step {thread : Thread} {s' : Pull} {op : DiskOp}
    (hdigest : IsHexDigest call.digest) (hfresh : host.pathExists start call.digest = false)
    (hreplies : call.replies = .ok replies)
    (h : Receiving host blake codec call replies start disk s s.pc)
    (hbranch : PullBranch host blake codec call .ok disk s thread s' op) :
    Receiving host blake codec call replies start (disk.apply 0 op) s' s'.pc := by
  have htemp := (host.locate_tempPath_hex hdigest).2
  cases hbranch with
  | faulted error written hio => cases hio
  | dirReady hpc => rw [hpc] at h; exact h
  | cached hpc hexists =>
    rw [hpc] at h
    obtain ⟨rfl, -⟩ := h
    rw [hfresh] at hexists
    cases hexists
  | missing hpc hexists => rw [hpc] at h; exact h
  | unopened hpc hopen => exact absurd hopen (Host.openTruncate_hex_ne_error hdigest _)
  | opened hpc hopen =>
    rw [hpc] at h
    obtain ⟨hentry, hempty⟩ := Host.openTruncate_hex hdigest hopen
    obtain ⟨-, hqueued, herror⟩ := h
    change Clean host call _ s.queued s.writeError _ []
    rw [hqueued]
    exact ⟨hentry, hempty, herror, fun q hq => by cases hq⟩
  | unsent error hpc hunsent => cases hunsent.symm.trans hreplies
  | sent hpc hsent =>
    rw [hpc] at h
    cases hsent.symm.trans hreplies
    exact .inl ⟨[], ⟨rfl, by simp, rfl⟩, rfl, h⟩
  | incomplete error hpc hgot =>
    rw [hpc] at h
    rcases h with ⟨before, htaken, hany, -⟩ | ⟨-, hfails⟩
    · rintro ⟨-, ⟨reply, hmem, hlast⟩, -⟩
      refine hgot ⟨?_, ?_⟩
      · rw [hany, ← htaken.all]
        cases replies with
        | nil => cases hmem
        | cons => rfl
      · rw [htaken.last, ← htaken.all]
        exact List.any_eq_true.mpr ⟨reply, hmem, hlast⟩
    · exact hfails
  | complete hpc =>
    rw [hpc] at h
    refine h.imp_left ?_
    rintro ⟨before, htaken, -, hclean⟩
    obtain rfl := htaken.all
    exact ⟨⟨by simp, htaken.stored, htaken.last⟩, hclean⟩
  | refused hpc hrefused =>
    rw [hpc] at h
    rcases h with ⟨before, htaken, -⟩ | ⟨-, hfails⟩
    · exact htaken.not_completes (by simp only [storedChunk, hrefused])
    · exact hfails
  | accepted hpc haccept =>
    rw [hpc] at h
    refine h.imp_left ?_
    rintro ⟨before, htaken, -, hclean⟩
    exact ⟨before, _, htaken, haccept, hclean⟩
  | unsought hpc hqueued hoffset =>
    rw [hpc] at h
    rcases h with ⟨before, reply, htaken, haccept, -⟩ | ⟨-, hfails⟩
    · exact htaken.not_completes (by simp only [storedChunk, haccept, if_pos hoffset])
    · exact hfails
  | sought hpc hqueued hoffset =>
    rw [hpc] at h
    refine h.imp_left ?_
    rintro ⟨before, reply, htaken, haccept, hclean⟩
    refine ⟨before, reply, htaken, haccept, hoffset, Nat.zero_le _, by simp, hclean.entry, ?_,
      hclean.error, hclean.piece⟩
    rw [writeAll_concat, List.take_zero, writeAt]
    exact hclean.file
  | unwritten hpc hsent hqueued herror =>
    rw [hpc] at h
    rcases h with ⟨before, reply, -, -, -, -, -, hclean⟩ | ⟨-, hfails⟩
    · rw [hclean.error] at herror
      cases herror
    · exact hfails
  | handed hpc hsent hqueued herror =>
    rw [hpc] at h
    exact h.hand hsent hqueued herror
  | wrote hpc hsent =>
    rw [hpc] at h
    exact h.wrote hsent
  | removed hpc => rw [hpc] at h; exact h
  | unremoved hpc => rw [hpc] at h; exact h
  | unflushed hpc hqueued herror =>
    rw [hpc] at h
    rcases h with ⟨-, hclean⟩ | ⟨-, hfails⟩
    · rw [hclean.error] at herror
      cases herror
    · exact hfails
  | flushed hpc hqueued herror =>
    rw [hpc] at h
    rcases h with ⟨htaken, hclean⟩ | ⟨hdoomed, -⟩
    · exact ⟨htaken, hqueued, _, hclean⟩
    · rw [hqueued] at hdoomed
      exact absurd herror hdoomed.error
  | unread hpc hread =>
    rw [hpc] at h
    obtain ⟨-, hqueued, handle, hclean⟩ := h
    rw [hclean.readFile hdigest hqueued] at hread
    cases hread
  | mismatched error hpc hread hhash =>
    rw [hpc] at h
    obtain ⟨-, hqueued, handle, hclean⟩ := h
    rw [hclean.readFile hdigest hqueued, Option.some.injEq] at hread
    rw [rootHash_eq_chunkHash, ← hread] at hhash
    exact fun hcompletes => hhash hcompletes.hash
  | verified hpc hread hhash =>
    rw [hpc] at h
    obtain ⟨htaken, hqueued, handle, hclean⟩ := h
    rw [hclean.readFile hdigest hqueued, Option.some.injEq] at hread
    rw [rootHash_eq_chunkHash, ← hread] at hhash
    exact ⟨⟨htaken.stored, List.any_eq_true.mp htaken.last.symm, hhash⟩, hqueued, handle, hclean⟩
  | unrenamed hpc hrename =>
    rw [hpc] at h
    obtain ⟨-, -, handle, hclean⟩ := h
    have hplain := isPlainName_of_isHexDigest hdigest
    simp only [Host.renameFile, host.walk_plain _ hplain, htemp, host.locate_plain hplain,
      hclean.entry, Option.isSome_none, Bool.false_eq_true, if_false] at hrename
    cases hrename
  | renamed hpc hrename =>
    rw [hpc] at h
    obtain ⟨hcompletes, hqueued, handle, hclean⟩ := h
    obtain ⟨-, src, dst, i, hsrc, hdst, hentry, rfl⟩ := renameFile_cases hrename
    cases htemp.symm.trans hsrc
    refine ⟨rfl, hcompletes, hqueued, ?_⟩
    rw [Host.readFile, hdst, Option.bind_some, Store.apply, Store.read_rename_dst,
      hclean.read hqueued]
  | landed hqueued => exact h.land hqueued

end Step

/-! ### The whole call -/

variable (host blake codec)

/-- **What a call returns.**  For a hex digest that is not cached it returns the digest's
    path, with the file its replies build, if they complete the digest, and an error
    otherwise. -/
theorem pullWithOptions_outcome {call : PullCall} {disk : Disk} {replies : List Reply}
    (hdigest : IsHexDigest call.digest) (hfresh : host.pathExists disk call.digest = false)
    (hreplies : call.replies = .ok replies) :
    Completes host blake codec call.digest replies ∧
        (pullWithOptions host blake codec call disk).2 = .done (.ok call.digest) ∧
        host.readFile (pullWithOptions host blake codec call disk).1 call.digest =
          some (writeAll 0 [] (replies.map (replyWrite host blake codec))) ∨
      ¬ Completes host blake codec call.digest replies ∧
        ∃ error, (pullWithOptions host blake codec call disk).2 = .done (.error error) := by
  have hinv : ∀ n, Receiving host blake codec call replies disk
      (Session.run host blake codec call (fun _ _ => .ok) disk n).disk
      (Session.run host blake codec call (fun _ _ => .ok) disk n).pull
      (Session.run host blake codec call (fun _ _ => .ok) disk n).pull.pc := by
    refine Session.run_invariant
      (fun s => Receiving host blake codec call replies disk s.disk s.pull s.pull.pc)
      ⟨rfl, rfl, rfl⟩ ?_
    intro n s thread pull op _ h hbranch
    exact h.step hdigest hfresh hreplies hbranch
  have hend := hinv (Pull.remaining call .start)
  obtain ⟨result, hdone⟩ := pullWithOptions_returns host blake codec call disk
  have hpc : (Session.run host blake codec call (fun _ _ => .ok) disk
    (Pull.remaining call .start)).pull.pc = .done result := hdone
  rw [hpc] at hend
  cases result with
  | error error => exact .inr ⟨hend, error, hdone⟩
  | ok path =>
    obtain ⟨rfl, hcompletes, -, hread⟩ := hend
    exact .inl ⟨hcompletes, hdone, hread⟩

/-- **When a pull installs a file.**  A call for a hex digest that is not cached
    returns its path with contents `file` iff every reply passes, some reply is
    marked final, and the writes of the replies, in order, produce `file` and its
    hash is the digest. -/
theorem pull_ok_iff {call : PullCall} {disk : Disk} {replies : List Reply}
    (hdigest : IsHexDigest call.digest) (hfresh : host.pathExists disk call.digest = false)
    (hreplies : call.replies = .ok replies) (file : Bytes) :
    ((pullWithOptions host blake codec call disk).2 = .done (.ok call.digest) ∧
      host.readFile (pullWithOptions host blake codec call disk).1 call.digest = some file) ↔
    (∀ reply ∈ replies, (storedChunk host blake codec reply).isSome) ∧
      (∃ reply ∈ replies, replyLast host blake codec reply = true) ∧
      writeAll 0 [] (replies.map (replyWrite host blake codec)) = file ∧
      chunkHash blake file = call.digest := by
  rcases pullWithOptions_outcome host blake codec hdigest hfresh hreplies with
    ⟨hcompletes, hdone, hread⟩ | ⟨hfails, error, hdone⟩
  · rw [hread, Option.some.injEq]
    refine ⟨?_, fun h => ⟨hdone, h.2.2.1⟩⟩
    rintro ⟨-, rfl⟩
    exact ⟨hcompletes.stored, hcompletes.last, rfl, hcompletes.hash⟩
  · rw [hdone]
    refine ⟨fun h => absurd h.1 (by simp), ?_⟩
    rintro ⟨hstored, hlast, rfl, hhash⟩
    exact absurd ⟨hstored, hlast, hhash⟩ hfails

end Receive

end FurcateMesh.Transfer
