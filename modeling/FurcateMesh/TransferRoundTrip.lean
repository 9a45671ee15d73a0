import FurcateMesh.TransferReceive

/-!
# Serve, then pull

The sender's stream and the receiver's reply loop put together.

* `serve_then_pull_iff`: the replies of one honest sender rebuild the file in every
  order and with every duplication, as long as there is a reply at all (an empty file
  is served without one) and the file fits the receiver's file system.
* `pull_converges`: slices of one file that cover it rebuild it, however they are cut,
  overlap or repeat.
* `pull_among_others_iff`: replies of other peers land in the same temp file, and a
  complete honest stream survives them only if each passes on its own and all their
  wrong bytes are stored over.

Each of the three is `pull_ok_iff` with the writes of its replies worked out, so none
of them looks at a step of the call.  What the writes amount to is a fact about sparse files:
writes that cover a target produce it iff every wrong cell that one of them stores is covered
again later (`writeAll_eq_iff_corrected`).  Honest replies store no wrong cell, so for them
there is nothing to correct.

`HonestStream` is all that is used of the sender: each reply is accepted as a chunk of the
file, the chunks cover it, and one of them is marked final, unless the file is empty and there
is no reply.  `serveQuery_honest` derives it from what `stream_file_chunks` sends.  That a
file fits is asked of the receiver's host, since the sender's may have a larger limit.
-/

namespace FurcateMesh.Transfer

open InodeStore SparseFile

section RoundTrip

variable {blake : Blake3} {codec : HeaderCodec}

/-! ### Honest chunks -/

theorem exists_of_map_eq {α β γ : Type} {f : α → γ} {g : β → γ} {xs : List α} {ys : List β}
    (h : xs.map f = ys.map g) {x : α} (hx : x ∈ xs) : ∃ y ∈ ys, f x = g y := by
  have hmem : f x ∈ xs.map f := List.mem_map_of_mem hx
  rw [h] at hmem
  obtain ⟨y, hy, heq⟩ := List.mem_map.mp hmem
  exact ⟨y, hy, heq.symm⟩

/-- A chunk of a file that fits the receiver's file system passes its limits. -/
theorem storedChunk_of_isChunkOf {host : Host} {file : Bytes} {reply : Reply}
    {chunk : ChunkHeader × Bytes} (hfits : file.length ≤ host.maxFileSize)
    (haccept : acceptReply blake codec reply = .ok chunk) (hchunk : IsChunkOf file chunk) :
    storedChunk host blake codec reply = some chunk := by
  have hend := Nat.le_trans hchunk.1 hfits
  exact storedChunk_eq_some_iff.mpr ⟨haccept, by omega, fun _ => hend⟩

structure HonestStream (blake : Blake3) (codec : HeaderCodec) (file : Bytes)
    (replies : List Reply) : Prop where
  accepted : ∀ reply ∈ replies, ∃ chunk, acceptReply blake codec reply = .ok chunk ∧
    IsChunkOf file chunk
  covers : ∀ i < file.length, ∃ reply ∈ replies, ∃ chunk,
    acceptReply blake codec reply = .ok chunk ∧ (chunkWrite chunk).Covers i
  last : file ≠ [] → ∃ reply ∈ replies, ∃ chunk,
    acceptReply blake codec reply = .ok chunk ∧ chunk.1.last = true
  empty : file = [] → replies = []

variable (blake codec)

/-- **A registered file is served as an honest stream.** -/
theorem serveQuery_honest (sched : ReadSchedule) (artefacts : ArtefactIndex)
    {files : String → Option FileContent} {path : String} {file : FileContent}
    (hfile : files path = some file) (digest : String) :
    HonestStream blake codec file.bytes
      (serveQuery blake codec (.quiet sched) (register artefacts digest path) files
        (selector digest)) := by
  obtain ⟨pieces, hflat, hpieces, hmap⟩ :=
    serveQuery_chunks blake codec sched artefacts hfile digest
  generalize serveQuery blake codec (.quiet sched) (register artefacts digest path) files
    (selector digest) = replies at hmap ⊢
  have hbound : pieces.flatten.length ≤ MAX_FILE_SIZE := by rw [hflat]; exact file.bounded
  have hchunks : ∀ chunk ∈ chunksAt blake file.bytes.length 0 pieces,
      IsChunkOf file.bytes chunk := by
    intro chunk hmem
    rw [← hflat]
    exact isChunkOf_of_mem_chunksAt pieces [] hbound hmem
  -- the replies and the chunks correspond one to one, in order
  have hsent : ∀ chunk ∈ chunksAt blake file.bytes.length 0 pieces, ∃ reply ∈ replies,
      acceptReply blake codec reply = .ok chunk := by
    intro chunk hchunk
    obtain ⟨reply, hmem, haccept⟩ := exists_of_map_eq hmap.symm hchunk
    exact ⟨reply, hmem, haccept.symm⟩
  refine ⟨fun reply hmem => ?_, fun i hi => ?_, fun hne => ?_, fun hnil => ?_⟩
  · obtain ⟨chunk, hchunk, haccept⟩ := exists_of_map_eq hmap hmem
    exact ⟨chunk, haccept, hchunks chunk hchunk⟩
  · obtain ⟨chunk, hchunk, hcovers⟩ := exists_chunk_covers blake file.bytes.length pieces 0
      (by omega) (Nat.zero_le i) (by rw [hflat]; omega)
    obtain ⟨reply, hmem, haccept⟩ := hsent chunk hchunk
    exact ⟨reply, hmem, chunk, haccept, hcovers⟩
  · have hpieces' : pieces ≠ [] := by
      rintro rfl
      exact hne hflat.symm
    obtain ⟨chunk, hchunk, hlast⟩ := exists_last_chunk blake file.bytes.length pieces 0 hpieces'
      (by rw [hflat, Nat.zero_add])
    obtain ⟨reply, hmem, haccept⟩ := hsent chunk hchunk
    exact ⟨reply, hmem, chunk, haccept, hlast⟩
  · have hpieces' : pieces = [] := by
      cases pieces with
      | nil => rfl
      | cons piece pieces =>
        rw [hnil, List.flatten_cons] at hflat
        exact absurd (List.append_eq_nil_iff.mp hflat).1 (hpieces piece List.mem_cons_self).1
    rw [hpieces'] at hmap
    exact List.map_eq_nil_iff.mp hmap

/-! ### Pulling from an honest sender -/

variable {blake codec} (host : Host)

/-- A file that a pull installs fits the file system it was written to. -/
theorem length_le_of_stored {replies : List Reply}
    (hstored : ∀ reply ∈ replies, (storedChunk host blake codec reply).isSome) :
    (writeAll 0 [] (replies.map (replyWrite host blake codec))).length ≤ host.maxFileSize := by
  refine length_writeAll_le 0 _ [] (fun w hw => ?_) (Nat.zero_le _)
  obtain ⟨reply, hmem, rfl⟩ := List.mem_map.mp hw
  obtain ⟨chunk, hchunk⟩ := Option.isSome_iff_exists.mp (hstored reply hmem)
  rw [replyWrite_of_stored hchunk]
  exact (storedChunk_eq_some_iff.mp hchunk).2.2

/-- When all replies of an honest sender are among those received, a pull installs
    the file iff every reply passes and every wrong byte is written over. -/
theorem pull_ok_iff_corrected {file : Bytes} {served replies : List Reply} {call : PullCall}
    {disk : Disk} (hhonest : HonestStream blake codec file served) (hne : file ≠ [])
    (hserved : ∀ reply ∈ served, reply ∈ replies) (hdigest : call.digest = chunkHash blake file)
    (hfresh : host.pathExists disk call.digest = false) (hreplies : call.replies = .ok replies) :
    ((pullWithOptions host blake codec call disk).2 = .done (.ok call.digest) ∧
      host.readFile (pullWithOptions host blake codec call disk).1 call.digest = some file) ↔
    (∀ reply ∈ replies, (storedChunk host blake codec reply).isSome) ∧
      Corrected file (replies.map (replyWrite host blake codec)) := by
  have hhex : IsHexDigest call.digest := by rw [hdigest]; exact chunkHash_isHexDigest blake file
  rw [pull_ok_iff host blake codec hhex hfresh hreplies]
  refine and_congr_right fun hall => ?_
  -- an honest reply that passes leaves its own chunk
  have hstored : ∀ reply ∈ served, ∀ chunk, acceptReply blake codec reply = .ok chunk →
      storedChunk host blake codec reply = some chunk := by
    intro reply hmem chunk haccept
    obtain ⟨chunk', hchunk'⟩ := Option.isSome_iff_exists.mp (hall reply (hserved reply hmem))
    obtain ⟨haccept', -⟩ := storedChunk_eq_some_iff.mp hchunk'
    rw [hchunk', Except.ok.inj (haccept'.symm.trans haccept)]
  have hlast : ∃ reply ∈ replies, replyLast host blake codec reply = true := by
    obtain ⟨reply, hmem, chunk, haccept, hmarked⟩ := hhonest.last hne
    exact ⟨reply, hserved reply hmem,
      by rw [replyLast_of_stored (hstored reply hmem chunk haccept)]; exact hmarked⟩
  have hcover : ∀ i < file.length, ∃ w ∈ replies.map (replyWrite host blake codec), w.Covers i := by
    intro i hi
    obtain ⟨reply, hmem, chunk, haccept, hcovers⟩ := hhonest.covers i hi
    refine ⟨_, List.mem_map_of_mem (hserved reply hmem), ?_⟩
    rw [replyWrite_of_stored (hstored reply hmem chunk haccept)]
    exact hcovers
  rw [writeAll_eq_iff_corrected 0 hcover]
  exact ⟨fun h => h.2.1, fun h => ⟨hlast, h, hdigest.symm⟩⟩

theorem HonestStream.corrected {file : Bytes} {served replies : List Reply}
    (hhonest : HonestStream blake codec file served)
    (hserved : ∀ reply ∈ replies, reply ∈ served) :
    Corrected file (replies.map (replyWrite host blake codec)) := by
  refine corrected_of_slices fun w hw i hi => ?_
  obtain ⟨reply, hmem, rfl⟩ := List.mem_map.mp hw
  cases hstored : storedChunk host blake codec reply with
  | none =>
    rw [replyWrite, hstored] at hi
    exact absurd hi.2 (Nat.not_lt.mpr (Nat.zero_le i))
  | some chunk =>
    obtain ⟨chunk', haccept, hchunk⟩ := hhonest.accepted reply (hserved reply hmem)
    obtain ⟨haccept', -⟩ := storedChunk_eq_some_iff.mp hstored
    cases haccept.symm.trans haccept'
    rw [replyWrite_of_stored hstored] at hi ⊢
    exact hchunk.2 i hi

theorem HonestStream.isSome_stored {file : Bytes} {served : List Reply}
    (hhonest : HonestStream blake codec file served) (hfits : file.length ≤ host.maxFileSize)
    {reply : Reply} (hmem : reply ∈ served) : (storedChunk host blake codec reply).isSome := by
  obtain ⟨chunk, haccept, hchunk⟩ := hhonest.accepted reply hmem
  rw [storedChunk_of_isChunkOf hfits haccept hchunk, Option.isSome_some]

variable (blake codec)

/-- **Serve-then-pull round trip.**  A file is registered under its root hash and
    all replies to the query for it reach the receiver, in any order and with any
    duplications.  The pull returns its path with the file's contents iff the file
    is not empty and fits the receiver's file system. -/
theorem serve_then_pull_iff {files : String → Option FileContent} {path : String}
    {file : FileContent} (hfile : files path = some file) (artefacts : ArtefactIndex)
    (sendSched hashSched : ReadSchedule) {call : PullCall} {replies : List Reply} {disk : Disk}
    (hdigest : call.digest = rootHash blake hashSched file.bytes)
    (hreplies : call.replies = .ok replies)
    (hserved : ∀ reply, reply ∈ replies ↔ reply ∈ serveQuery blake codec (.quiet sendSched)
      (register artefacts call.digest path) files (selector call.digest))
    (hfresh : host.pathExists disk call.digest = false) :
    ((pullWithOptions host blake codec call disk).2 = .done (.ok call.digest) ∧
      host.readFile (pullWithOptions host blake codec call disk).1 call.digest =
        some file.bytes) ↔ file.bytes ≠ [] ∧ file.bytes.length ≤ host.maxFileSize := by
  have hhonest := serveQuery_honest blake codec sendSched artefacts hfile call.digest
  rw [rootHash_eq_chunkHash] at hdigest
  constructor
  · intro hpull
    have hhex : IsHexDigest call.digest := by rw [hdigest]; exact chunkHash_isHexDigest blake _
    obtain ⟨hstored, ⟨reply, hmem, _⟩, hfinal, _⟩ :=
      (pull_ok_iff host blake codec hhex hfresh hreplies file.bytes).mp hpull
    refine ⟨fun hnil => ?_, ?_⟩
    · rw [hserved, hhonest.empty hnil] at hmem
      cases hmem
    · rw [← hfinal]
      exact length_le_of_stored host hstored
  · rintro ⟨hne, hfits⟩
    refine (pull_ok_iff_corrected host hhonest hne (fun reply => (hserved reply).mpr) hdigest hfresh
      hreplies).mpr ⟨fun reply hmem => ?_, hhonest.corrected host fun reply => (hserved reply).mp⟩
    exact hhonest.isSome_stored host hfits ((hserved reply).mp hmem)

/-! ### Slices from several honest hosts -/

/-- The chunk is a slice of the file, hashed as such. -/
structure IsSlice (file : Bytes) (chunk : ChunkHeader × Bytes) : Prop where
  inside : chunk.1.offset.toNat ≤ file.length
  bytes : chunk.2 <+: file.drop chunk.1.offset.toNat
  hash : chunk.1.chunkHash = chunkHash blake chunk.2

variable {blake codec} in
theorem IsSlice.isChunkOf {file : Bytes} {chunk : ChunkHeader × Bytes}
    (h : IsSlice blake file chunk) : IsChunkOf file chunk := by
  obtain ⟨rest, hrest⟩ := h.bytes
  have hlen := congrArg List.length hrest
  rw [List.length_append, List.length_drop] at hlen
  have hinside := h.inside
  refine ⟨by omega, fun i hi => ?_⟩
  obtain ⟨hlo, hhi⟩ := hi
  simp only [chunkWrite] at hlo hhi
  have hcell := congrArg (·[i - chunk.1.offset.toNat]?) hrest
  simp only [List.getElem?_drop] at hcell
  rw [List.getElem?_append_left (by omega), Nat.add_sub_cancel' hlo] at hcell
  exact hcell

variable {blake codec host} in
theorem storedChunk_of_isSlice {file : Bytes} {reply : Reply} {chunk : ChunkHeader × Bytes}
    (hfits : file.length ≤ host.maxFileSize) (hcarries : Carries codec reply chunk)
    (hslice : IsSlice blake file chunk) : storedChunk host blake codec reply = some chunk := by
  refine storedChunk_of_isChunkOf hfits ?_ hslice.isChunkOf
  obtain ⟨attachment, rfl, hheader⟩ := hcarries
  simp only [acceptReply, hheader, (verify_eq_ok_iff blake chunk.1 chunk.2).mpr hslice.hash]

variable {blake codec host} in
theorem map_storedChunk_of_slices {file : Bytes} (hfits : file.length ≤ host.maxFileSize)
    {replies : List Reply} {chunks : List (ChunkHeader × Bytes)}
    (hcarries : List.Forall₂ (Carries codec) replies chunks)
    (hslices : ∀ chunk ∈ chunks, IsSlice blake file chunk) :
    replies.map (storedChunk host blake codec) = chunks.map some := by
  induction hcarries with
  | nil => rfl
  | cons hcarry _ ih =>
    rw [List.map_cons, List.map_cons,
      storedChunk_of_isSlice hfits hcarry (hslices _ List.mem_cons_self),
      ih fun chunk hmem => hslices chunk (List.mem_cons_of_mem _ hmem)]

/-- **The receiver converges on any covering of correct slices.**  The replies carry
    slices of one file that together cover it, and some header is marked `last`.
    In whatever order they come, however they are cut, overlap or repeat, and
    whatever the temp file held before, a pull of the file's digest that is not
    cached returns its path with the file's contents. -/
theorem pull_converges {file : Bytes} (hfits : file.length ≤ host.maxFileSize) {call : PullCall}
    {disk : Disk} {replies : List Reply} {chunks : List (ChunkHeader × Bytes)}
    (hcarries : List.Forall₂ (Carries codec) replies chunks)
    (hslices : ∀ chunk ∈ chunks, IsSlice blake file chunk)
    (hcover : ∀ i < file.length, ∃ chunk ∈ chunks, (chunkWrite chunk).Covers i)
    (hlast : ∃ chunk ∈ chunks, chunk.1.last = true)
    (hdigest : call.digest = chunkHash blake file) (hreplies : call.replies = .ok replies)
    (hfresh : host.pathExists disk call.digest = false) :
    (pullWithOptions host blake codec call disk).2 = .done (.ok call.digest) ∧
      host.readFile (pullWithOptions host blake codec call disk).1 call.digest = some file := by
  have hhex : IsHexDigest call.digest := by rw [hdigest]; exact chunkHash_isHexDigest blake _
  have hstored := map_storedChunk_of_slices hfits hcarries hslices
  have hwrites : replies.map (replyWrite host blake codec) = chunks.map chunkWrite := by
    have hmap := congrArg (List.map fun chunk => chunk.elim (0, []) chunkWrite) hstored
    rw [List.map_map, List.map_map] at hmap
    exact hmap
  refine (pull_ok_iff host blake codec hhex hfresh hreplies file).mpr
    ⟨fun reply hmem => ?_, ?_, ?_, hdigest.symm⟩
  · obtain ⟨chunk, _, hchunk⟩ := exists_of_map_eq hstored hmem
    rw [hchunk, Option.isSome_some]
  · obtain ⟨chunk, hmem, hmarked⟩ := hlast
    obtain ⟨reply, hreply, hchunk⟩ := exists_of_map_eq hstored.symm hmem
    exact ⟨reply, hreply, by rw [replyLast_of_stored hchunk.symm]; exact hmarked⟩
  · -- no write stores a wrong byte, and every byte is written
    rw [hwrites, writeAll_eq_iff_corrected 0 fun i hi => ?_]
    · refine corrected_of_slices fun w hw i hi => ?_
      obtain ⟨chunk, hmem, rfl⟩ := List.mem_map.mp hw
      exact (hslices chunk hmem).isChunkOf.2 i hi
    · obtain ⟨chunk, hmem, hcovers⟩ := hcover i hi
      exact ⟨chunkWrite chunk, List.mem_map_of_mem hmem, hcovers⟩

/-! ### Replies of other peers -/

inductive Origin where
  | honest
  | other
deriving DecidableEq

/-- The received replies interleave the honest sender's stream with replies of
    other peers, and an honest reply arrives first. -/
structure Interleaved (stream : List Reply) (received : List (Origin × Reply)) : Prop where
  stream : (received.filter fun r => r.1 = .honest).map Prod.snd = stream
  first : ∃ reply, received.head? = some (.honest, reply)

/-- **A complete honest stream among replies of other peers.**  The pull returns
    its path with the file's contents iff the file fits, every reply of the others is
    accepted on its own and every byte they store that is not the file's is stored over
    by a later reply. -/
theorem pull_among_others_iff {files : String → Option FileContent} {path : String}
    {file : FileContent} (hfile : files path = some file) (artefacts : ArtefactIndex)
    (sendSched hashSched : ReadSchedule) {call : PullCall} {received : List (Origin × Reply)}
    {disk : Disk} (hdigest : call.digest = rootHash blake hashSched file.bytes)
    (hreplies : call.replies = .ok (received.map Prod.snd))
    (hstream : Interleaved (serveQuery blake codec (.quiet sendSched)
      (register artefacts call.digest path) files (selector call.digest)) received)
    (hfresh : host.pathExists disk call.digest = false) :
    ((pullWithOptions host blake codec call disk).2 = .done (.ok call.digest) ∧
      host.readFile (pullWithOptions host blake codec call disk).1 call.digest =
        some file.bytes) ↔
    file.bytes.length ≤ host.maxFileSize ∧
      (∀ reply, (Origin.other, reply) ∈ received →
        (storedChunk host blake codec reply).isSome) ∧
      Corrected file.bytes (received.map fun r => replyWrite host blake codec r.2) := by
  have hhonest := serveQuery_honest blake codec sendSched artefacts hfile call.digest
  rw [rootHash_eq_chunkHash] at hdigest
  have hhex : IsHexDigest call.digest := by rw [hdigest]; exact chunkHash_isHexDigest blake _
  have hmem : ∀ reply, (Origin.honest, reply) ∈ received ↔ reply ∈ serveQuery blake codec
      (.quiet sendSched) (register artefacts call.digest path) files (selector call.digest) := by
    intro reply
    rw [← hstream.stream]
    simp only [List.mem_map, List.mem_filter, decide_eq_true_eq, Prod.exists, exists_eq_right]
  have hne : file.bytes ≠ [] := by
    intro hnil
    obtain ⟨reply, hfirst⟩ := hstream.first
    have hreply := (hmem reply).mp (List.mem_of_mem_head? hfirst)
    rw [hhonest.empty hnil] at hreply
    cases hreply
  have hiff := pull_ok_iff_corrected host hhonest hne
    (fun reply h => List.mem_map_of_mem ((hmem reply).mpr h)) hdigest hfresh hreplies
  rw [List.map_map] at hiff
  constructor
  · intro hpull
    obtain ⟨hstored, hcorrected⟩ := hiff.mp hpull
    refine ⟨?_, fun reply hother => hstored reply (List.mem_map_of_mem hother), hcorrected⟩
    obtain ⟨-, -, hfinal, -⟩ := (pull_ok_iff host blake codec hhex hfresh hreplies _).mp hpull
    rw [← hfinal]
    exact length_le_of_stored host hstored
  · rintro ⟨hfits, hothers, hcorrected⟩
    refine hiff.mpr ⟨fun reply hreceived => ?_, hcorrected⟩
    obtain ⟨⟨origin, reply⟩, htagged, rfl⟩ := List.mem_map.mp hreceived
    cases origin with
    | honest => exact hhonest.isSome_stored host hfits ((hmem reply).mp htagged)
    | other => exact hothers reply htagged

end RoundTrip

namespace Sample

def digestAB : String := "2dc99999a6aaef3f20349d2ed4057a2b54419545dabb809e6381de1bad8337e2"

def digestEmpty : String := "af1349b9f5f9a1a6a0404dea36dcc9499bcb25c9adc112b7cc9a93cae41f3262"

def files : String → Option FileContent
  | "a" => some ⟨[0x61], by decide⟩
  | "ab" => some ⟨[0x61, 0x62], by decide⟩
  | "empty" => some ⟨[], by decide⟩
  | _ => none

def served (digest path : String) : List Reply :=
  serveQuery blake3 codec (.quiet fun _ => 1) (register (fun _ => none) digest path) files
    (selector digest)

/-- The two chunks of `ab`, the second one first and twice. -/
def shuffled : List Reply := [reply 1 [0x62] true, reply 0 [0x61] false, reply 1 [0x62] true]

theorem served_ab : served digestAB "ab" = [reply 0 [0x61] false, reply 1 [0x62] true] := by
  decide +kernel

theorem served_a : served digest "a" = [reply 0 [0x61] true] := by decide +kernel

end Sample

theorem serve_then_pull_shuffled :
    (pullWithOptions Sample.host Sample.blake3 Sample.codec
        (Sample.call Sample.digestAB Sample.shuffled) Sample.disk).2 =
        .done (.ok Sample.digestAB) ∧
      Sample.host.readFile (pullWithOptions Sample.host Sample.blake3 Sample.codec
        (Sample.call Sample.digestAB Sample.shuffled) Sample.disk).1 Sample.digestAB =
        some [0x61, 0x62] := by
  have hserved : ∀ r, r ∈ Sample.shuffled ↔ r ∈ Sample.served Sample.digestAB "ab" := by
    intro r
    rw [Sample.served_ab]
    simp only [Sample.shuffled, List.mem_cons, List.not_mem_nil, or_false]
    exact ⟨fun h => h.elim Or.inr id, fun h => h.elim (fun h => .inr (.inl h)) .inl⟩
  exact (serve_then_pull_iff Sample.blake3 Sample.codec Sample.host
    (show Sample.files "ab" = some ⟨[0x61, 0x62], by decide⟩ from rfl) (fun _ => none) (fun _ => 1)
    (fun _ => 2) (show Sample.digestAB = _ by decide +kernel) rfl hserved (by decide +kernel)).mpr
    ⟨by decide, by decide⟩

def Sample.shuffledChunks : List (ChunkHeader × Bytes) :=
  [(Sample.header 1 [0x62] true, [0x62]), (Sample.header 0 [0x61] false, [0x61]),
    (Sample.header 1 [0x62] true, [0x62])]

theorem pull_converges_shuffled :
    (pullWithOptions Sample.host Sample.blake3 Sample.codec
        (Sample.call Sample.digestAB Sample.shuffled) Sample.disk).2 =
        .done (.ok Sample.digestAB) ∧
      Sample.host.readFile (pullWithOptions Sample.host Sample.blake3 Sample.codec
        (Sample.call Sample.digestAB Sample.shuffled) Sample.disk).1 Sample.digestAB =
        some Sample.twoBytes.bytes := by
  have hcarries : List.Forall₂ (Carries Sample.codec) Sample.shuffled Sample.shuffledChunks :=
    .cons ⟨_, rfl, by decide +kernel⟩ (.cons ⟨_, rfl, by decide +kernel⟩
      (.cons ⟨_, rfl, by decide +kernel⟩ .nil))
  have hb : IsSlice Sample.blake3 Sample.twoBytes.bytes (Sample.header 1 [0x62] true, [0x62]) :=
    ⟨by decide, by decide, rfl⟩
  have ha : IsSlice Sample.blake3 Sample.twoBytes.bytes (Sample.header 0 [0x61] false, [0x61]) :=
    ⟨by decide, by decide, rfl⟩
  have hslices : ∀ chunk ∈ Sample.shuffledChunks,
      IsSlice Sample.blake3 Sample.twoBytes.bytes chunk := by
    simp only [Sample.shuffledChunks, List.mem_cons, List.not_mem_nil, or_false, forall_eq_or_imp,
      forall_eq]
    exact ⟨hb, ha, hb⟩
  have hcover : ∀ i < Sample.twoBytes.bytes.length, ∃ chunk ∈ Sample.shuffledChunks,
      (chunkWrite chunk).Covers i := by
    intro i hi
    have hi' : i < 2 := hi
    obtain rfl | rfl : i = 0 ∨ i = 1 := by omega
    · exact ⟨_, .tail _ (.head _), by decide⟩
    · exact ⟨_, .head _, by decide⟩
  exact pull_converges Sample.blake3 Sample.codec Sample.host Sample.twoBytes.bounded hcarries
    hslices hcover
    ⟨_, .head _, rfl⟩ (by decide +kernel) rfl (by decide +kernel)

/-- The empty file is served without a reply, and its pull fails. -/
theorem serve_then_pull_empty :
    rootHash Sample.blake3 (fun _ => 1) [] = Sample.digestEmpty ∧
      Sample.host.pathExists Sample.disk Sample.digestEmpty = false ∧
      Sample.served Sample.digestEmpty "empty" = [] ∧
      (pullWithOptions Sample.host Sample.blake3 Sample.codec
        (Sample.call Sample.digestEmpty (Sample.served Sample.digestEmpty "empty"))
        Sample.disk).2 =
        .done (.error (.peerMissing Sample.peer Sample.digestEmpty)) := by
  decide +kernel

namespace Sample

/-- The stream of `ab`, with a stale byte at offset 1 that the honest second chunk
    stores over. -/
def mended : List (Origin × Reply) :=
  [(.honest, reply 0 [0x61] false), (.other, reply 1 [0x61] true), (.honest, reply 1 [0x62] true)]

/-- The stream of `a`, followed by the whole of a different file. -/
def spoiled : List (Origin × Reply) :=
  [(.honest, reply 0 [0x61] true), (.other, reply 0 [0x62] true)]

theorem mended_corrected :
    Corrected [0x61, 0x62] (mended.map fun r => replyWrite host blake3 codec r.2) := by
  have hwrites : (mended.map fun r => replyWrite host blake3 codec r.2) =
      [(0, [0x61]), (1, [0x61]), (1, [0x62])] := by decide +kernel
  have hone : ∀ {off i : Nat} {byte : UInt8}, Write.Covers (off, [byte]) i → i = off := by
    intro off i byte hi
    simp only [Write.Covers, List.length_singleton] at hi
    omega
  rw [hwrites]
  refine ⟨fun i hi hwrong => ?_, fun i hi _ => ?_, fun i hi hwrong => ?_, trivial⟩
  · cases hone hi
    exact absurd rfl hwrong
  · exact ⟨_, List.mem_singleton_self _, hi⟩
  · cases hone hi
    exact absurd rfl hwrong

end Sample

theorem pull_among_others_mended :
    (pullWithOptions Sample.host Sample.blake3 Sample.codec
        (Sample.call Sample.digestAB (Sample.mended.map Prod.snd)) Sample.disk).2 =
        .done (.ok Sample.digestAB) ∧
      Sample.host.readFile (pullWithOptions Sample.host Sample.blake3 Sample.codec
        (Sample.call Sample.digestAB (Sample.mended.map Prod.snd)) Sample.disk).1 Sample.digestAB =
        some [0x61, 0x62] := by
  refine (pull_among_others_iff Sample.blake3 Sample.codec Sample.host
    (show Sample.files "ab" = some ⟨[0x61, 0x62], by decide⟩ from rfl) (fun _ => none) (fun _ => 1)
    (fun _ => 2) (show Sample.digestAB = _ by decide +kernel) rfl ⟨?_, _, rfl⟩
    (by decide +kernel)).mpr ⟨by decide, fun reply hmem => ?_, Sample.mended_corrected⟩
  · exact Sample.served_ab.symm
  · simp only [Sample.mended, List.mem_cons, Prod.mk.injEq, reduceCtorEq, false_and, true_and,
      List.not_mem_nil, or_false, false_or] at hmem
    rw [hmem]
    decide +kernel

/-- The honest host of `a` replies first and completely, another peer then sends
    its own consistent one-byte file, and the pull of `a` fails. -/
theorem pull_among_others_spoiled :
    Interleaved (Sample.served Sample.digest "a") Sample.spoiled ∧
      rootHash Sample.blake3 (fun _ => 1) [0x61] = Sample.digest ∧
      Sample.host.pathExists Sample.disk Sample.digest = false ∧
      (pullWithOptions Sample.host Sample.blake3 Sample.codec
        (Sample.call Sample.digest (Sample.spoiled.map Prod.snd)) Sample.disk).2 =
        .done (.error (.rootVerify Sample.digest (chunkHash Sample.blake3 [0x62]))) := by
  refine ⟨⟨?_, _, rfl⟩, by decide +kernel⟩
  rw [Sample.served_a]
  rfl

end FurcateMesh.Transfer
