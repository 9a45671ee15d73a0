import FurcateMesh.TransferPull

/-!
# What the sender puts on the wire

The chunk loop of `stream_file_chunks` cuts a file into pieces, wherever its reads
happen to end, and sends one reply per piece.  The replies are an exact partition
of the file (`stream_exact_partition`), and `serveQuery_chunks` says what a
receiver accepts from a served file: one chunk per piece, at the piece's offset,
the final one marked `last`.

Only the end of the file makes a read return nothing, so the pieces are nonempty and the
loop ends when they add up to the length that was measured before the first read.  A chunk
is marked `last` when its end reaches that length, which happens once.  An empty file has no
piece, and is therefore sent without any reply.

The argument goes by induction on what is left of the file.  `streamLoop_piece` is one turn
of the loop, `streamLoop_chunks` all of them: the pieces concatenate to the file, none is
longer than `CHUNK_SIZE`, and the replies are accepted as their chunks (`chunksAt`).  What an
exact partition says of offsets, lengths and the final mark is then a fact about `chunksAt`
alone.
-/

namespace FurcateMesh.Transfer

open SparseFile

section Stream

variable (blake : Blake3) (codec : HeaderCodec)

/-- The chunks of the pieces of a file of length `totalLen`, from `offset` on. -/
def chunksAt (totalLen : Nat) : Nat → List Bytes → List (ChunkHeader × Bytes)
  | _, [] => []
  | offset, piece :: pieces =>
      (⟨UInt64.ofNat offset, chunkHash blake piece, UInt32.ofNat piece.length,
          decide (offset + piece.length ≥ totalLen)⟩, piece) ::
        chunksAt totalLen (offset + piece.length) pieces

def chunkWrite (chunk : ChunkHeader × Bytes) : Write UInt8 := (chunk.1.offset.toNat, chunk.2)

/-- The chunk stores bytes of `file` where `file` has them. -/
def IsChunkOf (file : Bytes) (chunk : ChunkHeader × Bytes) : Prop :=
  chunk.1.offset.toNat + chunk.2.length ≤ file.length ∧
    ∀ i, (chunkWrite chunk).Covers i → chunk.2[i - chunk.1.offset.toNat]? = file[i]?

/-! ### The pieces of a file -/

variable {blake codec}

theorem toNat_ofNat_of_le {offset : Nat} (h : offset ≤ MAX_FILE_SIZE) :
    (UInt64.ofNat offset).toNat = offset := by
  rw [UInt64.toNat_ofNat']
  exact Nat.mod_eq_of_lt (Nat.lt_of_le_of_lt h (by decide))

theorem isChunkOf_of_mem_chunksAt {totalLen : Nat} {chunk : ChunkHeader × Bytes} :
    ∀ (pieces : List Bytes) (before : Bytes),
      (before ++ pieces.flatten).length ≤ MAX_FILE_SIZE →
      chunk ∈ chunksAt blake totalLen before.length pieces →
      IsChunkOf (before ++ pieces.flatten) chunk := by
  intro pieces
  induction pieces with
  | nil => intro before _ hmem; cases hmem
  | cons piece pieces ih =>
    intro before hbound hmem
    rw [List.flatten_cons] at hbound ⊢
    rcases List.mem_cons.mp hmem with rfl | hmem
    · have hoff : (UInt64.ofNat before.length).toNat = before.length :=
        toNat_ofNat_of_le (by rw [List.length_append] at hbound; omega)
      refine ⟨by simp only [hoff, List.length_append]; omega, fun i hi => ?_⟩
      simp only [chunkWrite, Write.Covers, hoff] at hi
      rw [hoff, List.getElem?_append_right hi.1, List.getElem?_append_left (by omega)]
    · rw [← List.append_assoc] at hbound ⊢
      rw [← List.length_append] at hmem
      exact ih (before ++ piece) hbound hmem

variable (blake) in
theorem exists_chunk_covers (totalLen : Nat) {i : Nat} :
    ∀ (pieces : List Bytes) (offset : Nat), offset + pieces.flatten.length ≤ MAX_FILE_SIZE →
      offset ≤ i → i < offset + pieces.flatten.length →
      ∃ chunk ∈ chunksAt blake totalLen offset pieces, (chunkWrite chunk).Covers i := by
  intro pieces
  induction pieces with
  | nil => intro offset _ hlo hhi; simp only [List.flatten_nil, List.length_nil] at hhi; omega
  | cons piece pieces ih =>
    intro offset hbound hlo hhi
    rw [List.flatten_cons, List.length_append] at hbound hhi
    by_cases hpiece : i < offset + piece.length
    · refine ⟨_, List.mem_cons_self, ?_⟩
      simp only [chunkWrite, Write.Covers, toNat_ofNat_of_le (show offset ≤ MAX_FILE_SIZE by omega)]
      exact ⟨hlo, hpiece⟩
    · obtain ⟨chunk, hmem, hcovers⟩ :=
        ih (offset + piece.length) (by omega) (by omega) (by omega)
      exact ⟨chunk, List.mem_cons_of_mem _ hmem, hcovers⟩

variable (blake) in
theorem exists_last_chunk (totalLen : Nat) :
    ∀ (pieces : List Bytes) (offset : Nat), pieces ≠ [] →
      offset + pieces.flatten.length = totalLen →
      ∃ chunk ∈ chunksAt blake totalLen offset pieces, chunk.1.last = true := by
  intro pieces
  induction pieces with
  | nil => intro _ hne; exact absurd rfl hne
  | cons piece pieces ih =>
    intro offset _ htotal
    rw [List.flatten_cons, List.length_append] at htotal
    by_cases hend : pieces = []
    · refine ⟨_, List.mem_cons_self, decide_eq_true ?_⟩
      rw [hend, List.flatten_nil, List.length_nil] at htotal
      omega
    · obtain ⟨chunk, hmem, hlast⟩ := ih (offset + piece.length) hend (by omega)
      exact ⟨chunk, List.mem_cons_of_mem _ hmem, hlast⟩

/-! ### The chunk loop -/

/-- A reply the sender builds for a piece is accepted as that piece's chunk. -/
theorem acceptReply_encoded {header : ChunkHeader} {attachment payload : Bytes}
    (hvec : codec.toVec header = .ok attachment) (hhash : header.chunkHash = chunkHash blake payload) :
    acceptReply blake codec (.sample (some attachment) payload) = .ok (header, payload) := by
  obtain ⟨bytes, hbytes, hslice⟩ := codec.fromSlice_toVec header
  rw [hvec, Except.ok.injEq] at hbytes
  rw [← hbytes] at hslice
  simp only [acceptReply, hslice, (verify_eq_ok_iff blake header payload).mpr hhash]

variable (blake codec)

/-- One turn of the loop that reads a piece: it sends a reply that is accepted as
    the piece's chunk, and goes on unless the file ends there. -/
theorem streamLoop_piece (sched : ReadSchedule) (totalLen fuel k offset : Nat) {rest : Bytes}
    (hrest : rest ≠ []) :
    ∃ piece reply, piece = rest.take (readCount (sched k) rest) ∧ piece ≠ [] ∧
      piece.length = readCount (sched k) rest ∧
      acceptReply blake codec reply =
        .ok (⟨UInt64.ofNat offset, chunkHash blake piece, UInt32.ofNat piece.length,
          decide (offset + piece.length ≥ totalLen)⟩, piece) ∧
      streamLoop blake codec (.quiet sched) totalLen (fuel + 1) k offset rest =
        if offset + piece.length ≥ totalLen then ([reply], .ok ())
        else
          let tail := streamLoop blake codec (.quiet sched) totalLen fuel (k + 1)
            (offset + piece.length) (rest.drop piece.length)
          (reply :: tail.1, tail.2) := by
  have hn : readCount (sched k) rest ≠ 0 := fun h => hrest ((readCount_eq_zero_iff _ _).mp h)
  have hsmall : ¬ readCount (sched k) rest ≥ 2 ^ 32 := by
    have := readCount_le_chunk (sched k) rest
    have : CHUNK_SIZE < 2 ^ 32 := by decide
    omega
  have hlen : (rest.take (readCount (sched k) rest)).length = readCount (sched k) rest := by
    have := readCount_le_length (sched k) rest
    rw [List.length_take]; omega
  obtain ⟨attachment, hvec, _⟩ := codec.fromSlice_toVec
    ⟨UInt64.ofNat offset, chunkHash blake (rest.take (readCount (sched k) rest)),
      UInt32.ofNat (readCount (sched k) rest),
      decide (offset + readCount (sched k) rest ≥ totalLen)⟩
  refine ⟨_, .sample (some attachment) (rest.take (readCount (sched k) rest)), rfl,
    fun hnil => hn ?_, hlen, ?_, ?_⟩
  · rw [← hlen, hnil, List.length_nil]
  · rw [hlen]
    exact acceptReply_encoded hvec rfl
  · rw [hlen]
    simp only [streamLoop, SendEnv.quiet, hn, hsmall, if_false, hvec, decide_eq_true_eq]

/-- **The loop sends the file in pieces**, each no larger than a chunk, and ends
    without an error. -/
theorem streamLoop_chunks (sched : ReadSchedule) {totalLen : Nat} :
    ∀ (fuel k offset : Nat) (rest : Bytes), rest.length < fuel → offset + rest.length = totalLen →
      ∃ pieces : List Bytes, pieces.flatten = rest ∧
        (∀ piece ∈ pieces, piece ≠ [] ∧ piece.length ≤ CHUNK_SIZE) ∧
        (streamLoop blake codec (.quiet sched) totalLen fuel k offset rest).1.map
            (acceptReply blake codec) = (chunksAt blake totalLen offset pieces).map .ok ∧
        (streamLoop blake codec (.quiet sched) totalLen fuel k offset rest).2 = .ok () := by
  intro fuel
  induction fuel with
  | zero => intro k offset rest h; omega
  | succ fuel ih =>
    intro k offset rest hfuel htotal
    by_cases hrest : rest = []
    · have hn : readCount (sched k) rest = 0 := (readCount_eq_zero_iff _ _).mpr hrest
      refine ⟨[], hrest.symm, nofun, ?_, ?_⟩ <;>
        simp only [streamLoop, SendEnv.quiet, hn, if_true]
      rfl
    · obtain ⟨piece, reply, htake, hne, hlen, haccept, hloop⟩ :=
        streamLoop_piece blake codec sched totalLen fuel k offset hrest
      have hpos := List.length_pos_iff.mpr hne
      have hle := readCount_le_length (sched k) rest
      have hsize : piece.length ≤ CHUNK_SIZE := by
        rw [hlen]; exact readCount_le_chunk (sched k) rest
      by_cases hlast : offset + piece.length ≥ totalLen
      · -- the loop leaves early: nothing of the file is left
        have hall : piece = rest := by rw [htake]; exact List.take_of_length_le (by omega)
        rw [hloop, if_pos hlast]
        refine ⟨[piece], by rw [List.flatten_singleton, hall], fun p hp => ?_, ?_, rfl⟩
        · rw [List.mem_singleton.mp hp]
          exact ⟨hne, hsize⟩
        · simp only [List.map_cons, List.map_nil, haccept, chunksAt]
      · have hdrop : (rest.drop piece.length).length = rest.length - piece.length :=
          List.length_drop
        obtain ⟨pieces, hflat, hpieces, hchunks, hend⟩ :=
          ih (k + 1) (offset + piece.length) (rest.drop piece.length) (by omega) (by omega)
        rw [hloop, if_neg hlast]
        refine ⟨piece :: pieces, ?_, ?_, ?_, hend⟩
        · rw [List.flatten_cons, hflat, hlen, htake, List.take_append_drop]
        · intro p hp
          rcases List.mem_cons.mp hp with rfl | hp
          · exact ⟨hne, hsize⟩
          · exact hpieces p hp
        · simp only [List.map_cons, haccept, hchunks, chunksAt]

/-! ### The replies partition the file -/

/-- The chunks cut the file at their offsets, in order and without gaps, and only
    the final one is marked so. -/
structure ExactPartition (file : Bytes) (sent : List (ChunkHeader × Bytes)) : Prop where
  payloads : (sent.map Prod.snd).flatten = file
  offset : ∀ k chunk, sent[k]? = some chunk →
    chunk.1.offset.toNat = ((sent.take k).map Prod.snd).flatten.length
  len : ∀ chunk ∈ sent, chunk.1.len.toNat = chunk.2.length
  verified : ∀ chunk ∈ sent, verify blake chunk.1 chunk.2 = .ok ()
  last : ∀ k chunk, sent[k]? = some chunk → (chunk.1.last = true ↔ k + 1 = sent.length)

def Carries (reply : Reply) (chunk : ChunkHeader × Bytes) : Prop :=
  ∃ attachment, reply = .sample (some attachment) chunk.2 ∧
    codec.fromSlice attachment = .ok chunk.1

theorem carries_of_acceptReply {reply : Reply} {chunk : ChunkHeader × Bytes}
    (h : acceptReply blake codec reply = .ok chunk) :
    Carries codec reply chunk ∧ verify blake chunk.1 chunk.2 = .ok () := by
  unfold acceptReply at h
  split at h
  · cases h
  · cases h
  · rename_i attachment payload
    split at h
    · cases h
    · rename_i header hslice
      split at h
      · cases h
      · rename_i hverify
        cases h
        exact ⟨⟨attachment, rfl, hslice⟩, hverify⟩

theorem map_snd_chunksAt (totalLen : Nat) :
    ∀ (pieces : List Bytes) (offset : Nat),
      (chunksAt blake totalLen offset pieces).map Prod.snd = pieces := by
  intro pieces
  induction pieces with
  | nil => intro offset; rfl
  | cons piece pieces ih => intro offset; rw [chunksAt, List.map_cons, ih]

theorem length_chunksAt (totalLen offset : Nat) (pieces : List Bytes) :
    (chunksAt blake totalLen offset pieces).length = pieces.length := by
  have hmap := congrArg List.length (map_snd_chunksAt blake totalLen pieces offset)
  rwa [List.length_map] at hmap

theorem getElem?_chunksAt (totalLen : Nat) :
    ∀ (pieces : List Bytes) (offset k : Nat),
      (chunksAt blake totalLen offset pieces)[k]? = pieces[k]?.map fun piece =>
        (⟨UInt64.ofNat (offset + (pieces.take k).flatten.length), chunkHash blake piece,
          UInt32.ofNat piece.length,
          decide (offset + (pieces.take k).flatten.length + piece.length ≥ totalLen)⟩, piece) := by
  intro pieces
  induction pieces with
  | nil => intro offset k; rfl
  | cons piece pieces ih =>
    intro offset k
    cases k with
    | zero => rfl
    | succ k =>
      simp only [chunksAt, List.getElem?_cons_succ, List.take_succ_cons, List.flatten_cons,
        List.length_append, ih, Nat.add_assoc]

/-- Where piece `k` ends, and that the file goes on exactly when pieces do. -/
theorem piece_end {pieces : List Bytes} {piece : Bytes} (hne : ∀ p ∈ pieces, p ≠ []) {k : Nat}
    (hk : pieces[k]? = some piece) :
    (pieces.take k).flatten.length + piece.length ≤ pieces.flatten.length ∧
      ((pieces.take k).flatten.length + piece.length ≥ pieces.flatten.length ↔
        k + 1 = pieces.length) := by
  obtain ⟨hlt, hget⟩ := List.getElem?_eq_some_iff.mp hk
  have hsplit : pieces.flatten.length =
      (pieces.take k).flatten.length + (piece.length + (pieces.drop (k + 1)).flatten.length) := by
    conv_lhs => rw [← List.take_append_drop k pieces, List.drop_eq_getElem_cons hlt, hget]
    rw [List.flatten_append, List.flatten_cons, List.length_append, List.length_append]
  have hrest : (pieces.drop (k + 1)).flatten.length = 0 ↔ pieces.drop (k + 1) = [] := by
    rw [List.length_eq_zero_iff, List.flatten_eq_nil_iff]
    constructor
    · intro hall
      rw [List.eq_nil_iff_forall_not_mem]
      exact fun p hp => hne p (List.mem_of_mem_drop hp) (hall p hp)
    · intro hnil p hp
      rw [hnil] at hp
      cases hp
  rw [List.drop_eq_nil_iff] at hrest
  omega

/-- The chunks of nonempty pieces of chunk size partition the file. -/
theorem exactPartition_chunksAt {pieces : List Bytes} (hbound : pieces.flatten.length ≤ MAX_FILE_SIZE)
    (hpieces : ∀ piece ∈ pieces, piece ≠ [] ∧ piece.length ≤ CHUNK_SIZE) :
    ExactPartition blake pieces.flatten (chunksAt blake pieces.flatten.length 0 pieces) := by
  have hchunk : ∀ k chunk, (chunksAt blake pieces.flatten.length 0 pieces)[k]? = some chunk →
      ∃ piece, pieces[k]? = some piece ∧ chunk =
        ((⟨UInt64.ofNat (pieces.take k).flatten.length, chunkHash blake piece,
          UInt32.ofNat piece.length,
          decide ((pieces.take k).flatten.length + piece.length ≥ pieces.flatten.length)⟩ :
            ChunkHeader), piece) := by
    intro k chunk hk
    rw [getElem?_chunksAt, Option.map_eq_some_iff] at hk
    obtain ⟨piece, hpiece, rfl⟩ := hk
    exact ⟨piece, hpiece, by rw [Nat.zero_add]⟩
  have hends : ∀ k piece, pieces[k]? = some piece →
      (pieces.take k).flatten.length + piece.length ≤ pieces.flatten.length ∧
        ((pieces.take k).flatten.length + piece.length ≥ pieces.flatten.length ↔
          k + 1 = pieces.length) :=
    fun k piece hk => piece_end (fun p hp => (hpieces p hp).1) hk
  refine ⟨by rw [map_snd_chunksAt], ?_, ?_, ?_, ?_⟩
  · intro k chunk hk
    obtain ⟨piece, hpiece, rfl⟩ := hchunk k chunk hk
    have hend := (hends k piece hpiece).1
    rw [List.map_take, map_snd_chunksAt]
    exact toNat_ofNat_of_le (by omega)
  · intro chunk hmem
    obtain ⟨k, hk⟩ := List.mem_iff_getElem?.mp hmem
    obtain ⟨piece, hpiece, rfl⟩ := hchunk k chunk hk
    have hsize := (hpieces piece (List.mem_of_getElem? hpiece)).2
    have hfits : CHUNK_SIZE < 2 ^ 32 := by decide
    rw [UInt32.toNat_ofNat', Nat.mod_eq_of_lt (by omega)]
  · intro chunk hmem
    obtain ⟨k, hk⟩ := List.mem_iff_getElem?.mp hmem
    obtain ⟨piece, hpiece, rfl⟩ := hchunk k chunk hk
    exact (verify_eq_ok_iff blake _ _).mpr rfl
  · intro k chunk hk
    obtain ⟨piece, hpiece, rfl⟩ := hchunk k chunk hk
    rw [decide_eq_true_iff, length_chunksAt]
    exact (hends k piece hpiece).2

/-- The loop stops by itself: more fuel than the file has bytes changes nothing. -/
theorem streamLoop_fuel (env : SendEnv) (totalLen : Nat) :
    ∀ (fuel fuel' k offset : Nat) (rest : Bytes), rest.length < fuel → rest.length < fuel' →
      streamLoop blake codec env totalLen fuel k offset rest =
        streamLoop blake codec env totalLen fuel' k offset rest := by
  intro fuel
  induction fuel with
  | zero => intro _ _ _ _ h; omega
  | succ fuel ih =>
    intro fuel' k offset rest hfuel hfuel'
    obtain ⟨fuel', rfl⟩ := Nat.exists_eq_succ_of_ne_zero (Nat.ne_zero_of_lt hfuel')
    simp only [streamLoop]
    cases hread : env.read k with
    | error e => rfl
    | ok size =>
      by_cases hn : readCount size rest = 0
      · simp only [hn, if_true]
      · have hle := readCount_le_length size rest
        have hlen : (rest.drop (readCount size rest)).length = rest.length - readCount size rest :=
          List.length_drop
        simp only [ih fuel' (k + 1) (offset + readCount size rest) (rest.drop (readCount size rest))
          (by omega) (by omega)]

/-- **The sender's stream is an exact partition.**  Whatever the reads return,
    `stream_file_chunks` ends without an error, however long its loop is allowed to
    run, and its replies carry, in order, the chunks of an exact partition of the
    file. -/
theorem stream_exact_partition (sched : ReadSchedule) {files : String → Option FileContent}
    {path : String} {file : FileContent} (hfile : files path = some file) :
    (streamFileChunks blake codec (.quiet sched) files path).2 = .ok () ∧
      (∀ fuel, file.bytes.length < fuel →
        streamLoop blake codec (.quiet sched) file.bytes.length fuel 0 0 file.bytes =
          streamFileChunks blake codec (.quiet sched) files path) ∧
      ∃ sent, List.Forall₂ (Carries codec)
          (streamFileChunks blake codec (.quiet sched) files path).1 sent ∧
        ExactPartition blake file.bytes sent := by
  simp only [streamFileChunks, hfile]
  obtain ⟨pieces, hflat, hpieces, hchunks, hend⟩ :=
    streamLoop_chunks blake codec sched (file.bytes.length + 1) 0 0 file.bytes
      (Nat.lt_succ_self _) (Nat.zero_add _)
  refine ⟨hend, fun fuel hfuel => streamLoop_fuel blake codec _ _ _ _ _ _ _ hfuel
    (Nat.lt_succ_self _), chunksAt blake file.bytes.length 0 pieces, ?_, ?_⟩
  · rw [← List.forall₂_eq_eq_eq, List.forall₂_map_left_iff, List.forall₂_map_right_iff] at hchunks
    exact hchunks.imp fun reply chunk h => (carries_of_acceptReply blake codec h).1
  · rw [← hflat]
    exact exactPartition_chunksAt blake (by rw [hflat]; exact file.bounded) hpieces

/-! ### A registered file -/

theorem stripPrefix_append (lead text : String) : stripPrefix lead (lead ++ text) = some text := by
  have hlead : lead.toList.isPrefixOf (lead.toList ++ text.toList) = true :=
    List.isPrefixOf_iff_prefix.mpr (List.prefix_append _ _)
  rw [stripPrefix, String.toList_append, if_pos hlead, List.drop_left, String.ofList_toList]

/-- **What a registered file puts on the wire**: replies that are accepted as the
    chunks of its pieces. -/
theorem serveQuery_chunks (sched : ReadSchedule) (artefacts : ArtefactIndex)
    {files : String → Option FileContent} {path : String} {file : FileContent}
    (hfile : files path = some file) (digest : String) :
    ∃ pieces : List Bytes, pieces.flatten = file.bytes ∧
      (∀ piece ∈ pieces, piece ≠ [] ∧ piece.length ≤ CHUNK_SIZE) ∧
      (serveQuery blake codec (.quiet sched) (register artefacts digest path) files
          (selector digest)).map (acceptReply blake codec) =
        (chunksAt blake file.bytes.length 0 pieces).map .ok := by
  obtain ⟨pieces, hflat, hpieces, hchunks, _⟩ :=
    streamLoop_chunks blake codec sched (file.bytes.length + 1) 0 0 file.bytes
      (Nat.lt_succ_self _) (Nat.zero_add _)
  refine ⟨pieces, hflat, hpieces, ?_⟩
  simp only [serveQuery, selector, stripPrefix_append, register, Function.update_self,
    streamFileChunks, hfile]
  exact hchunks

end Stream

theorem Sample.twoBytes_bounded : [(0x61 : UInt8), 0x62].length ≤ MAX_FILE_SIZE := by decide

def Sample.twoBytes : FileContent := ⟨[0x61, 0x62], Sample.twoBytes_bounded⟩

theorem stream_exact_partition_two :
    ∃ sent, List.Forall₂ (Carries Sample.codec)
        (streamFileChunks Sample.blake3 Sample.codec (.quiet fun _ => 1)
          (fun _ => some Sample.twoBytes) "ab").1 sent ∧
      ExactPartition Sample.blake3 Sample.twoBytes.bytes sent :=
  (@stream_exact_partition Sample.blake3 Sample.codec (fun _ => 1) (fun _ => some Sample.twoBytes)
    "ab" Sample.twoBytes rfl).2.2

end FurcateMesh.Transfer
