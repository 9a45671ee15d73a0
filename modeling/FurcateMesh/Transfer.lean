import Mathlib
import FurcateMesh.PeerId

/-!
# Chunked transfer: hashing, verification and the sender

The parts of `furcate-mesh-transfer/src/lib.rs` that touch no cache: the chunk
header and its verifier, the streaming root hash of a file, and the sender that
answers a transfer query with one reply per chunk.

What is library code enters as a structure whose fields state the documented behaviour the
crate relies on.

* `Blake3`: a hasher that is fed in pieces gives the hash of the concatenation.
* `HeaderCodec`: `serde_json` at `ChunkHeader`, which reads back what it wrote.
* `ReadSchedule`: how many bytes each read returns.  A read may be short wherever the
  operating system likes, but only the end of the file gives none.  A result that holds for
  every schedule does not depend on how the reads are cut.
* `SendEnv`: the reads of the sender, any of which may fail, and the fate of each reply.

The two read loops of the source are recursions over the file with a fuel of one unit more
than the file has bytes; `rootHashLoop_pieces` here, and `streamLoop_fuel` in
`TransferStream`, show that the fuel never runs out.

`serveQuery` is the body of the task that `TransferService::serve` spawns, for one query: the
digest is what follows the root in the key, and it is looked up in the artefact table that
`register` fills.  A query for anything else is left without a reply, so a receiver cannot
tell a host that does not have the file from one that is not there.

The instance at the end has the real BLAKE3 digests of a few short files and a codec with
their real JSON headers, so that runs on them can be compared with the program's.
-/

namespace FurcateMesh.Transfer

def CHUNK_SIZE : Nat := 1024 * 1024

def TRANSFER_ROOT : String := "furcate/mesh/transfer"

/-- A file holds fewer than `2^63` bytes: its size is a signed 64-bit offset. -/
def MAX_FILE_SIZE : Nat := 2 ^ 63 - 1

/-- The contents of a file that can exist on disk. -/
structure FileContent where
  bytes : Bytes
  bounded : bytes.length ≤ MAX_FILE_SIZE

/-- The incremental and the one-shot BLAKE3 hasher.  Feeding pieces in order
    gives the hash of their concatenation. -/
structure Blake3 where
  State : Type
  new : State
  update : State → Bytes → State
  finalize : State → Vector UInt8 32
  hash : Bytes → Vector UInt8 32
  finalize_update : ∀ pieces : List Bytes, finalize (pieces.foldl update new) = hash pieces.flatten

/-- One chunk in transit, carried in the attachment slot of a reply. -/
structure ChunkHeader where
  offset : UInt64
  chunkHash : String
  len : UInt32
  last : Bool
deriving DecidableEq, Repr

/-- `serde_json::to_vec` and `serde_json::from_slice` at `ChunkHeader`. -/
structure HeaderCodec where
  toVec : ChunkHeader → Except String Bytes
  fromSlice : Bytes → Except String ChunkHeader
  fromSlice_toVec : ∀ header, ∃ bytes, toVec header = .ok bytes ∧ fromSlice bytes = .ok header

/-- The I/O failures the crate can meet.  `other` stands for a fault of the
    environment, such as a full disk. -/
inductive IoError where
  | notFound
  | isDirectory
  | invalidSeek
  | fileTooLarge
  | other
deriving DecidableEq, Repr

inductive TransferError where
  | io (error : IoError)
  | chunkVerify (offset : UInt64)
  | rootVerify (expected actual : String)
  | peerMissing (peer : PeerId) (digest : String)
  | transport (message : String)
  | malformedReply (message : String)
deriving DecidableEq

/-- One reply to a transfer query: an error with the text of its payload, when
    that is valid UTF-8, or a sample with its attachment and its payload. -/
inductive Reply where
  | error (text : Option String)
  | sample (attachment : Option Bytes) (payload : Bytes)
deriving DecidableEq

/-! ### Chunk verification -/

section Verify

variable (blake : Blake3)

def chunkHash (bytes : Bytes) : String := hexEncode (blake.hash bytes).toList

def verify (header : ChunkHeader) (bytes : Bytes) : Except TransferError Unit :=
  if chunkHash blake bytes = header.chunkHash then .ok ()
  else .error (.chunkVerify header.offset)

theorem chunkHash_isHexDigest (bytes : Bytes) : IsHexDigest (chunkHash blake bytes) :=
  hexEncode_isHexDigest (by simp)

theorem verify_eq_ok_iff (header : ChunkHeader) (bytes : Bytes) :
    verify blake header bytes = .ok () ↔ header.chunkHash = chunkHash blake bytes := by
  unfold verify
  by_cases h : chunkHash blake bytes = header.chunkHash
  · simp [h]
  · simp [h, Ne.symm h]

end Verify

/-! ### Reading a file piece by piece

A read returns between one byte and a full buffer of what is left, and nothing
only at the end of the file.  A schedule proposes a size for each read; every
possible sequence of read results comes from one. -/

abbrev ReadSchedule := Nat → Nat

def readCount (size : Nat) (rest : Bytes) : Nat :=
  min (min CHUNK_SIZE rest.length) (max 1 size)

theorem readCount_le_length (size : Nat) (rest : Bytes) : readCount size rest ≤ rest.length := by
  unfold readCount; omega

theorem readCount_le_chunk (size : Nat) (rest : Bytes) : readCount size rest ≤ CHUNK_SIZE := by
  unfold readCount; omega

theorem readCount_eq_zero_iff (size : Nat) (rest : Bytes) :
    readCount size rest = 0 ↔ rest = [] := by
  have hchunk : 0 < CHUNK_SIZE := by decide
  rw [← List.length_eq_zero_iff]
  unfold readCount
  omega

/-! ### `root_hash` -/

section RootHash

variable (blake : Blake3) (sched : ReadSchedule)

/-- The read loop of `root_hash`.  A read that is not at the end of the file
    consumes a byte, so one unit of fuel for each byte and one for the final
    empty read suffice. -/
def rootHashLoop : Nat → Nat → Bytes → blake.State → blake.State
  | 0, _, _, hasher => hasher
  | fuel + 1, k, rest, hasher =>
      let n := readCount (sched k) rest
      if n = 0 then hasher
      else rootHashLoop fuel (k + 1) (rest.drop n) (blake.update hasher (rest.take n))

def rootHash (file : Bytes) : String :=
  hexEncode (blake.finalize (rootHashLoop blake sched (file.length + 1) 0 file blake.new)).toList

/-- The loop feeds the hasher pieces whose concatenation is the file. -/
theorem rootHashLoop_pieces :
    ∀ (fuel k : Nat) (rest : Bytes) (hasher : blake.State), rest.length < fuel →
      ∃ pieces : List Bytes, pieces.flatten = rest ∧
        rootHashLoop blake sched fuel k rest hasher = pieces.foldl blake.update hasher := by
  intro fuel
  induction fuel with
  | zero => intro k rest hasher h; omega
  | succ fuel ih =>
    intro k rest hasher hfuel
    by_cases hn : readCount (sched k) rest = 0
    · refine ⟨[], ?_, ?_⟩
      · rw [(readCount_eq_zero_iff _ _).mp hn]; rfl
      · simp only [rootHashLoop, hn, if_true, List.foldl_nil]
    · have hdrop : (rest.drop (readCount (sched k) rest)).length < fuel := by
        have := readCount_le_length (sched k) rest
        rw [List.length_drop]; omega
      obtain ⟨pieces, hflat, hloop⟩ := ih (k + 1) _
        (blake.update hasher (rest.take (readCount (sched k) rest))) hdrop
      refine ⟨rest.take (readCount (sched k) rest) :: pieces, ?_, ?_⟩
      · rw [List.flatten_cons, hflat, List.take_append_drop]
      · simp only [rootHashLoop, hn, if_false, hloop, List.foldl_cons]

/-- **`root_hash` does not depend on how the reads are cut**: it is the hash of
    the file's bytes. -/
theorem rootHash_eq_chunkHash (file : Bytes) : rootHash blake sched file = chunkHash blake file := by
  obtain ⟨pieces, hflat, hloop⟩ :=
    rootHashLoop_pieces blake sched (file.length + 1) 0 file blake.new (Nat.lt_succ_self _)
  rw [rootHash, hloop, blake.finalize_update, hflat, chunkHash]

end RootHash

/-! ### The sender -/

/-- What the sender's environment answers: the size or the failure of each read,
    and whether each `query.reply` succeeds. -/
structure SendEnv where
  read : Nat → Except IoError Nat
  reply : Nat → Except String Unit

def SendEnv.quiet (sched : ReadSchedule) : SendEnv where
  read k := .ok (sched k)
  reply _ := .ok ()

section Sender

variable (blake : Blake3) (codec : HeaderCodec) (env : SendEnv)

/-- The chunk loop of `stream_file_chunks`: the replies it sends and how it ends. -/
def streamLoop (totalLen : Nat) :
    Nat → Nat → Nat → Bytes → List Reply × Except TransferError Unit
  | 0, _, _, _ => ([], .ok ())
  | fuel + 1, k, offset, rest =>
      match env.read k with
      | .error e => ([], .error (.io e))
      | .ok size =>
        let n := readCount size rest
        if n = 0 then ([], .ok ())
        else
          let payload := rest.take n
          let last := decide (offset + n ≥ totalLen)
          if n ≥ 2 ^ 32 then
            ([], .error (.transport "chunk length exceeds u32 (impossible at 1 MiB)"))
          else
            match codec.toVec ⟨UInt64.ofNat offset, chunkHash blake payload, UInt32.ofNat n, last⟩ with
            | .error e => ([], .error (.transport ("encoding chunk header: " ++ e)))
            | .ok attachment =>
              match env.reply k with
              | .error e => ([], .error (.transport ("reply: " ++ e)))
              | .ok () =>
                if last then ([.sample (some attachment) payload], .ok ())
                else
                  let tail := streamLoop totalLen fuel (k + 1) (offset + n) (rest.drop n)
                  (.sample (some attachment) payload :: tail.1, tail.2)

/-- Stream every chunk of the file at `path`.  The length is measured once,
    before the first read. -/
def streamFileChunks (files : String → Option FileContent) (path : String) :
    List Reply × Except TransferError Unit :=
  match files path with
  | none => ([], .error (.io .notFound))
  | some file => streamLoop blake codec env file.bytes.length (file.bytes.length + 1) 0 0 file.bytes

end Sender

abbrev ArtefactIndex := String → Option String

def register (artefacts : ArtefactIndex) (digestHex path : String) : ArtefactIndex :=
  Function.update artefacts digestHex (some path)

def stripPrefix (lead text : String) : Option String :=
  if lead.toList.isPrefixOf text.toList then
    some (String.ofList (text.toList.drop lead.toList.length))
  else none

def selector (digestHex : String) : String := TRANSFER_ROOT ++ "/" ++ digestHex

/-- What `serve` replies to one query.  A key without a digest segment and a
    digest that is not hosted get no reply. -/
def serveQuery (blake : Blake3) (codec : HeaderCodec) (env : SendEnv)
    (artefacts : ArtefactIndex) (files : String → Option FileContent) (key : String) :
    List Reply :=
  match stripPrefix (TRANSFER_ROOT ++ "/") key with
  | none => []
  | some digest =>
      match artefacts digest with
      | none => []
      | some path => (streamFileChunks blake codec env files path).1

/-! ### A concrete instance

The library parameters on the few inputs that the concrete runs of this
development feed them: the BLAKE3 digests of the empty file, `a`, `b` and `ab`,
and the JSON text of headers over those chunks.  Other headers get an injective
code of their own, so that the instance satisfies the law of `HeaderCodec`. -/

namespace Sample

def hash : Bytes → Vector UInt8 32
  | [] => #v[0xaf, 0x13, 0x49, 0xb9, 0xf5, 0xf9, 0xa1, 0xa6, 0xa0, 0x40, 0x4d,
      0xea, 0x36, 0xdc, 0xc9, 0x49, 0x9b, 0xcb, 0x25, 0xc9, 0xad, 0xc1,
      0x12, 0xb7, 0xcc, 0x9a, 0x93, 0xca, 0xe4, 0x1f, 0x32, 0x62]
  | [0x61] => #v[0x17, 0x76, 0x2f, 0xdd, 0xd9, 0x69, 0xa4, 0x53, 0x92, 0x5d, 0x65,
      0x71, 0x7a, 0xc3, 0xee, 0xa2, 0x13, 0x20, 0xb6, 0x6b, 0x54, 0x34,
      0x2f, 0xde, 0x15, 0x12, 0x8d, 0x6c, 0xaf, 0x21, 0x21, 0x5f]
  | [0x62] => #v[0x10, 0xe5, 0xcf, 0x3d, 0x3c, 0x8a, 0x4f, 0x9f, 0x34, 0x68, 0xc8,
      0xcc, 0x58, 0xee, 0xa8, 0x48, 0x92, 0xa2, 0x2f, 0xda, 0xdb, 0xc1,
      0xac, 0xb2, 0x24, 0x10, 0x19, 0x00, 0x44, 0xc1, 0xd5, 0x53]
  | [0x61, 0x62] => #v[0x2d, 0xc9, 0x99, 0x99, 0xa6, 0xaa, 0xef, 0x3f, 0x20, 0x34, 0x9d,
      0x2e, 0xd4, 0x05, 0x7a, 0x2b, 0x54, 0x41, 0x95, 0x45, 0xda, 0xbb,
      0x80, 0x9e, 0x63, 0x81, 0xde, 0x1b, 0xad, 0x83, 0x37, 0xe2]
  | _ => Vector.replicate 32 0

def blake3 : Blake3 where
  State := Bytes
  new := []
  update state piece := state ++ piece
  finalize := hash
  hash := hash
  finalize_update pieces := by
    congr 1
    rw [← List.nil_append pieces.flatten]
    generalize ([] : Bytes) = state
    induction pieces generalizing state with
    | nil => simp
    | cons piece pieces ih => rw [List.foldl_cons, ih, List.flatten_cons, List.append_assoc]

def header (offset : UInt64) (chunk : Bytes) (last : Bool) : ChunkHeader :=
  ⟨offset, chunkHash blake3 chunk, UInt32.ofNat chunk.length, last⟩

/-- The JSON text of that header, for one-digit numbers. -/
def json (offset : UInt64) (chunk : Bytes) (last : Bool) : Bytes :=
  let digit (n : Nat) : List Char := [hexDigits.getD n '0']
  let text : List Char :=
    ['\x7b', '"', 'o', 'f', 'f', 's', 'e', 't', '"', ':'] ++ digit offset.toNat ++
    [',', '"', 'c', 'h', 'u', 'n', 'k', '_', 'h', 'a', 's', 'h', '"', ':', '"'] ++
    (hash chunk).toList.flatMap hexByte ++
    ['"', ',', '"', 'l', 'e', 'n', '"', ':'] ++ digit chunk.length ++
    [',', '"', 'l', 'a', 's', 't', '"', ':'] ++
    (if last then ['t', 'r', 'u', 'e'] else ['f', 'a', 'l', 's', 'e']) ++ ['\x7d']
  text.map fun c => UInt8.ofNat c.toNat

def wire : List (ChunkHeader × Bytes) :=
  [(header 0 [0x61] false, json 0 [0x61] false), (header 0 [0x61] true, json 0 [0x61] true),
    (header 0 [0x62] true, json 0 [0x62] true), (header 1 [0x61] true, json 1 [0x61] true),
    (header 1 [0x62] true, json 1 [0x62] true)]

def unary (n : Nat) : Bytes := List.replicate n 1 ++ [0]

def readUnary : Bytes → Nat × Bytes
  | [] => (0, [])
  | byte :: rest => if byte = 0 then (0, rest) else ((readUnary rest).1 + 1, (readUnary rest).2)

def readChars : Nat → Bytes → List Char
  | 0, _ => []
  | n + 1, bytes => Char.ofNat (readUnary bytes).1 :: readChars n (readUnary bytes).2

def codeBytes (header : ChunkHeader) : Bytes :=
  unary (if header.last then 1 else 0) ++ (unary header.offset.toNat ++ (unary header.len.toNat ++
    (unary header.chunkHash.toList.length ++
      header.chunkHash.toList.flatMap fun c => unary c.toNat)))

def readCode (bytes : Bytes) : ChunkHeader :=
  let last := readUnary bytes
  let offset := readUnary last.2
  let len := readUnary offset.2
  let count := readUnary len.2
  ⟨UInt64.ofNat offset.1, String.ofList (readChars count.1 count.2), UInt32.ofNat len.1,
    decide (last.1 = 1)⟩

theorem readUnary_unary (n : Nat) (rest : Bytes) : readUnary (unary n ++ rest) = (n, rest) := by
  induction n with
  | zero => rfl
  | succ n ih =>
    have hcons : unary (n + 1) ++ rest = 1 :: (unary n ++ rest) := rfl
    rw [hcons, readUnary, if_neg (by decide), ih]

theorem readChars_flatMap (chars : List Char) :
    readChars chars.length (chars.flatMap fun c => unary c.toNat) = chars := by
  induction chars with
  | nil => rfl
  | cons c chars ih =>
    rw [List.length_cons, List.flatMap_cons, readChars, readUnary_unary, ih, Char.ofNat_toNat]

theorem readCode_codeBytes (header : ChunkHeader) : readCode (codeBytes header) = header := by
  cases header with
  | mk offset hash len last =>
    cases last <;>
      simp only [readCode, codeBytes, readUnary_unary, readChars_flatMap, UInt64.ofNat_toNat,
        UInt32.ofNat_toNat, String.ofList_toList] <;> rfl

def toVec (header : ChunkHeader) : Bytes :=
  match wire.find? fun entry => entry.1 = header with
  | some entry => entry.2
  | none => codeBytes header

def fromSlice (bytes : Bytes) : Except String ChunkHeader :=
  match wire.find? fun entry => entry.2 = bytes with
  | some entry => .ok entry.1
  | none =>
      if bytes.head? = some 0 ∨ bytes.head? = some 1 then .ok (readCode bytes)
      else .error "expected value at line 1 column 1"

theorem wire_nodup : (wire.map Prod.snd).Nodup := by decide +kernel

theorem wire_head : ∀ entry ∈ wire, entry.2.head? = some 0x7b := by
  simp only [wire, List.mem_cons, List.not_mem_nil, or_false, forall_eq_or_imp, forall_eq]
  exact ⟨rfl, rfl, rfl, rfl, rfl⟩

theorem fromSlice_wire {entry : ChunkHeader × Bytes} (hmem : entry ∈ wire) :
    fromSlice entry.2 = .ok entry.1 := by
  have hsome : (wire.find? fun other => other.2 = entry.2).isSome := by
    rw [List.find?_isSome]
    exact ⟨entry, hmem, by simp⟩
  obtain ⟨other, hfind⟩ := Option.isSome_iff_exists.mp hsome
  have hsame : other = entry :=
    List.inj_on_of_nodup_map wire_nodup (List.mem_of_find?_eq_some hfind) hmem
      (by simpa using List.find?_some hfind)
  rw [fromSlice, hfind, hsame]

theorem fromSlice_codeBytes (header : ChunkHeader) :
    fromSlice (codeBytes header) = .ok header := by
  have hhead : (codeBytes header).head? = some 0 ∨ (codeBytes header).head? = some 1 := by
    cases header with
    | mk offset hash len last => cases last <;> simp [codeBytes, unary]
  have hnone : (wire.find? fun entry => entry.2 = codeBytes header) = none := by
    rw [List.find?_eq_none]
    intro entry hentry heq
    have hsame := wire_head entry hentry
    rw [of_decide_eq_true heq] at hsame
    rcases hhead with h | h <;> rw [h] at hsame <;> exact absurd hsame (by decide)
  rw [fromSlice, hnone, if_pos hhead, readCode_codeBytes]

def codec : HeaderCodec where
  toVec header := .ok (toVec header)
  fromSlice := fromSlice
  fromSlice_toVec header := by
    refine ⟨_, rfl, ?_⟩
    unfold toVec
    split
    · rename_i entry hfind
      have hsame := List.find?_some hfind
      rw [fromSlice_wire (List.mem_of_find?_eq_some hfind), of_decide_eq_true hsame]
    · exact fromSlice_codeBytes header

end Sample

end FurcateMesh.Transfer
