import FurcateMesh.TransferReceive

/-!
# Which chunks a call writes

`ChunkHeader` documents a contract: `len` is the payload's length and at most
`CHUNK_SIZE`, only the last chunk is shorter, and offsets are multiples of `CHUNK_SIZE`.
The receiver checks the hash of a chunk against its own header and nothing else, so it
writes exactly the chunks of the accepted replies it comes to, whether they keep the
contract or not (`written_contract_iff`).

A call comes to a chunk (`Reached`) if the digest is not cached and the temp file opens, no
earlier reply ends the call, the chunk's own reply is accepted at an offset that can be
sought, and no failed piece is left to be reported, unless the chunk is empty.

Which replies it comes to is a fold over the replies (`passReply`).  The state of the fold
is whether a piece has failed that was not reported yet.  Such a failure stops the loop at
the next nonempty chunk, and not before, since `seek` only remembers it and an empty
`write_all` does nothing.

`Followed` ties the fold to the steps of a call.  It holds in every state under any faults,
and says two things at once: the chunks taken so far are those of the replies before, and,
in a run without faults, the call stops exactly where the fold does.  In the reply loop it
is put together from `Along`, where the fold stands, and `Handed`, which pieces of the chunk
at hand are on their way; `lastPiece` is where the last piece of a chunk starts, the only one
whose failure the call does not see before it has taken the chunk.

Both directions of the theorem use `Followed`: what a call writes was reached
(`Session.run_reached`), and in a run without faults what is reached is written
(`Session.mem_written_of_reached`).  The length of the temp file is a second invariant,
`Session.Bounded`: it never ends after the highest cell of the grid among the chunks written,
with or without the piece in flight.
-/

namespace FurcateMesh.Transfer

open InodeStore SparseFile

/-! ### The contract and the grid -/

/-- What the documentation of `ChunkHeader` says of a chunk. -/
def Contract (chunk : ChunkHeader × Bytes) : Prop :=
  chunk.1.len.toNat = chunk.2.length ∧ chunk.2.length ≤ CHUNK_SIZE ∧
    (chunk.1.last = false → chunk.2.length = CHUNK_SIZE) ∧ CHUNK_SIZE ∣ chunk.1.offset.toNat

instance (chunk : ChunkHeader × Bytes) : Decidable (Contract chunk) :=
  inferInstanceAs (Decidable (_ ∧ _ ∧ (_ → _) ∧ _))

-- the end of the grid cell the chunk starts in
def cellEnd (chunk : ChunkHeader × Bytes) : Nat :=
  (chunk.1.offset.toNat / CHUNK_SIZE + 1) * CHUNK_SIZE

def gridEnd (chunks : List (ChunkHeader × Bytes)) : Nat := (chunks.map cellEnd).foldl max 0

theorem gridEnd_concat (chunks : List (ChunkHeader × Bytes)) (chunk : ChunkHeader × Bytes) :
    gridEnd (chunks ++ [chunk]) = max (gridEnd chunks) (cellEnd chunk) := by
  simp only [gridEnd, List.map_append, List.foldl_append, List.map_cons, List.map_nil,
    List.foldl_cons, List.foldl_nil]

theorem cellEnd_le_gridEnd {chunks : List (ChunkHeader × Bytes)} {chunk : ChunkHeader × Bytes}
    (hmem : chunk ∈ chunks) : cellEnd chunk ≤ gridEnd chunks := by
  induction chunks using List.reverseRecOn with
  | nil => cases hmem
  | append_singleton chunks other ih =>
    rw [gridEnd_concat]
    rcases List.mem_append.mp hmem with hmem | hmem
    · exact (ih hmem).trans (Nat.le_max_left _ _)
    · rw [List.mem_singleton.mp hmem]
      exact Nat.le_max_right _ _

theorem gridEnd_le_append (chunks more : List (ChunkHeader × Bytes)) :
    gridEnd chunks ≤ gridEnd (chunks ++ more) := by
  induction more using List.reverseRecOn with
  | nil => rw [List.append_nil]
  | append_singleton more other ih =>
    rw [← List.append_assoc, gridEnd_concat]
    exact ih.trans (Nat.le_max_left _ _)

theorem Contract.le_cellEnd {chunk : ChunkHeader × Bytes} (h : Contract chunk) :
    chunk.1.offset.toNat + chunk.2.length ≤ cellEnd chunk := by
  obtain ⟨-, hlen, -, hdvd⟩ := h
  rw [cellEnd, Nat.add_mul, Nat.one_mul, Nat.div_mul_cancel hdvd]
  exact Nat.add_le_add_left hlen _

section Reached

variable (host : Host) (blake : Blake3) (codec : HeaderCodec) (call : PullCall)

/-! ### The replies a call comes to -/

def lastPiece (chunk : Bytes) : Nat := (chunk.length - 1) / host.bufferSize * host.bufferSize

/-- What the loop makes of one reply when the environment has no fault: `none` if the call
    ends there, otherwise whether it goes on with a failed piece that was not reported. -/
def passReply (doomed : Bool) (reply : Reply) : Option Bool :=
  match acceptReply blake codec reply with
  | .error _ => none
  | .ok (header, chunk) =>
      if header.offset.toNat > host.maxFileSize then none
      else if chunk = [] then some doomed
      else if doomed then none
      else if header.offset.toNat + chunk.length ≤ host.maxFileSize then some false
      else if header.offset.toNat + lastPiece host chunk ≤ host.maxFileSize then some true
      else none

def Enters (disk : Disk) : Prop :=
  host.pathExists disk call.digest = false ∧
    ∃ opened, host.openTruncate disk (tempPath call.digest) = .ok opened

/-- A chunk that the loop comes to: the digest is not cached, the temp file opens, no
    earlier reply ends the call, its own reply is accepted at an offset that can be sought,
    and no failed piece is left to be reported, unless the chunk is empty. -/
def Reached (disk : Disk) (chunk : ChunkHeader × Bytes) : Prop :=
  Enters host call disk ∧
    ∃ before reply after doomed, call.replies = .ok (before ++ reply :: after) ∧
      before.foldlM (passReply host blake codec) false = some doomed ∧
      acceptReply blake codec reply = .ok chunk ∧ chunk.1.offset.toNat ≤ host.maxFileSize ∧
      (doomed = true → chunk.2 = [])

variable {host blake codec call}

theorem lastPiece_eq {chunk : Bytes} {start : Nat} (hdvd : host.bufferSize ∣ start)
    (hlt : start < chunk.length) (hle : chunk.length ≤ start + host.bufferSize) :
    lastPiece host chunk = start := by
  obtain ⟨k, rfl⟩ := hdvd
  have hk : (chunk.length - 1) / host.bufferSize = k := by
    rw [Nat.div_eq_iff host.bufferSize_pos]
    rw [Nat.mul_comm]
    constructor
    · omega
    · omega
  rw [lastPiece, hk, Nat.mul_comm]

theorem foldlM_passReply_concat {before : List Reply} {reply : Reply} {doomed : Bool}
    (h : before.foldlM (passReply host blake codec) false = some doomed) :
    (before ++ [reply]).foldlM (passReply host blake codec) false =
      passReply host blake codec doomed reply := by
  rw [List.foldlM_append, h]
  simp

/-- A call that stops at a reply comes to no later one. -/
theorem mem_or_eq_of_stop {before rest before' rest' : List Reply} {reply reply' : Reply}
    {doomed doomed' : Bool} (heq : before ++ reply :: rest = before' ++ reply' :: rest')
    (hpass : before.foldlM (passReply host blake codec) false = some doomed)
    (hstop : passReply host blake codec doomed reply = none)
    (hpass' : before'.foldlM (passReply host blake codec) false = some doomed') :
    reply' ∈ before ∨ before' = before ∧ reply' = reply := by
  rcases List.append_eq_append_iff.mp heq with ⟨mid, hbefore', hrest⟩ | ⟨mid, hbefore, hrest⟩
  · cases mid with
    | nil => exact .inr ⟨by rw [hbefore', List.append_nil], (List.cons.inj hrest).1.symm⟩
    | cons first mid =>
      obtain rfl := (List.cons.inj hrest).1
      rw [hbefore', List.foldlM_append, hpass] at hpass'
      simp [hstop] at hpass'
  · cases mid with
    | nil => exact .inr ⟨by rw [hbefore, List.append_nil], (List.cons.inj hrest).1⟩
    | cons first mid =>
      obtain rfl := (List.cons.inj hrest).1
      exact .inl (by rw [hbefore]; simp)

end Reached

section Follow

variable {host : Host} {blake : Blake3} {codec : HeaderCodec} {call : PullCall}
  {faults : Thread → Pc → Io}

/-! ### The fold and the steps -/

def Quiet (faults : Thread → Pc → Io) : Prop := ∀ thread pc, faults thread pc = .ok

variable (host faults) in
/-- A failed piece is still to be reported if `owed`, and without faults only then. -/
def Owes (owed : Prop) (queued : Option QueuedWrite) (error : Option IoError) : Prop :=
  (owed → Doomed host queued error) ∧ (Quiet faults → Doomed host queued error → owed)

theorem Owes.land {owed : Prop} {q : QueuedWrite} {error : Option IoError} {io : Io}
    (hio : Quiet faults → io = .ok) (h : Owes host faults owed (some q) error) :
    Owes host faults owed none (q.land host io).1 := by
  refine ⟨fun howed => (h.1 howed).land io, fun hquiet hdoomed => h.2 hquiet ?_⟩
  rw [hio hquiet] at hdoomed
  by_contra hfits
  have hroom : q.offset + q.bytes.length ≤ host.maxFileSize := Nat.le_of_not_lt hfits
  simp only [QueuedWrite.land, if_pos hroom, Doomed, Option.isSome_none] at hdoomed
  cases hdoomed

variable (host blake codec call) in
structure Along (written : List (ChunkHeader × Bytes)) (before : List Reply) (doomed : Bool)
    (rest : List Reply) : Prop where
  replies : call.replies = .ok (before ++ rest)
  passed : before.foldlM (passReply host blake codec) false = some doomed
  taken : ∀ reply ∈ before, ∀ chunk, acceptReply blake codec reply = .ok chunk → chunk ∈ written

variable (host) in
structure Handed (header : ChunkHeader) (chunk : Bytes) (sent start : Nat) : Prop where
  grid : host.bufferSize ∣ start
  inside : start < chunk.length
  sent : sent = min (start + host.bufferSize) chunk.length
  fits : header.offset.toNat + start ≤ host.maxFileSize

variable (host blake codec call faults) in
def Followed (start : Disk) (s : Session) : Pc → Prop
  | .createDir | .checkExists =>
      s.disk = start ∧ s.pull.queued = none ∧ s.pull.writeError = none
  | .openTemp =>
      s.disk = start ∧ (s.pull.queued = none ∧ s.pull.writeError = none) ∧
        host.pathExists start call.digest = false
  | .get _ => (s.pull.queued = none ∧ s.pull.writeError = none) ∧ Enters host call start
  | .recv _ _ _ pending =>
      Enters host call start ∧ ∃ before doomed,
        Along host blake codec call s.written before doomed pending ∧
        Owes host faults (doomed = true) s.pull.queued s.pull.writeError
  | .seek _ _ pending header chunk =>
      Enters host call start ∧ ∃ before reply doomed,
        Along host blake codec call s.written before doomed (reply :: pending) ∧
        acceptReply blake codec reply = .ok (header, chunk) ∧
        Owes host faults (doomed = true) s.pull.queued s.pull.writeError
  | .write _ _ pending header chunk 0 =>
      Enters host call start ∧ ∃ before reply doomed,
        Along host blake codec call s.written before doomed (reply :: pending) ∧
        acceptReply blake codec reply = .ok (header, chunk) ∧
        header.offset.toNat ≤ host.maxFileSize ∧
        Owes host faults (doomed = true) s.pull.queued s.pull.writeError
  | .write _ _ pending header chunk (sent + 1) =>
      Enters host call start ∧ ∃ before reply piece,
        Along host blake codec call s.written before false (reply :: pending) ∧
        acceptReply blake codec reply = .ok (header, chunk) ∧
        header.offset.toNat ≤ host.maxFileSize ∧ (header, chunk) ∈ s.written ∧
        Handed host header chunk (sent + 1) piece ∧
        Owes host faults (host.maxFileSize < header.offset.toNat + (sent + 1)) s.pull.queued
          s.pull.writeError
  | _ => Quiet faults → ∀ chunk, Reached host blake codec call start chunk → chunk ∈ s.written

/-- The next piece starts where the last one ended. -/
theorem Handed.piece {header : ChunkHeader} {chunk : Bytes} {sent : Nat}
    (hgrid : host.bufferSize ∣ sent) (hinside : sent < chunk.length)
    (hfits : header.offset.toNat + sent ≤ host.maxFileSize) :
    Handed host header chunk (sent + ((chunk.drop sent).take host.bufferSize).length) sent where
  grid := hgrid
  inside := hinside
  sent := by
    rw [List.length_take, List.length_drop]
    omega
  fits := hfits

/-- All pieces but the last one are as long as the buffer. -/
theorem Handed.dvd_sent {header : ChunkHeader} {chunk : Bytes} {sent start : Nat}
    (h : Handed host header chunk sent start) (hsent : sent < chunk.length) :
    host.bufferSize ∣ sent := by
  have hnext : sent = start + host.bufferSize := by
    have := h.sent
    omega
  rw [hnext]
  exact Nat.dvd_add h.grid (Nat.dvd_refl _)

theorem Along.mono {written more : List (ChunkHeader × Bytes)} {before rest : List Reply}
    {doomed : Bool} (h : Along host blake codec call written before doomed rest) :
    Along host blake codec call (written ++ more) before doomed rest where
  replies := h.replies
  passed := h.passed
  taken reply hmem chunk haccept := List.mem_append_left _ (h.taken reply hmem chunk haccept)

theorem Along.next {written : List (ChunkHeader × Bytes)} {before rest : List Reply} {reply : Reply}
    {doomed doomed' : Bool} {chunk : ChunkHeader × Bytes}
    (h : Along host blake codec call written before doomed (reply :: rest))
    (haccept : acceptReply blake codec reply = .ok chunk) (hmem : chunk ∈ written)
    (hpass : passReply host blake codec doomed reply = some doomed') :
    Along host blake codec call written (before ++ [reply]) doomed' rest where
  replies := by rw [h.replies, List.append_assoc]; rfl
  passed := by rw [foldlM_passReply_concat h.passed, hpass]
  taken := by
    intro other hother chunk' haccept'
    rcases List.mem_append.mp hother with hother | hother
    · exact h.taken other hother chunk' haccept'
    · rw [List.mem_singleton.mp hother] at haccept'
      rw [← Except.ok.inj (haccept.symm.trans haccept')]
      exact hmem

/-- At the end of the replies every chunk the loop comes to has been taken. -/
theorem Along.mem_of_reached {written : List (ChunkHeader × Bytes)} {before : List Reply}
    {doomed : Bool} {start : Disk} (h : Along host blake codec call written before doomed [])
    {chunk : ChunkHeader × Bytes} (hreached : Reached host blake codec call start chunk) :
    chunk ∈ written := by
  obtain ⟨-, before', reply, after, doomed', hreplies, -, haccept, -⟩ := hreached
  refine h.taken reply ?_ chunk haccept
  have hall := Except.ok.inj (h.replies.symm.trans hreplies)
  rw [List.append_nil] at hall
  rw [hall]
  simp

/-- Where the call stops, every chunk the loop comes to has been taken, if the chunk at
    hand has been unless the loop does not come to it. -/
theorem Along.mem_of_stop {written : List (ChunkHeader × Bytes)} {before rest : List Reply}
    {reply : Reply} {doomed : Bool} {start : Disk}
    (h : Along host blake codec call written before doomed (reply :: rest))
    (hstop : passReply host blake codec doomed reply = none)
    (hhand : ∀ chunk, acceptReply blake codec reply = .ok chunk →
      chunk.1.offset.toNat ≤ host.maxFileSize → (doomed = true → chunk.2 = []) → chunk ∈ written)
    {chunk : ChunkHeader × Bytes} (hreached : Reached host blake codec call start chunk) :
    chunk ∈ written := by
  obtain ⟨-, before', reply', after, doomed', hreplies, hpass', haccept, hoffset, hempty⟩ := hreached
  have hall := Except.ok.inj (h.replies.symm.trans hreplies)
  rcases mem_or_eq_of_stop hall h.passed hstop hpass' with hmem | ⟨rfl, rfl⟩
  · exact h.taken reply' hmem chunk haccept
  · rw [h.passed, Option.some.injEq] at hpass'
    subst hpass'
    exact hhand chunk haccept hoffset hempty

/-! ### What one reply makes of the fold -/

section PassReply

variable {reply : Reply} {header : ChunkHeader} {chunk : Bytes} {doomed : Bool}

theorem passReply_of_refused {error : TransferError}
    (h : acceptReply blake codec reply = .error error) :
    passReply host blake codec doomed reply = none := by
  simp only [passReply, h]

theorem passReply_of_unsought (h : acceptReply blake codec reply = .ok (header, chunk))
    (hoffset : header.offset.toNat > host.maxFileSize) :
    passReply host blake codec doomed reply = none := by
  simp only [passReply, h, if_pos hoffset]

theorem passReply_of_empty (h : acceptReply blake codec reply = .ok (header, []))
    (hoffset : header.offset.toNat ≤ host.maxFileSize) :
    passReply host blake codec doomed reply = some doomed := by
  simp only [passReply, h, if_neg (Nat.not_lt.mpr hoffset), if_true]

theorem passReply_of_doomed (h : acceptReply blake codec reply = .ok (header, chunk))
    (hne : chunk ≠ []) : passReply host blake codec true reply = none := by
  simp only [passReply, h, if_neg hne, if_true, ite_self]

/-- A chunk whose last piece is handed over passes, and fails later if it does not fit. -/
theorem passReply_of_handed {start : Nat} (h : acceptReply blake codec reply = .ok (header, chunk))
    (hhanded : Handed host header chunk chunk.length start) :
    passReply host blake codec false reply =
      some (decide (host.maxFileSize < header.offset.toNat + chunk.length)) := by
  have hoffset : ¬ header.offset.toNat > host.maxFileSize := by
    have := hhanded.fits
    omega
  have hne : chunk ≠ [] := List.ne_nil_of_length_pos (Nat.lt_of_le_of_lt (Nat.zero_le _) hhanded.inside)
  have hlast : lastPiece host chunk = start := by
    refine lastPiece_eq hhanded.grid hhanded.inside ?_
    have := hhanded.sent
    omega
  simp only [passReply, h, if_neg hoffset, if_neg hne, Bool.false_eq_true, if_false, hlast,
    if_pos hhanded.fits]
  by_cases hfits : header.offset.toNat + chunk.length ≤ host.maxFileSize
  · rw [if_pos hfits, decide_eq_false (Nat.not_lt.mpr hfits)]
  · rw [if_neg hfits, decide_eq_true (Nat.lt_of_not_le hfits)]

/-- A piece in the middle that does not fit ends the call. -/
theorem passReply_of_midway {start sent : Nat}
    (h : acceptReply blake codec reply = .ok (header, chunk))
    (hhanded : Handed host header chunk sent start) (hsent : sent < chunk.length)
    (hover : host.maxFileSize < header.offset.toNat + sent) :
    passReply host blake codec false reply = none := by
  have hoffset : ¬ header.offset.toNat > host.maxFileSize := by
    have := hhanded.fits
    omega
  have hne : chunk ≠ [] := List.ne_nil_of_length_pos (Nat.lt_of_le_of_lt (Nat.zero_le _) hsent)
  have hlast : sent ≤ lastPiece host chunk := by
    obtain ⟨k, rfl⟩ := hhanded.dvd_sent hsent
    rw [lastPiece, Nat.mul_comm]
    refine Nat.mul_le_mul_right _ ((Nat.le_div_iff_mul_le host.bufferSize_pos).mpr ?_)
    rw [Nat.mul_comm]
    omega
  simp only [passReply, h, if_neg hoffset, if_neg hne, Bool.false_eq_true, if_false]
  rw [if_neg (by omega), if_neg (by omega)]

end PassReply

/-! ### One step -/

section Step

variable {start : Disk} {s : Session}

theorem Followed.land {pc : Pc} {q : QueuedWrite} {io : Io} {temp : Option Nat}
    {written : List (ChunkHeader × Bytes)} (hio : Quiet faults → io = .ok)
    (h : Followed host blake codec call faults start s pc) (hqueued : s.pull.queued = some q) :
    Followed host blake codec call faults start
      ⟨s.disk.apply 0 (q.land host io).2,
        { s.pull with queued := none, writeError := (q.land host io).1 }, temp,
        s.written ++ written⟩ pc := by
  obtain ⟨disk, ⟨pc', queued, error⟩, temp', taken⟩ := s
  obtain rfl : queued = some q := hqueued
  cases pc with
  | createDir => cases h.2.1
  | checkExists => cases h.2.1
  | openTemp => cases h.2.1.1
  | get handle => cases h.1.1
  | recv handle gotAny gotLast pending =>
    obtain ⟨henters, before, doomed, halong, howes⟩ := h
    exact ⟨henters, before, doomed, halong.mono, howes.land hio⟩
  | seek handle gotLast pending header chunk =>
    obtain ⟨henters, before, reply, doomed, halong, haccept, howes⟩ := h
    exact ⟨henters, before, reply, doomed, halong.mono, haccept, howes.land hio⟩
  | write handle gotLast pending header chunk sent =>
    cases sent with
    | zero =>
      obtain ⟨henters, before, reply, doomed, halong, haccept, hoffset, howes⟩ := h
      exact ⟨henters, before, reply, doomed, halong.mono, haccept, hoffset, howes.land hio⟩
    | succ sent =>
      obtain ⟨henters, before, reply, piece, halong, haccept, hoffset, hmem, hhanded, howes⟩ := h
      exact ⟨henters, before, reply, piece, halong.mono, haccept, hoffset,
        List.mem_append_left _ hmem, hhanded, howes.land hio⟩
  | _ => exact fun hquiet chunk hreached => List.mem_append_left _ (h hquiet chunk hreached)

/-- The next piece of the chunk at hand is handed over, and with the first one the chunk is
    taken. -/
theorem Followed.hand {handle : Nat} {gotLast : Bool} {pending : List Reply} {header : ChunkHeader}
    {chunk : Bytes} {sent : Nat} {disk : Disk} {temp : Option Nat}
    (h : Followed host blake codec call faults start s (.write handle gotLast pending header chunk sent))
    (hsent : sent < chunk.length) (hqueued : s.pull.queued = none)
    (herror : s.pull.writeError = none) :
    let piece := (chunk.drop sent).take host.bufferSize
    let pc := Pc.write handle gotLast pending header chunk (sent + piece.length)
    Followed host blake codec call faults start
      ⟨disk, ⟨pc, some ⟨handle, header.offset.toNat + sent, piece⟩, none⟩, temp,
        s.written ++ (Pc.write handle gotLast pending header chunk sent).takes pc⟩ pc := by
  intro piece pc
  have hsound : ¬ Doomed host s.pull.queued s.pull.writeError := by
    rw [hqueued, herror]
    exact fun hdoomed => hdoomed.error rfl
  have hpiece : 0 < piece.length := by
    rw [List.length_take, List.length_drop]
    exact Nat.lt_min.mpr ⟨host.bufferSize_pos, Nat.sub_pos_of_lt hsent⟩
  obtain ⟨len, hlen⟩ : ∃ len, sent + piece.length = len + 1 :=
    Nat.exists_eq_succ_of_ne_zero (by omega)
  have howes : Owes host faults (host.maxFileSize < header.offset.toNat + (len + 1))
      (some ⟨handle, header.offset.toNat + sent, piece⟩) none := by
    rw [← hlen, ← Nat.add_assoc]
    exact ⟨id, fun _ => id⟩
  cases sent with
  | zero =>
    obtain ⟨henters, before, reply, doomed, halong, haccept, hoffset, howed⟩ := h
    obtain rfl : doomed = false := by
      rw [← Bool.not_eq_true]
      exact fun htrue => hsound (howed.1 htrue)
    have hhanded : Handed host header chunk (0 + piece.length) 0 :=
      .piece (Nat.dvd_zero _) hsent hoffset
    simp only [pc]
    rw [hlen] at hhanded ⊢
    exact ⟨henters, before, reply, 0, halong.mono, haccept, hoffset,
      List.mem_append_right _ (List.mem_singleton.mpr rfl), hhanded, howes⟩
  | succ sent =>
    obtain ⟨henters, before, reply, last, halong, haccept, hoffset, hmem, hhanded, howed⟩ := h
    have hnext : Handed host header chunk (sent + 1 + piece.length) (sent + 1) :=
      .piece (hhanded.dvd_sent hsent) hsent (Nat.le_of_not_lt fun hover => hsound (howed.1 hover))
    simp only [pc]
    rw [hlen] at hnext ⊢
    exact ⟨henters, before, reply, sent + 1, halong.mono, haccept, hoffset,
      List.mem_append_left _ hmem, hnext, howes⟩

/-- A chunk all of whose pieces are handed over is behind the loop. -/
theorem Followed.wrote {handle : Nat} {gotLast : Bool} {pending : List Reply} {header : ChunkHeader}
    {chunk : Bytes} {sent : Nat} {disk : Disk} {temp : Option Nat}
    (h : Followed host blake codec call faults start s (.write handle gotLast pending header chunk sent))
    (hsent : chunk.length ≤ sent) :
    let pc := Pc.recv handle true (gotLast || header.last) pending
    Followed host blake codec call faults start
      ⟨disk, s.pull.to pc, temp,
        s.written ++ (Pc.write handle gotLast pending header chunk sent).takes pc⟩ pc := by
  intro pc
  cases sent with
  | zero =>
    obtain ⟨henters, before, reply, doomed, halong, haccept, hoffset, howes⟩ := h
    obtain rfl : chunk = [] := List.length_eq_zero_iff.mp (Nat.le_zero.mp hsent)
    exact ⟨henters, before ++ [reply], doomed,
      halong.mono.next haccept (List.mem_append_right _ (List.mem_singleton.mpr rfl))
        (passReply_of_empty haccept hoffset), howes⟩
  | succ sent =>
    obtain ⟨henters, before, reply, piece, halong, haccept, hoffset, hmem, hhanded, howes⟩ := h
    have hall : sent + 1 = chunk.length := by
      have := hhanded.sent
      omega
    rw [hall] at hhanded howes
    refine ⟨henters, before ++ [reply], _,
      halong.mono.next haccept (List.mem_append_left _ hmem) (passReply_of_handed haccept hhanded),
      ?_⟩
    rw [decide_eq_true_eq]
    exact howes

/-- A write that reports a failed piece ends the call where the fold stops. -/
theorem Followed.unwritten {handle : Nat} {gotLast : Bool} {pending : List Reply}
    {header : ChunkHeader} {chunk : Bytes} {sent : Nat} {error : IoError}
    (h : Followed host blake codec call faults start s (.write handle gotLast pending header chunk sent))
    (hsent : sent < chunk.length) (hqueued : s.pull.queued = none)
    (herror : s.pull.writeError = some error) (hquiet : Quiet faults) {other : ChunkHeader × Bytes}
    (hreached : Reached host blake codec call start other) : other ∈ s.written := by
  have hdoomed : Doomed host s.pull.queued s.pull.writeError := by
    rw [hqueued, herror]
    rfl
  cases sent with
  | zero =>
    -- an earlier chunk has failed
    obtain ⟨-, before, reply, doomed, halong, haccept, hoffset, howes⟩ := h
    obtain rfl := howes.2 hquiet hdoomed
    have hne : chunk ≠ [] := List.ne_nil_of_length_pos hsent
    refine halong.mem_of_stop (passReply_of_doomed haccept hne) ?_ hreached
    intro chunk' haccept' _ hempty
    cases haccept.symm.trans haccept'
    exact absurd (hempty rfl) hne
  | succ sent =>
    -- a piece of this chunk has failed
    obtain ⟨-, before, reply, piece, halong, haccept, hoffset, hmem, hhanded, howes⟩ := h
    refine halong.mem_of_stop
      (passReply_of_midway haccept hhanded hsent (howes.2 hquiet hdoomed)) ?_ hreached
    intro chunk' haccept' _ _
    cases haccept.symm.trans haccept'
    exact hmem

/-- **One step of a call** under any faults. -/
theorem Followed.step {thread : Thread} {pull : Pull} {op : DiskOp} {temp : Option Nat}
    (h : Followed host blake codec call faults start s s.pull.pc)
    (hbranch : PullBranch host blake codec call (faults thread s.pull.pc) s.disk s.pull thread
      pull op) :
    Followed host blake codec call faults start
      ⟨s.disk.apply 0 op, pull, temp, s.written ++ s.pull.pc.takes pull.pc⟩ pull.pc := by
  have hkeep : ∀ {more : List (ChunkHeader × Bytes)},
      (Quiet faults → ∀ chunk, Reached host blake codec call start chunk → chunk ∈ s.written) →
      Quiet faults → ∀ chunk, Reached host blake codec call start chunk → chunk ∈ s.written ++ more :=
    fun hall hquiet chunk hreached => List.mem_append_left _ (hall hquiet chunk hreached)
  cases hbranch with
  | faulted error written hio =>
    intro hquiet
    rw [hquiet] at hio
    cases hio
  | dirReady hpc => rw [hpc] at h; exact h
  | cached hpc hexists =>
    rw [hpc] at h
    obtain ⟨rfl, -⟩ := h
    refine fun _ chunk hreached => ?_
    rw [hreached.1.1] at hexists
    cases hexists
  | missing hpc hexists =>
    rw [hpc] at h
    obtain ⟨rfl, hidle⟩ := h
    exact ⟨rfl, hidle, hexists⟩
  | unopened hpc hopen =>
    rw [hpc] at h
    obtain ⟨rfl, -⟩ := h
    refine fun _ chunk hreached => ?_
    obtain ⟨-, opened, hopened⟩ := hreached.1
    cases hopen.symm.trans hopened
  | opened hpc hopen =>
    rw [hpc] at h
    obtain ⟨rfl, hidle, hfresh⟩ := h
    exact ⟨hidle, hfresh, _, hopen⟩
  | unsent error hpc hunsent =>
    refine fun _ chunk hreached => ?_
    obtain ⟨-, before, reply, after, doomed, hreplies, -⟩ := hreached
    cases hunsent.symm.trans hreplies
  | sent hpc hreplies =>
    rw [hpc] at h
    obtain ⟨⟨hqueued, herror⟩, henters⟩ := h
    refine ⟨henters, [], false, ⟨hreplies, rfl, by simp⟩, by simp, fun _ hdoomed => ?_⟩
    simp only [Pull.to_queued, Pull.to_writeError, hqueued, herror] at hdoomed
    exact absurd rfl hdoomed.error
  | incomplete error hpc =>
    rw [hpc] at h
    obtain ⟨-, before, doomed, halong, -⟩ := h
    exact hkeep fun _ chunk hreached => halong.mem_of_reached hreached
  | complete hpc =>
    rw [hpc] at h
    obtain ⟨-, before, doomed, halong, -⟩ := h
    exact hkeep fun _ chunk hreached => halong.mem_of_reached hreached
  | refused hpc hrefused =>
    rw [hpc] at h
    obtain ⟨-, before, doomed, halong, -⟩ := h
    refine hkeep fun _ chunk hreached => halong.mem_of_stop (passReply_of_refused hrefused) ?_ hreached
    intro chunk haccept
    cases hrefused.symm.trans haccept
  | accepted hpc haccept =>
    rw [hpc] at h
    obtain ⟨henters, before, doomed, halong, howes⟩ := h
    exact ⟨henters, before, _, doomed, halong.mono, haccept, howes⟩
  | unsought hpc hqueued hoffset =>
    rw [hpc] at h
    obtain ⟨-, before, reply, doomed, halong, haccept, -⟩ := h
    refine hkeep fun _ chunk hreached =>
      halong.mem_of_stop (passReply_of_unsought haccept hoffset) ?_ hreached
    intro chunk haccept' hoffset'
    cases haccept.symm.trans haccept'
    exact absurd hoffset' (Nat.not_le.mpr hoffset)
  | sought hpc hqueued hoffset =>
    rw [hpc] at h
    obtain ⟨henters, before, reply, doomed, halong, haccept, howes⟩ := h
    exact ⟨henters, before, reply, doomed, halong.mono, haccept, hoffset, howes⟩
  | unwritten hpc hsent hqueued herror =>
    rw [hpc] at h
    exact hkeep fun hquiet chunk hreached => h.unwritten hsent hqueued herror hquiet hreached
  | handed hpc hsent hqueued herror =>
    rw [hpc] at h ⊢
    exact h.hand hsent hqueued herror
  | wrote hpc hsent =>
    rw [hpc] at h ⊢
    exact h.wrote hsent
  | removed hpc => rw [hpc] at h; exact hkeep h
  | unremoved hpc => rw [hpc] at h; exact hkeep h
  | unflushed hpc => rw [hpc] at h; exact hkeep h
  | flushed hpc => rw [hpc] at h; exact hkeep h
  | unread hpc => rw [hpc] at h; exact hkeep h
  | mismatched error hpc => rw [hpc] at h; exact hkeep h
  | verified hpc => rw [hpc] at h; exact hkeep h
  | unrenamed hpc => rw [hpc] at h; exact hkeep h
  | renamed hpc => rw [hpc] at h; exact hkeep h
  | landed hqueued => exact h.land (fun hquiet => hquiet _ _) hqueued

/-- A step takes at most the chunk at hand, which the loop came to. -/
theorem Followed.reached {thread : Thread} {pull : Pull} {op : DiskOp} {chunk : ChunkHeader × Bytes}
    (h : Followed host blake codec call faults start s s.pull.pc)
    (hbranch : PullBranch host blake codec call (faults thread s.pull.pc) s.disk s.pull thread
      pull op)
    (hmem : chunk ∈ s.pull.pc.takes pull.pc) : Reached host blake codec call start chunk := by
  obtain ⟨⟨handle, gotLast, pending, hpc⟩, hidle⟩ := hbranch.takes hmem
  rw [hpc] at h
  obtain ⟨henters, before, reply, doomed, halong, haccept, hoffset, howes⟩ := h
  refine ⟨henters, before, reply, pending, doomed, halong.replies, halong.passed, haccept, hoffset,
    fun hdoomed => ?_⟩
  by_contra hne
  obtain ⟨hqueued, herror⟩ := hidle hne
  have howed := howes.1 hdoomed
  rw [hqueued] at howed
  exact howed.error herror

end Step

/-! ### Whole calls -/

theorem Session.run_followed (disk : Disk) (n : Nat) :
    Followed host blake codec call faults disk (Session.run host blake codec call faults disk n)
      (Session.run host blake codec call faults disk n).pull.pc := by
  refine Session.run_invariant (fun s => Followed host blake codec call faults disk s s.pull.pc)
    ⟨rfl, rfl, rfl⟩ ?_ n
  intro n s thread pull op _ h hbranch
  exact h.step hbranch

/-- **Every chunk a call writes is one the loop came to.** -/
theorem Session.run_reached (disk : Disk) (n : Nat) :
    ∀ chunk ∈ (Session.run host blake codec call faults disk n).written,
      Reached host blake codec call disk chunk := by
  refine Session.run_invariant
    (fun s => ∀ chunk ∈ s.written, Reached host blake codec call disk chunk)
    (fun chunk hmem => by cases hmem) ?_ n
  rintro n s thread pull op rfl hwritten hbranch chunk hmem
  rcases List.mem_append.mp hmem with hmem | hmem
  · exact hwritten chunk hmem
  · exact (Session.run_followed disk n).reached hbranch hmem

/-- **Every chunk the loop comes to is written**, if the environment has no fault. -/
theorem Session.mem_written_of_reached {disk : Disk} {chunk : ChunkHeader × Bytes}
    (h : Reached host blake codec call disk chunk) :
    chunk ∈ (Session.returned host blake codec call (fun _ _ => .ok) disk).written := by
  obtain ⟨result, hdone⟩ := @Session.returned_done host blake codec call (fun _ _ => .ok) disk
  have hfollowed := @Session.run_followed host blake codec call (fun _ _ => .ok) disk
    (Pull.remaining call .start)
  rw [Session.returned] at hdone ⊢
  rw [hdone] at hfollowed
  exact hfollowed (fun _ _ => rfl) chunk h

/-! ### The length of the temp file -/

/-- The open temp file is the one recorded, a piece in flight will land in it, and it ends
    where its chunks end, before and after that. -/
structure Session.Bounded (s : Session) : Prop where
  handle : ∀ i, s.pull.pc.handle = some i → s.temp = some i
  length : ∀ i, s.temp = some i → (s.disk.data i).length ≤ gridEnd s.written
  piece : ∀ q, s.pull.queued = some q → s.temp = some q.handle ∧
    q.offset + q.bytes.length ≤ gridEnd s.written

theorem Pc.opened_or {pc : Pc} {temp : Option Nat} (h : ∀ i, pc.handle = some i → temp = some i) :
    pc.opened.or temp = temp := by
  cases pc with
  | get handle => exact (h handle rfl).symm
  | _ => rfl

/-- A step that changes no contents and puts nothing in flight. -/
theorem Session.Bounded.keep {s : Session} (h : s.Bounded) {disk : Disk} {pc : Pc}
    (hdata : disk.data = s.disk.data) (hpc : ∀ i, pc.handle = some i → s.temp = some i)
    (more : List (ChunkHeader × Bytes)) :
    Session.Bounded ⟨disk, s.pull.to pc, pc.opened.or s.temp, s.written ++ more⟩ := by
  rw [Pc.opened_or hpc]
  refine ⟨hpc, fun i hi => ?_, fun q hq => ?_⟩
  · simp only [hdata]
    exact (h.length i hi).trans (gridEnd_le_append _ _)
  · exact ⟨(h.piece q hq).1, (h.piece q hq).2.trans (gridEnd_le_append _ _)⟩

theorem Session.Bounded.opened {disk : Disk} {i : Nat} {pull : Pull} {temp : Option Nat}
    (hempty : disk.data i = []) (hqueued : pull.queued = none)
    (written : List (ChunkHeader × Bytes)) :
    Session.Bounded ⟨disk, pull.to (.get i), (Pc.get i).opened.or temp, written⟩ where
  handle _ h := h
  length j h := by
    cases h
    simp only [hempty, List.length_nil]
    exact Nat.zero_le _
  piece q hq := by
    rw [Pull.to_queued, hqueued] at hq
    cases hq

theorem Session.Bounded.land {s : Session} (h : s.Bounded) {q : QueuedWrite}
    (hqueued : s.pull.queued = some q) {stored : Bytes} (hstored : stored <+: q.bytes)
    (error : Option IoError) (more : List (ChunkHeader × Bytes)) :
    Session.Bounded ⟨s.disk.apply 0 (.write q.handle q.offset stored),
      { s.pull with queued := none, writeError := error }, s.pull.pc.opened.or s.temp,
      s.written ++ more⟩ := by
  rw [Pc.opened_or h.handle]
  refine ⟨h.handle, fun i hi => ?_, fun q' hq' => by cases hq'⟩
  obtain ⟨htemp, hend⟩ := h.piece q hqueued
  obtain rfl : q.handle = i := Option.some.inj (htemp.symm.trans hi)
  simp only [Store.apply, Store.setData, Function.update_self]
  calc (writeAt 0 (s.disk.data q.handle) q.offset stored).length
      ≤ max (s.disk.data q.handle).length (q.offset + stored.length) := length_writeAt_le _ _ _ _
    _ ≤ gridEnd s.written :=
        Nat.max_le.mpr ⟨h.length _ hi, (Nat.add_le_add_left hstored.length_le _).trans hend⟩
    _ ≤ gridEnd (s.written ++ more) := gridEnd_le_append _ _

/-- A step hands over a piece of a chunk that was taken. -/
theorem Session.Bounded.hand {s : Session} (h : s.Bounded) {pc : Pc} {q : QueuedWrite}
    {more : List (ChunkHeader × Bytes)} (htemp : s.temp = some q.handle)
    (hpc : pc.handle = some q.handle) (hend : q.offset + q.bytes.length ≤ gridEnd (s.written ++ more)) :
    Session.Bounded ⟨s.disk, ⟨pc, some q, none⟩, pc.opened.or s.temp, s.written ++ more⟩ := by
  have hhandle : ∀ i, pc.handle = some i → s.temp = some i := by
    intro i hi
    rw [htemp, ← hpc, hi]
  rw [Pc.opened_or hhandle]
  refine ⟨hhandle, fun i hi => (h.length i hi).trans (gridEnd_le_append _ _), ?_⟩
  rintro q' ⟨⟩
  exact ⟨htemp, hend⟩

theorem Session.Bounded.step {start : Disk} {s : Session} {thread : Thread} {pull : Pull}
    {op : DiskOp} (h : s.Bounded)
    (hfollowed : Followed host blake codec call faults start s s.pull.pc)
    (hcontract : ∀ chunk ∈ s.written ++ s.pull.pc.takes pull.pc, Contract chunk)
    (hbranch : PullBranch host blake codec call (faults thread s.pull.pc) s.disk s.pull thread
      pull op) :
    Session.Bounded ⟨s.disk.apply 0 op, pull, pull.pc.opened.or s.temp,
      s.written ++ s.pull.pc.takes pull.pc⟩ := by
  have hheld : ∀ {handle : Nat}, s.pull.pc.handle = some handle → ∀ {pc : Pc},
      pc.handle = some handle → ∀ i, pc.handle = some i → s.temp = some i := by
    intro handle hs pc hpc i hi
    rw [hpc] at hi
    rw [← hi]
    exact h.handle handle hs
  cases hbranch with
  | opened hpc hopen =>
    rw [hpc] at hfollowed
    obtain ⟨-, ⟨hqueued, -⟩, -⟩ := hfollowed
    obtain ⟨loc, hloc, ⟨hentry, rfl⟩ | ⟨hentry, rfl, rfl⟩⟩ := openTruncate_cases hopen
    · exact .opened (by simp only [Store.apply, Store.setData, Function.update_self]) hqueued _
    · exact .opened (by simp only [Store.apply, Store.create, Function.update_self]) hqueued _
  | sent hpc | complete hpc | accepted hpc | sought hpc | wrote hpc =>
    exact h.keep rfl (hheld (by rw [hpc, Pc.handle]) rfl) _
  | @handed handle gotLast pending header chunk sent hpc hsent hqueued herror =>
    have htemp : s.temp = some handle := h.handle handle (by rw [hpc, Pc.handle])
    have hpiece : ((chunk.drop sent).take host.bufferSize).length =
        min host.bufferSize (chunk.length - sent) := by
      rw [List.length_take, List.length_drop]
    have hbuffer := host.bufferSize_pos
    -- the chunk has been taken, now or with its first piece
    have hmem : (header, chunk) ∈ s.written ++ s.pull.pc.takes (.write handle gotLast pending header
        chunk (sent + ((chunk.drop sent).take host.bufferSize).length)) := by
      rw [hpc] at hfollowed ⊢
      cases sent with
      | zero =>
        obtain ⟨len, hlen⟩ : ∃ len, 0 + ((chunk.drop 0).take host.bufferSize).length = len + 1 :=
          Nat.exists_eq_succ_of_ne_zero (by omega)
        rw [hlen]
        exact List.mem_append_right _ (List.mem_singleton.mpr rfl)
      | succ sent =>
        obtain ⟨-, -, -, -, -, -, -, hmem, -⟩ := hfollowed
        exact List.mem_append_left _ hmem
    refine h.hand htemp rfl ?_
    have hcell := (hcontract _ hmem).le_cellEnd.trans (cellEnd_le_gridEnd hmem)
    simp only at hcell ⊢
    omega
  | removed hpc hio hremove =>
    obtain ⟨loc, hloc, rfl⟩ := removeFile_cases hremove
    refine h.keep ?_ ?_ _
    · rfl
    · intro i hi
      cases hi
  | renamed hpc hrename =>
    obtain ⟨-, src, dst, i, -, -, -, rfl⟩ := renameFile_cases hrename
    refine h.keep ?_ ?_ _
    · rfl
    · intro i hi
      cases hi
  | @landed q hqueued =>
    obtain ⟨error, stored, hland, hstored⟩ := q.land_cases host (faults .pool s.pull.pc)
    rw [hland]
    exact h.land hqueued hstored error _
  | _ =>
    refine h.keep rfl ?_ _
    intro i hi
    cases hi

/-- While the chunks the loop comes to keep the contract, the temp file ends in the
    highest cell among those written. -/
theorem Session.run_bounded {disk : Disk}
    (hcontract : ∀ chunk, Reached host blake codec call disk chunk → Contract chunk) (n : Nat) :
    (Session.run host blake codec call faults disk n).Bounded := by
  have hstart : (Session.start disk).Bounded :=
    ⟨fun i hi => (by cases hi), fun i hi => (by cases hi), fun q hq => (by cases hq)⟩
  refine Session.run_invariant Session.Bounded hstart ?_ n
  rintro n s thread pull op rfl hbounded hbranch
  refine hbounded.step (Session.run_followed disk n) ?_ hbranch
  intro chunk hmem
  rcases List.mem_append.mp hmem with hmem | hmem
  · exact hcontract chunk (Session.run_reached disk n chunk hmem)
  · exact hcontract chunk ((Session.run_followed disk n).reached hbranch hmem)

variable (host blake codec call) in
/-- **When the receiver keeps the chunk header contract.**  Every chunk that a call writes,
    under any faults of the environment, keeps what `ChunkHeader` documents iff every
    accepted reply that the loop comes to already does: the only check is that of the hash.
    The temp file then never ends after the highest grid cell received. -/
theorem written_contract_iff (disk : Disk) :
    ((∀ faults n, ∀ chunk ∈ (Session.run host blake codec call faults disk n).written,
        Contract chunk) ↔
      ∀ chunk, Reached host blake codec call disk chunk → Contract chunk) ∧
    ((∀ chunk, Reached host blake codec call disk chunk → Contract chunk) →
      ∀ faults n i, (Session.run host blake codec call faults disk n).temp = some i →
        ((Session.run host blake codec call faults disk n).disk.data i).length ≤
          gridEnd (Session.run host blake codec call faults disk n).written) := by
  refine ⟨⟨?_, ?_⟩, ?_⟩
  · intro hwritten chunk hreached
    exact hwritten _ _ chunk (Session.mem_written_of_reached hreached)
  · intro hreached faults n chunk hmem
    exact hreached chunk (Session.run_reached disk n chunk hmem)
  · intro hreached faults n
    exact (Session.run_bounded hreached n).length

/-- The honest reply for a one-byte file keeps the contract in every run. -/
theorem written_contract_honest :
    ∀ faults n, ∀ chunk ∈ (Session.run Sample.host Sample.blake3 Sample.codec
      (Sample.call Sample.digest [Sample.reply 0 [0x61] true]) faults Sample.disk n).written,
        Contract chunk := by
  refine (written_contract_iff Sample.host Sample.blake3 Sample.codec
    (Sample.call Sample.digest [Sample.reply 0 [0x61] true]) Sample.disk).1.mpr ?_
  rintro chunk ⟨-, before, reply, after, doomed, hreplies, -, haccept, -⟩
  have hreply : reply = Sample.reply 0 [0x61] true := by
    have hmem : reply ∈ [Sample.reply 0 [0x61] true] := by
      rw [Except.ok.inj hreplies]
      simp
    exact List.mem_singleton.mp hmem
  have hchunk : acceptReply Sample.blake3 Sample.codec (Sample.reply 0 [0x61] true) =
      .ok (Sample.header 0 [0x61] true, [0x61]) := by
    decide +kernel
  rw [hreply, hchunk] at haccept
  rw [← Except.ok.inj haccept]
  decide +kernel

/-- One byte at offset 1, marked final: the chunk is off the grid and is written, and the
    temp file has the gap before it. -/
theorem off_grid_chunk_is_written :
    (Session.run Sample.host Sample.blake3 Sample.codec
      (Sample.call Sample.digest [Sample.reply 1 [0x61] true]) (fun _ _ => .ok) Sample.disk
        8).written = [(Sample.header 1 [0x61] true, [0x61])] ∧
    ¬ Contract (Sample.header 1 [0x61] true, [0x61]) ∧
    Sample.host.readFile (Session.run Sample.host Sample.blake3 Sample.codec
      (Sample.call Sample.digest [Sample.reply 1 [0x61] true]) (fun _ _ => .ok) Sample.disk 8).disk
        (tempPath Sample.digest) = some [0, 0x61] := by
  refine ⟨?_, ?_, ?_⟩
  all_goals decide +kernel

end Follow

end FurcateMesh.Transfer
