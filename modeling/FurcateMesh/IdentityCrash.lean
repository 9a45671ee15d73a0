import FurcateMesh.Identity

/-!
# Saving an identity, seen from every intermediate state

A call of `save` or `load_or_generate` may fail at any of its operations, and the
process may die between any two of them, so each state of a call is a state that can
be left behind.

`std::fs::write` truncates the file, writes it in pieces, and only then is its mode
set.  While bytes of the key are missing, the directory has lost the old identity and
later calls fail (`save_recovers_iff`); and from the first byte to the change of mode
the file has the mode it was opened with (`key_hidden_iff`).

For the first theorem a call is run alone from the steps of `Identity` (`runCall`), and
`Saving` says what the disk holds at each of its points: what was there before, up to the
opening; a prefix of the new text, while it is written; the whole text, from then on.  Since
no proper prefix of a key decodes, the middle part is exactly the states in which later calls
fail.

For the second one the modes matter, and the right to open the file.  `stepUnder` is the step
of a process with a umask and rights of its own; with the usual ones it is `step`
(`stepUnder_usual`).  A new file gets the bits of 0o666 that the umask leaves, an existing one
keeps its mode, and a file that may not be opened stops the call.  A `Trace` adds whether a
byte of the key has been written, so that a file which only has the old contents is not
counted.
-/

namespace FurcateMesh.Identity

open SparseFile

variable {SigningKey : Type}

/-! ### Crashes -/

section Crash

variable (lib : Pkcs8 SigningKey) (path : String)

/-- The steps of one call on its own, one for each size. -/
def runCall (fresh : SigningKey) (sizes : List Nat) (s : Disk × Pc SigningKey) :
    Disk × Pc SigningKey :=
  sizes.foldl (fun s size => step lib path fresh size s.1 s.2) s

def Disk.Sound (disk : Disk) : Prop := disk.file = none ∨ ∃ old, load lib path disk = .ok old

/-- Every later `load_or_generate` on the disk succeeds, and gives the identity that was
    stored before, if there was one, or the new one. -/
def Recovers (before crashed : Disk) (new : SigningKey) : Prop :=
  ∀ fresh sizes, pemLength lib fresh + 8 ≤ sizes.length →
    ∃ key, (runCall lib path fresh sizes (crashed, .checkExists)).2 = .done (.ok key) ∧
      ∀ old, load lib path before = .ok old → key = old ∨ key = new

variable {lib path}

theorem runCall_left (fresh : SigningKey) (sizes : List Nat) (s : Disk × Pc SigningKey) :
    (runCall lib path fresh sizes s).2.left lib fresh ≤ s.2.left lib fresh - sizes.length := by
  induction sizes generalizing s with
  | nil => exact Nat.le_refl _
  | cons size sizes ih =>
    have hstep := @left_step _ lib path fresh size s.1 s.2
    have hrest := ih (step lib path fresh size s.1 s.2)
    rw [List.length_cons]
    exact hrest.trans (by omega)

theorem runCall_done {fresh : SigningKey} {sizes : List Nat} (disk : Disk)
    (hsizes : pemLength lib fresh + 8 ≤ sizes.length) :
    ∃ result, (runCall lib path fresh sizes (disk, .checkExists)).2 = .done result := by
  have hleft := @runCall_left _ lib path fresh sizes (disk, .checkExists)
  rw [Pc.left, Nat.sub_eq_zero_of_le hsizes] at hleft
  exact Pc.done_of_left_eq_zero (Nat.le_zero.mp hleft)

@[simp] theorem runCall_of_done (fresh : SigningKey) (sizes : List Nat) (disk : Disk)
    (result : Except IdentityError SigningKey) :
    runCall lib path fresh sizes (disk, .done result) = (disk, .done result) := by
  induction sizes with
  | nil => rfl
  | cons size sizes ih => exact ih

theorem runCall_load {fresh : SigningKey} {sizes : List Nat} {disk : Disk}
    (hsome : disk.file.isSome = true) (hsizes : 2 ≤ sizes.length) :
    (runCall lib path fresh sizes (disk, .checkExists)).2 = .done (load lib path disk) := by
  obtain ⟨first, second, sizes, rfl⟩ : ∃ first second rest, sizes = first :: second :: rest := by
    rcases sizes with _ | ⟨first, _ | ⟨second, rest⟩⟩
    · simp at hsizes
    · simp at hsizes
    · exact ⟨first, second, rest, rfl⟩
  have htwo : runCall lib path fresh (first :: second :: sizes) (disk, .checkExists) =
      runCall lib path fresh sizes (disk, .done (load lib path disk)) := by
    simp only [runCall, List.foldl_cons, step, hsome, if_true]
  rw [htwo, runCall_of_done]

variable (path) in
/-- What every step of a call keeps, the call keeps. -/
theorem runCall_invariant {fresh : SigningKey} (Inv : Disk → Pc SigningKey → Prop)
    (hstep : ∀ disk pc size, Inv disk pc →
      Inv (step lib path fresh size disk pc).1 (step lib path fresh size disk pc).2)
    (sizes : List Nat) {s : Disk × Pc SigningKey} (h : Inv s.1 s.2) :
    Inv (runCall lib path fresh sizes s).1 (runCall lib path fresh sizes s).2 :=
  List.foldlRecOn (motive := fun t : Disk × Pc SigningKey => Inv t.1 t.2) sizes _ h
    fun t ht size _ => hstep t.1 t.2 size ht

/-- A call that found no file has written its key when it returns. -/
theorem generated_of_done {fresh : SigningKey} {pem : Bytes} (hpem : lib.toPkcs8Pem fresh = .ok pem)
    {disk : Disk} (hnone : disk.file = none) {sizes : List Nat}
    {result : Except IdentityError SigningKey}
    (hdone : (runCall lib path fresh sizes (disk, .checkExists)).2 = .done result) :
    Generating (runCall lib path fresh sizes (disk, .checkExists)).1 fresh pem (.done result) := by
  cases sizes with
  | nil => cases hdone
  | cons size sizes =>
    have hfirst : runCall lib path fresh (size :: sizes) (disk, .checkExists) =
        runCall lib path fresh sizes (disk, .createDir) := by
      simp [runCall, step, hnone]
    have hgenerating := runCall_invariant path (fun disk pc => Generating disk fresh pem pc)
      (fun _ _ size h => generating_step hpem h size) sizes (s := (disk, .createDir)) hnone
    rw [hfirst] at hdone ⊢
    rw [hdone] at hgenerating
    exact hgenerating

theorem runCall_generate {fresh : SigningKey} {sizes : List Nat} {disk : Disk}
    (hnone : disk.file = none) (hsizes : pemLength lib fresh + 8 ≤ sizes.length) :
    (runCall lib path fresh sizes (disk, .checkExists)).2 = .done (.ok fresh) := by
  obtain ⟨pem, hpem, -⟩ := lib.round_trip fresh
  obtain ⟨result, hresult⟩ := runCall_done disk hsizes
  rw [hresult, (generated_of_done hpem hnone hresult).2]

/-- The disk while `save` writes the new key over what was there before. -/
def Saving (before disk : Disk) (new : SigningKey) (pem : Bytes) : Pc SigningKey → Prop
  | .saveDir key => disk.file = before.file ∧ key = new
  | .encode key => disk.file = before.file ∧ disk.dir = true ∧ key = new
  | .openFile key text => disk.file = before.file ∧ disk.dir = true ∧ key = new ∧ text = pem
  | .writeAll key offset rest => Generating disk new pem (.writeAll key offset rest)
  | .chmod key => Generating disk new pem (.chmod key)
  | .done result => Generating disk new pem (.done result)
  | _ => False

theorem Saving.step {before disk : Disk} {new : SigningKey} {pem : Bytes} {pc : Pc SigningKey}
    (hpem : lib.toPkcs8Pem new = .ok pem) (h : Saving before disk new pem pc) (size : Nat) :
    Saving before (step lib path new size disk pc).1 new pem
      (step lib path new size disk pc).2 := by
  rcases pc with _ | _ | _ | _ | k | k | ⟨k, text⟩ | ⟨k, offset, _ | ⟨byte, rest⟩⟩ | k | result
  case saveDir => exact ⟨h.1, rfl, h.2⟩
  case encode =>
    obtain ⟨hfile, hdir, rfl⟩ := h
    simp only [Identity.step, hpem]
    exact ⟨hfile, hdir, rfl, rfl⟩
  case openFile =>
    obtain ⟨-, hdir, rfl, rfl⟩ := h
    simp only [Identity.step, hdir, if_true]
    exact ⟨_, rfl, rfl, rfl, rfl⟩
  case writeAll.nil =>
    have hgenerating : Generating disk new pem (.writeAll k offset []) := h
    exact @generating_step _ lib path _ _ _ _ hpem hgenerating size
  case writeAll.cons =>
    have hgenerating : Generating disk new pem (.writeAll k offset (byte :: rest)) := h
    exact @generating_step _ lib path _ _ _ _ hpem hgenerating size
  case chmod =>
    obtain ⟨⟨file, hfile, hcontent⟩, rfl⟩ := h
    simp only [Identity.step, hfile]
    exact ⟨⟨_, rfl, hcontent⟩, rfl⟩
  case done => exact h
  all_goals exact h.elim

theorem Saving.run {before : Disk} {new : SigningKey} {pem : Bytes}
    (hpem : lib.toPkcs8Pem new = .ok pem) (sizes : List Nat) {s : Disk × Pc SigningKey}
    (h : Saving before s.1 new pem s.2) :
    Saving before (runCall lib path new sizes s).1 new pem (runCall lib path new sizes s).2 :=
  runCall_invariant path (fun disk pc => Saving before disk new pem pc)
    (fun _ _ size hsaving => hsaving.step hpem size) sizes h

theorem Saving.old_or_new {before disk : Disk} {new : SigningKey} {pem : Bytes}
    {pc : Pc SigningKey} (h : Saving before disk new pem pc) (hunwritten : pc.unwritten = false) :
    disk.file = before.file ∨ disk.Complete pem := by
  rcases pc with _ | _ | _ | _ | k | k | ⟨k, text⟩ | ⟨k, offset, rest⟩ | k | result
  case saveDir => exact .inl h.1
  case encode => exact .inl h.1
  case openFile => exact .inl h.1
  case writeAll =>
    have hgenerating : Generating disk new pem (.writeAll k offset rest) := h
    obtain ⟨file, hfile, -⟩ := h
    exact .inr (hgenerating.complete (by rw [hfile]; rfl) hunwritten)
  case chmod => exact .inr h.1
  case done => exact .inr h.1
  all_goals exact h.elim

theorem Saving.part {before disk : Disk} {new : SigningKey} {pem : Bytes} {pc : Pc SigningKey}
    (h : Saving before disk new pem pc) (hunwritten : pc.unwritten = true) :
    ∃ file rest, disk.file = some file ∧ file.content ++ rest = pem ∧ rest ≠ [] := by
  rcases pc with _ | _ | _ | _ | k | k | ⟨k, text⟩ | ⟨k, offset, rest⟩ | k | result
  case writeAll =>
    have hgenerating : Generating disk new pem (.writeAll k offset rest) := h
    exact hgenerating.part hunwritten
  all_goals simp [Pc.unwritten] at hunwritten

theorem load_congr {disk disk' : Disk} (h : disk.file = disk'.file) :
    load lib path disk = load lib path disk' := by
  rw [load, load, h]

theorem recovers_of_old_or_new {before crashed : Disk} {new : SigningKey} {pem : Bytes}
    (hpem : lib.toPkcs8Pem new = .ok pem) (hbefore : before.Sound lib path)
    (h : crashed.file = before.file ∨ crashed.Complete pem) :
    Recovers lib path before crashed new := by
  intro fresh sizes hsizes
  rcases h with hsame | hcomplete
  · rcases hbefore with hnone | ⟨old, hold⟩
    · refine ⟨fresh, runCall_generate (hsame.trans hnone) hsizes, ?_⟩
      intro old hold
      simp [load, hnone] at hold
    · have hsome : crashed.file.isSome = true := by
        rcases hfile : before.file with _ | file
        · simp [load, hfile] at hold
        · rw [hsame, hfile]
          rfl
      refine ⟨old, ?_, ?_⟩
      · rw [runCall_load hsome (by omega), load_congr hsame, hold]
      · intro other hother
        exact .inl (Except.ok.inj (hold.symm.trans hother))
  · have hsome : crashed.file.isSome = true := by
      obtain ⟨file, hfile, -⟩ := hcomplete
      rw [hfile]
      rfl
    refine ⟨new, ?_, fun _ _ => .inr rfl⟩
    rw [runCall_load hsome (by omega), load_complete hpem hcomplete]

/-- **When an interrupted save can be recovered from.**  Whatever `save` found, an absent
    file or one that loads, and wherever it stops: later calls of `load_or_generate`
    succeed, with the old identity or the new one, iff no bytes of the new key were
    missing when it stopped. -/
theorem save_recovers_iff (before : Disk) (hbefore : before.Sound lib path) (new : SigningKey)
    (sizes : List Nat) :
    Recovers lib path before (runCall lib path new sizes (before, .saveDir new)).1 new ↔
      (runCall lib path new sizes (before, .saveDir new)).2.unwritten = false := by
  obtain ⟨pem, hpem, -⟩ := lib.round_trip new
  have hsaving := @Saving.run _ lib path before new pem hpem sizes (before, .saveDir new) ⟨rfl, rfl⟩
  constructor
  · intro hrecovers
    by_contra hunwritten
    rw [Bool.not_eq_false] at hunwritten
    obtain ⟨file, rest, hfile, hcontent, hrest⟩ := hsaving.part hunwritten
    obtain ⟨e, he⟩ := load_part path hpem hfile hcontent hrest
    obtain ⟨key, hkey, -⟩ := hrecovers new (List.replicate (pemLength lib new + 8) 0) (by simp)
    rw [runCall_load (by rw [hfile]; rfl) (by simp), he] at hkey
    simp at hkey
  · intro hunwritten
    exact recovers_of_old_or_new hpem hbefore (hsaving.old_or_new hunwritten)

/-- On a directory with an identity, `save` of the other key stops right after the last
    byte: later calls give the new key. -/
theorem save_recovers_written :
    Disk.Sound Sample.pkcs8 "identity.pem" ⟨true, some ⟨Sample.pem false, 0o600⟩⟩ ∧
    Recovers Sample.pkcs8 "identity.pem" ⟨true, some ⟨Sample.pem false, 0o600⟩⟩
      (runCall Sample.pkcs8 "identity.pem" true [0, 0, 0, 0, 0]
        (⟨true, some ⟨Sample.pem false, 0o600⟩⟩, .saveDir true)).1 true := by
  have hsound : Disk.Sound Sample.pkcs8 "identity.pem" ⟨true, some ⟨Sample.pem false, 0o600⟩⟩ :=
    .inr ⟨false, by rfl⟩
  exact ⟨hsound, (save_recovers_iff _ hsound true [0, 0, 0, 0, 0]).mpr (by rfl)⟩

/-- On a directory with an identity, `save` of the other key stops right after the file
    was truncated: the old identity is gone and `load_or_generate` fails. -/
theorem save_loses_identity :
    load Sample.pkcs8 "identity.pem" ⟨true, some ⟨Sample.pem false, 0o600⟩⟩ = .ok false ∧
    (let crashed := (runCall Sample.pkcs8 "identity.pem" true [0, 0, 0]
        (⟨true, some ⟨Sample.pem false, 0o600⟩⟩, .saveDir true)).1
     crashed.file.map File.content = some [] ∧
       ∀ fresh, (runCall Sample.pkcs8 "identity.pem" fresh (List.replicate 10 0)
         (crashed, .checkExists)).2 = .done (.error (.pkcs8 "decoding identity.pem: PEM error"))) := by
  refine ⟨by rfl, by rfl, ?_⟩
  intro fresh
  cases fresh
  · rfl
  · rfl

end Crash

/-! ### Modes -/

/-- What the operating system knows of the process: its umask, and the modes with which
    it may open an existing file for writing. -/
structure Process where
  umask : BitVec 9
  mayWrite : Nat → Bool

def Process.createMode (process : Process) : Nat := (0o666#9 &&& ~~~process.umask).toNat

theorem Process.createMode_eq_private_iff (process : Process) :
    process.createMode = 0o600 ↔ process.umask &&& 0o666#9 = 0o066#9 := by
  have hall : ∀ umask : BitVec 9,
      (0o666#9 &&& ~~~umask).toNat = 0o600 ↔ umask &&& 0o666#9 = 0o066#9 := by
    decide +kernel
  exact hall process.umask

def Process.openMode (process : Process) (file : Option File) : Nat :=
  (file.map File.mode).getD process.createMode

def Process.opens (process : Process) (file : Option File) : Bool :=
  file.all fun file => process.mayWrite file.mode

section Modes

variable (process : Process) (lib : Pkcs8 SigningKey) (path : String) (fresh : SigningKey)

def stepUnder (size : Nat) (disk : Disk) : Pc SigningKey → Disk × Pc SigningKey
  | .openFile key pem =>
      if disk.dir then
        if process.opens disk.file then
          ({ disk with file := some ⟨[], process.openMode disk.file⟩ }, .writeAll key 0 pem)
        else (disk, .done (.error (.io .permissionDenied)))
      else (disk, .done (.error (.io .notFound)))
  | pc => step lib path fresh size disk pc

/-- A call in progress, and whether it has written a byte of its key. -/
structure Trace (SigningKey : Type) where
  disk : Disk
  pc : Pc SigningKey
  wrote : Bool

def Trace.step (s : Trace SigningKey) (size : Nat) : Trace SigningKey :=
  let moved := stepUnder process lib path fresh size s.disk s.pc
  ⟨moved.1, moved.2, s.wrote || s.pc.unwritten⟩

def Trace.run (s : Trace SigningKey) (sizes : List Nat) : Trace SigningKey :=
  sizes.foldl (Trace.step process lib path fresh) s

/-- A file with bytes of the new key is for its owner only. -/
def Trace.Hidden (s : Trace SigningKey) : Prop :=
  s.wrote = true → ∀ file, s.disk.file = some file → file.mode = 0o600

variable {process lib path fresh}

/-- `step` is what a process with the usual umask does on a file it may write. -/
theorem stepUnder_usual (size : Nat) (disk : Disk) (pc : Pc SigningKey) :
    stepUnder ⟨0o022#9, fun _ => true⟩ lib path fresh size disk pc =
      step lib path fresh size disk pc := by
  rcases pc with _ | _ | _ | _ | k | k | ⟨k, text⟩ | ⟨k, offset, rest⟩ | k | result
  case openFile =>
    rcases disk with ⟨dir, _ | file⟩
    · rfl
    · rfl
  all_goals rfl

theorem Trace.run_invariant (Inv : Trace SigningKey → Prop)
    (hstep : ∀ s size, Inv s → Inv (s.step process lib path fresh size))
    {s : Trace SigningKey} (h : Inv s) (sizes : List Nat) :
    Inv (s.run process lib path fresh sizes) := by
  induction sizes generalizing s with
  | nil => exact h
  | cons size sizes ih => exact ih (hstep s size h)

variable (process lib) in
def Trace.Writing (key : SigningKey) (start : Option File) : Trace SigningKey → Prop
  | ⟨disk, .saveDir k, wrote⟩ => wrote = false ∧ disk.file = start ∧ k = key
  | ⟨disk, .encode k, wrote⟩ => wrote = false ∧ disk.file = start ∧ k = key
  | ⟨disk, .openFile _ pem, wrote⟩ =>
      wrote = false ∧ disk.file = start ∧ lib.toPkcs8Pem key = .ok pem
  | ⟨disk, .writeAll _ _ rest, wrote⟩ =>
      process.opens start = true ∧ disk.file.map File.mode = some (process.openMode start) ∧
        (wrote = true ∨ rest ≠ [] → pemLength lib key ≠ 0)
  | ⟨disk, .chmod _, wrote⟩ =>
      process.opens start = true ∧ disk.file.map File.mode = some (process.openMode start) ∧
        (wrote = true → pemLength lib key ≠ 0)
  | ⟨disk, .done _, wrote⟩ => wrote = true → disk.file.map File.mode = some 0o600
  | _ => False

theorem Disk.map_mode_write (disk : Disk) (offset : Nat) (piece : Bytes) :
    (disk.write offset piece).file.map File.mode = disk.file.map File.mode := by
  rw [Disk.write, Option.map_map]
  rfl

theorem Trace.Writing.step {key : SigningKey} {start : Option File} {s : Trace SigningKey}
    (h : s.Writing process lib key start) (size : Nat) :
    (s.step process lib path fresh size).Writing process lib key start := by
  rcases s with ⟨disk, pc, wrote⟩
  rcases pc with _ | _ | _ | _ | k | k | ⟨k, text⟩ | ⟨k, offset, _ | ⟨byte, rest⟩⟩ | k | result
  case saveDir =>
    obtain ⟨rfl, hfile, rfl⟩ := h
    exact ⟨rfl, hfile, rfl⟩
  case encode =>
    obtain ⟨rfl, hfile, rfl⟩ := h
    simp only [Trace.step, stepUnder, Identity.step]
    rcases hpem : lib.toPkcs8Pem k with e | pem
    · intro hwrote
      cases hwrote
    · exact ⟨rfl, hfile, hpem⟩
  case openFile =>
    obtain ⟨rfl, rfl, hpem⟩ := h
    simp only [Trace.step, stepUnder]
    split
    · split
      · next hopens =>
        refine ⟨hopens, rfl, ?_⟩
        rintro (hwrote | hrest)
        · cases hwrote
        · simpa [pemLength, hpem] using hrest
      · intro hwrote
        cases hwrote
    · intro hwrote
      cases hwrote
  case writeAll.nil =>
    obtain ⟨hopens, hmode, hpem⟩ := h
    refine ⟨hopens, hmode, ?_⟩
    intro hwrote
    exact hpem (.inl (by simpa [Pc.unwritten] using hwrote))
  case writeAll.cons =>
    obtain ⟨hopens, hmode, hpem⟩ := h
    exact ⟨hopens, (Disk.map_mode_write _ _ _).trans hmode,
      fun _ => hpem (.inr (List.cons_ne_nil _ _))⟩
  case chmod =>
    obtain ⟨-, hmode, -⟩ := h
    obtain ⟨file, hfile, -⟩ := Option.map_eq_some_iff.mp hmode
    simp only [Trace.step, stepUnder, Identity.step, hfile]
    exact fun _ => rfl
  case done =>
    intro hwrote
    exact h (by simpa [Pc.unwritten] using hwrote)
  all_goals exact h.elim

/-- While the key is written, the file has the mode it was opened with. -/
theorem Trace.Writing.hidden {key : SigningKey} {start : Option File} {s : Trace SigningKey}
    (h : s.Writing process lib key start)
    (hsafe : pemLength lib key = 0 ∨ process.opens start = false ∨
      process.openMode start = 0o600) : s.Hidden := by
  rcases s with ⟨disk, pc, wrote⟩
  intro hwrote file hfile
  have hmode : disk.file.map File.mode = some 0o600 := by
    have hopened : process.opens start = true → pemLength lib key ≠ 0 →
        disk.file.map File.mode = some (process.openMode start) →
          disk.file.map File.mode = some 0o600 := by
      intro hopens hpem hmode
      rcases hsafe with hempty | hclosed | hprivate
      · exact absurd hempty hpem
      · rw [hopens] at hclosed
        cases hclosed
      · rw [hmode, hprivate]
    rcases pc with _ | _ | _ | _ | k | k | ⟨k, text⟩ | ⟨k, offset, rest⟩ | k | result
    case saveDir => exact absurd hwrote (by simp [h.1])
    case encode => exact absurd hwrote (by simp [h.1])
    case openFile => exact absurd hwrote (by simp [h.1])
    case writeAll => exact hopened h.1 (h.2.2 (.inl hwrote)) h.2.1
    case chmod => exact hopened h.1 (h.2.2 hwrote) h.2.1
    case done => exact h hwrote
    all_goals exact h.elim
  rw [hfile] at hmode
  exact Option.some.inj hmode

/-- After the first byte the file shows the mode it was opened with. -/
theorem exposed_after_first_byte {key : SigningKey} {disk : Disk}
    (hpem : pemLength lib key ≠ 0) (hopens : process.opens disk.file = true) :
    (Trace.run process lib path fresh ⟨disk, .saveDir key, false⟩ [0, 0, 0, 0]).wrote = true ∧
      (Trace.run process lib path fresh ⟨disk, .saveDir key, false⟩
        [0, 0, 0, 0]).disk.file.map File.mode = some (process.openMode disk.file) := by
  obtain ⟨pem, htext, -⟩ := lib.round_trip key
  rcases pem with _ | ⟨byte, rest⟩
  · simp [pemLength, htext] at hpem
  · simp only [Trace.run, List.foldl_cons, List.foldl_nil, Trace.step, stepUnder, step, htext,
      hopens, if_true, Pc.unwritten, Disk.write, Option.map_some, Bool.or_true, and_self]

/-- `load_or_generate` on a directory with a file writes nothing. -/
theorem run_reads_only {disk : Disk} (hsome : disk.file.isSome = true) (sizes : List Nat) :
    (Trace.run process lib path fresh ⟨disk, .checkExists, false⟩ sizes).wrote = false := by
  refine (@Trace.run_invariant _ process lib path fresh
    (fun s => s.wrote = false ∧ s.disk.file.isSome = true ∧
      (s.pc = .checkExists ∨ s.pc = .read ∨ ∃ result, s.pc = .done result))
    ?_ ⟨disk, .checkExists, false⟩ ⟨rfl, hsome, .inl rfl⟩ sizes).1
  rintro ⟨disk, pc, wrote⟩ size ⟨rfl, hfile, rfl | rfl | ⟨result, rfl⟩⟩
  · exact ⟨rfl, hfile, .inr (.inl (if_pos hfile))⟩
  · exact ⟨rfl, hfile, .inr (.inr ⟨_, rfl⟩)⟩
  · exact ⟨rfl, hfile, .inr (.inr ⟨_, rfl⟩)⟩

theorem run_generates {disk : Disk} (hnone : disk.file = none) (a b c : Nat) (sizes : List Nat) :
    Trace.run process lib path fresh ⟨disk, .checkExists, false⟩ (a :: b :: c :: sizes) =
      Trace.run process lib path fresh ⟨⟨true, none⟩, .saveDir fresh, false⟩ sizes := by
  simp [Trace.run, Trace.step, stepUnder, step, hnone, Pc.unwritten]

theorem save_hidden_iff (disk : Disk) (key : SigningKey) :
    (∀ sizes, (Trace.run process lib path fresh ⟨disk, .saveDir key, false⟩ sizes).Hidden) ↔
      pemLength lib key = 0 ∨ process.opens disk.file = false ∨
        process.openMode disk.file = 0o600 := by
  constructor
  · intro hhidden
    by_contra hsafe
    rw [not_or, not_or, Bool.not_eq_false] at hsafe
    obtain ⟨hpem, hopens, hmode⟩ := hsafe
    obtain ⟨hwrote, hfile⟩ := @exposed_after_first_byte _ process lib path fresh key disk hpem hopens
    obtain ⟨file, hsome, heq⟩ := Option.map_eq_some_iff.mp hfile
    exact hmode (heq ▸ hhidden _ hwrote file hsome)
  · intro hsafe sizes
    have hwriting := @Trace.run_invariant _ process lib path fresh
      (Trace.Writing process lib key disk.file) (fun s size h => h.step size)
      ⟨disk, .saveDir key, false⟩ ⟨rfl, rfl, rfl⟩ sizes
    exact hwriting.hidden hsafe

/-- Up to the save itself, `load_or_generate` writes nothing. -/
theorem generate_hidden_iff {disk : Disk} (hnone : disk.file = none) :
    (∀ sizes, (Trace.run process lib path fresh ⟨disk, .checkExists, false⟩ sizes).Hidden) ↔
      ∀ sizes, (Trace.run process lib path fresh ⟨⟨true, none⟩, .saveDir fresh, false⟩
        sizes).Hidden := by
  constructor
  · intro hhidden sizes
    rw [← run_generates hnone 0 0 0 sizes]
    exact hhidden _
  · rintro hhidden (_ | ⟨a, _ | ⟨b, _ | ⟨c, sizes⟩⟩⟩)
    · exact nofun
    · exact nofun
    · intro hwrote
      simp [Trace.run, Trace.step, stepUnder, step, hnone, Pc.unwritten] at hwrote
    · rw [run_generates hnone]
      exact hhidden sizes

variable (process lib path) in
/-- **When the key is never readable by others.**  For every umask and rights of the
    process and whatever is in the directory: in every state of `save`, a file with bytes
    of the new key has mode 0o600 iff there are no such bytes, the file cannot be opened,
    or it already had that mode when it was opened; in every state of `load_or_generate`,
    iff there is a file already, there are no such bytes, or the umask takes away exactly
    the rights of the others. -/
theorem key_hidden_iff (disk : Disk) (key : SigningKey) :
    ((∀ sizes, (Trace.run process lib path key ⟨disk, .saveDir key, false⟩ sizes).Hidden) ↔
      pemLength lib key = 0 ∨ process.opens disk.file = false ∨
        process.openMode disk.file = 0o600) ∧
    ((∀ sizes, (Trace.run process lib path key ⟨disk, .checkExists, false⟩ sizes).Hidden) ↔
      disk.file.isSome = true ∨ pemLength lib key = 0 ∨
        process.umask &&& 0o666#9 = 0o066#9) := by
  refine ⟨save_hidden_iff disk key, ?_⟩
  rcases hfile : disk.file with _ | file
  · have hopens : process.opens none = true := rfl
    have hmode : process.openMode none = process.createMode := rfl
    rw [generate_hidden_iff hfile, save_hidden_iff, hopens, hmode,
      process.createMode_eq_private_iff]
    simp
  · refine iff_of_true ?_ (.inl rfl)
    intro sizes hwrote
    rw [run_reads_only (by rw [hfile]; rfl)] at hwrote
    cases hwrote

/-- Under the umask 0o022 a new file has mode 0o644 while the key is written into it: after
    the first byte, `save` and `load_or_generate` both show it. -/
theorem key_readable_while_written :
    (Trace.run ⟨0o022#9, fun _ => true⟩ Sample.pkcs8 "identity.pem" true
      ⟨⟨true, none⟩, .saveDir true, false⟩ [0, 0, 0, 0]).disk.file.map
        (fun file => (file.content, file.mode)) = some ([45], 0o644) ∧
    (Trace.run ⟨0o022#9, fun _ => true⟩ Sample.pkcs8 "identity.pem" true
      ⟨⟨true, none⟩, .checkExists, false⟩ [0, 0, 0, 0, 0, 0, 0]).disk.file.map
        (fun file => (file.content, file.mode)) = some ([45], 0o644) :=
  ⟨by rfl, by rfl⟩

end Modes

end FurcateMesh.Identity
