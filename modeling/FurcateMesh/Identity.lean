import FurcateMesh.PeerId
import FurcateMesh.Library.SparseFile

/-!
# The identity file of a config directory

`PeerIdentity::load_or_generate`, `save` and `load` of
`furcate-mesh-identity/src/lib.rs`, as the steps they take on the disk.  Several
calls on one config directory, absent at first, interleave their steps in any order.

The existence check and the creation of the file are separate steps, and the file is
written in place.  The calls agree on one identity exactly when one of them alone
finds no file and none of them reads a file that is still being written
(`one_identity_iff`).

A program point of a call (`Pc`) stands before each operation on the disk: the check, the two
calls of `create_dir_all`, the opening of the file, each write, the change of mode, the read.
`std::fs::write` opens and truncates the file and then writes until nothing is left; how many
bytes each write takes is up to the schedule.  A handle writes at its own offset, so two calls
that write at the same time overwrite each other's bytes.

The PEM form enters as `Pkcs8`.  It has two laws, that a key is read back from its text and
that no proper prefix of the text decodes; the second is why a reader that comes too early
fails, and does not find a different key.

A run has three kinds of states.

* `System.Fresh`: no call has started.
* `System.Led`: one call has found no file and generates its key; the others have not looked
  yet, or read what it has written in full.
* `System.Split`: two calls have found no file, or a call has failed.

A step that keeps out of the others' way (`QuietAt`) leads from the first to the second and
stays there; any other step leads to the third, which no step leaves.  A run that ends led is
agreed, one that ends split is not, and that is the theorem.
-/

namespace FurcateMesh.Identity

open SparseFile

inductive IoError where
  | notFound
  | invalidData
  | permissionDenied
deriving DecidableEq, Repr

inductive IdentityError where
  | io (error : IoError)
  | pkcs8 (reason : String)
  | tls (reason : String)
deriving DecidableEq, Repr

def isUtf8 (bytes : Bytes) : Bool := (ByteArray.mk bytes.toArray).validateUTF8

/-- The PKCS#8 PEM form of a signing key.  Every key has one, as text; it decodes to
    the key and none of its proper prefixes decodes. -/
structure Pkcs8 (SigningKey : Type) where
  toPkcs8Pem : SigningKey → Except String Bytes
  fromPkcs8Pem : Bytes → Except String SigningKey
  round_trip : ∀ key, ∃ pem, toPkcs8Pem key = .ok pem ∧ isUtf8 pem = true ∧
    fromPkcs8Pem pem = .ok key
  rejects_part : ∀ key pem part, toPkcs8Pem key = .ok pem → part <+: pem → part ≠ pem →
    ∃ e, fromPkcs8Pem part = .error e

structure File where
  content : Bytes
  mode : Nat

structure Disk where
  dir : Bool
  file : Option File

variable {SigningKey : Type}

def load (lib : Pkcs8 SigningKey) (path : String) (disk : Disk) :
    Except IdentityError SigningKey :=
  match disk.file with
  | none => .error (.io .notFound)
  | some file =>
      if isUtf8 file.content then
        match lib.fromPkcs8Pem file.content with
        | .error e => .error (.pkcs8 ("decoding " ++ path ++ ": " ++ e))
        | .ok key => .ok key
      else .error (.io .invalidData)

/-! ### The steps of one call -/

inductive Pc (SigningKey : Type) where
  | checkExists
  | read
  | createDir
  | generate
  | saveDir (key : SigningKey)
  | encode (key : SigningKey)
  | openFile (key : SigningKey) (pem : Bytes)
  | writeAll (key : SigningKey) (offset : Nat) (rest : Bytes)
  | chmod (key : SigningKey)
  | done (result : Except IdentityError SigningKey)

/-- A write through a handle that stands at `offset`. -/
def Disk.write (disk : Disk) (offset : Nat) (piece : Bytes) : Disk :=
  { disk with file := disk.file.map fun file =>
      { file with content := writeAt 0 file.content offset piece } }

/-- One step of a call that generates `fresh` if it generates a key.  A write takes
    `size + 1` bytes, or what is left. -/
def step (lib : Pkcs8 SigningKey) (path : String) (fresh : SigningKey) (size : Nat)
    (disk : Disk) : Pc SigningKey → Disk × Pc SigningKey
  | .checkExists => (disk, if disk.file.isSome then .read else .createDir)
  | .read => (disk, .done (load lib path disk))
  | .createDir => ({ disk with dir := true }, .generate)
  | .generate => (disk, .saveDir fresh)
  | .saveDir key => ({ disk with dir := true }, .encode key)
  | .encode key =>
      match lib.toPkcs8Pem key with
      | .error e => (disk, .done (.error (.pkcs8 ("encoding: " ++ e))))
      | .ok pem => (disk, .openFile key pem)
  | .openFile key pem =>
      -- created, or truncated with its mode kept
      if disk.dir then
        ({ disk with file := some ⟨[], (disk.file.map File.mode).getD 0o644⟩ }, .writeAll key 0 pem)
      else (disk, .done (.error (.io .notFound)))
  | .writeAll key _ [] => (disk, .chmod key)
  | .writeAll key offset (byte :: rest) =>
      let piece := (byte :: rest).take (size + 1)
      (disk.write offset piece, .writeAll key (offset + piece.length) (rest.drop size))
  | .chmod key =>
      match disk.file with
      | none => (disk, .done (.error (.io .notFound)))
      | some file => ({ disk with file := some { file with mode := 0o600 } }, .done (.ok key))
  | .done result => (disk, .done result)

def Pc.unwritten : Pc SigningKey → Bool
  | .writeAll _ _ (_ :: _) => true
  | _ => false

def Pc.started : Pc SigningKey → Bool
  | .checkExists => false
  | _ => true

/-! ### Calls that interleave -/

structure System (ι SigningKey : Type) where
  disk : Disk
  pc : ι → Pc SigningKey

/-- The config directory does not exist and every call is about to start. -/
def System.initial {ι : Type} : System ι SigningKey := ⟨⟨false, none⟩, fun _ => .checkExists⟩

section Interleaving

variable {ι : Type} [DecidableEq ι]
variable (lib : Pkcs8 SigningKey) (path : String) (keys : ι → SigningKey)

def System.next (s : System ι SigningKey) (i : ι) (size : Nat) : System ι SigningKey :=
  let moved := step lib path (keys i) size s.disk (s.pc i)
  ⟨moved.1, Function.update s.pc i moved.2⟩

def System.run (s : System ι SigningKey) (schedule : List (ι × Nat)) : System ι SigningKey :=
  schedule.foldl (fun s turn => s.next lib path keys turn.1 turn.2) s

/-- A step of call `i` from this point keeps out of the others' way: it does not find
    the file missing once another call has started, and it does not read the file while
    another call has bytes to write. -/
def System.QuietFrom (s : System ι SigningKey) (i : ι) : Pc SigningKey → Prop
  | .checkExists => s.disk.file.isSome = false → ∀ j, j ≠ i → (s.pc j).started = false
  | .read => ∀ j, (s.pc j).unwritten = false
  | _ => True

def System.QuietAt (s : System ι SigningKey) (i : ι) : Prop := s.QuietFrom i (s.pc i)

def System.QuietRun (s : System ι SigningKey) : List (ι × Nat) → Prop
  | [] => True
  | turn :: schedule =>
      s.QuietAt turn.1 ∧ (s.next lib path keys turn.1 turn.2).QuietRun schedule

instance [Fintype ι] (s : System ι SigningKey) (i : ι) :
    (pc : Pc SigningKey) → Decidable (s.QuietFrom i pc)
  | .checkExists => inferInstanceAs (Decidable (_ → ∀ j, j ≠ i → (s.pc j).started = false))
  | .read => inferInstanceAs (Decidable (∀ j, (s.pc j).unwritten = false))
  | .createDir | .generate | .saveDir _ | .encode _ | .openFile _ _ | .writeAll _ _ _ | .chmod _
  | .done _ => .isTrue trivial

instance [Fintype ι] (s : System ι SigningKey) (schedule : List (ι × Nat)) :
    Decidable (s.QuietRun lib path keys schedule) := by
  induction schedule generalizing s with
  | nil => exact .isTrue trivial
  | cons turn schedule ih =>
    have := ih (s.next lib path keys turn.1 turn.2)
    exact inferInstanceAs (Decidable (s.QuietFrom turn.1 (s.pc turn.1) ∧ _))

/-- Every call returned the same identity, and it is the one a later load gives. -/
def System.Agreed (s : System ι SigningKey) : Prop :=
  ∃ key, (∀ i, s.pc i = .done (.ok key)) ∧ load lib path s.disk = .ok key

/-! ### One generating call -/

def Disk.Complete (disk : Disk) (pem : Bytes) : Prop :=
  ∃ file, disk.file = some file ∧ file.content = pem

/-- The disk as the call that generates `key`, and no other, leaves it. -/
def Generating (disk : Disk) (key : SigningKey) (pem : Bytes) : Pc SigningKey → Prop
  | .createDir => disk.file = none
  | .generate => disk.file = none
  | .saveDir k => disk.file = none ∧ k = key
  | .encode k => disk.file = none ∧ disk.dir = true ∧ k = key
  | .openFile k text => disk.file = none ∧ disk.dir = true ∧ k = key ∧ text = pem
  | .writeAll k offset rest =>
      ∃ file, disk.file = some file ∧ file.content ++ rest = pem ∧
        offset = file.content.length ∧ k = key
  | .chmod k => disk.Complete pem ∧ k = key
  | .done result => disk.Complete pem ∧ result = .ok key
  | _ => False

/-- Where the other calls stand meanwhile. -/
def Following (disk : Disk) (key : SigningKey) (pem : Bytes) : Pc SigningKey → Prop
  | .checkExists => True
  | .read => disk.file.isSome = true
  | .done result => disk.Complete pem ∧ result = .ok key
  | _ => False

/-- One call generates the key, the others follow it. -/
structure System.Led (s : System ι SigningKey) (leader : ι) (pem : Bytes) : Prop where
  pem_eq : lib.toPkcs8Pem (keys leader) = .ok pem
  leads : Generating s.disk (keys leader) pem (s.pc leader)
  follow : ∀ j, j ≠ leader → Following s.disk (keys leader) pem (s.pc j)

def System.Fresh (s : System ι SigningKey) : Prop :=
  s.disk.file = none ∧ ∀ i, s.pc i = .checkExists

/-- The call found no file, and will return its own key if any. -/
def Owns (key : SigningKey) : Pc SigningKey → Prop
  | .checkExists => False
  | .read => False
  | .createDir => True
  | .generate => True
  | .saveDir k => k = key
  | .encode k => k = key
  | .openFile k _ => k = key
  | .writeAll k _ _ => k = key
  | .chmod k => k = key
  | .done result => result = .ok key ∨ ∃ e, result = .error e

/-- What no later step repairs: two calls with keys of their own, or a failed call. -/
def System.Split (s : System ι SigningKey) : Prop :=
  (∃ i j, i ≠ j ∧ Owns (keys i) (s.pc i) ∧ Owns (keys j) (s.pc j)) ∨
    ∃ i e, s.pc i = .done (.error e)

variable {lib path keys}

/-! #### What a step keeps -/

theorem generating_step {disk : Disk} {key : SigningKey} {pem : Bytes} {pc : Pc SigningKey}
    (hpem : lib.toPkcs8Pem key = .ok pem) (h : Generating disk key pem pc) (size : Nat) :
    Generating (step lib path key size disk pc).1 key pem (step lib path key size disk pc).2 := by
  rcases pc with _ | _ | _ | _ | k | k | ⟨k, text⟩ | ⟨k, offset, _ | ⟨byte, rest⟩⟩ | k | result
  · exact h.elim
  · exact h.elim
  · exact h
  · exact ⟨h, rfl⟩
  · exact ⟨h.1, rfl, h.2⟩
  · obtain ⟨hfile, hdir, rfl⟩ := h
    simp only [step, hpem]
    exact ⟨hfile, hdir, rfl, rfl⟩
  · obtain ⟨-, hdir, rfl, rfl⟩ := h
    simp only [step, hdir, if_true]
    exact ⟨_, rfl, rfl, rfl, rfl⟩
  · obtain ⟨file, hfile, hcontent, -, rfl⟩ := h
    exact ⟨⟨file, hfile, by rw [← hcontent, List.append_nil]⟩, rfl⟩
  · obtain ⟨file, hfile, hcontent, rfl, rfl⟩ := h
    refine ⟨_, by rw [step, Disk.write, hfile, Option.map_some, writeAt_length], ?_, ?_, rfl⟩
    · rw [← hcontent, List.append_assoc, List.take_succ_cons, List.cons_append,
        List.take_append_drop]
    · rw [List.length_append]
  · obtain ⟨⟨file, hfile, hcontent⟩, rfl⟩ := h
    simp only [step, hfile]
    exact ⟨⟨_, rfl, hcontent⟩, rfl⟩
  · exact h

/-- A step of the generating call never takes the whole key, or a file, away. -/
theorem generating_step_complete {disk : Disk} {key : SigningKey} {pem : Bytes}
    {pc : Pc SigningKey} (h : Generating disk key pem pc) (size : Nat) :
    (disk.file.isSome = true → (step lib path key size disk pc).1.file.isSome = true) ∧
      (disk.Complete pem → (step lib path key size disk pc).1.Complete pem) := by
  rcases pc with _ | _ | _ | _ | k | k | ⟨k, text⟩ | ⟨k, offset, _ | ⟨byte, rest⟩⟩ | k | result
  · exact h.elim
  · exact h.elim
  · exact ⟨id, id⟩
  · exact ⟨id, id⟩
  · exact ⟨id, id⟩
  · simp only [step]
    split <;> exact ⟨id, id⟩
  · obtain ⟨hfile, -⟩ := h
    constructor
    · simp [hfile]
    · rintro ⟨file, hsome, -⟩
      simp [hfile] at hsome
  · exact ⟨id, id⟩
  · obtain ⟨file, hfile, hcontent, -⟩ := h
    constructor
    · simp [step, Disk.write, hfile]
    · rintro ⟨other, hother, hcomplete⟩
      -- a file that already holds the whole key leaves nothing to write
      rw [hfile, Option.some.injEq] at hother
      subst hother
      rw [hcomplete] at hcontent
      exact absurd (List.append_right_eq_self.mp hcontent) (List.cons_ne_nil _ _)
  · obtain ⟨⟨file, hfile, hcontent⟩, -⟩ := h
    simp only [step, hfile]
    exact ⟨fun _ => rfl, fun _ => ⟨_, rfl, hcontent⟩⟩
  · exact ⟨id, id⟩

theorem Following.of_step {disk disk' : Disk} {key : SigningKey} {pem : Bytes}
    {pc : Pc SigningKey} (h : Following disk key pem pc)
    (hsome : disk.file.isSome = true → disk'.file.isSome = true)
    (hcomplete : disk.Complete pem → disk'.Complete pem) : Following disk' key pem pc := by
  rcases pc with _ | _ | _ | _ | k | k | ⟨k, text⟩ | ⟨k, offset, rest⟩ | k | result
  · trivial
  · exact hsome h
  · exact h
  · exact h
  · exact h
  · exact h
  · exact h
  · exact h
  · exact h
  · exact ⟨hcomplete h.1, h.2⟩

theorem load_complete {disk : Disk} {key : SigningKey} {pem : Bytes}
    (hpem : lib.toPkcs8Pem key = .ok pem) (h : disk.Complete pem) :
    load lib path disk = .ok key := by
  obtain ⟨file, hfile, rfl⟩ := h
  obtain ⟨text, htext, hutf8, hdecode⟩ := lib.round_trip key
  rw [hpem, Except.ok.injEq] at htext
  subst htext
  simp only [load, hfile, hutf8, if_true, hdecode]

variable (path) in
theorem load_part {disk : Disk} {key : SigningKey} {pem rest : Bytes} {file : File}
    (hpem : lib.toPkcs8Pem key = .ok pem) (hfile : disk.file = some file)
    (hcontent : file.content ++ rest = pem) (hrest : rest ≠ []) :
    ∃ e, load lib path disk = .error e := by
  have hne : file.content ≠ pem := by
    intro heq
    rw [heq] at hcontent
    exact hrest (List.append_right_eq_self.mp hcontent)
  obtain ⟨e, he⟩ := lib.rejects_part key pem file.content hpem ⟨rest, hcontent⟩ hne
  simp only [load, hfile, he]
  split
  · exact ⟨_, rfl⟩
  · exact ⟨_, rfl⟩

theorem Generating.complete {disk : Disk} {key : SigningKey} {pem : Bytes} {pc : Pc SigningKey}
    (h : Generating disk key pem pc) (hsome : disk.file.isSome = true)
    (hunwritten : pc.unwritten = false) : disk.Complete pem := by
  rcases pc with _ | _ | _ | _ | k | k | ⟨k, text⟩ | ⟨k, offset, _ | ⟨byte, rest⟩⟩ | k | result
  · exact h.elim
  · exact h.elim
  · simp [show disk.file = none from h] at hsome
  · simp [show disk.file = none from h] at hsome
  · simp [h.1] at hsome
  · simp [h.1] at hsome
  · simp [h.1] at hsome
  · obtain ⟨file, hfile, hcontent, -⟩ := h
    exact ⟨file, hfile, by rw [← hcontent, List.append_nil]⟩
  · simp [Pc.unwritten] at hunwritten
  · exact h.1
  · exact h.1

theorem Generating.part {disk : Disk} {key : SigningKey} {pem : Bytes} {pc : Pc SigningKey}
    (h : Generating disk key pem pc) (hunwritten : pc.unwritten = true) :
    ∃ file rest, disk.file = some file ∧ file.content ++ rest = pem ∧ rest ≠ [] := by
  rcases pc with _ | _ | _ | _ | k | k | ⟨k, text⟩ | ⟨k, offset, _ | ⟨byte, rest⟩⟩ | k | result
  case writeAll.cons =>
    obtain ⟨file, hfile, hcontent, -⟩ := h
    exact ⟨file, byte :: rest, hfile, hcontent, List.cons_ne_nil _ _⟩
  all_goals simp [Pc.unwritten] at hunwritten

theorem Generating.owns {disk : Disk} {key : SigningKey} {pem : Bytes} {pc : Pc SigningKey}
    (h : Generating disk key pem pc) : Owns key pc := by
  rcases pc with _ | _ | _ | _ | k | k | ⟨k, text⟩ | ⟨k, offset, rest⟩ | k | result
  · exact h
  · exact h
  · trivial
  · trivial
  · exact h.2
  · exact h.2.2
  · exact h.2.2.1
  · obtain ⟨file, -, -, -, hkey⟩ := h
    exact hkey
  · exact h.2
  · exact Or.inl h.2

theorem Generating.started {disk : Disk} {key : SigningKey} {pem : Bytes} {pc : Pc SigningKey}
    (h : Generating disk key pem pc) : pc.started = true := by
  rcases pc with _ | _
  · exact h.elim
  all_goals rfl

theorem Following.not_unwritten {disk : Disk} {key : SigningKey} {pem : Bytes}
    {pc : Pc SigningKey} (h : Following disk key pem pc) : pc.unwritten = false := by
  rcases pc with _ | _ | _ | _ | k | k | ⟨k, text⟩ | ⟨k, offset, rest⟩ | k | result
  case writeAll => exact h.elim
  all_goals rfl

theorem Owns.step {key : SigningKey} {pc : Pc SigningKey} (h : Owns key pc) (size : Nat)
    (disk : Disk) : Owns key (step lib path key size disk pc).2 := by
  rcases pc with _ | _ | _ | _ | k | k | ⟨k, text⟩ | ⟨k, offset, _ | ⟨byte, rest⟩⟩ | k | result
  · exact h.elim
  · exact h.elim
  · trivial
  · rfl
  · exact h
  · simp only [Identity.step]
    split
    · exact Or.inr ⟨_, rfl⟩
    · exact h
  · simp only [Identity.step]
    split
    · exact h
    · exact Or.inr ⟨_, rfl⟩
  · exact h
  · exact h
  · simp only [Identity.step]
    split
    · exact Or.inr ⟨_, rfl⟩
    · exact Or.inl (congrArg Except.ok h)
  · exact h

/-! #### Whole runs -/

theorem System.next_pc_self (s : System ι SigningKey) (i : ι) (size : Nat) :
    (s.next lib path keys i size).pc i = (step lib path (keys i) size s.disk (s.pc i)).2 :=
  Function.update_self _ _ _

theorem System.next_pc_of_ne (s : System ι SigningKey) {i j : ι} (hne : j ≠ i) (size : Nat) :
    (s.next lib path keys i size).pc j = s.pc j :=
  Function.update_of_ne hne _ _

theorem System.Split.next {s : System ι SigningKey} (h : s.Split keys) (i : ι) (size : Nat) :
    (s.next lib path keys i size).Split keys := by
  have howns : ∀ j, Owns (keys j) (s.pc j) → Owns (keys j) ((s.next lib path keys i size).pc j) := by
    intro j hj
    by_cases hji : j = i
    · subst hji
      rw [s.next_pc_self]
      exact hj.step size s.disk
    · rwa [s.next_pc_of_ne hji]
  rcases h with ⟨j, k, hne, hj, hk⟩ | ⟨j, e, hj⟩
  · exact Or.inl ⟨j, k, hne, howns j hj, howns k hk⟩
  · refine Or.inr ⟨j, e, ?_⟩
    by_cases hji : j = i
    · subst hji
      rw [s.next_pc_self, hj]
      rfl
    · rwa [s.next_pc_of_ne hji]

theorem System.Split.run {s : System ι SigningKey} (h : s.Split keys)
    (schedule : List (ι × Nat)) : (s.run lib path keys schedule).Split keys := by
  induction schedule generalizing s with
  | nil => exact h
  | cons turn schedule ih => exact ih (h.next turn.1 turn.2)

omit [DecidableEq ι] in
theorem System.Split.not_agreed {s : System ι SigningKey} (hkeys : Function.Injective keys)
    (h : s.Split keys) : ¬ s.Agreed lib path := by
  rintro ⟨key, hdone, -⟩
  rcases h with ⟨i, j, hne, hi, hj⟩ | ⟨i, e, hi⟩
  · rw [hdone i] at hi
    rw [hdone j] at hj
    have hown : ∀ {k}, Owns k (.done (.ok key)) → key = k := by
      rintro k (hk | ⟨e, hk⟩)
      · exact Except.ok.inj hk
      · simp at hk
    exact hne (hkeys ((hown hi).symm.trans (hown hj)))
  · rw [hdone i] at hi
    simp at hi

variable (lib path keys) in
/-- The first call to look finds no file and leads from there on. -/
theorem System.Fresh.next {s : System ι SigningKey} (h : s.Fresh) (i : ι) (size : Nat) :
    ∃ pem, (s.next lib path keys i size).Led lib keys i pem := by
  obtain ⟨pem, hpem, -⟩ := lib.round_trip (keys i)
  refine ⟨pem, hpem, ?_, ?_⟩
  · rw [s.next_pc_self, System.next, h.2 i]
    simp only [step, h.1]
    exact h.1
  · intro j hj
    rw [s.next_pc_of_ne hj, h.2 j]
    trivial

omit [DecidableEq ι] in
theorem System.Fresh.quietAt {s : System ι SigningKey} (h : s.Fresh) (i : ι) : s.QuietAt i := by
  rw [System.QuietAt, h.2 i, System.QuietFrom]
  intro _ j _
  rw [h.2 j]
  rfl

omit [DecidableEq ι] in
variable (path) in
/-- A following call that keeps out of the leader's way changes nothing on the disk
    and goes on following. -/
theorem System.Led.follower_step {s : System ι SigningKey} {leader i : ι} {pem : Bytes}
    (h : s.Led lib keys leader pem) (hi : i ≠ leader) (hquiet : s.QuietAt i) (size : Nat) :
    (step lib path (keys i) size s.disk (s.pc i)).1 = s.disk ∧
      Following s.disk (keys leader) pem (step lib path (keys i) size s.disk (s.pc i)).2 := by
  have hfollow := h.follow i hi
  unfold System.QuietAt System.QuietFrom at hquiet
  generalize s.pc i = pc at hfollow hquiet
  rcases pc with _ | _ | _ | _ | k | k | ⟨k, text⟩ | ⟨k, offset, rest⟩ | k | result
  case checkExists =>
    cases hsome : s.disk.file.isSome with
    | false =>
      have hstarted := hquiet hsome leader (Ne.symm hi)
      rw [h.leads.started] at hstarted
      simp at hstarted
    | true =>
      constructor
      · rfl
      · simp only [step, hsome, if_true]
        exact hsome
  case read =>
    have hcomplete := h.leads.complete hfollow (hquiet leader)
    exact ⟨rfl, hcomplete, load_complete h.pem_eq hcomplete⟩
  case done => exact ⟨rfl, hfollow⟩
  all_goals exact hfollow.elim

variable (path) in
/-- A step that keeps out of the others' way leaves the leader leading. -/
theorem System.Led.next {s : System ι SigningKey} {leader : ι} {pem : Bytes}
    (h : s.Led lib keys leader pem) {i : ι} (hquiet : s.QuietAt i) (size : Nat) :
    (s.next lib path keys i size).Led lib keys leader pem := by
  by_cases hi : i = leader
  · subst hi
    refine ⟨h.pem_eq, ?_, ?_⟩
    · rw [s.next_pc_self]
      exact generating_step h.pem_eq h.leads size
    · intro j hj
      rw [s.next_pc_of_ne hj]
      exact (h.follow j hj).of_step (generating_step_complete h.leads size).1
        (generating_step_complete h.leads size).2
  · obtain ⟨hdisk, hself⟩ := h.follower_step path hi hquiet size
    have hdisk' : (s.next lib path keys i size).disk = s.disk := hdisk
    refine ⟨h.pem_eq, ?_, ?_⟩
    · rw [s.next_pc_of_ne (Ne.symm hi), hdisk']
      exact h.leads
    · intro j hj
      rw [hdisk']
      by_cases hji : j = i
      · subst hji
        rw [s.next_pc_self]
        exact hself
      · rw [s.next_pc_of_ne hji]
        exact h.follow j hj

/-- A step that gets in the leader's way splits the calls: it gives a second call a
    key of its own, or it reads a part of the leader's key and fails. -/
theorem System.Led.split_next {s : System ι SigningKey} {leader : ι} {pem : Bytes}
    (h : s.Led lib keys leader pem) {i : ι} (hquiet : ¬ s.QuietAt i) (size : Nat) :
    (s.next lib path keys i size).Split keys := by
  have hself : (s.next lib path keys i size).pc i = _ := s.next_pc_self i size
  have hleads := h.leads
  unfold System.QuietAt System.QuietFrom at hquiet
  generalize hpc : s.pc i = pc at hquiet hself
  rcases pc with _ | _ | _ | _ | k | k | ⟨k, text⟩ | ⟨k, offset, rest⟩ | k | result
  case checkExists =>
    have hi : leader ≠ i := by
      rintro rfl
      rw [hpc] at hleads
      exact hleads
    obtain ⟨hsome, -⟩ := Classical.not_imp.mp hquiet
    refine Or.inl ⟨leader, i, hi, ?_, ?_⟩
    · rw [s.next_pc_of_ne hi]
      exact hleads.owns
    · rw [hself]
      simp [step, hsome, Owns]
  case read =>
    obtain ⟨j, hj⟩ := not_forall.mp hquiet
    rw [Bool.not_eq_false] at hj
    have hjl : j = leader := by
      by_contra hne
      rw [(h.follow j hne).not_unwritten] at hj
      simp at hj
    subst hjl
    obtain ⟨file, rest, hfile, hcontent, hrest⟩ := hleads.part hj
    obtain ⟨e, he⟩ := load_part path h.pem_eq hfile hcontent hrest
    exact Or.inr ⟨i, e, by rw [hself, step, he]⟩
  all_goals exact absurd trivial hquiet

variable (path) in
/-- Along a whole run the leader leads to the end exactly when every step keeps out
    of the others' way; otherwise the calls end up split. -/
theorem System.Led.run {s : System ι SigningKey} {leader : ι} {pem : Bytes}
    (h : s.Led lib keys leader pem) (schedule : List (ι × Nat)) :
    (s.QuietRun lib path keys schedule →
        (s.run lib path keys schedule).Led lib keys leader pem) ∧
      (¬ s.QuietRun lib path keys schedule → (s.run lib path keys schedule).Split keys) := by
  induction schedule generalizing s with
  | nil => exact ⟨fun _ => h, fun hquiet => absurd trivial hquiet⟩
  | cons turn schedule ih =>
    by_cases hturn : s.QuietAt turn.1
    · have hnext := ih (h.next path hturn turn.2)
      exact ⟨fun hquiet => hnext.1 hquiet.2, fun hquiet => hnext.2 fun hrest => hquiet ⟨hturn, hrest⟩⟩
    · exact ⟨fun hquiet => absurd hquiet.1 hturn,
        fun _ => (h.split_next hturn turn.2).run schedule⟩

/-- When all calls have returned, the leader's key is everybody's. -/
theorem System.Led.agreed {s : System ι SigningKey} {leader : ι} {pem : Bytes}
    (h : s.Led lib keys leader pem) (hdone : ∀ i, ∃ result, s.pc i = .done result) :
    s.Agreed lib path := by
  have hleads := h.leads
  obtain ⟨result, hresult⟩ := hdone leader
  rw [hresult] at hleads
  refine ⟨keys leader, ?_, load_complete h.pem_eq hleads.1⟩
  intro i
  by_cases hi : i = leader
  · rw [hi, hresult, hleads.2]
  · have hfollow := h.follow i hi
    obtain ⟨other, hother⟩ := hdone i
    rw [hother] at hfollow ⊢
    rw [hfollow.2]

/-! #### Every call returns -/

def pemLength (lib : Pkcs8 SigningKey) (key : SigningKey) : Nat :=
  match lib.toPkcs8Pem key with
  | .error _ => 0
  | .ok pem => pem.length

/-- A bound on the steps a call with the fresh key has left. -/
def Pc.left (lib : Pkcs8 SigningKey) (fresh : SigningKey) : Pc SigningKey → Nat
  | .checkExists => pemLength lib fresh + 8
  | .read => 1
  | .createDir => pemLength lib fresh + 7
  | .generate => pemLength lib fresh + 6
  | .saveDir key => pemLength lib key + 5
  | .encode key => pemLength lib key + 4
  | .openFile _ pem => pem.length + 3
  | .writeAll _ _ rest => rest.length + 2
  | .chmod _ => 1
  | .done _ => 0

theorem Pc.done_of_left_eq_zero {fresh : SigningKey} {pc : Pc SigningKey}
    (h : pc.left lib fresh = 0) : ∃ result, pc = .done result := by
  rcases pc with _ | _ | _ | _ | k | k | ⟨k, text⟩ | ⟨k, offset, rest⟩ | k | result
  case done => exact ⟨result, rfl⟩
  all_goals simp [Pc.left] at h

theorem left_step (fresh : SigningKey) (size : Nat) (disk : Disk) (pc : Pc SigningKey) :
    (step lib path fresh size disk pc).2.left lib fresh ≤ pc.left lib fresh - 1 := by
  rcases pc with _ | _ | _ | _ | k | k | ⟨k, text⟩ | ⟨k, offset, _ | ⟨byte, rest⟩⟩ | k | result
  case checkExists => simp only [step]; split <;> simp [Pc.left]
  case encode =>
    cases hpem : lib.toPkcs8Pem k with
    | error e => simp [step, Pc.left, hpem]
    | ok pem => simp [step, Pc.left, pemLength, hpem]
  case openFile => simp only [step]; split <;> simp [Pc.left]
  case chmod => simp only [step]; split <;> simp [Pc.left]
  all_goals simp [step, Pc.left]

theorem System.left_run (s : System ι SigningKey) (schedule : List (ι × Nat)) (i : ι) :
    ((s.run lib path keys schedule).pc i).left lib (keys i) ≤
      (s.pc i).left lib (keys i) - schedule.countP (fun turn => turn.1 = i) := by
  induction schedule generalizing s with
  | nil => exact Nat.le_refl _
  | cons turn schedule ih =>
    have hrest := ih (s.next lib path keys turn.1 turn.2)
    by_cases hturn : turn.1 = i
    · have hstep := @left_step _ lib path (keys i) turn.2 s.disk (s.pc i)
      rw [hturn, s.next_pc_self] at hrest
      rw [List.countP_cons_of_pos (by simpa using hturn), System.run, List.foldl_cons, hturn]
      rw [System.run] at hrest
      omega
    · rw [s.next_pc_of_ne (Ne.symm hturn)] at hrest
      rw [List.countP_cons_of_neg (by simpa using hturn)]
      exact hrest

/-- A call that gets enough turns returns, whatever the directory holds at first and whatever
    the others do meanwhile. -/
theorem System.run_done (disk : Disk) (schedule : List (ι × Nat)) (i : ι)
    (hturns : pemLength lib (keys i) + 8 ≤ schedule.countP (fun turn => turn.1 = i)) :
    ∃ result, (System.run lib path keys ⟨disk, fun _ => .checkExists⟩ schedule).pc i =
      .done result := by
  have hleft : ((System.run lib path keys ⟨disk, fun _ => .checkExists⟩ schedule).pc i).left lib
      (keys i) ≤ _ := System.left_run ⟨disk, fun _ => .checkExists⟩ schedule i
  rw [Pc.left, Nat.sub_eq_zero_of_le hturns] at hleft
  exact Pc.done_of_left_eq_zero (Nat.le_zero.mp hleft)

/-! #### One identity -/

/-- **The calls agree on one identity exactly when they keep out of each other's
    way.**  Any number of calls with different fresh keys start on an absent config
    directory, and their steps interleave in any order until all have returned.  They
    all return the same identity, and a later load returns it too, if and only if no
    call found the file missing after another had started, and no call read the file
    while another had bytes to write. -/
theorem one_identity_iff [Nonempty ι] (hkeys : Function.Injective keys)
    (schedule : List (ι × Nat))
    (hdone : ∀ i, ∃ result,
      (System.initial.run lib path keys schedule).pc i = .done result) :
    (System.initial.run lib path keys schedule).Agreed lib path ↔
      System.initial.QuietRun lib path keys schedule := by
  have hfresh : (System.initial : System ι SigningKey).Fresh := ⟨rfl, fun _ => rfl⟩
  rcases schedule with _ | ⟨turn, schedule⟩
  · obtain ⟨result, hresult⟩ := hdone (Classical.arbitrary ι)
    simp [System.run, System.initial] at hresult
  · obtain ⟨pem, hled⟩ := hfresh.next lib path keys turn.1 turn.2
    have hrun := hled.run path schedule
    constructor
    · intro hagreed
      refine ⟨hfresh.quietAt turn.1, ?_⟩
      by_contra hquiet
      exact (hrun.2 hquiet).not_agreed hkeys hagreed
    · intro hquiet
      exact (hrun.1 hquiet.2).agreed hdone

end Interleaving

/-! ### Two calls -/

def Sample.pem : Bool → Bytes
  | false => [45, 48]
  | true => [45, 49]

def Sample.pkcs8 : Pkcs8 Bool where
  toPkcs8Pem key := .ok (Sample.pem key)
  fromPkcs8Pem bytes :=
    if bytes = Sample.pem false then .ok false
    else if bytes = Sample.pem true then .ok true
    else .error "PEM error"
  round_trip key := by
    refine ⟨Sample.pem key, rfl, ?_, ?_⟩
    · cases key <;> decide +kernel
    · cases key <;> rfl
  rejects_part := by
    intro key pem part hpem hpart hne
    have hlen : ∀ k, (Sample.pem k).length = 2 := by decide
    have hshort : part.length < 2 := by
      rw [← hlen key, Except.ok.inj hpem]
      exact lt_of_le_of_ne hpart.length_le fun heq => hne (hpart.eq_of_length heq)
    have hother : ∀ k, part ≠ Sample.pem k := by
      rintro k rfl
      rw [hlen k] at hshort
      omega
    exact ⟨"PEM error", by rw [if_neg (hother false), if_neg (hother true)]⟩

def Sample.turns (call : Bool) (count : Nat) : List (Bool × Nat) := List.replicate count (call, 0)

def Sample.run (schedule : List (Bool × Nat)) : System Bool Bool :=
  System.initial.run Sample.pkcs8 "identity.pem" id schedule

/-- One call after the other: both return the first call's key. -/
theorem one_identity_in_turn :
    System.initial.QuietRun Sample.pkcs8 "identity.pem" id
        (Sample.turns false 10 ++ Sample.turns true 2) ∧
      (Sample.run (Sample.turns false 10 ++ Sample.turns true 2)).Agreed Sample.pkcs8
        "identity.pem" := by
  have hquiet : System.initial.QuietRun Sample.pkcs8 "identity.pem" id
      (Sample.turns false 10 ++ Sample.turns true 2) := by decide +kernel
  refine ⟨hquiet, (one_identity_iff Function.injective_id _ ?_).mpr hquiet⟩
  intro i
  cases i
  · exact ⟨.ok false, by rfl⟩
  · exact ⟨.ok false, by rfl⟩

/-- Both calls look before either writes: each returns a key of its own, and the first
    call's key is lost.  And a call that looks once the file is there, but reads it
    after the first byte, fails. -/
theorem two_identities :
    (let s := Sample.run
        (Sample.turns false 1 ++ Sample.turns true 1 ++ Sample.turns false 9 ++ Sample.turns true 9)
     s.pc false = .done (.ok false) ∧ s.pc true = .done (.ok true) ∧
       load Sample.pkcs8 "identity.pem" s.disk = .ok true) ∧
    (let s := Sample.run (Sample.turns false 7 ++ Sample.turns true 2 ++ Sample.turns false 3)
     s.pc false = .done (.ok false) ∧
       s.pc true = .done (.error (.pkcs8 "decoding identity.pem: PEM error"))) := by
  refine ⟨⟨by rfl, by rfl, by rfl⟩, by rfl, by rfl⟩

end FurcateMesh.Identity
