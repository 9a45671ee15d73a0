import FurcateMesh.IdentityCrash

/-!
# One identity for the life of a config directory

Every command of the command-line tool starts with `PeerIdentity::load_or_generate` on its config
directory, and any of them may be killed at any point.  A call that finds a file only reads
it, so the commands on one directory, one after another, never use two identities
(`identity_for_life`): a crash may leave a directory no command can use, but not one that
changes its peer id.  Once an identity is stored, this holds for calls that interleave in
any way as well (`stored_identity_stable`).

Both theorems rest on one fact about steps.  A call that found a file, or has still to look
(`Reading`), leaves the disk alone, and if it returns it returns what `load` makes of the disk.
The remaining case is the call that finds no file: it is `generated_of_done` of
`IdentityCrash`, by which a key is returned only after its whole text is on the disk.
-/

namespace FurcateMesh.Identity

variable {SigningKey : Type}

section Life

variable (lib : Pkcs8 SigningKey) (path : String)

def Reading (disk : Disk) : Pc SigningKey → Prop
  | .checkExists => True
  | .read => True
  | .done result => result = load lib path disk
  | _ => False

/-- A config directory and the identities that the calls on it have returned. -/
structure Life (SigningKey : Type) where
  disk : Disk
  returned : List SigningKey

def Pc.identity : Pc SigningKey → List SigningKey
  | .done (.ok key) => [key]
  | _ => []

/-- One command: its call takes the listed steps, all of them or as many as the process lives
    for. -/
def Life.call (life : Life SigningKey) (command : SigningKey × List Nat) : Life SigningKey :=
  let last := runCall lib path command.1 command.2 (life.disk, .checkExists)
  ⟨last.1, life.returned ++ last.2.identity⟩

def Life.run (life : Life SigningKey) (commands : List (SigningKey × List Nat)) : Life SigningKey :=
  commands.foldl (Life.call lib path) life

variable {lib path}

/-- A step of a call that found a file leaves the disk alone. -/
theorem Reading.step {disk : Disk} (hsome : disk.file.isSome = true) {pc : Pc SigningKey}
    (h : Reading lib path disk pc) (fresh : SigningKey) (size : Nat) :
    (step lib path fresh size disk pc).1 = disk ∧
      Reading lib path disk (step lib path fresh size disk pc).2 := by
  cases pc with
  | checkExists =>
    rw [Identity.step, if_pos hsome]
    exact ⟨rfl, trivial⟩
  | read => exact ⟨rfl, rfl⟩
  | done result => exact ⟨rfl, h⟩
  | createDir => exact h.elim
  | generate => exact h.elim
  | saveDir key => exact h.elim
  | encode key => exact h.elim
  | openFile key pem => exact h.elim
  | writeAll key offset rest => exact h.elim
  | chmod key => exact h.elim

variable (lib path) in
theorem reading_runCall {disk : Disk} (hsome : disk.file.isSome = true) (fresh : SigningKey)
    (sizes : List Nat) {pc : Pc SigningKey} (h : Reading lib path disk pc) :
    (runCall lib path fresh sizes (disk, pc)).1 = disk ∧
      Reading lib path disk (runCall lib path fresh sizes (disk, pc)).2 := by
  refine runCall_invariant path (fun other pc => other = disk ∧ Reading lib path disk pc) ?_ sizes
    (s := (disk, pc)) ⟨rfl, h⟩
  rintro _ pc size ⟨rfl, hreading⟩
  exact hreading.step hsome fresh size

/-- A call on a directory without a file, wherever it stops: an identity it returned is on
    the disk. -/
theorem load_of_generated {disk : Disk} (hnone : disk.file = none) {fresh : SigningKey}
    {sizes : List Nat} {key : SigningKey}
    (hreturned : (runCall lib path fresh sizes (disk, .checkExists)).2 = .done (.ok key)) :
    load lib path (runCall lib path fresh sizes (disk, .checkExists)).1 = .ok key := by
  obtain ⟨pem, hpem, -⟩ := lib.round_trip fresh
  have hgenerated := generated_of_done hpem hnone hreturned
  rw [hgenerated.2]
  exact load_complete hpem hgenerated.1

theorem isSome_of_load {disk : Disk} {key : SigningKey} (h : load lib path disk = .ok key) :
    disk.file.isSome = true := by
  cases hfile : disk.file with
  | none =>
    rw [load, hfile] at h
    cases h
  | some file => rfl

theorem Pc.mem_identity {pc : Pc SigningKey} {key : SigningKey} (h : key ∈ pc.identity) :
    pc = .done (.ok key) := by
  unfold Pc.identity at h
  split at h
  · rw [List.mem_singleton.mp h]
  · cases h

/-! ### Commands one after another -/

/-- The identities returned so far are the one on the disk. -/
def Life.Kept (lib : Pkcs8 SigningKey) (path : String) (life : Life SigningKey) : Prop :=
  ∀ key ∈ life.returned, load lib path life.disk = .ok key

/-- **One command**, wherever it stops. -/
theorem Life.Kept.call {life : Life SigningKey} (h : life.Kept lib path)
    (command : SigningKey × List Nat) : (life.call lib path command).Kept lib path := by
  intro key hkey
  cases hfile : life.disk.file with
  | some file =>
    have hsome : life.disk.file.isSome = true := by rw [hfile]; rfl
    have hstart : Reading lib path life.disk .checkExists := trivial
    obtain ⟨hdisk, hreading⟩ := reading_runCall lib path hsome command.1 command.2 hstart
    change load lib path (runCall lib path command.1 command.2 (life.disk, .checkExists)).1 =
      .ok key
    rw [hdisk]
    rcases List.mem_append.mp hkey with hold | hnew
    · exact h key hold
    · rw [Pc.mem_identity hnew] at hreading
      exact hreading.symm
  | none =>
    rcases List.mem_append.mp hkey with hold | hnew
    · have hsome := isSome_of_load (h key hold)
      rw [hfile] at hsome
      cases hsome
    · exact load_of_generated hfile (Pc.mem_identity hnew)

theorem Life.Kept.run {life : Life SigningKey} (h : life.Kept lib path)
    (commands : List (SigningKey × List Nat)) : (life.run lib path commands).Kept lib path := by
  induction commands generalizing life with
  | nil => exact h
  | cons command commands ih => exact ih (h.call command)

/-- **One identity for life.**  Commands run one after another on a config directory, whatever
    it holds at first, each with a fresh key of its own, each killed after any number of its
    steps or run to its end: all that return an identity return the same one, it is the one
    on the disk from then on, and every later command that runs to its end returns it. -/
theorem identity_for_life (lib : Pkcs8 SigningKey) (path : String) (disk : Disk)
    (commands : List (SigningKey × List Nat)) :
    (∀ key ∈ (Life.run lib path ⟨disk, []⟩ commands).returned,
      ∀ other ∈ (Life.run lib path ⟨disk, []⟩ commands).returned, key = other) ∧
    ∀ key ∈ (Life.run lib path ⟨disk, []⟩ commands).returned, ∀ fresh sizes,
      2 ≤ sizes.length →
        (runCall lib path fresh sizes
          ((Life.run lib path ⟨disk, []⟩ commands).disk, .checkExists)).2 = .done (.ok key) := by
  have hinit : Life.Kept lib path ⟨disk, []⟩ := fun _ h => by cases h
  have hkept := hinit.run commands
  constructor
  · intro key hkey other hother
    exact Except.ok.inj ((hkept key hkey).symm.trans (hkept other hother))
  · intro key hkey fresh sizes hsizes
    have hload := hkept key hkey
    rw [runCall_load (isSome_of_load hload) hsizes, hload]

/-- One command is killed before the key is written, the next right before the change of mode;
    two more run to their end. -/
def Sample.life : Life Bool :=
  Life.run Sample.pkcs8 "identity.pem" ⟨⟨false, none⟩, []⟩
    [(true, [0, 0]), (false, List.replicate 9 0), (true, [0, 0, 0]), (true, [0, 0])]

/-- All of them, and every later one, use the key of the second. -/
theorem identity_for_life_killed :
    Sample.life.returned = [false, false] ∧
    ∀ fresh sizes, 2 ≤ sizes.length →
      (runCall Sample.pkcs8 "identity.pem" fresh sizes (Sample.life.disk, .checkExists)).2 =
        .done (.ok false) := by
  have hreturned : Sample.life.returned = [false, false] := by decide +kernel
  refine ⟨hreturned, ?_⟩
  apply (identity_for_life Sample.pkcs8 "identity.pem" ⟨false, none⟩
    [(true, [0, 0]), (false, List.replicate 9 0), (true, [0, 0, 0]), (true, [0, 0])]).2 false
  change false ∈ Sample.life.returned
  rw [hreturned]
  exact List.mem_cons_self

/-! ### Calls that interleave -/

section Interleaving

variable {ι : Type} [DecidableEq ι] {keys : ι → SigningKey}

def System.AllReading (lib : Pkcs8 SigningKey) (path : String) (s : System ι SigningKey) : Prop :=
  ∀ i, Reading lib path s.disk (s.pc i)

variable (keys) in
theorem System.AllReading.next {s : System ι SigningKey} (h : s.AllReading lib path)
    (hsome : s.disk.file.isSome = true) (i : ι) (size : Nat) :
    (s.next lib path keys i size).disk = s.disk ∧
      (s.next lib path keys i size).AllReading lib path := by
  obtain ⟨hdisk, hreading⟩ := (h i).step hsome (keys i) size
  have hsame : (s.next lib path keys i size).disk = s.disk := hdisk
  refine ⟨hsame, ?_⟩
  intro j
  rw [hsame]
  by_cases hj : j = i
  · subst hj
    rw [s.next_pc_self]
    exact hreading
  · rw [s.next_pc_of_ne hj]
    exact h j

variable (keys) in
theorem System.AllReading.run {s : System ι SigningKey} (h : s.AllReading lib path)
    (hsome : s.disk.file.isSome = true) (schedule : List (ι × Nat)) :
    (s.run lib path keys schedule).disk = s.disk ∧
      (s.run lib path keys schedule).AllReading lib path := by
  induction schedule generalizing s with
  | nil => exact ⟨rfl, h⟩
  | cons turn schedule ih =>
    obtain ⟨hdisk, hnext⟩ := h.next keys hsome turn.1 turn.2
    obtain ⟨hrest, hreading⟩ := ih hnext (by rw [hdisk]; exact hsome)
    exact ⟨hrest.trans hdisk, hreading⟩

/-- **A stored identity is stable.**  The directory holds an identity that loads, and any
    number of calls have yet to start.  However their steps interleave, and wherever any of
    them dies, the directory stays as it is, every call that returns gives the stored
    identity, and a call that gets enough turns returns. -/
theorem stored_identity_stable {disk : Disk} {key : SigningKey}
    (hstored : load lib path disk = .ok key) (schedule : List (ι × Nat)) :
    (System.run lib path keys ⟨disk, fun _ => .checkExists⟩ schedule).disk = disk ∧
    (∀ i result, (System.run lib path keys ⟨disk, fun _ => .checkExists⟩ schedule).pc i =
      .done result → result = .ok key) ∧
    ∀ i, pemLength lib (keys i) + 8 ≤ schedule.countP (fun turn => turn.1 = i) →
      (System.run lib path keys ⟨disk, fun _ => .checkExists⟩ schedule).pc i =
        .done (.ok key) := by
  have hstart : System.AllReading lib path (⟨disk, fun _ => .checkExists⟩ : System ι SigningKey) :=
    fun _ => trivial
  obtain ⟨hdisk, hreading⟩ := hstart.run keys (isSome_of_load hstored) schedule
  have hresult : ∀ i result,
      (System.run lib path keys ⟨disk, fun _ => .checkExists⟩ schedule).pc i = .done result →
        result = .ok key := by
    intro i result hdone
    have hi := hreading i
    rw [hdone, hdisk] at hi
    exact hi.trans hstored
  refine ⟨hdisk, hresult, ?_⟩
  intro i hturns
  obtain ⟨result, hdone⟩ := System.run_done disk schedule i hturns
  rw [hdone, hresult i result hdone]

end Interleaving

/-- Two calls take turns on a directory with an identity: it stays as it is, and both return it. -/
theorem stored_identity_stable_two_calls :
    let s := System.run Sample.pkcs8 "identity.pem" id ⟨⟨true, some ⟨Sample.pem false, 0o600⟩⟩,
      fun _ => .checkExists⟩ (List.replicate 12 [(true, 0), (false, 0)]).flatten
    s.disk = ⟨true, some ⟨Sample.pem false, 0o600⟩⟩ ∧
      (∀ i result, s.pc i = .done result → result = .ok false) ∧
      s.pc true = .done (.ok false) ∧ s.pc false = .done (.ok false) := by
  have hstored : load Sample.pkcs8 "identity.pem" ⟨true, some ⟨Sample.pem false, 0o600⟩⟩ =
      .ok false := rfl
  obtain ⟨hdisk, hresults, hreturns⟩ := stored_identity_stable hstored
    (List.replicate 12 [(true, 0), (false, 0)]).flatten
  exact ⟨hdisk, hresults, hreturns true (by decide +kernel), hreturns false (by decide +kernel)⟩

end Life

end FurcateMesh.Identity
