import FurcateMesh.Library.Runs
import FurcateMesh.PeerUp
import FurcateMesh.TransferRoundTrip
import FurcateMesh.Identity

/-!
# Sharing a model: push, announce, serve, pull

`model_push` of `furcate-mesh-cli/src/main.rs` hashes a file, registers it with the
transfer service, declares the queryable and only then announces the model.  It then
serves until Ctrl-C and returns, and the process ends with its session and queryable.
The task that `TransferService::serve` spawns answers queries one after the other, while
files can still be registered and changed.

* An announcement is out only when its digest is being served, until the command ends;
  queries are answered once and in order (`announced_digest_served`).
* Put together with the wire format and the receiver: who decodes the announcement and
  pulls the digest gets the file that was pushed (`pushed_model_pulls`).

A `Share` is the process with what it has put on the mesh, and an `Action` a step of the
command, of the answering task or of somebody else, so a run is any interleaving of the
three.  A program point of the command (`PushPc`) holds the locals that are known by then,
and `PushInput` is what the environment answers to its operation, faults included.  The answer
to one query is a single step; what a file is while it is streamed is the matter of
`TransferStream`.

What somebody else does is to send queries, to register further artefacts in the running
process, and to change files.  Registering can replace the path of a digest but never takes a
digest out, so what was registered stays registered; a file that was changed after it was
hashed is served as it is now, and its receiver then finds another root hash.  That the
receiver gets the pushed file is therefore stated for runs that leave this file alone and do
not register its digest for another one (`Action.Calm`).

`PushMove` lists the effects of an operation, and the two invariants are proved from it:
`Share.Ready`, which holds in every interleaving, and `Share.Hosting`, which holds as long as
the actions are calm.
-/

namespace FurcateMesh.ModelShare

open Serde Transfer Wire
open Keys (keyFor)
open PeerUp (Put)
open ValueCode (nullsNonFinite)

structure PushArgs where
  name : String
  path : String
  format : String

/-- How `model_push` fails, by its context texts. -/
inductive PushError where
  | identity (error : Identity.IdentityError)
  | hashing (path : String) (error : TransferError)
  | openingSession (error : TransportError)
  | declaringQueryable (error : TransferError)
  | publishing (error : TransportError)
  | waitingForCtrlC (error : IoError)

/-- The next operation of `model_push`, with the locals that are known by then. -/
inductive PushPc where
  | loadIdentity
  | hash (peer : PeerId)
  | openSession (peer : PeerId) (digest : String)
  | createCacheDir (peer : PeerId) (digest : String)
  | register (peer : PeerId) (digest : String)
  | serve (peer : PeerId) (digest : String)
  | announce (peer : PeerId) (digest : String)
  | listening (peer : PeerId) (digest : String)
  | returned
  | failed (error : PushError)

inductive PushInput where
  | identity (result : Except Identity.IdentityError PeerId)
  | reads (result : Except IoError ReadSchedule)
  | session (result : Except TransportError Unit)
  | cacheDir (created : Bool)
  | proceed
  | queryable (result : Except String Unit)
  | publish (sinceEpoch : Option Nat) (put : Put)
  | ctrlC (result : Except IoError Unit)

/-- The process of `model_push` and what it has put on the mesh. -/
structure Share where
  pc : PushPc
  files : String → Option FileContent
  artefacts : ArtefactIndex
  declared : Bool
  -- the queries that reached the queryable, those not taken yet, and the replies to the others
  asked : List String
  waiting : List String
  answered : List (String × List Reply)
  published : List (String × Bytes)

inductive Action where
  | push (input : PushInput)
  -- somebody changes a file
  | edit (path : String) (content : Option FileContent)
  -- another artefact is registered while the queryable runs
  | hotAdd (digest path : String)
  | ask (key : String)
  | answer (env : SendEnv)

def Share.start (files : String → Option FileContent) : Share :=
  ⟨.loadIdentity, files, fun _ => none, false, [], [], [], []⟩

def announcement (args : PushArgs) (peer : PeerId) (digest : String) (sinceEpoch : Option Nat) :
    MeshEvent :=
  .modelAnnounce peer (.now sinceEpoch) args.name digest args.format

def Sample.accept : Put := fun _ _ => .ok ()

def Sample.args : PushArgs := ⟨"m", "ab", "gguf"⟩

/-- A push of the file `ab` runs through, and two queries come: one for the file, one for
    a digest that nobody hosts. -/
def Sample.actions : List Action :=
  [.push (.identity (.ok Transfer.Sample.peer)), .push (.reads (.ok fun _ => 1)),
    .push (.session (.ok ())), .push (.cacheDir true), .push .proceed, .push (.queryable (.ok ())),
    .ask (selector Transfer.Sample.digestAB), .push (.publish (some 0) Sample.accept),
    .ask "furcate/mesh/transfer/0", .answer (.quiet fun _ => 1), .answer (.quiet fun _ => 1)]

section Process

variable (json : Format) (blake : Blake3) (codec : HeaderCodec) (args : PushArgs)

/-- The command ends with an error, and its session and queryable go with it. -/
def Share.fail (s : Share) (error : PushError) : Share :=
  { s with pc := .failed error, declared := false }

/-- The samples that `Transport::publish` leaves on the mesh when the session accepts them. -/
def sampleOf (event : MeshEvent) : Option (String × Bytes) :=
  match keyFor event, publishPayload json event with
  | some key, .ok payload => some (key, payload)
  | _, _ => none

def pushStep (s : Share) (input : PushInput) : Option Share :=
  match s.pc, input with
  | .loadIdentity, .identity (.error e) => some (s.fail (.identity e))
  | .loadIdentity, .identity (.ok peer) => some { s with pc := .hash peer }
  | .hash _, .reads (.error e) => some (s.fail (.hashing args.path (.io e)))
  | .hash peer, .reads (.ok sched) =>
      match s.files args.path with
      | none => some (s.fail (.hashing args.path (.io .notFound)))
      | some file => some { s with pc := .openSession peer (rootHash blake sched file.bytes) }
  | .openSession _ _, .session (.error e) => some (s.fail (.openingSession e))
  | .openSession peer digest, .session (.ok ()) => some { s with pc := .createCacheDir peer digest }
  -- a failure is ignored: `.await.ok()`
  | .createCacheDir peer digest, .cacheDir _ => some { s with pc := .register peer digest }
  | .register peer digest, .proceed =>
      some { s with
        pc := .serve peer digest, artefacts := Transfer.register s.artefacts digest args.path }
  | .serve _ _, .queryable (.error e) =>
      some (s.fail (.declaringQueryable
        (.transport ("declare_queryable " ++ (TRANSFER_ROOT ++ "/*") ++ ": " ++ e))))
  | .serve peer digest, .queryable (.ok ()) =>
      some { s with pc := .announce peer digest, declared := true }
  | .announce peer digest, .publish sinceEpoch put =>
      match PeerUp.publish json put (announcement args peer digest sinceEpoch) with
      | some (.error e) => some (s.fail (.publishing e))
      | _ =>
          some { s with
            pc := .listening peer digest
            published := s.published ++
              (sampleOf json (announcement args peer digest sinceEpoch)).toList }
  | .listening _ _, .ctrlC (.error e) => some (s.fail (.waitingForCtrlC e))
  | .listening _ _, .ctrlC (.ok ()) => some { s with pc := .returned, declared := false }
  | _, _ => none

def Share.step (s : Share) : Action → Option Share
  | .push input => pushStep json blake args s input
  | .edit path content => some { s with files := Function.update s.files path content }
  | .hotAdd digest path => some { s with artefacts := Transfer.register s.artefacts digest path }
  | .ask key =>
      if s.declared then some { s with asked := s.asked ++ [key], waiting := s.waiting ++ [key] }
      else none
  | .answer env =>
      match s.declared, s.waiting with
      | true, key :: rest =>
          some { s with
            waiting := rest
            answered := s.answered ++ [(key, serveQuery blake codec env s.artefacts s.files key)] }
      | _, _ => none

def Share.run (s : Share) (actions : List Action) : Option Share :=
  actions.foldlM (Share.step json blake codec args) s

def PushPc.announced : PushPc → Bool
  | .listening _ _ => true
  | .returned => true
  | .failed (.waitingForCtrlC _) => true
  | _ => false

inductive PushMove (s : Share) : Share → Prop
  | fail (error : PushError) (hpc : s.pc.announced = false) : PushMove s (s.fail error)
  | identified (peer : PeerId) (hpc : s.pc = .loadIdentity) :
      PushMove s { s with pc := .hash peer }
  | hashed (peer : PeerId) (sched : ReadSchedule) (file : FileContent) (hpc : s.pc = .hash peer)
      (hfile : s.files args.path = some file) :
      PushMove s { s with pc := .openSession peer (rootHash blake sched file.bytes) }
  | opened (peer : PeerId) (digest : String) (hpc : s.pc = .openSession peer digest) :
      PushMove s { s with pc := .createCacheDir peer digest }
  | cacheDir (peer : PeerId) (digest : String) (hpc : s.pc = .createCacheDir peer digest) :
      PushMove s { s with pc := .register peer digest }
  | registered (peer : PeerId) (digest : String) (hpc : s.pc = .register peer digest) :
      PushMove s { s with
        pc := .serve peer digest, artefacts := Transfer.register s.artefacts digest args.path }
  | served (peer : PeerId) (digest : String) (hpc : s.pc = .serve peer digest) :
      PushMove s { s with pc := .announce peer digest, declared := true }
  | announced (peer : PeerId) (digest : String) (sinceEpoch : Option Nat)
      (hpc : s.pc = .announce peer digest) :
      PushMove s { s with
        pc := .listening peer digest
        published := s.published ++
          (sampleOf json (announcement args peer digest sinceEpoch)).toList }
  | interrupted (peer : PeerId) (digest : String) (error : IoError)
      (hpc : s.pc = .listening peer digest) : PushMove s (s.fail (.waitingForCtrlC error))
  | stopped (peer : PeerId) (digest : String) (hpc : s.pc = .listening peer digest) :
      PushMove s { s with pc := .returned, declared := false }

variable {json blake codec args}

theorem pushStep_move {s s' : Share} {input : PushInput}
    (h : pushStep json blake args s input = some s') : PushMove json blake args s s' := by
  -- the failures before the announcement
  have hfail : ∀ {pc : PushPc} (error : PushError), s.pc = pc → pc.announced = false →
      some (s.fail error) = some s' → PushMove json blake args s s' := by
    intro pc error hpc hearly heq
    cases heq
    exact .fail error (by rw [hpc]; exact hearly)
  unfold pushStep at h
  split at h
  · next hpc => exact hfail _ hpc rfl h
  · next peer hpc =>
    cases h
    exact .identified peer hpc
  · next hpc => exact hfail _ hpc rfl h
  · next peer sched hpc =>
    split at h
    · exact hfail _ hpc rfl h
    · next file hfile =>
      cases h
      exact .hashed peer sched file hpc hfile
  · next hpc => exact hfail _ hpc rfl h
  · next peer digest hpc =>
    cases h
    exact .opened peer digest hpc
  · next peer digest _ hpc =>
    cases h
    exact .cacheDir peer digest hpc
  · next peer digest hpc =>
    cases h
    exact .registered peer digest hpc
  · next hpc => exact hfail _ hpc rfl h
  · next peer digest hpc =>
    cases h
    exact .served peer digest hpc
  · next peer digest sinceEpoch put hpc =>
    split at h
    · exact hfail _ hpc rfl h
    · cases h
      exact .announced peer digest sinceEpoch hpc
  · next peer digest error hpc =>
    cases h
    exact .interrupted peer digest error hpc
  · next peer digest hpc =>
    cases h
    exact .stopped peer digest hpc
  · cases h

/-! ### Every interleaving -/

def PushPc.hosted : PushPc → Option String
  | .serve _ digest => some digest
  | .announce _ digest => some digest
  | .listening _ digest => some digest
  | _ => none

def PushPc.isServing : PushPc → Bool
  | .announce _ _ => true
  | .listening _ _ => true
  | _ => false

def PushPc.ended : PushPc → Bool
  | .returned => true
  | .failed _ => true
  | _ => false

variable (json args) in
/-- What holds in every interleaving: the task works through the queries in order, a
    registered digest stays registered, and only the announcement is published. -/
structure Share.Ready (s : Share) : Prop where
  fifo : s.answered.map Prod.fst ++ s.waiting = s.asked
  declared : s.declared = s.pc.isServing
  hosted : ∀ digest, s.pc.hosted = some digest → ∃ path, s.artefacts digest = some path
  published : ∀ sample ∈ s.published, ∃ peer digest sinceEpoch,
    sampleOf json (announcement args peer digest sinceEpoch) = some sample ∧
    s.pc.announced = true ∧ (s.pc.ended = false → s.pc = .listening peer digest)

theorem Share.Ready.start (files : String → Option FileContent) :
    (Share.start files).Ready json args where
  fifo := rfl
  declared := rfl
  hosted _ h := by cases h
  published _ h := by cases h

theorem Share.Ready.published_eq_nil {s : Share} (hready : s.Ready json args)
    (hpc : s.pc.announced = false) : s.published = [] := by
  rw [List.eq_nil_iff_forall_not_mem]
  intro sample hmem
  obtain ⟨_, _, _, _, hannounced, _⟩ := hready.published sample hmem
  rw [hpc] at hannounced
  cases hannounced

/-- An operation before the file is registered. -/
theorem Share.Ready.advance {s : Share} (hready : s.Ready json args) {pc' : PushPc}
    (hearly : s.pc.announced = false) (hserving : s.pc.isServing = false)
    (hhosted : pc'.hosted = none) (hserving' : pc'.isServing = false) :
    Share.Ready json args { s with pc := pc' } := by
  refine ⟨hready.fifo, ?_, fun digest h => ?_, fun sample h => ?_⟩
  · exact (hready.declared.trans hserving).trans hserving'.symm
  · rw [hhosted] at h
    cases h
  · rw [hready.published_eq_nil hearly] at h
    cases h

/-- The end of the command, after the announcement. -/
theorem Share.Ready.stop {s : Share} (hready : s.Ready json args) {pc' : PushPc}
    (hannounced : pc'.announced = true) (hended : pc'.ended = true)
    (hserving : pc'.isServing = false) (hhosted : pc'.hosted = none) :
    Share.Ready json args { s with pc := pc', declared := false } := by
  refine ⟨hready.fifo, hserving.symm, fun digest h => ?_, fun sample h => ?_⟩
  · rw [hhosted] at h
    cases h
  · obtain ⟨peer, digest, sinceEpoch, hsample, _, _⟩ := hready.published sample h
    refine ⟨peer, digest, sinceEpoch, hsample, hannounced, fun hlive => ?_⟩
    rw [hended] at hlive
    cases hlive

theorem Share.Ready.push {s s' : Share} (hmove : PushMove json blake args s s')
    (hready : s.Ready json args) : s'.Ready json args := by
  -- what is not yet announced is not published
  have hnil : ∀ {pc : PushPc}, s.pc = pc → pc.announced = false → s.published = [] := by
    intro pc hpc hearly
    exact hready.published_eq_nil (by rw [hpc]; exact hearly)
  cases hmove with
  | fail error hpc =>
    refine ⟨hready.fifo, rfl, fun digest h => ?_, fun sample h => ?_⟩
    · cases h
    · rw [Share.fail, hready.published_eq_nil hpc] at h
      cases h
  | identified peer hpc | hashed peer _ _ hpc | opened peer _ hpc | cacheDir peer _ hpc =>
    exact hready.advance (by rw [hpc]; rfl) (by rw [hpc]; rfl) rfl rfl
  | registered peer digest hpc =>
    refine ⟨hready.fifo, ?_, fun other h => ?_, fun sample h => ?_⟩
    · exact hready.declared.trans (by rw [hpc]; rfl)
    · cases h
      exact ⟨args.path, Function.update_self _ _ _⟩
    · rw [hnil hpc rfl] at h
      cases h
  | served peer digest hpc =>
    refine ⟨hready.fifo, rfl, fun other h => ?_, fun sample h => ?_⟩
    · cases h
      exact hready.hosted digest (by rw [hpc]; rfl)
    · rw [hnil hpc rfl] at h
      cases h
  | announced peer digest sinceEpoch hpc =>
    refine ⟨hready.fifo, hready.declared.trans (by rw [hpc]; rfl), fun other h => ?_,
      fun sample h => ?_⟩
    · cases h
      exact hready.hosted digest (by rw [hpc]; rfl)
    · simp only [hnil hpc rfl, List.nil_append, Option.mem_toList] at h
      exact ⟨peer, digest, sinceEpoch, h, rfl, fun _ => rfl⟩
  | interrupted | stopped => exact hready.stop rfl rfl rfl rfl

theorem Share.Ready.step {s s' : Share} {action : Action}
    (h : s.step json blake codec args action = some s') (hready : s.Ready json args) :
    s'.Ready json args := by
  cases action with
  | push input => exact hready.push (pushStep_move h)
  | edit path content =>
    cases h
    exact ⟨hready.fifo, hready.declared, hready.hosted, hready.published⟩
  | hotAdd digest path =>
    cases h
    refine ⟨hready.fifo, hready.declared, fun other hother => ?_, hready.published⟩
    by_cases heq : other = digest
    · subst heq
      exact ⟨path, Function.update_self _ _ _⟩
    · obtain ⟨old, hold⟩ := hready.hosted other hother
      exact ⟨old, (Function.update_of_ne heq _ _).trans hold⟩
  | ask key =>
    simp only [Share.step] at h
    split at h
    · cases h
      refine ⟨?_, hready.declared, hready.hosted, hready.published⟩
      rw [← hready.fifo, List.append_assoc]
    · cases h
  | answer env =>
    simp only [Share.step] at h
    split at h
    · next key rest hdeclared hwaiting =>
      cases h
      refine ⟨?_, hready.declared, hready.hosted, hready.published⟩
      rw [← hready.fifo, hwaiting, List.map_append, List.append_assoc]
      rfl
    · cases h

theorem Share.ready_of_run {files : String → Option FileContent} {s : Share}
    {actions : List Action} (h : (Share.start files).run json blake codec args actions = some s) :
    s.Ready json args :=
  Runs.foldlM_invariant (Share.Ready json args) (fun _ hstep hready => hready.step hstep) h
    (.start files)

theorem serveQuery_selector {env : SendEnv} {artefacts : ArtefactIndex}
    {files : String → Option FileContent} {digest path : String}
    (hpath : artefacts digest = some path) :
    serveQuery blake codec env artefacts files (selector digest) =
      (streamFileChunks blake codec env files path).1 := by
  rw [serveQuery, selector, stripPrefix_append]
  simp only [hpath]

variable (json blake codec args)

/-- **An announced digest is being served.**  In every interleaving of `model_push`, the
    task that answers queries, hot-added artefacts and changes to the files: queries are
    answered once each and in order.  If an announcement is out, then until the command ends
    the queryable is up, the digest it names is registered, and a query for it is answered
    from a file.  The queryable is gone when the command has ended, and a push that failed
    has announced nothing unless it failed in waiting for Ctrl-C. -/
theorem announced_digest_served {files : String → Option FileContent} {s : Share}
    {actions : List Action}
    (hrun : (Share.start files).run json blake codec args actions = some s) :
    s.answered.map Prod.fst ++ s.waiting = s.asked ∧
      (∀ sample ∈ s.published, ∃ peer digest sinceEpoch,
        sampleOf json (announcement args peer digest sinceEpoch) = some sample ∧
        (s.pc.ended = false → s.declared = true ∧ ∃ path, s.artefacts digest = some path ∧
          ∀ env, serveQuery blake codec env s.artefacts s.files (selector digest) =
            (streamFileChunks blake codec env s.files path).1)) ∧
      (s.pc.ended = true → s.declared = false) ∧
      ∀ error, s.pc = .failed error → (∀ e, error ≠ .waitingForCtrlC e) → s.published = [] := by
  have hready := Share.ready_of_run hrun
  refine ⟨hready.fifo, fun sample hmem => ?_, fun hended => ?_, fun error hpc hother => ?_⟩
  · obtain ⟨peer, digest, sinceEpoch, hsample, _, hlistening⟩ := hready.published sample hmem
    refine ⟨peer, digest, sinceEpoch, hsample, fun hlive => ?_⟩
    have hpc := hlistening hlive
    obtain ⟨path, hpath⟩ := hready.hosted digest (by rw [hpc]; rfl)
    exact ⟨hready.declared.trans (by rw [hpc]; rfl), path, hpath,
      fun env => serveQuery_selector hpath⟩
  · rw [hready.declared]
    cases hpc : s.pc with
    | returned | failed => rfl
    | _ => rw [hpc] at hended; cases hended
  · apply hready.published_eq_nil
    rw [hpc]
    cases error with
    | waitingForCtrlC e => exact absurd rfl (hother e)
    | _ => rfl

/-- The push of `ab`: both queries are answered, the announcement is out and its digest served;
    after Ctrl-C the queryable is gone and the announcement is still out. -/
theorem announced_digest_served_ab :
    (∃ s, (Share.start Transfer.Sample.files).run nullsNonFinite Transfer.Sample.blake3
        Transfer.Sample.codec Sample.args Sample.actions = some s ∧
      s.answered.map Prod.fst ++ s.waiting = s.asked ∧ s.asked.length = 2 ∧
      ∃ sample ∈ s.published, ∃ peer digest sinceEpoch path,
        sampleOf nullsNonFinite (announcement Sample.args peer digest sinceEpoch) = some sample ∧
        s.declared = true ∧ s.artefacts digest = some path) ∧
    ∃ s, (Share.start Transfer.Sample.files).run nullsNonFinite Transfer.Sample.blake3
        Transfer.Sample.codec Sample.args (Sample.actions ++ [.push (.ctrlC (.ok ()))]) = some s ∧
      s.declared = false ∧ s.published.length = 1 := by
  constructor
  · have hserved := announced_digest_served nullsNonFinite Transfer.Sample.blake3
      Transfer.Sample.codec Sample.args
      (show (Share.start Transfer.Sample.files).run _ _ _ _ Sample.actions = some _ from rfl)
    obtain ⟨peer, digest, sinceEpoch, hsample, hlive⟩ := hserved.2.1 _ (.head _)
    obtain ⟨hdeclared, path, hpath, _⟩ := hlive rfl
    exact ⟨_, rfl, hserved.1, rfl, _, .head _, peer, digest, sinceEpoch, path, hsample, hdeclared,
      hpath⟩
  · have hserved := announced_digest_served nullsNonFinite Transfer.Sample.blake3
      Transfer.Sample.codec Sample.args
      (show (Share.start Transfer.Sample.files).run _ _ _ _
        (Sample.actions ++ [.push (.ctrlC (.ok ()))]) = some _ from rfl)
    exact ⟨_, rfl, hserved.2.2.1 rfl, rfl⟩

/-! ### Pushing, announcing and pulling one file -/

/-- The action does not change the pushed file, does not register its digest for another
    one, and answers without faults. -/
def Action.Calm (file : FileContent) : Action → Prop
  | .edit path _ => path ≠ args.path
  | .hotAdd digest path => digest = chunkHash blake file.bytes → path = args.path
  | .answer env => ∃ sched, env = .quiet sched
  | _ => True

def PushPc.digest : PushPc → Option String
  | .openSession _ digest => some digest
  | .createCacheDir _ digest => some digest
  | .register _ digest => some digest
  | .serve _ digest => some digest
  | .announce _ digest => some digest
  | .listening _ digest => some digest
  | _ => none

/-- What holds as long as the file stays as it is: its digest is the one announced, and
    queries for it are answered with an honest stream of it. -/
structure Share.Hosting (file : FileContent) (s : Share) : Prop where
  unchanged : s.files args.path = some file
  digest : ∀ digest, s.pc.digest = some digest → digest = chunkHash blake file.bytes
  hosted : s.pc.hosted.isSome → s.artefacts (chunkHash blake file.bytes) = some args.path
  honest : ∀ entry ∈ s.answered, entry.1 = selector (chunkHash blake file.bytes) →
    HonestStream blake codec file.bytes entry.2
  published : ∀ sample ∈ s.published, ∃ peer sinceEpoch,
    sampleOf json (announcement args peer (chunkHash blake file.bytes) sinceEpoch) = some sample

variable {json blake codec args}

theorem PushPc.isSome_hosted {pc : PushPc} (h : pc.isServing = true) : pc.hosted.isSome := by
  cases pc with
  | announce | listening => rfl
  | _ => cases h

theorem Share.Hosting.push {file : FileContent} {s s' : Share}
    (hmove : PushMove json blake args s s') (hhosting : s.Hosting json blake codec args file) :
    s'.Hosting json blake codec args file := by
  obtain ⟨hfile, hdigest, hhosted, hhonest, hpublished⟩ := hhosting
  cases hmove with
  | fail | identified | interrupted | stopped =>
    exact ⟨hfile, fun _ h => (by cases h), fun h => (by cases h), hhonest, hpublished⟩
  | hashed peer sched other hpc hother =>
    refine ⟨hfile, fun digest h => ?_, fun h => (by cases h), hhonest, hpublished⟩
    rw [hfile, Option.some.injEq] at hother
    cases h
    rw [rootHash_eq_chunkHash, hother]
  | opened peer digest hpc | cacheDir peer digest hpc =>
    exact ⟨hfile, fun other h => hdigest other (by rw [hpc]; exact h), fun h => (by cases h),
      hhonest, hpublished⟩
  | registered peer digest hpc =>
    have hsame := hdigest digest (by rw [hpc]; rfl)
    refine ⟨hfile, fun other h => ?_, fun _ => ?_, hhonest, hpublished⟩
    · cases h
      exact hsame
    · rw [← hsame]
      exact Function.update_self _ _ _
  | served peer digest hpc =>
    exact ⟨hfile, fun other h => hdigest other (by rw [hpc]; exact h),
      fun _ => hhosted (by rw [hpc]; rfl), hhonest, hpublished⟩
  | announced peer digest sinceEpoch hpc =>
    refine ⟨hfile, fun other h => hdigest other (by rw [hpc]; exact h),
      fun _ => hhosted (by rw [hpc]; rfl), hhonest, fun sample h => ?_⟩
    rcases List.mem_append.mp h with hold | hnew
    · exact hpublished sample hold
    · obtain rfl := hdigest digest (by rw [hpc]; rfl)
      exact ⟨peer, sinceEpoch, Option.mem_toList.mp hnew⟩

theorem Share.Hosting.step {file : FileContent} {s s' : Share} {action : Action}
    (hcalm : action.Calm blake args file) (h : s.step json blake codec args action = some s')
    (hready : s.Ready json args) (hhosting : s.Hosting json blake codec args file) :
    s'.Hosting json blake codec args file := by
  obtain ⟨hfile, hdigest, hhosted, hhonest, hpublished⟩ := hhosting
  cases action with
  | push input =>
    exact Share.Hosting.push (pushStep_move h) ⟨hfile, hdigest, hhosted, hhonest, hpublished⟩
  | edit path content =>
    cases h
    exact ⟨(Function.update_of_ne (Ne.symm hcalm) _ _).trans hfile, hdigest, hhosted, hhonest,
      hpublished⟩
  | hotAdd digest path =>
    cases h
    refine ⟨hfile, hdigest, fun hsome => ?_, hhonest, hpublished⟩
    by_cases heq : digest = chunkHash blake file.bytes
    · rw [← heq, ← hcalm heq]
      exact Function.update_self _ _ _
    · exact (Function.update_of_ne (Ne.symm heq) _ _).trans (hhosted hsome)
  | ask key =>
    simp only [Share.step] at h
    split at h
    · cases h
      exact ⟨hfile, hdigest, hhosted, hhonest, hpublished⟩
    · cases h
  | answer env =>
    simp only [Share.step] at h
    split at h
    · next key rest hdeclared hwaiting =>
      cases h
      refine ⟨hfile, hdigest, hhosted, fun entry hmem hkey => ?_, hpublished⟩
      rcases List.mem_append.mp hmem with hold | hnew
      · exact hhonest entry hold hkey
      · rw [List.mem_singleton.mp hnew] at hkey ⊢
        obtain ⟨sched, rfl⟩ := hcalm
        -- the queryable is up, so the file is registered
        have hserving : s.pc.isServing = true := hready.declared.symm.trans hdeclared
        have hregistered := hhosted (PushPc.isSome_hosted hserving)
        have hindex : s.artefacts =
            Transfer.register s.artefacts (chunkHash blake file.bytes) args.path :=
          (Function.update_eq_self_iff.mpr hregistered.symm).symm
        have hkey' : key = selector (chunkHash blake file.bytes) := hkey
        rw [hkey', hindex]
        exact serveQuery_honest blake codec sched s.artefacts hfile _
    · cases h

theorem Share.hosting_of_run {files : String → Option FileContent} {file : FileContent} {s : Share}
    {actions : List Action} (hfile : files args.path = some file)
    (hrun : (Share.start files).run json blake codec args actions = some s)
    (hcalm : ∀ action ∈ actions, action.Calm blake args file) :
    s.Ready json args ∧ s.Hosting json blake codec args file := by
  refine Runs.foldlM_invariant
    (fun s => s.Ready json args ∧ s.Hosting json blake codec args file)
    (fun hmem hstep hinv => ⟨hinv.1.step hstep, hinv.2.step (hcalm _ hmem) hstep hinv.1⟩) hrun
    ⟨.start files, hfile, ?_, ?_, ?_, ?_⟩
  · intro digest h
    cases h
  · intro h
    cases h
  · intro entry h
    cases h
  · intro sample h
    cases h

/-- A subscriber decodes what was published. -/
theorem decodeSample_sampleOf {reread : Binary64 → Option Binary64} {format : Decimal reread}
    {event : MeshEvent} {sample : String × Bytes} (h : sampleOf format event = some sample)
    (hback : readsBack reread event = true) :
    decodeSample format sample.1 sample.2 = .ok event := by
  unfold sampleOf at h
  split at h
  · next key payload hkey hpayload =>
    cases h
    obtain ⟨payload', hpublished, hdecode⟩ := json_relay_of_readsBack format key hback
    rw [hpayload, Except.ok.injEq] at hpublished
    rw [hpublished]
    exact hdecode
  · cases h

end Process

section Pushed

variable {reread : Binary64 → Option Binary64} (json : Decimal reread) (blake : Blake3)
  (codec : HeaderCodec) (args : PushArgs)

/-- **Push, announce, serve and pull.**  A file that is not empty, fits the receiver's file
    system and stays as it is has been pushed, and its announcement is out.  A subscriber
    decodes from it the name, the format and a digest; and whenever the queryable has answered
    a query for that digest, a pull of the digest that gets those replies, in any order and
    with any duplications, and has nothing cached, returns its path with the contents of the
    pushed file. -/
theorem pushed_model_pulls (host : Host) {files : String → Option FileContent}
    {file : FileContent} (hfile : files args.path = some file) (hne : file.bytes ≠ [])
    (hfits : file.bytes.length ≤ host.maxFileSize) {s : Share} {actions : List Action}
    (hrun : (Share.start files).run json blake codec args actions = some s)
    (hcalm : ∀ action ∈ actions, action.Calm blake args file) {sample : String × Bytes}
    (hsample : sample ∈ s.published) :
    ∃ peer clock digest, decodeSample json sample.1 sample.2 =
        .ok (.modelAnnounce peer clock args.name digest args.format) ∧
      ∀ replies, (selector digest, replies) ∈ s.answered →
        ∀ (call : PullCall) (received : List Reply) (disk : Disk), call.digest = digest →
          call.replies = .ok received → (∀ reply, reply ∈ received ↔ reply ∈ replies) →
          host.pathExists disk digest = false →
          (pullWithOptions host blake codec call disk).2 = .done (.ok digest) ∧
            host.readFile (pullWithOptions host blake codec call disk).1 digest =
              some file.bytes := by
  obtain ⟨_, hhosting⟩ := Share.hosting_of_run hfile hrun hcalm
  obtain ⟨peer, sinceEpoch, hsampleOf⟩ := hhosting.published sample hsample
  refine ⟨peer, .now sinceEpoch, chunkHash blake file.bytes, decodeSample_sampleOf hsampleOf rfl,
    ?_⟩
  intro replies hanswered call received disk hdigest hreplies hsame hfresh
  have hhonest : HonestStream blake codec file.bytes replies := hhosting.honest _ hanswered rfl
  rw [← hdigest] at hfresh ⊢
  refine (pull_ok_iff_corrected host hhonest hne (fun reply => (hsame reply).mpr) hdigest hfresh
    hreplies).mpr ⟨fun reply hmem => ?_, hhonest.corrected host fun reply => (hsame reply).mp⟩
  exact hhonest.isSome_stored host hfits ((hsame reply).mp hmem)

theorem pushed_model_pulls_ab :
    (pullWithOptions Transfer.Sample.host Transfer.Sample.blake3 Transfer.Sample.codec
        (Transfer.Sample.call Transfer.Sample.digestAB Transfer.Sample.shuffled)
        Transfer.Sample.disk).2 = .done (.ok Transfer.Sample.digestAB) ∧
      Transfer.Sample.host.readFile (pullWithOptions Transfer.Sample.host Transfer.Sample.blake3
        Transfer.Sample.codec (Transfer.Sample.call Transfer.Sample.digestAB
          Transfer.Sample.shuffled) Transfer.Sample.disk).1 Transfer.Sample.digestAB =
        some Transfer.Sample.twoBytes.bytes := by
  have hcalm : ∀ action ∈ Sample.actions,
      action.Calm Transfer.Sample.blake3 Sample.args Transfer.Sample.twoBytes := by
    simp only [Sample.actions, List.mem_cons, List.not_mem_nil, or_false, forall_eq_or_imp,
      forall_eq, Action.Calm, true_and]
    exact ⟨⟨_, rfl⟩, ⟨_, rfl⟩⟩
  have hdigest : rootHash Transfer.Sample.blake3 (fun _ => 1) [0x61, 0x62] =
      Transfer.Sample.digestAB := by decide +kernel
  have hsent : sampleOf nullsNonFinite (announcement Sample.args Transfer.Sample.peer
      (rootHash Transfer.Sample.blake3 (fun _ => 1) [0x61, 0x62]) (some 0)) = some _ := rfl
  obtain ⟨peer, clock, digest, hdecode, hpull⟩ := pushed_model_pulls nullsNonFinite
    Transfer.Sample.blake3 Transfer.Sample.codec Sample.args Transfer.Sample.host
    (show Transfer.Sample.files Sample.args.path = some Transfer.Sample.twoBytes from rfl)
    (by decide) Transfer.Sample.twoBytes.bounded
    (show (Share.start Transfer.Sample.files).run _ _ _ _ Sample.actions = some _ from rfl) hcalm
    (.head _)
  rw [decodeSample_sampleOf hsent rfl, hdigest] at hdecode
  cases hdecode
  have hserved : ∀ r, r ∈ Transfer.Sample.shuffled ↔
      r ∈ Transfer.Sample.served Transfer.Sample.digestAB "ab" := by
    intro r
    rw [Transfer.Sample.served_ab]
    simp only [Transfer.Sample.shuffled, List.mem_cons, List.not_mem_nil, or_false]
    exact ⟨fun h => h.elim Or.inr id, fun h => h.elim (fun h => .inr (.inl h)) .inl⟩
  rw [← hdigest] at hserved
  exact hpull _ (.head _) _ _ Transfer.Sample.disk rfl rfl hserved (by decide +kernel)

end Pushed

end FurcateMesh.ModelShare
