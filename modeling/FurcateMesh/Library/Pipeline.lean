import FurcateMesh.Library.Runs

/-!
# A forwarding task between two queues

A task takes items from a source, transforms each one and sends it into a bounded
queue, from which a consumer receives.  Items arrive at any time; the task, the
source and the consumer take their steps in any order.  A send waits while the queue
is full and fails once the consumer has gone.

While the consumer is attached nothing is lost, repeated or reordered (`Flow`), and the
task and the consumer between them get everything that has arrived across in a known
number of steps (`State.backlog`).

The task waits for an item, holds one that it has transformed and not sent yet, or has
exited.  It exits when the source has closed and is empty, or when a send fails; it notices
neither the end of the consumer nor anything else while it waits for an item, so a task
whose consumer has gone takes one more item before it ends (`gone_run`), and without one it
stays (`waits_of_gone`).

A run is a fold of `step`, which refuses an action that is not possible.  `step_cases` lists
what the steps do, and every other proof splits on it.
-/

namespace Pipeline

variable {α β : Type*}

inductive Worker (β : Type*) where
  | waiting
  | sending (item : β)
  | exited

def Worker.held : Worker β → List β
  | .sending item => [item]
  | _ => []

structure State (α β : Type*) where
  -- everything that has come in, and what of it has not been taken yet
  arrived : List α
  pending : List α
  closed : Bool
  worker : Worker β
  queue : List β
  attached : Bool
  received : List β

def State.opened : State α β := ⟨[], [], false, .waiting, [], true, []⟩

inductive Action (α : Type*) where
  -- the source
  | arrive (item : α)
  | close
  -- the task
  | take
  | push
  | refuse
  | finish
  -- the consumer
  | receive
  | detach

/-- Steps of the task and the consumer that move an item on. -/
def Action.isMove : Action α → Bool
  | .take | .push | .receive => true
  | _ => false

def Action.isTake : Action α → Bool
  | .take => true
  | _ => false

def Action.isArrival : Action α → Bool
  | .arrive _ | .close => true
  | _ => false

section Step

variable (f : α → β) (capacity : Nat)

def step (s : State α β) : Action α → Option (State α β)
  | .arrive item =>
      match s.worker, s.closed with
      | .exited, _ => none
      | _, true => none
      | _, false => some { s with arrived := s.arrived ++ [item], pending := s.pending ++ [item] }
  | .close => if s.closed then none else some { s with closed := true }
  | .take =>
      match s.worker, s.pending with
      | .waiting, item :: rest => some { s with pending := rest, worker := .sending (f item) }
      | _, _ => none
  | .push =>
      match s.worker with
      | .sending item =>
          if s.attached = true ∧ s.queue.length < capacity then
            some { s with worker := .waiting, queue := s.queue ++ [item] }
          else none
      | _ => none
  | .refuse =>
      match s.worker, s.attached with
      | .sending _, false => some { s with worker := .exited }
      | _, _ => none
  | .finish =>
      match s.worker, s.pending, s.closed with
      | .waiting, [], true => some { s with worker := .exited }
      | _, _, _ => none
  | .receive =>
      match s.attached, s.queue with
      | true, item :: rest => some { s with queue := rest, received := s.received ++ [item] }
      | _, _ => none
  | .detach => if s.attached then some { s with attached := false, queue := [] } else none

def run (s : State α β) (actions : List (Action α)) : Option (State α β) :=
  actions.foldlM (step f capacity) s

/-- What the steps can do, with the condition of each. -/
inductive Step : State α β → Action α → State α β → Prop
  | arrive {s : State α β} (item : α) (hopen : s.closed = false) :
      Step s (.arrive item)
        { s with arrived := s.arrived ++ [item], pending := s.pending ++ [item] }
  | close {s : State α β} (hopen : s.closed = false) : Step s .close { s with closed := true }
  | take {s : State α β} {item : α} {rest : List α} (hworker : s.worker = .waiting)
      (hpending : s.pending = item :: rest) :
      Step s .take { s with pending := rest, worker := .sending (f item) }
  | push {s : State α β} {item : β} (hworker : s.worker = .sending item)
      (hattached : s.attached = true) (hroom : s.queue.length < capacity) :
      Step s .push { s with worker := .waiting, queue := s.queue ++ [item] }
  | refuse {s : State α β} {item : β} (hworker : s.worker = .sending item)
      (hattached : s.attached = false) : Step s .refuse { s with worker := .exited }
  | finish {s : State α β} (hworker : s.worker = .waiting) (hpending : s.pending = [])
      (hclosed : s.closed = true) : Step s .finish { s with worker := .exited }
  | receive {s : State α β} {item : β} {rest : List β} (hattached : s.attached = true)
      (hqueue : s.queue = item :: rest) :
      Step s .receive { s with queue := rest, received := s.received ++ [item] }
  | detach {s : State α β} (hattached : s.attached = true) :
      Step s .detach { s with attached := false, queue := [] }

variable {f capacity}

theorem step_cases {s s' : State α β} {action : Action α}
    (h : step f capacity s action = some s') : Step f capacity s action s' := by
  cases action <;> simp only [step] at h <;> split at h <;> try cases h
  · next hopen _ => exact .arrive _ hopen
  · next hopen => exact .close (by simpa using hopen)
  · next hworker hpending => exact .take hworker hpending
  · next item hworker =>
    split at h
    · next hroom =>
      cases h
      exact .push hworker hroom.1 hroom.2
    · cases h
  · next hworker hattached => exact .refuse hworker hattached
  · next hworker hpending hclosed => exact .finish hworker hpending hclosed
  · next hattached hqueue => exact .receive hattached hqueue
  · next hattached => exact .detach hattached

/-! ### What has arrived is somewhere -/

/-- Nothing is lost, repeated or reordered before the consumer goes, and the queue
    keeps its bound. -/
structure Flow (f : α → β) (capacity : Nat) (s : State α β) : Prop where
  bounded : s.queue.length ≤ capacity
  order : ∃ lost, s.arrived.map f = s.received ++ lost ++ s.worker.held ++ s.pending.map f ∧
    (s.attached = true → lost = s.queue)
  ended : s.worker = .exited → s.attached = true → s.closed = true ∧ s.pending = []

theorem Flow.opened (f : α → β) (capacity : Nat) : Flow f capacity State.opened where
  bounded := Nat.zero_le _
  order := ⟨[], rfl, fun _ => rfl⟩
  ended h := by cases h

theorem Flow.step {s s' : State α β} {action : Action α} (hstep : Step f capacity s action s')
    (hflow : Flow f capacity s) : Flow f capacity s' := by
  obtain ⟨hbound, ⟨lost, horder, hlost⟩, hended⟩ := hflow
  cases hstep with
  | arrive item hopen =>
    refine ⟨hbound, ⟨lost, ?_, hlost⟩, fun hexit hattached => ?_⟩
    · simp only [List.map_append, horder, List.append_assoc]
    · have hclosed := (hended hexit hattached).1
      rw [hopen] at hclosed
      cases hclosed
  | close hopen =>
    exact ⟨hbound, ⟨lost, horder, hlost⟩, fun hexit hattached => ⟨rfl, (hended hexit hattached).2⟩⟩
  | take hworker hpending =>
    refine ⟨hbound, ⟨lost, ?_, hlost⟩, fun h => by cases h⟩
    rw [horder, hworker, hpending]
    simp only [Worker.held, List.append_nil, List.map_cons, List.append_assoc,
      List.singleton_append]
  | push hworker hattached hroom =>
    refine ⟨?_, ⟨_, ?_, fun _ => rfl⟩, fun h => by cases h⟩
    · simp only [List.length_append, List.length_singleton]
      exact hroom
    · rw [horder, hworker, hlost hattached]
      simp only [Worker.held, List.append_nil, List.append_assoc]
  | @refuse item hworker hattached =>
    refine ⟨hbound, ⟨lost ++ [item], ?_, fun h => ?_⟩, fun _ h => ?_⟩
    · rw [horder, hworker]
      simp only [Worker.held, List.append_nil, List.append_assoc]
    · rw [hattached] at h
      cases h
    · rw [hattached] at h
      cases h
  | finish hworker hpending hclosed =>
    refine ⟨hbound, ⟨lost, ?_, hlost⟩, fun _ _ => ⟨hclosed, hpending⟩⟩
    rw [horder, hworker]
    rfl
  | @receive item rest hattached hqueue =>
    refine ⟨?_, ⟨rest, ?_, fun _ => rfl⟩, hended⟩
    · rw [hqueue] at hbound
      exact Nat.le_of_succ_le hbound
    · rw [horder, hlost hattached, hqueue]
      simp only [List.append_assoc, List.singleton_append]
  | detach hattached =>
    exact ⟨Nat.zero_le _, ⟨lost, horder, fun h => by cases h⟩, fun _ h => by cases h⟩

theorem Flow.run {s s' : State α β} {actions : List (Action α)}
    (h : run f capacity s actions = some s') (hflow : Flow f capacity s) : Flow f capacity s' :=
  Runs.foldlM_invariant (Flow f capacity) (fun _ hstep hflow => hflow.step (step_cases hstep)) h
    hflow

theorem Flow.received_prefix {s : State α β} (hflow : Flow f capacity s) :
    s.received <+: s.arrived.map f := by
  obtain ⟨lost, horder, _⟩ := hflow.order
  exact ⟨lost ++ s.worker.held ++ s.pending.map f, by rw [horder]; simp only [List.append_assoc]⟩

/-- A task that has left stays away, and the queue only drains. -/
theorem exited_step {s s' : State α β} {action : Action α} (hstep : Step f capacity s action s')
    (hworker : s.worker = .exited) (hqueue : s.queue = []) :
    s'.worker = .exited ∧ s'.queue = [] := by
  cases hstep with
  | take hwaiting _ => rw [hworker] at hwaiting; cases hwaiting
  | push hsending _ _ => rw [hworker] at hsending; cases hsending
  | receive _ hsome => rw [hqueue] at hsome; cases hsome
  | finish hwaiting _ _ => rw [hworker] at hwaiting; cases hwaiting
  | refuse hsending _ => rw [hworker] at hsending; cases hsending
  | detach _ => exact ⟨hworker, rfl⟩
  | _ => exact ⟨hworker, hqueue⟩

/-! ### Getting everything across -/

/-- The moves that what has arrived still needs: take, push and receive. -/
def State.backlog (s : State α β) : Nat :=
  3 * s.pending.length + 2 * s.worker.held.length + s.queue.length

/-- A move uses up one unit of the backlog. -/
theorem backlog_move {s s' : State α β} {action : Action α} (hstep : Step f capacity s action s')
    (hmove : action.isMove = true) :
    s'.backlog + 1 = s.backlog ∧ s'.arrived = s.arrived ∧ s'.attached = s.attached := by
  cases hstep with
  | take hworker hpending =>
    refine ⟨?_, rfl, rfl⟩
    simp only [State.backlog, hworker, hpending, Worker.held, List.length_cons, List.length_nil]
    omega
  | push hworker hattached hroom =>
    refine ⟨?_, rfl, rfl⟩
    simp only [State.backlog, hworker, Worker.held, List.length_append, List.length_cons,
      List.length_nil]
    omega
  | receive hattached hqueue =>
    refine ⟨?_, rfl, rfl⟩
    simp only [State.backlog, hqueue, List.length_cons]
    omega
  | _ => cases hmove

theorem Flow.received_of_backlog_eq_zero {s : State α β} (hflow : Flow f capacity s)
    (hattached : s.attached = true) (hzero : s.backlog = 0) : s.received = s.arrived.map f := by
  obtain ⟨lost, horder, hlost⟩ := hflow.order
  unfold State.backlog at hzero
  have hpending : s.pending = [] := List.eq_nil_of_length_eq_zero (by omega)
  have hheld : s.worker.held = [] := List.eq_nil_of_length_eq_zero (by omega)
  have hqueue : s.queue = [] := List.eq_nil_of_length_eq_zero (by omega)
  rw [horder, hlost hattached, hpending, hheld, hqueue, List.map_nil]
  simp only [List.append_nil]

/-- While something is on its way, some move is possible. -/
theorem Flow.exists_move {s : State α β} (hflow : Flow f capacity s) (hcapacity : 0 < capacity)
    (hattached : s.attached = true) (hbacklog : s.backlog ≠ 0) :
    ∃ action s', Action.isMove action = true ∧ Pipeline.step f capacity s action = some s' := by
  obtain ⟨arrived, pending, closed, worker, queue, attached, received⟩ := s
  cases hattached
  cases queue with
  | cons item rest => exact ⟨.receive, _, rfl, rfl⟩
  | nil =>
    cases worker with
    | sending item => exact ⟨.push, _, rfl, if_pos ⟨rfl, hcapacity⟩⟩
    | exited =>
      obtain ⟨_, rfl⟩ := hflow.ended rfl rfl
      exact absurd rfl hbacklog
    | waiting =>
      cases pending with
      | nil => exact absurd rfl hbacklog
      | cons item rest => exact ⟨.take, _, rfl, rfl⟩

/-- A run of moves alone: each one counts. -/
theorem backlog_run {s s' : State α β} {actions : List (Action α)}
    (h : run f capacity s actions = some s') (hmoves : ∀ action ∈ actions, action.isMove = true) :
    s'.backlog + actions.length = s.backlog ∧ s'.arrived = s.arrived ∧
      s'.attached = s.attached := by
  refine Runs.foldlM_history (fun done t => t.backlog + done.length = s.backlog ∧
    t.arrived = s.arrived ∧ t.attached = s.attached) ?_ h ⟨rfl, rfl, rfl⟩
  rintro done action t t' hmem hstep ⟨hbacklog, harrived, hattached⟩
  obtain ⟨hmove, harrived', hattached'⟩ := backlog_move (step_cases hstep) (hmoves action hmem)
  refine ⟨?_, harrived'.trans harrived, hattached'.trans hattached⟩
  rw [List.length_append, List.length_singleton]
  omega

/-! ### After the consumer has gone -/

/-- The items the task may still take without a consumer. -/
def State.credit (s : State α β) : Nat :=
  match s.worker with
  | .waiting => 1
  | _ => 0

theorem gone_step {s s' : State α β} {action : Action α} (hstep : Step f capacity s action s')
    (hgone : s.attached = false) :
    s'.attached = false ∧ s'.received = s.received ∧
      s'.credit + (if action.isTake then 1 else 0) ≤ s.credit := by
  cases hstep with
  | push _ hattached _ => rw [hgone] at hattached; cases hattached
  | receive hattached _ => rw [hgone] at hattached; cases hattached
  | detach hattached => rw [hgone] at hattached; cases hattached
  | take hworker _ => exact ⟨hgone, rfl, by simp [State.credit, hworker, Action.isTake]⟩
  | _ => exact ⟨hgone, rfl, by simp [State.credit, Action.isTake]⟩

/-- Nothing more is received, and at most one more item is taken. -/
theorem gone_run {s s' : State α β} {actions : List (Action α)}
    (h : run f capacity s actions = some s') (hgone : s.attached = false) :
    s'.received = s.received ∧ s'.credit + actions.countP Action.isTake ≤ s.credit := by
  have hall : s'.attached = false ∧ s'.received = s.received ∧
      s'.credit + actions.countP Action.isTake ≤ s.credit := by
    refine Runs.foldlM_history (fun done t => t.attached = false ∧ t.received = s.received ∧
      t.credit + done.countP Action.isTake ≤ s.credit) ?_ h ⟨hgone, rfl, Nat.le_refl _⟩
    rintro done action t t' _ hstep ⟨hdetached, hreceived, hcredit⟩
    obtain ⟨hdetached', hreceived', hcredit'⟩ := gone_step (step_cases hstep) hdetached
    refine ⟨hdetached', hreceived'.trans hreceived, ?_⟩
    rw [List.countP_append, List.countP_singleton]
    omega
  exact hall.2

/-- Without a new item or the end of the source, a task that waits keeps waiting. -/
theorem waits_of_gone {s s' : State α β} {actions : List (Action α)}
    (h : run f capacity s actions = some s') (hgone : s.attached = false)
    (hworker : s.worker = .waiting) (hpending : s.pending = []) (hopen : s.closed = false)
    (hquiet : ∀ action ∈ actions, action.isArrival = false) : s' = s := by
  refine Runs.foldlM_invariant (fun t => t = s) ?_ h rfl
  rintro action _ t hmem hstep rfl
  have hother := hquiet action hmem
  cases step_cases hstep with
  | arrive _ _ => cases hother
  | close _ => cases hother
  | take _ hsome => rw [hpending] at hsome; cases hsome
  | push hsending _ _ => rw [hworker] at hsending; cases hsending
  | refuse hsending _ => rw [hworker] at hsending; cases hsending
  | finish _ _ hclosed => rw [hopen] at hclosed; cases hclosed
  | receive hattached _ => rw [hgone] at hattached; cases hattached
  | detach hattached => rw [hgone] at hattached; cases hattached

end Step

end Pipeline
