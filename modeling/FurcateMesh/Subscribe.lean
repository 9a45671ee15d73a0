import FurcateMesh.Library.Pipeline
import FurcateMesh.GossipConvergence
import FurcateMesh.Wire

/-!
# Subscriptions and the listing commands

`Transport::subscribe` of `furcate-mesh-transport/src/lib.rs` spawns a task that decodes
the samples of a Zenoh subscriber into a channel of 256 items.  `peers_list` and
`model_list` of `furcate-mesh-cli/src/main.rs` read such a stream until a deadline and
keep the last row for each key.

* The stream is the decoded arrivals in their order, malformed samples as error items in
  their place (`subscription_in_order`), and it catches up when its caller keeps reading
  (`subscription_catches_up`).
* A caller that drops its stream leaves a task behind that ends with the next sample
  (`dropped_subscription`).
* A listing shows what a prefix of the arrivals wrote last (`listing_shows_last`).
* A listing ends soon after its deadline, however many samples keep coming
  (`listing_ends`).

The task is a forwarder between two queues, and the library module `Pipeline` has what holds
of any such task; here the items are samples, and the transformation is `decode_sample`.

An iteration of the listing loop reads the clock twice: it computes `remaining` from the
first reading, and `tokio::time::timeout` adds it to a reading of its own.  The timer thus
lies past the deadline by the time between the two, and fires when the runtime notices that
it is due.  The phases of the loop carry the readings:

* `checking`: about to read the clock, and to stop if the deadline has passed;
* `arming`: `remaining` is computed from the first reading, the timer is not made yet;
* `waiting`: the timer is made from both readings, and an item or the timer ends the wait;
* `finished`.

`timeout` polls its stream before its timer, so an item that is there is read even when the
timer has fired.  That is why the loop reads at most one item after its deadline, and why a
stream that never runs dry cannot keep it going.

The two commands are one loop with different rows (`peersRow`, `modelRow`).  Their tables are
those of `GossipConvergence` for the deliveries that were read.
-/

namespace FurcateMesh.Subscribe

open Pipeline Serde Wire
open ValueCode (nullsNonFinite)

structure Sample where
  keyExpr : String
  payload : Bytes

abbrev Item := Except TransportError MeshEvent

def CHANNEL_CAPACITY : Nat := 256

/-- The forwarder, its channel and the stream of the caller. -/
abbrev Subscription := Pipeline.State Sample Item

def subscribe (declareSubscriber : String → Except String Unit) (keyExpr : String) :
    Except TransportError Subscription :=
  match declareSubscriber keyExpr with
  | .error e => .error (.zenoh ("declare_subscriber " ++ keyExpr ++ ": " ++ e))
  | .ok () => .ok State.opened

section Forwarder

variable (json : Format)

def decode (sample : Sample) : Item := decodeSample json sample.keyExpr sample.payload

/-- Any steps of Zenoh, the forwarder and the caller. -/
def Subscription.run (sub : Subscription) (actions : List (Action Sample)) : Option Subscription :=
  Pipeline.run (decode json) CHANNEL_CAPACITY sub actions

variable {json}

theorem flow_of_run {declareSubscriber : String → Except String Unit} {keyExpr : String}
    {sub sub' : Subscription} {actions : List (Action Sample)}
    (hsub : subscribe declareSubscriber keyExpr = .ok sub)
    (hrun : sub.run json actions = some sub') : Flow (decode json) CHANNEL_CAPACITY sub' := by
  have hopened : sub = State.opened := by
    unfold subscribe at hsub
    split at hsub
    · cases hsub
    · exact (Except.ok.inj hsub).symm
  exact Flow.run hrun (hopened ▸ Flow.opened _ _)

variable (json)

/-- A subscription that was granted. -/
theorem subscribe_granted (keyExpr : String) :
    subscribe (fun _ => .ok ()) keyExpr = .ok State.opened := rfl

def Sample.malformed : Sample := ⟨"furcate/mesh/x/heartbeat", []⟩

def Sample.beat (load : Binary64) : Sample :=
  ⟨"k", ValueCode.encode (eventSerialize (Wire.Sample.heartbeat load))⟩

theorem Sample.decode_beat (load : Binary64) :
    decode nullsNonFinite (Sample.beat load) = .ok (Wire.Sample.heartbeat load) := by
  simp [decode, Sample.beat, decodeSample, nullsNonFinite, ValueCode.decimal,
    ValueCode.fromSlice_encode, event_round_trip]

/-- **The stream is the decoded arrivals.**  Whatever the steps so far, the caller has
    received a prefix of them, in order and each once; while it holds the stream, the
    rest is in the channel, in the forwarder's hand or not taken yet.  The channel never
    holds more than its capacity, and the stream ends only after the session has closed
    and everything has been forwarded. -/
theorem subscription_in_order {declareSubscriber : String → Except String Unit} {keyExpr : String}
    {sub sub' : Subscription} {actions : List (Action Sample)}
    (hsub : subscribe declareSubscriber keyExpr = .ok sub)
    (hrun : sub.run json actions = some sub') :
    sub'.received <+: sub'.arrived.map (decode json) ∧
      sub'.queue.length ≤ CHANNEL_CAPACITY ∧
      (sub'.attached = true → sub'.arrived.map (decode json) =
        sub'.received ++ sub'.queue ++ sub'.worker.held ++ sub'.pending.map (decode json)) ∧
      (sub'.attached = true → sub'.worker = .exited →
        sub'.closed = true ∧ sub'.arrived.map (decode json) = sub'.received ++ sub'.queue) := by
  have hflow := flow_of_run hsub hrun
  obtain ⟨lost, horder, hlost⟩ := hflow.order
  refine ⟨hflow.received_prefix, hflow.bounded, fun hattached => ?_, fun hattached hexited => ?_⟩
  · rw [horder, hlost hattached]
  · obtain ⟨hclosed, hpending⟩ := hflow.ended hexited hattached
    refine ⟨hclosed, ?_⟩
    rw [horder, hlost hattached, hexited, hpending]
    simp only [Worker.held, List.map_nil, List.append_nil]

/-- A heartbeat, a malformed sample and another heartbeat: the first is received, the error
    item is in the channel and the second heartbeat in the forwarder's hand. -/
theorem subscription_in_order_beats :
    ∃ sub, Subscription.run nullsNonFinite State.opened
        [.arrive (.beat ⟨0⟩), .arrive .malformed, .arrive (.beat ⟨1⟩), .take, .push, .take,
          .receive, .push, .take] = some sub ∧
      sub.received = [.ok (Wire.Sample.heartbeat ⟨0⟩)] ∧
      sub.worker.held = [.ok (Wire.Sample.heartbeat ⟨1⟩)] ∧
      sub.received <+: sub.arrived.map (decode nullsNonFinite) ∧
      sub.queue.length ≤ CHANNEL_CAPACITY ∧
      sub.arrived.map (decode nullsNonFinite) =
        sub.received ++ sub.queue ++ sub.worker.held ++ sub.pending.map (decode nullsNonFinite) := by
  have horder := subscription_in_order nullsNonFinite (subscribe_granted "k")
    (show Subscription.run nullsNonFinite State.opened
      [.arrive (.beat ⟨0⟩), .arrive .malformed, .arrive (.beat ⟨1⟩), .take, .push, .take,
        .receive, .push, .take] = some _ from rfl)
  refine ⟨_, rfl, ?_, ?_, horder.1, horder.2.1, horder.2.2.1 rfl⟩
  · exact congrArg (fun item => [item]) (Sample.decode_beat ⟨0⟩)
  · exact congrArg (fun item => [item]) (Sample.decode_beat ⟨1⟩)

/-- **The stream catches up.**  When nothing more arrives, the forwarder and a caller
    that keeps reading can always go on until everything is received, which takes them
    exactly `backlog` moves; a published event whose float is finite and read back exactly
    is then among the items, whatever malformed samples came before it. -/
theorem subscription_catches_up {reread : Binary64 → Option Binary64} (json : Decimal reread)
    {declareSubscriber : String → Except String Unit} {keyExpr : String}
    {sub sub' sub'' : Subscription} {actions moves : List (Action Sample)}
    (hsub : subscribe declareSubscriber keyExpr = .ok sub)
    (hrun : sub.run json actions = some sub') (hattached : sub'.attached = true)
    (hmoves : ∀ action ∈ moves, action.isMove = true) (hlater : sub'.run json moves = some sub'') :
    moves.length ≤ sub'.backlog ∧
      (moves.length < sub'.backlog → ∃ action next, action.isMove = true ∧
        sub''.run json [action] = some next) ∧
      (moves.length = sub'.backlog → sub''.received = sub'.arrived.map (decode json) ∧
        ∀ sample ∈ sub'.arrived, ∀ event, publishPayload json event = .ok sample.payload →
          readsBack reread event = true → .ok event ∈ sub''.received) := by
  have hflow := Flow.run hlater (flow_of_run hsub hrun)
  obtain ⟨hcount, harrived, hsame⟩ := backlog_run hlater hmoves
  rw [← hsame] at hattached
  refine ⟨by omega, fun hshort => ?_, fun hall => ?_⟩
  · obtain ⟨action, next, hmove, hnext⟩ :=
      hflow.exists_move (by decide) hattached (by omega)
    refine ⟨action, next, hmove, ?_⟩
    rw [Subscription.run, Pipeline.run, List.foldlM_cons, hnext]
    rfl
  · have hreceived := hflow.received_of_backlog_eq_zero hattached (by omega)
    rw [harrived] at hreceived
    refine ⟨hreceived, fun sample hmem event hpublished hback => ?_⟩
    rw [hreceived]
    obtain ⟨payload, hpayload, hdecode⟩ := json_relay_of_readsBack json sample.keyExpr hback
    rw [hpublished, Except.ok.injEq] at hpayload
    rw [← hpayload] at hdecode
    exact List.mem_map.mpr ⟨sample, hmem, hdecode⟩

/-- A heartbeat behind a malformed sample reaches the caller. -/
theorem subscription_catches_up_malformed :
    ∃ payload sub, publishPayload nullsNonFinite (Wire.Sample.heartbeat ⟨0⟩) = .ok payload ∧
      Subscription.run nullsNonFinite State.opened [.arrive .malformed, .arrive ⟨"k", payload⟩,
        .take, .push, .receive, .take, .push, .receive] = some sub ∧
      .ok (Wire.Sample.heartbeat ⟨0⟩) ∈ sub.received := by
  obtain ⟨payload, hpublished, _⟩ :=
    json_relay nullsNonFinite "k" (Wire.Sample.heartbeat ⟨0⟩)
  have hmoves : ∀ action ∈
      ([.take, .push, .receive, .take, .push, .receive] : List (Action Sample)),
      action.isMove = true := by
    intro action hmem
    simp only [List.mem_cons, List.not_mem_nil, or_false] at hmem
    rcases hmem with rfl | rfl | rfl | rfl | rfl | rfl <;> rfl
  have hall := subscription_catches_up nullsNonFinite (subscribe_granted "k")
    (show Subscription.run nullsNonFinite State.opened
      [.arrive .malformed, .arrive ⟨"k", payload⟩] = some _ from rfl) rfl hmoves rfl
  refine ⟨payload, _, hpublished, rfl, ?_⟩
  exact (hall.2.2 rfl).2 ⟨"k", payload⟩ (.tail _ (.head _)) _ hpublished (by decide)

/-- **A dropped stream.**  The caller gets nothing more and the forwarder takes at most
    one more sample.  It leaves only when one comes or the session closes: until then
    it and its subscription stay as they are. -/
theorem dropped_subscription {sub sub' : Subscription} {actions : List (Action Sample)}
    (hgone : sub.attached = false) (hrun : sub.run json actions = some sub') :
    sub'.received = sub.received ∧ actions.countP Action.isTake ≤ 1 ∧
      (sub.worker = .waiting → sub.pending = [] → sub.closed = false →
        (∀ action ∈ actions, action.isArrival = false) → sub' = sub) := by
  obtain ⟨hreceived, hcredit⟩ := gone_run hrun hgone
  have hone : sub.credit ≤ 1 := by unfold State.credit; split <;> omega
  exact ⟨hreceived, by omega, fun hworker hpending hopen hquiet =>
    waits_of_gone hrun hgone hworker hpending hopen hquiet⟩

theorem dropped_subscription_malformed :
    ∃ sub, Subscription.run nullsNonFinite State.opened
        [.detach, .arrive .malformed, .take, .refuse] = some sub ∧ sub.received = [] := by
  have hdropped := dropped_subscription nullsNonFinite
    (show (⟨[], [], false, .waiting, [], false, []⟩ : Subscription).attached = false from rfl)
    (show Subscription.run nullsNonFinite _ [.arrive .malformed, .take, .refuse] = some _ from rfl)
  exact ⟨_, rfl, hdropped.1⟩

/-! ### Reading a stream until a deadline -/

/-- Where the loop of a listing command stands. -/
inductive Phase where
  | checking
  -- `remaining` is computed, from this reading of the clock
  | arming (checkedAt : Nat)
  -- `timeout` is awaited; its timer was made at the second reading and may have fired
  | waiting (checkedAt armedAt : Nat) (fired : Bool)
  | finished
deriving DecidableEq

/-- A listing command: its stream, the monotonic clock and the table it builds. -/
structure Window (Key Value : Type) where
  sub : Subscription
  now : Nat
  phase : Phase
  seen : Key → Option Value

inductive WindowAction where
  -- Zenoh and the forwarder
  | network (action : Action Sample)
  -- time passes
  | elapse (ticks : Nat)
  -- the runtime finds the timer due
  | fire
  -- the loop goes on at this system time, in seconds
  | poll (wallSecs : Nat)

def WindowAction.isPoll : WindowAction → Bool
  | .poll _ => true
  | _ => false

def peersRow (wallSecs : Nat) : MeshEvent → Option (PeerId × (Binary64 × Nat))
  | .heartbeat peer _ load => some (peer, (load, wallSecs))
  | _ => none

def modelRow (_wallSecs : Nat) : MeshEvent → Option ((PeerId × String) × (String × String))
  | .modelAnnounce peer _ modelName digest format => some ((peer, modelName), (digest, format))
  | _ => none

section Listing

variable {Key Value : Type} [DecidableEq Key]
variable (write : Nat → MeshEvent → Option (Key × Value)) (deadline : Nat)

def observe (seen : Key → Option Value) (wallSecs : Nat) (event : MeshEvent) : Key → Option Value :=
  match write wallSecs event with
  | some (key, value) => Function.update seen key (some value)
  | none => seen

/-- An item of the stream: other events and decode errors are skipped. -/
def observeItem (seen : Key → Option Value) (wallSecs : Nat) : Item → Key → Option Value
  | .ok event => observe write seen wallSecs event
  | .error _ => seen

def Window.start (now : Nat) : Window Key Value := ⟨State.opened, now, .checking, fun _ => none⟩

/-- When the timer of an iteration is due: `remaining` after the second reading. -/
def timerAt (checkedAt armedAt : Nat) : Nat := armedAt + (deadline - checkedAt)

def Window.step (w : Window Key Value) : WindowAction → Option (Window Key Value)
  | .network .receive => none
  | .network .detach => none
  | .network action =>
      (Pipeline.step (decode json) CHANNEL_CAPACITY w.sub action).map fun sub =>
        { w with sub := sub }
  | .elapse ticks => some { w with now := w.now + ticks }
  | .fire =>
      match w.phase with
      | .waiting checkedAt armedAt false =>
          if timerAt deadline checkedAt armedAt ≤ w.now then
            some { w with phase := .waiting checkedAt armedAt true }
          else none
      | _ => none
  | .poll wallSecs =>
      match w.phase with
      | .checking =>
          if deadline ≤ w.now then some { w with phase := .finished }
          else some { w with phase := .arming w.now }
      | .arming checkedAt => some { w with phase := .waiting checkedAt w.now false }
      | .waiting _ _ fired =>
          -- the stream is polled before the timer
          match w.sub.queue with
          | item :: rest =>
              some { w with
                sub := { w.sub with queue := rest, received := w.sub.received ++ [item] }
                phase := .checking
                seen := observeItem write w.seen wallSecs item }
          | [] =>
              match w.sub.worker with
              | .exited => some { w with phase := .finished }
              | _ => if fired then some { w with phase := .finished } else none
      | .finished => none

def Window.run (w : Window Key Value) (actions : List WindowAction) : Option (Window Key Value) :=
  actions.foldlM (Window.step json write deadline) w

/-- What the steps can do, with the condition of each. -/
inductive Window.Move (w : Window Key Value) : WindowAction → Window Key Value → Prop
  | network {action : Action Sample} {sub : Subscription}
      (hstep : Pipeline.Step (decode json) CHANNEL_CAPACITY w.sub action sub)
      (hreceive : action ≠ .receive) (hdetach : action ≠ .detach) :
      Window.Move w (.network action) { w with sub := sub }
  | elapse (ticks : Nat) : Window.Move w (.elapse ticks) { w with now := w.now + ticks }
  | fire {checkedAt armedAt : Nat} (hphase : w.phase = .waiting checkedAt armedAt false)
      (hdue : timerAt deadline checkedAt armedAt ≤ w.now) :
      Window.Move w .fire { w with phase := .waiting checkedAt armedAt true }
  | late (wallSecs : Nat) (hphase : w.phase = .checking) (hlate : deadline ≤ w.now) :
      Window.Move w (.poll wallSecs) { w with phase := .finished }
  | check (wallSecs : Nat) (hphase : w.phase = .checking) (hearly : w.now < deadline) :
      Window.Move w (.poll wallSecs) { w with phase := .arming w.now }
  | arm (wallSecs : Nat) {checkedAt : Nat} (hphase : w.phase = .arming checkedAt) :
      Window.Move w (.poll wallSecs) { w with phase := .waiting checkedAt w.now false }
  | item (wallSecs : Nat) {checkedAt armedAt : Nat} {fired : Bool} {item : Item}
      {rest : List Item} (hphase : w.phase = .waiting checkedAt armedAt fired)
      (hqueue : w.sub.queue = item :: rest) :
      Window.Move w (.poll wallSecs)
        { w with
          sub := { w.sub with queue := rest, received := w.sub.received ++ [item] }
          phase := .checking
          seen := observeItem write w.seen wallSecs item }
  | closed (wallSecs : Nat) {checkedAt armedAt : Nat} {fired : Bool}
      (hphase : w.phase = .waiting checkedAt armedAt fired) (hworker : w.sub.worker = .exited)
      (hqueue : w.sub.queue = []) :
      Window.Move w (.poll wallSecs) { w with phase := .finished }
  | elapsed (wallSecs : Nat) {checkedAt armedAt : Nat}
      (hphase : w.phase = .waiting checkedAt armedAt true) :
      Window.Move w (.poll wallSecs) { w with phase := .finished }

variable {json write deadline}

theorem Window.step_cases {w w' : Window Key Value} {action : WindowAction}
    (h : Window.step json write deadline w action = some w') :
    Window.Move json write deadline w action w' := by
  cases action with
  | network action =>
    by_cases hreceive : action = .receive
    · subst hreceive
      cases h
    · by_cases hdetach : action = .detach
      · subst hdetach
        cases h
      · simp only [Window.step] at h
        obtain ⟨sub, hsub, rfl⟩ := Option.map_eq_some_iff.mp h
        exact .network (Pipeline.step_cases hsub) hreceive hdetach
  | elapse ticks =>
    cases h
    exact .elapse ticks
  | fire =>
    simp only [Window.step] at h
    split at h
    · next hphase =>
      split at h
      · next hdue =>
        cases h
        exact .fire hphase hdue
      · cases h
    · cases h
  | poll wallSecs =>
    obtain ⟨sub, now, phase, seen⟩ := w
    cases phase with
    | checking =>
      simp only [Window.step] at h
      split at h
      · next hlate =>
        cases h
        exact .late wallSecs rfl hlate
      · next hearly =>
        cases h
        exact .check wallSecs rfl (Nat.lt_of_not_le hearly)
    | arming checkedAt =>
      cases h
      exact .arm wallSecs rfl
    | waiting checkedAt armedAt fired =>
      simp only [Window.step] at h
      split at h
      · next hqueue =>
        cases h
        exact .item wallSecs rfl hqueue
      · next hqueue =>
        split at h
        · next hworker =>
          cases h
          exact .closed wallSecs rfl hworker hqueue
        · split at h
          · next hfired =>
            cases h
            rw [hfired]
            exact .elapsed wallSecs rfl
          · cases h
    | finished => cases h

/-! #### The table -/

def events (items : List Item) : List MeshEvent := items.filterMap Except.toOption

variable (write) in
def tableOf (log : List Delivery) : Key → Option Value :=
  log.foldl (fun seen d => observe write seen d.wallSecs d.event) fun _ => none

variable (write) in
def rowFor (key : Key) (d : Delivery) : Option Value :=
  (write d.wallSecs d.event).bind fun row => if row.1 = key then some row.2 else none

/-- The readings are of this iteration: the first was before the deadline, the second not
    before the first, and a timer that has fired was due. -/
def Phase.Timed (deadline now : Nat) : Phase → Prop
  | .arming checkedAt => checkedAt < deadline ∧ checkedAt ≤ now
  | .waiting checkedAt armedAt fired =>
      checkedAt < deadline ∧ checkedAt ≤ armedAt ∧ (fired = true → deadline ≤ now)
  | _ => True

variable (json write deadline) in
/-- What holds along the loop: the table is what the received events wrote last, and the
    loop has ended only by its deadline or with the stream. -/
structure Window.Shows (w : Window Key Value) : Prop where
  flow : Flow (decode json) CHANNEL_CAPACITY w.sub
  attached : w.sub.attached = true
  table : ∃ log : List Delivery, delivered log = events w.sub.received ∧ w.seen = tableOf write log
  timed : w.phase.Timed deadline w.now
  ending : w.phase = .finished →
    deadline ≤ w.now ∨ w.sub.worker = .exited ∧ w.sub.queue = []

theorem Phase.Timed.mono {deadline now now' : Nat} {phase : Phase}
    (h : phase.Timed deadline now) (hle : now ≤ now') : phase.Timed deadline now' := by
  cases phase with
  | arming checkedAt => exact ⟨h.1, Nat.le_trans h.2 hle⟩
  | waiting checkedAt armedAt fired =>
    exact ⟨h.1, h.2.1, fun hfired => Nat.le_trans (h.2.2 hfired) hle⟩
  | _ => exact trivial

/-- The timer is not due before the deadline. -/
theorem deadline_le_timerAt {deadline checkedAt armedAt : Nat} (h : checkedAt ≤ armedAt) :
    deadline ≤ timerAt deadline checkedAt armedAt := by
  unfold timerAt
  omega

omit [DecidableEq Key] in
theorem events_concat (items : List Item) (item : Item) :
    events (items ++ [item]) = events items ++ item.toOption.toList := by
  rw [events, List.filterMap_append]
  cases item <;> rfl

theorem tableOf_concat (log : List Delivery) (d : Delivery) :
    tableOf write (log ++ [d]) = observe write (tableOf write log) d.wallSecs d.event := by
  rw [tableOf, List.foldl_append]
  rfl

/-- The row of a key is the one written last. -/
theorem tableOf_eq_getLast (log : List Delivery) (key : Key) :
    tableOf write log key = (log.filterMap (rowFor write key)).getLast? := by
  induction log using List.reverseRecOn with
  | nil => rfl
  | append_singleton log d ih =>
    rw [tableOf_concat, List.filterMap_append, observe, List.filterMap_cons, List.filterMap_nil,
      rowFor]
    rcases write d.wallSecs d.event with _ | ⟨written, value⟩
    · simp only [Option.bind_none, List.append_nil, ih]
    · by_cases hkey : written = key
      · subst hkey
        simp only [Function.update_self, Option.bind_some, if_true, List.getLast?_append,
          List.getLast?_singleton, Option.some_or]
      · simp only [Function.update_of_ne (Ne.symm hkey), Option.bind_some, if_neg hkey,
          List.append_nil, ih]

theorem Window.Shows.start (now : Nat) :
    (Window.start now : Window Key Value).Shows json write deadline where
  flow := Flow.opened _ _
  attached := rfl
  table := ⟨[], rfl, rfl⟩
  timed := trivial
  ending h := by cases h

theorem Window.Shows.move {w w' : Window Key Value} {action : WindowAction}
    (hmove : Window.Move json write deadline w action w') (hshows : w.Shows json write deadline) :
    w'.Shows json write deadline := by
  obtain ⟨hflow, hattached, ⟨log, hlog, hseen⟩, htimed, hending⟩ := hshows
  cases hmove with
  | network hstep hreceive hdetach =>
    refine ⟨hflow.step hstep, ?_, ⟨log, ?_, hseen⟩, htimed, fun hfinished => ?_⟩
    · cases hstep with
      | detach => exact absurd rfl hdetach
      | _ => exact hattached
    · cases hstep with
      | receive => exact absurd rfl hreceive
      | _ => exact hlog
    · exact (hending hfinished).imp_right fun h => exited_step hstep h.1 h.2
  | elapse ticks =>
    have hle : w.now ≤ w.now + ticks := Nat.le_add_right _ _
    refine ⟨hflow, hattached, ⟨log, hlog, hseen⟩, htimed.mono hle, fun hfinished => ?_⟩
    exact (hending hfinished).imp_left fun h => Nat.le_trans h hle
  | fire hphase hdue =>
    rw [hphase] at htimed
    refine ⟨hflow, hattached, ⟨log, hlog, hseen⟩, ⟨htimed.1, htimed.2.1, fun _ => ?_⟩,
      fun h => by cases h⟩
    exact Nat.le_trans (deadline_le_timerAt htimed.2.1) hdue
  | late wallSecs hphase hlate =>
    exact ⟨hflow, hattached, ⟨log, hlog, hseen⟩, trivial, fun _ => .inl hlate⟩
  | check wallSecs hphase hearly =>
    exact ⟨hflow, hattached, ⟨log, hlog, hseen⟩, ⟨hearly, Nat.le_refl _⟩, fun h => by cases h⟩
  | arm wallSecs hphase =>
    rw [hphase] at htimed
    exact ⟨hflow, hattached, ⟨log, hlog, hseen⟩, ⟨htimed.1, htimed.2, fun h => by cases h⟩,
      fun h => by cases h⟩
  | @item wallSecs _ _ _ item rest hphase hqueue =>
    refine ⟨hflow.step (.receive hattached hqueue), hattached, ?_, trivial, fun h => by cases h⟩
    cases item with
    | error e => exact ⟨log, by rw [events_concat, hlog]; exact (List.append_nil _).symm, hseen⟩
    | ok event =>
      refine ⟨log ++ [⟨w.now, wallSecs, event⟩], ?_, ?_⟩
      · rw [events_concat, delivered_concat, hlog]
        rfl
      · rw [tableOf_concat, ← hseen]
        rfl
  | closed wallSecs hphase hworker hqueue =>
    exact ⟨hflow, hattached, ⟨log, hlog, hseen⟩, trivial, fun _ => .inr ⟨hworker, hqueue⟩⟩
  | elapsed wallSecs hphase =>
    rw [hphase] at htimed
    exact ⟨hflow, hattached, ⟨log, hlog, hseen⟩, trivial, fun _ => .inl (htimed.2.2 rfl)⟩

theorem Window.shows_of_run {w w' : Window Key Value} {actions : List WindowAction}
    (hrun : w.run json write deadline actions = some w') (hshows : w.Shows json write deadline) :
    w'.Shows json write deadline :=
  Runs.foldlM_invariant (Window.Shows json write deadline)
    (fun _ hstep hshows => hshows.move (Window.step_cases hstep)) hrun hshows

/-! #### The deadline -/

/-- How far the timer of this iteration lies past the deadline. -/
def Phase.lag : Phase → Nat
  | .waiting checkedAt armedAt _ => armedAt - checkedAt
  | _ => 0

/-- The polls a loop may still need after its deadline. -/
def Phase.polls : Phase → Nat
  | .checking => 1
  | .arming _ => 3
  | .waiting _ _ _ => 2
  | .finished => 0

/-- The items a loop may still read after its deadline. -/
def Phase.items : Phase → Nat
  | .arming _ => 1
  | .waiting _ _ _ => 1
  | _ => 0

theorem Window.Move.past {w w' : Window Key Value} {action : WindowAction}
    (hmove : Window.Move json write deadline w action w') (hlate : deadline ≤ w.now) :
    deadline ≤ w'.now ∧
      w'.phase.polls + (if action.isPoll then 1 else 0) ≤ w.phase.polls ∧
      w'.sub.received.length + w'.phase.items ≤ w.sub.received.length + w.phase.items := by
  cases hmove with
  | network hstep hreceive hdetach =>
    refine ⟨hlate, Nat.le_refl _, ?_⟩
    cases hstep with
    | receive => exact absurd rfl hreceive
    | _ => exact Nat.le_refl _
  | elapse ticks => exact ⟨Nat.le_trans hlate (Nat.le_add_right _ _), Nat.le_refl _, Nat.le_refl _⟩
  | check wallSecs hphase hearly => exact absurd hlate (Nat.not_le_of_lt hearly)
  | fire hphase hdue | arm _ hphase =>
    rw [hphase]
    exact ⟨hlate, Nat.le_refl _, Nat.le_refl _⟩
  | item wallSecs hphase hqueue =>
    rw [hphase, List.length_append]
    exact ⟨hlate, Nat.le_refl _, Nat.le_refl _⟩
  | late _ hphase hlate' =>
    rw [hphase]
    exact ⟨hlate, Nat.le_refl _, Nat.le_refl _⟩
  | closed _ hphase | elapsed _ hphase =>
    rw [hphase]
    exact ⟨hlate, Nat.le_succ _, Nat.le_succ _⟩

theorem Window.run_past {w w' : Window Key Value} {actions : List WindowAction}
    (hrun : w.run json write deadline actions = some w') (hlate : deadline ≤ w.now) :
    deadline ≤ w'.now ∧ w'.phase.polls + actions.countP WindowAction.isPoll ≤ w.phase.polls ∧
      w'.sub.received.length + w'.phase.items ≤ w.sub.received.length + w.phase.items := by
  refine Runs.foldlM_history (fun done t => deadline ≤ t.now ∧
    t.phase.polls + done.countP WindowAction.isPoll ≤ w.phase.polls ∧
    t.sub.received.length + t.phase.items ≤ w.sub.received.length + w.phase.items) ?_ hrun
    ⟨hlate, Nat.le_refl _, Nat.le_refl _⟩
  rintro done action t t' _ hstep ⟨hnow, hpolls, hitems⟩
  obtain ⟨hnow', hpolls', hitems'⟩ := (Window.step_cases hstep).past hnow
  refine ⟨hnow', ?_, Nat.le_trans hitems' hitems⟩
  rw [List.countP_append, List.countP_singleton]
  omega

/-- A loop whose timer has fired is never blocked. -/
theorem Window.poll_fired {w : Window Key Value} {checkedAt armedAt : Nat}
    (hphase : w.phase = .waiting checkedAt armedAt true) (wallSecs : Nat) :
    ∃ next, w.step json write deadline (.poll wallSecs) = some next := by
  simp only [Window.step, hphase]
  split
  · exact ⟨_, rfl⟩
  · split
    · exact ⟨_, rfl⟩
    · exact ⟨_, rfl⟩

/-- A loop that is past its deadline, and past its timer if it has one, goes on, at most
    after the timer has fired. -/
theorem Window.goes_on {w : Window Key Value} (htimed : w.phase.Timed deadline w.now)
    (hphase : w.phase ≠ .finished) (hpast : deadline + w.phase.lag ≤ w.now) :
    (∀ wallSecs, ∃ next, w.step json write deadline (.poll wallSecs) = some next) ∨
      ∃ mid, w.step json write deadline .fire = some mid ∧
        ∀ wallSecs, ∃ next, mid.step json write deadline (.poll wallSecs) = some next := by
  cases hw : w.phase with
  | finished => exact absurd hw hphase
  | checking =>
    rw [hw] at hpast
    refine .inl fun wallSecs => ⟨{ w with phase := .finished }, ?_⟩
    simp only [Window.step, hw]
    exact if_pos hpast
  | arming checkedAt =>
    refine .inl fun wallSecs => ⟨{ w with phase := .waiting checkedAt w.now false }, ?_⟩
    simp only [Window.step, hw]
  | waiting checkedAt armedAt fired =>
    cases fired with
    | true => exact .inl fun wallSecs => Window.poll_fired hw wallSecs
    | false =>
      rw [hw] at hpast htimed
      have hdue : timerAt deadline checkedAt armedAt ≤ w.now := by
        obtain ⟨hbefore, horder, _⟩ := htimed
        simp only [Phase.lag] at hpast
        unfold timerAt
        omega
      refine .inr ⟨{ w with phase := .waiting checkedAt armedAt true }, ?_, fun wallSecs => ?_⟩
      · simp only [Window.step, hw]
        exact if_pos hdue
      · exact Window.poll_fired rfl wallSecs

variable (json write deadline)

/-- **A listing shows what a prefix of the arrivals wrote last.**  Along every run of
    Zenoh, the forwarder, the clock and the loop, the row of a key is the one that the
    last received event with a row for this key wrote, at the time it was read; samples
    that do not decode and other events leave no trace.  The loop ends by its deadline,
    or with the stream and then with every arrival read. -/
theorem listing_shows_last {now : Nat} {actions : List WindowAction} {w : Window Key Value}
    (hrun : (Window.start now).run json write deadline actions = some w) :
    w.sub.received <+: w.sub.arrived.map (decode json) ∧
      (∃ log : List Delivery, delivered log = events w.sub.received ∧
        ∀ key, w.seen key = (log.filterMap (rowFor write key)).getLast?) ∧
      (w.phase = .finished → deadline ≤ w.now ∨
        w.sub.closed = true ∧ w.sub.received = w.sub.arrived.map (decode json)) := by
  have hshows := Window.shows_of_run hrun (.start now)
  obtain ⟨log, hlog, hseen⟩ := hshows.table
  refine ⟨hshows.flow.received_prefix, ⟨log, hlog, fun key => ?_⟩, fun hfinished => ?_⟩
  · rw [hseen, tableOf_eq_getLast]
  refine (hshows.ending hfinished).imp_right fun ⟨hworker, hqueue⟩ => ?_
  obtain ⟨hclosed, hpending⟩ := hshows.flow.ended hworker hshows.attached
  refine ⟨hclosed, hshows.flow.received_of_backlog_eq_zero hshows.attached ?_⟩
  rw [State.backlog, hworker, hqueue, hpending]
  rfl

/-- A listing of peers reads a heartbeat behind a malformed sample: the peer has its row. -/
theorem listing_shows_last_beat :
    ∃ w, (Window.start 0).run nullsNonFinite peersRow 5
        [.network (.arrive .malformed), .network (.arrive (.beat ⟨0⟩)), .network .take,
          .network .push, .network .take, .network .push, .poll 0, .poll 0, .poll 6, .poll 6,
          .poll 6, .poll 7] = some w ∧
      w.sub.received <+: w.sub.arrived.map (decode nullsNonFinite) ∧
      (∃ log : List Delivery, delivered log = events w.sub.received ∧
        ∀ key, w.seen key = (log.filterMap (rowFor peersRow key)).getLast?) ∧
      w.seen Wire.Sample.peer = some (⟨0⟩, 7) := by
  have hshows := listing_shows_last nullsNonFinite peersRow 5
    (show (Window.start 0).run nullsNonFinite peersRow 5
      [.network (.arrive .malformed), .network (.arrive (.beat ⟨0⟩)), .network .take,
        .network .push, .network .take, .network .push, .poll 0, .poll 0, .poll 6, .poll 6,
        .poll 6, .poll 7] = some _ from rfl)
  refine ⟨_, rfl, hshows.1, hshows.2.1, ?_⟩
  simp only [Sample.decode_beat, observeItem, observe, peersRow, Wire.Sample.heartbeat,
    Function.update_self]

/-- **A listing ends soon after its deadline.**  Past the deadline, whatever arrives, the loop
    goes on at most three times more and reads at most one more item.  It blocks only until
    its timer fires, and the timer is due when the deadline has passed by the time between
    the two clock readings of the iteration. -/
theorem listing_ends {now : Nat} {w w' : Window Key Value} {actions later : List WindowAction}
    (hrun : (Window.start now).run json write deadline actions = some w)
    (hlate : deadline ≤ w.now) (hlater : w.run json write deadline later = some w') :
    later.countP WindowAction.isPoll ≤ 3 ∧
      w'.sub.received.length ≤ w.sub.received.length + 1 ∧
      (w'.phase ≠ .finished → deadline + w'.phase.lag ≤ w'.now →
        (∀ wallSecs, ∃ next, w'.step json write deadline (.poll wallSecs) = some next) ∨
        ∃ mid, w'.step json write deadline .fire = some mid ∧
          ∀ wallSecs, ∃ next, mid.step json write deadline (.poll wallSecs) = some next) := by
  have hshows := Window.shows_of_run hlater (Window.shows_of_run hrun (.start now))
  obtain ⟨_, hpolls, hitems⟩ := Window.run_past hlater hlate
  have hmost : w.phase.polls ≤ 3 ∧ w.phase.items ≤ 1 := by cases w.phase <;> simp [Phase.polls, Phase.items]
  exact ⟨by omega, by omega, fun hphase hpast => Window.goes_on hshows.timed hphase hpast⟩

/-- A listing of models with its deadline at 5: the clock moves from 0 to 2 between the readings
    of its first iteration, so at the deadline it waits for a timer that is due at 7. -/
theorem listing_ends_waiting :
    ∃ w w', (Window.start 0).run nullsNonFinite modelRow 5
        [.poll 0, .elapse 2, .poll 2, .elapse 3] = some w ∧
      w.run nullsNonFinite modelRow 5 [.elapse 2] =
        some w' ∧
      w.step nullsNonFinite modelRow 5 .fire = none ∧
      w'.phase = .waiting 0 2 false ∧
      w'.sub.received.length ≤ w.sub.received.length + 1 ∧
      ((∀ wallSecs, ∃ next,
          w'.step nullsNonFinite modelRow 5 (.poll wallSecs) = some next) ∨
        ∃ mid, w'.step nullsNonFinite modelRow 5 .fire = some mid ∧
          ∀ wallSecs, ∃ next,
            mid.step nullsNonFinite modelRow 5 (.poll wallSecs) = some next) := by
  have hends := listing_ends nullsNonFinite modelRow 5
    (show (Window.start 0).run nullsNonFinite modelRow 5
      [.poll 0, .elapse 2, .poll 2, .elapse 3] = some _
      from rfl) (by decide)
    (show Window.run nullsNonFinite modelRow 5 _
      [.elapse 2] = some _ from rfl)
  exact ⟨_, _, rfl, rfl, rfl, rfl, hends.2.1, hends.2.2 (fun h => by cases h) (by decide)⟩

end Listing

/-! ### The two commands -/

def peersListRun (now : Nat) (forSecs : UInt64) :
    List WindowAction → Option (Window PeerId (Binary64 × Nat)) :=
  (Window.start now).run json peersRow (now + durationFromSecs forSecs)

def modelListRun (now : Nat) (forSecs : UInt64) :
    List WindowAction → Option (Window (PeerId × String) (String × String)) :=
  (Window.start now).run json modelRow (now + durationFromSecs forSecs)

theorem tableOf_peersRow (log : List Delivery) : tableOf peersRow log = peersList log := by
  unfold tableOf peersList
  congr 1
  funext seen d
  obtain ⟨arrival, wallSecs, event⟩ := d
  cases event <;> rfl

theorem tableOf_modelRow (log : List Delivery) : tableOf modelRow log = modelList log := by
  unfold tableOf modelList
  congr 1
  funext seen d
  obtain ⟨arrival, wallSecs, event⟩ := d
  cases event <;> rfl

variable {json}

/-- The tables of the two loops are the ones of the gossip views. -/
theorem peersListRun_table {now : Nat} {forSecs : UInt64} {actions : List WindowAction}
    {w : Window PeerId (Binary64 × Nat)} (hrun : peersListRun json now forSecs actions = some w) :
    ∃ log : List Delivery, delivered log = events w.sub.received ∧ w.seen = peersList log := by
  obtain ⟨log, hlog, hseen⟩ := (Window.shows_of_run hrun (.start now)).table
  exact ⟨log, hlog, hseen.trans (tableOf_peersRow log)⟩

theorem modelListRun_table {now : Nat} {forSecs : UInt64} {actions : List WindowAction}
    {w : Window (PeerId × String) (String × String)}
    (hrun : modelListRun json now forSecs actions = some w) :
    ∃ log : List Delivery, delivered log = events w.sub.received ∧ w.seen = modelList log := by
  obtain ⟨log, hlog, hseen⟩ := (Window.shows_of_run hrun (.start now)).table
  exact ⟨log, hlog, hseen.trans (tableOf_modelRow log)⟩

end Forwarder

end FurcateMesh.Subscribe
