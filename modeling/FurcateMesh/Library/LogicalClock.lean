import Mathlib.Order.Basic
import FurcateMesh.Library.Runs

/-!
# Logical clocks and happens-before

Processes that each keep one clock, emit events stamped with it and merge the
clock of every event they receive.  The operation `bump` moves a stored clock past
another one.

The causality law needs two facts about `bump`.  Its result is at least both
operands, always; and at an emission it is strictly above the stored clock.  Then
every event is stamped strictly above all events that happen before it
(`happensBefore_lt`).

Events may also be forged: they enter the pool with any clock and no causes.

An event carries the numbers of the events its emitter knew of, those it had emitted or
received.  They are its direct causes, and happens-before is the transitive closure.  The
invariant says that a process knows of no event above its stored clock and that every cause
is strictly below its effect; a reception keeps the first part because the clock is merged,
an emission keeps the second because it is strict.
-/

namespace LogicalClock

open Relation (ReflTransGen TransGen)

structure Event (Clock : Type*) where
  clock : Clock
  causes : List Nat

/-- Stored clocks, all events so far and, for each process, the events it has
    emitted or received. -/
structure State (ι Clock : Type*) where
  stored : ι → Clock
  events : List (Event Clock)
  known : ι → List Nat

inductive Action (ι Clock : Type*) where
  | emit (p : ι) (reading : Clock)
  | forge (clock : Clock)
  | deliver (p : ι) (k : Nat)

variable {ι Clock : Type*}

def State.initial (stored : ι → Clock) : State ι Clock := ⟨stored, [], fun _ => []⟩

section Step

variable [DecidableEq ι] (bump : Clock → Clock → Clock)

/-- Perform one action.  Delivering an event that does not exist does nothing. -/
def State.act (s : State ι Clock) : Action ι Clock → State ι Clock
  | .emit p reading =>
      let clock := bump (s.stored p) reading
      ⟨Function.update s.stored p clock, s.events ++ [⟨clock, s.known p⟩],
        Function.update s.known p (s.events.length :: s.known p)⟩
  | .forge clock => ⟨s.stored, s.events ++ [⟨clock, []⟩], s.known⟩
  | .deliver p k =>
      match s.events[k]? with
      | none => s
      | some event =>
          ⟨Function.update s.stored p (bump (s.stored p) event.clock), s.events,
            Function.update s.known p (k :: s.known p)⟩

/-- An emission moves the stored clock strictly. -/
def State.Strict [LT Clock] (s : State ι Clock) : Action ι Clock → Prop
  | .emit p reading => s.stored p < bump (s.stored p) reading
  | _ => True

def State.StrictStep [LT Clock] (s s' : State ι Clock) : Prop :=
  ∃ action, s.Strict bump action ∧ s' = s.act bump action

end Step

def State.Causes (s : State ι Clock) (a b : Nat) : Prop :=
  ∃ event, s.events[b]? = some event ∧ a ∈ event.causes

def State.HappensBefore (s : State ι Clock) : Nat → Nat → Prop := TransGen s.Causes

def State.ClockLt [LT Clock] (s : State ι Clock) (a b : Nat) : Prop :=
  ∃ event event', s.events[a]? = some event ∧ s.events[b]? = some event' ∧
    event.clock < event'.clock

theorem getElem?_append_event {events : List (Event Clock)} {k : Nat} {event new : Event Clock}
    (h : events[k]? = some event) : (events ++ [new])[k]? = some event := by
  rw [List.getElem?_append_left (List.getElem?_eq_some_iff.mp h).1, h]

/-! ### The causality law -/

section Law

variable [Preorder Clock]

/-- Known events are not above the stored clock, and causes are strictly below. -/
structure State.Inv (s : State ι Clock) : Prop where
  known : ∀ p, ∀ k ∈ s.known p, ∃ event, s.events[k]? = some event ∧ event.clock ≤ s.stored p
  causes : ∀ a b, s.Causes a b → s.ClockLt a b

theorem State.inv_initial (stored : ι → Clock) : (State.initial stored).Inv :=
  ⟨fun _ _ h => absurd h List.not_mem_nil, fun _ _ ⟨_, h, _⟩ => by simp [State.initial] at h⟩

/-- An added event whose causes are all strictly below it keeps the law. -/
theorem causes_append {s : State ι Clock} (hinv : s.Inv) {new : Event Clock}
    (hnew : ∀ a ∈ new.causes, ∃ event, s.events[a]? = some event ∧ event.clock < new.clock)
    {stored : ι → Clock} {known : ι → List Nat} {a b : Nat}
    (h : (State.mk stored (s.events ++ [new]) known).Causes a b) :
    (State.mk stored (s.events ++ [new]) known).ClockLt a b := by
  obtain ⟨event, hevent, hmem⟩ := h
  by_cases hb : b < s.events.length
  · rw [List.getElem?_append_left hb] at hevent
    obtain ⟨ea, eb, ha, hb, hlt⟩ := hinv.causes a b ⟨event, hevent, hmem⟩
    exact ⟨ea, eb, getElem?_append_event ha, getElem?_append_event hb, hlt⟩
  · -- `b` is the new event itself
    rw [List.getElem?_append_right (Nat.le_of_not_lt hb)] at hevent
    obtain ⟨hzero, rfl⟩ : b - s.events.length = 0 ∧ new = event := by
      rw [List.getElem?_singleton] at hevent
      split at hevent
      · rename_i hzero
        exact ⟨hzero, Option.some.inj hevent⟩
      · cases hevent
    obtain ⟨ea, ha, hlt⟩ := hnew a hmem
    refine ⟨ea, new, getElem?_append_event ha, ?_, hlt⟩
    rw [List.getElem?_append_right (Nat.le_of_not_lt hb), hzero, List.getElem?_cons_zero]

theorem State.Inv.happensBefore_lt {s : State ι Clock} (hinv : s.Inv) {a b : Nat}
    (h : s.HappensBefore a b) : s.ClockLt a b := by
  induction h with
  | single h => exact hinv.causes _ _ h
  | tail _ h ih =>
    obtain ⟨ea, eb, ha, hb, hlt⟩ := ih
    obtain ⟨eb', ec, hb', hc, hlt'⟩ := hinv.causes _ _ h
    rw [hb, Option.some.injEq] at hb'
    subst hb'
    exact ⟨ea, ec, ha, hc, lt_trans hlt hlt'⟩

variable [DecidableEq ι] {bump : Clock → Clock → Clock}

/-- **A strict step keeps the invariant.** -/
theorem State.Inv.step (hleft : ∀ clock other, clock ≤ bump clock other)
    (hright : ∀ clock other, other ≤ bump clock other) {s s' : State ι Clock} (hinv : s.Inv)
    (hstep : s.StrictStep bump s') : s'.Inv := by
  obtain ⟨action, hstrict, rfl⟩ := hstep
  cases action with
  | emit p reading =>
    refine ⟨fun q k hk => ?_, fun a b => causes_append hinv fun a ha => ?_⟩
    · by_cases hq : q = p
      · subst hq
        simp only [State.act, Function.update_self, List.mem_cons] at hk ⊢
        rcases hk with rfl | hk
        · exact ⟨_, List.getElem?_concat_length, le_refl _⟩
        · obtain ⟨event, hevent, hle⟩ := hinv.known q k hk
          exact ⟨event, getElem?_append_event hevent, le_trans hle (hleft _ _)⟩
      · simp only [State.act, Function.update_of_ne hq] at hk ⊢
        obtain ⟨event, hevent, hle⟩ := hinv.known q k hk
        exact ⟨event, getElem?_append_event hevent, hle⟩
    · obtain ⟨event, hevent, hle⟩ := hinv.known p a ha
      exact ⟨event, hevent, lt_of_le_of_lt hle hstrict⟩
  | forge clock =>
    refine ⟨fun q k hk => ?_, fun a b => causes_append hinv fun a ha => absurd ha List.not_mem_nil⟩
    obtain ⟨event, hevent, hle⟩ := hinv.known q k hk
    exact ⟨event, getElem?_append_event hevent, hle⟩
  | deliver p k =>
    cases hk : s.events[k]? with
    | none => simp only [State.act, hk]; exact hinv
    | some event =>
      simp only [State.act, hk]
      refine ⟨fun q j hj => ?_, hinv.causes⟩
      by_cases hq : q = p
      · subst hq
        simp only [Function.update_self, List.mem_cons] at hj ⊢
        rcases hj with rfl | hj
        · exact ⟨event, hk, hright _ _⟩
        · obtain ⟨known, hknown, hle⟩ := hinv.known q j hj
          exact ⟨known, hknown, le_trans hle (hleft _ _)⟩
      · simp only [Function.update_of_ne hq] at hj ⊢
        exact hinv.known q j hj

/-- **Happens-before implies a smaller clock**, in every run whose emissions are
    strict. -/
theorem happensBefore_lt (hleft : ∀ clock other, clock ≤ bump clock other)
    (hright : ∀ clock other, other ≤ bump clock other) {stored : ι → Clock} {s : State ι Clock}
    (hrun : ReflTransGen (State.StrictStep bump) (State.initial stored) s) {a b : Nat}
    (h : s.HappensBefore a b) : s.ClockLt a b :=
  (Runs.invariant State.Inv (fun _ _ hinv hstep => hinv.step hleft hright hstep)
    (State.inv_initial stored) hrun).happensBefore_lt h

end Law

end LogicalClock
