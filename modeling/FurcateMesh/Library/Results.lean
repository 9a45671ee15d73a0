import Mathlib.Init

/-!
# Results of fallible programs

When an `Except` program ends well.  A sequence does iff its parts do, with the value of the
first handed to the second; changing the error changes nothing about success.  A module
about a reader or a check rewrites with these facts and goes on with the parts.
-/

namespace Results

variable {ε ε' α β : Type}

@[simp] theorem ok_bind (a : α) (next : α → Except ε β) :
    ((Except.ok a : Except ε α) >>= next) = next a := rfl

@[simp] theorem error_bind (e : ε) (next : α → Except ε β) :
    ((Except.error e : Except ε α) >>= next) = .error e := rfl

theorem bind_eq_ok_iff (first : Except ε α) (next : α → Except ε β) (b : β) :
    (first >>= next) = .ok b ↔ ∃ a, first = .ok a ∧ next a = .ok b := by
  cases first with
  | error e => exact ⟨fun h => (by cases h), fun ⟨_, h, _⟩ => (by cases h)⟩
  | ok a => exact ⟨fun h => ⟨a, rfl, h⟩, fun ⟨_, ha, h⟩ => (by cases ha; exact h)⟩

/-- Two checks in a row. -/
theorem check_bind_eq_ok_iff (check : Except ε Unit) (next : Except ε β) (b : β) :
    (check >>= fun _ => next) = .ok b ↔ check = .ok () ∧ next = .ok b := by
  rw [bind_eq_ok_iff]
  exact ⟨fun ⟨_, hcheck, hnext⟩ => ⟨hcheck, hnext⟩, fun ⟨hcheck, hnext⟩ => ⟨(), hcheck, hnext⟩⟩

theorem mapError_eq_ok_iff (f : ε → ε') (result : Except ε α) (a : α) :
    result.mapError f = .ok a ↔ result = .ok a := by
  cases result with
  | error e => exact ⟨fun h => (by cases h), fun h => (by cases h)⟩
  | ok b => exact ⟨fun h => (by cases h; rfl), fun h => (by cases h; rfl)⟩

theorem toOption_eq_some_iff {result : Except ε α} {a : α} :
    result.toOption = some a ↔ result = .ok a := by
  cases result with
  | error e => exact ⟨fun h => (by cases h), fun h => (by cases h)⟩
  | ok b => exact ⟨fun h => (by cases h; rfl), fun h => (by cases h; rfl)⟩

end Results
