import Mathlib.Data.List.Basic
import Mathlib.Logic.Relation

/-!
# Runs of a transition system

A run is a finite sequence of steps.  It is written in one of two ways: as the reflexive
transitive closure of a step relation, or, for a step function that may refuse an action,
as the fold of that function over the list of actions.

The rules here package the induction over runs.  What every step keeps holds along every
run (`invariant` for relations, `foldlM_invariant` for folds).  Where the property speaks
of the actions so far, for instance by counting them, the invariant takes them as an
argument (`foldlM_history`).  A step-by-step simulation under an invariant carries whole
runs to the abstract system (`simulation`).
-/

namespace Runs

open Relation (ReflTransGen)

variable {State Abstract : Type*} {step : State → State → Prop}

/-- What every step keeps, every run keeps. -/
theorem invariant (Inv : State → Prop) (hstep : ∀ s t, Inv s → step s t → Inv t)
    {s t : State} (hs : Inv s) (hrun : ReflTransGen step s t) : Inv t := by
  induction hrun with
  | refl => exact hs
  | tail _ hlast ih => exact hstep _ _ ih hlast

/-- A simulation of steps under an invariant is a simulation of runs. -/
theorem simulation (Inv : State → Prop) (view : State → Abstract)
    {abstractStep : Abstract → Abstract → Prop}
    (hstep : ∀ s t, Inv s → step s t → Inv t ∧ abstractStep (view s) (view t))
    {s t : State} (hs : Inv s) (hrun : ReflTransGen step s t) :
    Inv t ∧ ReflTransGen abstractStep (view s) (view t) := by
  induction hrun with
  | refl => exact ⟨hs, ReflTransGen.refl⟩
  | tail _ hlast ih =>
    obtain ⟨hinv, hrun⟩ := ih
    obtain ⟨hinv', hmove⟩ := hstep _ _ hinv hlast
    exact ⟨hinv', hrun.tail hmove⟩

section Fold

variable {Action : Type*} {act : State → Action → Option State} {s t : State}
  {actions : List Action}

/-- What holds of the actions so far and the state they lead to. -/
theorem foldlM_history (Inv : List Action → State → Prop)
    (hstep : ∀ {done action s t}, action ∈ actions → act s action = some t → Inv done s →
      Inv (done ++ [action]) t)
    (hrun : actions.foldlM act s = some t) (hs : Inv [] s) : Inv actions t := by
  -- generalised over the actions that are done already
  have hall : ∀ (rest done : List Action) (s : State), (∀ action ∈ rest, action ∈ actions) →
      rest.foldlM act s = some t → Inv done s → Inv (done ++ rest) t := by
    intro rest
    induction rest with
    | nil =>
      intro done s _ hrest hdone
      cases hrest
      rw [List.append_nil]
      exact hdone
    | cons action rest ih =>
      intro done s hmem hrest hdone
      rw [List.foldlM_cons] at hrest
      obtain ⟨mid, hmid, hlater⟩ := Option.bind_eq_some_iff.mp hrest
      rw [List.forall_mem_cons] at hmem
      rw [List.append_cons]
      exact ih _ mid hmem.2 hlater (hstep hmem.1 hmid hdone)
  exact hall actions [] s (fun _ h => h) hrun hs

theorem foldlM_invariant (Inv : State → Prop)
    (hstep : ∀ {action s t}, action ∈ actions → act s action = some t → Inv s → Inv t)
    (hrun : actions.foldlM act s = some t) (hs : Inv s) : Inv t :=
  foldlM_history (fun _ => Inv) hstep hrun hs

end Fold

end Runs
