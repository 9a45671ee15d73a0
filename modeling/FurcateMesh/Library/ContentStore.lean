import FurcateMesh.Library.Runs

/-!
# Write-once content-addressed stores

The abstract purpose of a content-addressed cache: a partial map from keys to
values in which a step either changes nothing or seals one new value under its
own digest, at a key that was free.  Along every run such a store stays
addressed by content and never loses or changes a sealed value.
-/

namespace ContentStore

open Relation (ReflTransGen)

variable {Key Value : Type*}

/-- Every value is stored under its digest. -/
def Addressed (digest : Value → Key) (store : Key → Option Value) : Prop :=
  ∀ key value, store key = some value → digest value = key

/-- What one store holds, the other holds too, unchanged. -/
def Extends (store store' : Key → Option Value) : Prop :=
  ∀ key value, store key = some value → store' key = some value

inductive Step (digest : Value → Key) : (Key → Option Value) → (Key → Option Value) → Prop
  | idle (store : Key → Option Value) : Step digest store store
  | sealed {store store' : Key → Option Value} (value : Value)
      (hfree : store (digest value) = none) (hsealed : store' (digest value) = some value)
      (hframe : ∀ key, key ≠ digest value → store' key = store key) :
      Step digest store store'

variable {digest : Value → Key} {store store' : Key → Option Value}

theorem Step.addressed (hstep : Step digest store store') (h : Addressed digest store) :
    Addressed digest store' := by
  cases hstep with
  | idle => exact h
  | sealed value hfree hsealed hframe =>
    intro key v hv
    by_cases hkey : key = digest value
    · rw [hkey, hsealed, Option.some.injEq] at hv
      rw [hkey, hv]
    · rw [hframe key hkey] at hv
      exact h key v hv

theorem Step.extends (hstep : Step digest store store') : Extends store store' := by
  cases hstep with
  | idle => exact fun _ _ hv => hv
  | sealed value hfree hsealed hframe =>
    intro key v hv
    have hkey : key ≠ digest value := by
      rintro rfl
      rw [hfree] at hv
      cases hv
    rw [hframe key hkey]
    exact hv

theorem Extends.refl (store : Key → Option Value) : Extends store store := fun _ _ hv => hv

theorem Extends.trans {a b c : Key → Option Value} (hab : Extends a b) (hbc : Extends b c) :
    Extends a c :=
  fun key value hv => hbc key value (hab key value hv)

theorem run_extends (hrun : ReflTransGen (Step digest) store store') :
    Extends store store' := by
  induction hrun with
  | refl => exact Extends.refl _
  | tail _ hlast ih => exact ih.trans hlast.extends

end ContentStore
