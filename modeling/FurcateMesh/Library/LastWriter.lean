import Mathlib.Data.List.Induction
import Mathlib.Data.List.MinMax
import Mathlib.Logic.Function.Basic

/-!
# Last writer wins, and last arrival wins

A replicated map receives stamped writes.  Last-writer-wins keeps, for each key, the
value with the largest stamp.  A replica that overwrites without looking at the
stamps keeps the value that arrived last.

The two agree in every order of arrival exactly when no two writes to one key
carry different values (`converges_iff`): as soon as there is a conflict to
resolve, the order of arrival resolves it.

Writes are read off events by a partial function, since a replica may also receive events
that write nothing; an order of arrival is a permutation of the events.
-/

namespace LastWriter

structure Write (Key Stamp Value : Type*) where
  key : Key
  stamp : Stamp
  value : Value

variable {Key Stamp Value Event : Type*}

/-- The write has the largest stamp among the writes to its key. -/
structure IsLatest [LE Stamp] (writes : List (Write Key Stamp Value)) (key : Key)
    (w : Write Key Stamp Value) : Prop where
  mem : w ∈ writes
  key_eq : w.key = key
  greatest : ∀ other ∈ writes, other.key = key → other.stamp ≤ w.stamp

/-- The view holds, for each key, the value of a latest write. -/
def LastWriterWins [LE Stamp] (writes : List (Write Key Stamp Value))
    (view : Key → Option Value) : Prop :=
  ∀ key value, view key = some value ↔ ∃ w, IsLatest writes key w ∧ w.value = value

def ConflictFree (writes : List (Write Key Stamp Value)) : Prop :=
  ∀ w ∈ writes, ∀ w' ∈ writes, w.key = w'.key → w.value = w'.value

section Arrival

variable [DecidableEq Key]

theorem exists_isLatest [LinearOrder Stamp] {writes : List (Write Key Stamp Value)}
    {w : Write Key Stamp Value} (hw : w ∈ writes) : ∃ latest, IsLatest writes w.key latest := by
  have hmem : w ∈ writes.filter fun v => v.key = w.key := List.mem_filter.mpr ⟨hw, by simp⟩
  cases hmax : (writes.filter fun v => v.key = w.key).argmax Write.stamp with
  | none =>
    rw [List.argmax_eq_none.mp hmax] at hmem
    cases hmem
  | some latest =>
    obtain ⟨hin, hkey⟩ := List.mem_filter.mp (List.argmax_mem hmax)
    refine ⟨latest, hin, of_decide_eq_true hkey, fun other hother hsame => ?_⟩
    exact List.le_of_mem_argmax (List.mem_filter.mpr ⟨hother, decide_eq_true hsame⟩) hmax

def arriveAll (writes : List (Write Key Stamp Value)) : Key → Option Value :=
  writes.foldl (fun view w => Function.update view w.key (some w.value)) fun _ => none

theorem arriveAll_concat (writes : List (Write Key Stamp Value)) (w : Write Key Stamp Value) :
    arriveAll (writes ++ [w]) = Function.update (arriveAll writes) w.key (some w.value) := by
  rw [arriveAll, List.foldl_append]
  rfl

theorem arriveAll_eq_some {writes : List (Write Key Stamp Value)} {key : Key} {value : Value}
    (h : arriveAll writes key = some value) : ∃ w ∈ writes, w.key = key ∧ w.value = value := by
  induction writes using List.reverseRecOn with
  | nil => cases h
  | append_singleton writes w ih =>
    rw [arriveAll_concat] at h
    by_cases hkey : key = w.key
    · subst hkey
      rw [Function.update_self, Option.some.injEq] at h
      exact ⟨w, by simp, rfl, h⟩
    · rw [Function.update_of_ne hkey] at h
      obtain ⟨v, hv, hrest⟩ := ih h
      exact ⟨v, by simp [hv], hrest⟩

theorem exists_arriveAll_eq {writes : List (Write Key Stamp Value)} {w : Write Key Stamp Value}
    (hw : w ∈ writes) : ∃ value, arriveAll writes w.key = some value := by
  induction writes using List.reverseRecOn with
  | nil => cases hw
  | append_singleton writes last ih =>
    rw [arriveAll_concat]
    by_cases hkey : w.key = last.key
    · exact ⟨last.value, by rw [hkey, Function.update_self]⟩
    · rw [Function.update_of_ne hkey]
      refine ih ((List.mem_append.mp hw).resolve_right fun hlast => hkey ?_)
      rw [List.mem_singleton.mp hlast]

/-- Without conflicts every order of arrival ends in the one value there is. -/
theorem arriveAll_of_conflictFree {writes order : List (Write Key Stamp Value)}
    (hfree : ConflictFree writes) (horder : ∀ w, w ∈ order ↔ w ∈ writes)
    {w : Write Key Stamp Value} (hw : w ∈ writes) : arriveAll order w.key = some w.value := by
  obtain ⟨value, hvalue⟩ := exists_arriveAll_eq ((horder w).mpr hw)
  obtain ⟨v, hv, hkey, rfl⟩ := arriveAll_eq_some hvalue
  rw [hvalue, hfree v ((horder v).mp hv) w hw hkey]

theorem lastWriterWins_of_conflictFree [LinearOrder Stamp]
    {writes order : List (Write Key Stamp Value)} (hfree : ConflictFree writes)
    (horder : ∀ w, w ∈ order ↔ w ∈ writes) : LastWriterWins writes (arriveAll order) := by
  intro key value
  constructor
  · intro h
    obtain ⟨w, hw, rfl, rfl⟩ := arriveAll_eq_some h
    obtain ⟨latest, hlatest⟩ := exists_isLatest ((horder w).mp hw)
    exact ⟨latest, hlatest, hfree latest hlatest.mem w ((horder w).mp hw) hlatest.key_eq⟩
  · rintro ⟨latest, hlatest, rfl⟩
    rw [← hlatest.key_eq]
    exact arriveAll_of_conflictFree hfree horder hlatest.mem

/-- **When overwriting on arrival converges.**  Events reach the replica in any
    order, and some of them write.  All orders give one view, and it is
    last-writer-wins, iff no two of the writes conflict. -/
theorem converges_iff [LinearOrder Stamp] (write : Event → Option (Write Key Stamp Value))
    (events : List Event) :
    (∀ order order' : List Event, order.Perm events → order'.Perm events →
        arriveAll (order.filterMap write) = arriveAll (order'.filterMap write) ∧
          LastWriterWins (events.filterMap write) (arriveAll (order.filterMap write))) ↔
      ConflictFree (events.filterMap write) := by
  constructor
  · intro hsame w hw w' hw' hkey
    obtain ⟨event, hevent, hwrite⟩ := List.mem_filterMap.mp hw
    obtain ⟨event', hevent', hwrite'⟩ := List.mem_filterMap.mp hw'
    -- let each of the two arrive last
    obtain ⟨before, after, hsplit⟩ := List.append_of_mem hevent
    obtain ⟨before', after', hsplit'⟩ := List.append_of_mem hevent'
    have hviews := (hsame ((before ++ after) ++ [event]) ((before' ++ after') ++ [event'])
      (by rw [hsplit, List.append_assoc]; exact (List.perm_append_singleton event after).append_left before)
      (by rw [hsplit', List.append_assoc]
          exact (List.perm_append_singleton event' after').append_left before')).1
    simp only [List.filterMap_append, List.filterMap_cons, List.filterMap_nil, hwrite, hwrite',
      arriveAll_concat] at hviews
    have hvalue := congrFun hviews w.key
    rw [Function.update_self, hkey, Function.update_self, Option.some.injEq] at hvalue
    exact hvalue
  · intro hfree order order' horder horder'
    have hmem : ∀ {l : List Event}, l.Perm events → ∀ w, w ∈ l.filterMap write ↔
        w ∈ events.filterMap write := fun hl w => (hl.filterMap write).mem_iff
    refine ⟨funext fun key => ?_, lastWriterWins_of_conflictFree hfree (hmem horder)⟩
    apply Option.ext
    intro value
    rw [lastWriterWins_of_conflictFree hfree (hmem horder) key value,
      lastWriterWins_of_conflictFree hfree (hmem horder') key value]

end Arrival

end LastWriter
