import FurcateMesh.Library.Serde

/-!
# Records are read by name

What a reader makes of a record depends only on the values given for each of its field
names: the order of the entries does not matter, and entries with other names are skipped.
A name that is given twice is refused.

Two records agree on some names if they give the same values for each of them (`AgreeOn`); a
permutation of entries with distinct names does, and so does adding entries with other names.
A reader cannot tell such records apart (`readRecord_agree`).
-/

namespace Serde

/-- The values given for a name, in order. -/
def valuesOf (name : String) (entries : List (String × Value)) : List Value :=
  (entries.filter fun entry => entry.1 = name).map Prod.snd

/-- The two records give the same values for each of the names. -/
def AgreeOn (names : List String) (entries entries' : List (String × Value)) : Prop :=
  ∀ name ∈ names, valuesOf name entries = valuesOf name entries'

section Values

variable {names : List String} {name : String} {entries entries' : List (String × Value)}

theorem valuesOf_cons (name : String) (entry : String × Value) (entries : List (String × Value)) :
    valuesOf name (entry :: entries) =
      if entry.1 = name then entry.2 :: valuesOf name entries else valuesOf name entries := by
  unfold valuesOf
  by_cases h : entry.1 = name
  · rw [List.filter_cons_of_pos (by simpa using h), List.map_cons, if_pos h]
  · rw [List.filter_cons_of_neg (by simpa using h), if_neg h]

theorem length_valuesOf (name : String) (entries : List (String × Value)) :
    (valuesOf name entries).length = (entries.map Prod.fst).count name := by
  induction entries with
  | nil => rfl
  | cons entry entries ih =>
    rw [valuesOf_cons, List.map_cons, List.count_cons]
    by_cases h : entry.1 = name
    · rw [if_pos h, List.length_cons, ih, if_pos (beq_iff_eq.mpr h)]
    · rw [if_neg h, ih, if_neg (by simpa using h), Nat.add_zero]

theorem lookup_eq_head? (name : String) (entries : List (String × Value)) :
    entries.lookup name = (valuesOf name entries).head? := by
  induction entries with
  | nil => rfl
  | cons entry entries ih =>
    rw [valuesOf_cons, List.lookup_cons]
    by_cases h : entry.1 = name
    · rw [if_pos h, List.head?_cons, beq_iff_eq.mpr h.symm]
    · rw [if_neg h, beq_false_of_ne (Ne.symm h)]
      exact ih

/-- Dropping entries with other names changes nothing. -/
theorem valuesOf_filter (keep : String → Bool) (h : keep name = true) :
    valuesOf name (entries.filter fun entry => keep entry.1) = valuesOf name entries := by
  unfold valuesOf
  rw [List.filter_filter]
  congr 1
  apply List.filter_congr
  intro entry _
  by_cases hname : entry.1 = name
  · simp [hname, h]
  · simp [hname]

theorem valuesOf_filter_dropped (keep : String → Bool) (h : keep name = false) :
    valuesOf name (entries.filter fun entry => keep entry.1) = [] := by
  unfold valuesOf
  rw [List.map_eq_nil_iff, List.filter_eq_nil_iff]
  intro entry hentry hname
  rw [decide_eq_true_eq] at hname
  have hkept := (List.mem_filter.mp hentry).2
  rw [hname, h] at hkept
  cases hkept

theorem AgreeOn.filter (h : AgreeOn names entries entries') (keep : String → Bool) :
    AgreeOn names (entries.filter fun entry => keep entry.1)
      (entries'.filter fun entry => keep entry.1) := by
  intro name hname
  cases hkeep : keep name with
  | true => rw [valuesOf_filter keep hkeep, valuesOf_filter keep hkeep, h name hname]
  | false => rw [valuesOf_filter_dropped keep hkeep, valuesOf_filter_dropped keep hkeep]

/-- Every name is given at most once. -/
theorem nodup_filter_iff :
    ((entries.filter fun entry => entry.1 ∈ names).map Prod.fst).Nodup ↔
      ∀ name ∈ names, (valuesOf name entries).length ≤ 1 := by
  rw [List.nodup_iff_count_le_one]
  constructor
  · intro h name hname
    rw [← valuesOf_filter (fun n => n ∈ names) (decide_eq_true hname), length_valuesOf]
    exact h name
  · intro h name
    rw [← length_valuesOf]
    by_cases hname : name ∈ names
    · rw [valuesOf_filter (fun n => n ∈ names) (decide_eq_true hname)]
      exact h name hname
    · rw [valuesOf_filter_dropped (fun n => n ∈ names) (decide_eq_false hname)]
      exact Nat.zero_le 1

/-- A permutation of entries with distinct names agrees with them. -/
theorem valuesOf_perm (hperm : entries.Perm entries')
    (honce : (valuesOf name entries).length ≤ 1) :
    valuesOf name entries = valuesOf name entries' := by
  have hvalues : (valuesOf name entries).Perm (valuesOf name entries') :=
    (hperm.filter _).map _
  match hfirst : valuesOf name entries with
  | [] =>
    rw [hfirst] at hvalues
    exact hvalues.nil_eq
  | [value] =>
    rw [hfirst] at hvalues
    exact List.singleton_perm.mp hvalues
  | _ :: _ :: _ =>
    rw [hfirst] at honce
    simp at honce

end Values

/-! ### Readers -/

section Readers

variable {names : List String} {entries entries' : List (String × Value)}

/-- The entries with known names are the fields, if no name comes twice. -/
theorem readEntries_eq_ok {fields : List (String × Value)} :
    readEntries names (entries.map fun entry => (.text entry.1, entry.2)) = .ok fields ↔
      fields = entries.filter (fun entry => entry.1 ∈ names) ∧ (fields.map Prod.fst).Nodup := by
  induction entries generalizing fields with
  | nil =>
    constructor
    · intro h
      cases h
      exact ⟨rfl, List.nodup_nil⟩
    · rintro ⟨rfl, -⟩
      rfl
  | cons entry entries ih =>
    rw [List.map_cons, readEntries, readField]
    by_cases hname : entry.1 ∈ names
    · rw [if_pos hname, List.filter_cons_of_pos (by simpa using hname)]
      cases hrest : readEntries names (entries.map fun entry => (.text entry.1, entry.2)) with
      | error e =>
        constructor
        · intro h
          cases h
        · rintro ⟨rfl, hnodup⟩
          rw [List.map_cons, List.nodup_cons] at hnodup
          rw [ih.mpr ⟨rfl, hnodup.2⟩] at hrest
          cases hrest
      | ok found =>
        obtain ⟨rfl, hfound⟩ := ih.mp hrest
        simp only
        split
        · next hmem =>
          constructor
          · intro h
            cases h
          · rintro ⟨rfl, hnodup⟩
            exact absurd hmem (List.nodup_cons.mp hnodup).1
        · next hmem =>
          constructor
          · intro h
            cases h
            exact ⟨rfl, List.nodup_cons.mpr ⟨hmem, hfound⟩⟩
          · rintro ⟨rfl, -⟩
            rfl
    · rw [if_neg hname, List.filter_cons_of_neg (by simpa using hname), ← ih]
      cases readEntries names (entries.map fun entry => (.text entry.1, entry.2)) with
      | error e => exact Iff.rfl
      | ok found => exact Iff.rfl

/-- **Records that agree on the names are read alike.** -/
theorem readRecord_agree {expected : String} (hagree : AgreeOn names entries entries')
    {fields : Fields} (hread : readRecord expected names (record entries) = .ok fields) :
    ∃ fields', readRecord expected names (record entries') = .ok fields' ∧
      fields'.absent = fields.absent ∧
        ∀ name ∈ names, fields'.found.lookup name = fields.found.lookup name := by
  rw [record, readRecord] at hread
  cases hentries : readEntries names (entries.map fun entry => (.text entry.1, entry.2)) with
  | error e =>
    rw [hentries] at hread
    cases hread
  | ok found =>
    rw [hentries] at hread
    cases hread
    obtain ⟨rfl, hnodup⟩ := readEntries_eq_ok.mp hentries
    have hnodup' : ((entries'.filter fun entry => entry.1 ∈ names).map Prod.fst).Nodup := by
      rw [nodup_filter_iff] at hnodup ⊢
      intro name hname
      rw [← hagree name hname]
      exact hnodup name hname
    refine ⟨⟨entries'.filter fun entry => entry.1 ∈ names, .missingField⟩, ?_, rfl, ?_⟩
    · rw [record, readRecord, readEntries_eq_ok.mpr ⟨rfl, hnodup'⟩]
      rfl
    · intro name hname
      rw [lookup_eq_head?, lookup_eq_head?,
        hagree.filter (fun n => n ∈ names) name hname]

/-- The tag is the only value given for its name. -/
theorem readTagged_eq_ok {expected tag : String} {variant content : Value} :
    readTagged expected tag (record entries) = .ok (variant, content) ↔
      valuesOf tag entries = [variant] ∧
        content = record (entries.filter fun entry => entry.1 != tag) := by
  have hnamed : (entries.map fun entry => (Value.text entry.1, entry.2)).filter
      (fun entry => isName tag entry.1) =
        (entries.filter fun entry => entry.1 = tag).map fun entry => (.text entry.1, entry.2) := by
    rw [List.filter_map]
    rfl
  have hothers : (entries.map fun entry => (Value.text entry.1, entry.2)).filter
      (fun entry => !isName tag entry.1) =
        (entries.filter fun entry => entry.1 != tag).map fun entry =>
          (.text entry.1, entry.2) := by
    rw [List.filter_map]
    rfl
  rw [record, readTagged, hnamed, hothers, valuesOf]
  cases entries.filter fun entry => entry.1 = tag with
  | nil => exact ⟨fun h => (by cases h), fun h => (by cases h.1)⟩
  | cons first rest =>
    cases rest with
    | nil =>
      constructor
      · intro h
        cases h
        exact ⟨rfl, rfl⟩
      · rintro ⟨hvariant, rfl⟩
        cases hvariant
        rfl
    | cons second rest => exact ⟨fun h => (by cases h), fun h => (by cases h.1)⟩

end Readers

end Serde
