import FurcateMesh.Library.RecordByName
import FurcateMesh.Wire

/-!
# Events of other versions

The derived `Deserialize` of `MeshEvent` in `furcate-mesh-core/src/lib.rs` reads fields by
name and skips the names it does not know.  So a payload decodes by what it gives for the
fields of its variant alone (`eventDeserialize_agree`): a peer reads the events of a version
that adds fields, or writes them in another order, as it reads its own
(`extended_event_decoded`).

A field that is given twice is an error, whichever value comes first, so the added fields must
have names of their own; and a version that adds a variant is not covered, since an unknown
tag is an error.
-/

namespace FurcateMesh.Wire

open Results Serde

section Congruence

variable {fields fields' : Fields}

/-- A field is read from what was found under its name. -/
theorem required_congr {α : Type} {name : String} (read : Value → Except DecodeError α)
    (habsent : fields'.absent = fields.absent)
    (hlookup : fields'.found.lookup name = fields.found.lookup name) :
    fields'.required name read = fields.required name read := by
  rw [Fields.required, Fields.required, hlookup, habsent]

theorem withDefault_congr {α : Type} {name : String} (default : α)
    (read : Value → Except DecodeError α)
    (hlookup : fields'.found.lookup name = fields.found.lookup name) :
    fields'.withDefault name default read = fields.withDefault name default read := by
  rw [Fields.withDefault, Fields.withDefault, hlookup]

/-- An event is read from what was found under the names of its variant. -/
theorem eventOfFields_congr (kind : EventKind) (habsent : fields'.absent = fields.absent)
    (hlookup : ∀ name ∈ fieldNames kind, fields'.found.lookup name = fields.found.lookup name) :
    eventOfFields fields' kind = eventOfFields fields kind := by
  have hrequired : ∀ name ∈ fieldNames kind, ∀ (α : Type) (read : Value → Except DecodeError α),
      fields'.required name read = fields.required name read :=
    fun name hname _ read => required_congr read habsent (hlookup name hname)
  have hdefault : ∀ name ∈ fieldNames kind, ∀ (α : Type) (default : α)
      (read : Value → Except DecodeError α),
      fields'.withDefault name default read = fields.withDefault name default read :=
    fun name hname _ default read => withDefault_congr default read (hlookup name hname)
  cases kind <;> simp only [fieldNames, List.forall_mem_cons] at hrequired hdefault <;>
    simp only [eventOfFields, hrequired, hdefault]

end Congruence

/-- The event that is read is of the variant that was asked for. -/
theorem kind_of_eventOfFields {fields : Fields} {kind : EventKind} {event : MeshEvent}
    (h : eventOfFields fields kind = .ok event) : event.kind = kind := by
  cases kind <;> simp only [eventOfFields, bind_eq_ok_iff, pure, Except.pure, Except.ok.injEq] at h <;>
    grind [MeshEvent.kind]

/-- **A record decodes by its fields.**  A record decodes to an event if one does that gives the
    same values for the tag and for the field names of the event's variant. -/
theorem eventDeserialize_agree {entries entries' : List (String × Value)} {event : MeshEvent}
    (hagree : AgreeOn ("kind" :: fieldNames event.kind) entries entries')
    (h : eventDeserialize (record entries) = .ok event) :
    eventDeserialize (record entries') = .ok event := by
  rw [eventDeserialize, bind_eq_ok_iff] at h
  obtain ⟨⟨variant, content⟩, htagged, h⟩ := h
  obtain ⟨htag, rfl⟩ := readTagged_eq_ok.mp htagged
  simp only [bind_eq_ok_iff] at h
  obtain ⟨kind, hkind, fields, hfields, hevent⟩ := h
  obtain rfl := kind_of_eventOfFields hevent
  have hrest := (show AgreeOn (fieldNames event.kind) entries entries' from
    fun name hname => hagree name (List.mem_cons_of_mem _ hname)).filter fun name => name != "kind"
  obtain ⟨fields', hfields', habsent, hlookup⟩ := readRecord_agree hrest hfields
  have htag' : valuesOf "kind" entries' = [variant] := by
    rw [← hagree "kind" List.mem_cons_self, htag]
  rw [eventDeserialize, readTagged_eq_ok.mpr ⟨htag', rfl⟩]
  simp only [ok_bind, hkind, hfields', eventOfFields_congr _ habsent hlookup, hevent]

/-- The names that an event writes are written once, and no added field has one of them. -/
theorem length_valuesOf_event (event : MeshEvent) {added : List (String × Value)}
    (hadded : ∀ field ∈ added, field.1 ∉ "kind" :: fieldNames event.kind) :
    ∀ name ∈ "kind" :: fieldNames event.kind,
      valuesOf name (("kind", .text (tag event.kind)) :: eventFields event ++ added) =
        valuesOf name (("kind", .text (tag event.kind)) :: eventFields event) ∧
      (valuesOf name (("kind", .text (tag event.kind)) :: eventFields event)).length ≤ 1 := by
  intro name hname
  constructor
  · unfold valuesOf
    rw [List.filter_append, List.map_append]
    have hnone : added.filter (fun entry => entry.1 = name) = [] := by
      apply List.filter_eq_nil_iff.mpr
      intro field hfield hfound
      rw [decide_eq_true_eq] at hfound
      exact hadded field hfield (hfound ▸ hname)
    rw [hnone, List.map_nil, List.append_nil]
  · rw [length_valuesOf]
    exact List.nodup_iff_count_le_one.mp (eventFields_nodup event) name

/-- **Events of other versions decode.**  A payload, in either format, whose fields are those
    that an event writes, in any order and among any further fields with names the variant
    does not have, is decoded to that event. -/
theorem extended_event_decoded (cbor json : Format) (key : String) (event : MeshEvent)
    {added entries : List (String × Value)}
    (hadded : ∀ field ∈ added, field.1 ∉ "kind" :: fieldNames event.kind)
    (hperm : (("kind", .text (tag event.kind)) :: eventFields event ++ added).Perm entries) :
    (∀ payload, json.fromSlice payload = .ok (record entries) →
      decodeSample json key payload = .ok event) ∧
    ∀ frame, cbor.fromSlice frame = .ok (record entries) →
      cborFromSlice cbor frame = .ok event := by
  have hagree : AgreeOn ("kind" :: fieldNames event.kind)
      (("kind", .text (tag event.kind)) :: eventFields event) entries := by
    intro name hname
    obtain ⟨hsame, honce⟩ := length_valuesOf_event event hadded name hname
    rw [← hsame] at honce
    rw [← hsame, valuesOf_perm hperm honce]
  have hdecoded : eventDeserialize (record entries) = .ok event :=
    eventDeserialize_agree hagree (event_round_trip event)
  constructor
  · intro payload hpayload
    rw [decodeSample, hpayload]
    simp only [hdecoded]
  · intro frame hframe
    rw [cborFromSlice, hframe]
    simp only [hdecoded]

/-- A heartbeat with a field of its own, written from the last field to the tag. -/
def Sample.laterHeartbeat : List (String × Value) :=
  [("zone", .text "eu-west"), ("load", .float ⟨0⟩), ("clock", clockSerialize ⟨1700000000000, 3⟩),
    ("peer", peerSerialize Sample.peer), ("kind", .text "heartbeat")]

theorem extended_event_decoded_later :
    cborFromSlice ValueCode.exact (ValueCode.encode (record Sample.laterHeartbeat)) =
      .ok (Sample.heartbeat ⟨0⟩) := by
  have hadded : ∀ field ∈ [("zone", Value.text "eu-west")],
      field.1 ∉ "kind" :: fieldNames (Sample.heartbeat ⟨0⟩).kind := by
    intro field hfield
    rw [List.mem_singleton.mp hfield]
    decide
  apply (extended_event_decoded ValueCode.exact ValueCode.nullsNonFinite "k" (Sample.heartbeat ⟨0⟩)
    hadded (List.reverse_perm _).symm).2
  exact ValueCode.fromSlice_encode (record Sample.laterHeartbeat)

end FurcateMesh.Wire
