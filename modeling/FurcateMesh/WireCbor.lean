import FurcateMesh.Library.Cbor
import FurcateMesh.Wire

/-!
# CBOR frames

`wire::cbor` of `furcate-mesh-core/src/wire.rs` over what ciborium does: `into_writer` writes
an event as one item with the fields in the order of their declaration, and `from_reader`
reads one item from the front of the frame.

Nothing looks at the rest of a frame, so an event followed by any bytes is read as the
event (`frame_with_rest_iff`).  And the order of declaration is in no variant the order of
the encoded keys, so no event is written in deterministic form
(`frame_never_deterministic`).
-/

namespace FurcateMesh.Wire

open Serde

/-! ### What stands behind a frame -/

theorem cborToVec_eq (cbor : Cbor.Codec) (event : MeshEvent) :
    cborToVec cbor.toFormat event = .ok (Cbor.encode (eventSerialize event)) := by
  rw [cborToVec, cbor.writes _ (portable_event event)]

theorem cborFromSlice_append (cbor : Cbor.Codec) (event : MeshEvent) (rest : Bytes) :
    cborFromSlice cbor.toFormat (Cbor.encode (eventSerialize event) ++ rest) = .ok event := by
  have hread : cbor.fromSlice (Cbor.encode (eventSerialize event) ++ rest) =
      .ok (eventSerialize event) := by
    rw [cbor.reads_front, cbor.leaves_rest _ rest (portable_event event)]
    rfl
  rw [cborFromSlice, hread]
  simp only [event_round_trip]

/-- **Bytes behind a frame are never noticed.**  For every event and every byte string: the
    encoded event with the bytes behind it decodes to the event, so decoding fails on what
    is not empty only if it is empty. -/
theorem frame_with_rest_iff (cbor : Cbor.Codec) (event : MeshEvent) :
    ∃ bytes, cborToVec cbor.toFormat event = .ok bytes ∧
      ∀ rest, cborFromSlice cbor.toFormat (bytes ++ rest) = .ok event ∧
        ((rest ≠ [] → ∃ e, cborFromSlice cbor.toFormat (bytes ++ rest) = .error e) ↔ rest = []) := by
  refine ⟨_, cborToVec_eq cbor event, ?_⟩
  intro rest
  have hok := cborFromSlice_append cbor event rest
  refine ⟨hok, ?_⟩
  constructor
  · intro hfails
    by_contra hrest
    obtain ⟨e, he⟩ := hfails hrest
    rw [hok] at he
    cases he
  · intro hempty hrest
    exact absurd hempty hrest

/-- A heartbeat and a reading in one frame: the reading is lost without an error. -/
theorem second_event_is_dropped :
    ∃ first second, cborToVec Cbor.codec.toFormat (Sample.heartbeat ⟨0⟩) = .ok first ∧
      cborToVec Cbor.codec.toFormat (Sample.reading ⟨0⟩ none) = .ok second ∧ second ≠ [] ∧
      cborFromSlice Cbor.codec.toFormat (first ++ second) = .ok (Sample.heartbeat ⟨0⟩) := by
  refine ⟨_, _, cborToVec_eq Cbor.codec _, cborToVec_eq Cbor.codec _, ?_,
    cborFromSlice_append Cbor.codec (Sample.heartbeat ⟨0⟩) _⟩
  exact List.ne_nil_of_length_pos (Cbor.length_encode_pos _)

/-! ### The order of the keys -/

theorem not_ordered_of_keys {first second : String} {value value' : Value}
    {fields : List (String × Value)}
    (h : ¬ Cbor.encode (.text first) < Cbor.encode (.text second)) :
    ¬ Cbor.Ordered (record ((first, value) :: (second, value') :: fields)) := by
  intro hordered
  cases hordered with
  | map entries hkeys hnested hvalues =>
    simp only [List.map_cons, List.pairwise_cons, List.mem_cons, forall_eq_or_imp] at hkeys
    exact h hkeys.1.1

theorem Ordered.field {fields : List (String × Value)} (h : Cbor.Ordered (record fields))
    {field : String × Value} (hmem : field ∈ fields) : Cbor.Ordered field.2 := by
  cases h with
  | map entries hkeys hnested hvalues =>
    exact hvalues (.text field.1, field.2) (List.mem_map.mpr ⟨field, hmem, rfl⟩)

/-- `wall_ms` is declared before `counter`. -/
theorem clock_not_ordered (clock : HybridLogicalClock) : ¬ Cbor.Ordered (clockSerialize clock) :=
  not_ordered_of_keys (by decide +kernel)

/-- The tag `kind` is written before `from`. -/
theorem tag_not_ordered {value value' : Value} {fields : List (String × Value)} :
    ¬ Cbor.Ordered (record (("kind", value) :: ("from", value') :: fields)) :=
  not_ordered_of_keys (by decide +kernel)

/-- Every variant has a clock, or a sender behind its tag. -/
theorem event_not_ordered (event : MeshEvent) : ¬ Cbor.Ordered (eventSerialize event) := by
  intro h
  have hclock : ∀ clock, ("clock", clockSerialize clock) ∉ eventFields event := by
    intro clock hmem
    exact clock_not_ordered clock (Ordered.field h (List.mem_cons_of_mem _ hmem))
  cases event with
  | workOffer sender target request hops => exact tag_not_ordered h
  | workResult sender target response => exact tag_not_ordered h
  | _ => exact hclock _ (.tail _ (.head _))

/-- **No event is written in deterministic form.**  For every event of every variant, with
    or without its optional field: lengths are definite and heads shortest, so the frame is
    deterministic iff its keys are in the order of their encodings, and they never are. -/
theorem frame_never_deterministic (cbor : Cbor.Codec) (event : MeshEvent) :
    ∃ bytes, cborToVec cbor.toFormat event = .ok bytes ∧
      (Cbor.Deterministic bytes ↔ Cbor.Ordered (eventSerialize event)) ∧
      ¬ Cbor.Deterministic bytes := by
  have hiff := Cbor.deterministic_encode_iff (eventSerialize event)
  refine ⟨_, cborToVec_eq cbor event, hiff, ?_⟩
  rw [hiff]
  exact event_not_ordered event

/-- In the frame of a heartbeat the clock is a map with `wall_ms` before `counter`. -/
theorem heartbeat_frame_not_deterministic :
    (∃ bytes, cborToVec Cbor.codec.toFormat (Sample.heartbeat ⟨0⟩) = .ok bytes ∧
      ¬ Cbor.Deterministic bytes) ∧
    Cbor.encode (clockSerialize ⟨1, 2⟩) =
      [0xA2, 0x67, 0x77, 0x61, 0x6C, 0x6C, 0x5F, 0x6D, 0x73, 0x01,
        0x67, 0x63, 0x6F, 0x75, 0x6E, 0x74, 0x65, 0x72, 0x02] := by
  constructor
  · refine ⟨_, cborToVec_eq Cbor.codec _, ?_⟩
    rw [Cbor.deterministic_encode_iff]
    exact event_not_ordered _
  · decide +kernel

-- with the fields the other way round the clock would be in deterministic form
example : Cbor.Deterministic (Cbor.encode (record [("counter", .int 2), ("wall_ms", .int 1)])) := by
  rw [Cbor.deterministic_encode_iff]
  refine .map _ (by decide +kernel) ?_ ?_
  · simp [Cbor.Ordered.text]
  · simp [Cbor.Ordered.int]

end FurcateMesh.Wire
