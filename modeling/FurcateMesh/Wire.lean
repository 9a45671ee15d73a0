import FurcateMesh.Library.Base64Url
import FurcateMesh.Library.ValueCode
import FurcateMesh.MeshEvent

/-!
# The wire form of events

The codecs of `furcate-mesh-core/src/wire.rs` and what the derived (de)serialisers of
`MeshEvent` do with them: an event is a record tagged by `kind`, with peers as lowercase
hex and payloads as unpadded base64url.  CBOR frames come from edge nodes; JSON is what
`Transport::publish` sends and `Transport::subscribe` reads.

Both formats carry an event with finite floats unchanged, if JSON reads every float back
exactly (`wire_round_trip`).  CBOR carries all floats.  JSON writes null for those that are
not finite, and what it reads for the text of a finite one is a parameter here, so a frame
can be relayed exactly when its float is finite and read back exactly (`relay_iff`).

Between an event and its bytes there are two stages.  The (de)serialisers go between events
and values of the library module `Serde`, and a format goes between values and bytes.  The
first stage is the program's own and is translated field by field: `eventFields` lists the
fields of each variant in the order of declaration, `eventOfFields` reads them.  The second
stage is a parameter, since it is the matter of ciborium and serde_json; a format is given by
what comes back of a value that it wrote.

* `Exact` keeps every value.  ciborium is such a format.
* `Decimal reread` keeps everything but floats.  A finite float comes back as `reread` of it,
  which is what the reader makes of the text that was written, and null comes back of a float
  that is not finite.  serde_json is such a format; without its feature `float_roundtrip` it
  reads floats with best effort, so `reread` need not be the float that was written.

Each field codec has a lemma that reading inverts writing and, for hex and base64, one that
says which texts are read.  Payloads are read in two ways, without padding and else with it;
that no text means two things is `base64url_exact`.

`relayed` is what a subscriber makes of a published event, and `json_relay` connects it with
the codecs; the theorems on relaying are about `relayed` from there on.
-/

namespace FurcateMesh.Wire

open Results Serde

/-! ### Field codecs -/

def hexArraySerialize (bytes : Vector UInt8 32) : Value := .text (hexEncode bytes.toList)

/-- Lowercase hex of 32 bytes; the length is that of the text's UTF-8 form. -/
def hexArrayDeserialize (value : Value) : Except DecodeError (Vector UInt8 32) := do
  let s ← readText value
  if s.utf8ByteSize ≠ 64 then
    .error (.invalidLength s.utf8ByteSize "a 64-character lowercase hex string")
  else if s.toList.any Char.isUpper then
    .error (.invalidValue "a lowercase hex string (uppercase hex is not canonical)")
  else
    match hexDecodeToSlice s with
    | .error _ => .error .custom
    | .ok bytes => .ok bytes

def base64urlSerialize (bytes : Bytes) : Value := .text (String.ofList (Base64Url.encode bytes))

/-- Unpadded, or else padded. -/
def base64urlDeserialize (value : Value) : Except DecodeError Bytes := do
  let s ← readText value
  match (Base64Url.decodeNoPad s.toList).or (Base64Url.decodePadded s.toList) with
  | none => .error .custom
  | some bytes => .ok bytes

def base64urlOptDeserialize : Value → Except DecodeError (Option Bytes) :=
  readOption base64urlDeserialize

/-- `None` is written as null. -/
def base64urlOptSerialize : Option Bytes → Value
  | some bytes => base64urlSerialize bytes
  | none => .null

def peerSerialize (peer : PeerId) : Value := hexArraySerialize peer.bytes

def peerDeserialize (value : Value) : Except DecodeError PeerId :=
  (hexArrayDeserialize value).map PeerId.mk

def clockSerialize (clock : HybridLogicalClock) : Value :=
  record [("wall_ms", .int clock.wallMs.toNat), ("counter", .int clock.counter.toNat)]

def u8Deserialize (value : Value) : Except DecodeError UInt8 :=
  (readUInt (2 ^ 8) "u8" value).map UInt8.ofNat

def u32Deserialize (value : Value) : Except DecodeError UInt32 :=
  (readUInt (2 ^ 32) "u32" value).map UInt32.ofNat

def u64Deserialize (value : Value) : Except DecodeError UInt64 :=
  (readUInt (2 ^ 64) "u64" value).map UInt64.ofNat

def clockDeserialize (value : Value) : Except DecodeError HybridLogicalClock := do
  let fields ← readRecord "struct HybridLogicalClock" ["wall_ms", "counter"] value
  let wallMs ← fields.required "wall_ms" u64Deserialize
  let counter ← fields.required "counter" u32Deserialize
  return ⟨wallMs, counter⟩

/-! ### Events -/

def variants : List EventKind :=
  [.heartbeat, .modelAnnounce, .workOffer, .workResult, .agentState, .sensorReading, .command,
    .attestation, .otaOffer, .otaStatus]

/-- The tag of a variant: its name in kebab case. -/
def tag : EventKind → String
  | .heartbeat => "heartbeat"
  | .modelAnnounce => "model-announce"
  | .workOffer => "work-offer"
  | .workResult => "work-result"
  | .agentState => "agent-state"
  | .sensorReading => "sensor-reading"
  | .command => "command"
  | .attestation => "attestation"
  | .otaOffer => "ota-offer"
  | .otaStatus => "ota-status"

/-- What the reader of a variant says it expects. -/
def expecting : EventKind → String
  | .heartbeat => "struct variant MeshEvent::Heartbeat"
  | .modelAnnounce => "struct variant MeshEvent::ModelAnnounce"
  | .workOffer => "struct variant MeshEvent::WorkOffer"
  | .workResult => "struct variant MeshEvent::WorkResult"
  | .agentState => "struct variant MeshEvent::AgentState"
  | .sensorReading => "struct variant MeshEvent::SensorReading"
  | .command => "struct variant MeshEvent::Command"
  | .attestation => "struct variant MeshEvent::Attestation"
  | .otaOffer => "struct variant MeshEvent::OtaOffer"
  | .otaStatus => "struct variant MeshEvent::OtaStatus"

def fieldNames : EventKind → List String
  | .heartbeat => ["peer", "clock", "load"]
  | .modelAnnounce => ["peer", "clock", "model_name", "digest_blake3", "format"]
  | .workOffer => ["from", "to", "request", "hops"]
  | .workResult => ["from", "to", "response"]
  | .agentState => ["peer", "clock", "agent_id", "state"]
  | .sensorReading => ["peer", "clock", "sensor_id", "metric", "value", "unit", "raw"]
  | .command => ["to", "clock", "verb", "params"]
  | .attestation => ["peer", "clock", "format", "evidence"]
  | .otaOffer => ["to", "clock", "image_id", "version", "url", "sha256", "size"]
  | .otaStatus => ["peer", "clock", "image_id", "state", "detail"]

def eventFields : MeshEvent → List (String × Value)
  | .heartbeat peer clock load =>
      [("peer", peerSerialize peer), ("clock", clockSerialize clock), ("load", .float load)]
  | .modelAnnounce peer clock modelName digestBlake3 format =>
      [("peer", peerSerialize peer), ("clock", clockSerialize clock),
        ("model_name", .text modelName), ("digest_blake3", .text digestBlake3),
        ("format", .text format)]
  | .workOffer sender target request hops =>
      [("from", peerSerialize sender), ("to", peerSerialize target),
        ("request", base64urlSerialize request), ("hops", .int hops.toNat)]
  | .workResult sender target response =>
      [("from", peerSerialize sender), ("to", peerSerialize target),
        ("response", base64urlSerialize response)]
  | .agentState peer clock agentId state =>
      [("peer", peerSerialize peer), ("clock", clockSerialize clock), ("agent_id", .text agentId),
        ("state", base64urlSerialize state)]
  | .sensorReading peer clock sensorId metric value unit raw =>
      -- an absent payload is skipped
      [("peer", peerSerialize peer), ("clock", clockSerialize clock),
        ("sensor_id", .text sensorId), ("metric", .text metric), ("value", .float value),
        ("unit", .text unit)] ++ raw.toList.map fun bytes => ("raw", base64urlSerialize bytes)
  | .command target clock verb params =>
      [("to", peerSerialize target), ("clock", clockSerialize clock), ("verb", .text verb),
        ("params", base64urlSerialize params)]
  | .attestation peer clock format evidence =>
      [("peer", peerSerialize peer), ("clock", clockSerialize clock), ("format", .text format),
        ("evidence", base64urlSerialize evidence)]
  | .otaOffer target clock imageId version url sha256 size =>
      [("to", peerSerialize target), ("clock", clockSerialize clock), ("image_id", .text imageId),
        ("version", .int version.toNat), ("url", .text url), ("sha256", .text sha256),
        ("size", .int size.toNat)]
  | .otaStatus peer clock imageId state detail =>
      [("peer", peerSerialize peer), ("clock", clockSerialize clock), ("image_id", .text imageId),
        ("state", .text state), ("detail", .text detail)]

def eventSerialize (event : MeshEvent) : Value :=
  record (("kind", .text (tag event.kind)) :: eventFields event)

def eventOfFields (fields : Fields) : EventKind → Except DecodeError MeshEvent
  | .heartbeat => do
      return .heartbeat (← fields.required "peer" peerDeserialize)
        (← fields.required "clock" clockDeserialize) (← fields.required "load" readFloat)
  | .modelAnnounce => do
      return .modelAnnounce (← fields.required "peer" peerDeserialize)
        (← fields.required "clock" clockDeserialize) (← fields.required "model_name" readText)
        (← fields.required "digest_blake3" readText) (← fields.required "format" readText)
  | .workOffer => do
      return .workOffer (← fields.required "from" peerDeserialize)
        (← fields.required "to" peerDeserialize)
        (← fields.required "request" base64urlDeserialize)
        (← fields.required "hops" u8Deserialize)
  | .workResult => do
      return .workResult (← fields.required "from" peerDeserialize)
        (← fields.required "to" peerDeserialize)
        (← fields.required "response" base64urlDeserialize)
  | .agentState => do
      return .agentState (← fields.required "peer" peerDeserialize)
        (← fields.required "clock" clockDeserialize) (← fields.required "agent_id" readText)
        (← fields.required "state" base64urlDeserialize)
  | .sensorReading => do
      return .sensorReading (← fields.required "peer" peerDeserialize)
        (← fields.required "clock" clockDeserialize) (← fields.required "sensor_id" readText)
        (← fields.required "metric" readText) (← fields.required "value" readFloat)
        (← fields.required "unit" readText) (← fields.withDefault "raw" none base64urlOptDeserialize)
  | .command => do
      return .command (← fields.required "to" peerDeserialize)
        (← fields.required "clock" clockDeserialize) (← fields.required "verb" readText)
        (← fields.required "params" base64urlDeserialize)
  | .attestation => do
      return .attestation (← fields.required "peer" peerDeserialize)
        (← fields.required "clock" clockDeserialize) (← fields.required "format" readText)
        (← fields.required "evidence" base64urlDeserialize)
  | .otaOffer => do
      return .otaOffer (← fields.required "to" peerDeserialize)
        (← fields.required "clock" clockDeserialize) (← fields.required "image_id" readText)
        (← fields.required "version" u32Deserialize) (← fields.required "url" readText)
        (← fields.required "sha256" readText) (← fields.required "size" u64Deserialize)
  | .otaStatus => do
      return .otaStatus (← fields.required "peer" peerDeserialize)
        (← fields.required "clock" clockDeserialize) (← fields.required "image_id" readText)
        (← fields.required "state" readText) (← fields.required "detail" readText)

def eventDeserialize (value : Value) : Except DecodeError MeshEvent := do
  let (variant, content) ← readTagged "internally tagged enum MeshEvent" "kind" value
  let kind ← readVariant tag variants variant
  let fields ← readRecord (expecting kind) (fieldNames kind) content
  eventOfFields fields kind

/-! ### The two codecs -/

/-- A failure of the format itself, or of the event in it. -/
inductive CodecError where
  | format (reason : String)
  | data (error : DecodeError)

inductive MeshError where
  | encoding (context : String) (cause : CodecError)

inductive TransportError where
  | encoding (context : String) (cause : CodecError)
  | zenoh (reason : String)

/-- `wire::cbor::to_vec`. -/
def cborToVec (cbor : Format) (event : MeshEvent) : Except MeshError Bytes :=
  match cbor.toVec (eventSerialize event) with
  | .error e => .error (.encoding "cbor encode: " (.format e))
  | .ok bytes => .ok bytes

/-- `wire::cbor::from_slice`. -/
def cborFromSlice (cbor : Format) (bytes : Bytes) : Except MeshError MeshEvent :=
  match cbor.fromSlice bytes with
  | .error e => .error (.encoding "cbor decode: " (.format e))
  | .ok value =>
      match eventDeserialize value with
      | .error e => .error (.encoding "cbor decode: " (.data e))
      | .ok event => .ok event

/-- The payload that `Transport::publish` sends. -/
def publishPayload (json : Format) (event : MeshEvent) : Except TransportError Bytes :=
  match json.toVec (eventSerialize event) with
  | .error e => .error (.encoding "encoding event: " (.format e))
  | .ok bytes => .ok bytes

/-- What `Transport::subscribe` makes of a payload that arrives on a key. -/
def decodeSample (json : Format) (key : String) (payload : Bytes) :
    Except TransportError MeshEvent :=
  match json.fromSlice payload with
  | .error e => .error (.encoding ("decoding event on " ++ key ++ ": ") (.format e))
  | .ok value =>
      match eventDeserialize value with
      | .error e => .error (.encoding ("decoding event on " ++ key ++ ": ") (.data e))
      | .ok event => .ok event

/-- The event's float, if it has one, is finite. -/
def finite : MeshEvent → Bool
  | .heartbeat _ _ load => load.isFinite
  | .sensorReading _ _ _ _ value _ _ => value.isFinite
  | _ => true

/-! ### Field codecs round trip -/

theorem hexArray_round_trip (bytes : Vector UInt8 32) :
    hexArrayDeserialize (hexArraySerialize bytes) = .ok bytes := by
  have hlen : (hexEncode bytes.toList).utf8ByteSize = 64 := by
    rw [utf8ByteSize_hexEncode, Vector.length_toList]
  have hlower : ∀ c ∈ (hexEncode bytes.toList).toList, c.isUpper = false := fun c hc =>
    isUpper_of_hexDigit ((hexEncode_isHexDigest Vector.length_toList).2 c hc)
  simpa [hexArrayDeserialize, hexArraySerialize, hlen, hexDecodeToSlice_hexEncode] using hlower

@[simp] theorem peer_round_trip (peer : PeerId) :
    peerDeserialize (peerSerialize peer) = .ok peer := by
  rw [peerDeserialize, peerSerialize, hexArray_round_trip]
  rfl

@[simp] theorem base64url_round_trip (bytes : Bytes) :
    base64urlDeserialize (base64urlSerialize bytes) = .ok bytes := by
  simp [base64urlDeserialize, base64urlSerialize, Base64Url.decode_encode]

@[simp] theorem base64urlOpt_round_trip (bytes : Bytes) :
    base64urlOptDeserialize (base64urlSerialize bytes) = .ok (some bytes) := by
  have hread : base64urlOptDeserialize (base64urlSerialize bytes) =
      (base64urlDeserialize (base64urlSerialize bytes)).map some := rfl
  rw [hread, base64url_round_trip]
  rfl

@[simp] theorem u8_round_trip (n : UInt8) : u8Deserialize (.int n.toNat) = .ok n := by
  rw [u8Deserialize, readUInt_int "u8" n.toNat_lt]
  simp [Except.map]

@[simp] theorem u32_round_trip (n : UInt32) : u32Deserialize (.int n.toNat) = .ok n := by
  rw [u32Deserialize, readUInt_int "u32" n.toNat_lt]
  simp [Except.map]

@[simp] theorem u64_round_trip (n : UInt64) : u64Deserialize (.int n.toNat) = .ok n := by
  rw [u64Deserialize, readUInt_int "u64" n.toNat_lt]
  simp [Except.map]

@[simp] theorem clock_round_trip (clock : HybridLogicalClock) :
    clockDeserialize (clockSerialize clock) = .ok clock := by
  rw [clockDeserialize, clockSerialize, readRecord_record _ (by simp) (by simp), ok_bind]
  simp [Fields.required_cons, pure, Except.pure]

/-! ### The texts the field codecs accept -/

theorem hexArrayDeserialize_eq_ok {s : String} {bytes : Vector UInt8 32} :
    hexArrayDeserialize (.text s) = .ok bytes ↔ hexEncode bytes.toList = s := by
  constructor
  · intro h
    rw [hexArrayDeserialize, readText, ok_bind] at h
    split at h
    · cases h
    · split at h
      · cases h
      · next hlower =>
        split at h
        · cases h
        · next hslice =>
          cases h
          rw [hexDecodeToSlice_eq_ok.mp hslice]
          exact toAsciiLowercase_of_not_upper (by simpa using hlower)
  · rintro rfl
    exact hexArray_round_trip bytes

/-- **The text forms of a peer id agree.**  The strict reader accepts exactly the 64
    lowercase hex digits, each as the bytes that are written that way; `from_hex` accepts
    exactly the texts whose lowercase form the strict reader accepts, as the same bytes, and
    writes them in lowercase; both invert writing. -/
theorem peer_text_forms_agree :
    (∀ s, (∃ bytes, hexArrayDeserialize (.text s) = .ok bytes) ↔ IsHexDigest s) ∧
    (∀ s bytes, hexArrayDeserialize (.text s) = .ok bytes → hexArraySerialize bytes = .text s) ∧
    (∀ s, (∃ peer, PeerId.fromHex s = .ok peer) ↔
      ∃ bytes, hexArrayDeserialize (.text (toAsciiLowercase s)) = .ok bytes) ∧
    (∀ s peer, PeerId.fromHex s = .ok peer →
      hexArrayDeserialize (.text (toAsciiLowercase s)) = .ok peer.bytes ∧
        peer.toHex = toAsciiLowercase s) ∧
    ∀ bytes, hexArrayDeserialize (hexArraySerialize bytes) = .ok bytes ∧
      PeerId.fromHex (hexEncode bytes.toList) = .ok ⟨bytes⟩ := by
  simp only [hexArrayDeserialize_eq_ok, PeerId.fromHex_eq_ok]
  refine ⟨fun s => isHexDigest_iff.symm, ?_, ?_, ?_, ?_⟩
  · rintro s bytes rfl
    rfl
  · intro s
    exact ⟨fun ⟨peer, h⟩ => ⟨peer.bytes, h⟩, fun ⟨bytes, h⟩ => ⟨⟨bytes⟩, h⟩⟩
  · intro s peer h
    exact ⟨h, h⟩
  · intro bytes
    exact ⟨hexArray_round_trip bytes, PeerId.fromHex_eq_ok.mp (PeerId.fromHex_toHex ⟨bytes⟩)⟩

theorem base64urlDeserialize_text (s : String) :
    base64urlDeserialize (.text s) =
      ((Base64Url.decodeNoPad s.toList).or (Base64Url.decodePadded s.toList)).elim
        (.error .custom) .ok := by
  rw [base64urlDeserialize, readText, ok_bind]
  rcases (Base64Url.decodeNoPad s.toList).or (Base64Url.decodePadded s.toList) with _ | bytes
  · rfl
  · rfl

/-- Two texts are read as the bytes: the one that is written and its padded form. -/
theorem base64urlDeserialize_eq_ok {s : String} {bytes : Bytes} :
    base64urlDeserialize (.text s) = .ok bytes ↔
      s.toList = Base64Url.encode bytes ∨
        ∃ count < 4, 4 ∣ (Base64Url.encode bytes).length + count ∧
          s.toList = Base64Url.encode bytes ++ List.replicate count '=' := by
  have hpadded : (∃ count < 4, 4 ∣ (Base64Url.encode bytes).length + count ∧
      s.toList = Base64Url.encode bytes ++ List.replicate count '=') ↔
        Base64Url.decodePadded s.toList = some bytes := by
    rw [Base64Url.decodePadded_eq_some]
    constructor
    · rintro ⟨count, hlt, hdvd, htext⟩
      rw [htext, ← Base64Url.padding_eq_iff.mpr ⟨hlt, hdvd⟩]
    · intro htext
      obtain ⟨hlt, hdvd⟩ := Base64Url.padding_eq_iff.mp rfl
      exact ⟨_, hlt, hdvd, htext⟩
  rw [hpadded, ← Base64Url.decodeNoPad_eq_some, base64urlDeserialize_text]
  rcases hnoPad : Base64Url.decodeNoPad s.toList with _ | first
  · rcases Base64Url.decodePadded s.toList with _ | second
    · simp
    · simp
  · simp only [Option.some_or, Option.elim_some, Except.ok.injEq, Option.some.injEq]
    constructor
    · exact .inl
    · rintro (rfl | hsecond)
      · rfl
      · exact Base64Url.decoders_agree hnoPad hsecond

/-- **Payload texts are exact and unambiguous.**  A text is read as the bytes exactly when it
    is their unpadded encoding, or that encoding with the padding that completes the last
    group of four.  So reading inverts writing, each byte string has at most two texts,
    writing what was read strips the padding, no text means two things to the two decoders
    tried in turn, and the codec of optional payloads agrees on every value that is present. -/
theorem base64url_exact :
    (∀ s bytes, base64urlDeserialize (.text s) = .ok bytes ↔
      s.toList = Base64Url.encode bytes ∨
        ∃ count < 4, 4 ∣ (Base64Url.encode bytes).length + count ∧
          s.toList = Base64Url.encode bytes ++ List.replicate count '=') ∧
    (∀ bytes, base64urlDeserialize (base64urlSerialize bytes) = .ok bytes) ∧
    (∀ bytes, {s | base64urlDeserialize (.text s) = .ok bytes}.encard ≤ 2) ∧
    (∀ s bytes, base64urlDeserialize (.text s) = .ok bytes →
      base64urlSerialize bytes = .text (String.ofList (s.toList.rdropWhile (· == '=')))) ∧
    (∀ s left right, Base64Url.decodeNoPad s = some left →
      Base64Url.decodePadded s = some right → left = right) ∧
    (∀ value, value ≠ .null →
      base64urlOptDeserialize value = (base64urlDeserialize value).map some) ∧
    ∀ bytes, base64urlOptSerialize (some bytes) = base64urlSerialize bytes := by
  refine ⟨fun s bytes => base64urlDeserialize_eq_ok, base64url_round_trip, ?_, ?_, ?_, ?_, ?_⟩
  · intro bytes
    -- the unpadded text, and the one with the only possible number of padding characters
    let padded := Base64Url.encode bytes ++
      List.replicate ((4 - (Base64Url.encode bytes).length % 4) % 4) '='
    have hsub : {s | base64urlDeserialize (.text s) = .ok bytes} ⊆
        {String.ofList (Base64Url.encode bytes), String.ofList padded} := by
      intro s hs
      rcases base64urlDeserialize_eq_ok.mp hs with htext | ⟨count, hlt, hdvd, htext⟩
      · exact .inl (by rw [← htext, String.ofList_toList])
      · rw [Base64Url.padding_eq_iff.mpr ⟨hlt, hdvd⟩] at htext
        exact .inr (by rw [← String.ofList_toList (s := s), htext]; rfl)
    have hpair : ({String.ofList (Base64Url.encode bytes), String.ofList padded} :
        Set String).encard ≤ 2 := by
      refine (Set.encard_insert_le _ _).trans ?_
      rw [Set.encard_singleton, one_add_one_eq_two]
    exact (Set.encard_le_encard hsub).trans hpair
  · intro s bytes h
    have hstrip := Base64Url.rdropWhile_padding (Base64Url.encode_ne_padding bytes)
    rcases base64urlDeserialize_eq_ok.mp h with htext | ⟨count, -, -, htext⟩
    · have hzero := hstrip 0
      rw [List.replicate_zero, List.append_nil] at hzero
      rw [htext, hzero, base64urlSerialize]
    · rw [htext, hstrip, base64urlSerialize]
  · intro s left right
    exact Base64Url.decoders_agree
  · intro value hpresent
    rw [base64urlOptDeserialize]
    exact readOption_present base64urlDeserialize hpresent
  · intro bytes
    rfl

/-! ### Events round trip -/

theorem eventFields_names (event : MeshEvent) :
    ∀ field ∈ eventFields event, field.1 ∈ fieldNames event.kind := by
  cases event with
  | sensorReading peer clock sensorId metric value unit raw =>
    cases raw <;> simp [eventFields, fieldNames, MeshEvent.kind]
  | _ => simp [eventFields, fieldNames, MeshEvent.kind]

theorem eventFields_nodup (event : MeshEvent) :
    ("kind" :: (eventFields event).map Prod.fst).Nodup := by
  cases event with
  | sensorReading peer clock sensorId metric value unit raw =>
    cases raw <;> simp [eventFields]
  | _ => simp [eventFields]

theorem readVariant_tag (kind : EventKind) : readVariant tag variants (.text (tag kind)) = .ok kind := by
  cases kind <;> rfl

theorem eventDeserialize_record (kind : EventKind) {fields : List (String × Value)}
    (hnames : ∀ field ∈ fields, field.1 ∈ fieldNames kind)
    (hnodup : ("kind" :: fields.map Prod.fst).Nodup) :
    eventDeserialize (record (("kind", .text (tag kind)) :: fields)) =
      eventOfFields ⟨fields, .missingField⟩ kind := by
  rw [List.nodup_cons] at hnodup
  rw [eventDeserialize, readTagged_record _ _ hnodup.1, ok_bind]
  simp only [readVariant_tag, ok_bind, readRecord_record _ hnames hnodup.2]

theorem eventOfFields_eventFields (event : MeshEvent) :
    eventOfFields ⟨eventFields event, .missingField⟩ event.kind = .ok event := by
  cases event with
  | sensorReading peer clock sensorId metric value unit raw =>
    cases raw <;>
      simp [eventOfFields, eventFields, MeshEvent.kind, Fields.required_cons,
        Fields.withDefault_cons, Fields.withDefault_nil, pure, Except.pure]
  | _ => simp [eventOfFields, eventFields, MeshEvent.kind, Fields.required_cons, pure, Except.pure]

theorem event_round_trip (event : MeshEvent) :
    eventDeserialize (eventSerialize event) = .ok event := by
  rw [eventSerialize,
    eventDeserialize_record event.kind (eventFields_names event) (eventFields_nodup event),
    eventOfFields_eventFields]

/-! ### Events in the formats -/

theorem portable_peer (peer : PeerId) : Portable (peerSerialize peer) := .text _

theorem portable_base64url (bytes : Bytes) : Portable (base64urlSerialize bytes) := .text _

theorem portable_clock (clock : HybridLogicalClock) : Portable (clockSerialize clock) := by
  have hwall := clock.wallMs.toNat_lt
  have hcounter := clock.counter.toNat_lt
  refine .record _ (by simp) ?_
  simp only [List.forall_mem_cons]
  exact ⟨.nat _ hwall, .nat _ (by omega), by simp⟩

theorem portable_event (event : MeshEvent) : Portable (eventSerialize event) := by
  refine .record _ (eventFields_nodup event) ?_
  rw [List.forall_mem_cons]
  refine ⟨.text _, ?_⟩
  cases event with
  | workOffer sender target request hops =>
    have hhops := hops.toNat_lt
    simp only [eventFields, List.forall_mem_cons]
    exact ⟨portable_peer _, portable_peer _, portable_base64url _, .nat _ (by omega), by simp⟩
  | sensorReading peer clock sensorId metric value unit raw =>
    cases raw <;>
      simp [eventFields, portable_peer, portable_clock, portable_base64url, Portable.text,
        Portable.float]
  | otaOffer target clock imageId version url sha256 size =>
    have hversion := version.toNat_lt
    simp only [eventFields, List.forall_mem_cons]
    exact ⟨portable_peer _, portable_clock _, .text _, .nat _ (by omega), .text _, .text _,
      .nat _ size.toNat_lt, by simp⟩
  | _ =>
    simp [eventFields, portable_peer, portable_clock, portable_base64url, Portable.text,
      Portable.float]

section Relay

variable (reread : Binary64 → Option Binary64)

/-- The event's float, if it has one, is finite and read back exactly from its text. -/
def readsBack : MeshEvent → Bool
  | .heartbeat _ _ load => load.isFinite && reread load == some load
  | .sensorReading _ _ _ _ value _ _ => value.isFinite && reread value == some value
  | _ => true

/-- What a subscriber makes of a published event, if anything. -/
def relayed : MeshEvent → Option MeshEvent
  | .heartbeat peer clock load =>
      if load.isFinite then (reread load).map (.heartbeat peer clock) else none
  | .sensorReading peer clock sensorId metric value unit raw =>
      if value.isFinite then
        (reread value).map fun value => .sensorReading peer clock sensorId metric value unit raw
      else none
  | event => some event

@[simp] theorem decimal_peer (peer : PeerId) :
    decimal reread (peerSerialize peer) = some (peerSerialize peer) := decimal_text _ _

@[simp] theorem decimal_base64url (bytes : Bytes) :
    decimal reread (base64urlSerialize bytes) = some (base64urlSerialize bytes) := decimal_text _ _

@[simp] theorem decimal_clock (clock : HybridLogicalClock) :
    decimal reread (clockSerialize clock) = some (clockSerialize clock) := by
  simp [clockSerialize, decimalFields]

/-- A field value with null for a float. -/
def withoutFloat : Value → Value
  | .float _ => .null
  | value => value

@[simp] theorem withoutFloat_float (x : Binary64) : withoutFloat (.float x) = .null := rfl

@[simp] theorem withoutFloat_text (s : String) : withoutFloat (.text s) = .text s := rfl

@[simp] theorem withoutFloat_peer (peer : PeerId) :
    withoutFloat (peerSerialize peer) = peerSerialize peer := rfl

@[simp] theorem withoutFloat_base64url (bytes : Bytes) :
    withoutFloat (base64urlSerialize bytes) = base64urlSerialize bytes := rfl

@[simp] theorem withoutFloat_clock (clock : HybridLogicalClock) :
    withoutFloat (clockSerialize clock) = clockSerialize clock := rfl

theorem decimalFields_nonFinite {event : MeshEvent} (h : finite event = false) :
    decimalFields reread (eventFields event) =
      some ((eventFields event).map fun field => (field.1, withoutFloat field.2)) := by
  cases event with
  | heartbeat peer clock load =>
    have hload : load.isFinite = false := h
    simp [eventFields, decimalFields, decimal_float, hload]
  | sensorReading peer clock sensorId metric value unit raw =>
    have hvalue : value.isFinite = false := h
    cases raw <;> simp [eventFields, decimalFields, decimal_float, hvalue]
  | _ => simp [finite] at h

/-- The null that stands for a float is no float to the reader. -/
theorem decimal_nonFinite {event : MeshEvent} (h : finite event = false) :
    ∃ value, decimal reread (eventSerialize event) = some value ∧
      eventDeserialize value = .error (.invalidType "f64") := by
  refine ⟨record (("kind", .text (tag event.kind)) ::
    (eventFields event).map fun field => (field.1, withoutFloat field.2)), ?_, ?_⟩
  · simp [eventSerialize, decimalFields, decimalFields_nonFinite reread h]
  · have hmap : (eventFields event).map (Prod.fst ∘ fun field => (field.1, withoutFloat field.2)) =
        (eventFields event).map Prod.fst := rfl
    rw [eventDeserialize_record event.kind ?_ ?_]
    · cases event with
      | heartbeat | sensorReading =>
        simp [eventFields, eventOfFields, MeshEvent.kind, Fields.required_cons]
      | _ => simp [finite] at h
    · intro field hfield
      obtain ⟨original, horiginal, rfl⟩ := List.mem_map.mp hfield
      exact eventFields_names event original horiginal
    · rw [List.map_map, hmap]
      exact eventFields_nodup event

/-- A finite float comes back as it is read. -/
theorem decimal_finite {event : MeshEvent} (h : finite event = true) :
    decimal reread (eventSerialize event) = (relayed reread event).map eventSerialize := by
  cases event with
  | heartbeat peer clock load =>
    have hload : load.isFinite = true := h
    rcases hread : reread load with _ | load'
    · simp [eventSerialize, eventFields, decimalFields, decimal_float, relayed, hload, hread]
    · simp [eventSerialize, eventFields, decimalFields, decimal_float, relayed, hload, hread]
      rfl
  | sensorReading peer clock sensorId metric value unit raw =>
    have hvalue : value.isFinite = true := h
    rcases hread : reread value with _ | value'
    · cases raw <;>
        simp [eventSerialize, eventFields, decimalFields, decimal_float, relayed, hvalue, hread]
    · cases raw <;>
        simp [eventSerialize, eventFields, decimalFields, decimal_float, relayed, hvalue, hread]
      · rfl
      · rfl
  | _ => simp [eventSerialize, eventFields, decimalFields, relayed]

theorem relayed_eq_self_iff (event : MeshEvent) :
    relayed reread event = some event ↔ readsBack reread event = true := by
  cases event with
  | heartbeat peer clock load =>
    cases hload : load.isFinite with
    | false => simp [relayed, readsBack, hload]
    | true => simp [relayed, readsBack, hload]
  | sensorReading peer clock sensorId metric value unit raw =>
    cases hvalue : value.isFinite with
    | false => simp [relayed, readsBack, hvalue]
    | true => simp [relayed, readsBack, hvalue]
  | _ => simp [relayed, readsBack]

theorem relayed_nonFinite {event : MeshEvent} (h : finite event = false) :
    relayed reread event = none := by
  cases event with
  | heartbeat peer clock load => exact if_neg (by rw [show load.isFinite = false from h]; simp)
  | sensorReading peer clock sensorId metric value unit raw =>
    exact if_neg (by rw [show value.isFinite = false from h]; simp)
  | _ => cases h

variable {reread}

theorem toOption_decodeSample (json : Format) (key : String) (payload : Bytes) :
    (decodeSample json key payload).toOption =
      (json.fromSlice payload).toOption.bind fun value => (eventDeserialize value).toOption := by
  rw [decodeSample]
  rcases json.fromSlice payload with e | value
  · rfl
  · simp only [Except.toOption, Option.bind_some]
    rcases eventDeserialize value with e | event
    · rfl
    · rfl

/-- **What a subscriber makes of a published event.** -/
theorem json_relay (json : Decimal reread) (key : String) (event : MeshEvent) :
    ∃ payload, publishPayload json event = .ok payload ∧
      (decodeSample json key payload).toOption = relayed reread event := by
  obtain ⟨payload, hto, hfrom⟩ := json.carries _ (portable_event event)
  refine ⟨payload, by rw [publishPayload, hto], ?_⟩
  rw [toOption_decodeSample, hfrom]
  cases h : finite event with
  | false =>
    obtain ⟨value, hvalue, hdeserialize⟩ := decimal_nonFinite reread h
    rw [hvalue, Option.bind_some, hdeserialize, relayed_nonFinite reread h]
    rfl
  | true =>
    rw [decimal_finite reread h]
    rcases relayed reread event with _ | event'
    · rfl
    · rw [Option.map_some, Option.bind_some, event_round_trip]
      rfl

/-- An event whose float is read back exactly arrives as it is. -/
theorem json_relay_of_readsBack (json : Decimal reread) (key : String) {event : MeshEvent}
    (h : readsBack reread event = true) :
    ∃ payload, publishPayload json event = .ok payload ∧
      decodeSample json key payload = .ok event := by
  obtain ⟨payload, hto, hfrom⟩ := json_relay json key event
  rw [(relayed_eq_self_iff reread event).mpr h] at hfrom
  exact ⟨payload, hto, toOption_eq_some_iff.mp hfrom⟩

/-- The publisher of a float that is not finite sees no error, the subscriber does. -/
theorem json_relay_nonFinite (json : Decimal reread) (key : String) {event : MeshEvent}
    (h : finite event = false) :
    ∃ payload, publishPayload json event = .ok payload ∧
      decodeSample json key payload =
        .error (.encoding ("decoding event on " ++ key ++ ": ") (.data (.invalidType "f64"))) := by
  obtain ⟨payload, hto, hfrom⟩ := json.carries _ (portable_event event)
  obtain ⟨value, hvalue, hdeserialize⟩ := decimal_nonFinite reread h
  rw [hvalue] at hfrom
  refine ⟨payload, by rw [publishPayload, hto], ?_⟩
  simp only [decodeSample, toOption_eq_some_iff.mp hfrom, hdeserialize]

end Relay

theorem cbor_round_trip (cbor : Exact) (event : MeshEvent) :
    ∃ bytes, cborToVec cbor event = .ok bytes ∧ cborFromSlice cbor bytes = .ok event := by
  obtain ⟨bytes, hto, hfrom⟩ := cbor.exists_bytes (portable_event event)
  refine ⟨bytes, ?_, ?_⟩
  · rw [cborToVec, hto]
  · simp only [cborFromSlice, hfrom, event_round_trip]

theorem readsBack_some {event : MeshEvent} (h : finite event = true) :
    readsBack some event = true := by
  cases event with
  | heartbeat | sensorReading => simpa [readsBack, finite] using h
  | _ => rfl

/-- Values that are read back from what was written are written differently. -/
theorem ne_of_round_trip {α ε : Type} {write : α → Except ε Bytes} {read : Bytes → Except ε α}
    {left right : α} {bytes bytes' : Bytes} (hleft : write left = .ok bytes)
    (hright : write right = .ok bytes') (hread : read bytes = .ok left)
    (hread' : read bytes' = .ok right) (hne : left ≠ right) : write left ≠ write right := by
  intro heq
  rw [hleft, hright, Except.ok.injEq] at heq
  rw [heq, hread'] at hread
  exact hne (Except.ok.inj hread).symm

/-- **Every event survives the wire.**  Decoding the CBOR form of an event gives the
    event back, and so does decoding the JSON form if its float is finite; and the forms
    of two different events differ. -/
theorem wire_round_trip (cbor : Exact) (json : NullsNonFinite) (key : String) :
    (∀ event, ∃ bytes, cborToVec cbor event = .ok bytes ∧
      cborFromSlice cbor bytes = .ok event) ∧
    (∀ event, finite event = true → ∃ payload, publishPayload json event = .ok payload ∧
      decodeSample json key payload = .ok event) ∧
    (∀ left right, left ≠ right → cborToVec cbor left ≠ cborToVec cbor right) ∧
    (∀ left right, finite left = true → finite right = true → left ≠ right →
      publishPayload json left ≠ publishPayload json right) := by
  have hjson : ∀ event, finite event = true → ∃ payload, publishPayload json event = .ok payload ∧
      decodeSample json key payload = .ok event := by
    intro event hfinite
    exact json_relay_of_readsBack json key (readsBack_some hfinite)
  refine ⟨cbor_round_trip cbor, hjson, ?_, ?_⟩
  · intro left right hne
    obtain ⟨bytes, hto, hfrom⟩ := cbor_round_trip cbor left
    obtain ⟨bytes', hto', hfrom'⟩ := cbor_round_trip cbor right
    exact ne_of_round_trip hto hto' hfrom hfrom' hne
  · intro left right hleft hright hne
    obtain ⟨payload, hto, hfrom⟩ := hjson left hleft
    obtain ⟨payload', hto', hfrom'⟩ := hjson right hright
    exact ne_of_round_trip hto hto' hfrom hfrom' hne

def Sample.peer : PeerId := ⟨Vector.replicate 32 7⟩

def Sample.reading (value : Binary64) (raw : Option Bytes) : MeshEvent :=
  .sensorReading Sample.peer ⟨1700000000000, 3⟩ "bme280-0" "temperature_c" value "C" raw

/-- A reading without a payload and one with an empty payload: both survive JSON, and
    their CBOR forms differ. -/
theorem wire_round_trip_empty_payload :
    (∃ payload, publishPayload ValueCode.nullsNonFinite (Sample.reading ⟨0⟩ (some [])) =
        .ok payload ∧
      decodeSample ValueCode.nullsNonFinite "k" payload = .ok (Sample.reading ⟨0⟩ (some []))) ∧
    cborToVec ValueCode.exact (Sample.reading ⟨0⟩ none) ≠
      cborToVec ValueCode.exact (Sample.reading ⟨0⟩ (some [])) := by
  have hwire := wire_round_trip ValueCode.exact ValueCode.nullsNonFinite "k"
  refine ⟨hwire.2.1 _ (by decide), hwire.2.2.1 _ _ ?_⟩
  simp [Sample.reading]

/-- **A frame can be relayed exactly when its float is finite and read back exactly.**  For
    every CBOR frame that decodes to an event, the JSON payload that is published for the
    event decodes to the same event if and only if the event's float, if it has one, is finite
    and JSON reads its text as that float. -/
theorem relay_iff (cbor : Exact) {reread : Binary64 → Option Binary64} (json : Decimal reread)
    (key : String) (frame : Bytes) (event : MeshEvent)
    (_hframe : cborFromSlice cbor frame = .ok event) :
    (∃ payload, publishPayload json event = .ok payload ∧
      decodeSample json key payload = .ok event) ↔ readsBack reread event = true := by
  constructor
  · rintro ⟨payload, hpublish, hdecode⟩
    obtain ⟨payload', hto, hfrom⟩ := json_relay json key event
    rw [hto, Except.ok.injEq] at hpublish
    rw [hpublish, hdecode] at hfrom
    exact (relayed_eq_self_iff reread event).mp hfrom.symm
  · intro hback
    exact json_relay_of_readsBack json key hback

/-- The frame of an event, in the sample formats. -/
theorem Sample.frame (event : MeshEvent) :
    cborFromSlice ValueCode.exact (ValueCode.encode (eventSerialize event)) = .ok event := by
  simp [cborFromSlice, ValueCode.exact, ValueCode.fromSlice_encode, event_round_trip]

def Sample.heartbeat (load : Binary64) : MeshEvent :=
  .heartbeat Sample.peer ⟨1700000000000, 3⟩ load

/-- A heartbeat of an idle peer is relayed. -/
theorem relay_idle :
    cborFromSlice ValueCode.exact (ValueCode.encode (eventSerialize (Sample.heartbeat ⟨0⟩))) =
      .ok (Sample.heartbeat ⟨0⟩) ∧
    ∃ payload, publishPayload ValueCode.nullsNonFinite (Sample.heartbeat ⟨0⟩) = .ok payload ∧
      decodeSample ValueCode.nullsNonFinite "k" payload = .ok (Sample.heartbeat ⟨0⟩) :=
  ⟨Sample.frame _, (relay_iff ValueCode.exact ValueCode.nullsNonFinite "k" _ _
    (Sample.frame _)).mpr (by decide)⟩

/-- A heartbeat with an infinite load: CBOR accepts it and the publisher sees no error,
    but the subscriber rejects the payload. -/
theorem infinite_load_lost :
    cborFromSlice ValueCode.exact
        (ValueCode.encode (eventSerialize (Sample.heartbeat ⟨0x7FF0000000000000⟩))) =
      .ok (Sample.heartbeat ⟨0x7FF0000000000000⟩) ∧
    ∃ payload, publishPayload ValueCode.nullsNonFinite
        (Sample.heartbeat ⟨0x7FF0000000000000⟩) = .ok payload ∧
      decodeSample ValueCode.nullsNonFinite "k" payload =
        .error (.encoding "decoding event on k: " (.data (.invalidType "f64"))) :=
  ⟨Sample.frame _, json_relay_nonFinite ValueCode.nullsNonFinite "k" (by decide)⟩

end FurcateMesh.Wire
