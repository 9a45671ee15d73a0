import FurcateMesh.Library.KeyExpr
import FurcateMesh.MeshEvent
import FurcateMesh.Transfer

/-!
# Key expressions of the transport

The key builders and the subscription patterns of
`furcate-mesh-transport/src/lib.rs`.  A key is the root, the hex of a peer, a
segment for the event kind and, for some kinds, a text that is pasted in as it is.

The peer has a fixed width and no segment contains a slash, so a key determines
what it was built from whatever the pasted text is (`key_unambiguous`).  Whether
the key is one that names a single resource does depend on that text, and five of
the ten event kinds have no key at all (`key_for_concrete_iff`).  Keys with well-formed names
are selected by the subscription of their own event kind and by no other
(`subscriptions_select`).

A `KeyRequest` is one use of a builder, and `KeyRequest.key_eq` brings the keys of all of them
into one shape: a peer key with a tail that is a segment, or a segment and a name.  The three
theorems are about that shape.  A name may have any number of chunks, some of which may read
like a segment; this does no harm since the patterns fix the number of chunks before it.

Matching is that of the library module `KeyExpr`, so what is said there of chunks that start
with `@` applies to the names here.
-/

namespace FurcateMesh.Keys

open KeyExpr
open Transfer (selector TRANSFER_ROOT)

def ROOT : String := "furcate/mesh"

/-- The canonical key of an event.  The `match` of the source has five arms; for
    the other five variants there is no key. -/
def keyFor : MeshEvent → Option String
  | .heartbeat peer _ _ => some (ROOT ++ "/" ++ peer.toHex ++ "/heartbeat")
  | .modelAnnounce peer _ modelName _ _ =>
      some (ROOT ++ "/" ++ peer.toHex ++ "/model/" ++ modelName)
  | .workOffer _ target _ _ => some (ROOT ++ "/" ++ target.toHex ++ "/work-offer")
  | .workResult _ target _ => some (ROOT ++ "/" ++ target.toHex ++ "/work-result")
  | .agentState peer _ agentId _ => some (ROOT ++ "/" ++ peer.toHex ++ "/agent/" ++ agentId)
  | .sensorReading .. => none
  | .command .. => none
  | .attestation .. => none
  | .otaOffer .. => none
  | .otaStatus .. => none

def keyWorkOffer (target : PeerId) (requestId : String) : String :=
  ROOT ++ "/" ++ target.toHex ++ "/work-offer/" ++ requestId

def keyWorkResult (target : PeerId) (requestId : String) : String :=
  ROOT ++ "/" ++ target.toHex ++ "/work-result/" ++ requestId

def SUB_ALL_HEARTBEATS : String := "furcate/mesh/*/heartbeat"

def SUB_ALL_MODELS : String := "furcate/mesh/*/model/**"

def SUB_ALL_AGENT_STATE : String := "furcate/mesh/*/agent/**"

/-! ### What a key is built from -/

inductive KeyRequest where
  | publish (event : MeshEvent)
  | workOffer (target : PeerId) (requestId : String)
  | workResult (target : PeerId) (requestId : String)

/-- The peer a key is scoped to: the event's `peer`, or `to` where it has one. -/
def address : MeshEvent → PeerId
  | .heartbeat peer _ _ => peer
  | .modelAnnounce peer _ _ _ _ => peer
  | .workOffer _ target _ _ => target
  | .workResult _ target _ => target
  | .agentState peer _ _ _ => peer
  | .sensorReading peer _ _ _ _ _ _ => peer
  | .command target _ _ _ => target
  | .attestation peer _ _ _ => peer
  | .otaOffer target _ _ _ _ _ _ => target
  | .otaStatus peer _ _ _ _ => peer

/-- The text of the event that goes into its key. -/
def keyName : MeshEvent → Option String
  | .modelAnnounce _ _ modelName _ _ => some modelName
  | .agentState _ _ agentId _ => some agentId
  | _ => none

namespace KeyRequest

def key : KeyRequest → Option String
  | .publish event => keyFor event
  | .workOffer target requestId => some (keyWorkOffer target requestId)
  | .workResult target requestId => some (keyWorkResult target requestId)

def kind : KeyRequest → EventKind
  | .publish event => event.kind
  | .workOffer _ _ => .workOffer
  | .workResult _ _ => .workResult

def peer : KeyRequest → PeerId
  | .publish event => address event
  | .workOffer target _ => target
  | .workResult target _ => target

/-- The model name, agent id or request id in the key. -/
def name : KeyRequest → Option String
  | .publish event => keyName event
  | .workOffer _ requestId => some requestId
  | .workResult _ requestId => some requestId

end KeyRequest

/-! ### The shape of a key -/

/-- The segment of an event kind that has keys. -/
def segment? : EventKind → Option String
  | .heartbeat => some "heartbeat"
  | .modelAnnounce => some "model"
  | .workOffer => some "work-offer"
  | .workResult => some "work-result"
  | .agentState => some "agent"
  | _ => none

def peerKey (peer : PeerId) (tail : String) : String := ROOT ++ "/" ++ peer.toHex ++ "/" ++ tail

def namedTail (segment : String) : Option String → String
  | none => segment
  | some name => segment ++ "/" ++ name

theorem KeyRequest.key_eq (request : KeyRequest) :
    request.key = (segment? request.kind).map fun segment =>
      peerKey request.peer (namedTail segment request.name) := by
  have hmodel : "/model/" = "/" ++ "model" ++ "/" := rfl
  have hagent : "/agent/" = "/" ++ "agent" ++ "/" := rfl
  have hoffer : "/work-offer/" = "/" ++ "work-offer" ++ "/" := rfl
  have hresult : "/work-result/" = "/" ++ "work-result" ++ "/" := rfl
  have hheartbeat : "/heartbeat" = "/" ++ "heartbeat" := rfl
  have hoffer' : "/work-offer" = "/" ++ "work-offer" := rfl
  have hresult' : "/work-result" = "/" ++ "work-result" := rfl
  cases request with
  | publish event =>
    cases event <;>
      simp only [key, kind, peer, name, keyFor, MeshEvent.kind, address, keyName, segment?,
        Option.map_some, Option.map_none, peerKey, namedTail, hmodel, hagent, hheartbeat, hoffer',
        hresult', String.append_assoc]
  | workOffer target requestId =>
    simp only [key, kind, peer, name, keyWorkOffer, segment?, Option.map_some, peerKey, namedTail,
      hoffer, String.append_assoc]
  | workResult target requestId =>
    simp only [key, kind, peer, name, keyWorkResult, segment?, Option.map_some, peerKey, namedTail,
      hresult, String.append_assoc]

theorem KeyRequest.exists_of_key {request : KeyRequest} {key : String}
    (h : request.key = some key) :
    ∃ segment, segment? request.kind = some segment ∧
      key = peerKey request.peer (namedTail segment request.name) := by
  rw [key_eq, Option.map_eq_some_iff] at h
  obtain ⟨segment, hsegment, hkey⟩ := h
  exact ⟨segment, hsegment, hkey.symm⟩

theorem slash_notMem_segment {kind : EventKind} {segment : String}
    (h : segment? kind = some segment) : '/' ∉ segment.toList := by
  cases kind <;> cases h <;> decide

theorem segment?_injective {left right : EventKind} {segment : String}
    (hleft : segment? left = some segment) (hright : segment? right = some segment) :
    left = right := by
  cases left <;> cases hleft <;> cases right <;>
    first | rfl | exact absurd hright (by decide)

/-! ### Keys are unambiguous -/

theorem peerKey_inj {left right : PeerId} {tail tail' : String}
    (h : peerKey left tail = peerKey right tail') : left = right ∧ tail = tail' := by
  have hlist := congrArg String.toList h
  simp only [peerKey, String.toList_append, List.append_assoc] at hlist
  have hrest := List.append_cancel_left (List.append_cancel_left hlist)
  have hlen : left.toHex.toList.length = right.toHex.toList.length := by
    rw [left.toHex_isHexDigest.1, right.toHex_isHexDigest.1]
  obtain ⟨hhex, htail⟩ := List.append_inj hrest hlen
  exact ⟨PeerId.toHex_injective (String.toList_inj.mp hhex),
    String.toList_inj.mp (List.append_cancel_left htail)⟩

theorem chunks_namedTail {segment : String} (h : '/' ∉ segment.toList) (name : Option String) :
    chunks (namedTail segment name) = segment.toList :: name.elim [] chunks := by
  cases name with
  | none => exact chunks_of_not_mem h
  | some name =>
    rw [namedTail, chunks_append_slash, chunks_of_not_mem h]
    rfl

theorem namedTail_inj {segment segment' : String} {name name' : Option String}
    (hsegment : '/' ∉ segment.toList) (hsegment' : '/' ∉ segment'.toList)
    (h : namedTail segment name = namedTail segment' name') :
    segment = segment' ∧ name = name' := by
  have hchunks := congrArg chunks h
  rw [chunks_namedTail hsegment, chunks_namedTail hsegment', List.cons.injEq] at hchunks
  have hsame := String.toList_inj.mp hchunks.1
  subst hsame
  refine ⟨rfl, ?_⟩
  cases name with
  | none =>
    cases name' with
    | none => rfl
    | some name' => exact absurd hchunks.2.symm (List.splitOn_ne_nil _ _)
  | some name =>
    cases name' with
    | none => exact absurd hchunks.2 (List.splitOn_ne_nil _ _)
    | some name' =>
      have hlist := congrArg String.toList h
      simp only [namedTail, String.toList_append] at hlist
      rw [String.toList_inj.mp (List.append_cancel_left hlist)]

/-- **Keys are unambiguous.**  Two requests for the same key are for the same kind
    of event, the same peer and the same name, whatever text the name is. -/
theorem key_unambiguous {left right : KeyRequest} {key : String} (hleft : left.key = some key)
    (hright : right.key = some key) :
    left.kind = right.kind ∧ left.peer = right.peer ∧ left.name = right.name := by
  obtain ⟨segment, hsegment, rfl⟩ := KeyRequest.exists_of_key hleft
  obtain ⟨segment', hsegment', hkey⟩ := KeyRequest.exists_of_key hright
  obtain ⟨hpeer, htail⟩ := peerKey_inj hkey
  obtain ⟨rfl, hname⟩ :=
    namedTail_inj (slash_notMem_segment hsegment) (slash_notMem_segment hsegment') htail
  exact ⟨segment?_injective hsegment hsegment', hpeer, hname⟩

namespace Sample

def peer : PeerId := ⟨Vector.replicate 32 0⟩

def model (modelName digest : String) : MeshEvent :=
  .modelAnnounce peer ⟨0, 0⟩ modelName digest "gguf"

end Sample

/-- Two announcements of one model, with different digests, have one key. -/
theorem key_unambiguous_model :
    let left := KeyRequest.publish (Sample.model "a/b" "d")
    let right := KeyRequest.publish (Sample.model "a/b" "e")
    (∃ key, left.key = some key ∧ right.key = some key) ∧
      left.kind = right.kind ∧ left.peer = right.peer ∧ left.name = right.name := by
  have hleft : (KeyRequest.publish (Sample.model "a/b" "d")).key =
      some (ROOT ++ "/" ++ Sample.peer.toHex ++ "/model/" ++ "a/b") := rfl
  have hright : (KeyRequest.publish (Sample.model "a/b" "e")).key =
      some (ROOT ++ "/" ++ Sample.peer.toHex ++ "/model/" ++ "a/b") := rfl
  exact ⟨⟨_, hleft, hright⟩, key_unambiguous hleft hright⟩

/-! ### Concrete keys -/

theorem chunks_ROOT : chunks ROOT = ["furcate".toList, "mesh".toList] := by decide

theorem slash_notMem_hex {text : String} (h : IsHexDigest text) : '/' ∉ text.toList :=
  fun hmem => absurd (h.2 '/' hmem) (by decide)

theorem chunks_peerKey (peer : PeerId) (tail : String) :
    chunks (peerKey peer tail) =
      "furcate".toList :: "mesh".toList :: peer.toHex.toList :: chunks tail := by
  rw [peerKey, chunks_append_slash, chunks_append_slash, chunks_ROOT,
    chunks_of_not_mem (slash_notMem_hex peer.toHex_isHexDigest)]
  rfl

theorem isConcrete_of_hex {text : String} (h : IsHexDigest text) : IsConcrete text := by
  have hdigits : hexDigits.all (fun c => decide (c ∉ reserved)) = true := by decide
  intro chunk hchunk
  rw [chunks_of_not_mem (slash_notMem_hex h), List.mem_singleton] at hchunk
  subst hchunk
  refine ⟨fun hnil => ?_, fun c hc => ?_⟩
  · have hlen := h.1
    rw [hnil] at hlen
    cases hlen
  · exact of_decide_eq_true (List.all_eq_true.mp hdigits c (h.2 c hc))

theorem isConcreteChunk_of_all {chunk : Chunk} (hne : chunk ≠ [])
    (hall : chunk.all (fun c => decide (c ∉ reserved)) = true) : IsConcreteChunk chunk :=
  ⟨hne, fun c hc => of_decide_eq_true (List.all_eq_true.mp hall c hc)⟩

theorem isConcrete_ROOT : IsConcrete ROOT := by
  intro chunk hchunk
  rw [chunks_ROOT] at hchunk
  simp only [List.mem_cons, List.not_mem_nil, or_false] at hchunk
  rcases hchunk with rfl | rfl
  · exact isConcreteChunk_of_all (by decide) (by decide)
  · exact isConcreteChunk_of_all (by decide) (by decide)

theorem isConcrete_segment {kind : EventKind} {segment : String}
    (h : segment? kind = some segment) : IsConcrete segment := by
  intro chunk hchunk
  rw [chunks_of_not_mem (slash_notMem_segment h), List.mem_singleton] at hchunk
  subst hchunk
  cases kind <;> cases h <;> exact isConcreteChunk_of_all (by decide) (by decide)

/-- A key is concrete iff the text pasted into it is. -/
theorem isConcrete_peerKey {kind : EventKind} {segment : String}
    (h : segment? kind = some segment) (peer : PeerId) (name : Option String) :
    IsConcrete (peerKey peer (namedTail segment name)) ↔ ∀ text, name = some text → IsConcrete text := by
  have hfront : IsConcrete (ROOT ++ "/" ++ peer.toHex) :=
    isConcrete_append_slash.mpr ⟨isConcrete_ROOT, isConcrete_of_hex peer.toHex_isHexDigest⟩
  rw [peerKey, isConcrete_append_slash, and_iff_right hfront]
  cases name with
  | none => simp [namedTail, isConcrete_segment h]
  | some text =>
    rw [namedTail, isConcrete_append_slash, and_iff_right (isConcrete_segment h)]
    constructor
    · rintro htext _ ⟨⟩
      exact htext
    · intro hall
      exact hall text rfl

/-- **When an event has a valid key.**  `key_for` is defined and returns a concrete
    key under the event's peer iff the event is of one of the five kinds it has an
    arm for and the text it pastes, if any, is itself a concrete key. -/
theorem key_for_concrete_iff (event : MeshEvent) :
    (∃ key, keyFor event = some key ∧ IsConcrete key ∧ IsHexDigest (address event).toHex ∧
      (ROOT ++ "/" ++ (address event).toHex ++ "/").toList <+: key.toList) ↔
    event.kind ∈ [.heartbeat, .modelAnnounce, .workOffer, .workResult, .agentState] ∧
      ∀ name, keyName event = some name → IsConcrete name := by
  have hkinds : event.kind ∈ [EventKind.heartbeat, .modelAnnounce, .workOffer, .workResult,
      .agentState] ↔ ∃ segment, segment? event.kind = some segment := by
    cases event <;> simp [MeshEvent.kind, segment?]
  have hkey := KeyRequest.key_eq (.publish event)
  simp only [KeyRequest.key, KeyRequest.kind, KeyRequest.peer, KeyRequest.name] at hkey
  rw [hkey, hkinds]
  constructor
  · rintro ⟨key, hsome, hconcrete, _⟩
    obtain ⟨segment, hsegment, rfl⟩ := Option.map_eq_some_iff.mp hsome
    exact ⟨⟨segment, hsegment⟩, (isConcrete_peerKey hsegment _ _).mp hconcrete⟩
  · rintro ⟨⟨segment, hsegment⟩, hname⟩
    refine ⟨_, by rw [hsegment, Option.map_some], (isConcrete_peerKey hsegment _ _).mpr hname,
      (address event).toHex_isHexDigest, ?_⟩
    exact ⟨(namedTail segment (keyName event)).toList, String.toList_append.symm⟩

/-- A command has no key, and a model named `*` is published on a pattern that
    selects the key of every other model of its peer with a one-chunk name. -/
theorem key_for_missing_or_wild :
    keyFor (.command Sample.peer ⟨0, 0⟩ "identify" []) = none ∧
      ∃ key other, keyFor (Sample.model "*" "d") = some key ∧
        keyFor (Sample.model "a" "d") = some other ∧ ¬ IsConcrete key ∧
        selects key other = true := by
  refine ⟨rfl, _, _, rfl, rfl, fun hconcrete => ?_, by decide +kernel⟩
  have hname := (isConcrete_peerKey (show segment? .modelAnnounce = some "model" from rfl)
    Sample.peer (some "*")).mp hconcrete "*" rfl
  exact (hname ['*'] (by decide)).2 '*' (by decide) (by decide)

/-! ### Subscriptions -/

/-- A key on the wire: one of the transport's, or a transfer selector. -/
inductive WireKey where
  | mesh (request : KeyRequest)
  | transfer (digest : String)

namespace WireKey

def key : WireKey → Option String
  | .mesh request => request.key
  | .transfer digest => some (selector digest)

/-- The event kind of a mesh key. -/
def kind : WireKey → Option EventKind
  | .mesh request => some request.kind
  | .transfer _ => none

/-- Names are concrete keys themselves, digests are hex. -/
def WellNamed : WireKey → Prop
  | .mesh request => ∀ name, request.name = some name → IsConcrete name
  | .transfer digest => IsHexDigest digest

end WireKey

theorem chunks_SUB_ALL_HEARTBEATS :
    chunks SUB_ALL_HEARTBEATS = ["furcate".toList, "mesh".toList, ['*'], "heartbeat".toList] := by
  decide

theorem chunks_SUB_ALL_MODELS :
    chunks SUB_ALL_MODELS =
      ["furcate".toList, "mesh".toList, ['*'], "model".toList, ['*', '*']] := by
  decide

theorem chunks_SUB_ALL_AGENT_STATE :
    chunks SUB_ALL_AGENT_STATE =
      ["furcate".toList, "mesh".toList, ['*'], "agent".toList, ['*', '*']] := by
  decide

theorem matchChunks_allPeers {pattern rest : List Chunk} {peer : Chunk} :
    matchChunks ("furcate".toList :: "mesh".toList :: ['*'] :: pattern)
        ("furcate".toList :: "mesh".toList :: peer :: rest) = true ↔
      matchChunks pattern rest = true := by
  rw [matchChunks_literal (by decide) (by decide), and_iff_right rfl,
    matchChunks_literal (by decide) (by decide), and_iff_right rfl, matchChunks_one]

/-- What the three subscriptions select among keys of a peer. -/
theorem selects_allPeers {key : String} {peer segment : Chunk} {rest : List Chunk}
    (hkey : chunks key = "furcate".toList :: "mesh".toList :: peer :: segment :: rest) :
    (selects SUB_ALL_HEARTBEATS key = true ↔ segment = "heartbeat".toList ∧ rest = []) ∧
      (selects SUB_ALL_MODELS key = true ↔ segment = "model".toList) ∧
      (selects SUB_ALL_AGENT_STATE key = true ↔ segment = "agent".toList) := by
  refine ⟨?_, ?_, ?_⟩
  · rw [selects, chunks_SUB_ALL_HEARTBEATS, hkey, matchChunks_allPeers,
      matchChunks_literal (by decide) (by decide), matchChunks_nil_iff, eq_comm]
  · rw [selects, chunks_SUB_ALL_MODELS, hkey, matchChunks_allPeers,
      matchChunks_literal (by decide) (by decide), and_iff_left (matchChunks_many_last rest), eq_comm]
  · rw [selects, chunks_SUB_ALL_AGENT_STATE, hkey, matchChunks_allPeers,
      matchChunks_literal (by decide) (by decide), and_iff_left (matchChunks_many_last rest), eq_comm]

/-- Only heartbeats end at their segment among the kinds a subscription names. -/
theorem KeyRequest.name_of_heartbeat {request : KeyRequest} (h : request.kind = .heartbeat) :
    request.name = none := by
  cases request with
  | publish event => cases event <;> first | rfl | cases h
  | workOffer target requestId => cases h
  | workResult target requestId => cases h

theorem segment_toList_eq_iff {kind other : EventKind} {segment text : String}
    (h : segment? kind = some segment) (hother : segment? other = some text) :
    segment.toList = text.toList ↔ kind = other := by
  rw [String.toList_inj]
  constructor
  · rintro rfl
    exact segment?_injective h hother
  · rintro rfl
    rw [h] at hother
    exact Option.some.inj hother

/-- **Subscriptions select exactly their event class.**  A key with a well-formed
    name is selected by the heartbeat, model and agent subscription iff it is a
    heartbeat's, a model announcement's and an agent state's. -/
theorem subscriptions_select {source : WireKey} {key : String} (hkey : source.key = some key)
    (hnamed : source.WellNamed) :
    (selects SUB_ALL_HEARTBEATS key = true ↔ source.kind = some .heartbeat) ∧
      (selects SUB_ALL_MODELS key = true ↔ source.kind = some .modelAnnounce) ∧
      (selects SUB_ALL_AGENT_STATE key = true ↔ source.kind = some .agentState) := by
  cases source with
  | mesh request =>
    obtain ⟨segment, hsegment, rfl⟩ := KeyRequest.exists_of_key hkey
    have hchunks := chunks_peerKey request.peer (namedTail segment request.name)
    rw [chunks_namedTail (slash_notMem_segment hsegment)] at hchunks
    obtain ⟨hheartbeats, hmodels, hagents⟩ := selects_allPeers hchunks
    simp only [WireKey.kind, Option.some.injEq]
    refine ⟨hheartbeats.trans ?_, hmodels.trans ?_, hagents.trans ?_⟩
    · rw [segment_toList_eq_iff hsegment (show segment? .heartbeat = some "heartbeat" from rfl)]
      refine and_iff_left_of_imp fun hkind => ?_
      rw [KeyRequest.name_of_heartbeat hkind]
      rfl
    · exact segment_toList_eq_iff hsegment (show segment? .modelAnnounce = some "model" from rfl)
    · exact segment_toList_eq_iff hsegment (show segment? .agentState = some "agent" from rfl)
  | transfer digest =>
    cases hkey
    have hroot : chunks TRANSFER_ROOT = ["furcate".toList, "mesh".toList, "transfer".toList] := by
      decide
    have hchunks : chunks (selector digest) =
        ["furcate".toList, "mesh".toList, "transfer".toList, digest.toList] := by
      rw [selector, chunks_append_slash, hroot, chunks_of_not_mem (slash_notMem_hex hnamed)]
      rfl
    obtain ⟨hheartbeats, hmodels, hagents⟩ := selects_allPeers hchunks
    -- a digest is longer than every segment
    have hlong : ∀ text : String, text.toList.length ≠ 64 → digest.toList ≠ text.toList :=
      fun text hlen heq => hlen (heq ▸ hnamed.1)
    rw [hheartbeats, hmodels, hagents]
    simp only [WireKey.kind, reduceCtorEq, iff_false]
    exact ⟨fun h => hlong "heartbeat" (by decide) h.1, hlong "model" (by decide),
      hlong "agent" (by decide)⟩

theorem subscriptions_select_model :
    ∃ key, keyFor (Sample.model "a/heartbeat" "d") = some key ∧
      ¬ selects SUB_ALL_HEARTBEATS key = true ∧ selects SUB_ALL_MODELS key = true := by
  have hchunks : chunks "a/heartbeat" = [['a'], "heartbeat".toList] := by decide
  have hconcrete : IsConcrete "a/heartbeat" := by
    intro chunk hchunk
    rw [hchunks] at hchunk
    simp only [List.mem_cons, List.not_mem_nil, or_false] at hchunk
    rcases hchunk with rfl | rfl
    · exact isConcreteChunk_of_all (by decide) (by decide)
    · exact isConcreteChunk_of_all (by decide) (by decide)
  obtain ⟨hheartbeats, hmodels, _⟩ :=
    @subscriptions_select (.mesh (.publish (Sample.model "a/heartbeat" "d"))) _ rfl
      (fun name hname => Option.some.inj hname ▸ hconcrete)
  refine ⟨_, rfl, fun h => ?_, hmodels.mpr rfl⟩
  exact absurd (hheartbeats.mp h) (by decide)

end FurcateMesh.Keys
