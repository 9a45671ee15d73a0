import FurcateMesh.Identity
import FurcateMesh.Library.Results

/-!
# Raw-public-key TLS

The TLS side of `furcate-mesh-identity/src/lib.rs`: a peer id becomes a
`SubjectPublicKeyInfo`, the configs are built from an allow-list or from the
expected server, and the verifiers compare what the other side presents with the
list they were built from.

An empty list means that every client is accepted, so it matters that a build never
drops a member: a config that was built accepts exactly the members of its list
(`acceptance_is_allow_list`).  A list with a member that is no key, such as 32 bytes that are
not a point of the curve, is not built at all.

Ed25519 and the rustls provider are parameters.  Of the curve it is used that a key which
parses keeps its bytes and that its SPKI is a fixed header followed by them, so different
peers have different SPKIs (`peerIdToSpki_inj`).  Nothing is assumed of the provider: it may
refuse a key at each of the steps of `certified_key_from`, and the build then fails.

Both builds are sequences of fallible steps; `build_ok` takes such a sequence apart once, for
the verifier and for the key that is presented.
-/

namespace FurcateMesh.Identity

/-- Ed25519 public keys as the TLS code uses them.  A key that parses keeps its 32
    bytes, and its `SubjectPublicKeyInfo` is a fixed header followed by them. -/
structure Ed25519 where
  VerifyingKey : Type
  fromBytes : Vector UInt8 32 → Except String VerifyingKey
  toBytes : VerifyingKey → Vector UInt8 32
  toPublicKeyDer : VerifyingKey → Except String Bytes
  header : Bytes
  toBytes_of_fromBytes : ∀ bytes key, fromBytes bytes = .ok key → toBytes key = bytes
  toPublicKeyDer_eq : ∀ key, toPublicKeyDer key = .ok (header ++ (toBytes key).toList)

/-- What is used of the rustls provider to load the local key. -/
structure KeyProvider (SigningKey LoadedKey : Type) where
  toPkcs8Der : SigningKey → Except String Bytes
  tryFrom : Bytes → Except String Bytes
  loadPrivateKey : Bytes → Except String LoadedKey
  publicKey : LoadedKey → Option Bytes

inductive RustlsError where
  | unknownIssuer
deriving DecidableEq, Repr

structure CertifiedKey (LoadedKey : Type) where
  cert : List Bytes
  key : LoadedKey

variable {SigningKey LoadedKey : Type}

/-! ### Key material -/

def peerIdToSpki (curve : Ed25519) (peer : PeerId) : Except IdentityError Bytes :=
  match curve.fromBytes peer.bytes with
  | .error e => .error (.tls ("invalid peer pubkey: " ++ e))
  | .ok key =>
      match curve.toPublicKeyDer key with
      | .error e => .error (.tls ("encoding peer SPKI: " ++ e))
      | .ok der => .ok der

def certifiedKeyFrom (provider : KeyProvider SigningKey LoadedKey) (signing : SigningKey) :
    Except IdentityError (CertifiedKey LoadedKey) :=
  match provider.toPkcs8Der signing with
  | .error e => .error (.tls ("encoding private PKCS#8: " ++ e))
  | .ok der =>
      match provider.tryFrom der with
      | .error e => .error (.tls ("rustls private key parse: " ++ e))
      | .ok privKey =>
          match provider.loadPrivateKey privKey with
          | .error e => .error (.tls ("rustls load_private_key: " ++ e))
          | .ok signingKey =>
              match provider.publicKey signingKey with
              | none => .error (.tls "signing key has no public key")
              | some spki => .ok ⟨[spki], signingKey⟩

/-! ### Verifiers -/

structure RpkServerCertVerifier where
  trusted : List Bytes

def RpkServerCertVerifier.verifyServerCert (verifier : RpkServerCertVerifier) (endEntity : Bytes) :
    Except RustlsError Unit :=
  if verifier.trusted.contains endEntity then .ok () else .error .unknownIssuer

structure RpkClientCertVerifier where
  trusted : List Bytes
  isOpen : Bool

def RpkClientCertVerifier.new (trusted : List Bytes) : RpkClientCertVerifier :=
  ⟨trusted, trusted.isEmpty⟩

def RpkClientCertVerifier.verifyClientCert (verifier : RpkClientCertVerifier) (endEntity : Bytes) :
    Except RustlsError Unit :=
  if verifier.isOpen then .ok ()
  else if verifier.trusted.contains endEntity then .ok () else .error .unknownIssuer

/-! ### Configs -/

/-- A built config: the verifier of the other side and the key that is presented. -/
structure BuiltConfig (Verifier LoadedKey : Type) where
  verifier : Verifier
  certified : CertifiedKey LoadedKey

structure ServerTlsConfig (SigningKey : Type) where
  identity : SigningKey
  allowed : List PeerId

structure ClientTlsConfig (SigningKey : Type) where
  identity : SigningKey
  expectedServer : PeerId

def ServerTlsConfig.build (curve : Ed25519) (provider : KeyProvider SigningKey LoadedKey)
    (cfg : ServerTlsConfig SigningKey) :
    Except IdentityError (BuiltConfig RpkClientCertVerifier LoadedKey) := do
  let allowedSpki ← cfg.allowed.mapM (peerIdToSpki curve)
  let certified ← certifiedKeyFrom provider cfg.identity
  return ⟨RpkClientCertVerifier.new allowedSpki, certified⟩

def ClientTlsConfig.build (curve : Ed25519) (provider : KeyProvider SigningKey LoadedKey)
    (cfg : ClientTlsConfig SigningKey) :
    Except IdentityError (BuiltConfig RpkServerCertVerifier LoadedKey) := do
  let serverSpki ← peerIdToSpki curve cfg.expectedServer
  let certified ← certifiedKeyFrom provider cfg.identity
  return ⟨⟨[serverSpki]⟩, certified⟩

/-! ### The encoding of a peer -/

variable {curve : Ed25519} {provider : KeyProvider SigningKey LoadedKey}

/-- A peer whose bytes are a key has the SPKI of those bytes; another has none. -/
theorem peerIdToSpki_eq (curve : Ed25519) (peer : PeerId) :
    peerIdToSpki curve peer =
      match curve.fromBytes peer.bytes with
      | .error e => .error (.tls ("invalid peer pubkey: " ++ e))
      | .ok _ => .ok (curve.header ++ peer.bytes.toList) := by
  rw [peerIdToSpki]
  split
  · rfl
  · next key hkey =>
    rw [curve.toPublicKeyDer_eq, curve.toBytes_of_fromBytes _ _ hkey]

theorem peerIdToSpki_ok {peer : PeerId} {spki : Bytes} (h : peerIdToSpki curve peer = .ok spki) :
    spki = curve.header ++ peer.bytes.toList := by
  rw [peerIdToSpki_eq] at h
  split at h
  · simp at h
  · exact (Except.ok.inj h).symm

theorem peerIdToSpki_inj {left right : PeerId} {spki : Bytes}
    (hleft : peerIdToSpki curve left = .ok spki) (hright : peerIdToSpki curve right = .ok spki) :
    left = right := by
  have hlist := (peerIdToSpki_ok hleft).symm.trans (peerIdToSpki_ok hright)
  rw [PeerId.mk.injEq]
  exact Vector.toList_inj.mp (List.append_cancel_left hlist)

/-! ### Building a config -/

/-- The conversion of a list loses no member and adds nothing. -/
structure Converts (curve : Ed25519) (allowed : List PeerId) (spkis : List Bytes) : Prop where
  nil_iff : spkis = [] ↔ allowed = []
  member : ∀ peer ∈ allowed, ∃ spki ∈ spkis, peerIdToSpki curve peer = .ok spki
  source : ∀ spki ∈ spkis, ∃ peer ∈ allowed, peerIdToSpki curve peer = .ok spki

theorem Converts.cons {peer : PeerId} {spki : Bytes} {allowed : List PeerId} {spkis : List Bytes}
    (hpeer : peerIdToSpki curve peer = .ok spki) (h : Converts curve allowed spkis) :
    Converts curve (peer :: allowed) (spki :: spkis) := by
  refine ⟨by simp, ?_, ?_⟩
  · simp only [List.forall_mem_cons, List.exists_mem_cons_iff]
    exact ⟨Or.inl hpeer, fun other hother => Or.inr (h.member other hother)⟩
  · simp only [List.forall_mem_cons, List.exists_mem_cons_iff]
    exact ⟨Or.inl hpeer, fun other hother => Or.inr (h.source other hother)⟩

theorem converts_of_mapM {allowed : List PeerId} {spkis : List Bytes}
    (h : allowed.mapM (peerIdToSpki curve) = .ok spkis) : Converts curve allowed spkis := by
  induction allowed generalizing spkis with
  | nil =>
    rw [← Except.ok.inj h]
    exact ⟨by simp, by simp, by simp⟩
  | cons peer allowed ih =>
    -- the first member that fails ends the traversal, so here all of them succeed
    rcases hpeer : peerIdToSpki curve peer with e | spki
    · simp [List.mapM_cons, hpeer, bind, Except.bind] at h
    · rcases hrest : allowed.mapM (peerIdToSpki curve) with e | rest
      · simp [List.mapM_cons, hpeer, hrest, bind, Except.bind] at h
      · have hspkis : spki :: rest = spkis := by
          simpa [List.mapM_cons, hpeer, hrest, bind, Except.bind, pure, Except.pure] using h
        rw [← hspkis]
        exact (ih hrest).cons hpeer

theorem Converts.mem_iff {allowed : List PeerId} {spkis : List Bytes}
    (h : Converts curve allowed spkis) (presented : Bytes) :
    presented ∈ spkis ↔ ∃ peer ∈ allowed, peerIdToSpki curve peer = .ok presented := by
  constructor
  · exact h.source presented
  · rintro ⟨peer, hpeer, hpresented⟩
    obtain ⟨spki, hmem, hspki⟩ := h.member peer hpeer
    rw [hpresented] at hspki
    rwa [Except.ok.inj hspki]

/-- A server config that was built has converted its list and loaded its key. -/
theorem ServerTlsConfig.build_ok {cfg : ServerTlsConfig SigningKey}
    {config : BuiltConfig RpkClientCertVerifier LoadedKey}
    (h : cfg.build curve provider = .ok config) :
    ∃ spkis, Converts curve cfg.allowed spkis ∧
      config.verifier = RpkClientCertVerifier.new spkis ∧
      certifiedKeyFrom provider cfg.identity = .ok config.certified := by
  rw [ServerTlsConfig.build, Results.bind_eq_ok_iff] at h
  obtain ⟨spkis, hspkis, h⟩ := h
  rw [Results.bind_eq_ok_iff] at h
  obtain ⟨certified, hkey, h⟩ := h
  cases h
  exact ⟨spkis, converts_of_mapM hspkis, rfl, hkey⟩

theorem ClientTlsConfig.build_ok {cfg : ClientTlsConfig SigningKey}
    {config : BuiltConfig RpkServerCertVerifier LoadedKey}
    (h : cfg.build curve provider = .ok config) :
    ∃ spki, peerIdToSpki curve cfg.expectedServer = .ok spki ∧ config.verifier = ⟨[spki]⟩ ∧
      certifiedKeyFrom provider cfg.identity = .ok config.certified := by
  rw [ClientTlsConfig.build, Results.bind_eq_ok_iff] at h
  obtain ⟨spki, hspki, h⟩ := h
  rw [Results.bind_eq_ok_iff] at h
  obtain ⟨certified, hkey, h⟩ := h
  cases h
  exact ⟨spki, hspki, rfl, hkey⟩

/-! ### What the verifiers accept -/

theorem RpkClientCertVerifier.verifyClientCert_new (trusted : List Bytes) (presented : Bytes) :
    (RpkClientCertVerifier.new trusted).verifyClientCert presented = .ok () ↔
      trusted = [] ∨ presented ∈ trusted := by
  rcases trusted with _ | ⟨spki, trusted⟩
  · simp [RpkClientCertVerifier.new, RpkClientCertVerifier.verifyClientCert]
  · simp [RpkClientCertVerifier.new, RpkClientCertVerifier.verifyClientCert, or_iff_not_imp_left]

theorem ServerTlsConfig.accepts_iff {cfg : ServerTlsConfig SigningKey}
    {config : BuiltConfig RpkClientCertVerifier LoadedKey}
    (h : cfg.build curve provider = .ok config) (presented : Bytes) :
    config.verifier.verifyClientCert presented = .ok () ↔
      cfg.allowed = [] ∨ ∃ peer ∈ cfg.allowed, peerIdToSpki curve peer = .ok presented := by
  obtain ⟨spkis, hspkis, hverifier, -⟩ := ServerTlsConfig.build_ok h
  rw [hverifier, RpkClientCertVerifier.verifyClientCert_new, hspkis.nil_iff, hspkis.mem_iff]

theorem ClientTlsConfig.accepts_iff {cfg : ClientTlsConfig SigningKey}
    {config : BuiltConfig RpkServerCertVerifier LoadedKey}
    (h : cfg.build curve provider = .ok config) (presented : Bytes) :
    config.verifier.verifyServerCert presented = .ok () ↔
      peerIdToSpki curve cfg.expectedServer = .ok presented := by
  obtain ⟨spki, hspki, hverifier, -⟩ := ClientTlsConfig.build_ok h
  rw [hverifier, hspki, Except.ok.injEq]
  simp [RpkServerCertVerifier.verifyServerCert, eq_comm]

theorem ServerTlsConfig.build_error {cfg : ServerTlsConfig SigningKey} {peer : PeerId}
    (hpeer : peer ∈ cfg.allowed) {e : String} (he : curve.fromBytes peer.bytes = .error e) :
    ∃ error, cfg.build curve provider = .error error := by
  rcases hbuild : cfg.build curve provider with error | config
  · exact ⟨error, rfl⟩
  · -- a built config has converted every member
    obtain ⟨spkis, hspkis, -⟩ := ServerTlsConfig.build_ok hbuild
    obtain ⟨spki, -, hspki⟩ := hspkis.member peer hpeer
    simp [peerIdToSpki, he] at hspki

/-- **TLS acceptance is exactly the allow-list.**  A server config that was built
    accepts a presented byte string if and only if the list is empty or the string is
    the SPKI of a member; it is not built when a member is no key; a client config
    that was built accepts exactly the SPKI of the expected server.  So the key of
    another peer is never accepted for a member or for the server. -/
theorem acceptance_is_allow_list (curve : Ed25519) (provider : KeyProvider SigningKey LoadedKey)
    (server : ServerTlsConfig SigningKey) (client : ClientTlsConfig SigningKey) :
    (∀ config, server.build curve provider = .ok config → ∀ presented,
      (config.verifier.verifyClientCert presented = .ok () ↔
        server.allowed = [] ∨ ∃ peer ∈ server.allowed, peerIdToSpki curve peer = .ok presented) ∧
      ∀ peer, peerIdToSpki curve peer = .ok presented →
        config.verifier.verifyClientCert presented = .ok () →
        server.allowed = [] ∨ peer ∈ server.allowed) ∧
    (∀ peer ∈ server.allowed, ∀ e, curve.fromBytes peer.bytes = .error e →
      ∃ error, server.build curve provider = .error error) ∧
    (∀ config, client.build curve provider = .ok config → ∀ presented,
      (config.verifier.verifyServerCert presented = .ok () ↔
        peerIdToSpki curve client.expectedServer = .ok presented) ∧
      ∀ peer, peerIdToSpki curve peer = .ok presented →
        config.verifier.verifyServerCert presented = .ok () → peer = client.expectedServer) ∧
    (∀ peer spki, peerIdToSpki curve peer = .ok spki →
      spki = curve.header ++ peer.bytes.toList) := by
  refine ⟨?_, fun peer hpeer e he => ServerTlsConfig.build_error hpeer he, ?_,
    fun peer spki => peerIdToSpki_ok⟩
  · intro config hconfig presented
    have haccepts := ServerTlsConfig.accepts_iff hconfig presented
    refine ⟨haccepts, ?_⟩
    intro peer hpeer haccepted
    rcases haccepts.mp haccepted with hempty | ⟨member, hmember, hspki⟩
    · exact Or.inl hempty
    · rw [peerIdToSpki_inj hpeer hspki]
      exact Or.inr hmember
  · intro config hconfig presented
    have haccepts := ClientTlsConfig.accepts_iff hconfig presented
    refine ⟨haccepts, ?_⟩
    intro peer hpeer haccepted
    exact peerIdToSpki_inj hpeer (haccepts.mp haccepted)

/-- A curve on which the bytes with a leading 255 are no key. -/
def Sample.ed25519 : Ed25519 where
  VerifyingKey := { bytes : Vector UInt8 32 // bytes.toList.head? ≠ some 255 }
  fromBytes bytes :=
    if h : bytes.toList.head? ≠ some 255 then .ok ⟨bytes, h⟩ else .error "Cannot decompress"
  toBytes key := key.1
  toPublicKeyDer key := .ok ([48, 42, 48, 5, 6, 3, 43, 101, 112, 3, 33, 0] ++ key.1.toList)
  header := [48, 42, 48, 5, 6, 3, 43, 101, 112, 3, 33, 0]
  toBytes_of_fromBytes := by
    intro bytes key h
    split at h
    · rw [← Except.ok.inj h]
    · simp at h
  toPublicKeyDer_eq _ := rfl

def Sample.keyProvider : KeyProvider Unit Unit where
  toPkcs8Der _ := .ok []
  tryFrom der := .ok der
  loadPrivateKey _ := .ok ()
  publicKey _ := some []

def Sample.peerId (byte : UInt8) : PeerId := ⟨Vector.replicate 32 byte⟩

def Sample.spki (byte : UInt8) : Bytes := Sample.ed25519.header ++ List.replicate 32 byte

/-- With peers 1 and 2 on the list, peer 2 is accepted and peer 3 is not; with the
    invalid peer 255 on it too, nothing is built.  A client that expects peer 1 accepts
    peer 1 and not peer 2. -/
theorem acceptance_of_two_peers :
    (∃ config, ServerTlsConfig.build Sample.ed25519 Sample.keyProvider
        ⟨(), [Sample.peerId 1, Sample.peerId 2]⟩ = .ok config ∧
      config.verifier.verifyClientCert (Sample.spki 2) = .ok () ∧
      config.verifier.verifyClientCert (Sample.spki 3) ≠ .ok ()) ∧
    (∃ error, ServerTlsConfig.build Sample.ed25519 Sample.keyProvider
        ⟨(), [Sample.peerId 1, Sample.peerId 255]⟩ = .error error) ∧
    ∃ config, ClientTlsConfig.build Sample.ed25519 Sample.keyProvider ⟨(), Sample.peerId 1⟩ =
        .ok config ∧
      config.verifier.verifyServerCert (Sample.spki 1) = .ok () ∧
      config.verifier.verifyServerCert (Sample.spki 2) ≠ .ok () := by
  have htwo := acceptance_is_allow_list Sample.ed25519 Sample.keyProvider
    ⟨(), [Sample.peerId 1, Sample.peerId 2]⟩ ⟨(), Sample.peerId 1⟩
  have hbad := acceptance_is_allow_list Sample.ed25519 Sample.keyProvider
    ⟨(), [Sample.peerId 1, Sample.peerId 255]⟩ ⟨(), Sample.peerId 1⟩
  refine ⟨⟨_, rfl, ?_, ?_⟩, hbad.2.1 (Sample.peerId 255) (by simp) "Cannot decompress" rfl,
    ⟨_, rfl, ?_, ?_⟩⟩
  · exact ((htwo.1 _ rfl _).1).mpr (Or.inr ⟨Sample.peerId 2, by simp, rfl⟩)
  · intro haccepted
    have hmember := (htwo.1 _ rfl _).2 (Sample.peerId 3) rfl haccepted
    revert hmember
    decide +kernel
  · exact ((htwo.2.2.1 _ rfl _).1).mpr rfl
  · intro haccepted
    have hsame := (htwo.2.2.1 _ rfl _).2 (Sample.peerId 2) rfl haccepted
    revert hsame
    decide +kernel

end FurcateMesh.Identity
