import FurcateMesh.IdentityTls

/-!
# The handshake of two peers

A handshake between configs built by `ServerTlsConfig::build` and `ClientTlsConfig::build`
of `furcate-mesh-identity/src/lib.rs`: each side presents its raw public key with a
signature over the transcript, and each asks its verifier for the key first and the
signature then.  TLS 1.2 signatures are always refused.

Against a party that presents anything at all, a side accepts exactly if the key is one it
wants and the signature verifies under it (`clientAccepts_iff`, `serverAccepts_iff`); a
server with an empty list takes any bytes for a key, whether or not they are those of a
peer.  Two peers connect exactly if the client expects the server it talks to and the
server's list is empty or has the client on it (`handshake_iff`).  Of signatures only this
is assumed, that one made with a key verifies under its public key.
-/

namespace FurcateMesh.Identity

variable {SigningKey LoadedKey : Type}

/-- Signatures over handshake transcripts: the one that rustls makes with the key of a config,
    and `verify_tls13_signature_with_raw_key` with the algorithms of the provider. -/
structure Signatures (LoadedKey : Type) where
  Signature : Type
  sign : LoadedKey → Bytes → Signature
  verify : Bytes → Bytes → Signature → Except String Unit

inductive Version where
  | tls12
  | tls13
deriving DecidableEq

inductive HandshakeError where
  | cert (error : RustlsError)
  | tls12NotOffered
  | badSignature (reason : String)
deriving DecidableEq

structure Presented (Signature : Type) where
  endEntity : Bytes
  signature : Signature

section Verify

variable (sigs : Signatures LoadedKey)

/-- `verify_tls12_signature` and `verify_tls13_signature`, the same in both verifiers. -/
def verifySignature (version : Version) (message : Bytes) (presented : Presented sigs.Signature) :
    Except HandshakeError Unit :=
  match version with
  | .tls12 => .error .tls12NotOffered
  | .tls13 => (sigs.verify message presented.endEntity presented.signature).mapError .badSignature

def clientAccepts (config : BuiltConfig RpkServerCertVerifier LoadedKey) (version : Version)
    (message : Bytes) (presented : Presented sigs.Signature) : Except HandshakeError Unit := do
  (config.verifier.verifyServerCert presented.endEntity).mapError .cert
  verifySignature sigs version message presented

def serverAccepts (config : BuiltConfig RpkClientCertVerifier LoadedKey) (version : Version)
    (message : Bytes) (presented : Presented sigs.Signature) : Except HandshakeError Unit := do
  (config.verifier.verifyClientCert presented.endEntity).mapError .cert
  verifySignature sigs version message presented

/-- What a resolver presents: the raw key as the only certificate. -/
def CertifiedKey.present (certified : CertifiedKey LoadedKey) (message : Bytes) :
    Presented sigs.Signature :=
  ⟨certified.cert.headD [], sigs.sign certified.key message⟩

def Connects (client : BuiltConfig RpkServerCertVerifier LoadedKey)
    (server : BuiltConfig RpkClientCertVerifier LoadedKey) (serverMessage clientMessage : Bytes) :
    Prop :=
  clientAccepts sigs client .tls13 serverMessage (server.certified.present sigs serverMessage) =
      .ok () ∧
    serverAccepts sigs server .tls13 clientMessage (client.certified.present sigs clientMessage) =
      .ok ()

/-- What is assumed of keys and signatures: a loaded signing key has the public key of its
    peer, and a signature made with a key verifies under its public key. -/
structure Signatures.Lawful (curve : Ed25519) (provider : KeyProvider SigningKey LoadedKey)
    (peerId : SigningKey → PeerId) : Prop where
  public_of_load : ∀ signing certified, certifiedKeyFrom provider signing = .ok certified →
    ∃ spki, peerIdToSpki curve (peerId signing) = .ok spki ∧
      provider.publicKey certified.key = some spki
  verify_sign : ∀ key spki message, provider.publicKey key = some spki →
    sigs.verify message spki (sigs.sign key message) = .ok ()

end Verify

section Accepts

variable {sigs : Signatures LoadedKey} {version : Version} {message : Bytes}
  {presented : Presented sigs.Signature}

/-- A signature is accepted in TLS 1.3 only. -/
theorem verifySignature_eq_ok :
    verifySignature sigs version message presented = .ok () ↔
      version = .tls13 ∧ sigs.verify message presented.endEntity presented.signature = .ok () := by
  cases version with
  | tls12 => exact ⟨fun h => (by cases h), fun h => (by cases h.1)⟩
  | tls13 =>
    rw [verifySignature, Results.mapError_eq_ok_iff]
    exact ⟨fun h => ⟨rfl, h⟩, fun h => h.2⟩

variable {curve : Ed25519} {provider : KeyProvider SigningKey LoadedKey}

theorem clientAccepts_iff {cfg : ClientTlsConfig SigningKey}
    {config : BuiltConfig RpkServerCertVerifier LoadedKey}
    (hbuild : cfg.build curve provider = .ok config) :
    clientAccepts sigs config version message presented = .ok () ↔
      peerIdToSpki curve cfg.expectedServer = .ok presented.endEntity ∧ version = .tls13 ∧
        sigs.verify message presented.endEntity presented.signature = .ok () := by
  rw [clientAccepts, Results.check_bind_eq_ok_iff, Results.mapError_eq_ok_iff,
    ClientTlsConfig.accepts_iff hbuild, verifySignature_eq_ok]

theorem serverAccepts_iff {cfg : ServerTlsConfig SigningKey}
    {config : BuiltConfig RpkClientCertVerifier LoadedKey}
    (hbuild : cfg.build curve provider = .ok config) :
    serverAccepts sigs config version message presented = .ok () ↔
      (cfg.allowed = [] ∨ ∃ peer ∈ cfg.allowed,
        peerIdToSpki curve peer = .ok presented.endEntity) ∧ version = .tls13 ∧
        sigs.verify message presented.endEntity presented.signature = .ok () := by
  rw [serverAccepts, Results.check_bind_eq_ok_iff, Results.mapError_eq_ok_iff,
    ServerTlsConfig.accepts_iff hbuild, verifySignature_eq_ok]

end Accepts

namespace Sample

def keyByte (key : Bool) : UInt8 := if key then 2 else 1

def twoKeys : KeyProvider Bool Bool where
  toPkcs8Der key := .ok [keyByte key]
  tryFrom der := .ok der
  loadPrivateKey der :=
    if der = [1] then .ok false else if der = [2] then .ok true else .error "bad key"
  publicKey key := some (spki (keyByte key))

/-- A signature that shows who signed what. -/
def openSignatures : Signatures Bool where
  Signature := Bool × Bytes
  sign key message := (key, message)
  verify message key signature :=
    if signature.2 = message ∧ spki (keyByte signature.1) = key then .ok () else .error "bad"

theorem openSignatures_lawful :
    openSignatures.Lawful ed25519 twoKeys fun key => Sample.peerId (keyByte key) where
  public_of_load := by
    intro signing certified hload
    cases signing <;> cases hload <;> exact ⟨_, rfl, rfl⟩
  verify_sign := by
    intro key spki message hpublic
    exact if_pos ⟨rfl, Option.some.inj hpublic⟩

end Sample

section Handshake

variable (sigs : Signatures LoadedKey) {curve : Ed25519}
  {provider : KeyProvider SigningKey LoadedKey} {peerId : SigningKey → PeerId}

theorem certifiedKeyFrom_ok {signing : SigningKey} {certified : CertifiedKey LoadedKey}
    (h : certifiedKeyFrom provider signing = .ok certified) :
    ∃ spki, certified.cert = [spki] ∧ provider.publicKey certified.key = some spki := by
  unfold certifiedKeyFrom at h
  split at h
  · cases h
  · split at h
    · cases h
    · split at h
      · cases h
      · split at h
        · cases h
        · next spki hpublic =>
          cases h
          exact ⟨spki, rfl, hpublic⟩

/-- A peer's own key passes the signature check. -/
theorem Signatures.Lawful.present (hlaws : sigs.Lawful curve provider peerId) {signing : SigningKey}
    {certified : CertifiedKey LoadedKey} (hload : certifiedKeyFrom provider signing = .ok certified)
    (message : Bytes) :
    peerIdToSpki curve (peerId signing) = .ok (certified.present sigs message).endEntity ∧
      sigs.verify message (certified.present sigs message).endEntity
        (certified.present sigs message).signature = .ok () := by
  obtain ⟨spki, hspki, hpublic⟩ := hlaws.public_of_load signing certified hload
  obtain ⟨spki', hcert, hpublic'⟩ := certifiedKeyFrom_ok hload
  rw [hpublic, Option.some.injEq] at hpublic'
  have hend : (certified.present sigs message).endEntity = spki := by
    rw [CertifiedKey.present, hcert, hpublic']
    rfl
  rw [hend]
  exact ⟨hspki, hlaws.verify_sign certified.key spki message hpublic⟩

/-- **When two peers connect.**  For all configs that were built and all transcripts: both
    sides accept, if and only if the client expects the peer id of the server and the
    server's list is empty or has the peer id of the client. -/
theorem handshake_iff (hlaws : sigs.Lawful curve provider peerId)
    (client : ClientTlsConfig SigningKey) (server : ServerTlsConfig SigningKey)
    {clientConfig : BuiltConfig RpkServerCertVerifier LoadedKey}
    {serverConfig : BuiltConfig RpkClientCertVerifier LoadedKey}
    (hclient : client.build curve provider = .ok clientConfig)
    (hserver : server.build curve provider = .ok serverConfig)
    (serverMessage clientMessage : Bytes) :
    Connects sigs clientConfig serverConfig serverMessage clientMessage ↔
      client.expectedServer = peerId server.identity ∧
        (server.allowed = [] ∨ peerId client.identity ∈ server.allowed) := by
  obtain ⟨_, _, _, hserverKey⟩ := ServerTlsConfig.build_ok hserver
  obtain ⟨_, _, _, hclientKey⟩ := ClientTlsConfig.build_ok hclient
  obtain ⟨hserverSpki, hserverSigned⟩ := hlaws.present sigs hserverKey serverMessage
  obtain ⟨hclientSpki, hclientSigned⟩ := hlaws.present sigs hclientKey clientMessage
  rw [Connects, clientAccepts_iff hclient, serverAccepts_iff hserver]
  constructor
  · rintro ⟨⟨hexpected, -⟩, hlisted, -⟩
    refine ⟨peerIdToSpki_inj hexpected hserverSpki, ?_⟩
    rcases hlisted with hempty | ⟨peer, hpeer, hspki⟩
    · exact .inl hempty
    · rw [peerIdToSpki_inj hclientSpki hspki]
      exact .inr hpeer
  · rintro ⟨hexpected, hlisted⟩
    refine ⟨⟨by rw [hexpected, hserverSpki], rfl, hserverSigned⟩, ?_, rfl, hclientSigned⟩
    rcases hlisted with hempty | hpeer
    · exact .inl hempty
    · exact .inr ⟨peerId client.identity, hpeer, hclientSpki⟩

open Sample in
/-- A listed client connects to the server it expects. -/
theorem handshake_of_listed_client :
    ∃ client server,
      ClientTlsConfig.build ed25519 twoKeys ⟨false, Sample.peerId 2⟩ = .ok client ∧
      ServerTlsConfig.build ed25519 twoKeys ⟨true, [Sample.peerId 1]⟩ = .ok server ∧
      Connects openSignatures client server [7] [8] :=
  ⟨_, _, rfl, rfl, (handshake_iff openSignatures openSignatures_lawful ⟨false, Sample.peerId 2⟩
    ⟨true, [Sample.peerId 1]⟩ rfl rfl [7] [8]).mpr ⟨rfl, .inr List.mem_cons_self⟩⟩

end Handshake

end FurcateMesh.Identity
