import FurcateMesh.PeerId

/-!
# Peer discovery

`Discovery::run` of `furcate-mesh-discovery/src/lib.rs`: the static seeds are sent
to the consumer first, then the local peer is registered on mDNS and every service
that resolves to a peer is sent as it is seen.

Peers reach the consumer by these two paths only (`run_sent`).  The mDNS path drops
the local peer, the seed path does not look at it, so the local peer stays hidden
exactly when no seed that is reached names it (`local_peer_hidden_iff`).  The seed
parser takes exactly the entries `p@a` and `p@a/u`, each in one way
(`parse_seed_grammar`).

The channel to the consumer holds 32 peers.  A send waits while it is full and fails when
the receiver is dropped, so it matters whether a consumer that has stopped reading keeps
its receiver: then the task stays in its send, otherwise it returns.  `model_push` and
`model_pull` of `furcate-mesh-cli` keep receivers they never read.

What the task meets outside itself is its `Environment`: the answers of the mDNS daemon, each
of which may be an error, the events its browse channel has delivered and whether the channel
then closed, and the consumer.  A `Consumer` reads on, stops after some peers but keeps its
receiver, or drops it.  A run is a function of the environment: the peers that were sent, in
order, and the `Status` of the task, which may be that it waits.

`std::net` enters as `SocketAddrs`: how a text is read as a socket address, how an IP address
and a port make one.  The grammar of seeds needs two facts about it (`SocketAddrs.Lawful`),
that an address has no slash in its text and that its printed form is read back.  A url may
contain anything, `@` and `/` included, since both are looked for from the left.

Text properties of a service are looked up without regard to case, and the last one of a
name counts.  A service without a peer, a url or an address resolves to nothing and is
skipped.
-/

namespace FurcateMesh.Discovery

def SERVICE_TYPE : String := "_furcate-mesh._tcp.local."

def CHANNEL_CAPACITY : Nat := 32

inductive DiscoveryError where
  | mdns (reason : String)
  | badSeed (entry reason : String)
deriving DecidableEq, Repr

structure DiscoveredPeer (Addr : Type) where
  peer : PeerId
  addr : Addr
  zenohUrl : String
  viaMdns : Bool

structure DiscoveryConfig where
  localPeer : Option PeerId
  localZenohUrl : Option String
  port : UInt16
  seeds : List String
  seedsOnly : Bool

/-- What is used of `std::net`. -/
structure SocketAddrs (Ip Addr : Type) where
  parse : String → Except String Addr
  new : Ip → UInt16 → Addr

variable {Ip Addr : Type}

/-! ### Seeds -/

/-- `str::split_once`: the parts before and after the first separator. -/
def splitOnce (separator : Char) (text : String) : Option (String × String) :=
  match text.toList.span (· != separator) with
  | (_, []) => none
  | (before, _ :: after) => some (String.ofList before, String.ofList after)

/-- Parse one seed-list entry, `<peer-hex>@<host>:<port>[/<zenoh-url>]`. -/
def parseSeed (net : SocketAddrs Ip Addr) (entry : String) :
    Except DiscoveryError (DiscoveredPeer Addr) :=
  match splitOnce '@' entry with
  | none => .error (.badSeed entry "expected '<peer-hex>@<host:port>[/<zenoh-url>]'")
  | some (peerPart, rest) =>
      match PeerId.fromHex peerPart with
      | .error e => .error (.badSeed entry e.display)
      | .ok peer =>
          let hostPort := ((splitOnce '/' rest).map Prod.fst).getD rest
          let zenohUrlOpt := (splitOnce '/' rest).map Prod.snd
          match net.parse hostPort with
          | .error e => .error (.badSeed entry ("not a socket addr: " ++ e))
          | .ok addr => .ok ⟨peer, addr, zenohUrlOpt.getD ("tcp/" ++ hostPort), false⟩

/-! ### mDNS services -/

structure ServiceInfo where
  serviceType : String
  instanceName : String
  hostName : String
  port : UInt16
  properties : List (String × String)

/-- A service as mDNS resolved it: the text properties in the order of the record
    and the addresses in the order they are iterated. -/
structure ResolvedService (Ip : Type) where
  txtProperties : List (String × String)
  addresses : List Ip
  port : UInt16

inductive ServiceEvent (Ip : Type) where
  | serviceResolved (service : ResolvedService Ip)
  | other

/-- The value of the last property with the key, whatever its case. -/
def lastProperty (key : String) (properties : List (String × String)) : Option String :=
  properties.foldl
    (fun found property => if toAsciiLowercase property.1 = key then some property.2 else found) none

def resolveToPeer (net : SocketAddrs Ip Addr) (service : ResolvedService Ip) :
    Option (DiscoveredPeer Addr) :=
  match lastProperty "peer" service.txtProperties, lastProperty "zenoh" service.txtProperties with
  | some peerHex, some zenohUrl =>
      match PeerId.fromHex peerHex, service.addresses with
      | .ok peer, ip :: _ => some ⟨peer, net.new ip service.port, zenohUrl, true⟩
      | _, _ => none
  | _, _ => none

def localService (localPeer : PeerId) (zenohUrl : String) (port : UInt16) : ServiceInfo where
  serviceType := SERVICE_TYPE
  instanceName := "furcate-" ++ localPeer.short
  hostName := "furcate-" ++ localPeer.short ++ ".local."
  port := port
  properties := [("peer", localPeer.toHex), ("zenoh", zenohUrl)]

/-! ### The service task -/

/-- The other end of the channel. -/
inductive Consumer where
  -- takes every peer
  | reads
  -- keeps the receiver, but has taken no more than this many peers
  | stops (taken : Nat)
  -- drops the receiver when this many peers have been sent
  | leaves (after : Nat)

inductive Status where
  | waiting
  | returned (result : Except DiscoveryError Unit)

def Consumer.limit : Consumer → Option Nat
  | .reads => none
  | .stops taken => some (taken + CHANNEL_CAPACITY)
  | .leaves after => some after

/-- The task at a send beyond the limit: it waits for room, or it returns. -/
def Consumer.refusal : Consumer → Status
  | .leaves _ => .returned (.ok ())
  | _ => .waiting

def Consumer.hasLeft (sent : Nat) : Consumer → Bool
  | .leaves after => after ≤ sent
  | _ => false

/-- What the task meets outside itself: how the mDNS daemon answers, the events the
    browse channel has delivered and whether it then closed, and the consumer. -/
structure Environment (Ip : Type) where
  daemon : Except String Unit
  newInfo : ServiceInfo → Except String Unit
  register : ServiceInfo → Except String Unit
  browse : String → Except String (List (ServiceEvent Ip))
  channelCloses : Bool
  consumer : Consumer

def Environment.accepts (env : Environment Ip) (sent : Nat) : Bool :=
  env.consumer.limit.all (fun limit => decide (sent < limit))

def registerLocal (env : Environment Ip) (localPeer : PeerId) (zenohUrl : String)
    (port : UInt16) : Except DiscoveryError Unit :=
  let info := localService localPeer zenohUrl port
  match env.newInfo info with
  | .error e => .error (.mdns ("ServiceInfo: " ++ e))
  | .ok () =>
      match env.register info with
      | .error e => .error (.mdns ("register: " ++ e))
      | .ok () => .ok ()

/-- The seed loop, after `sent` sends: the peers it sends, and the status of the task when
    it does not get past the seeds. -/
def flushSeeds (net : SocketAddrs Ip Addr) (env : Environment Ip) :
    Nat → List String → List (DiscoveredPeer Addr) × Option Status
  | _, [] => ([], none)
  | sent, entry :: rest =>
      match parseSeed net entry with
      | .error e => ([], some (.returned (.error e)))
      | .ok peer =>
          if env.accepts sent then
            let tail := flushSeeds net env (sent + 1) rest
            (peer :: tail.1, tail.2)
          else ([], some env.consumer.refusal)

/-- The browse loop over the events delivered so far. -/
def browseLoop (net : SocketAddrs Ip Addr) (env : Environment Ip) (localPeer : Option PeerId) :
    Nat → List (ServiceEvent Ip) → List (DiscoveredPeer Addr) × Status
  | _, [] => ([], if env.channelCloses then .returned (.ok ()) else .waiting)
  | sent, .other :: rest => browseLoop net env localPeer sent rest
  | sent, .serviceResolved service :: rest =>
      match resolveToPeer net service with
      | none => browseLoop net env localPeer sent rest
      | some peer =>
          if some peer.peer = localPeer then browseLoop net env localPeer sent rest
          else if env.accepts sent then
            let tail := browseLoop net env localPeer (sent + 1) rest
            (peer :: tail.1, tail.2)
          else ([], env.consumer.refusal)

def runMdns (net : SocketAddrs Ip Addr) (env : Environment Ip) (cfg : DiscoveryConfig)
    (sent : Nat) : List (DiscoveredPeer Addr) × Status :=
  match env.daemon with
  | .error e => ([], .returned (.error (.mdns ("daemon: " ++ e))))
  | .ok () =>
      let registered :=
        match cfg.localPeer, cfg.localZenohUrl with
        | some localPeer, some zenohUrl => registerLocal env localPeer zenohUrl cfg.port
        | _, _ => .ok ()
      match registered with
      | .error e => ([], .returned (.error e))
      | .ok () =>
          match env.browse SERVICE_TYPE with
          | .error e => ([], .returned (.error (.mdns ("browse: " ++ e))))
          | .ok events => browseLoop net env cfg.localPeer sent events

/-- The peers the task has sent and where it stands. -/
def run (net : SocketAddrs Ip Addr) (env : Environment Ip) (cfg : DiscoveryConfig) :
    List (DiscoveredPeer Addr) × Status :=
  match flushSeeds net env 0 cfg.seeds with
  | (seeds, some status) => (seeds, status)
  | (seeds, none) =>
      if cfg.seedsOnly then
        -- waits for the consumer to drop the receiver
        (seeds, if env.consumer.hasLeft seeds.length then .returned (.ok ()) else .waiting)
      else
        let found := runMdns net env cfg seeds.length
        (seeds ++ found.1, found.2)

/-! ### Advertising and resolving -/

/-- A peer that resolves the advertised service finds the peer that advertised it. -/
theorem resolveToPeer_localService (net : SocketAddrs Ip Addr) (localPeer : PeerId)
    (zenohUrl : String) (port : UInt16) (ip : Ip) (ips : List Ip) :
    resolveToPeer net ⟨(localService localPeer zenohUrl port).properties, ip :: ips, port⟩ =
      some ⟨localPeer, net.new ip port, zenohUrl, true⟩ := by
  have hpeer : lastProperty "peer" (localService localPeer zenohUrl port).properties =
      some localPeer.toHex := by
    simp [localService, lastProperty, show toAsciiLowercase "peer" = "peer" by decide,
      show toAsciiLowercase "zenoh" = "zenoh" by decide]
  have hzenoh : lastProperty "zenoh" (localService localPeer zenohUrl port).properties =
      some zenohUrl := by
    simp [localService, lastProperty, show toAsciiLowercase "peer" = "peer" by decide,
      show toAsciiLowercase "zenoh" = "zenoh" by decide]
  simp only [resolveToPeer, hpeer, hzenoh, PeerId.fromHex_toHex]

/-! ### A sample network -/

/-- Addresses kept as text; one without a port is refused. -/
def Sample.net : SocketAddrs String String where
  parse text :=
    if (splitOnce ':' text).isSome then .ok text else .error "invalid socket address syntax"
  new ip port := ip ++ ":" ++ toString port.toNat

def Sample.peer (byte : UInt8) : PeerId := ⟨Vector.replicate 32 byte⟩

def Sample.seed (digit : Char) (rest : String) : String :=
  String.ofList (List.replicate 64 digit) ++ "@" ++ rest

def Sample.config (seeds : List String) : DiscoveryConfig where
  localPeer := some (Sample.peer 0xaa)
  localZenohUrl := some "tcp/10.0.0.5:7447"
  port := 7447
  seeds := seeds
  seedsOnly := false

def Sample.quiet : Environment String :=
  ⟨.ok (), fun _ => .ok (), fun _ => .ok (), fun _ => .ok [], false, .reads⟩

/-! ### What the task sends -/

/-- A seed of the list that the loop comes to when the consumer keeps listening:
    every entry before it parses, and it parses to the peer. -/
def ReachedSeed (net : SocketAddrs Ip Addr) (seeds : List String) (peer : DiscoveredPeer Addr) :
    Prop :=
  ∃ before entry after, seeds = before ++ entry :: after ∧
    (∀ earlier ∈ before, ∃ found, parseSeed net earlier = .ok found) ∧
    parseSeed net entry = .ok peer

theorem ReachedSeed.cons {net : SocketAddrs Ip Addr} {entry : String} {seeds : List String}
    {first peer : DiscoveredPeer Addr} (hfirst : parseSeed net entry = .ok first)
    (h : ReachedSeed net seeds peer) : ReachedSeed net (entry :: seeds) peer := by
  obtain ⟨before, found, after, rfl, hbefore, hfound⟩ := h
  refine ⟨entry :: before, found, after, rfl, ?_, hfound⟩
  intro earlier hearlier
  rcases List.mem_cons.mp hearlier with rfl | hmem
  · exact ⟨first, hfirst⟩
  · exact hbefore earlier hmem

theorem ReachedSeed.mem {net : SocketAddrs Ip Addr} {seeds : List String}
    {peer : DiscoveredPeer Addr} (h : ReachedSeed net seeds peer) :
    ∃ entry ∈ seeds, parseSeed net entry = .ok peer := by
  obtain ⟨before, entry, after, rfl, -, hentry⟩ := h
  exact ⟨entry, by simp, hentry⟩

theorem flushSeeds_sent (net : SocketAddrs Ip Addr) (env : Environment Ip) (seeds : List String) :
    ∀ sent, ∀ peer ∈ (flushSeeds net env sent seeds).1, ReachedSeed net seeds peer := by
  induction seeds with
  | nil => simp [flushSeeds]
  | cons entry rest ih =>
    intro sent peer hpeer
    rw [flushSeeds] at hpeer
    split at hpeer
    · simp at hpeer
    · next first hfirst =>
      split at hpeer
      · rcases List.mem_cons.mp hpeer with rfl | hmem
        · exact ⟨[], entry, rest, rfl, by simp, hfirst⟩
        · exact (ih _ peer hmem).cons hfirst
      · simp at hpeer

/-- While the consumer listens, the loop sends every seed it comes to. -/
theorem flushSeeds_reached {net : SocketAddrs Ip Addr} {env : Environment Ip}
    (henv : env.consumer = .reads) {before : List String} {entry : String} {after : List String}
    {peer : DiscoveredPeer Addr} (hentry : parseSeed net entry = .ok peer) :
    (∀ earlier ∈ before, ∃ found, parseSeed net earlier = .ok found) →
      ∀ sent, peer ∈ (flushSeeds net env sent (before ++ entry :: after)).1 := by
  have haccepts : ∀ sent, env.accepts sent = true := by
    simp [Environment.accepts, henv, Consumer.limit]
  induction before with
  | nil => intro _ sent; simp [flushSeeds, hentry, haccepts]
  | cons earlier before ih =>
    intro hbefore sent
    obtain ⟨found, hfound⟩ := hbefore earlier List.mem_cons_self
    have hrest := ih (fun e he => hbefore e (List.mem_cons_of_mem _ he)) (sent + 1)
    simp [flushSeeds, hfound, haccepts, hrest]

/-- The self-filter: no step of the browse loop sends the local peer. -/
theorem browseLoop_sent (net : SocketAddrs Ip Addr) (env : Environment Ip)
    (localPeer : Option PeerId) (events : List (ServiceEvent Ip)) :
    ∀ sent, ∀ peer ∈ (browseLoop net env localPeer sent events).1, some peer.peer ≠ localPeer := by
  induction events with
  | nil => simp [browseLoop]
  | cons event rest ih =>
    intro sent peer hpeer
    rcases event with service | _
    · rw [browseLoop] at hpeer
      split at hpeer
      · exact ih _ peer hpeer
      · next found _ =>
        split at hpeer
        · exact ih _ peer hpeer
        · next hother =>
          split at hpeer
          · rcases List.mem_cons.mp hpeer with rfl | hmem
            · exact hother
            · exact ih _ peer hmem
          · simp at hpeer
    · exact ih _ peer hpeer

theorem runMdns_sent (net : SocketAddrs Ip Addr) (env : Environment Ip) (cfg : DiscoveryConfig)
    (sent : Nat) : ∀ peer ∈ (runMdns net env cfg sent).1, some peer.peer ≠ cfg.localPeer := by
  intro peer hpeer
  rw [runMdns] at hpeer
  split at hpeer
  · simp at hpeer
  · dsimp only at hpeer
    split at hpeer
    · simp at hpeer
    · split at hpeer
      · simp at hpeer
      · exact browseLoop_sent net env cfg.localPeer _ sent peer hpeer

/-- Every peer the task sends is a seed it came to or passed the self-filter. -/
theorem run_sent (net : SocketAddrs Ip Addr) (env : Environment Ip) (cfg : DiscoveryConfig) :
    ∀ peer ∈ (run net env cfg).1,
      ReachedSeed net cfg.seeds peer ∨ some peer.peer ≠ cfg.localPeer := by
  intro peer hpeer
  have hseeds := flushSeeds_sent net env cfg.seeds 0
  rw [run] at hpeer
  split at hpeer
  · next seeds status heq => rw [heq] at hseeds; exact .inl (hseeds peer hpeer)
  · next seeds heq =>
    rw [heq] at hseeds
    split at hpeer
    · exact .inl (hseeds peer hpeer)
    · rcases List.mem_append.mp hpeer with hmem | hmem
      · exact .inl (hseeds peer hmem)
      · exact .inr (runMdns_sent net env cfg _ peer hmem)

theorem flushSeeds_subset_run (net : SocketAddrs Ip Addr) (env : Environment Ip)
    (cfg : DiscoveryConfig) : (flushSeeds net env 0 cfg.seeds).1 ⊆ (run net env cfg).1 := by
  rw [run]
  split
  · next heq => rw [heq]; exact fun _ h => h
  · next heq =>
    rw [heq]
    split
    · exact fun _ h => h
    · exact List.subset_append_left _ _

/-- **The local peer stays hidden exactly when no seed that is reached names it.**
    For every configuration with a local peer: whatever the mDNS daemon answers,
    whichever events arrive and whenever the consumer leaves, no sent peer is the
    local one, if and only if no entry of the seed list that follows only entries
    that parse is one that parses to the local peer. -/
theorem local_peer_hidden_iff (net : SocketAddrs Ip Addr) (cfg : DiscoveryConfig) (p : PeerId)
    (hlocal : cfg.localPeer = some p) :
    (∀ env : Environment Ip, ∀ found ∈ (run net env cfg).1, found.peer ≠ p) ↔
      ∀ found, ReachedSeed net cfg.seeds found → found.peer ≠ p := by
  constructor
  · rintro hhidden found ⟨before, entry, after, hseeds, hbefore, hentry⟩
    -- the quietest environment: no mDNS at all and a consumer that keeps listening
    let env : Environment Ip :=
      ⟨.error "", fun _ => .ok (), fun _ => .ok (), fun _ => .ok [], false, .reads⟩
    have hsent : found ∈ (flushSeeds net env 0 cfg.seeds).1 := by
      rw [hseeds]
      exact flushSeeds_reached rfl hentry hbefore 0
    exact hhidden env found (flushSeeds_subset_run net env cfg hsent)
  · intro hseeds env found hfound
    rcases run_sent net env cfg found hfound with hseed | hother
    · exact hseeds found hseed
    · intro heq
      exact hother (by rw [heq, hlocal])

/-- With a seed list that names another peer only, the local peer stays hidden. -/
theorem local_peer_hidden_other_seed :
    (Sample.config [Sample.seed 'b' "10.0.0.6:7447"]).localPeer = some (Sample.peer 0xaa) ∧
    ∀ env : Environment String,
      ∀ found ∈ (run Sample.net env (Sample.config [Sample.seed 'b' "10.0.0.6:7447"])).1,
        found.peer ≠ Sample.peer 0xaa := by
  have hparse : ((parseSeed Sample.net (Sample.seed 'b' "10.0.0.6:7447")).toOption.map
      DiscoveredPeer.peer) = some (Sample.peer 0xbb) := by decide +kernel
  refine ⟨rfl, (local_peer_hidden_iff Sample.net _ _ rfl).mpr ?_⟩
  intro found hfound
  obtain ⟨entry, hmem, hentry⟩ := hfound.mem
  rw [List.mem_singleton.mp hmem] at hentry
  rw [hentry] at hparse
  rw [Option.some.inj hparse]
  decide +kernel

/-- One seed list deployed to both peers, the own entry in uppercase: the first peer
    the task sends is the local one. -/
theorem own_seed_is_sent :
    (Sample.config [Sample.seed 'A' "10.0.0.5:7447",
      Sample.seed 'b' "10.0.0.6:7447"]).localPeer = some (Sample.peer 0xaa) ∧
    (run Sample.net Sample.quiet (Sample.config [Sample.seed 'A' "10.0.0.5:7447",
      Sample.seed 'b' "10.0.0.6:7447"])).1.map DiscoveredPeer.peer =
        [Sample.peer 0xaa, Sample.peer 0xbb] := by
  constructor
  · rfl
  · decide +kernel

/-! ### The grammar of seeds -/

theorem bne_of_notMem {separator : Char} {chars : List Char} (h : separator ∉ chars) :
    ∀ c ∈ chars, (c != separator) = true := by
  intro c hc
  rw [bne_iff_ne]
  rintro rfl
  exact h hc

theorem splitOnce_append {separator : Char} {before : String} (h : separator ∉ before.toList)
    (after : String) :
    splitOnce separator (before ++ String.singleton separator ++ after) = some (before, after) := by
  have hne := bne_of_notMem h
  have htext : (before ++ String.singleton separator ++ after).toList =
      before.toList ++ separator :: after.toList := by
    simp
  rw [splitOnce, htext, List.span_eq_takeWhile_dropWhile, List.takeWhile_append_of_pos hne,
    List.dropWhile_append_of_pos hne]
  simp

theorem splitOnce_of_notMem {separator : Char} {text : String} (h : separator ∉ text.toList) :
    splitOnce separator text = none := by
  rw [splitOnce, List.span_eq_takeWhile_dropWhile, List.dropWhile_eq_nil_iff.mpr (bne_of_notMem h)]

theorem splitOnce_cases (separator : Char) (text : String) :
    (separator ∉ text.toList ∧ splitOnce separator text = none) ∨
      ∃ before after, separator ∉ before.toList ∧
        text = before ++ String.singleton separator ++ after ∧
        splitOnce separator text = some (before, after) := by
  by_cases hmem : separator ∈ text.toList
  · obtain ⟨before, after, htext, hbefore⟩ := List.eq_append_cons_of_mem hmem
    have hbefore' : separator ∉ (String.ofList before).toList := by
      rwa [String.toList_ofList]
    have heq : text = String.ofList before ++ String.singleton separator ++ String.ofList after := by
      rw [← String.toList_inj]
      simp [htext]
    refine .inr ⟨String.ofList before, String.ofList after, hbefore', heq, ?_⟩
    rw [heq]
    exact splitOnce_append hbefore' _
  · exact .inl ⟨hmem, splitOnce_of_notMem hmem⟩

structure SeedEntry where
  peerPart : String
  hostPort : String
  zenohUrl : Option String

namespace SeedEntry

/-- `p@a`, or `p@a/u` with a url. -/
def text (entry : SeedEntry) : String :=
  entry.peerPart ++ "@" ++ (entry.hostPort ++ entry.zenohUrl.elim "" ("/" ++ ·))

def WellFormed (net : SocketAddrs Ip Addr) (entry : SeedEntry) : Prop :=
  IsHexText entry.peerPart ∧ ∃ addr, net.parse entry.hostPort = .ok addr

/-- The peer that the parts of the entry denote. -/
def Denotes (net : SocketAddrs Ip Addr) (entry : SeedEntry) (found : DiscoveredPeer Addr) : Prop :=
  found.peer.toHex = toAsciiLowercase entry.peerPart ∧
    net.parse entry.hostPort = .ok found.addr ∧
    found.zenohUrl = entry.zenohUrl.getD ("tcp/" ++ entry.hostPort) ∧ found.viaMdns = false

end SeedEntry

/-- What is assumed of socket addresses as text. -/
structure SocketAddrs.Lawful (net : SocketAddrs Ip Addr) (display : Addr → String) : Prop where
  no_slash : ∀ text addr, net.parse text = .ok addr → '/' ∉ text.toList
  parse_display : ∀ addr, net.parse (display addr) = .ok addr

theorem at_notMem_of_hex {text : String} (h : IsHexText text) : '@' ∉ text.toList := by
  intro hmem
  exact absurd (h.2 '@' hmem) (by decide)

theorem splitOnce_rest {hostPort : String} (h : '/' ∉ hostPort.toList) (url : Option String) :
    splitOnce '/' (hostPort ++ url.elim "" ("/" ++ ·)) = url.map (hostPort, ·) := by
  rcases url with _ | url
  · simpa using splitOnce_of_notMem h
  · have hsplit := splitOnce_append h url
    rw [String.append_assoc] at hsplit
    exact hsplit

/-- An entry of the grammar is taken apart into its own parts. -/
theorem parseSeed_text (net : SocketAddrs Ip Addr) {entry : SeedEntry} {peer : PeerId} {addr : Addr}
    (hpeer : PeerId.fromHex entry.peerPart = .ok peer) (haddr : net.parse entry.hostPort = .ok addr)
    (hslash : '/' ∉ entry.hostPort.toList) :
    parseSeed net entry.text =
      .ok ⟨peer, addr, entry.zenohUrl.getD ("tcp/" ++ entry.hostPort), false⟩ := by
  have hat := at_notMem_of_hex (PeerId.exists_fromHex_iff.mp ⟨peer, hpeer⟩)
  have hsplit : splitOnce '@' entry.text =
      some (entry.peerPart, entry.hostPort ++ entry.zenohUrl.elim "" ("/" ++ ·)) :=
    splitOnce_append hat _
  rcases entry with ⟨peerPart, hostPort, _ | url⟩
  · simp only [parseSeed, hsplit, hpeer, splitOnce_rest hslash]
    simp [haddr]
  · simp only [parseSeed, hsplit, hpeer, splitOnce_rest hslash]
    simp [haddr]

theorem exists_entry_of_parseSeed {net : SocketAddrs Ip Addr} {s : String}
    {found : DiscoveredPeer Addr} (h : parseSeed net s = .ok found) :
    ∃ entry : SeedEntry, s = entry.text ∧ PeerId.fromHex entry.peerPart = .ok found.peer ∧
      net.parse entry.hostPort = .ok found.addr := by
  rcases splitOnce_cases '@' s with ⟨-, hnone⟩ | ⟨peerPart, rest, -, hs, hsplit⟩
  · simp [parseSeed, hnone] at h
  · simp only [parseSeed, hsplit] at h
    split at h
    · cases h
    · next peer hpeer =>
      split at h
      · cases h
      · next addr haddr =>
        cases h
        rcases splitOnce_cases '/' rest with ⟨-, hnone⟩ | ⟨hostPort, url, -, hrest, hsplit'⟩
        · rw [hnone] at haddr
          exact ⟨⟨peerPart, rest, none⟩, by simp [SeedEntry.text, hs], hpeer, haddr⟩
        · rw [hsplit'] at haddr
          refine ⟨⟨peerPart, hostPort, some url⟩, ?_, hpeer, haddr⟩
          rw [hs, hrest]
          exact congrArg (peerPart ++ "@" ++ ·) String.append_assoc

theorem text_injective_of_wellFormed {net : SocketAddrs Ip Addr} {display : Addr → String}
    (hnet : net.Lawful display) {left right : SeedEntry} (hleft : left.WellFormed net)
    (hright : right.WellFormed net) (heq : left.text = right.text) : left = right := by
  have hparts : ∀ entry : SeedEntry, entry.WellFormed net → splitOnce '@' entry.text =
      some (entry.peerPart, entry.hostPort ++ entry.zenohUrl.elim "" ("/" ++ ·)) :=
    fun entry h => splitOnce_append (at_notMem_of_hex h.1) _
  have hrest : ∀ entry : SeedEntry, entry.WellFormed net →
      splitOnce '/' (entry.hostPort ++ entry.zenohUrl.elim "" ("/" ++ ·)) =
        entry.zenohUrl.map (entry.hostPort, ·) :=
    fun entry ⟨_, addr, haddr⟩ => splitOnce_rest (hnet.no_slash _ addr haddr) _
  have hfirst := hparts left hleft
  rw [heq, hparts right hright, Option.some.injEq, Prod.mk.injEq] at hfirst
  have hsecond := hrest left hleft
  rw [← hfirst.2, hrest right hright] at hsecond
  rcases left with ⟨peerPart, hostPort, _ | url⟩ <;>
    rcases right with ⟨peerPart', hostPort', _ | url'⟩ <;> simp_all

/-- **The seed parser accepts exactly its grammar.**  Where texts that parse as socket
    addresses have no slash and a printed address parses back: a text is accepted exactly
    when it is `p@a` or `p@a/u` with 64 hex digits `p` and an address `a`; its parts are then
    unique; the result is what they denote; and the printed entry of any peer, address and
    optional url parses back to them. -/
theorem parse_seed_grammar (net : SocketAddrs Ip Addr) (display : Addr → String)
    (hnet : net.Lawful display) :
    (∀ s, (∃ found, parseSeed net s = .ok found) ↔
      ∃ entry : SeedEntry, entry.WellFormed net ∧ s = entry.text) ∧
    (∀ left right : SeedEntry, left.WellFormed net → right.WellFormed net →
      left.text = right.text → left = right) ∧
    (∀ entry : SeedEntry, entry.WellFormed net →
      ∀ found, parseSeed net entry.text = .ok found ↔ entry.Denotes net found) ∧
    ∀ peer addr url, parseSeed net (SeedEntry.mk peer.toHex (display addr) url).text =
      .ok ⟨peer, addr, url.getD ("tcp/" ++ display addr), false⟩ := by
  have hparse : ∀ entry : SeedEntry, entry.WellFormed net → ∃ peer addr,
      PeerId.fromHex entry.peerPart = .ok peer ∧ net.parse entry.hostPort = .ok addr ∧
        parseSeed net entry.text =
          .ok ⟨peer, addr, entry.zenohUrl.getD ("tcp/" ++ entry.hostPort), false⟩ := by
    rintro entry ⟨hhex, addr, haddr⟩
    obtain ⟨peer, hpeer⟩ := PeerId.exists_fromHex_iff.mpr hhex
    exact ⟨peer, addr, hpeer, haddr, parseSeed_text net hpeer haddr (hnet.no_slash _ addr haddr)⟩
  refine ⟨?_, fun left right => text_injective_of_wellFormed hnet, ?_, ?_⟩
  · intro s
    constructor
    · rintro ⟨found, h⟩
      obtain ⟨entry, rfl, hpeer, haddr⟩ := exists_entry_of_parseSeed h
      exact ⟨entry, ⟨PeerId.exists_fromHex_iff.mp ⟨_, hpeer⟩, _, haddr⟩, rfl⟩
    · rintro ⟨entry, hentry, rfl⟩
      obtain ⟨peer, addr, -, -, h⟩ := hparse entry hentry
      exact ⟨_, h⟩
  · intro entry hentry found
    obtain ⟨peer, addr, hpeer, haddr, h⟩ := hparse entry hentry
    rw [h, SeedEntry.Denotes, ← PeerId.fromHex_eq_ok, hpeer, haddr]
    rcases found with ⟨peer', addr', url, viaMdns⟩
    simp only [Except.ok.injEq, DiscoveredPeer.mk.injEq]
    exact and_congr_right fun _ => and_congr_right fun _ => and_congr eq_comm eq_comm
  · intro peer addr url
    have haddr := hnet.parse_display addr
    exact parseSeed_text net (PeerId.fromHex_toHex peer) haddr (hnet.no_slash _ addr haddr)

inductive Sample.Loopback where
  | v4
  | v6

def Sample.Loopback.display : Sample.Loopback → String
  | .v4 => "127.0.0.1:7447"
  | .v6 => "[::1]:7447"

def Sample.loopback : SocketAddrs Sample.Loopback Sample.Loopback where
  parse text :=
    if text = "127.0.0.1:7447" then .ok .v4
    else if text = "[::1]:7447" then .ok .v6
    else .error "invalid socket address syntax"
  new ip _ := ip

theorem Sample.loopback_lawful : Sample.loopback.Lawful Sample.Loopback.display where
  no_slash := by
    intro text addr h
    simp only [Sample.loopback] at h
    split at h
    · next heq => rw [heq]; decide
    · split at h
      · next heq => rw [heq]; decide
      · cases h
  parse_display := by
    intro addr
    cases addr <;> rfl

/-- A url may contain both separators. -/
theorem parse_seed_scoped_url :
    Sample.loopback.Lawful Sample.Loopback.display ∧
    ∀ peer, parseSeed Sample.loopback
      (SeedEntry.mk peer.toHex "[::1]:7447" (some "tcp/user@host/path")).text =
        .ok ⟨peer, .v6, "tcp/user@host/path", false⟩ :=
  ⟨Sample.loopback_lawful, fun peer =>
    (parse_seed_grammar Sample.loopback Sample.Loopback.display
      Sample.loopback_lawful).2.2.2 peer .v6 (some "tcp/user@host/path")⟩

end FurcateMesh.Discovery
