import FurcateMesh.Discovery

/-!
# The stream of discovered peers

What `Discovery::run` sends to its consumer, described without its loops: the seeds before
the first malformed one, then the peers that the browse events resolve to, without the
local peer, all in order and cut where the consumer leaves or has left the channel full
(`run_eq_outcome`).  A malformed seed ends the task, so it takes the later seeds and the
whole of mDNS with it.  A consumer that keeps its receiver and never reads is sent 32 peers,
and the task then waits for ever (`unread_receiver_blocks`).

On a network whose mDNS hands on what the peers registered, the peers found through it are
exactly the other peers that advertise, each with the url it advertised
(`lan_peers_discovered_iff`).

The specification has two parts.  `stream` is what the task would send to a consumer that
reads on, and `settled` where the task then stands; neither mentions the consumer.  `outcome`
cuts the stream where the consumer's limit is (`taken`) and puts its refusal in place of the
status if there is more to send (`stopsDuring`).

The loops of the source carry the number of peers sent so far, and the seed loop hands it to
the browse loop.  That the two cuts in a row are one cut of the whole stream is
`taken_append` and `stopsDuring_append`.

The task looks at the consumer in one more place.  With `seeds_only` it does not go on to
mDNS but waits, after the seeds, until the receiver is dropped.
-/

namespace FurcateMesh.Discovery

variable {Ip Addr : Type}

/-! ### The specification -/

/-- The peers of the entries before the first that does not parse. -/
def validSeeds (net : SocketAddrs Ip Addr) (seeds : List String) : List (DiscoveredPeer Addr) :=
  ((seeds.map (parseSeed net)).takeWhile Except.isOk).filterMap Except.toOption

/-- The error of the first entry that does not parse. -/
def firstBad (net : SocketAddrs Ip Addr) (seeds : List String) : Option DiscoveryError :=
  (seeds.map (parseSeed net)).findSome? fun
    | .error e => some e
    | .ok _ => none

def visible (net : SocketAddrs Ip Addr) (localPeer : Option PeerId) :
    ServiceEvent Ip → Option (DiscoveredPeer Addr)
  | .other => none
  | .serviceResolved service =>
      (resolveToPeer net service).filter fun found => some found.peer ≠ localPeer

def advertise (env : Environment Ip) (cfg : DiscoveryConfig) : Except DiscoveryError Unit :=
  match cfg.localPeer, cfg.localZenohUrl with
  | some localPeer, some zenohUrl => registerLocal env localPeer zenohUrl cfg.port
  | _, _ => .ok ()

/-- The events of the browse channel, if the daemon, the registration and the browsing
    succeed. -/
def browsing (env : Environment Ip) (cfg : DiscoveryConfig) :
    Except DiscoveryError (List (ServiceEvent Ip)) := do
  env.daemon.mapError fun e => .mdns ("daemon: " ++ e)
  advertise env cfg
  (env.browse SERVICE_TYPE).mapError fun e => .mdns ("browse: " ++ e)

/-- All peers the task would send to a consumer that reads on. -/
def stream (net : SocketAddrs Ip Addr) (env : Environment Ip) (cfg : DiscoveryConfig) :
    List (DiscoveredPeer Addr) :=
  validSeeds net cfg.seeds ++
    if (firstBad net cfg.seeds).isSome || cfg.seedsOnly then []
    else ((browsing env cfg).toOption.getD []).filterMap (visible net cfg.localPeer)

/-- Where the task stands once the whole stream is sent. -/
def settled (net : SocketAddrs Ip Addr) (env : Environment Ip) (cfg : DiscoveryConfig) : Status :=
  match firstBad net cfg.seeds with
  | some e => .returned (.error e)
  | none =>
      if cfg.seedsOnly then
        if env.consumer.hasLeft (validSeeds net cfg.seeds).length then .returned (.ok ())
        else .waiting
      else
        match browsing env cfg with
        | .error e => .returned (.error e)
        | .ok _ => if env.channelCloses then .returned (.ok ()) else .waiting

namespace Environment

def taken (env : Environment Ip) (sent : Nat) (list : List α) : List α :=
  env.consumer.limit.elim list fun limit => list.take (limit - sent)

/-- Some send of the list is beyond the limit. -/
def stopsDuring (env : Environment Ip) (sent : Nat) (list : List α) : Bool :=
  env.consumer.limit.any fun limit => limit - sent < list.length

end Environment

def outcome (net : SocketAddrs Ip Addr) (env : Environment Ip) (cfg : DiscoveryConfig) :
    List (DiscoveredPeer Addr) × Status :=
  (env.taken 0 (stream net env cfg),
    if env.stopsDuring 0 (stream net env cfg) then env.consumer.refusal
    else settled net env cfg)

/-! ### A consumer that may stop -/

section Consumer

variable {env : Environment Ip} {sent : Nat} {α : Type} (first : α) (rest list : List α)

@[simp] theorem taken_nil : env.taken sent ([] : List α) = [] := by
  unfold Environment.taken
  cases env.consumer.limit with
  | none => rfl
  | some limit => exact List.take_nil

@[simp] theorem stopsDuring_nil : env.stopsDuring sent ([] : List α) = false := by
  unfold Environment.stopsDuring
  cases env.consumer.limit <;> simp

theorem taken_cons (h : env.accepts sent = true) :
    env.taken sent (first :: rest) = first :: env.taken (sent + 1) rest := by
  unfold Environment.accepts at h
  unfold Environment.taken
  cases hdrops : env.consumer.limit with
  | none => rfl
  | some limit =>
    have hlt : sent < limit := by simpa [hdrops] using h
    have hsucc : limit - sent = limit - (sent + 1) + 1 := by omega
    simp only [Option.elim_some, hsucc, List.take_succ_cons]

theorem stopsDuring_cons (h : env.accepts sent = true) :
    env.stopsDuring sent (first :: rest) = env.stopsDuring (sent + 1) rest := by
  unfold Environment.accepts at h
  unfold Environment.stopsDuring
  cases hdrops : env.consumer.limit with
  | none => rfl
  | some limit =>
    have hlt : sent < limit := by simpa [hdrops] using h
    simp only [Option.any_some, List.length_cons, decide_eq_decide]
    omega

/-- Beyond the limit nothing gets through. -/
theorem taken_stopsDuring_gone (h : env.accepts sent = false) :
    env.taken sent list = [] ∧ env.stopsDuring sent (first :: rest) = true := by
  unfold Environment.accepts at h
  unfold Environment.taken Environment.stopsDuring
  cases hdrops : env.consumer.limit with
  | none => simp [hdrops] at h
  | some limit =>
    have hle : limit - sent = 0 := by
      have : limit ≤ sent := by simpa [hdrops] using h
      omega
    simp only [Option.elim_some, Option.any_some, hle, List.take_zero, List.length_cons,
      Nat.zero_lt_succ, decide_true, and_self]

/-- The end of a list is sent after its beginning, if that got through. -/
theorem taken_append (before after : List α) :
    env.taken sent (before ++ after) =
      env.taken sent before ++
        if env.stopsDuring sent before then [] else env.taken (sent + before.length) after := by
  unfold Environment.taken Environment.stopsDuring
  cases env.consumer.limit with
  | none => simp
  | some limit =>
    simp only [Option.elim_some, Option.any_some, decide_eq_true_eq, List.take_append]
    congr 1
    split
    · next hlt => rw [Nat.sub_eq_zero_of_le (Nat.le_of_lt hlt), List.take_zero]
    · rw [Nat.sub_sub]

theorem stopsDuring_append (before after : List α) :
    env.stopsDuring sent (before ++ after) =
      (env.stopsDuring sent before || env.stopsDuring (sent + before.length) after) := by
  unfold Environment.stopsDuring
  cases env.consumer.limit with
  | none => rfl
  | some limit =>
    simp only [Option.any_some, List.length_append, ← Bool.decide_or, decide_eq_decide]
    omega

theorem taken_eq_self (h : env.stopsDuring sent list = false) : env.taken sent list = list := by
  unfold Environment.stopsDuring at h
  unfold Environment.taken
  cases hdrops : env.consumer.limit with
  | none => rfl
  | some limit =>
    simp only [hdrops, Option.any_some, decide_eq_false_iff_not, Nat.not_lt] at h
    exact List.take_of_length_le h

end Consumer

/-! ### The loops meet the specification -/

section Loops

variable (net : SocketAddrs Ip Addr) (env : Environment Ip)

theorem flushSeeds_eq (seeds : List String) (sent : Nat) :
    flushSeeds net env sent seeds =
      (env.taken sent (validSeeds net seeds),
        if env.stopsDuring sent (validSeeds net seeds) then some env.consumer.refusal
        else (firstBad net seeds).map fun e => .returned (.error e)) := by
  induction seeds generalizing sent with
  | nil => simp [flushSeeds, validSeeds, firstBad]
  | cons entry rest ih =>
    rw [flushSeeds]
    cases hentry : parseSeed net entry with
    | error e =>
      have hvalid : validSeeds net (entry :: rest) = [] := by
        rw [validSeeds, List.map_cons, hentry, List.takeWhile_cons_of_neg (fun h => by cases h)]
        rfl
      have hbad : firstBad net (entry :: rest) = some e := by
        simp [firstBad, hentry]
      simp [hvalid, hbad]
    | ok peer =>
      have hvalid : validSeeds net (entry :: rest) = peer :: validSeeds net rest := by
        rw [validSeeds, List.map_cons, hentry, List.takeWhile_cons_of_pos rfl]
        rfl
      have hbad : firstBad net (entry :: rest) = firstBad net rest := by
        simp [firstBad, hentry]
      rw [hvalid, hbad]
      cases haccepts : env.accepts sent with
      | true =>
        rw [taken_cons peer _ haccepts, stopsDuring_cons peer _ haccepts]
        simp only [if_true, ih]
      | false =>
        obtain ⟨htaken, hleaves⟩ :=
          taken_stopsDuring_gone peer (validSeeds net rest) (peer :: validSeeds net rest) haccepts
        simp [htaken, hleaves]

theorem browseLoop_eq (localPeer : Option PeerId) (events : List (ServiceEvent Ip)) (sent : Nat) :
    browseLoop net env localPeer sent events =
      (env.taken sent (events.filterMap (visible net localPeer)),
        if env.stopsDuring sent (events.filterMap (visible net localPeer)) then
          env.consumer.refusal
        else if env.channelCloses then .returned (.ok ()) else .waiting) := by
  induction events generalizing sent with
  | nil => simp [browseLoop]
  | cons event rest ih =>
    cases event with
    | other => exact ih sent
    | serviceResolved service =>
      rw [browseLoop]
      cases hfound : resolveToPeer net service with
      | none =>
        have hskip : visible net localPeer (.serviceResolved service) = none := by
          rw [visible, hfound, Option.filter_none]
        rw [List.filterMap_cons_none hskip]
        exact ih sent
      | some peer =>
        simp only
        by_cases hlocal : some peer.peer = localPeer
        · have hskip : visible net localPeer (.serviceResolved service) = none := by
            simp [visible, hfound, hlocal]
          rw [if_pos hlocal, List.filterMap_cons_none hskip]
          exact ih sent
        · have hshow : visible net localPeer (.serviceResolved service) = some peer := by
            simp [visible, hfound, hlocal]
          rw [if_neg hlocal, List.filterMap_cons_some hshow]
          cases haccepts : env.accepts sent with
          | true =>
            rw [taken_cons peer _ haccepts, stopsDuring_cons peer _ haccepts]
            simp only [if_true, ih]
          | false =>
            obtain ⟨htaken, hleaves⟩ := taken_stopsDuring_gone peer
              (rest.filterMap (visible net localPeer))
              (peer :: rest.filterMap (visible net localPeer)) haccepts
            simp [htaken, hleaves]

theorem runMdns_eq (cfg : DiscoveryConfig) (sent : Nat) :
    runMdns net env cfg sent =
      match browsing env cfg with
      | .error e => ([], .returned (.error e))
      | .ok events => browseLoop net env cfg.localPeer sent events := by
  rw [runMdns, browsing, advertise]
  cases env.daemon with
  | error e => rfl
  | ok _ =>
    cases cfg.localPeer with
    | none => cases env.browse SERVICE_TYPE <;> rfl
    | some localPeer =>
      cases cfg.localZenohUrl with
      | none => cases env.browse SERVICE_TYPE <;> rfl
      | some zenohUrl =>
        dsimp only
        cases registerLocal env localPeer zenohUrl cfg.port with
        | error e => rfl
        | ok _ => cases env.browse SERVICE_TYPE <;> rfl

/-- **The task meets its specification**, for every configuration, however the daemon
    answers, whatever the browse channel delivers and whether the consumer reads, stops
    reading or leaves: the peers sent are the valid seeds before the first malformed one and
    then, if there is no malformed one, mDNS is wanted and it comes up, the peers of the
    resolved services other than the local one, in order, each once for each event, up to
    the point where the consumer leaves or the channel stays full; and the task waits or has
    ended exactly as the specification says. -/
theorem run_eq_outcome (cfg : DiscoveryConfig) : run net env cfg = outcome net env cfg := by
  rw [run, flushSeeds_eq, outcome, stream, settled]
  rw [taken_append, stopsDuring_append]
  cases hleaves : env.stopsDuring 0 (validSeeds net cfg.seeds) with
  | true => simp
  | false =>
    cases hbad : firstBad net cfg.seeds with
    | some e => simp
    | none =>
      have htaken := taken_eq_self (validSeeds net cfg.seeds) hleaves
      cases hseeds : cfg.seedsOnly with
      | true => simp [htaken]
      | false =>
        simp only [Bool.false_eq_true, if_false, Option.map_none, htaken, runMdns_eq, Nat.zero_add,
          Option.isSome_none, Bool.or_self, Bool.false_or]
        cases hbrowsing : browsing env cfg with
        | error e => simp [Except.toOption]
        | ok events =>
          simp only [browseLoop_eq]
          rfl

/-- **A receiver that is never read.**  The commands that push and pull a model keep the
    receiver and do not read it.  The task then sends the first 32 peers of its stream; if
    there are more it waits in its send, and no later event changes that. -/
theorem unread_receiver_blocks {env} (cfg : DiscoveryConfig) (hunread : env.consumer = .stops 0) :
    (run net env cfg).1 = (stream net env cfg).take CHANNEL_CAPACITY ∧
      (CHANNEL_CAPACITY < (stream net env cfg).length → (run net env cfg).2 = .waiting ∧
        ∀ later : Environment Ip, later.consumer = .stops 0 →
          stream net env cfg <+: stream net later cfg → run net later cfg = run net env cfg) := by
  have hrun : ∀ env : Environment Ip, env.consumer = .stops 0 →
      (run net env cfg).1 = (stream net env cfg).take CHANNEL_CAPACITY ∧
        (CHANNEL_CAPACITY < (stream net env cfg).length → (run net env cfg).2 = .waiting) := by
    intro env hstops
    have hlimit : env.consumer.limit = some CHANNEL_CAPACITY := by rw [hstops]; rfl
    rw [run_eq_outcome, outcome, Environment.taken, Environment.stopsDuring, hlimit]
    refine ⟨rfl, fun hmore => ?_⟩
    have hstop : decide (CHANNEL_CAPACITY < (stream net env cfg).length) = true :=
      decide_eq_true hmore
    simp only [Option.any_some, Nat.sub_zero, hstop, if_true, hstops, Consumer.refusal]
  obtain ⟨hsent, hwaits⟩ := hrun env hunread
  refine ⟨hsent, fun hmore => ⟨hwaits hmore, fun later hlater hprefix => ?_⟩⟩
  obtain ⟨hsent', hwaits'⟩ := hrun later hlater
  have hmore' := Nat.lt_of_lt_of_le hmore hprefix.length_le
  apply Prod.ext
  · rw [hsent, hsent']
    obtain ⟨rest, hrest⟩ := hprefix
    rw [← hrest, List.take_append_of_le_length (Nat.le_of_lt hmore)]
  · rw [hwaits hmore, hwaits' hmore']

end Loops

/-- Of 33 seeds the last is never sent, whatever mDNS would find. -/
theorem unread_receiver_blocks_seeds :
    (run Sample.net { Sample.quiet with consumer := .stops 0 }
        (Sample.config (List.replicate 33 (Sample.seed 'b' "10.0.0.6:7447")))).1.length = 32 ∧
      (run Sample.net { Sample.quiet with consumer := .stops 0 }
        (Sample.config (List.replicate 33 (Sample.seed 'b' "10.0.0.6:7447")))).2 = .waiting := by
  have hlength : (stream Sample.net { Sample.quiet with consumer := .stops 0 }
      (Sample.config (List.replicate 33 (Sample.seed 'b' "10.0.0.6:7447")))).length = 33 := by
    decide +kernel
  have hblocks := unread_receiver_blocks Sample.net
    (Sample.config (List.replicate 33 (Sample.seed 'b' "10.0.0.6:7447")))
    (show ({ Sample.quiet with consumer := .stops 0 } : Environment String).consumer = .stops 0
      from rfl)
  refine ⟨?_, (hblocks.2 (by rw [hlength]; decide)).1⟩
  rw [hblocks.1, List.length_take, hlength]
  rfl

/-! ### A network of peers that advertise -/

structure Advert where
  peer : PeerId
  zenohUrl : String
  port : UInt16

def Advert.service (advert : Advert) : ServiceInfo :=
  localService advert.peer advert.zenohUrl advert.port

/-- mDNS hands on what was registered and nothing else, and resolves each registered
    service to some address at least once. -/
structure Relays (adverts : List Advert) (events : List (ServiceEvent Ip)) : Prop where
  faithful : ∀ service, .serviceResolved service ∈ events → ∃ advert ∈ adverts,
    service.txtProperties = advert.service.properties ∧ service.port = advert.port
  complete : ∀ advert ∈ adverts, ∃ ip ips,
    .serviceResolved ⟨advert.service.properties, ip :: ips, advert.port⟩ ∈ events

section Lan

variable {net : SocketAddrs Ip Addr} {found : DiscoveredPeer Addr}

theorem viaMdns_of_parseSeed {entry : String} (h : parseSeed net entry = .ok found) :
    found.viaMdns = false := by
  unfold parseSeed at h
  split at h
  · cases h
  · split at h
    · cases h
    · simp only at h
      split at h
      · cases h
      · cases h
        rfl

theorem viaMdns_of_mem_validSeeds {seeds : List String} (h : found ∈ validSeeds net seeds) :
    found.viaMdns = false := by
  obtain ⟨result, hmem, hresult⟩ := List.mem_filterMap.mp h
  obtain ⟨entry, _, hparse⟩ := List.mem_map.mp ((List.takeWhile_subset _) hmem)
  cases result with
  | error e => cases hresult
  | ok peer =>
    cases hresult
    exact viaMdns_of_parseSeed hparse

/-- A service that hands on an advert resolves to the peer that gave it, or not at all. -/
theorem resolveToPeer_advert {service : ResolvedService Ip} {advert : Advert}
    (hproperties : service.txtProperties = advert.service.properties)
    (hport : service.port = advert.port) (h : resolveToPeer net service = some found) :
    found.peer = advert.peer ∧ found.zenohUrl = advert.zenohUrl := by
  obtain ⟨properties, addresses, port⟩ := service
  simp only at hproperties hport
  subst hproperties hport
  cases addresses with
  | nil =>
    unfold resolveToPeer at h
    split at h
    · split at h
      · next heq => cases heq
      · cases h
    · cases h
  | cons ip ips =>
    rw [Advert.service, resolveToPeer_localService] at h
    cases h
    exact ⟨rfl, rfl⟩

end Lan

/-- **Peers that advertise find one another.**  Every seed of a peer parses, mDNS is wanted
    and comes up, and the consumer reads on.  On a network whose mDNS hands on what the peers
    registered, in any order, repeatedly and among any other events: a peer with a url is
    found through mDNS exactly if it advertised that url and is not the local peer. -/
theorem lan_peers_discovered_iff (net : SocketAddrs Ip Addr) {env : Environment Ip}
    {cfg : DiscoveryConfig} {p : PeerId} (hlocal : cfg.localPeer = some p)
    (hseeds : firstBad net cfg.seeds = none) (hmdns : cfg.seedsOnly = false)
    (hreads : env.consumer = .reads) {events : List (ServiceEvent Ip)}
    (hbrowsing : browsing env cfg = .ok events) {adverts : List Advert}
    (hrelays : Relays adverts events) (q : PeerId) (url : String) :
    (∃ found ∈ (run net env cfg).1, found.viaMdns = true ∧ found.peer = q ∧ found.zenohUrl = url) ↔
      q ≠ p ∧ ∃ advert ∈ adverts, advert.peer = q ∧ advert.zenohUrl = url := by
  have hstream : (run net env cfg).1 =
      validSeeds net cfg.seeds ++ events.filterMap (visible net (some p)) := by
    rw [run_eq_outcome, outcome, Environment.taken, hreads, Consumer.limit, Option.elim_none, stream,
      hseeds, hmdns, hbrowsing, hlocal]
    rfl
  rw [hstream]
  constructor
  · rintro ⟨found, hfound, hvia, rfl, rfl⟩
    rcases List.mem_append.mp hfound with hseed | hevent
    · rw [viaMdns_of_mem_validSeeds hseed] at hvia
      cases hvia
    · obtain ⟨event, hmem, hvisible⟩ := List.mem_filterMap.mp hevent
      cases event with
      | other => cases hvisible
      | serviceResolved service =>
        obtain ⟨hresolve, hother⟩ := Option.filter_eq_some_iff.mp hvisible
        obtain ⟨advert, hadvert, hproperties, hport⟩ := hrelays.faithful service hmem
        obtain ⟨hpeer, hurl⟩ := resolveToPeer_advert hproperties hport hresolve
        refine ⟨?_, advert, hadvert, hpeer.symm, hurl.symm⟩
        intro hsame
        simp [hsame] at hother
  · rintro ⟨hne, advert, hadvert, rfl, rfl⟩
    obtain ⟨ip, ips, hmem⟩ := hrelays.complete advert hadvert
    refine ⟨⟨advert.peer, net.new ip advert.port, advert.zenohUrl, true⟩, ?_, rfl, rfl, rfl⟩
    apply List.mem_append_right
    apply List.mem_filterMap.mpr
    refine ⟨_, hmem, ?_⟩
    rw [visible, Advert.service, resolveToPeer_localService]
    simp [hne]

namespace Sample

def adverts : List Advert :=
  [⟨peer 0xaa, "tcp/10.0.0.5:7447", 7447⟩, ⟨peer 0xbb, "tcp/10.0.0.6:7447", 7447⟩]

def resolved : List (ServiceEvent String) :=
  adverts.map fun advert => .serviceResolved ⟨advert.service.properties, ["10.0.0.1"], advert.port⟩

def lan : Environment String := { quiet with browse := fun _ => .ok resolved }

theorem relays_resolved : Relays adverts resolved where
  faithful := by
    intro service hmem
    obtain ⟨advert, hadvert, heq⟩ := List.mem_map.mp hmem
    cases heq
    exact ⟨advert, hadvert, rfl, rfl⟩
  complete := by
    intro advert hadvert
    exact ⟨"10.0.0.1", [], List.mem_map.mpr ⟨advert, hadvert, rfl⟩⟩

end Sample

/-- The other peer is found, the local one is not. -/
theorem lan_peers_discovered_two_peers :
    (∃ found ∈ (run Sample.net Sample.lan (Sample.config [])).1, found.viaMdns = true ∧
      found.peer = Sample.peer 0xbb ∧ found.zenohUrl = "tcp/10.0.0.6:7447") ∧
    ¬ ∃ found ∈ (run Sample.net Sample.lan (Sample.config [])).1, found.viaMdns = true ∧
      found.peer = Sample.peer 0xaa ∧ found.zenohUrl = "tcp/10.0.0.5:7447" := by
  have hbrowsing : browsing Sample.lan (Sample.config []) = .ok Sample.resolved := rfl
  have hlocal : (Sample.config []).localPeer = some (Sample.peer 0xaa) := rfl
  have hiff := lan_peers_discovered_iff Sample.net hlocal rfl rfl rfl hbrowsing
    Sample.relays_resolved
  rw [hiff, hiff]
  refine ⟨⟨by decide, ⟨Sample.peer 0xbb, "tcp/10.0.0.6:7447", 7447⟩, ?_, rfl, rfl⟩, ?_⟩
  · exact List.mem_cons_of_mem _ List.mem_cons_self
  · exact fun h => h.1 rfl

end FurcateMesh.Discovery
