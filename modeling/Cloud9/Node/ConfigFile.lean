import Cloud9.Node.Auth
import Cloud9.Node.Fleet
import Cloud9.Node.Transport

/-!
# Configuration files

`parse_node_config` of `main.rs` makes the configuration of a node from its sections. Reading TOML
and resolving host names is left to a parameter of the model.

The theorems about clusters start from a `Deployment`, which gives all nodes the same peers under
the same addresses. `deployed_files` says when files do: it is enough that every file is accepted
and that their lists of peers agree up to order. Then the runtimes accept the configurations too,
and the processes they start are those of the deployment.

What the loop of `peer_addrs` comes to is `peerAddrs_eq_ok`: it accepts a list of peers whose
addresses can be resolved, with no two alike, and the map it makes does not depend on the order of
the list (`PeerMap.Describes`).
-/

namespace Cloud9

/-! ## Sections -/

structure NodeSection where
  id : UInt64
  host : String
  clientPort : UInt16
  raftPort : UInt16

structure PeerSection where
  id : UInt64
  host : String
  raftPort : UInt16
  deriving DecidableEq

def PeerSection.nodeId (peer : PeerSection) : NodeId := peer.id.toNat

structure ClusterSection where
  /-- The bytes of the text. -/
  raftKey : List UInt8
  peers : List PeerSection

structure StorageSection where
  dataDir : String

structure ConfigFile where
  node : NodeSection
  storage : StorageSection
  cluster : ClusterSection

structure StorageOptions where
  name : String
  dataDir : String

/-- All of `NodeConfig`. -/
structure LoadedConfig extends NodeConfig where
  clientAddr : SocketAddr
  raftKey : RaftKey
  storage : StorageOptions

/-! ## Errors -/

inductive ConfigError where
  | resolving (host : String) (port : UInt16)
  | noAddresses (host : String) (port : UInt16)
  | ambiguous (host : String) (port : UInt16) (count : ℕ)
  | raftKey (error : InvalidRaftKey)
  | selfAddress (id : UInt64) (peerAddr raftAddr : SocketAddr)
  | missingSelf (id : UInt64)
  | duplicateAddress (addr : SocketAddr)
  | duplicateId (id : UInt64)
  | noPeers
  deriving DecidableEq

/-- `fmt` of the error, without its causes. -/
def ConfigError.text (addrText : SocketAddr → String) : ConfigError → String
  | .resolving host port => s!"resolving peer address `{host}:{port}`"
  | .noAddresses host port => s!"peer address `{host}:{port}` resolved to no addresses"
  | .ambiguous host port count =>
    s!"peer address `{host}:{port}` resolved ambiguously to {count} addresses"
  | .raftKey _ => "Raft key must be exactly 64 hexadecimal characters"
  | .selfAddress id peerAddr raftAddr => s!"cluster peer {id} is " ++ addrText peerAddr ++
    ", expected node Raft address " ++ addrText raftAddr
  | .missingSelf id => s!"cluster.peers must include node.id {id}"
  | .duplicateAddress addr => "cluster.peers contains duplicate address " ++ addrText addr
  | .duplicateId id => s!"cluster.peers contains duplicate node id {id}"
  | .noPeers => "cluster.peers must not be empty"

/-! ## Addresses -/

/-- `to_socket_addrs`: the addresses of a host, unless they cannot be found out. -/
abbrev Resolver := String → UInt16 → Option (List SocketAddr)

def resolvePeerAddr (resolve : Resolver) (host : String) (port : UInt16) :
    Except ConfigError SocketAddr :=
  match resolve host port with
  | none => .error (.resolving host port)
  | some [addr] => .ok addr
  | some [] => .error (.noAddresses host port)
  | some addrs => .error (.ambiguous host port addrs.length)

/-- The map from nodes to addresses. An id without an address has the unspecified one. -/
structure PeerMap where
  ids : OrdSet NodeId
  addr : NodeId → SocketAddr

namespace PeerMap

def empty : PeerMap := ⟨OrdSet.empty, fun _ => ⟨[], 0⟩⟩

def insert (m : PeerMap) (id : NodeId) (addr : SocketAddr) : PeerMap :=
  ⟨m.ids.insert id, Function.update m.addr id addr⟩

def values (m : PeerMap) : List SocketAddr := m.ids.toList.map m.addr

end PeerMap

/-- The loop of `peer_addrs`. -/
def peerAddrsLoop (resolve : Resolver) (addrs : PeerMap) :
    List PeerSection → Except ConfigError PeerMap
  | [] => .ok addrs
  | peer :: rest =>
    match resolvePeerAddr resolve peer.host peer.raftPort with
    | .error e => .error e
    | .ok addr =>
      if addr ∈ addrs.values then .error (.duplicateAddress addr)
      else if peer.nodeId ∈ addrs.ids then .error (.duplicateId peer.id)
      else peerAddrsLoop resolve (addrs.insert peer.nodeId addr) rest

def peerAddrs (resolve : Resolver) (peers : List PeerSection) : Except ConfigError PeerMap :=
  match peerAddrsLoop resolve .empty peers with
  | .error e => .error e
  | .ok addrs => if addrs.ids.toList = [] then .error .noPeers else .ok addrs

/-- `parse_node_config`, from the sections on. -/
def parseNodeConfig (resolve : Resolver) (config : ConfigFile) :
    Except ConfigError LoadedConfig := do
  let nodeId : NodeId := config.node.id.toNat
  let clientAddr ← resolvePeerAddr resolve config.node.host config.node.clientPort
  let raftAddr ← resolvePeerAddr resolve config.node.host config.node.raftPort
  let raftKey ← (RaftKey.fromHex config.cluster.raftKey).mapError .raftKey
  let peers ← peerAddrs resolve config.cluster.peers
  if nodeId ∉ peers.ids then .error (.missingSelf config.node.id)
  else if peers.addr nodeId ≠ raftAddr then
    .error (.selfAddress config.node.id (peers.addr nodeId) raftAddr)
  else .ok {
    nodeId := nodeId
    consensus := raftConfig nodeId
    raftAddr := raftAddr
    peers := peers.ids
    peerAddr := peers.addr
    clientAddr := clientAddr
    raftKey := raftKey
    storage := ⟨"default", config.storage.dataDir⟩ }

/-! ## What is accepted -/

theorem resolvePeerAddr_eq_ok {resolve : Resolver} {host : String} {port : UInt16}
    {addr : SocketAddr} :
    resolvePeerAddr resolve host port = .ok addr ↔ resolve host port = some [addr] := by
  unfold resolvePeerAddr
  split <;> simp_all

namespace PeerMap

variable {resolve : Resolver} {m m' : PeerMap} {peers : List PeerSection} {peer : PeerSection}

/-- The map holds the addresses of the peers, no two of which have the same id or address. -/
structure Describes (resolve : Resolver) (peers : List PeerSection) (m : PeerMap) : Prop where
  resolved : ∀ p ∈ peers, resolve p.host p.raftPort = some [m.addr p.nodeId]
  ids : ∀ id, id ∈ m.ids ↔ ∃ p ∈ peers, p.nodeId = id
  others : ∀ id, id ∉ m.ids → m.addr id = ⟨[], 0⟩
  idsNodup : (peers.map PeerSection.nodeId).Nodup
  addrsNodup : (peers.map fun p => m.addr p.nodeId).Nodup

theorem describes_empty : Describes resolve [] empty :=
  ⟨fun _ h => absurd h List.not_mem_nil,
    fun _ => ⟨fun h => absurd h (OrdSet.not_mem_empty _),
      fun ⟨_, h, _⟩ => absurd h List.not_mem_nil⟩,
    fun _ _ => rfl, List.nodup_nil, List.nodup_nil⟩

theorem Describes.perm {peers' : List PeerSection} (h : Describes resolve peers m)
    (hp : peers.Perm peers') : Describes resolve peers' m where
  resolved p hmem := h.resolved p (hp.mem_iff.2 hmem)
  ids id := by simp only [h.ids, hp.mem_iff]
  others := h.others
  idsNodup := (hp.map _).nodup_iff.1 h.idsNodup
  addrsNodup := (hp.map _).nodup_iff.1 h.addrsNodup

/-- A list of peers has one map. -/
theorem Describes.unique (h : Describes resolve peers m) (h' : Describes resolve peers m') :
    m = m' := by
  have hids : m.ids = m'.ids := OrdSet.ext_mem fun id => (h.ids id).trans (h'.ids id).symm
  have haddr : m.addr = m'.addr := by
    funext id
    by_cases hid : id ∈ m.ids
    · obtain ⟨p, hmem, rfl⟩ := (h.ids id).1 hid
      have heq := (h.resolved p hmem).symm.trans (h'.resolved p hmem)
      exact (List.cons.inj (Option.some.inj heq)).1
    · rw [h.others id hid, h'.others id (hids ▸ hid)]
  cases m
  cases m'
  cases hids
  cases haddr
  rfl

theorem Describes.mem_values (h : Describes resolve peers m) {addr : SocketAddr} :
    addr ∈ m.values ↔ addr ∈ peers.map fun p => m.addr p.nodeId := by
  simp only [values, List.mem_map, ← OrdSet.mem_def, h.ids]
  constructor
  · rintro ⟨_, ⟨p, hmem, rfl⟩, rfl⟩
    exact ⟨p, hmem, rfl⟩
  · rintro ⟨p, hmem, rfl⟩
    exact ⟨_, ⟨p, hmem, rfl⟩, rfl⟩

/-- A turn of the loop. -/
theorem Describes.insert (h : Describes resolve peers m) {addr : SocketAddr}
    (hresolve : resolve peer.host peer.raftPort = some [addr]) (haddr : addr ∉ m.values)
    (hid : peer.nodeId ∉ m.ids) :
    Describes resolve (peers ++ [peer]) (m.insert peer.nodeId addr) := by
  have hne : ∀ p ∈ peers, p.nodeId ≠ peer.nodeId := fun p hp heq =>
    hid ((h.ids _).2 ⟨p, hp, heq⟩)
  have hold : ∀ p ∈ peers, (m.insert peer.nodeId addr).addr p.nodeId = m.addr p.nodeId :=
    fun p hp => Function.update_of_ne (hne p hp) _ _
  have hnew : (m.insert peer.nodeId addr).addr peer.nodeId = addr := Function.update_self ..
  have hmap : (peers.map fun p => (m.insert peer.nodeId addr).addr p.nodeId) =
      peers.map fun p => m.addr p.nodeId := List.map_congr_left hold
  refine ⟨fun p hp => ?_, fun id => ?_, fun id hnot => ?_, ?_, ?_⟩
  · rcases List.mem_append.1 hp with hp | hp
    · rw [hold p hp]
      exact h.resolved p hp
    · rw [List.mem_singleton.1 hp, hnew]
      exact hresolve
  · simp only [PeerMap.insert, OrdSet.mem_insert, h.ids, List.mem_append, List.mem_singleton]
    constructor
    · rintro (rfl | ⟨p, hp, rfl⟩)
      · exact ⟨peer, .inr rfl, rfl⟩
      · exact ⟨p, .inl hp, rfl⟩
    · rintro ⟨p, hp | rfl, rfl⟩
      · exact .inr ⟨p, hp, rfl⟩
      · exact .inl rfl
  · simp only [PeerMap.insert, OrdSet.mem_insert, not_or] at hnot
    exact (Function.update_of_ne hnot.1 _ _).trans (h.others id hnot.2)
  · rw [List.map_append, List.map_singleton, List.nodup_append]
    refine ⟨h.idsNodup, List.nodup_singleton _, fun a ha b hb => ?_⟩
    obtain ⟨p, hp, rfl⟩ := List.mem_map.1 ha
    rw [List.mem_singleton.1 hb]
    exact hne p hp
  · rw [List.map_append, hmap, List.map_singleton, hnew, List.nodup_append]
    refine ⟨h.addrsNodup, List.nodup_singleton _, fun a ha b hb => ?_⟩
    rw [List.mem_singleton.1 hb]
    rintro rfl
    exact haddr (h.mem_values.2 ha)

/-- Part of a described list. -/
theorem Describes.turn {done rest : List PeerSection} (h : Describes resolve done m)
    (h' : Describes resolve (done ++ peer :: rest) m') : ∃ addr,
      resolve peer.host peer.raftPort = some [addr] ∧ addr ∉ m.values ∧ peer.nodeId ∉ m.ids := by
  have hsame : ∀ p ∈ done, m.addr p.nodeId = m'.addr p.nodeId := by
    intro p hp
    have heq := (h.resolved p hp).symm.trans (h'.resolved p (List.mem_append_left _ hp))
    exact (List.cons.inj (Option.some.inj heq)).1
  refine ⟨m'.addr peer.nodeId, h'.resolved peer (by simp), fun hmem => ?_, fun hmem => ?_⟩
  · have hnodup := h'.addrsNodup
    rw [List.map_append, List.nodup_append] at hnodup
    rw [h.mem_values, List.map_congr_left hsame] at hmem
    exact hnodup.2.2 _ hmem _ (by simp) rfl
  · have hnodup := h'.idsNodup
    rw [List.map_append, List.nodup_append] at hnodup
    obtain ⟨p, hp, hid⟩ := (h.ids _).1 hmem
    exact hnodup.2.2 _ (List.mem_map_of_mem hp) _ (by simp) hid

end PeerMap

variable {resolve : Resolver}

/-- The loop, from the peers it has passed. -/
theorem peerAddrsLoop_eq_ok {done rest : List PeerSection} {m m' : PeerMap}
    (h : m.Describes resolve done) :
    peerAddrsLoop resolve m rest = .ok m' ↔ m'.Describes resolve (done ++ rest) := by
  induction rest generalizing done m with
  | nil =>
    rw [List.append_nil, peerAddrsLoop, Except.ok.injEq]
    exact ⟨fun heq => heq ▸ h, h.unique⟩
  | cons peer rest ih =>
    rw [peerAddrsLoop]
    constructor
    · intro hloop
      split at hloop
      · cases hloop
      · next addr haddr =>
        split_ifs at hloop with hdup hid
        have hinsert := h.insert (resolvePeerAddr_eq_ok.1 haddr) hdup hid
        rw [List.append_cons]
        exact (ih hinsert).1 hloop
    · intro h'
      obtain ⟨addr, haddr, hdup, hid⟩ := h.turn h'
      rw [resolvePeerAddr_eq_ok.2 haddr]
      dsimp only
      rw [if_neg hdup, if_neg hid]
      rw [List.append_cons] at h'
      exact (ih (h.insert haddr hdup hid)).2 h'

/-- **What `peer_addrs` accepts.** -/
theorem peerAddrs_eq_ok {peers : List PeerSection} {m : PeerMap} :
    peerAddrs resolve peers = .ok m ↔ peers ≠ [] ∧ m.Describes resolve peers := by
  have hloop : ∀ m, peerAddrsLoop resolve .empty peers = .ok m ↔ m.Describes resolve peers :=
    fun m => peerAddrsLoop_eq_ok PeerMap.describes_empty
  have hempty : ∀ {m : PeerMap}, m.Describes resolve peers → (m.ids.toList = [] ↔ peers = []) := by
    intro m h
    simp only [List.eq_nil_iff_forall_not_mem, ← OrdSet.mem_def, h.ids]
    exact ⟨fun hnone p hp => hnone p.nodeId ⟨p, hp, rfl⟩,
      fun hnone id ⟨p, hp, _⟩ => hnone p hp⟩
  unfold peerAddrs
  constructor
  · intro h
    split at h
    · cases h
    · next addrs heq =>
      split_ifs at h with hnone
      cases h
      have hdescribes := (hloop m).1 heq
      exact ⟨fun hpeers => hnone ((hempty hdescribes).2 hpeers), hdescribes⟩
  · rintro ⟨hpeers, h⟩
    rw [(hloop m).2 h]
    exact if_neg fun hnone => hpeers ((hempty h).1 hnone)

/-- A file whose names resolve, with a key and a list of peers that has the node under its own
address. -/
structure ConfigFile.Accepts (resolve : Resolver) (file : ConfigFile) (c : LoadedConfig) :
    Prop where
  client : resolve file.node.host file.node.clientPort = some [c.clientAddr]
  raft : resolve file.node.host file.node.raftPort = some [c.raftAddr]
  key : file.cluster.raftKey.map asciiLower = encodeHex c.raftKey.bytes
  peers : PeerMap.Describes resolve file.cluster.peers ⟨c.peers, c.peerAddr⟩
  self : c.nodeId ∈ c.peers ∧ c.peerAddr c.nodeId = c.raftAddr
  node : c.nodeId = file.node.id.toNat ∧ c.consensus = raftConfig c.nodeId
  storage : c.storage = ⟨"default", file.storage.dataDir⟩

theorem mapError_eq_ok {ε ε' α : Type} {x : Except ε α} {f : ε → ε'} {a : α} :
    x.mapError f = .ok a ↔ x = .ok a := by
  cases x <;> simp [Except.mapError]

/-- **What `parse_node_config` accepts**, and what it makes of it. -/
theorem parseNodeConfig_eq_ok {file : ConfigFile} {c : LoadedConfig} :
    parseNodeConfig resolve file = .ok c ↔ file.Accepts resolve c := by
  unfold parseNodeConfig
  constructor
  · intro h
    obtain ⟨clientAddr, hclient, h⟩ := bind_eq_ok.1 h
    obtain ⟨raftAddr, hraft, h⟩ := bind_eq_ok.1 h
    obtain ⟨raftKey, hkey, h⟩ := bind_eq_ok.1 h
    obtain ⟨peers, hpeers, h⟩ := bind_eq_ok.1 h
    split_ifs at h with hself haddr
    cases h
    exact ⟨resolvePeerAddr_eq_ok.1 hclient, resolvePeerAddr_eq_ok.1 hraft,
      RaftKey.fromHex_eq_ok.1 (mapError_eq_ok.1 hkey), (peerAddrs_eq_ok.1 hpeers).2,
      ⟨hself, not_not.1 haddr⟩, ⟨rfl, rfl⟩, rfl⟩
  · rintro ⟨hclient, hraft, hkey, hpeers, ⟨hself, haddr⟩, ⟨hnode, hconsensus⟩, hstorage⟩
    have hsome : file.cluster.peers ≠ [] := by
      intro hnone
      obtain ⟨p, hp, -⟩ := (hpeers.ids _).1 hself
      rw [hnone] at hp
      cases hp
    rw [hnode] at hself haddr
    refine bind_eq_ok.2 ⟨_, resolvePeerAddr_eq_ok.2 hclient, ?_⟩
    refine bind_eq_ok.2 ⟨_, resolvePeerAddr_eq_ok.2 hraft, ?_⟩
    refine bind_eq_ok.2 ⟨_, mapError_eq_ok.2 (RaftKey.fromHex_eq_ok.2 hkey), ?_⟩
    refine bind_eq_ok.2 ⟨_, peerAddrs_eq_ok.2 ⟨hsome, hpeers⟩, ?_⟩
    rw [if_neg (not_not.2 hself), if_neg (not_not.2 haddr)]
    obtain ⟨⟨nodeId, consensus, raftAddr, peers, peerAddr⟩, clientAddr, raftKey, storage⟩ := c
    obtain rfl : nodeId = _ := hnode
    obtain rfl : consensus = raftConfig file.node.id.toNat := hconsensus
    obtain rfl : storage = _ := hstorage
    rfl

/-! ## Clusters -/

/-- Distinct addresses pass the check of the runtime. -/
theorem duplicateAddress_eq_none {addrs seen : List SocketAddr} (h : addrs.Nodup)
    (hseen : ∀ addr ∈ addrs, addr ∉ seen) : duplicateAddress seen addrs = none := by
  induction addrs generalizing seen with
  | nil => rfl
  | cons addr rest ih =>
    obtain ⟨hnot, hrest⟩ := List.nodup_cons.1 h
    rw [duplicateAddress, if_neg (hseen addr List.mem_cons_self)]
    refine ih hrest fun other hmem hother => ?_
    rcases List.mem_cons.1 hother with rfl | hother
    · exact hnot hmem
    · exact hseen other (List.mem_cons_of_mem _ hmem) hother

theorem PeerMap.Describes.values_nodup {peers : List PeerSection} {m : PeerMap}
    (h : m.Describes resolve peers) : m.values.Nodup := by
  refine List.Nodup.map_on (fun a ha b hb hab => ?_) m.ids.nodup
  obtain ⟨p, hp, rfl⟩ := (h.ids a).1 ha
  obtain ⟨q, hq, rfl⟩ := (h.ids b).1 hb
  exact congrArg PeerSection.nodeId (List.inj_on_of_nodup_map h.addrsNodup hp hq hab)

/-- What the command line accepts, the runtime does. -/
theorem ConfigFile.Accepts.validateConfig {file : ConfigFile} {c : LoadedConfig}
    (h : file.Accepts resolve c) : validateConfig c.toNodeConfig = .ok () := by
  have hid : c.nodeId = c.consensus.id := by
    rw [h.node.2]
    rfl
  have hnone : duplicateAddress [] (c.peers.toList.map c.peerAddr) = none :=
    duplicateAddress_eq_none h.peers.values_nodup fun _ _ => List.not_mem_nil
  unfold Cloud9.validateConfig
  rw [if_neg (not_not.2 hid), if_neg (not_not.2 h.self)]
  split
  · next addr hsome => exact absurd (hnone.symm.trans hsome) (by simp)
  · rfl

/-- The deployment of a list of peers. -/
def PeerMap.deployment (m : PeerMap) : Deployment := ⟨m.ids, m.addr, raftConfig⟩

theorem ConfigFile.Accepts.config {file : ConfigFile} {c : LoadedConfig}
    (h : file.Accepts resolve c) {m : PeerMap} (hm : m.Describes resolve file.cluster.peers) :
    c.toNodeConfig = m.deployment.config file.node.id.toNat := by
  cases hm.unique h.peers
  obtain ⟨⟨nodeId, consensus, raftAddr, peers, peerAddr⟩, clientAddr, raftKey, storage⟩ := c
  obtain ⟨hnode, hconsensus⟩ := h.node
  have haddr := h.self.2
  obtain rfl : nodeId = _ := hnode
  obtain rfl : consensus = raftConfig file.node.id.toNat := hconsensus
  obtain rfl : peerAddr file.node.id.toNat = raftAddr := haddr
  rfl

/-- **Accepted files make a deployment.** Take files that `parse_node_config` accepts and whose
lists of peers are the same up to order, on machines where names resolve to the same addresses. Then
there is one deployment such that every file gives the configuration of its node in it. The node is
one of the peers, the runtime accepts the configuration, and on an empty directory it starts the
process of the deployment. -/
theorem deployed_files (resolve : Resolver) {files : List (ConfigFile × LoadedConfig)}
    (hload : ∀ p ∈ files, parseNodeConfig resolve p.1 = .ok p.2)
    (hpeers : ∀ p ∈ files, ∀ q ∈ files, p.1.cluster.peers.Perm q.1.cluster.peers) :
    ∃ D : Deployment, ∀ p ∈ files, p.2.nodeId ∈ D.peers ∧
      p.2.toNodeConfig = D.config p.2.nodeId ∧
      validateConfig (D.config p.2.nodeId) = .ok () ∧
      ∀ f, ∃ d, Runtime.open f p.2.toNodeConfig Dir.empty = (d, .ok (D.process p.2.nodeId)) := by
  cases files with
  | nil => exact ⟨PeerMap.empty.deployment, fun _ hmem => absurd hmem List.not_mem_nil⟩
  | cons first rest =>
    have hfirst := parseNodeConfig_eq_ok.1 (hload first List.mem_cons_self)
    refine ⟨PeerMap.deployment ⟨first.2.peers, first.2.peerAddr⟩, fun p hmem => ?_⟩
    have haccepts := parseNodeConfig_eq_ok.1 (hload p hmem)
    have hconfig := haccepts.config (hfirst.peers.perm (hpeers first List.mem_cons_self p hmem))
    rw [← haccepts.node.1] at hconfig
    have hvalid := haccepts.validateConfig
    rw [hconfig] at hvalid
    have hself := haccepts.self.1
    rw [show p.2.peers = _ from congrArg NodeConfig.peers hconfig] at hself
    refine ⟨hself, hconfig, hvalid, fun f => ?_⟩
    rw [hconfig]
    exact Deployment.open_process _ f hvalid

/-- The file of node `id` of three, with its list of peers in some order. -/
def trioFile (id : UInt64) (peers : List UInt64) : ConfigFile where
  node := ⟨id, "localhost", 19090, 19091 + id.toUInt16⟩
  storage := ⟨"data"⟩
  cluster := ⟨List.replicate 64 48, peers.map fun id => ⟨id, "localhost", 19091 + id.toUInt16⟩⟩

def localResolver : Resolver := fun host port =>
  if host = "localhost" then some [⟨[127, 0, 0, 1], port⟩] else none

/-- Two files with the peers in different order. -/
theorem deployed_files_trio : ∃ (D : Deployment) (zero one : LoadedConfig),
    parseNodeConfig localResolver (trioFile 0 [0, 1, 2]) = .ok zero ∧
    parseNodeConfig localResolver (trioFile 1 [2, 0, 1]) = .ok one ∧
    zero.toNodeConfig = D.config 0 ∧ one.toNodeConfig = D.config 1 ∧ 1 ∈ D.peers := by
  have hboth : (parseNodeConfig localResolver (trioFile 0 [0, 1, 2])).isOk = true ∧
      (parseNodeConfig localResolver (trioFile 1 [2, 0, 1])).isOk = true := by
    decide +kernel
  cases hzero : parseNodeConfig localResolver (trioFile 0 [0, 1, 2]) with
  | error e =>
    rw [hzero] at hboth
    cases hboth.1
  | ok zero =>
    cases hone : parseNodeConfig localResolver (trioFile 1 [2, 0, 1]) with
    | error e =>
      rw [hone] at hboth
      cases hboth.2
    | ok one =>
      have hload : ∀ p ∈ [(trioFile 0 [0, 1, 2], zero), (trioFile 1 [2, 0, 1], one)],
          parseNodeConfig localResolver p.1 = .ok p.2 := by
        simp [hzero, hone]
      have hperm : ∀ p ∈ [(trioFile 0 [0, 1, 2], zero), (trioFile 1 [2, 0, 1], one)],
          p.1.cluster.peers.Perm (trioFile 0 [0, 1, 2]).cluster.peers := by
        simp only [List.mem_cons, List.not_mem_nil, or_false]
        rintro p (rfl | rfl)
        · exact .refl _
        · exact List.Perm.map _ (by decide)
      obtain ⟨D, hD⟩ := deployed_files localResolver hload
        fun p hp q hq => (hperm p hp).trans (hperm q hq).symm
      have hid : zero.nodeId = 0 := (parseNodeConfig_eq_ok.1 hzero).node.1
      have hid' : one.nodeId = 1 := (parseNodeConfig_eq_ok.1 hone).node.1
      obtain ⟨-, hconfig, -⟩ := hD _ List.mem_cons_self
      obtain ⟨hmem, hconfig', -⟩ := hD _ (List.mem_cons_of_mem _ List.mem_cons_self)
      rw [hid] at hconfig
      rw [hid'] at hmem hconfig'
      exact ⟨D, zero, one, rfl, rfl, hconfig, hconfig', hmem⟩

end Cloud9
