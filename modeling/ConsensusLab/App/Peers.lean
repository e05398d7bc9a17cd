import ConsensusLab.Foundation.Separators
import ConsensusLab.Raft.Wiring

/-!
# The peers of a process

`config.go` reads the cluster out of the text of `APP_PEERS`, and `run` in `main.go` dials the other nodes and starts
a node with them. The node leaves itself out, so that all processes can be given the same text. If every listed
address can be dialled, they form a new cluster of the listed nodes, and a process that is started again is the one
that the cluster's restarts assume.
-/

namespace ConsensusLab.App

open Foundation Raft

/-- The text of an environment variable. -/
abbrev Text := List Char

/-- `unicode.IsSpace`. -/
def isSpace (c : Char) : Bool :=
  let r := c.toNat
  (0x09 ≤ r && r ≤ 0x0d) || r == 0x20 || r == 0x85 || r == 0xa0 || r == 0x1680 || (0x2000 ≤ r && r ≤ 0x200a) ||
    r == 0x2028 || r == 0x2029 || r == 0x202f || r == 0x205f || r == 0x3000

/-- `strings.TrimSpace`. -/
abbrev trimSpace (text : Text) : Text :=
  trim isSpace text

/-- The variables that name the node and its peers. A variable that is not set reads as the empty text. -/
structure Env where
  nodeID : Text
  peers : Text

/-- The settings made by these variables. -/
structure Config where
  nodeID : Text
  peerAddrs : List Text
deriving DecidableEq

/-- Why a configuration is refused. -/
inductive ConfigError where
  /-- `app: node id is required` -/
  | nodeIDRequired
  /-- `app: invalid peer entry %q` -/
  | invalidPeerEntry (raw : Text)
  /-- `app: duplicate peer id %q` -/
  | duplicatePeerID (id : Text)
deriving DecidableEq

/-- `DefaultConfig`. -/
def defaultConfig : Config where
  nodeID := ['n', 'o', 'd', 'e', '-', '1']
  peerAddrs := []

/-- `splitCSV`. -/
def splitCSV (raw : Text) : List Text :=
  ((separate ',' raw).map trimSpace).filter (· ≠ [])

namespace Config

/-- `Validate`. -/
def validate (c : Config) : Except ConfigError Unit :=
  if trimSpace c.nodeID = [] then .error .nodeIDRequired else .ok ()

/-- The id and the address of an entry that is not empty. -/
def peerEntry (raw : Text) : Text × Text :=
  match cutAtFirst '=' raw with
  | some (left, right) => (trimSpace left, trimSpace right)
  | none => (raw, raw)

/-- The body of the loop in `PeerAddrMap`. -/
def addPeer (out : List (Text × Text)) (raw : Text) : Except ConfigError (List (Text × Text)) :=
  let raw := trimSpace raw
  if raw = [] then .ok out
  else
    let (id, addr) := peerEntry raw
    if id = [] ∨ addr = [] then .error (.invalidPeerEntry raw)
    else if id ∈ out.map Prod.fst then .error (.duplicatePeerID id)
    else .ok (out ++ [(id, addr)])

/-- `PeerAddrMap`. -/
def peerAddrMap (c : Config) : Except ConfigError (List (Text × Text)) :=
  c.peerAddrs.foldlM addPeer []

end Config

/-- `LoadConfigFromEnv`. -/
def loadConfigFromEnv (env : Env) : Except ConfigError Config := do
  let nodeID := trimSpace env.nodeID
  let peers := trimSpace env.peers
  let cfg : Config := {
    nodeID := if nodeID ≠ [] then nodeID else defaultConfig.nodeID
    peerAddrs := if peers ≠ [] then splitCSV peers else defaultConfig.peerAddrs }
  cfg.validate
  return cfg

/-- Why a process does not start. -/
inductive StartError where
  | config (reason : ConfigError)
  /-- `dial peer %s at %s: %w` -/
  | dialPeer (id addr : Text)
deriving DecidableEq

/-- `DialPeers`, with the addresses for which `grpc.NewClient` returns a client. Of several that cannot be dialled the
first is reported; the source goes through a map, in no particular order. -/
def dialPeers (canDial : Text → Bool) (addresses : List (Text × Text)) : Except StartError (List Text) :=
  addresses.mapM fun (id, addr) => if canDial addr then .ok id else .error (.dialPeer id addr)

/-- `run`, up to the node it creates and starts on what its data directory holds. -/
def run (canDial : Text → Bool) (env : Env) (disk : PersistentState) : Except StartError Server := do
  let cfg ← (loadConfigFromEnv env).mapError .config
  let peerAddrs ← cfg.peerAddrMap.mapError .config
  let peers ← dialPeers canDial (peerAddrs.filter (·.1 ≠ cfg.nodeID))
  return .boot (.ofList cfg.nodeID) (peers.map .ofList) disk

/-- The peers that the text of `APP_PEERS` lists. -/
def listedPeers (text : Text) : Except ConfigError (List (Text × Text)) := do
  let cfg ← loadConfigFromEnv { nodeID := [], peers := text }
  cfg.peerAddrMap

/-- The id of a process. -/
def ownID (text : Text) : Text :=
  if trimSpace text ≠ [] then trimSpace text else defaultConfig.nodeID

/-- The entries of a text of `APP_PEERS`. -/
def peerEntries (text : Text) : List Text :=
  if trimSpace text ≠ [] then splitCSV (trimSpace text) else defaultConfig.peerAddrs

/-- A process always has an id. -/
theorem trimSpace_ownID (text : Text) : trimSpace (ownID text) = ownID text ∧ ownID text ≠ [] := by
  unfold ownID
  split
  · rename_i hne
    exact ⟨(trimmed_trim text).trim_eq, hne⟩
  · exact ⟨by decide, by decide⟩

/-- So the variables of the node and its peers load whatever they hold. -/
theorem loadConfigFromEnv_eq (env : Env) : loadConfigFromEnv env = .ok ⟨ownID env.nodeID, peerEntries env.peers⟩ := by
  obtain ⟨htrim, hne⟩ := trimSpace_ownID env.nodeID
  have hvalid : (Config.mk (ownID env.nodeID) (peerEntries env.peers)).validate = .ok () := by
    rw [Config.validate, htrim, if_neg hne]
  change (do
    (Config.mk (ownID env.nodeID) (peerEntries env.peers)).validate
    return Config.mk (ownID env.nodeID) (peerEntries env.peers)) = _
  rw [hvalid]
  rfl

/-- The listed peers do not depend on the process that reads them. -/
theorem listedPeers_eq (text : Text) : listedPeers text = (peerEntries text).foldlM Config.addPeer [] := by
  rw [listedPeers, loadConfigFromEnv_eq]
  rfl

/-! ## Entries -/

/-- An id and an address that can be listed. -/
structure Listable (peer : Text × Text) : Prop where
  id_ne : peer.1 ≠ []
  id_trimmed : Trimmed isSpace peer.1
  id_comma : ',' ∉ peer.1
  id_equals : '=' ∉ peer.1
  addr_ne : peer.2 ≠ []
  addr_trimmed : Trimmed isSpace peer.2
  addr_comma : ',' ∉ peer.2

/-- An entry with id and address. -/
def renderPeer (peer : Text × Text) : Text :=
  peer.1 ++ '=' :: peer.2

/-- The entries, separated by commas. -/
def renderPeers (peers : List (Text × Text)) : Text :=
  joinWith ',' (peers.map renderPeer)

/-- An entry is not empty. -/
theorem renderPeer_ne (peer : Text × Text) : renderPeer peer ≠ [] := by
  simp [renderPeer]

namespace Listable

variable {peer : Text × Text}

/-- There is no space around an entry. -/
theorem trimmed_render (h : Listable peer) : Trimmed isSpace (renderPeer peer) := by
  have := h.id_trimmed.append h.addr_trimmed h.id_ne h.addr_ne ['=']
  rwa [List.append_assoc] at this

/-- An entry has no comma. -/
theorem comma_render (h : Listable peer) : ',' ∉ renderPeer peer := by
  simp [renderPeer, h.id_comma, h.addr_comma]

/-- An entry is read as the id and the address it was written with. -/
theorem peerEntry_render (h : Listable peer) : Config.peerEntry (renderPeer peer) = peer := by
  rw [Config.peerEntry, renderPeer, cutAtFirst_append_cons h.id_equals]
  exact Prod.ext h.id_trimmed.trim_eq h.addr_trimmed.trim_eq

/-- A new entry is added to the map. -/
theorem addPeer_render (h : Listable peer) {out : List (Text × Text)} (hnew : peer.1 ∉ out.map Prod.fst) :
    Config.addPeer out (renderPeer peer) = .ok (out ++ [peer]) := by
  simp only [Config.addPeer, h.trimmed_render.trim_eq, renderPeer_ne, h.peerEntry_render, h.id_ne, h.addr_ne, hnew,
    or_self, if_false]

end Listable

/-- What is read from an entry without commas can be listed. -/
theorem listable_peerEntry {raw : Text} (htrimmed : Trimmed isSpace raw) (hcomma : ',' ∉ raw)
    (hid : (Config.peerEntry raw).1 ≠ []) (haddr : (Config.peerEntry raw).2 ≠ []) :
    Listable (Config.peerEntry raw) := by
  unfold Config.peerEntry at hid haddr ⊢
  cases hcut : cutAtFirst '=' raw with
  | none =>
    rw [hcut] at hid
    exact ⟨hid, htrimmed, hcomma, not_mem_of_cutAtFirst hcut, hid, htrimmed, hcomma⟩
  | some parts =>
    obtain ⟨left, right⟩ := parts
    rw [hcut] at hid haddr
    obtain ⟨rfl, hleft⟩ := of_cutAtFirst hcut
    refine ⟨hid, trimmed_trim left, ?_, fun hmem => hleft (mem_of_mem_trim hmem), haddr, trimmed_trim right, ?_⟩
    · exact fun hmem => hcomma (List.mem_append_left _ (mem_of_mem_trim hmem))
    · exact fun hmem => hcomma (List.mem_append_right _ (List.mem_cons_of_mem _ (mem_of_mem_trim hmem)))

/-! ## The list of peers -/

/-- Peers that can be listed, under distinct ids. -/
structure PeerList (peers : List (Text × Text)) : Prop where
  listable : ∀ peer ∈ peers, Listable peer
  nodup : (peers.map Prod.fst).Nodup

/-- The loop keeps a list of peers. -/
theorem PeerList.addPeer {out out' : List (Text × Text)} {raw : Text} (h : PeerList out) (hcomma : ',' ∉ raw)
    (hadd : Config.addPeer out raw = .ok out') : PeerList out' := by
  simp only [Config.addPeer] at hadd
  split at hadd
  · cases hadd
    exact h
  · split at hadd
    · cases hadd
    · rename_i hne
      obtain ⟨hid, haddr⟩ := not_or.mp hne
      split at hadd
      · cases hadd
      · rename_i hnew
        cases hadd
        -- only here the map grows: the entry has been trimmed, and its id is new
        have hentry := listable_peerEntry (trimmed_trim raw) (fun hmem => hcomma (mem_of_mem_trim hmem)) hid haddr
        constructor
        · intro peer hpeer
          rcases List.mem_append.mp hpeer with hpeer | hpeer
          · exact h.listable peer hpeer
          · cases List.mem_singleton.mp hpeer
            exact hentry
        · rw [List.map_append]
          exact List.nodup_append'.mpr ⟨h.nodup, List.nodup_singleton _, by simpa using hnew⟩

/-- The map that is built from entries without commas is a list of peers. -/
theorem PeerList.foldlM {entries : List Text} (hcomma : ∀ raw ∈ entries, ',' ∉ raw) {out peers : List (Text × Text)}
    (h : PeerList out) (hpeers : entries.foldlM Config.addPeer out = .ok peers) : PeerList peers := by
  induction entries generalizing out with
  | nil =>
    cases hpeers
    exact h
  | cons raw entries ih =>
    rw [List.foldlM_cons] at hpeers
    cases hadd : Config.addPeer out raw with
    | error e =>
      rw [hadd] at hpeers
      cases hpeers
    | ok out' =>
      rw [hadd] at hpeers
      have hstep := h.addPeer (hcomma raw List.mem_cons_self) hadd
      exact ih (fun q hq => hcomma q (List.mem_cons_of_mem _ hq)) hstep hpeers

/-- No entry of the configuration has a comma. -/
theorem comma_of_mem_splitCSV {text raw : Text} (h : raw ∈ splitCSV text) : ',' ∉ raw := by
  obtain ⟨part, hpart, rfl⟩ := List.mem_map.mp (List.mem_of_mem_filter h)
  exact fun hmem => not_mem_of_mem_separate hpart (mem_of_mem_trim hmem)

/-- What is accepted is a list of peers. -/
theorem peerList_of_listedPeers {text : Text} {peers : List (Text × Text)} (h : listedPeers text = .ok peers) :
    PeerList peers := by
  rw [listedPeers_eq] at h
  refine PeerList.foldlM ?_ ⟨fun _ hpeer => absurd hpeer List.not_mem_nil, List.nodup_nil⟩ h
  intro raw hraw
  unfold peerEntries at hraw
  split at hraw
  · exact comma_of_mem_splitCSV hraw
  · exact absurd hraw List.not_mem_nil

/-- The loop adds the peers that are written. -/
theorem foldlM_addPeer_render {peers out : List (Text × Text)} (h : PeerList (out ++ peers)) :
    (peers.map renderPeer).foldlM Config.addPeer out = .ok (out ++ peers) := by
  induction peers generalizing out with
  | nil =>
    rw [List.append_nil]
    rfl
  | cons peer peers ih =>
    have hlistable := h.listable peer (List.mem_append_right _ List.mem_cons_self)
    have hnew : peer.1 ∉ out.map Prod.fst := by
      have hnodup := h.nodup
      rw [List.map_append, List.map_cons] at hnodup
      exact fun hmem => (List.nodup_append'.mp hnodup).2.2 hmem List.mem_cons_self
    rw [List.map_cons, List.foldlM_cons, hlistable.addPeer_render hnew]
    have hassoc : out ++ peer :: peers = (out ++ [peer]) ++ peers := by simp
    rw [hassoc] at h ⊢
    exact ih h

/-- The entries of a configuration are the ones that are written. -/
theorem splitCSV_renderPeers {peers : List (Text × Text)} (hne : peers ≠ []) (h : ∀ peer ∈ peers, Listable peer) :
    splitCSV (renderPeers peers) = peers.map renderPeer := by
  have hcomma : ∀ part ∈ peers.map renderPeer, ',' ∉ part := by
    intro part hpart
    obtain ⟨peer, hpeer, rfl⟩ := List.mem_map.mp hpart
    exact (h peer hpeer).comma_render
  rw [splitCSV, renderPeers, separate_joinWith (by simpa using hne) hcomma]
  have htrim : (peers.map renderPeer).map trimSpace = peers.map renderPeer := by
    rw [List.map_map]
    exact List.map_congr_left fun peer hpeer => (h peer hpeer).trimmed_render.trim_eq
  rw [htrim, List.filter_eq_self]
  intro part hpart
  obtain ⟨peer, hpeer, rfl⟩ := List.mem_map.mp hpart
  simpa using renderPeer_ne peer

/-- A list of peers is read as it is written. -/
theorem listedPeers_renderPeers {peers : List (Text × Text)} (h : PeerList peers) :
    listedPeers (renderPeers peers) = .ok peers := by
  cases peers with
  | nil => rfl
  | cons peer peers =>
    have hparts : ∀ part ∈ (peer :: peers).map renderPeer, Trimmed isSpace part ∧ part ≠ [] := by
      intro part hpart
      obtain ⟨q, hq, rfl⟩ := List.mem_map.mp hpart
      exact ⟨(h.listable q hq).trimmed_render, renderPeer_ne q⟩
    obtain ⟨htrimmed, hne⟩ := trimmed_joinWith hparts
    have htrim : trimSpace (renderPeers (peer :: peers)) = renderPeers (peer :: peers) := htrimmed.trim_eq
    have hne : renderPeers (peer :: peers) ≠ [] := hne (by simp)
    rw [listedPeers_eq, peerEntries, htrim, if_pos hne, splitCSV_renderPeers (List.cons_ne_nil _ _) h.listable]
    exact foldlM_addPeer_render h

/-- The lists of peers that some text of `APP_PEERS` gives are those with distinct ids in which no id or address is
empty, has space around it or a comma in it, and no id has an equals sign. -/
theorem accepted_peers_iff (peers : List (Text × Text)) : (∃ text, listedPeers text = .ok peers) ↔ PeerList peers :=
  ⟨fun ⟨_, h⟩ => peerList_of_listedPeers h, fun h => ⟨_, listedPeers_renderPeers h⟩⟩

/-! ## Processes -/

/-- The membership of the listed nodes. -/
def PeerList.membership {peers : List (Text × Text)} (h : PeerList peers) : Membership where
  ids := peers.map fun peer => .ofList peer.1
  nodup := by
    have hinj := h.nodup.map fun _ _ => String.ofList_injective
    rwa [List.map_map] at hinj
  nonempty hmem := by
    obtain ⟨peer, hpeer, heq⟩ := List.mem_map.mp hmem
    exact (h.listable peer hpeer).id_ne (String.ofList_injective heq)

/-- A node that is created leaves itself out. -/
theorem boot_of_normalizePeers {id : String} {peers peers' : List String}
    (h : normalizePeers id peers = normalizePeers id peers') (disk : PersistentState) :
    Server.boot id peers disk = Server.boot id peers' disk := by
  simp only [Server.boot, NodeProcess.boot, newNode, h]

/-- It makes no difference to a node whether `run` has left it out before. -/
theorem normalizePeers_others (id : Text) (peers : List (Text × Text)) :
    normalizePeers (.ofList id) ((peers.filter (·.1 ≠ id)).map fun peer => .ofList peer.1) =
      normalizePeers (.ofList id) (peers.map fun peer => .ofList peer.1) := by
  simp only [normalizePeers, List.filter_map, List.filter_filter]
  refine congrArg _ (List.filter_congr fun peer _ => ?_)
  have hiff : String.ofList peer.1 = String.ofList id ↔ peer.1 = id := ⟨fun h => String.ofList_injective h, congrArg _⟩
  simp [hiff]

/-- Peers that can be dialled are dialled. -/
theorem dialPeers_eq {canDial : Text → Bool} {addresses : List (Text × Text)}
    (h : ∀ peer ∈ addresses, canDial peer.2 = true) : dialPeers canDial addresses = .ok (addresses.map Prod.fst) := by
  induction addresses with
  | nil => rfl
  | cons peer rest ih =>
    obtain ⟨id, addr⟩ := peer
    have hfirst : canDial addr = true := h (id, addr) List.mem_cons_self
    have hrest : dialPeers canDial rest = .ok (rest.map Prod.fst) := ih fun q hq => h q (List.mem_cons_of_mem _ hq)
    rw [dialPeers] at hrest ⊢
    simp only [List.mapM_cons, hfirst, if_true, hrest]
    rfl

/-- A process with a listed id starts the node of that id with all listed nodes. -/
theorem run_of_listed {text : Text} {peers : List (Text × Text)} {canDial : Text → Bool}
    (h : listedPeers text = .ok peers) (hdial : ∀ peer ∈ peers, canDial peer.2 = true)
    {peer : Text × Text} (hpeer : peer ∈ peers) (disk : PersistentState) :
    run canDial ⟨peer.1, text⟩ disk = .ok (.boot (.ofList peer.1) (peers.map fun q => .ofList q.1) disk) := by
  have hlistable := (peerList_of_listedPeers h).listable peer hpeer
  have hid : ownID peer.1 = peer.1 := by
    rw [ownID, trimSpace, hlistable.id_trimmed.trim_eq, if_pos hlistable.id_ne]
  have hmap : (Config.mk peer.1 (peerEntries text)).peerAddrMap = .ok peers := (listedPeers_eq text).symm.trans h
  have hothers := dialPeers_eq fun q (hq : q ∈ peers.filter (·.1 ≠ peer.1)) => hdial q (List.mem_filter.mp hq).1
  rw [run, loadConfigFromEnv_eq, hid]
  simp only [bind, Except.bind, Except.mapError, hmap, hothers, pure, Except.pure, List.map_map]
  exact congrArg Except.ok (boot_of_normalizePeers (normalizePeers_others peer.1 peers) disk)

/-- All processes can be given the same text of `APP_PEERS`, if every listed address can be dialled. They start as a new
cluster of the listed nodes, and in every state the cluster reaches, a process that is started again is the restarted
server of the cluster. -/
theorem shared_peers_form_a_cluster (canDial : Text → Bool) {text : Text} {peers : List (Text × Text)}
    (h : listedPeers text = .ok peers) (hdial : ∀ peer ∈ peers, canDial peer.2 = true) :
    ∃ m : Membership, m.ids = peers.map (fun peer => .ofList peer.1) ∧
      ∀ peer ∈ peers,
        run canDial ⟨peer.1, text⟩ .empty = .ok ((Cluster.first m.ids).servers (.ofList peer.1)) ∧
          ∀ allowed c, ClusterReachable m allowed c → ∀ disk,
            run canDial ⟨peer.1, text⟩ disk = .ok ((c.servers (.ofList peer.1)).reboot disk) := by
  refine ⟨(peerList_of_listedPeers h).membership, rfl, fun peer hpeer => ⟨run_of_listed h hdial hpeer .empty, ?_⟩⟩
  intro allowed c hreachable disk
  have hmem : String.ofList peer.1 ∈ (peerList_of_listedPeers h).membership.ids := List.mem_map_of_mem hpeer
  have hplaced := ((wired_of_reachable hreachable).servers _ hmem).placed
  rw [run_of_listed h hdial hpeer disk, Server.reboot, hplaced.self, hplaced.peers]
  refine congrArg Except.ok (boot_of_normalizePeers ?_ disk)
  simp [normalizePeers, PeerList.membership, List.filter_filter]

/-- Two nodes, with space and an empty entry between them. The second gives only its address. -/
def twoPeers : Text :=
  ['a', '=', ':', '1', ',', ' ', ',', ' ', 'b']

/-- Both nodes can be started with this text where an address is dialled unless it has a percent sign. -/
theorem shared_peers_form_a_cluster_of_two :
    listedPeers twoPeers = .ok [(['a'], [':', '1']), (['b'], ['b'])] ∧
      ∃ m : Membership, m.ids = ["a", "b"] ∧
        ∀ peer ∈ [(['a'], [':', '1']), (['b'], ['b'])],
          run (fun addr => !addr.contains '%') ⟨peer.1, twoPeers⟩ .empty =
              .ok ((Cluster.first m.ids).servers (.ofList peer.1)) ∧
            ∀ allowed c, ClusterReachable m allowed c → ∀ disk,
              run (fun addr => !addr.contains '%') ⟨peer.1, twoPeers⟩ disk = .ok ((c.servers (.ofList peer.1)).reboot disk) := by
  have hlisted : listedPeers twoPeers = .ok [(['a'], [':', '1']), (['b'], ['b'])] := by
    rfl
  obtain ⟨m, hids, h⟩ := shared_peers_form_a_cluster (fun addr => !addr.contains '%') hlisted (by decide)
  exact ⟨hlisted, m, hids.trans (by decide), h⟩

/-- A percent sign in an address keeps the other nodes from starting, although the text is accepted. -/
example : run (fun addr => !addr.contains '%') ⟨['a'], ['a', '=', ':', '1', ',', 'b', '=', '%']⟩ .empty =
    .error (.dialPeer ['b'] ['%']) := rfl

end ConsensusLab.App
