import Mathlib

/-!
# The connection manager

The connected nodes, as `CConnman` holds them, with the counters the eviction
logic consults. The identifiers of the nodes are distinct and nonnegative, as
`GetNewNodeId` hands them out, and the number of manual and full outbound
connections is kept for every network next to the list of nodes. These facts
are part of the structure, and marking a node keeps them (`markDisconnect`).

A count above one on a network means that a connection of the network is not
its only one (`exists_other_of_multiple`).
-/

namespace BitcoinCore.Net

open List

/-- `NodeId` is a signed integer; minus one stands for no node. -/
abbrev NodeId := ℤ

inductive Network where
  | unroutable
  | ipv4
  | ipv6
  | onion
  | i2p
  | cjdns
  | internal
  deriving DecidableEq, Repr

inductive ConnectionType where
  | inbound
  | outboundFullRelay
  | manual
  | feeler
  | blockRelay
  | addrFetch
  | privateBroadcast
  deriving DecidableEq, Repr

/-- A connected node. Times are in seconds, the last ping in microseconds. -/
structure CNode where
  id : NodeId
  connType : ConnectionType
  network : Network
  fSuccessfullyConnected : Bool
  fDisconnect : Bool
  connected : ℤ
  lastBlockTime : ℤ
  lastPingTime : ℤ
  deriving DecidableEq, Repr

namespace CNode

def isOutboundOrBlockRelayConn (node : CNode) : Bool :=
  match node.connType with
  | .outboundFullRelay | .blockRelay => true
  | .inbound | .manual | .addrFetch | .feeler | .privateBroadcast => false

def isFullOutboundConn (node : CNode) : Bool := node.connType = .outboundFullRelay

def isManualOrFullOutboundConn (node : CNode) : Bool :=
  match node.connType with
  | .inbound | .feeler | .blockRelay | .addrFetch | .privateBroadcast => false
  | .outboundFullRelay | .manual => true

def isBlockOnlyConn (node : CNode) : Bool := node.connType = .blockRelay

def isInboundConn (node : CNode) : Bool := node.connType = .inbound

def markIf (id : NodeId) (node : CNode) : CNode :=
  if node.id = id then { node with fDisconnect := true } else node

variable (id : NodeId) (node : CNode)

@[simp] theorem markIf_id : (node.markIf id).id = node.id := by
  unfold markIf
  split_ifs <;> rfl

@[simp] theorem markIf_connType : (node.markIf id).connType = node.connType := by
  unfold markIf
  split_ifs <;> rfl

@[simp] theorem markIf_network : (node.markIf id).network = node.network := by
  unfold markIf
  split_ifs <;> rfl

theorem markIf_of_ne {id : NodeId} {node : CNode} (other : node.id ≠ id) : node.markIf id = node :=
  if_neg other

end CNode

def countsFor (network : Network) (node : CNode) : Bool :=
  node.isManualOrFullOutboundConn && decide (node.network = network)

@[simp] theorem countsFor_markIf (network : Network) (id : NodeId) (node : CNode) :
    countsFor network (node.markIf id) = countsFor network node := by
  simp [countsFor, CNode.isManualOrFullOutboundConn]

structure CConnman where
  nodes : List CNode
  networkConnCounts : Network → ℕ
  maxOutboundFullRelay : ℤ
  maxOutboundBlockRelay : ℤ
  tryAnotherOutboundPeer : Bool
  ids_nodup : (nodes.map CNode.id).Nodup
  ids_nonneg : ∀ node ∈ nodes, 0 ≤ node.id
  networkConnCounts_eq : ∀ network, networkConnCounts network = nodes.countP (countsFor network)

namespace CConnman

def nodeFullyConnected (node : CNode) : Bool := node.fSuccessfullyConnected && !node.fDisconnect

/-- The fully connected nodes, in the order `ForEachNode` visits them. -/
def forEachNode (connman : CConnman) : List CNode := connman.nodes.filter nodeFullyConnected

def forNode (connman : CConnman) (id : NodeId) : Option CNode :=
  (connman.nodes.find? (·.id = id)).filter nodeFullyConnected

def getExtraFullOutboundCount (connman : CConnman) : ℤ :=
  max ((connman.nodes.countP fun node =>
    node.fSuccessfullyConnected && !node.fDisconnect && node.isFullOutboundConn : ℕ) -
      connman.maxOutboundFullRelay) 0

def getExtraBlockRelayCount (connman : CConnman) : ℤ :=
  max ((connman.nodes.countP fun node =>
    node.fSuccessfullyConnected && !node.fDisconnect && node.isBlockOnlyConn : ℕ) -
      connman.maxOutboundBlockRelay) 0

def multipleManualOrFullOutboundConns (connman : CConnman) (network : Network) : Bool :=
  decide (1 < connman.networkConnCounts network)

def setTryNewOutboundPeer (connman : CConnman) (flag : Bool) : CConnman :=
  { connman with tryAnotherOutboundPeer := flag }

def markDisconnect (connman : CConnman) (id : NodeId) : CConnman :=
  { connman with
    nodes := connman.nodes.map (CNode.markIf id)
    ids_nodup := by
      have same : CNode.id ∘ CNode.markIf id = CNode.id := funext (·.markIf_id id)
      rw [map_map, same]
      exact connman.ids_nodup
    ids_nonneg := by
      intro node mem
      obtain ⟨original, isIn, rfl⟩ := mem_map.mp mem
      rw [CNode.markIf_id]
      exact connman.ids_nonneg original isIn
    networkConnCounts_eq := by
      intro network
      have same : countsFor network ∘ CNode.markIf id = countsFor network :=
        funext fun node => countsFor_markIf network id node
      rw [countP_map, same]
      exact connman.networkConnCounts_eq network }

variable {connman : CConnman}

theorem eq_of_id_eq {first second : CNode} (left : first ∈ connman.nodes)
    (right : second ∈ connman.nodes) (same : first.id = second.id) : first = second :=
  inj_on_of_nodup_map connman.ids_nodup left right same

variable {node : CNode}

theorem mem_forEachNode :
    node ∈ connman.forEachNode ↔ node ∈ connman.nodes ∧ nodeFullyConnected node :=
  mem_filter

theorem forNode_eq_some {id : NodeId} (found : connman.forNode id = some node) :
    node ∈ connman.nodes ∧ node.id = id ∧ nodeFullyConnected node := by
  rw [forNode, Option.filter_eq_some_iff] at found
  refine ⟨mem_of_find?_eq_some found.1, ?_, found.2⟩
  simpa using List.find?_some found.1

theorem forNode_of_mem (mem : node ∈ connman.forEachNode) :
    connman.forNode node.id = some node := by
  obtain ⟨inNodes, connected⟩ := mem_forEachNode.mp mem
  have isSome : (connman.nodes.find? (·.id = node.id)).isSome :=
    List.find?_isSome.mpr ⟨node, inNodes, decide_eq_true rfl⟩
  obtain ⟨found, isFound⟩ := Option.isSome_iff_exists.mp isSome
  have sameId : found.id = node.id := by simpa using List.find?_some isFound
  rw [eq_of_id_eq (mem_of_find?_eq_some isFound) inNodes sameId] at isFound
  rw [forNode, isFound, Option.filter_some, if_pos connected]

theorem length_filter_le_one {select : CNode → Bool} (id : NodeId)
    (same : ∀ node ∈ connman.nodes.filter select, node.id = id) :
    (connman.nodes.filter select).length ≤ 1 := by
  have ids := connman.ids_nodup.sublist
    ((filter_sublist (p := select) (l := connman.nodes)).map CNode.id)
  have allSame : ∀ other ∈ (connman.nodes.filter select).map CNode.id, other = id := by
    intro other mem
    obtain ⟨node, isIn, rfl⟩ := mem_map.mp mem
    exact same node isIn
  rwa [eq_replicate_of_mem allSame, nodup_replicate, length_map] at ids

theorem exists_other_of_multiple
    (multiple : connman.multipleManualOrFullOutboundConns node.network) :
    ∃ other ∈ connman.nodes, other.id ≠ node.id ∧ other.isManualOrFullOutboundConn ∧
      other.network = node.network := by
  by_contra alone
  push Not at alone
  have many : 1 < connman.nodes.countP (countsFor node.network) := by
    rw [← connman.networkConnCounts_eq]
    exact of_decide_eq_true multiple
  rw [countP_eq_length_filter] at many
  have same : ∀ other ∈ connman.nodes.filter (countsFor node.network), other.id = node.id := by
    intro other isIn
    obtain ⟨inNodes, counted⟩ := mem_filter.mp isIn
    rw [countsFor, Bool.and_eq_true, decide_eq_true_eq] at counted
    by_contra differ
    exact alone other inNodes differ counted.1 counted.2
  have few := length_filter_le_one _ same
  omega

@[simp] theorem markDisconnect_nodes (connman : CConnman) (id : NodeId) :
    (connman.markDisconnect id).nodes = connman.nodes.map (CNode.markIf id) := rfl

/-- Marking a node that is not a full outbound connection leaves the number of
extra full outbound connections as it is. -/
theorem getExtraFullOutboundCount_markDisconnect {id : NodeId}
    (other : ∀ node ∈ connman.nodes, node.id = id → node.isFullOutboundConn = false) :
    (connman.markDisconnect id).getExtraFullOutboundCount = connman.getExtraFullOutboundCount := by
  have same : ((connman.markDisconnect id).nodes.countP fun node =>
      node.fSuccessfullyConnected && !node.fDisconnect && node.isFullOutboundConn) =
      connman.nodes.countP fun node =>
        node.fSuccessfullyConnected && !node.fDisconnect && node.isFullOutboundConn := by
    rw [markDisconnect_nodes, countP_map]
    refine countP_congr ?_
    intro node isIn
    by_cases isMarked : node.id = id
    · have notFull := other node isIn isMarked
      have notFull' : (node.markIf id).isFullOutboundConn = false := by
        rw [CNode.isFullOutboundConn, CNode.markIf_connType]
        exact notFull
      simp [notFull, notFull']
    · rw [Function.comp_apply, CNode.markIf_of_ne isMarked]
  unfold getExtraFullOutboundCount
  rw [same]
  rfl

end CConnman

end BitcoinCore.Net
