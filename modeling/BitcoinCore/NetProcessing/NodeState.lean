import BitcoinCore.Net.Connman
import BitcoinCore.Chain.BlockIndex
import BitcoinCore.Node.PeerQuality

/-!
# The state kept for a peer

`CNodeState` is what validation-related logic knows of a peer under `cs_main`,
and `Peer` is the part of the peer that block relay reads. Blocks are pointers
into the block index (the type `Block`), and relay quality is kept in numbers
of a type `R`.

`std::list` iterators are numbers that name a list node: `QueuedBlock.it` is
the iterator that points to the entry.
-/

namespace BitcoinCore.NetProcessing

open Net Chain Node

/-! ## Constants -/

/-- In seconds. -/
def headersResponseTime : ℤ := 2 * 60

/-- In seconds. -/
def chainSyncTimeout : ℤ := 20 * 60

/-- In seconds. -/
def minimumConnectTime : ℤ := 30

def maxBlocksInTransitPerPeer : ℕ := 16

def maxCmpctblocksInflightPerBlock : ℕ := 3

def blockDownloadWindow : ℕ := 1024

def nodeNetworkLimitedMinBlocks : ℕ := 288

/-! ## Peers -/

abbrev ServiceFlags := BitVec 64

def nodeNetwork : ServiceFlags := 1

def nodeWitness : ServiceFlags := 8

def nodeNetworkLimited : ServiceFlags := 1024

structure Peer where
  id : NodeId
  theirServices : ServiceFlags
  isInbound : Bool
  shouldDiscourage : Bool
  deriving DecidableEq, Repr

namespace Peer

def isLimitedPeer (peer : Peer) : Bool :=
  peer.theirServices &&& nodeNetwork = 0 && peer.theirServices &&& nodeNetworkLimited ≠ 0

def canServeWitnesses (peer : Peer) : Bool := peer.theirServices &&& nodeWitness ≠ 0

def misbehaving (peer : Peer) : Peer := { peer with shouldDiscourage := true }

end Peer

/-! ## Block downloads -/

/-- A block being reconstructed from a compact block. Of the reconstruction,
message processing reads only whether the header has been wiped. -/
structure PartiallyDownloadedBlock where
  headerIsNull : Bool
  deriving DecidableEq, Repr

structure QueuedBlock where
  it : ℕ
  hash : Uint256
  partialBlock : Option PartiallyDownloadedBlock
  deriving DecidableEq, Repr

/-- The state used to enforce the chain-sync timeout. Times are in seconds. -/
structure ChainSyncTimeoutState (Block : Type*) where
  timeout : ℤ
  workHeader : Option Block
  sentGetheaders : Bool
  protect : Bool
  deriving DecidableEq

structure CNodeState (Block R : Type*) where
  pindexBestKnownBlock : Option Block
  hashLastUnknownBlock : Uint256
  pindexLastCommonBlock : Option Block
  fSyncStarted : Bool
  stallingSince : ℤ
  qualityStallRecorded : Bool
  relayQuality : RelayQuality R
  vBlocksInFlight : List QueuedBlock
  downloadingSince : ℤ
  providesCmpctblocks : Bool
  chainSync : ChainSyncTimeoutState Block
  lastBlockAnnouncement : ℤ
  deriving DecidableEq

def CNodeState.initial {Block R : Type*} [Field R] [LinearOrder R] [Exp2 R] :
    CNodeState Block R where
  pindexBestKnownBlock := none
  hashLastUnknownBlock := 0
  pindexLastCommonBlock := none
  fSyncStarted := false
  stallingSince := 0
  qualityStallRecorded := false
  relayQuality := .empty
  vBlocksInFlight := []
  downloadingSince := 0
  providesCmpctblocks := false
  chainSync := ⟨0, none, false, false⟩
  lastBlockAnnouncement := 0

end BitcoinCore.NetProcessing
