import BitcoinCore.NetProcessing.BlockAvailability
import BitcoinCore.NetProcessing.BlockChecked
import BitcoinCore.Lib.Provenance

/-!
# Block messages and their interleavings

One thread handles the messages of all peers, one after another. While it
handles a message it takes `cs_main` for a while, releases it, and takes it
again; in between, validation reports verdicts, nodes come and go, and blocks are
requested. A `MessageProcessor` is the peer manager together with what is
left of the message being handled (`Handler`), and every step is one critical
section.

Reconstruction of compact blocks and validation are not followed: what they
answer is part of the event.
-/

namespace BitcoinCore.NetProcessing

open Net Chain Node BlockDownloads

/-! ## Events -/

inductive ReadStatus where
  | ok
  | invalid
  | failed
  deriving DecidableEq, Repr

/-- What a handler reads of the rest of the node. The time is in microseconds. -/
structure MessageContext (Block : Type*) [DecidableEq Block] where
  chainman : ChainstateManager Block
  now : ℤ
  canDirectFetch : Bool

def MessageContext.getTime {Block : Type*} [DecidableEq Block] (ctx : MessageContext Block) :
    ℤ :=
  ctx.now / 1000000

/-- A compact block whose header has been accepted. `initData` is the status of
`InitData`, `allAvailable` says that no transaction is missing after it, and
`fillBlock` is the status of filling a block without further transactions. -/
structure CompactBlock (Block : Type*) where
  pfrom : CNode
  bip152HighbandwidthTo : Bool
  pindex : Block
  receivedNewHeader : Bool
  initData : ReadStatus
  allAvailable : Bool
  fillBlock : ReadStatus

/-- What becomes of the headers of a message: they are dropped, the peer
misbehaved in sending them, one of them is invalid, or they are accepted up to
the last one. -/
inductive HeadersResult (Block : Type*) where
  | dropped
  | misbehaving
  | invalid (state : BlockValidationState)
  | accepted (lastHeader : Block) (receivedNewHeader : Bool)

abbrev SuccessfulOutcome :=
  { out : CompactBlockOutcome // out ≠ .fullBlockFallback }

inductive Handler (Block : Type*) where
  | idle
  | processHeaders (pfrom : NodeId) (viaCompactBlock : Bool)
  | headersDirectFetch (pfrom : NodeId) (lastHeader : Block)
  | processCompactBlockTxns (pfrom : NodeId) (hash : Uint256) (out : SuccessfulOutcome)
  | blockReconstructed (pfrom : NodeId) (hash : Uint256) (pindex : Block)
  | processBlock (pfrom : NodeId) (hash : Uint256) (reconstructed : Option Block)
  | clearReconstructed (pfrom : NodeId) (hash : Uint256) (pindex : Block)

def Handler.peer {Block : Type*} : Handler Block → Option NodeId
  | .idle => none
  | .processHeaders pfrom _ => some pfrom
  | .headersDirectFetch pfrom _ => some pfrom
  | .processCompactBlockTxns pfrom _ _ => some pfrom
  | .blockReconstructed pfrom _ _ => some pfrom
  | .processBlock pfrom _ _ => some pfrom
  | .clearReconstructed pfrom _ _ => some pfrom

variable {Block R : Type*}

/-! ## Requests of a block -/

namespace BlockDownloads

variable (dl : BlockDownloads Block R)

def alreadyInFlight (hash : Uint256) : ℕ :=
  (dl.equalRange hash).length

/-- There is no request of the block, or the first in line is from the peer. -/
def firstInFlight (hash : Uint256) (id : NodeId) : Bool :=
  (dl.equalRange hash).head?.all (·.nodeId = id)

def requestedFrom (hash : Uint256) (id : NodeId) : Bool :=
  (dl.equalRange hash).any (·.nodeId = id)

def partialBlock (dl : BlockDownloads Block R) (entry : InFlight) :
    Option PartiallyDownloadedBlock :=
  (dl.queuedBlock entry).bind QueuedBlock.partialBlock

/-- The request of the block from the peer has a reconstruction, so that
`BlockRequested` makes no new request and the handler finds its `partialBlock`
set. -/
def alreadySyncing (hash : Uint256) (id : NodeId) : Bool :=
  ((dl.equalRange hash).find? (·.nodeId = id)).any fun entry =>
    (dl.partialBlock entry).isSome

/-- The request of the block from the peer that is being reconstructed. -/
def reconstruction (hash : Uint256) (id : NodeId) : Option (InFlight × PartiallyDownloadedBlock) :=
  (dl.equalRange hash).findSome? fun entry =>
    if entry.nodeId = id then (dl.partialBlock entry).map (entry, ·) else none

def setPartialBlock (id : NodeId) (it : ℕ)
    (reconstruction : PartiallyDownloadedBlock) : BlockDownloads Block R :=
  match dl.state id with
  | some state =>
    dl.setState id
      { state with
        vBlocksInFlight := state.vBlocksInFlight.map fun queued =>
          if queued.it = it then { queued with partialBlock := some reconstruction }
          else queued }
  | none => dl

variable {dl : BlockDownloads Block R}

theorem vBlocksInFlight_setState_of_eq {id : NodeId}
    {state state' : CNodeState Block R} (found : dl.state id = some state)
    (same : state'.vBlocksInFlight = state.vBlocksInFlight) :
    (dl.setState id state').vBlocksInFlight = dl.vBlocksInFlight := by
  funext other
  by_cases isId : other = id
  · subst isId
    simp only [BlockDownloads.state] at found
    simp [vBlocksInFlight, BlockDownloads.state, setState, found, same]
  · simp [vBlocksInFlight, BlockDownloads.state, setState, Finmap.lookup_insert_of_ne _ isId]

theorem queuedBlock_eq (entry : InFlight) : dl.queuedBlock entry =
      (dl.vBlocksInFlight entry.nodeId).find? fun queued => queued.it = entry.it := by
  rw [queuedBlock, vBlocksInFlight]
  cases dl.state entry.nodeId <;> rfl

theorem requestedFrom_of_reconstruction {hash : Uint256}
    {id : NodeId} {found : InFlight × PartiallyDownloadedBlock}
    (isFound : dl.reconstruction hash id = some found) : dl.requestedFrom hash id := by
  obtain ⟨entry, mem, isEntry⟩ := List.exists_of_findSome?_eq_some isFound
  split_ifs at isEntry with isPeer
  exact List.any_eq_true.mpr ⟨entry, mem, decide_eq_true isPeer⟩

end BlockDownloads

/-! ## Critical sections -/

namespace PeerManager

variable (manager : PeerManager Block R)

def isBlockRequestedFromOutbound (hash : Uint256) : Bool :=
  (manager.downloads.equalRange hash).any fun entry =>
    (manager.getPeerRef entry.nodeId).any fun peer => !peer.isInbound

def removeBlockRequest (manager : PeerManager Block R) (now : ℤ) (hash : Uint256)
    (fromPeer : Option NodeId) : Option (PeerManager Block R) :=
  (manager.downloads.removeBlockRequest now hash fromPeer).map fun dl =>
    { manager with downloads := dl }

def insertSource (hash : Uint256) (src : BlockSourceMetadata) : PeerManager Block R :=
  { manager with mapBlockSource := manager.mapBlockSource.insert hash src }

def processBlock (now : ℤ) (hash : Uint256) (newBlock : Bool) : Option (PeerManager Block R) :=
  if newBlock then
    manager.removeBlockRequest now hash none
  else some { manager with mapBlockSource := manager.mapBlockSource.erase hash }

variable [DecidableEq Block] (manager : PeerManager Block R) (dl : BlockDownloads Block R)

def headerReceived (ctx : MessageContext Block)
    (pfrom : NodeId) (pindex : Block) (receivedNewHeader : Bool) : Option (PeerManager Block R) :=
  (manager.state pfrom).map fun state =>
    let hash := (ctx.chainman.entry pindex).hash
    let state := state.updateBlockAvailability ctx.chainman hash
    let state :=
      if receivedNewHeader && (ctx.chainman.entry ctx.chainman.activeTip).nChainWork <
          (ctx.chainman.entry pindex).nChainWork then
        { state with lastBlockAnnouncement := ctx.getTime }
      else state
    { manager with downloads := manager.downloads.setState pfrom state }.recordCandidateAnnouncement
      pfrom hash

/-! ### Compact blocks -/

inductive CompactBlockBranch where
  | nothing
  | request
  | optimistic
  | revertToHeaderProcessing
  deriving DecidableEq, Repr

def compactBlockBranch (ctx : MessageContext Block)
    (msg : CompactBlock Block) : CompactBlockBranch :=
  let pindex := ctx.chainman.entry msg.pindex
  let tip := ctx.chainman.entry ctx.chainman.activeTip
  let id := msg.pfrom.id
  if pindex.haveData then .nothing
  -- We know something better, or had this block at some point but pruned it.
  else if pindex.nChainWork ≤ tip.nChainWork || pindex.nTx ≠ 0 then .nothing
  -- Not close to the tip yet: leave it to parallel block fetch.
  else if dl.alreadyInFlight pindex.hash = 0 && !ctx.canDirectFetch then .nothing
  else if pindex.nHeight ≤ tip.nHeight + 2 then
    if (dl.alreadyInFlight pindex.hash < maxCmpctblocksInflightPerBlock &&
        (dl.vBlocksInFlight id).length < maxBlocksInTransitPerPeer) ||
        dl.requestedFrom pindex.hash id then
      if dl.alreadySyncing pindex.hash id then .nothing else .request
    else .optimistic
  -- Far into the future: the block is fetched in full if it was requested.
  else if dl.requestedFrom pindex.hash id then .nothing
  else .revertToHeaderProcessing

theorem compactBlockBranch_congr {dl dl' : BlockDownloads Block R}
    (requests : dl'.mapBlocksInFlight = dl.mapBlocksInFlight)
    (queues : dl'.vBlocksInFlight = dl.vBlocksInFlight)
    (ctx : MessageContext Block) (msg : CompactBlock Block) : compactBlockBranch dl' ctx msg =
      compactBlockBranch dl ctx msg := by
  simp only [compactBlockBranch, alreadyInFlight, requestedFrom,
    alreadySyncing, partialBlock, queuedBlock_eq,
    equalRange, requests, queues]
  rfl

/-- A peer is asked for the missing transactions of a block if it is first in
line, or if it relays in high bandwidth and does not take the last slot from an
outbound peer. -/
def asksForTransactions (pre : BlockDownloads Block R)
    (hash : Uint256) (msg : CompactBlock Block) : Bool :=
  pre.firstInFlight hash msg.pfrom.id || (msg.bip152HighbandwidthTo &&
      (!msg.pfrom.isInboundConn || manager.isBlockRequestedFromOutbound hash ||
        pre.alreadyInFlight hash < maxCmpctblocksInflightPerBlock - 1))

def requestCompactBlock (now : ℤ) (hash : Uint256)
    (msg : CompactBlock Block) : Option (PeerManager Block R × Handler Block) := do
  let id := msg.pfrom.id
  let pre := manager.downloads
  let (dl, _, it) ← pre.blockRequested now id hash true
  match msg.initData with
  | .invalid => do
    let manager ← { manager with downloads := dl }.removeBlockRequest now hash (some id)
    return (manager.misbehaving id, .idle)
  | .failed =>
    if pre.firstInFlight hash id then
      let manager := { manager with downloads := dl.setPartialBlock id it ⟨false⟩ }
      return (manager.setCompactOutcome hash id .fullBlockFallback, .idle)
    else do
      let manager ← { manager with downloads := dl }.removeBlockRequest now hash (some id)
      return (manager, .idle)
  | .ok =>
    let manager := { manager with downloads := dl.setPartialBlock id it ⟨false⟩ }
    if msg.allAvailable then
      return (manager, .processCompactBlockTxns id hash ⟨.directReconstruction, by decide⟩)
    else if manager.asksForTransactions pre hash msg then return (manager, .idle)
    else do
      let manager ← manager.removeBlockRequest now hash (some id)
      return (manager, .idle)

def compactBlock (ctx : MessageContext Block)
    (msg : CompactBlock Block) : Option (PeerManager Block R × Handler Block) := do
  let id := msg.pfrom.id
  let hash := (ctx.chainman.entry msg.pindex).hash
  let manager ← manager.headerReceived ctx id msg.pindex msg.receivedNewHeader
  match compactBlockBranch manager.downloads ctx msg with
  | .nothing => return (manager, .idle)
  | .request => manager.requestCompactBlock ctx.now hash msg
  | .optimistic =>
    -- Without a round trip: the block is in flight from other peers.
    if msg.initData = .ok ∧ msg.fillBlock = .ok then
      return (manager, .blockReconstructed id hash msg.pindex)
    else return (manager, .idle)
  | .revertToHeaderProcessing => return (manager, .processHeaders id true)

omit [DecidableEq Block] in
/-- Complete a block with the missing transactions; `status` is the status of
`FillBlock`. -/
def processCompactBlockTxns (now : ℤ) (pfrom : NodeId)
    (hash : Uint256) (out : CompactBlockOutcome) (status : ReadStatus) :
    Option (PeerManager Block R × Handler Block) :=
  match manager.downloads.reconstruction hash pfrom with
  | none => some (manager, .idle)
  | some (entry, reconstruction) =>
    if reconstruction.headerIsNull then do
      -- An earlier attempt to fill the block has wiped the header.
      let manager ← manager.removeBlockRequest now hash (some pfrom)
      return (manager.misbehaving pfrom, .idle)
    else
      match status with
      | .invalid => do
        let manager ← manager.removeBlockRequest now hash (some pfrom)
        return (manager.misbehaving pfrom, .idle)
      | .failed =>
        if manager.downloads.firstInFlight hash pfrom then
          -- The failed reconstruction is kept, its header wiped, and the
          -- block is requested in full.
          let dl := manager.downloads.setPartialBlock pfrom entry.it ⟨true⟩
          some ({ manager with downloads := dl }.setCompactOutcome hash pfrom .fullBlockFallback, .idle)
        else do
          let manager ← manager.removeBlockRequest now hash (some pfrom)
          return (manager, .idle)
      | .ok => do
        let manager ← manager.removeBlockRequest now hash (some pfrom)
        return (manager.insertSource hash ⟨pfrom, false, true, some out⟩,
          .processBlock pfrom hash none)

/-! ### Headers and full blocks -/

/-- The walk of `HeadersDirectFetchBlocks` back from the last header, with a bound
on its number of rounds: the block it ends at, and the blocks to fetch, earliest
first. -/
def walkToActiveChain (dl : BlockDownloads Block R) (chainman : ChainstateManager Block)
    (peer : Peer) : ℕ → Option Block → List Block → Option Block × List Block
  | _, none, vToFetch => (none, vToFetch)
  | 0, some pindexWalk, vToFetch => (some pindexWalk, vToFetch)
  | rounds + 1, some pindexWalk, vToFetch =>
    if chainman.activeChain.contains pindexWalk ∨
        maxBlocksInTransitPerPeer < vToFetch.length then
      (some pindexWalk, vToFetch)
    else
      let entry := chainman.entry pindexWalk
      let wanted := !entry.haveData && !dl.isBlockRequested entry.hash &&
        (!chainman.segwitActiveAt pindexWalk || peer.canServeWitnesses)
      walkToActiveChain dl chainman peer rounds entry.pprev
        (if wanted then pindexWalk :: vToFetch else vToFetch)

/-- The hashes that `HeadersDirectFetchBlocks` requests, in this order. -/
def headersToFetch (ctx : MessageContext Block) (peer : Peer) (lastHeader : Block) : List Uint256 :=
  let chainman := ctx.chainman
  let entry := chainman.entry lastHeader
  if ctx.canDirectFetch && entry.isValid blockValidTree &&
      (chainman.entry chainman.activeTip).nChainWork ≤ entry.nChainWork then
    let (pindexWalk, vToFetch) :=
      walkToActiveChain dl chainman peer (entry.nHeight + 1) (some lastHeader) []
    if pindexWalk.any chainman.activeChain.contains then
      vToFetch.map fun pindex => (chainman.entry pindex).hash
    else []
  else []

def headersDirectFetchBlocks (ctx : MessageContext Block)
    (pfrom : NodeId) (lastHeader : Block) : Option (PeerManager Block R) :=
  (manager.getPeerRef pfrom).bind fun peer =>
    (manager.downloads.directFetch ctx.now pfrom
      (headersToFetch manager.downloads ctx peer lastHeader)).map fun dl =>
        { manager with downloads := dl }

/-- `ProcessHeadersMessage`, up to the state kept for the peer. -/
def processHeadersMessage (ctx : MessageContext Block)
    (pfrom : NodeId) (viaCompactBlock : Bool) (res : HeadersResult Block) :
    Option (PeerManager Block R × Handler Block) :=
  match res with
  | .dropped => some (manager, .idle)
  | .misbehaving => some (manager.misbehaving pfrom, .idle)
  | .invalid state => some (manager.maybePunishNodeForBlock pfrom state viaCompactBlock, .idle)
  | .accepted lastHeader receivedNewHeader => do
    let manager ← manager.headerReceived ctx pfrom lastHeader receivedNewHeader
    return (manager, .headersDirectFetch pfrom lastHeader)

omit [DecidableEq Block] in
def block (now : ℤ) (pfrom : NodeId) (hash : Uint256)
    (mutated : Bool) : Option (PeerManager Block R × Handler Block) :=
  if mutated then do
    let manager ← (manager.misbehaving pfrom).removeBlockRequest now hash (some pfrom)
    return (manager, .idle)
  else do
    let wasRequested := manager.downloads.requestedFrom hash pfrom
    let manager ← manager.removeBlockRequest now hash (some pfrom)
    -- Keep the outcome of the same peer's earlier attempt at reconstruction.
    let compactOutcome := ((manager.mapBlockSource.lookup hash).filter (·.peerId = pfrom)).bind BlockSourceMetadata.compactOutcome
    return (manager.insertSource hash ⟨pfrom, true, wasRequested, compactOutcome⟩,
      .processBlock pfrom hash none)

end PeerManager

/-! ## Runs -/

/-- The events that move the processor by one critical section: connections,
verdicts on blocks from peers or submitted locally, requests that are not made for
a message, messages, and further sections of the message being handled. -/
inductive Event (Block : Type*) [DecidableEq Block] where
  | initializeNode (peer : Peer)
  | finalizeNode (id : NodeId)
  | blockChecked (ctx : CheckedContext) (hash : Uint256) (state : BlockValidationState)
  | sendMessages (now : ℤ) (id : NodeId) (hashes : List Uint256)
  | fetchBlock (now : ℤ) (id : NodeId) (hash : Uint256)
  | compactBlockRefused (pfrom : NodeId) (state : BlockValidationState)
  | compactBlock (ctx : MessageContext Block) (msg : CompactBlock Block)
  | blocktxn (pfrom : NodeId) (hash : Uint256)
  | headers (pfrom : NodeId)
  | block (now : ℤ) (pfrom : NodeId) (hash : Uint256) (mutated : Bool)
  | processHeaders (ctx : MessageContext Block) (res : HeadersResult Block)
  | headersDirectFetch (ctx : MessageContext Block)
  | processCompactBlockTxns (now : ℤ) (fillBlock : ReadStatus)
  | blockReconstructed
  | processBlock (now : ℤ) (newBlock : Bool)
  | clearReconstructed (ctx : MessageContext Block)

structure MessageProcessor (Block R : Type*) where
  manager : PeerManager Block R
  handler : Handler Block

namespace MessageProcessor

variable [DecidableEq Block]

def initial : MessageProcessor Block R := ⟨.initial, .idle⟩

def ofSection (res : PeerManager Block R × Handler Block) : MessageProcessor Block R :=
  ⟨res.1, res.2⟩

def withManager (proc : MessageProcessor Block R) (manager : PeerManager Block R) :
    MessageProcessor Block R :=
  { proc with manager }

variable [Field R] [LinearOrder R] [Exp2 R]

/-- One step. No step is possible from a handler in another section, or if an
assertion fails. -/
def step (proc : MessageProcessor Block R) (event : Event Block) :
    Option (MessageProcessor Block R) :=
  let manager := proc.manager
  match event, proc.handler with
  | .initializeNode peer, _ => some (proc.withManager (manager.initializeNode peer))
  | .finalizeNode id, handler =>
    -- The message thread keeps the node it works for.
    if handler.peer = some id then none
    else (manager.finalizeNode id).map proc.withManager
  | .blockChecked ctx hash state, _ =>
    some (proc.withManager (manager.blockChecked ctx hash state).1)
  | .sendMessages now id hashes, _ =>
    if hashes.all fun hash => !manager.downloads.isBlockRequested hash then
      (manager.downloads.requestBlocks now id hashes).map fun dl =>
        proc.withManager { manager with downloads := dl }
    else none
  | .fetchBlock now id hash, _ =>
    (manager.downloads.fetchBlock now id hash).map fun dl =>
      proc.withManager { manager with downloads := dl }
  | .compactBlockRefused pfrom state, .idle =>
    some (proc.withManager (manager.maybePunishNodeForBlock pfrom state true))
  | .compactBlock ctx msg, .idle => (manager.compactBlock ctx msg).map ofSection
  | .blocktxn pfrom hash, .idle =>
    some ⟨manager, .processCompactBlockTxns pfrom hash ⟨.afterBlocktxn, by decide⟩⟩
  | .headers pfrom, .idle => some ⟨manager, .processHeaders pfrom false⟩
  | .block now pfrom hash mutated, .idle => (manager.block now pfrom hash mutated).map ofSection
  | .processHeaders ctx res, .processHeaders pfrom viaCompactBlock =>
    (manager.processHeadersMessage ctx pfrom viaCompactBlock res).map ofSection
  | .headersDirectFetch ctx, .headersDirectFetch pfrom lastHeader =>
    (manager.headersDirectFetchBlocks ctx pfrom lastHeader).map fun manager =>
      ⟨manager, .idle⟩
  | .processCompactBlockTxns now fillBlock, .processCompactBlockTxns pfrom hash out =>
    (manager.processCompactBlockTxns now pfrom hash out.val fillBlock).map ofSection
  | .blockReconstructed, .blockReconstructed pfrom hash pindex =>
    some ⟨manager.insertSource hash ⟨pfrom, false, false, some .directReconstruction⟩,
      .processBlock pfrom hash (some pindex)⟩
  | .processBlock now newBlock, .processBlock pfrom hash reconstructed =>
    (manager.processBlock now hash newBlock).map fun manager =>
      ⟨manager, reconstructed.elim .idle (.clearReconstructed pfrom hash)⟩
  | .clearReconstructed ctx, .clearReconstructed _ hash pindex =>
    if (ctx.chainman.entry pindex).isValid blockValidTransactions then
      (manager.removeBlockRequest ctx.now hash none).map fun manager => ⟨manager, .idle⟩
    else some ⟨manager, .idle⟩
  | _, _ => none

end MessageProcessor

end BitcoinCore.NetProcessing
