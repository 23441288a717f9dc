import BitcoinCore.Node.OrphanEviction
import BitcoinCore.Primitives.Transaction
import BitcoinCore.TxRequest.Refinement

/-!
# The download of transactions

The manager of transaction downloads decides which announcements are requested. It holds
the request tracker, the orphanage, three filters of transactions that need no download,
and what is known about the connected peers.

A transaction is given by its wtxid. The answers of the mempool and of the filters may be
anything (`World`); a filter that is read exactly is a special case.

Announcements are added on behalf of other peers, when an orphan needs its parents.
-/

namespace BitcoinCore.TxDownload

open Net

/-! ## The code -/

/-- What a wtxid commits to. The txid of a transaction is the wtxid of the copy without its
witness. -/
structure Txs extends Orphanage.TxData Uint256 COutPoint where
  txid : Uint256 → Uint256
  hasWitness : Uint256 → Bool
  voutSize : Uint256 → ℕ
  txid_eq : ∀ wtxid, hasWitness wtxid = false → txid wtxid = wtxid
  stripped : ∀ wtxid, hasWitness (txid wtxid) = false

inductive Filter where
  | rejects
  | rejectsReconsiderable
  | confirmed

/-- What is outside of the manager at a call: the mempool, and how the filters answer for a
hash that is or is not in their set. -/
structure World where
  mempoolExists : TxRequest.GenTxid → Bool
  read : Filter → Uint256 → Bool → Bool

inductive TxValidationResult where
  | missingInputs
  | witnessStripped
  | reconsiderable
  | inputsNotStandard
  | other
  deriving DecidableEq

structure TxDownloadConnectionInfo where
  preferred : Bool
  relayPermissions : Bool
  wtxidRelay : Bool

inductive Fault where
  | tracker (failure : TxRequest.Failure)
  | orphanage (fault : Orphanage.Fault)

structure TxDownloadManager where
  txrequest : TxRequest.TxRequestTracker
  orphanage : Orphanage.TxOrphanage Uint256
  peerInfo : AList fun _ : NodeId => TxDownloadConnectionInfo
  numWtxidPeers : ℕ
  recentRejects : List Uint256
  recentRejectsReconsiderable : List Uint256
  recentConfirmed : List Uint256

def TxDownloadManager.new : TxDownloadManager := ⟨{}, .empty Uint256, ∅, 0, [], [], []⟩

def maxPeerTxRequestInFlight : ℕ := 100
def maxPeerTxAnnouncements : ℕ := 5000
def txidRelayDelay : ℤ := 2000000
def nonprefPeerTxDelay : ℤ := 2000000
def overloadedPeerTxDelay : ℤ := 2000000
def getdataTxInterval : ℤ := 60000000

section

variable {computer : TxRequest.PriorityComputer} (ord : TxRequest.Orders computer) (txs : Txs)
  (limits : Orphanage.Limits) (world : World)
  (mgr : TxDownloadManager) (nodeid : NodeId) (wtxid : Uint256)

def onTracker (op : TxRequest.Operation) (mgr : TxDownloadManager) :
    Except Fault TxDownloadManager :=
  match op.apply ord mgr.txrequest with
  | .error failure => .error (.tracker failure)
  | .ok txrequest => .ok { mgr with txrequest := txrequest }

def onOrphanage (op : Orphanage.Operation Uint256 COutPoint) (mgr : TxDownloadManager) :
    Except Fault TxDownloadManager :=
  match Orphanage.step txs.toTxData limits mgr.orphanage op with
  | .error fault => .error (.orphanage fault)
  | .ok orphanage => .ok { mgr with orphanage := orphanage }

def forget (mgr : TxDownloadManager) : Except Fault TxDownloadManager := do
  let mgr ← onTracker ord (.forgetTxHash (txs.txid wtxid)) mgr
  onTracker ord (.forgetTxHash wtxid) mgr

def TxDownloadManager.contains (filter : Filter) (hash : Uint256) : Bool :=
  world.read filter hash <|
    match filter with
    | .rejects => mgr.recentRejects.contains hash
    | .rejectsReconsiderable => mgr.recentRejectsReconsiderable.contains hash
    | .confirmed => mgr.recentConfirmed.contains hash

def alreadyHaveTx (gtxid : TxRequest.GenTxid) (includeReconsiderable : Bool) : Bool :=
  mgr.orphanage.haveTx gtxid.hash ||
    (includeReconsiderable && mgr.contains world .rejectsReconsiderable gtxid.hash) ||
    mgr.contains world .confirmed gtxid.hash || mgr.contains world .rejects gtxid.hash ||
    world.mempoolExists gtxid

def getUniqueParents : List Uint256 :=
  (((txs.prevouts wtxid).map COutPoint.hash).insertionSort fun a b => a.toNat ≤ b.toNat).dedup

def connectedPeer (info : TxDownloadConnectionInfo) (mgr : TxDownloadManager) :
    TxDownloadManager :=
  if (mgr.peerInfo.lookup nodeid).isSome then mgr
  else
    { mgr with
      peerInfo := mgr.peerInfo.insert nodeid info
      numWtxidPeers := if info.wtxidRelay then mgr.numWtxidPeers + 1 else mgr.numWtxidPeers }

def disconnectedPeer (nodeid : NodeId) (mgr : TxDownloadManager) :
    Except Fault TxDownloadManager := do
  let mgr ← onOrphanage txs limits (.eraseForPeer nodeid) mgr
  let mgr ← onTracker ord (.disconnectedPeer nodeid) mgr
  match mgr.peerInfo.lookup nodeid with
  | none => return mgr
  | some info =>
    return { mgr with
      peerInfo := mgr.peerInfo.erase nodeid
      numWtxidPeers := if info.wtxidRelay then mgr.numWtxidPeers - 1 else mgr.numWtxidPeers }

/-- The delay of a request, for an announcement by txid or by wtxid. -/
def requestDelay (nodeid : NodeId) (info : TxDownloadConnectionInfo) (byTxid : Bool) : ℤ :=
  (if info.preferred then 0 else nonprefPeerTxDelay) +
    (if byTxid && decide (0 < mgr.numWtxidPeers) then txidRelayDelay else 0) +
    (if !info.relayPermissions && decide (maxPeerTxRequestInFlight ≤ mgr.txrequest.countInFlight nodeid)
      then overloadedPeerTxDelay else 0)

def maybeAddOrphanResolutionCandidate (uniqueParents : List Uint256) (wtxid : Uint256) (nodeid : NodeId)
    (now : ℤ) (mgr : TxDownloadManager) : Except Fault (TxDownloadManager × Bool) :=
  match mgr.peerInfo.lookup nodeid with
  | none => .ok (mgr, false)
  | some info =>
    if mgr.orphanage.haveTxFromPeer wtxid nodeid then .ok (mgr, false)
    else if !info.relayPermissions &&
        decide (maxPeerTxAnnouncements < mgr.txrequest.count nodeid + uniqueParents.length) then
      .ok (mgr, false)
    else do
      let reqtime := now + requestDelay mgr nodeid info true
      let mgr ← uniqueParents.foldlM (fun mgr parent =>
        onTracker ord (.receivedInv nodeid ⟨false, parent⟩ info.preferred reqtime) mgr) mgr
      return (mgr, true)

def addTxAnnouncement (peer : NodeId) (gtxid : TxRequest.GenTxid) (now : ℤ)
    (mgr : TxDownloadManager) : Except Fault (TxDownloadManager × Bool) :=
  if gtxid.isWtxid && mgr.orphanage.haveTx gtxid.hash then do
    let uniqueParents := (getUniqueParents txs gtxid.hash).filter fun parent =>
      !alreadyHaveTx world mgr ⟨false, parent⟩ false
    if uniqueParents.isEmpty then return (mgr, true)
    let (mgr, added) ←
      maybeAddOrphanResolutionCandidate ord uniqueParents gtxid.hash peer now mgr
    let mgr ← if added then onOrphanage txs limits (.addAnnouncer gtxid.hash peer) mgr
      else .ok mgr
    return (mgr, true)
  else if alreadyHaveTx world mgr gtxid true then .ok (mgr, true)
  else
    match mgr.peerInfo.lookup peer with
    | none => .ok (mgr, false)
    | some info =>
      if !info.relayPermissions && decide (maxPeerTxAnnouncements ≤ mgr.txrequest.count peer) then
        .ok (mgr, false)
      else do
        let mgr ← onTracker ord (.receivedInv peer gtxid info.preferred
          (now + requestDelay mgr peer info (!gtxid.isWtxid))) mgr
        return (mgr, false)

def requestable (now : ℤ) (mgr : TxDownloadManager) : List TxRequest.GenTxid :=
  match mgr.txrequest.getRequestable ord nodeid now with
  | .error _ => []
  | .ok answers => answers.1

/-- The loop of `GetRequestsToSend`, with the requests that are sent. -/
def sendRequests (nodeid : NodeId) (now : ℤ) : List TxRequest.GenTxid → TxDownloadManager →
      Except Fault (TxDownloadManager × List TxRequest.GenTxid)
  | [], mgr => .ok (mgr, [])
  | gtxid :: gtxids, mgr =>
    if alreadyHaveTx world mgr gtxid false then do
      let mgr ← onTracker ord (.forgetTxHash gtxid.hash) mgr
      sendRequests nodeid now gtxids mgr
    else do
      let mgr ← onTracker ord (.requestedTx nodeid gtxid.hash (now + getdataTxInterval)) mgr
      let (mgr, requests) ← sendRequests nodeid now gtxids mgr
      return (mgr, gtxid :: requests)

def getRequestsToSend (now : ℤ) (mgr : TxDownloadManager) :
    Except Fault (TxDownloadManager × List TxRequest.GenTxid) := do
  let gtxids := requestable ord nodeid now mgr
  let mgr ← onTracker ord (.getRequestable nodeid now) mgr
  sendRequests ord world nodeid now gtxids mgr

def receivedNotFound (gtxids : List TxRequest.GenTxid) (mgr : TxDownloadManager) :
    Except Fault TxDownloadManager :=
  gtxids.foldlM (fun mgr gtxid => onTracker ord (.receivedResponse nodeid gtxid.hash) mgr)
    mgr

/-- What `ReceivedTx` changes, and whether the transaction is to be validated by itself. -/
def receivedTx (wtxid : Uint256) (mgr : TxDownloadManager) :
    Except Fault (TxDownloadManager × Bool) := do
  let mgr ← onTracker ord (.receivedResponse nodeid (txs.txid wtxid)) mgr
  let mgr ← if txs.hasWitness wtxid then onTracker ord (.receivedResponse nodeid wtxid) mgr
    else .ok mgr
  return (mgr, !alreadyHaveTx world mgr ⟨true, wtxid⟩ false &&
    !mgr.contains world .rejectsReconsiderable wtxid)

def children (wtxid : Uint256) : List Uint256 :=
  ((mgr.orphanage.orphans.map Orphanage.Announcement.wtxid).dedup).filter fun orphan =>
    (txs.prevouts orphan).any fun prevout =>
      decide (prevout.hash = txs.txid wtxid) && decide (prevout.n.toNat < txs.voutSize wtxid)

/-- `MempoolAcceptedTx`; `pick` chooses the announcer of each child that is reconsidered. -/
def mempoolAcceptedTx (pick : Uint256 → NodeId) (mgr : TxDownloadManager) :
    Except Fault TxDownloadManager := do
  let mgr ← forget ord txs wtxid mgr
  let mgr ← (children txs mgr wtxid).foldlM
    (fun mgr child => onOrphanage txs limits (.addToWorkSet child (pick child)) mgr) mgr
  onOrphanage txs limits (.eraseTx wtxid) mgr

/-- Whether the parents of an orphan have been rejected: one of them for good, or two of them
as reconsiderable. -/
def rejectedParents (mgr : TxDownloadManager) : List Uint256 → Bool → Bool
  | [], _ => false
  | parent :: parents, reconsiderable =>
    if mgr.contains world .rejects parent then true
    else if mgr.contains world .rejectsReconsiderable parent && !world.mempoolExists ⟨false, parent⟩
    then if reconsiderable then true else rejectedParents mgr parents true
    else rejectedParents mgr parents reconsiderable

def getCandidatePeers (txhash : Uint256) : List NodeId :=
  ((SortedList.fromBound (TxRequest.Announcement.txHashKey computer)
      (toLex (txhash.toNat, toLex (TxRequest.State.candidateDelayed.rank, 0)))
      (mgr.txrequest.byTxHash ord)).takeWhile fun ann =>
    decide (ann.txHash = txhash) && decide (ann.state ≠ .completed)).map TxRequest.Announcement.peer

def addOrphan (uniqueParents : List Uint256) (wtxid : Uint256) (now : ℤ) :
    List NodeId → TxDownloadManager → Except Fault TxDownloadManager
  | [], mgr => .ok mgr
  | nodeid :: nodeids, mgr => do
    let (mgr, added) ←
      maybeAddOrphanResolutionCandidate ord uniqueParents wtxid nodeid now mgr
    let mgr ← if added then onOrphanage txs limits (.addTx wtxid nodeid) mgr else .ok mgr
    addOrphan uniqueParents wtxid now nodeids mgr

def rejectedMissingInputs (nodeid : NodeId) (now : ℤ) (mgr : TxDownloadManager) :
    Except Fault TxDownloadManager :=
  let uniqueParents := getUniqueParents txs wtxid
  if rejectedParents world mgr uniqueParents false then
    forget ord txs wtxid { mgr with recentRejects := wtxid :: txs.txid wtxid :: mgr.recentRejects }
  else do
    let missing := uniqueParents.filter fun parent => !alreadyHaveTx world mgr ⟨false, parent⟩ false
    let candidates := nodeid :: (getCandidatePeers ord mgr (txs.txid wtxid) ++
      if txs.hasWitness wtxid then getCandidatePeers ord mgr wtxid else [])
    let mgr ← addOrphan ord txs limits missing wtxid now candidates mgr
    forget ord txs wtxid mgr

def mempoolRejectedTx (res : TxValidationResult) (nodeid : NodeId)
    (firstTimeFailure : Bool) (now : ℤ) (mgr : TxDownloadManager) :
    Except Fault TxDownloadManager :=
  match res with
  | .missingInputs =>
    if firstTimeFailure && !mgr.contains world .rejects wtxid then
      rejectedMissingInputs ord txs limits world wtxid nodeid now mgr
    else .ok mgr
  | .witnessStripped => onOrphanage txs limits (.eraseTx wtxid) mgr
  | .reconsiderable => do
    let mgr ← onTracker ord (.forgetTxHash wtxid)
      { mgr with recentRejectsReconsiderable := wtxid :: mgr.recentRejectsReconsiderable }
    onOrphanage txs limits (.eraseTx wtxid) mgr
  | .inputsNotStandard => do
    let mgr ← onTracker ord (.forgetTxHash wtxid)
      { mgr with recentRejects := wtxid :: mgr.recentRejects }
    let mgr ← if txs.hasWitness wtxid then
        onTracker ord (.forgetTxHash (txs.txid wtxid))
          { mgr with recentRejects := txs.txid wtxid :: mgr.recentRejects }
      else .ok mgr
    onOrphanage txs limits (.eraseTx wtxid) mgr
  | .other => do
    let mgr ← onTracker ord (.forgetTxHash wtxid)
      { mgr with recentRejects := wtxid :: mgr.recentRejects }
    onOrphanage txs limits (.eraseTx wtxid) mgr

def confirmAll : List Uint256 → TxDownloadManager → Except Fault TxDownloadManager
  | [], mgr => .ok mgr
  | wtxid :: vtx, mgr => do
    let confirmed := txs.txid wtxid :: mgr.recentConfirmed
    let mgr ← forget ord txs wtxid
      { mgr with recentConfirmed := if txs.hasWitness wtxid then wtxid :: confirmed else confirmed }
    confirmAll vtx mgr

def blockConnected (vtx : List Uint256) (mgr : TxDownloadManager) : Except Fault TxDownloadManager := do
  let mgr ← onOrphanage txs limits (.eraseForBlock (vtx.flatMap txs.prevouts)) mgr
  confirmAll ord txs vtx mgr

inductive Call where
  | activeTipChange
  | blockConnected (vtx : List Uint256)
  | blockDisconnected
  | connectedPeer (nodeid : NodeId) (info : TxDownloadConnectionInfo)
  | disconnectedPeer (nodeid : NodeId)
  | addTxAnnouncement (peer : NodeId) (gtxid : TxRequest.GenTxid) (now : ℤ)
  | getRequestsToSend (nodeid : NodeId) (now : ℤ)
  | receivedNotFound (nodeid : NodeId) (gtxids : List TxRequest.GenTxid)
  | mempoolAcceptedTx (wtxid : Uint256) (pick : Uint256 → NodeId)
  | mempoolRejectedTx (wtxid : Uint256) (res : TxValidationResult) (nodeid : NodeId)
      (firstTimeFailure : Bool) (now : ℤ)
  | mempoolRejectedPackage (packageHash : Uint256)
  | receivedTx (nodeid : NodeId) (wtxid : Uint256)
  | getTxToReconsider (nodeid : NodeId)

def call : Call → Except Fault TxDownloadManager
  | .activeTipChange => .ok { mgr with recentRejects := [], recentRejectsReconsiderable := [] }
  | .blockConnected vtx => blockConnected ord txs limits vtx mgr
  | .blockDisconnected => .ok { mgr with recentConfirmed := [] }
  | .connectedPeer nodeid info => .ok (connectedPeer nodeid info mgr)
  | .disconnectedPeer nodeid => disconnectedPeer ord txs limits nodeid mgr
  | .addTxAnnouncement peer gtxid now =>
    (addTxAnnouncement ord txs limits world peer gtxid now mgr).map Prod.fst
  | .getRequestsToSend nodeid now => (getRequestsToSend ord world nodeid now mgr).map Prod.fst
  | .receivedNotFound nodeid gtxids => receivedNotFound ord nodeid gtxids mgr
  | .mempoolAcceptedTx wtxid pick => mempoolAcceptedTx ord txs limits wtxid pick mgr
  | .mempoolRejectedTx wtxid res nodeid firstTimeFailure now =>
    mempoolRejectedTx ord txs limits world wtxid res nodeid firstTimeFailure now mgr
  | .mempoolRejectedPackage packageHash =>
    .ok { mgr with
      recentRejectsReconsiderable := packageHash :: mgr.recentRejectsReconsiderable }
  | .receivedTx nodeid wtxid => (receivedTx ord txs world nodeid wtxid mgr).map Prod.fst
  | .getTxToReconsider nodeid => onOrphanage txs limits (.getTxToReconsider nodeid) mgr

def run : List (World × Call) → TxDownloadManager → Except Fault TxDownloadManager
  | [], mgr => .ok mgr
  | (world, first) :: calls, mgr => do
    let mgr ← call ord txs limits world mgr first
    run calls mgr

def checkIsEmptyPeer (mgr : TxDownloadManager) : Bool :=
  decide (mgr.txrequest.count nodeid = 0) &&
    decide (((mgr.orphanage.peerOrphanageInfo.lookup nodeid).map
      Orphanage.PeerDoSInfo.totalUsage).getD 0 = 0)

def checkIsEmpty : Bool :=
  decide (mgr.orphanage.uniqueOrphanUsage = 0) && decide (mgr.orphanage.uniqueOrphans = 0) &&
    decide (mgr.txrequest.index.length = 0) && decide (mgr.numWtxidPeers = 0)

end

end BitcoinCore.TxDownload
