import BitcoinCore.Lib.EarlyExit
import BitcoinCore.Pow
import BitcoinCore.Primitives.Block

/-!
# Header synchronisation that downloads twice

Headers of a chain whose work is unknown are downloaded twice. In the first phase
(`presync`) they are counted and thrown away, but for one bit of a salted hash at
every few heights. Once the chain has shown enough work, the second phase
(`redownload`) asks for the same headers again, compares them with the stored bits
and holds them back in a buffer. A header leaves the buffer when enough others have
passed the comparison after it, or when the redownloaded chain has itself reached
the required work.

Work is summed without the wrap-around at `2 ^ 256`, and heights without a bound.
-/

namespace BitcoinCore.HeadersSync

open EarlyExit

/-! ## Headers in the buffer -/

structure CompressedHeader where
  nVersion : BitVec 32
  hashMerkleRoot : Uint256
  nTime : BitVec 32
  nBits : BitVec 32
  nNonce : BitVec 32

namespace CompressedHeader

def ofHeader (hdr : CBlockHeader) : CompressedHeader where
  nVersion := hdr.nVersion
  hashMerkleRoot := hdr.hashMerkleRoot
  nTime := hdr.nTime
  nBits := hdr.nBits
  nNonce := hdr.nNonce

def getFullHeader (hdr : CompressedHeader) (hashPrevBlock : Uint256) : CBlockHeader where
  nVersion := hdr.nVersion
  hashPrevBlock := hashPrevBlock
  hashMerkleRoot := hdr.hashMerkleRoot
  nTime := hdr.nTime
  nBits := hdr.nBits
  nNonce := hdr.nNonce

theorem getFullHeader_ofHeader (hdr : CBlockHeader) :
    (ofHeader hdr).getFullHeader hdr.hashPrevBlock = hdr := rfl

end CompressedHeader

/-! ## The state of a synchronisation -/

/-- The block in the index that the headers build on. -/
structure ChainStart where
  getBlockHeader : CBlockHeader
  nHeight : ℕ
  nChainWork : ℕ

structure Setup where
  consensusParams : Consensus.Params
  commitmentPeriod : ℕ
  redownloadBufferSize : ℕ
  commitOffset : ℕ
  chainStart : ChainStart
  minimumRequiredWork : ℕ
  maxCommitments : ℕ
  getHash : CBlockHeader → Uint256
  hasher : Uint256 → BitVec 64
  commitmentPeriod_pos : 0 < commitmentPeriod

inductive DownloadState where
  | presync
  | redownload
  | final
  deriving DecidableEq

structure State where
  currentChainWork : ℕ
  headerCommitments : List Bool
  lastHeaderReceived : CBlockHeader
  currentHeight : ℕ
  redownloadedHeaders : List CompressedHeader
  redownloadBufferLastHeight : ℕ
  redownloadBufferLastHash : Uint256
  redownloadBufferFirstPrevHash : Uint256
  redownloadChainWork : ℕ
  processAllRemainingHeaders : Bool
  downloadState : DownloadState

structure ProcessingResult where
  powValidatedHeaders : List CBlockHeader
  success : Bool
  requestMore : Bool

namespace Setup

variable (sync : Setup) (state : State)

def startHash : Uint256 := sync.getHash sync.chainStart.getBlockHeader

def isCommitHeight (height : ℕ) : Bool := height % sync.commitmentPeriod = sync.commitOffset

def commitment (hdr : CBlockHeader) : Bool := (sync.hasher (sync.getHash hdr)).getLsbD 0

def newState : State where
  currentChainWork := sync.chainStart.nChainWork
  headerCommitments := []
  lastHeaderReceived := sync.chainStart.getBlockHeader
  currentHeight := sync.chainStart.nHeight
  redownloadedHeaders := []
  redownloadBufferLastHeight := 0
  redownloadBufferLastHash := 0
  redownloadBufferFirstPrevHash := 0
  redownloadChainWork := 0
  processAllRemainingHeaders := false
  downloadState := .presync

/-! ## The first phase -/

def validateAndProcessSingleHeader (cur : CBlockHeader) : State × Bool :=
  if state.downloadState ≠ .presync then (state, false)
  else
    let nextHeight := state.currentHeight + 1
    if !permittedDifficultyTransition sync.consensusParams nextHeight
        state.lastHeaderReceived.nBits cur.nBits then (state, false)
    else
      let committed : State :=
        if sync.isCommitHeight nextHeight then
          { state with headerCommitments := state.headerCommitments ++ [sync.commitment cur] }
        else state
      if sync.isCommitHeight nextHeight &&
          sync.maxCommitments < committed.headerCommitments.length then (committed, false)
      else
        ({ committed with
            currentChainWork := committed.currentChainWork + getBlockProof cur
            lastHeaderReceived := cur
            currentHeight := nextHeight }, true)

def startRedownload : State :=
  if sync.minimumRequiredWork ≤ state.currentChainWork then
    { state with
      redownloadedHeaders := []
      redownloadBufferLastHeight := sync.chainStart.nHeight
      redownloadBufferFirstPrevHash := sync.startHash
      redownloadBufferLastHash := sync.startHash
      redownloadChainWork := sync.chainStart.nChainWork
      downloadState := .redownload }
  else state

def validateAndStoreHeadersCommitments (headers : List CBlockHeader) : State × Bool :=
  match headers with
  | [] => (state, true)
  | first :: _ =>
    if state.downloadState ≠ .presync then (state, false)
    else if first.hashPrevBlock ≠ sync.getHash state.lastHeaderReceived then (state, false)
    else
      let proc := acceptAll sync.validateAndProcessSingleHeader state headers
      if proc.2 then (sync.startRedownload proc.1, true) else proc

/-! ## The second phase -/

/-- Compare a header with the next stored bit, if its height has one. -/
def checkCommitment (nextHeight : ℕ) (hdr : CBlockHeader) : State × Bool :=
  if !state.processAllRemainingHeaders && sync.isCommitHeight nextHeight then
    match state.headerCommitments with
    | [] => (state, false)
    | expectedCommitment :: remaining =>
      ({ state with headerCommitments := remaining },
        sync.commitment hdr == expectedCommitment)
  else (state, true)

def previousNBits : BitVec 32 :=
  match state.redownloadedHeaders.getLast? with
  | some back => back.nBits
  | none => sync.chainStart.getBlockHeader.nBits

def trackWork (hdr : CBlockHeader) : State :=
  let work := state.redownloadChainWork + getBlockProof hdr
  { state with
    redownloadChainWork := work
    processAllRemainingHeaders :=
      sync.minimumRequiredWork ≤ work || state.processAllRemainingHeaders }

def storeRedownloadedHeader (nextHeight : ℕ) (hdr : CBlockHeader) : State :=
  { state with
    redownloadedHeaders := state.redownloadedHeaders ++ [.ofHeader hdr]
    redownloadBufferLastHeight := nextHeight
    redownloadBufferLastHash := sync.getHash hdr }

def validateAndStoreRedownloadedHeader (hdr : CBlockHeader) : State × Bool :=
  let nextHeight := state.redownloadBufferLastHeight + 1
  if state.downloadState ≠ .redownload then (state, false)
  else if hdr.hashPrevBlock ≠ state.redownloadBufferLastHash then (state, false)
  else if !permittedDifficultyTransition sync.consensusParams nextHeight
      (sync.previousNBits state) hdr.nBits then (state, false)
  else
    let checked := sync.checkCommitment (sync.trackWork state hdr) nextHeight hdr
    if checked.2 then (sync.storeRedownloadedHeader checked.1 nextHeight hdr, true)
    else checked

/-- Headers taken from the front of the buffer with the hash before the first, what
stays in the buffer, and the hash before that. -/
def popReady (processAll : Bool) :
    Uint256 → List CompressedHeader → List CBlockHeader × List CompressedHeader × Uint256
  | prevHash, [] => ([], [], prevHash)
  | prevHash, front :: buffer =>
    if sync.redownloadBufferSize < (front :: buffer).length || processAll then
      let hdr := front.getFullHeader prevHash
      let rest := popReady processAll (sync.getHash hdr) buffer
      (hdr :: rest.1, rest.2)
    else ([], front :: buffer, prevHash)

def popHeadersReadyForAcceptance : State × List CBlockHeader :=
  if state.downloadState ≠ .redownload then (state, [])
  else
    let popped := sync.popReady state.processAllRemainingHeaders
      state.redownloadBufferFirstPrevHash state.redownloadedHeaders
    ({ state with
        redownloadedHeaders := popped.2.1
        redownloadBufferFirstPrevHash := popped.2.2 }, popped.1)

/-! ## Messages -/

def finalize : State :=
  { state with
    headerCommitments := []
    lastHeaderReceived := .null
    redownloadedHeaders := []
    redownloadBufferLastHash := 0
    redownloadBufferFirstPrevHash := 0
    processAllRemainingHeaders := false
    currentHeight := 0
    downloadState := .final }

def processPresync (receivedHeaders : List CBlockHeader)
    (fullHeadersMessage : Bool) : State × ProcessingResult :=
  let stored := sync.validateAndStoreHeadersCommitments state receivedHeaders
  (stored.1,
    { powValidatedHeaders := []
      success := stored.2
      requestMore := stored.2 && (fullHeadersMessage || stored.1.downloadState = .redownload) })

def processRedownload (receivedHeaders : List CBlockHeader)
    (fullHeadersMessage : Bool) : State × ProcessingResult :=
  let stored := acceptAll sync.validateAndStoreRedownloadedHeader state receivedHeaders
  if stored.2 then
    let popped := sync.popHeadersReadyForAcceptance stored.1
    let complete := popped.1.redownloadedHeaders.isEmpty && popped.1.processAllRemainingHeaders
    (popped.1,
      { powValidatedHeaders := popped.2
        success := true
        requestMore := !complete && fullHeadersMessage })
  else (stored.1, { powValidatedHeaders := [], success := false, requestMore := false })

def finalizeUnlessContinued (proc : State × ProcessingResult) : State × ProcessingResult :=
  if proc.2.success && proc.2.requestMore then proc
  else (finalize proc.1, proc.2)

def processNextHeaders (receivedHeaders : List CBlockHeader)
    (fullHeadersMessage : Bool) : State × ProcessingResult :=
  let ret : ProcessingResult :=
    { powValidatedHeaders := [], success := false, requestMore := false }
  if receivedHeaders.isEmpty then (state, ret)
  else
    match state.downloadState with
    | .final => (state, ret)
    | .presync =>
      finalizeUnlessContinued (sync.processPresync state receivedHeaders fullHeadersMessage)
    | .redownload =>
      finalizeUnlessContinued (sync.processRedownload state receivedHeaders fullHeadersMessage)

end Setup

end BitcoinCore.HeadersSync
