import BitcoinCore.Lib.CheckedAccess
import BitcoinCore.Lib.LazyRing
import BitcoinCore.NetProcessing.Messages
import BitcoinCore.Validation.BlockMutation

/-!
# Compact blocks

A compact block message has the header of a block, some of its transactions and
short ids for the others. `InitData` puts the transactions of the message into
the slots of a `PartiallyDownloadedBlock`, works out the slot of every short id,
and fills slots from the mempool and from a ring of extra transactions. The
receiver asks the sender for the slots that stay empty, and `FillBlock` completes
the block.

Subscripts, dereferences and signed additions are checked: a computation that the
source does not define ends in a `MemoryFault`.
-/

namespace BitcoinCore.BlockEncodings

open CheckedAccess Validation
open Consensus (maxBlockWeight)
open NetProcessing (ReadStatus)

/-- What the source does not define. -/
inductive MemoryFault where
  | outOfBounds
  | nullDereference
  | overflow
  deriving DecidableEq, Repr

abbrev CTransactionRef := Option CTransaction

def CTransactionRef.deref : CTransactionRef → Except MemoryFault CTransaction
  | some tx => .ok tx
  | none => .error .nullDereference

/-! ## The message -/

abbrev ShortTxIDSelector := CBlockHeader → BitVec 64 → Uint256 → BitVec 64

def shortID (selector : ShortTxIDSelector) (header : CBlockHeader) (nonce : BitVec 64)
    (wtxid : Uint256) : BitVec 64 :=
  selector header nonce wtxid &&& 0xffffffffffff#64

theorem shortID_lt (selector : ShortTxIDSelector) (header : CBlockHeader) (nonce : BitVec 64)
    (wtxid : Uint256) : (shortID selector header nonce wtxid).toNat < 2 ^ 48 := by
  rw [shortID, BitVec.toNat_and]
  exact lt_of_le_of_lt Nat.and_le_right (by decide)

/-- A transaction of the message. Its index is the number of slots skipped since
the transaction before it. -/
structure PrefilledTransaction where
  index : BitVec 16
  tx : CTransaction

structure CBlockHeaderAndShortTxIDs where
  header : CBlockHeader
  nonce : BitVec 64
  shorttxids : List (BitVec 64)
  prefilledtxn : List PrefilledTransaction
  shorttxids_lt : ∀ id ∈ shorttxids, id.toNat < 2 ^ 48
  blockTxCount_le : shorttxids.length + prefilledtxn.length ≤ 65535

namespace CBlockHeaderAndShortTxIDs

def blockTxCount (cmpctblock : CBlockHeaderAndShortTxIDs) : ℕ :=
  cmpctblock.shorttxids.length + cmpctblock.prefilledtxn.length

def getShortID (selector : ShortTxIDSelector) (cmpctblock : CBlockHeaderAndShortTxIDs)
    (wtxid : Uint256) : BitVec 64 :=
  shortID selector cmpctblock.header cmpctblock.nonce wtxid

/-- The message for a block. Only the first transaction is sent along. -/
def ofBlock (wtxid : CTransaction → Uint256) (selector : ShortTxIDSelector) (block : CBlock)
    (nonce : BitVec 64) (ne : block.vtx ≠ []) (fits : block.vtx.length ≤ 65535) :
    CBlockHeaderAndShortTxIDs where
  header := block.toCBlockHeader
  nonce := nonce
  shorttxids := block.vtx.tail.map fun tx => shortID selector block.toCBlockHeader nonce (wtxid tx)
  prefilledtxn := [{ index := 0, tx := block.vtx.head ne }]
  shorttxids_lt := by
    intro id mem
    obtain ⟨tx, -, rfl⟩ := List.mem_map.mp mem
    exact shortID_lt selector block.toCBlockHeader nonce (wtxid tx)
  blockTxCount_le := by
    have pos := List.length_pos_of_ne_nil ne
    rw [List.length_map, List.length_tail, List.length_singleton]
    omega

end CBlockHeaderAndShortTxIDs

/-! ## Initialisation -/

structure PartiallyDownloadedBlock where
  txnAvailable : List CTransactionRef := []
  prefilledCount : BitVec 64 := 0
  mempoolCount : BitVec 64 := 0
  extraCount : BitVec 64 := 0
  header : CBlockHeader := .null

/-- The hash table of short ids: how many of its keys are in the bucket of an id. -/
structure BucketSizes where
  bucketSize : List (BitVec 64) → BitVec 64 → ℕ
  bucketSize_le : ∀ keys id, bucketSize keys id ≤ keys.length

/-- The slot of every short id, in 16 bits. -/
abbrev ShortIDPositions := AList fun _ : BitVec 64 => ℕ

def minSerializableTransactionWeight : ℕ := 4 * 10

/-- Put the transactions of the message into their slots, from the `i`th on. The
answer is false if the message is invalid. -/
def placePrefilled (shortCount : ℕ) : List PrefilledTransaction → (i : ℕ) →
    (lastprefilledindex : ℤ) → List CTransactionRef →
    Except MemoryFault (Bool × List CTransactionRef)
  | [], _, _, txnAvailable => .ok (true, txnAvailable)
  | prefilled :: rest, i, lastprefilledindex, txnAvailable =>
    if prefilled.tx.isNull then .ok (false, txnAvailable)
    else
      let lastprefilledindex := lastprefilledindex + (prefilled.index.toNat + 1)
      if 2 ^ 31 ≤ lastprefilledindex then .error .overflow
      else if 65535 < lastprefilledindex then .ok (false, txnAvailable)
      else if shortCount + i < (lastprefilledindex % 2 ^ 32).toNat then .ok (false, txnAvailable)
      else do
        let txnAvailable ← writeAt .outOfBounds txnAvailable (lastprefilledindex % 2 ^ 64).toNat
          (some prefilled.tx)
        placePrefilled shortCount rest (i + 1) lastprefilledindex txnAvailable

def skipFilled : List CTransactionRef → Except MemoryFault ℕ
  | [] => .error .outOfBounds
  | none :: _ => .ok 0
  | some _ :: rest => do
    let skipped ← skipFilled rest
    .ok (skipped + 1)

/-- Assign the short ids, from the `i`th on, to the slots that are empty. The
answer is false if a bucket of the hash table gets too large. -/
def locateShortIDs (buckets : BucketSizes) (txnAvailable : List CTransactionRef) :
    List (BitVec 64) → (i indexOffset : ℕ) → ShortIDPositions →
    Except MemoryFault (Bool × ShortIDPositions)
  | [], _, _, shorttxids => .ok (true, shorttxids)
  | id :: ids, i, indexOffset, shorttxids => do
    let skipped ← skipFilled (txnAvailable.drop (i + indexOffset))
    let indexOffset := (indexOffset + skipped) % 2 ^ 16
    let shorttxids := shorttxids.insert id ((i + indexOffset) % 2 ^ 16)
    if 12 < buckets.bucketSize shorttxids.keys id then .ok (false, shorttxids)
    else locateShortIDs buckets txnAvailable ids (i + 1) indexOffset shorttxids

/-- The variables of the loops over the mempool and over the extra transactions. -/
structure Matching where
  txnAvailable : List CTransactionRef
  haveTxn : List Bool
  mempoolCount : BitVec 64
  extraCount : BitVec 64

/-- A transaction whose short id belongs to a slot. The first one fills the slot.
If a later one conflicts with it the slot is emptied, and it stays empty. The number
`extra` is what an extra transaction counts. -/
def offerAt (extra : BitVec 64) (cand : CTransactionRef)
    (confl : CTransaction → Except MemoryFault Bool) (place : ℕ) (matching : Matching) :
    Except MemoryFault Matching := do
  let haveTxn ← readAt .outOfBounds matching.haveTxn place
  if !haveTxn then
    let txnAvailable ← writeAt .outOfBounds matching.txnAvailable place cand
    let haveTxn ← writeAt .outOfBounds matching.haveTxn place true
    .ok { txnAvailable, haveTxn, mempoolCount := matching.mempoolCount + 1,
          extraCount := matching.extraCount + extra }
  else
    match ← readAt .outOfBounds matching.txnAvailable place with
    | none => .ok matching
    | some held =>
      if ← confl held then
        let txnAvailable ← writeAt .outOfBounds matching.txnAvailable place none
        .ok { matching with
              txnAvailable, mempoolCount := matching.mempoolCount - 1,
              extraCount := matching.extraCount - extra }
      else .ok matching

def offer (shorttxids : ShortIDPositions) (extra : BitVec 64) (shortid : BitVec 64)
    (cand : CTransactionRef) (confl : CTransaction → Except MemoryFault Bool)
    (matching : Matching) : Except MemoryFault Matching :=
  match shorttxids.lookup shortid with
  | none => .ok matching
  | some place => offerAt extra cand confl place matching

def allMatched (shorttxids : ShortIDPositions) (matching : Matching) : Bool :=
  matching.mempoolCount = BitVec.ofNat 64 shorttxids.keys.length

section

variable (wtxid : CTransaction → Uint256) (selector : ShortTxIDSelector) (buckets : BucketSizes)
  (cmpctblock : CBlockHeaderAndShortTxIDs) (pool : List CTransaction)

/-- Two transactions of the mempool with one short id always conflict. -/
def offerMempool (shorttxids : ShortIDPositions)
    (tx : CTransaction) : Matching → Except MemoryFault Matching :=
  offer shorttxids 0 (cmpctblock.getShortID selector (wtxid tx)) (some tx) fun _ => .ok true

/-- An extra transaction conflicts with one of another witness hash. -/
def offerExtra (shorttxids : ShortIDPositions)
    (extraTxn : Uint256 × CTransactionRef) : Matching → Except MemoryFault Matching :=
  offer shorttxids 1 (cmpctblock.getShortID selector extraTxn.1) extraTxn.2 fun held => do
    let tx ← extraTxn.2.deref
    .ok (wtxid held ≠ wtxid tx)

def matchTransactions (extraTxn : List (Uint256 × CTransactionRef))
    (cmpctblock : CBlockHeaderAndShortTxIDs) (shorttxids : ShortIDPositions)
    (matching : Matching) : Except MemoryFault Matching := do
  let matching ← runUntil (offerMempool wtxid selector cmpctblock shorttxids)
    (allMatched shorttxids) pool matching
  runUntil (offerExtra wtxid selector cmpctblock shorttxids) (allMatched shorttxids) extraTxn
    matching

def fillSlots (extraTxn : List (Uint256 × CTransactionRef))
    (cmpctblock : CBlockHeaderAndShortTxIDs) (self : PartiallyDownloadedBlock) :
    Except MemoryFault (ReadStatus × PartiallyDownloadedBlock) := do
  let (even, shorttxids) ← locateShortIDs buckets self.txnAvailable cmpctblock.shorttxids 0 0 ∅
  if !even then .ok (.failed, self)
  else if shorttxids.keys.length ≠ cmpctblock.shorttxids.length then .ok (.failed, self)
  else
    let matching ← matchTransactions wtxid selector pool extraTxn cmpctblock shorttxids
      { txnAvailable := self.txnAvailable
        haveTxn := List.replicate self.txnAvailable.length false
        mempoolCount := self.mempoolCount
        extraCount := self.extraCount }
    .ok (.ok, { self with
                txnAvailable := matching.txnAvailable
                mempoolCount := matching.mempoolCount
                extraCount := matching.extraCount })

/-- The transactions of the pool come in the order of `txns_randomized`, where each
stands with its own witness hash. -/
def initData (self : PartiallyDownloadedBlock)
    (cmpctblock : CBlockHeaderAndShortTxIDs) (extraTxn : List (Uint256 × CTransactionRef)) :
    Except MemoryFault (ReadStatus × PartiallyDownloadedBlock) :=
  if cmpctblock.header.isNull ||
      (cmpctblock.shorttxids.isEmpty && cmpctblock.prefilledtxn.isEmpty) then
    .ok (.invalid, self)
  else if maxBlockWeight / minSerializableTransactionWeight < cmpctblock.blockTxCount then
    .ok (.invalid, self)
  else if !self.header.isNull || !self.txnAvailable.isEmpty then .ok (.invalid, self)
  else do
    let (valid, txnAvailable) ← placePrefilled cmpctblock.shorttxids.length cmpctblock.prefilledtxn
      0 (-1) (List.replicate cmpctblock.blockTxCount none)
    let self := { self with header := cmpctblock.header, txnAvailable }
    if !valid then .ok (.invalid, self)
    else
      fillSlots wtxid selector buckets pool extraTxn cmpctblock
        { self with prefilledCount := BitVec.ofNat 64 cmpctblock.prefilledtxn.length }

end

/-! ## Completion -/

/-- Whether a slot is filled, or no answer if the assertion on the index fails. -/
def isTxAvailable (self : PartiallyDownloadedBlock) (index : ℕ) : Option Bool :=
  if self.header.isNull then some false
  else self.txnAvailable[index]?.map Option.isSome

/-- Move the known transactions out of the slots and take the others from
`vtxMissing`. If it has too few, the slots are left as they are then. -/
def fillTransactions : List CTransactionRef → (vtxMissing : List CTransaction) →
    Except (List CTransactionRef) (List CTransaction × List CTransaction)
  | [], vtxMissing => .ok ([], vtxMissing)
  | none :: slots, [] => .error (none :: slots)
  | none :: slots, tx :: vtxMissing =>
    match fillTransactions slots vtxMissing with
    | .error left => .error (none :: left)
    | .ok (vtx, unused) => .ok (tx :: vtx, unused)
  | some tx :: slots, vtxMissing =>
    match fillTransactions slots vtxMissing with
    | .error left => .error (none :: left)
    | .ok (vtx, unused) => .ok (tx :: vtx, unused)

/-- Complete the block. A block is returned when all slots could be filled. -/
def fillBlock (hashes : BlockHashes) (self : PartiallyDownloadedBlock)
    (vtxMissing : List CTransaction) (segwitActive : Bool) :
    ReadStatus × Option CBlock × PartiallyDownloadedBlock :=
  if self.header.isNull then (.invalid, none, self)
  else
    match fillTransactions self.txnAvailable vtxMissing with
    | .error left => (.invalid, none, { self with txnAvailable := left })
    | .ok (vtx, unused) =>
      let block : CBlock := { toCBlockHeader := self.header, vtx }
      let self := { self with header := .null, txnAvailable := [] }
      if !unused.isEmpty then (.invalid, some block, self)
      else
        let (mutated, block) := isBlockMutated hashes block segwitActive
        (if mutated then .failed else .ok, some block, self)

/-! ## The exchange -/

/-- The indexes that the receiver of a compact block asks for: the transactions that
are not available. -/
def missingIndexes (self : PartiallyDownloadedBlock) : ℕ → Option (List (BitVec 16))
  | 0 => some []
  | count + 1 => do
    let indexes ← missingIndexes self count
    let available ← isTxAvailable self count
    some (if available then indexes else indexes ++ [BitVec.ofNat 16 count])

/-- What the sender answers, or nothing if an index is out of bounds. -/
def sendBlockTransactions (block : CBlock) (indexes : List (BitVec 16)) :
    Option (List CTransaction) :=
  indexes.mapM fun index => block.vtx[index.toNat]?

/-! ## The ring of extra transactions -/

/-- Remember a transaction. The slots of the ring are allocated on the first call, with
the zero witness hash and a null pointer. -/
def addToCompactExtraTransactions (wtxid : CTransaction → Uint256) (maxExtraTxs : ℕ)
    (ring : LazyRing (Uint256 × CTransactionRef)) (tx : CTransaction) :
    LazyRing (Uint256 × CTransactionRef) :=
  ring.add maxExtraTxs (0, none) (wtxid tx, some tx)

end BitcoinCore.BlockEncodings
