import BitcoinCore.BlockEncodings.MemorySafety

/-!
# Compact block relay from end to end

The sender makes a compact block of a block, the receiver initialises its slots and
asks for the transactions that it has not found, the sender answers, and the
receiver completes the block.

The answer is exactly what the slots lack, so the completed block has the length of
the original (`fillTransactions_missing`), and `FillBlock` never finds the answer
invalid. A slot may hold the wrong transaction, since short ids collide; then the
block is found mutated, provided that the original agrees with the Merkle root of
its header (`compactBlock_relay`).
-/

namespace BitcoinCore.BlockEncodings

open List CBlockHeaderAndShortTxIDs CBlockHeader BitVec Function Initialised Consensus

variable {self : PartiallyDownloadedBlock}

open CheckedAccess SparseSlots Validation PairedLevels
open NetProcessing (ReadStatus)

/-! ## The exchange -/

theorem missingIndexes_eq (hdr : self.header.isNull = false)
    {count : ℕ} (bound : count ≤ self.txnAvailable.length) : missingIndexes self count =
      some (((range count).filter fun idx =>
        self.txnAvailable[idx]?.join.isNone).map (BitVec.ofNat 16)) := by
  induction count with
  | zero => rfl
  | succ count ih =>
    have isIn : count < self.txnAvailable.length := bound
    have available : isTxAvailable self count = some (self.txnAvailable[count]).isSome := by
      rw [isTxAvailable, hdr, List.getElem?_eq_getElem isIn]
      rfl
    rw [missingIndexes, ih (by omega), available, range_succ, filter_append, map_append]
    cases slot : self.txnAvailable[count] with
    | none => simp [List.getElem?_eq_getElem isIn, slot]
    | some tx => simp [List.getElem?_eq_getElem isIn, slot]

theorem mapM_eq_some_of_map {α β : Type} {f : α → Option β} {elems : List α} {images : List β}
    (same : elems.map f = images.map some) : elems.mapM f = some images := by
  induction elems generalizing images with
  | nil =>
    obtain rfl : images = [] := by simpa using same.symm
    rfl
  | cons element elems ih =>
    cases images with
    | nil => cases same
    | cons image images =>
      rw [map_cons, map_cons, cons.injEq] at same
      rw [mapM_cons, same.1, ih same.2]
      rfl

variable {slots : List CTransactionRef}

theorem sendBlockTransactions_eq {block : CBlock}
    (lengths : slots.length = block.vtx.length) (fits : block.vtx.length ≤ 65535) :
    sendBlockTransactions block ((vacantIndexes slots).map (BitVec.ofNat 16)) =
      some (missing slots block.vtx) := by
  refine mapM_eq_some_of_map ?_
  rw [map_map, ← getElem?_vacantIndexes lengths]
  refine map_congr_left fun idx mem => ?_
  have bound := lt_length_of_mem_vacantIndexes mem
  rw [comp_apply, toNat_ofNat, Nat.mod_eq_of_lt (by omega)]

/-- The answer fills the slots. -/
theorem fillTransactions_missing {vtx : List CTransaction} (lengths : slots.length = vtx.length) :
    fillTransactions slots (missing slots vtx) = .ok (overlay slots vtx, []) := by
  induction slots generalizing vtx with
  | nil => rfl
  | cons slot slots ih =>
    cases vtx with
    | nil => cases lengths
    | cons tx vtx =>
      have rest := ih (Nat.succ.inj lengths)
      cases slot with
      | none =>
        simp only [missing, fillTransactions, rest]
        rfl
      | some held =>
        simp only [missing, fillTransactions, rest]
        rfl

def completedBlock (self : PartiallyDownloadedBlock) (vtx : List CTransaction) : CBlock :=
  { toCBlockHeader := self.header, vtx := overlay self.txnAvailable vtx }

theorem Initialised.coinbase {wtxid : CTransaction → Uint256} {selector : ShortTxIDSelector}
    {block : CBlock} {nonce : BitVec 64} {ne : block.vtx ≠ []} {fits : block.vtx.length ≤ 65535}
    (initialised : Initialised (.ofBlock wtxid selector block nonce ne fits) self) :
    self.txnAvailable[0]? = some (some (block.vtx.head ne)) := by
  obtain ⟨slots, placed, keeps⟩ := initialised.placed
  refine keeps.2 0 _ ?_
  obtain ⟨place, first, bound, rest⟩ := placePrefilled_cons (by decide) placed
  obtain rfl : place = 0 := by
    have zero : (place : ℤ) = -1 + ((0 : ℕ) + 1) := first
    omega
  rw [placePrefilled, Except.ok.injEq, Prod.mk.injEq] at rest
  rw [← rest.2, getElem?_set_self bound]

/-! ## Relay -/

section

variable (hashes : BlockHashes) (selector : ShortTxIDSelector) (buckets : BucketSizes)

section

variable {hashes selector} {block : CBlock} {nonce : BitVec 64} {ne : block.vtx ≠ []}
  {fits : block.vtx.length ≤ 65535} {partialBlock : PartiallyDownloadedBlock}

variable (initialised : Initialised (.ofBlock hashes.wtxid selector block nonce ne fits) partialBlock)
include initialised

theorem Initialised.lengths : partialBlock.txnAvailable.length = block.vtx.length := by
  have positive := length_pos_of_ne_nil ne
  rw [initialised.length, blockTxCount, ofBlock, length_map, length_tail, length_singleton]
  omega

theorem Initialised.completed :
    (completedBlock partialBlock block.vtx).toCBlockHeader = block.toCBlockHeader ∧
      (completedBlock partialBlock block.vtx).vtx.length = block.vtx.length ∧
      (completedBlock partialBlock block.vtx).vtx.head? = block.vtx.head? := by
  refine ⟨initialised.header, length_overlay initialised.lengths, ?_⟩
  rw [head?_eq_getElem?, head?_eq_some_head ne]
  exact getElem?_overlay_of_filled initialised.lengths initialised.coinbase

end

/-- Compact block relay. The receiver of a compact block can ask for the slots that
are not available and gets an answer, and then the block is completed or found mutated.
If it is completed, it has the transaction ids of the original, provided that the
original agrees with its header; and the transactions, if the original commits to its
witnesses. It is completed if all available slots hold transactions of the original
and the original is not found mutated. -/
theorem compactBlock_relay (block : CBlock) (ne : block.vtx ≠ [])
    (fits : block.vtx.length ≤ 65535) (nonce : BitVec 64) (pool extra : List CTransaction)
    (partialBlock : PartiallyDownloadedBlock)
    (initialises : initData hashes.wtxid selector buckets pool {}
      (.ofBlock hashes.wtxid selector block nonce ne fits)
      (extra.map (extraEntry hashes.wtxid)) = .ok (.ok, partialBlock)) :
    ∃ indexes vtxMissing, missingIndexes partialBlock (ofBlock hashes.wtxid selector block nonce ne
          fits).blockTxCount = some indexes ∧
      sendBlockTransactions block indexes = some vtxMissing ∧ ∀ segwitActive : Bool,
        let (status, result, _) := fillBlock hashes partialBlock vtxMissing segwitActive
        status ≠ .invalid ∧
        (status = .ok → (blockMerkleRoot hashes block).1 = block.hashMerkleRoot →
          ∃ filled, result = some filled ∧ (NoPairCollision hashes block filled →
              filled.vtx.map hashes.txid = block.vtx.map hashes.txid ∧
              (segwitActive → startsWithCoinBase block → CommitsToWitnesses hashes block →
                Set.InjOn hashes.wtxid {tx | tx ∈ block.vtx ∨ tx ∈ filled.vtx} →
                filled.vtx = block.vtx))) ∧
        ((∀ (idx : ℕ) (tx : CTransaction),
            partialBlock.txnAvailable[idx]? = some (some tx) → block.vtx[idx]? = some tx) →
          ChecksRecorded hashes block → (isBlockMutated hashes block segwitActive).1 = false →
          status = .ok) := by
  have noNull : ∀ entry ∈ extra.map (extraEntry hashes.wtxid), entry.2 = none → False := by
    intro entry mem null
    obtain ⟨tx, -, rfl⟩ := mem_map.mp mem
    cases null
  have initialised : Initialised (.ofBlock hashes.wtxid selector block nonce ne fits)
      partialBlock :=
    (outcome_initData (fun _ => False) hashes.wtxid selector buckets pool _ noNull {}).of_ok
      initialises rfl
  have hdr : partialBlock.header.isNull = false := by
    rw [initialised.header]
    exact initialised.notNull
  refine ⟨_, _, ?_, sendBlockTransactions_eq initialised.lengths fits, fun segwitActive => ?_⟩
  · rw [← initialised.length]
    exact missingIndexes_eq hdr le_rfl
  obtain ⟨sameHeader, sameLength, sameFirst⟩ := initialised.completed
  have checks : (isBlockMutated hashes (completedBlock partialBlock block.vtx) segwitActive).1 =
      false ↔ Unmutated hashes (completedBlock partialBlock block.vtx) segwitActive :=
    isBlockMutated_eq_false_iff (.of_unchecked rfl rfl) segwitActive
  obtain ⟨frameHeader, frameVtx⟩ :=
    isBlockMutated_frame hashes (completedBlock partialBlock block.vtx) segwitActive
  simp only [fillBlock, hdr, fillTransactions_missing initialised.lengths]
  rw [← completedBlock]
  generalize isBlockMutated hashes (completedBlock partialBlock block.vtx) segwitActive = checked
    at checks frameHeader frameVtx ⊢
  obtain ⟨mutated, filled⟩ := checked
  simp only at checks frameHeader frameVtx ⊢
  refine ⟨?_, ?_, ?_⟩
  · cases mutated <;> simp
  · intro succeeds commits
    refine ⟨filled, rfl, fun free => ?_⟩
    obtain rfl : mutated = false := by
      cases mutated with
      | false => rfl
      | true => cases succeeds
    have root : filled.hashMerkleRoot = block.hashMerkleRoot :=
      congrArg hashMerkleRoot (frameHeader.trans sameHeader)
    have unmutated : Unmutated hashes filled segwitActive :=
      (checks.mp rfl).congr (congrArg hashMerkleRoot frameHeader) frameVtx
    rw [← frameVtx] at sameLength sameFirst
    refine ⟨txids_eq_of_merkleRootMatches root commits ne sameLength unmutated.merkleRoot free,
      fun active first committed injective => ?_⟩
    rw [active] at unmutated
    exact vtx_eq_of_commitsToWitnesses sameFirst sameLength committed
      (unmutated.commitsToWitnesses sameFirst first committed) free injective
  · intro agree recorded notMutated
    have vtx : (completedBlock partialBlock block.vtx).vtx = block.vtx :=
      overlay_eq_of_agree initialised.lengths agree
    have unmutated := ((isBlockMutated_eq_false_iff recorded segwitActive).mp notMutated).congr
      (congrArg hashMerkleRoot sameHeader) vtx
    rw [checks.mpr unmutated]
    rfl

end

/-! ## Two runs -/

def lockedTx (prevout : COutPoint) (nLockTime : BitVec 32) : CTransaction :=
  { version := 2, vin := [⟨prevout, [], 0, []⟩], vout := [⟨1, []⟩], nLockTime }

def lockTimeHashes : BlockHashes where
  txid tx := tx.nLockTime.setWidth 256 + 1
  wtxid tx := tx.nLockTime.setWidth 256 + 1
  pairHash left right := 16 * left + right

/-- A coinbase and a transaction of a given lock time, under the header of the block
with lock time 2. -/
def pairBlock (nLockTime : BitVec 32) : CBlock where
  toCBlockHeader := { null with hashMerkleRoot := 19, nBits := 1 }
  vtx := [lockedTx ⟨0, 0xffffffff⟩ 0, lockedTx ⟨1, 0⟩ nLockTime]

def oneBucket : BucketSizes := ⟨fun keys _ => keys.length, fun _ _ => le_rfl⟩

def pairMessage (nLockTime : BitVec 32) : CBlockHeaderAndShortTxIDs :=
  .ofBlock lockTimeHashes.wtxid (fun _ _ _ => 0) (pairBlock nLockTime) 0 (by simp [pairBlock])
    (by simp [pairBlock])

/-- The transaction of lock time 2 is asked for and the block is completed. -/
theorem compactBlock_relay_pair : ∃ partialBlock indexes vtxMissing,
      initData lockTimeHashes.wtxid (fun _ _ _ => 0) oneBucket [] {} (pairMessage 2) [] =
        .ok (.ok, partialBlock) ∧
      missingIndexes partialBlock (pairMessage 2).blockTxCount = some indexes ∧
      sendBlockTransactions (pairBlock 2) indexes = some vtxMissing ∧
      ∀ segwitActive, (fillBlock lockTimeHashes partialBlock vtxMissing segwitActive).1 = .ok := by
  have initialises : initData lockTimeHashes.wtxid (fun _ _ _ => 0) oneBucket [] {}
      (pairMessage 2) [] = .ok (.ok,
        { txnAvailable := [some (lockedTx ⟨0, 0xffffffff⟩ 0), none], prefilledCount := 1,
          header := (pairBlock 2).toCBlockHeader }) := rfl
  obtain ⟨indexes, vtxMissing, asked, answered, filled⟩ :=
    compactBlock_relay lockTimeHashes (fun _ _ _ => 0) oneBucket (pairBlock 2)
      (by simp [pairBlock]) (by simp [pairBlock]) 0 [] [] _ initialises
  refine ⟨_, indexes, vtxMissing, initialises, asked, answered, fun segwitActive =>
    (filled segwitActive).2.2 ?_ (.of_unchecked rfl rfl) ?_⟩
  · intro idx tx found
    match idx with
    | 0 => exact (Option.some.inj found)
    | 1 => cases found
    | _ + 2 => cases found
  · cases segwitActive <;> decide

/-- A block that does not agree with its header: the short id of its transaction is
also that of a transaction of the mempool, and the header has the root of the block
with the latter. -/
theorem compactBlock_relay_uncommitted : ∃ partialBlock filled self,
      initData lockTimeHashes.wtxid (fun _ _ _ => 0) oneBucket [lockedTx ⟨1, 0⟩ 2] {}
        (pairMessage 1) [] = .ok (.ok, partialBlock) ∧
      missingIndexes partialBlock (pairMessage 1).blockTxCount = some [] ∧
      sendBlockTransactions (pairBlock 1) [] = some [] ∧
      fillBlock lockTimeHashes partialBlock [] true = (.ok, some filled, self) ∧
      NoPairCollision lockTimeHashes (pairBlock 1) filled ∧
      Set.InjOn lockTimeHashes.txid {tx | tx ∈ (pairBlock 1).vtx ∨ tx ∈ filled.vtx} ∧
      filled.vtx.map lockTimeHashes.txid ≠ (pairBlock 1).vtx.map lockTimeHashes.txid := by
  refine ⟨_, { pairBlock 2 with mCheckedMerkleRoot := true }, _, rfl, rfl, rfl, rfl, ?_, ?_,
    by decide⟩
  · have pairs : checkedPairs lockTimeHashes (pairBlock 1) = [(1, 2), (0, 2), (2, 0)] := by
      rw [checkedPairs, hashedPairs, hashedPairs,
        show Nat.clog 2 ((pairBlock 1).vtx.map lockTimeHashes.txid).length = 1 by decide,
        show Nat.clog 2 (witnessLeaves lockTimeHashes (pairBlock 1).vtx).length = 1 by decide]
      decide
    have pairs' : checkedPairs lockTimeHashes { pairBlock 2 with mCheckedMerkleRoot := true } =
        [(1, 3), (0, 3), (3, 0)] := by
      rw [checkedPairs, hashedPairs, hashedPairs,
        show Nat.clog 2 ((pairBlock 2).vtx.map lockTimeHashes.txid).length = 1 by decide,
        show Nat.clog 2 (witnessLeaves lockTimeHashes (pairBlock 2).vtx).length = 1 by decide]
      decide
    have apart : ∀ pair ∈ [(1, 2), (0, 2), (2, 0)] ++ [(1, 3), (0, 3), (3, 0)],
        ∀ other ∈ [(1, 2), (0, 2), (2, 0)] ++ [(1, 3), (0, 3), (3, 0)],
        uncurry lockTimeHashes.pairHash pair =
          uncurry lockTimeHashes.pairHash other → pair = other := by
      simp [lockTimeHashes]
    rw [NoPairCollision, pairs, pairs']
    intro pair mem other mem' same
    exact apart pair (mem_append.mpr mem) other (mem_append.mpr mem') same
  · have apart : ∀ tx ∈ (pairBlock 1).vtx ++ (pairBlock 2).vtx,
        ∀ other ∈ (pairBlock 1).vtx ++ (pairBlock 2).vtx,
        lockTimeHashes.txid tx = lockTimeHashes.txid other → tx = other := by
      simp [pairBlock, lockedTx, lockTimeHashes]
    intro tx mem other mem' same
    exact apart tx (mem_append.mpr mem) other (mem_append.mpr mem') same

end BitcoinCore.BlockEncodings
