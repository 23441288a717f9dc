import BitcoinCore.BlockEncodings.InitData

/-!
# Memory safety of `InitData`

Whatever the message, the mempool and the short ids, `InitData` has one undefined
behaviour: it can follow the null pointer of a slot of the ring of extra
transactions that has not been reached yet. This happens if a short id of the
message belongs to the zero hash and to a transaction that has filled the slot of
the short id before. So it is safe exactly with a ring that is unused or full
(`initData_memorySafe_iff`).
-/

namespace BitcoinCore.BlockEncodings

open CheckedAccess List LazyRing AList
open NetProcessing (ReadStatus)

/-! ## The ring -/

section

variable (wtxid : CTransaction → Uint256) (maxExtraTxs : ℕ)

def vExtraTxnForCompact (added : List CTransaction) : List (Uint256 × CTransactionRef) :=
  (added.foldl (addToCompactExtraTransactions wtxid maxExtraTxs) empty).slots

def extraEntry (tx : CTransaction) : Uint256 × CTransactionRef := (wtxid tx, some tx)

theorem vExtraTxnForCompact_eq (added : List CTransaction) :
    vExtraTxnForCompact wtxid maxExtraTxs added =
      (addAll maxExtraTxs (0, none) (added.map (extraEntry wtxid))).slots := by
  rw [vExtraTxnForCompact, addAll, foldl_map]
  rfl

variable {wtxid maxExtraTxs} {added : List CTransaction}

variable (wtxid) in
theorem vExtraTxnForCompact_of_partlyFilled (used : added ≠ [])
    (room : added.length < maxExtraTxs) : ∃ behind, vExtraTxnForCompact wtxid maxExtraTxs added =
      added.map (extraEntry wtxid) ++ (0, none) :: behind := by
  refine ⟨List.replicate (maxExtraTxs - added.length - 1) (0, none), ?_⟩
  rw [vExtraTxnForCompact_eq, slots_addAll (by simpa using used)
      (by rw [length_map]; exact room.le),
    length_map, ← replicate_succ, Nat.sub_add_cancel (by omega)]

end

/-! ## A message that reaches the null pointer -/

section

variable (wtxid : CTransaction → Uint256) (buckets : BucketSizes) (tx : CTransaction)

/-- The short id 0 belongs to the zero hash and to the hash of a transaction. -/
def collidingSelector : ShortTxIDSelector :=
  fun _ _ hash => if hash = 0 ∨ hash = wtxid tx then 0 else 2

def collidingMessage : CBlockHeaderAndShortTxIDs where
  header := { CBlockHeader.null with nBits := 1 }
  nonce := 0
  shorttxids := [0, 1]
  prefilledtxn := []
  shorttxids_lt := by simp
  blockTxCount_le := by simp

def collidingPositions : ShortIDPositions := (insert 0 0 ∅).insert 1 1

def collidingMatching : Matching where
  txnAvailable := [some tx, none]
  haveTxn := [true, false]
  mempoolCount := 1
  extraCount := 0

theorem locateShortIDs_colliding :
    locateShortIDs buckets [none, none] [0, 1] 0 0 ∅ = .ok (true, collidingPositions) := by
  have few : ¬ 12 < buckets.bucketSize [0] 0 := by
    have bound := buckets.bucketSize_le [0] 0
    rw [length_singleton] at bound
    omega
  have few' : ¬ 12 < buckets.bucketSize [1, 0] 1 := by
    have bound := buckets.bucketSize_le [1, 0] 1
    rw [length_cons, length_singleton] at bound
    omega
  have first : locateShortIDs buckets [none, none] [0, 1] 0 0 ∅ =
      if 12 < buckets.bucketSize [0] 0 then .ok (false, insert 0 0 ∅)
      else locateShortIDs buckets [none, none] [1] 1 0 (insert 0 0 ∅) := rfl
  have second : locateShortIDs buckets [none, none] [1] 1 0 (insert 0 0 ∅) =
      if 12 < buckets.bucketSize [1, 0] 1 then .ok (false, collidingPositions)
      else .ok (true, collidingPositions) := rfl
  rw [first, if_neg few, second, if_neg few']

theorem getShortID_colliding (hash : Uint256) :
    collidingMessage.getShortID (collidingSelector wtxid tx) hash =
      if hash = 0 ∨ hash = wtxid tx then 0 else 2 := by
  rw [CBlockHeaderAndShortTxIDs.getShortID, shortID, collidingSelector]
  split <;> rfl

variable {wtxid tx} in
theorem offerExtra_colliding_of_same {other : CTransaction}
    (same : wtxid other = 0 → wtxid other = wtxid tx) :
    offerExtra wtxid (collidingSelector wtxid tx) collidingMessage collidingPositions
        (extraEntry wtxid other) (collidingMatching tx) = .ok (collidingMatching tx) := by
  rw [offerExtra, offer, getShortID_colliding]
  split
  case h_1 => rfl
  case h_2 place found =>
    rcases eq_or_ne (wtxid other) (wtxid tx) with equal | apart
    · rw [if_pos (.inr equal)] at found
      obtain rfl : place = 0 := (Option.some.inj found).symm
      simp [offerAt, collidingMatching, readAt, extraEntry, CTransactionRef.deref, equal]
    · rw [if_neg (by rintro (zero | equal); exacts [apart (same zero), apart equal])] at found
      cases found

variable {wtxid tx} in
/-- The null pointer is followed, if the transactions before it do not conflict with
the one in the mempool. -/
theorem initData_colliding {added : List CTransaction}
    (same : ∀ other ∈ added, wtxid other = 0 → wtxid other = wtxid tx)
    (behind : List (Uint256 × CTransactionRef)) :
    initData wtxid (collidingSelector wtxid tx) buckets [tx] {} collidingMessage
      (added.map (extraEntry wtxid) ++ (0, none) :: behind) = .error .nullDereference := by
  have pool : runUntil
      (offerMempool wtxid (collidingSelector wtxid tx) collidingMessage collidingPositions)
      (allMatched collidingPositions) [tx]
      { txnAvailable := [none, none], haveTxn := [false, false], mempoolCount := 0,
        extraCount := 0 } = .ok (collidingMatching tx) := by
    rw [runUntil, offerMempool, offer, getShortID_colliding, if_pos (.inr rfl)]
    rfl
  have extra : runUntil
      (offerExtra wtxid (collidingSelector wtxid tx) collidingMessage collidingPositions)
      (allMatched collidingPositions) (added.map (extraEntry wtxid) ++ (0, none) :: behind)
      (collidingMatching tx) = .error .nullDereference := by
    refine runUntil_fault rfl (fun entry mem => ?_) ?_ behind
    · obtain ⟨other, earlier, rfl⟩ := mem_map.mp mem
      exact offerExtra_colliding_of_same (same other earlier)
    · rw [offerExtra, offer, getShortID_colliding, if_pos (.inl rfl)]
      rfl
  have placed : initData wtxid (collidingSelector wtxid tx) buckets [tx] {} collidingMessage
      (added.map (extraEntry wtxid) ++ (0, none) :: behind) =
      fillSlots wtxid (collidingSelector wtxid tx) buckets [tx]
        (added.map (extraEntry wtxid) ++ (0, none) :: behind) collidingMessage
        { txnAvailable := [none, none], header := collidingMessage.header } := rfl
  rw [placed, fillSlots]
  simp only [show collidingMessage.shorttxids = [0, 1] from rfl]
  rw [locateShortIDs_colliding buckets, ok_bind]
  simp only
  rw [if_neg (by decide), if_neg (by decide), matchTransactions]
  simp only [length_cons, length_nil, List.replicate]
  rw [pool, ok_bind, extra, error_bind]

end

/-! ## Safety -/

/-- Memory safety. The only undefined behaviour of `InitData` is to follow a null
pointer of an extra transaction. It is excluded for all messages, mempools and short
ids exactly if the ring of extra transactions is unused or full. -/
theorem initData_memorySafe_iff (wtxid : CTransaction → Uint256) (buckets : BucketSizes) :
    (∀ (selector : ShortTxIDSelector) (pool : List CTransaction) (self : PartiallyDownloadedBlock)
        (cmpctblock : CBlockHeaderAndShortTxIDs) (extraTxn : List (Uint256 × CTransactionRef))
        (fault : MemoryFault),
        initData wtxid selector buckets pool self cmpctblock extraTxn = .error fault →
          fault = .nullDereference) ∧ ∀ (maxExtraTxs : ℕ) (added : List CTransaction),
        (∀ (selector : ShortTxIDSelector) (pool : List CTransaction)
            (self : PartiallyDownloadedBlock) (cmpctblock : CBlockHeaderAndShortTxIDs),
            ∃ result, initData wtxid selector buckets pool self cmpctblock
              (vExtraTxnForCompact wtxid maxExtraTxs added) = .ok result) ↔
          (added = [] ∨ maxExtraTxs ≤ added.length) := by
  refine ⟨?_, fun maxExtraTxs added => ⟨fun safe => ?_, ?_⟩⟩
  · intro selector pool self cmpctblock extraTxn fault faults
    exact (outcome_initData (· = .nullDereference) wtxid selector buckets pool cmpctblock
      (fun _ _ _ => rfl) self).of_error faults
  · by_contra partly
    rw [not_or, Nat.not_le] at partly
    obtain ⟨used, room⟩ := partly
    obtain ⟨behind, slots⟩ := vExtraTxnForCompact_of_partlyFilled wtxid used room
    obtain ⟨tx, same⟩ : ∃ tx, ∀ other ∈ added, wtxid other = 0 → wtxid other = wtxid tx := by
      by_cases zero : ∃ tx ∈ added, wtxid tx = 0
      · obtain ⟨tx, -, hash⟩ := zero
        exact ⟨tx, fun other _ otherHash => otherHash.trans hash.symm⟩
      · obtain ⟨tx, -⟩ := exists_mem_of_ne_nil added used
        exact ⟨tx, fun other mem hash => absurd ⟨other, mem, hash⟩ zero⟩
    obtain ⟨result, returns⟩ := safe (collidingSelector wtxid tx) [tx] {} collidingMessage
    rw [slots, initData_colliding buckets same behind] at returns
    cases returns
  · intro unusedOrFull selector pool self cmpctblock
    refine (outcome_initData (fun _ => False) wtxid selector buckets pool cmpctblock ?_
      self).returns
    intro entry mem null
    rcases unusedOrFull with rfl | full
    · cases mem
    · rw [vExtraTxnForCompact_eq] at mem
      obtain ⟨tx, -, rfl⟩ := mem_map.mp (mem_of_mem_addAll (by rwa [length_map]) mem)
      cases null

/-- A ring of two slots, one of them used: a message with two short ids of which the
first belongs to every hash. The mempool fills its slot, and the unused entry of the
ring is compared with it. -/
theorem initData_follows_null :
    let tx : CTransaction :=
      { version := 2, vin := [⟨⟨1, 0⟩, [], 0, []⟩], vout := [⟨1, []⟩], nLockTime := 0 }
    initData (fun _ => 7) (fun _ _ _ => 0) ⟨fun keys _ => keys.length, fun _ _ => le_rfl⟩ [tx] {}
        collidingMessage (vExtraTxnForCompact (fun _ => 7) 2 [tx]) =
      .error .nullDereference := by
  rfl

end BitcoinCore.BlockEncodings
