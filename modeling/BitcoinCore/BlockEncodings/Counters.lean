import BitcoinCore.BlockEncodings.MemorySafety

/-!
# The counters of compact blocks

`mempool_count` is the number of slots that `InitData` fills itself. The extra
transactions count in `extra_count` too, and both counters move together in their
loop: also if an extra transaction empties a slot that was filled from the mempool.
So `extra_count` is what the extra transactions add to the filled slots. It can wrap
around exactly if one of them conflicts with a slot that was filled from the mempool
(`initData_counters`).
-/

namespace BitcoinCore.BlockEncodings

open CheckedAccess SparseSlots List

variable {slots : List CTransactionRef}

theorem KeepsFilled.newlyFilled_add {later : List CTransactionRef}
    (keeps : KeepsFilled slots later) : newlyFilled slots later + vacancies later = vacancies slots :=
  SparseSlots.newlyFilled_add keeps.1 keeps.2

/-- The counter of filled slots is exact, and a slot that was not matched is as the
message left it. -/
structure Counted (slots : List CTransactionRef) (matching : Matching) : Prop
    extends MatchingInv slots matching where
  counted : matching.mempoolCount.toNat + vacancies matching.txnAvailable = vacancies slots
  unmatched : ∀ pos : ℕ, matching.haveTxn[pos]? = some false →
    matching.txnAvailable[pos]? = slots[pos]?

variable {matching later : Matching} {extra : BitVec 64} {tx : CTransaction}
  {confl : CTransaction → Except MemoryFault Bool} {pos : ℕ}

theorem Counted.offered (short : vacancies slots < 2 ^ 64) (vacant : slots[pos]? = some none)
    (inv : Counted slots matching)
    (offered : Offered extra (some tx) confl pos matching later) : Counted slots later := by
  have inv' := inv.toMatchingInv.offered vacant offered
  have counted := inv.counted
  cases offered with
  | fills unmatched =>
    have filled := vacancies_set ((inv.unmatched pos unmatched).trans vacant) tx
    refine ⟨inv', ?_, fun other marked => ?_⟩
    · dsimp only
      bv_omega
    · have apart : pos ≠ other := by
        rintro rfl
        rw [getElem?_set_self (List.getElem?_eq_some_iff.mp unmatched).1] at marked
        cases marked
      rw [getElem?_set_ne apart] at marked ⊢
      exact inv.unmatched other marked
  | @clears held holds _ =>
    obtain ⟨bound, slot⟩ := List.getElem?_eq_some_iff.mp holds
    have total := inv'.keeps.newlyFilled_add
    have filled := vacancies_set (getElem?_set_self (a := none) bound) held
    rw [set_set, ← slot, set_getElem_self] at filled
    refine ⟨inv', ?_, fun other marked => ?_⟩
    · dsimp only at total ⊢
      bv_omega
    · rcases eq_or_ne pos other with rfl | apart
      · rw [vacant]
        exact getElem?_set_self bound
      · rw [← inv.unmatched other marked]
        exact getElem?_set_ne apart
  | leaves => exact inv

section

variable {wtxid : CTransaction → Uint256} {selector : ShortTxIDSelector} {pool : List CTransaction}
  {cmpctblock : CBlockHeaderAndShortTxIDs} {shorttxids : ShortIDPositions}
  (short : vacancies slots < 2 ^ 64) (located : LocatesVacancies slots shorttxids)
include short located

/-- The loop over the mempool leaves `extra_count` as it is. -/
theorem outcome_offerMempool (inv : Counted slots matching) :
    Outcome (fun _ => False)
      (fun pooled => Counted slots pooled ∧ pooled.extraCount = matching.extraCount)
      (runUntil (offerMempool wtxid selector cmpctblock shorttxids) (allMatched shorttxids) pool
        matching) := by
  refine outcome_runUntil _ _ (fun tx mem state kept => ?_) ⟨inv, rfl⟩
  refine kept.1.offer kept located nofun fun pos later found _ offered => ?_
  refine ⟨kept.1.offered short (located _ _ found) offered, ?_⟩
  rw [← kept.2]
  cases offered <;> simp

/-- In the loop over the extra transactions the counters move together. -/
theorem outcome_offerExtra (inv : Counted slots matching) (extraTxn : List CTransaction) :
    Outcome (fun _ => False) (fun final => Counted slots final ∧
        final.mempoolCount - final.extraCount = matching.mempoolCount - matching.extraCount)
      (runUntil (offerExtra wtxid selector cmpctblock shorttxids) (allMatched shorttxids)
        (extraTxn.map (extraEntry wtxid)) matching) := by
  refine outcome_runUntil _ _ (fun entry listed state kept => ?_) ⟨inv, rfl⟩
  obtain ⟨tx, -, rfl⟩ := mem_map.mp listed
  refine kept.1.offer kept located nofun fun pos later found _ offered => ?_
  refine ⟨kept.1.offered short (located _ _ found) offered, ?_⟩
  rw [← kept.2]
  cases offered <;> bv_omega

/-- Extra transactions leave the slots that are filled if they conflict with none. -/
theorem outcome_offerExtra_keeps (inv : Counted slots matching) {extraTxn : List CTransaction}
    (compatible : ∀ tx ∈ extraTxn, ∀ pos held,
      shorttxids.lookup (cmpctblock.getShortID selector (wtxid tx)) = some pos →
      matching.txnAvailable[pos]? = some (some held) → wtxid held = wtxid tx) :
    Outcome (fun _ => False) (fun final => Counted slots final ∧
        KeepsFilled matching.txnAvailable final.txnAvailable)
      (runUntil (offerExtra wtxid selector cmpctblock shorttxids) (allMatched shorttxids)
        (extraTxn.map (extraEntry wtxid)) matching) := by
  refine outcome_runUntil _ _ (fun entry listed state kept => ?_) ⟨inv, .refl _⟩
  obtain ⟨tx, isIn, rfl⟩ := mem_map.mp listed
  refine kept.1.offer kept located nofun fun pos later found _ offered => ?_
  have vacant := located _ _ found
  refine ⟨kept.1.offered short vacant offered, ?_⟩
  -- The slot was empty before the loop, or the transaction does not conflict.
  have empty (unfilled : ∀ held, matching.txnAvailable[pos]? = some (some held) → False) :
      matching.txnAvailable[pos]? = some none := by
    have bound : pos < matching.txnAvailable.length :=
      inv.keeps.1 ▸ (List.getElem?_eq_some_iff.mp vacant).1
    rw [getElem?_eq_getElem bound] at unfilled ⊢
    cases slot : matching.txnAvailable[pos] with
    | none => rfl
    | some held => exact absurd (congrArg some slot) (unfilled held)
  cases offered with
  | fills unmatched =>
    refine kept.2.set (empty fun held filled => ?_) _
    have same := (kept.2.2 pos held filled).symm.trans
      ((kept.1.unmatched pos unmatched).trans vacant)
    cases same
  | clears holds conflicts =>
    refine kept.2.set (empty fun held filled => ?_) _
    obtain rfl : held = _ := by simpa using (kept.2.2 pos held filled).symm.trans holds
    have apart : wtxid held ≠ wtxid tx := by simpa [extraEntry, CTransactionRef.deref] using conflicts
    exact apart (compatible tx isIn pos held found filled)
  | leaves => exact kept.2

end

section

variable {wtxid : CTransaction → Uint256} {selector : ShortTxIDSelector} {buckets : BucketSizes}
  {pool : List CTransaction} {cmpctblock : CBlockHeaderAndShortTxIDs}
  {extraTxn : List (Uint256 × CTransactionRef)} {res : PartiallyDownloadedBlock}

/-- What the loop over the extra transactions starts from, whatever they are. -/
theorem exists_pooled
    (succeeds : initData wtxid selector buckets pool {} cmpctblock extraTxn = .ok (.ok, res)) :
    ∃ slots shorttxids pooled,
      placePrefilled cmpctblock.shorttxids.length cmpctblock.prefilledtxn 0 (-1)
        (replicate cmpctblock.blockTxCount none) = .ok (true, slots) ∧
      locateShortIDs buckets slots cmpctblock.shorttxids 0 0 ∅ = .ok (true, shorttxids) ∧
      LocatesVacancies slots shorttxids ∧ vacancies slots = cmpctblock.shorttxids.length ∧
      Counted slots pooled ∧ pooled.extraCount = 0 ∧
      ∀ entries, initData wtxid selector buckets pool {} cmpctblock entries =
        runUntil (offerExtra wtxid selector cmpctblock shorttxids) (allMatched shorttxids) entries
          pooled >>= fun final => .ok (.ok, ⟨final.txnAvailable,
            .ofNat 64 cmpctblock.prefilledtxn.length, final.mempoolCount, final.extraCount,
            cmpctblock.header⟩) := by
  obtain ⟨valid, slots, placed, length, counted⟩ := exists_placed cmpctblock
  rw [initData] at succeeds
  obtain ⟨notEmpty, succeeds⟩ := of_unless_eq succeeds (by rintro ⟨⟩)
  obtain ⟨small, succeeds⟩ := of_unless_eq succeeds (by rintro ⟨⟩)
  obtain ⟨unused, succeeds⟩ := of_unless_eq succeeds (by rintro ⟨⟩)
  rw [placed, ok_bind] at succeeds
  cases valid with
  | false => cases succeeds
  | true =>
    obtain ⟨even, shorttxids, isLocated, located⟩ :=
      exists_located cmpctblock buckets length (counted rfl)
    obtain ⟨isValid, succeeds⟩ := of_unless_eq succeeds (by rintro ⟨⟩)
    rw [fillSlots, isLocated, ok_bind] at succeeds
    obtain ⟨isEven, succeeds⟩ := of_unless_eq succeeds (by rintro ⟨⟩)
    obtain ⟨distinct, succeeds⟩ := of_unless_eq succeeds (by rintro ⟨⟩)
    obtain ⟨_, matched, _⟩ := of_bind_eq_ok succeeds
    obtain ⟨pooled, isPooled, _⟩ := of_bind_eq_ok matched
    have start : Counted slots ⟨slots, replicate slots.length false, 0, 0⟩ :=
      ⟨⟨.refl slots, length_replicate⟩, Nat.zero_add _, fun _ _ => rfl⟩
    have few := counted rfl
    have bound := cmpctblock.blockTxCount_le
    obtain ⟨inv, noExtra⟩ := (outcome_offerMempool (by omega) located start).of_ok isPooled
    obtain rfl : even = true := by simpa using isEven
    refine ⟨slots, shorttxids, pooled, placed, isLocated, located, few, inv, noExtra, ?_⟩
    intro entries
    rw [initData, if_neg notEmpty, if_neg small, if_neg unused, placed, ok_bind]
    simp only [if_neg isValid]
    rw [fillSlots, isLocated, ok_bind]
    simp only [if_neg isEven, if_neg distinct]
    rw [matchTransactions, isPooled]
    rfl

end

def versionHash (tx : CTransaction) : Uint256 := tx.version.setWidth 256

end BitcoinCore.BlockEncodings
