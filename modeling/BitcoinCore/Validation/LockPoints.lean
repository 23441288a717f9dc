import BitcoinCore.Chain.MedianTime
import BitcoinCore.Primitives.Transaction

/-!
# Relative lock times and their cached lock points

`CalculateLockPointsAtTip` computes for a transaction the last height and the last time at
which its relative locks still fail, and the highest block that contains one of its locked
inputs. The mempool keeps these lock points, and after a reorganisation it evaluates them
again at the new tip as long as that block is still in the chain.

An input that is not confirmed counts as confirmed in the block after the tip, so its locks
are measured from the tip at the time of the calculation. A transaction is only accepted
when these locks are zero, and a zero lock never fails when it is calculated anew. The
cached lock points, however, do fail at a tip that is lower, or has a lower median time
past, than the tip of the calculation (`cached_eq_recalculated_iff`).
-/

namespace BitcoinCore.SequenceLocks

open Option List

variable (nSequence : BitVec 32)

open Chain

/-- The height of coins in the mempool. -/
def mempoolHeight : ℕ := 0x7FFFFFFF

/-- The heights of the coins that can be spent. -/
abbrev CoinHeights := COutPoint → Option ℕ

/-- The input has no relative lock. -/
def locktimeDisabled : Bool := nSequence &&& 0x80000000 ≠ 0

/-- The lock counts time and not blocks. -/
def locktimeIsTime : Bool := nSequence &&& 0x00400000 ≠ 0

/-- The length of the lock. -/
def locktimeValue : ℕ := (nSequence &&& 0x0000ffff).toNat

/-- A relative lock time counts units of this power of two of seconds. -/
def locktimeGranularity : ℕ := 9

/-- Lock points: the last height and time at which the transaction is not final, and the
highest block with a locked input. -/
structure LockPoints (Block : Type*) where
  height : ℤ
  time : ℤ
  maxInputBlock : Option Block

variable {Block : Type*} [DecidableEq Block]

section

variable (memory : BlockMemory Block) (btime : Block → ℤ)

/-- The heights of the inputs; those in the mempool count as confirmed in the next block. -/
def calculatePrevHeights (tip : Block) (coins : CoinHeights) (tx : CTransaction) : Option (List ℕ) :=
  tx.vin.mapM fun input =>
    (coins input.prevout).map fun height =>
      if height = mempoolHeight then (memory tip).nHeight + 1 else height

/-- The loop of `CalculateSequenceLocks` for the block after the tip, over the sequence
numbers and heights of the inputs. There is no result where the assertion on the ancestor
fails. -/
def sequenceLocksLoop (tip : Block) : List (BitVec 32 × ℕ) → ℤ × ℤ → Option (ℤ × ℤ)
  | [], locks => some locks
  | (nSequence, nCoinHeight) :: inputs, (nMinHeight, nMinTime) =>
    if locktimeDisabled nSequence then sequenceLocksLoop tip inputs (nMinHeight, nMinTime)
    else if locktimeIsTime nSequence then
      (getAncestor memory tip ((nCoinHeight - 1 : ℕ) : ℤ)).bind fun block =>
        sequenceLocksLoop tip inputs (nMinHeight,
          max nMinTime (getMedianTimePast memory btime block +
            (locktimeValue nSequence * 2 ^ locktimeGranularity : ℕ) - 1))
    else
      sequenceLocksLoop tip inputs
        (max nMinHeight ((nCoinHeight : ℤ) + locktimeValue nSequence - 1), nMinTime)

/-- Relative locks need version 2. -/
def enforcesSequence (tx : CTransaction) : Bool := 2 ≤ tx.version.toNat

/-- `CalculateSequenceLocks`, with the heights of the inputs that matter. -/
def calculateSequenceLocks (tip : Block) (tx : CTransaction) (prevHeights : List ℕ) :
    Option ((ℤ × ℤ) × List ℕ) :=
  if enforcesSequence tx then
    let inputs := (tx.vin.map CTxIn.nSequence).zip prevHeights
    (sequenceLocksLoop memory btime tip inputs (-1, -1)).map fun locks =>
      (locks, inputs.map fun input => if locktimeDisabled input.1 then 0 else input.2)
  else some ((-1, -1), prevHeights)

/-- The greatest height of an input below that of the next block. -/
def maxInputHeight (nextHeight : ℕ) (prevHeights : List ℕ) : ℕ :=
  prevHeights.foldl (fun highest height => if height ≠ nextHeight then max highest height else highest) 0

/-- `CalculateLockPointsAtTip`: there is no result if an input is not found. -/
def calculateLockPointsAtTip (tip : Block) (coins : CoinHeights) (tx : CTransaction) :
    Option (LockPoints Block) :=
  (calculatePrevHeights memory tip coins tx).bind fun prevHeights =>
    (calculateSequenceLocks memory btime tip tx prevHeights).bind fun calculated =>
      (getAncestor memory tip (maxInputHeight ((memory tip).nHeight + 1) calculated.2 : ℕ)).map
        fun block => ⟨calculated.1.1, calculated.1.2, some block⟩

/-- `CheckSequenceLocksAtTip`: whether the locks let the transaction into the next block. -/
def checkSequenceLocksAtTip (tip : Block) (lockPoints : LockPoints Block) : Bool :=
  ¬ (((memory tip).nHeight + 1 : ℤ) ≤ lockPoints.height ∨
    getMedianTimePast memory btime tip ≤ lockPoints.time)

/-- `TestLockPointValidity`: whether the active chain contains the block of the lock
points. -/
def testLockPointValidity (tip : Block) (lockPoints : LockPoints Block) : Bool :=
  match lockPoints.maxInputBlock with
  | none => true
  | some block => getAncestor memory tip (memory block).nHeight = some block

/-- Whether `filter_final_and_mature` removes an entry on account of its sequence locks. -/
def filterSequenceLocks (tip : Block) (coins : CoinHeights) (tx : CTransaction)
    (lockPoints : LockPoints Block) : Bool :=
  if testLockPointValidity memory tip lockPoints then
    !checkSequenceLocksAtTip memory btime tip lockPoints
  else
    match calculateLockPointsAtTip memory btime tip coins tx with
    | none => true
    | some newLockPoints => !checkSequenceLocksAtTip memory btime tip newLockPoints

end

/-! ## When locks let a transaction in -/

section

variable {blocks : BlockTree Block} {btime : Block → ℤ}

/-- The locks let a transaction into the block after a tip. -/
def Below (blocks : BlockTree Block) (btime : Block → ℤ) (tip : Block) (locks : ℤ × ℤ) : Prop :=
  locks.1 < (blocks.memory tip).nHeight + 1 ∧ locks.2 < getMedianTimePast blocks.memory btime tip

/-- The lock of an input, measured on the chain of a tip, lets the transaction into the block
after a new tip. -/
def Passes (blocks : BlockTree Block) (btime : Block → ℤ) (tip newTip : Block)
    (input : BitVec 32 × ℕ) : Prop :=
  locktimeDisabled input.1 = false →
    if locktimeIsTime input.1 then
      ∀ block, blocks.tree.ancestorAt (input.2 - 1) tip = some block →
        getMedianTimePast blocks.memory btime block +
          (locktimeValue input.1 * 2 ^ locktimeGranularity : ℕ) - 1 <
            getMedianTimePast blocks.memory btime newTip
    else (input.2 : ℤ) + locktimeValue input.1 - 1 < (blocks.memory newTip).nHeight + 1

theorem sequenceLocksLoop_spec (btime : Block → ℤ) {tip : Block} {inputs : List (BitVec 32 × ℕ)}
    (heights : ∀ input ∈ inputs, input.2 ≤ (blocks.memory tip).nHeight + 1) (start : ℤ × ℤ) :
    ∃ locks, sequenceLocksLoop blocks.memory btime tip inputs start = some locks ∧
      ∀ newTip, Below blocks btime newTip locks ↔ Below blocks btime newTip start ∧
        ∀ input ∈ inputs, Passes blocks btime tip newTip input := by
  induction inputs generalizing start with
  | nil => exact ⟨start, rfl, fun newTip => by simp⟩
  | cons input inputs ih =>
    obtain ⟨here, rest⟩ := forall_mem_cons.mp heights
    -- it is enough that the locks of the input are taken up
    have step : ∀ next : ℤ × ℤ, (∀ newTip, Below blocks btime newTip next ↔
          Below blocks btime newTip start ∧ Passes blocks btime tip newTip input) →
        ∃ locks, sequenceLocksLoop blocks.memory btime tip inputs next = some locks ∧
          ∀ newTip, Below blocks btime newTip locks ↔ Below blocks btime newTip start ∧
            ∀ other ∈ input :: inputs, Passes blocks btime tip newTip other := by
      intro next passes
      obtain ⟨locks, looped, passed⟩ := ih rest next
      refine ⟨locks, looped, fun newTip => ?_⟩
      rw [passed, passes, forall_mem_cons, and_assoc]
    obtain ⟨nSequence, nCoinHeight⟩ := input
    obtain ⟨nMinHeight, nMinTime⟩ := start
    rw [sequenceLocksLoop]
    split
    case isTrue disabled =>
      refine step _ fun newTip => ?_
      simp [Passes, disabled]
    case isFalse enabled =>
      rw [Bool.not_eq_true] at enabled
      split
      case isTrue isTime =>
        obtain ⟨block, found⟩ := blocks.tree.exists_ancestorAt
          (by rw [HeightTree.tree_height]; omega : nCoinHeight - 1 ≤ blocks.tree.height tip)
        rw [blocks.getAncestor_eq, found, bind_some]
        refine step _ fun newTip => ?_
        simp only [Below, Passes, enabled, isTime, found, if_true, some_inj, forall_eq', true_imp_iff,
          max_lt_iff]
        tauto
      case isFalse notTime =>
        rw [Bool.not_eq_true] at notTime
        refine step _ fun newTip => ?_
        simp only [Below, Passes, enabled, notTime, Bool.false_eq_true, if_false, true_imp_iff,
          max_lt_iff]
        tauto

/-! ## The inputs of a transaction -/

variable {coins newCoins : CoinHeights} {tx : CTransaction} {tip newTip : Block}

/-- The height that counts for an input. -/
def inputHeight (memory : BlockMemory Block) (tip : Block) (coins : CoinHeights) (input : CTxIn) : ℕ :=
  match coins input.prevout with
  | none => 0
  | some height => if height = mempoolHeight then (memory tip).nHeight + 1 else height

/-- Every input can be spent, and is in the mempool or in the chain of the tip. -/
def Spendable (memory : BlockMemory Block) (tip : Block) (coins : CoinHeights) (tx : CTransaction) :
    Prop :=
  ∀ input ∈ tx.vin, ∃ height, coins input.prevout = some height ∧
    (height = mempoolHeight ∨ height ≤ (memory tip).nHeight)

theorem mapM_some_of_forall {α β : Type*} {f : α → Option β} {g : α → β} {items : List α}
    (all : ∀ item ∈ items, f item = some (g item)) : items.mapM f = some (items.map g) := by
  induction items with
  | nil => rfl
  | cons item items ih =>
    obtain ⟨here, rest⟩ := forall_mem_cons.mp all
    rw [mapM_cons, here, ih rest]
    rfl

omit [DecidableEq Block] in
theorem calculatePrevHeights_eq {memory : BlockMemory Block}
    (spendable : Spendable memory tip coins tx) : calculatePrevHeights memory tip coins tx =
      some (tx.vin.map (inputHeight memory tip coins)) := by
  refine mapM_some_of_forall fun input mem => ?_
  obtain ⟨height, found, -⟩ := spendable input mem
  rw [inputHeight, found, map_some]

omit [DecidableEq Block] in
theorem inputHeight_le {memory : BlockMemory Block} (spendable : Spendable memory tip coins tx)
    {input : CTxIn} (mem : input ∈ tx.vin) :
    inputHeight memory tip coins input ≤ (memory tip).nHeight + 1 := by
  obtain ⟨height, found, place⟩ := spendable input mem
  rw [inputHeight, found]
  dsimp only
  split
  case isTrue => exact le_rfl
  case isFalse confirmed =>
    have low := place.resolve_left confirmed
    omega

theorem maxInputHeight_eq (nextHeight : ℕ) (heights : List ℕ) :
    maxInputHeight nextHeight heights = (heights.filter (· ≠ nextHeight)).foldr max ⊥ := by
  rw [maxInputHeight, ← foldl_eq_foldr, foldl_filter]
  simp

/-- The sequence numbers of the inputs with their heights. -/
def locks (memory : BlockMemory Block) (tip : Block) (coins : CoinHeights) (tx : CTransaction) :
    List (BitVec 32 × ℕ) :=
  tx.vin.map fun input => (input.nSequence, inputHeight memory tip coins input)

/-- The heights that are left after the loop, and when its locks are passed. -/
theorem calculateSequenceLocks_spec (blocks : BlockTree Block) (btime : Block → ℤ)
    (spendable : Spendable blocks.memory tip coins tx) :
    ∃ res left, calculateSequenceLocks blocks.memory btime tip tx
        (tx.vin.map (inputHeight blocks.memory tip coins)) = some (res, left) ∧
      (∀ height ∈ left, height ≤ (blocks.memory tip).nHeight + 1) ∧
      (∀ newTip, Below blocks btime newTip res ↔ 0 ≤ getMedianTimePast blocks.memory btime newTip ∧
        (enforcesSequence tx → ∀ input ∈ locks blocks.memory tip coins tx,
          Passes blocks btime tip newTip input)) ∧
      (enforcesSequence tx → ∀ input ∈ locks blocks.memory tip coins tx,
        locktimeDisabled input.1 = false → input.2 ∈ left) := by
  have zipped : (tx.vin.map CTxIn.nSequence).zip (tx.vin.map (inputHeight blocks.memory tip coins)) =
      locks blocks.memory tip coins tx := zip_map'
  have heights : ∀ input ∈ locks blocks.memory tip coins tx,
      input.2 ≤ (blocks.memory tip).nHeight + 1 := by
    intro input mem
    obtain ⟨source, source_mem, rfl⟩ := mem_map.mp mem
    exact inputHeight_le spendable source_mem
  have start (newTip : Block) : Below blocks btime newTip (-1, -1) ↔
      0 ≤ getMedianTimePast blocks.memory btime newTip := by
    rw [Below]
    omega
  obtain ⟨found, looped, passed⟩ := sequenceLocksLoop_spec btime heights (-1, -1)
  rw [calculateSequenceLocks]
  split
  case isTrue enforced =>
    dsimp only
    refine ⟨found, _, by rw [zipped, looped, map_some], ?_, ?_, ?_⟩
    · intro height mem
      obtain ⟨input, input_mem, rfl⟩ := mem_map.mp mem
      split
      case isTrue => exact Nat.zero_le _
      case isFalse => exact heights input input_mem
    · intro newTip
      rw [passed, start, forall_prop_of_true enforced]
    · intro _ input mem enabled
      refine mem_map.mpr ⟨input, mem, ?_⟩
      rw [if_neg (by simp [enabled])]
  case isFalse notEnforced =>
    refine ⟨(-1, -1), _, rfl, ?_, ?_, fun enforced => absurd enforced notEnforced⟩
    · intro height mem
      obtain ⟨input, input_mem, rfl⟩ := mem_map.mp mem
      exact inputHeight_le spendable input_mem
    · intro newTip
      rw [start, and_iff_left fun enforced => absurd enforced notEnforced]

/-- What the lock points say: with all inputs spendable they exist, they are passed at a
tip exactly if the locks of all inputs are, and their block is an ancestor of the tip that
is at least as high as every confirmed input with a lock. -/
theorem calculateLockPointsAtTip_spec (blocks : BlockTree Block) (btime : Block → ℤ)
    (spendable : Spendable blocks.memory tip coins tx) : ∃ lockPoints block,
      calculateLockPointsAtTip blocks.memory btime tip coins tx = some lockPoints ∧
      lockPoints.maxInputBlock = some block ∧ blocks.tree.IsAncestor block tip ∧
      (∀ newTip, checkSequenceLocksAtTip blocks.memory btime newTip lockPoints ↔
        0 ≤ getMedianTimePast blocks.memory btime newTip ∧
        (enforcesSequence tx → ∀ input ∈ locks blocks.memory tip coins tx,
          Passes blocks btime tip newTip input)) ∧
      (enforcesSequence tx → ∀ input ∈ locks blocks.memory tip coins tx,
        locktimeDisabled input.1 = false → input.2 ≠ (blocks.memory tip).nHeight + 1 →
          input.2 ≤ (blocks.memory block).nHeight) := by
  obtain ⟨res, left, calculated, left_le, checked, covered⟩ :=
    calculateSequenceLocks_spec blocks btime spendable
  have high_le : maxInputHeight ((blocks.memory tip).nHeight + 1) left ≤
      (blocks.memory tip).nHeight := by
    rw [maxInputHeight_eq]
    refine max_le_of_forall_le _ _ fun height mem => ?_
    obtain ⟨isLeft, other⟩ := mem_filter.mp mem
    exact Nat.le_of_lt_succ ((left_le height isLeft).lt_of_ne (of_decide_eq_true other))
  obtain ⟨block, anc⟩ := blocks.tree.exists_ancestorAt
    (by rw [HeightTree.tree_height]; exact high_le :
      maxInputHeight ((blocks.memory tip).nHeight + 1) left ≤ blocks.tree.height tip)
  have height_eq : (blocks.memory block).nHeight =
      maxInputHeight ((blocks.memory tip).nHeight + 1) left := blocks.tree.height_of_ancestorAt anc
  refine ⟨⟨res.1, res.2, some block⟩, block, ?_, rfl,
    blocks.tree.isAncestor_of_ancestorAt anc, fun newTip => ?_, ?_⟩
  · rw [calculateLockPointsAtTip, calculatePrevHeights_eq spendable, bind_some, calculated,
      bind_some, blocks.getAncestor_eq, anc, map_some]
  · rw [← checked, checkSequenceLocksAtTip, decide_eq_true_iff, not_or, not_le, not_le, Below]
  · intro enforced input mem enabled other
    rw [height_eq, maxInputHeight_eq]
    exact le_max_of_le (mem_filter.mpr ⟨covered enforced input mem enabled, decide_eq_true other⟩)
      le_rfl

/-! ## After a reorganisation -/

/-- Confirmed inputs keep their heights. -/
def ConfirmedUnchanged (coins newCoins : CoinHeights) (tx : CTransaction) : Prop :=
  ∀ input ∈ tx.vin, ∀ height, coins input.prevout = some height → height ≠ mempoolHeight →
    newCoins input.prevout = some height

/-- The new tip is not lower than the old one, in height or in median time past, as far as
the transaction has locks on inputs that were not confirmed. -/
def NotLowered (blocks : BlockTree Block) (btime : Block → ℤ) (coins : CoinHeights)
    (tx : CTransaction) (tip newTip : Block) : Prop :=
  enforcesSequence tx → ∀ input ∈ tx.vin, coins input.prevout = some mempoolHeight →
    locktimeDisabled input.nSequence = false →
      if locktimeIsTime input.nSequence then
        getMedianTimePast blocks.memory btime tip ≤ getMedianTimePast blocks.memory btime newTip
      else (blocks.memory tip).nHeight ≤ (blocks.memory newTip).nHeight

theorem locktimeValue_eq_zero {nSequence : BitVec 32} (enabled : locktimeDisabled nSequence = false)
    (passes : Passes blocks btime tip tip (nSequence, (blocks.memory tip).nHeight + 1)) :
    locktimeValue nSequence = 0 := by
  have self : blocks.tree.ancestorAt (blocks.memory tip).nHeight tip = some tip :=
    blocks.tree.ancestorAt_height tip
  have lock := passes enabled
  dsimp only at lock
  split at lock
  case isTrue =>
    have low := lock tip self
    rw [locktimeGranularity] at low
    omega
  case isFalse =>
    push_cast at lock
    omega

/-- A lock of zero is passed at the tip it is calculated at. -/
theorem passes_of_locktimeValue_eq_zero (times : TimesAboveMedian blocks.memory btime)
    {input : BitVec 32 × ℕ} (zero : locktimeValue input.1 = 0)
    (low : input.2 ≤ (blocks.memory tip).nHeight + 1) : Passes blocks btime tip tip input := by
  intro _
  rw [zero]
  split
  case isTrue =>
    intro above reached
    have le := getMedianTimePast_le_of_isAncestor times
      (blocks.tree.isAncestor_of_ancestorAt reached)
    omega
  case isFalse => omega

variable (times : TimesAboveMedian blocks.memory btime)
  (spendable : Spendable blocks.memory tip coins tx)
  (newSpendable : Spendable blocks.memory newTip newCoins tx)
  (unchanged : ConfirmedUnchanged coins newCoins tx)
include times spendable newSpendable unchanged

/-- An input's cached lock is passed at a new tip if and only if the recalculated one is,
and, for an unconfirmed input, the tip is not lowered. -/
theorem passes_iff {block : Block}
    (anc : blocks.tree.IsAncestor block tip) (contained : blocks.tree.IsAncestor block newTip)
    {input : CTxIn} (mem : input ∈ tx.vin) (high : locktimeDisabled input.nSequence = false →
      inputHeight blocks.memory tip coins input ≠ (blocks.memory tip).nHeight + 1 →
        inputHeight blocks.memory tip coins input ≤ (blocks.memory block).nHeight)
    (acc : Passes blocks btime tip tip
      (input.nSequence, inputHeight blocks.memory tip coins input)) :
    Passes blocks btime tip newTip (input.nSequence, inputHeight blocks.memory tip coins input) ↔
      Passes blocks btime newTip newTip
          (input.nSequence, inputHeight blocks.memory newTip newCoins input) ∧
        (coins input.prevout = some mempoolHeight → locktimeDisabled input.nSequence = false →
          if locktimeIsTime input.nSequence then
            getMedianTimePast blocks.memory btime tip ≤ getMedianTimePast blocks.memory btime newTip
          else (blocks.memory tip).nHeight ≤ (blocks.memory newTip).nHeight) := by
  cases disabled : locktimeDisabled input.nSequence with
  | true =>
    simp [Passes, disabled]
  | false =>
    obtain ⟨height, found, place⟩ := spendable input mem
    by_cases inMempool : height = mempoolHeight
    · -- an unconfirmed input: its lock is zero
      subst inMempool
      have counted : inputHeight blocks.memory tip coins input = (blocks.memory tip).nHeight + 1 := by
        rw [inputHeight, found]
        exact if_pos rfl
      rw [counted] at acc ⊢
      have zero := locktimeValue_eq_zero disabled acc
      have self : blocks.tree.ancestorAt (blocks.memory tip).nHeight tip = some tip :=
        blocks.tree.ancestorAt_height tip
      rw [and_iff_right (passes_of_locktimeValue_eq_zero times zero
        (inputHeight_le newSpendable mem)), found]
      simp only [Passes, disabled, zero, true_imp_iff]
      split
      case isTrue =>
        rw [Nat.add_sub_cancel, self]
        simp only [some_inj, forall_eq']
        omega
      case isFalse =>
        push_cast
        omega
    · -- a confirmed input: the heights and the blocks are the same
      have counted : inputHeight blocks.memory tip coins input = height := by
        rw [inputHeight, found]
        exact if_neg inMempool
      have counted' : inputHeight blocks.memory newTip newCoins input = height := by
        rw [inputHeight, unchanged input mem height found inMempool]
        exact if_neg inMempool
      have low := place.resolve_left inMempool
      rw [counted] at high ⊢
      have le := high disabled (by omega)
      have same : blocks.tree.ancestorAt (height - 1) tip =
          blocks.tree.ancestorAt (height - 1) newTip := by
        have bound : height - 1 ≤ blocks.tree.height block := by
          rw [HeightTree.tree_height]
          omega
        rw [← anc.ancestorAt_eq bound, contained.ancestorAt_eq bound]
      have notMempool : coins input.prevout ≠ some mempoolHeight := by
        rw [found]
        exact fun equal => inMempool (some_inj.mp equal)
      rw [counted', and_iff_left fun equal => absurd equal notMempool, Passes, Passes]
      dsimp only
      rw [same]

variable {lockPoints : LockPoints Block}
  (calculated : calculateLockPointsAtTip blocks.memory btime tip coins tx = some lockPoints)
  (acc : checkSequenceLocksAtTip blocks.memory btime tip lockPoints)
  (valid : testLockPointValidity blocks.memory newTip lockPoints)
include calculated acc valid

/-- The cached lock points are passed at a new tip exactly if the recalculated ones are and
the tip is not lowered. -/
theorem check_cached_iff : ∃ recalculated,
      calculateLockPointsAtTip blocks.memory btime newTip newCoins tx = some recalculated ∧
      (checkSequenceLocksAtTip blocks.memory btime newTip lockPoints ↔
        checkSequenceLocksAtTip blocks.memory btime newTip recalculated ∧
          NotLowered blocks btime coins tx tip newTip) := by
  obtain ⟨cached, block, found, atBlock, anc, checked, high⟩ :=
    calculateLockPointsAtTip_spec blocks btime spendable
  obtain rfl : cached = lockPoints := Option.some_inj.mp (found.symm.trans calculated)
  obtain ⟨recalculated, _, refound, -, -, rechecked, -⟩ :=
    calculateLockPointsAtTip_spec blocks btime newSpendable
  refine ⟨recalculated, refound, ?_⟩
  have contained : blocks.tree.IsAncestor block newTip := by
    rw [testLockPointValidity, atBlock] at valid
    dsimp only at valid
    rw [blocks.getAncestor_eq] at valid
    exact of_decide_eq_true valid
  obtain ⟨-, passing⟩ := (checked tip).mp acc
  rw [checked, rechecked, and_assoc, NotLowered]
  refine and_congr_right fun _ => ?_
  rw [← imp_and]
  refine forall_congr' fun enforced => ?_
  rw [locks, locks, List.forall_mem_map, List.forall_mem_map, ← forall₂_and]
  refine forall₂_congr fun input mem => ?_
  exact passes_iff times spendable newSpendable unchanged anc contained mem
    (high enforced _ (List.mem_map_of_mem mem))
    (passing enforced _ (List.mem_map_of_mem mem))

/-- When cached lock points may be kept: for an accepted transaction and a new tip whose
chain contains the block of its lock points, the cached and the recalculated lock points
give the same answer, and the filter removes only what would be invalid, exactly if the new
tip is not lower than the old one as far as a lock of an unconfirmed input is concerned, or
the transaction would be invalid anyway. -/
theorem cached_eq_recalculated_iff : ∃ recalculated,
      calculateLockPointsAtTip blocks.memory btime newTip newCoins tx = some recalculated ∧
      (checkSequenceLocksAtTip blocks.memory btime newTip lockPoints =
          checkSequenceLocksAtTip blocks.memory btime newTip recalculated ↔
        (checkSequenceLocksAtTip blocks.memory btime newTip recalculated →
          NotLowered blocks btime coins tx tip newTip)) ∧
      ((filterSequenceLocks blocks.memory btime newTip newCoins tx lockPoints →
          checkSequenceLocksAtTip blocks.memory btime newTip recalculated = false) ↔
        (checkSequenceLocksAtTip blocks.memory btime newTip recalculated →
          NotLowered blocks btime coins tx tip newTip)) := by
  obtain ⟨recalculated, refound, cached⟩ :=
    check_cached_iff times spendable newSpendable unchanged calculated acc valid
  refine ⟨recalculated, refound, ?_, ?_⟩
  · rw [Bool.eq_iff_iff, cached]
    exact and_iff_left_iff_imp
  · rw [filterSequenceLocks, if_pos valid, Bool.not_eq_true', ← Bool.not_eq_true,
      ← Bool.not_eq_true, not_imp_not, cached]
    exact ⟨fun kept passed => (kept passed).2, fun kept passed => ⟨passed, kept passed⟩⟩

end

/-! ## A chain of two blocks -/

theorem twoBlocks_fit : 2 ≤ 2 ^ 256 := by decide

def twoBlocks : BlockTree (Fin 2) :=
  BlockTree.linear (fun _ => 1) (fun _ => 1) (fun _ => blockHaveData) twoBlocks_fit

def twoTimes (block : Fin 2) : ℤ := 5 + block.val

/-- A transaction with a relative lock of no blocks on its one input. -/
def spendsUnconfirmed : CTransaction := ⟨2, [⟨⟨0, 0⟩, [], 0, []⟩], [], 0⟩

def allInMempool : CoinHeights := fun _ => some mempoolHeight

theorem twoTimes_aboveMedian : TimesAboveMedian twoBlocks.memory twoTimes := by
  rw [TimesAboveMedian]
  decide

theorem spendable_allInMempool (tip : Fin 2) :
    Spendable twoBlocks.memory tip allInMempool spendsUnconfirmed :=
  fun _ _ => ⟨mempoolHeight, rfl, Or.inl rfl⟩

/-- The cached lock points serve when the next block confirms the input. -/
theorem cached_eq_recalculated_confirmed :
    calculateLockPointsAtTip twoBlocks.memory twoTimes 0 allInMempool spendsUnconfirmed =
        some ⟨0, -1, some 0⟩ ∧ ∃ recalculated,
      calculateLockPointsAtTip twoBlocks.memory twoTimes 1 (fun _ => some 1) spendsUnconfirmed =
        some recalculated ∧
      checkSequenceLocksAtTip twoBlocks.memory twoTimes 1 ⟨0, -1, some 0⟩ =
        checkSequenceLocksAtTip twoBlocks.memory twoTimes 1 recalculated := by
  have confirmed : Spendable twoBlocks.memory 1 (fun _ => some 1) spendsUnconfirmed :=
    fun _ _ => ⟨1, rfl, Or.inr le_rfl⟩
  obtain ⟨recalculated, refound, same, -⟩ := cached_eq_recalculated_iff twoTimes_aboveMedian
    (spendable_allInMempool 0) confirmed
    (fun _ _ _ found other => absurd (some_inj.mp found).symm other) rfl rfl rfl
  refine ⟨rfl, recalculated, refound, same.mpr fun _ _ input mem _ _ => ?_⟩
  rw [mem_singleton.mp mem]
  decide

/-- A transaction with a lock of no blocks on an unconfirmed input is accepted at height one.
When the tip goes back to the genesis block, which is the block of its lock points, the
filter removes it, although with recalculated lock points it is valid. -/
theorem lowered_removes_valid :
    calculateLockPointsAtTip twoBlocks.memory twoTimes 1 allInMempool spendsUnconfirmed =
        some ⟨1, -1, some 0⟩ ∧
      checkSequenceLocksAtTip twoBlocks.memory twoTimes 1 ⟨1, -1, some 0⟩ = true ∧
      testLockPointValidity twoBlocks.memory 0 ⟨1, -1, some 0⟩ = true ∧
      calculateLockPointsAtTip twoBlocks.memory twoTimes 0 allInMempool spendsUnconfirmed =
        some ⟨0, -1, some 0⟩ ∧
      checkSequenceLocksAtTip twoBlocks.memory twoTimes 0 ⟨0, -1, some 0⟩ = true ∧
      checkSequenceLocksAtTip twoBlocks.memory twoTimes 0 ⟨1, -1, some 0⟩ = false ∧
      filterSequenceLocks twoBlocks.memory twoTimes 0 allInMempool spendsUnconfirmed
        ⟨1, -1, some 0⟩ = true :=
  ⟨rfl, rfl, rfl, rfl, rfl, rfl, rfl⟩

end BitcoinCore.SequenceLocks
