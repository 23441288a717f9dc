import BitcoinCore.ArithUint256
import BitcoinCore.Chain.BlockIndex

/-!
# Difficulty adjustment

`getNextWorkRequired` gives the compact target of the next block: at the end of
each period the old target is scaled by the time the period took, clamped to a
factor of four, and limited by the easiest target. `permittedDifficultyTransition`
checks a target that was received without its chain: it recomputes the two
extreme targets of the clamp and compares after rounding.

Both round to the compact form, and rounding is monotone, so a target computed by
the first is accepted by the second (`getNextWorkRequired_permitted`). Targets are
multiplied by 32-bit words, so this needs time spans of four periods to fit 32
bits (`longTimespan_not_permitted`).
-/

namespace BitcoinCore

open ArithUint256 Chain

namespace Consensus

/-- The parameters of a chain that difficulty adjustment reads. A period has at
least one block. -/
structure Params where
  powLimit : Uint256
  fPowAllowMinDifficultyBlocks : Bool
  enforceBIP94 : Bool
  fPowNoRetargeting : Bool
  nPowTargetSpacing : ℕ
  nPowTargetTimespan : ℕ
  spacing_pos : 0 < nPowTargetSpacing
  spacing_le_timespan : nPowTargetSpacing ≤ nPowTargetTimespan

namespace Params

variable (params : Params)

def difficultyAdjustmentInterval : ℕ := params.nPowTargetTimespan / params.nPowTargetSpacing

theorem difficultyAdjustmentInterval_pos : 0 < params.difficultyAdjustmentInterval :=
  Nat.div_pos params.spacing_le_timespan params.spacing_pos

end Params

end Consensus

open Consensus

/-- The fields of the block headers that difficulty adjustment reads. -/
structure HeaderTable (Block : Type*) where
  nBits : Block → BitVec 32
  nTime : Block → BitVec 32

namespace HeaderTable

variable {Block : Type*} (hdrs : HeaderTable Block)

def getBlockTime (block : Block) : ℤ := (hdrs.nTime block).toNat

end HeaderTable

/-! ## Scaling a target -/

section

variable (params : Params) (nActualTimespan : ℤ)

/-- Multiply a 256-bit number by a 64-bit one: of the two overloads of the
operator, the conversion to a 32-bit word is preferred. -/
def mulWord (val : ℕ) (factor : ℤ) : ℕ := val * (factor % 2 ^ 32).toNat % 2 ^ 256

/-- A target scaled by the share of a time span in the period, at most the easiest
target. -/
def scaledTarget (nBits : BitVec 32) (timespan : ℤ) : ℕ :=
  let bnNew := mulWord (setCompact nBits) timespan / params.nPowTargetTimespan
  if params.powLimit.toNat < bnNew then params.powLimit.toNat else bnNew

/-- The time a period took, limited to a quarter and four times the intended
time. -/
def limitTimespan : ℤ :=
  let nActualTimespan :=
    if nActualTimespan < (params.nPowTargetTimespan / 4 : ℕ) then
      ((params.nPowTargetTimespan / 4 : ℕ) : ℤ)
    else nActualTimespan
  if (params.nPowTargetTimespan * 4 : ℕ) < nActualTimespan then
    ((params.nPowTargetTimespan * 4 : ℕ) : ℤ)
  else nActualTimespan

theorem le_limitTimespan :
    ((params.nPowTargetTimespan / 4 : ℕ) : ℤ) ≤ limitTimespan params nActualTimespan := by
  simp only [limitTimespan]
  split_ifs <;> omega

theorem limitTimespan_le :
    limitTimespan params nActualTimespan ≤ ((params.nPowTargetTimespan * 4 : ℕ) : ℤ) := by
  simp only [limitTimespan]
  split_ifs <;> omega

end

/-! ## The required and the permitted work -/

section

variable {Block : Type*} [DecidableEq Block] (memory : BlockMemory Block)
  (hdrs : HeaderTable Block) (params : Params)

/-- The target after a period that ends in a block. -/
def calculateNextWorkRequired (pindexLast : Block) (nFirstBlockTime : ℤ) : Option (BitVec 32) :=
  if params.fPowNoRetargeting then some (hdrs.nBits pindexLast)
  else
    let timespan :=
      limitTimespan params (hdrs.getBlockTime pindexLast - nFirstBlockTime)
    let nHeightFirst : ℤ :=
      (memory pindexLast).nHeight - ((params.difficultyAdjustmentInterval : ℤ) - 1)
    let nBits :=
      -- The first block of the period is not allowed the min-difficulty exception.
      if params.enforceBIP94 then (getAncestor memory pindexLast nHeightFirst).map hdrs.nBits
      else some (hdrs.nBits pindexLast)
    nBits.map fun bits => getCompact (scaledTarget params bits timespan) false

/-- Go back to the last block that is not a special min-difficulty block. -/
def lastNonSpecial (nProofOfWorkLimit : BitVec 32) : ℕ → Block → Block
  | 0, pindex => pindex
  | rounds + 1, pindex =>
    match (memory pindex).pprev with
    | none => pindex
    | some prev =>
      if (memory pindex).nHeight % params.difficultyAdjustmentInterval ≠ 0 ∧
          hdrs.nBits pindex = nProofOfWorkLimit then
        lastNonSpecial nProofOfWorkLimit rounds prev
      else pindex

/-- The target of the block after `pindexLast`, whose time is `nBlockTime`. An
assertion fails when the first block of the period is missing. -/
def getNextWorkRequired (pindexLast : Block) (nBlockTime : ℤ) : Option (BitVec 32) :=
  let nProofOfWorkLimit := getCompact params.powLimit.toNat false
  if ((memory pindexLast).nHeight + 1) % params.difficultyAdjustmentInterval ≠ 0 then
    if params.fPowAllowMinDifficultyBlocks then
      if hdrs.getBlockTime pindexLast + params.nPowTargetSpacing * 2 < nBlockTime then
        some nProofOfWorkLimit
      else
        some (hdrs.nBits (lastNonSpecial memory hdrs params nProofOfWorkLimit
          (memory pindexLast).nHeight pindexLast))
    else some (hdrs.nBits pindexLast)
  else
    let nHeightFirst : ℤ :=
      (memory pindexLast).nHeight - ((params.difficultyAdjustmentInterval : ℤ) - 1)
    if nHeightFirst < 0 then none
    else
      (getAncestor memory pindexLast nHeightFirst).bind fun pindexFirst =>
        calculateNextWorkRequired memory hdrs params pindexLast (hdrs.getBlockTime pindexFirst)

def permittedDifficultyTransition (height : ℕ) (oldNBits newNBits : BitVec 32) : Bool :=
  if params.fPowAllowMinDifficultyBlocks then true
  else if height % params.difficultyAdjustmentInterval = 0 then
    let observedNewTarget := setCompact newNBits
    let maximumNewTarget := setCompact
      (getCompact (scaledTarget params oldNBits (params.nPowTargetTimespan * 4 : ℕ)) false)
    if maximumNewTarget < observedNewTarget then false
    else
      let minimumNewTarget := setCompact
        (getCompact (scaledTarget params oldNBits (params.nPowTargetTimespan / 4 : ℕ)) false)
      if observedNewTarget < minimumNewTarget then false else true
  else oldNBits == newNBits

end

/-! ## Retargeting accepts itself -/

section

variable {params : Params}

theorem mulWord_eq {val factor : ℕ} (word : params.nPowTargetTimespan * 4 < 2 ^ 32)
    (limit : params.powLimit.toNat * (params.nPowTargetTimespan * 4) < 2 ^ 256)
    (target : val ≤ params.powLimit.toNat) (short : factor ≤ params.nPowTargetTimespan * 4) :
    mulWord val factor = val * factor := by
  have product : val * factor < 2 ^ 256 := (Nat.mul_le_mul target short).trans_lt limit
  have same : ((factor : ℤ) % 2 ^ 32).toNat = factor := by omega
  rw [mulWord, same, Nat.mod_eq_of_lt product]

theorem scaledTarget_mono {nBits : BitVec 32} {shorter longer : ℕ}
    (word : params.nPowTargetTimespan * 4 < 2 ^ 32)
    (limit : params.powLimit.toNat * (params.nPowTargetTimespan * 4) < 2 ^ 256)
    (target : setCompact nBits ≤ params.powLimit.toNat) (le : shorter ≤ longer)
    (bounded : longer ≤ params.nPowTargetTimespan * 4) :
    scaledTarget params nBits shorter ≤ scaledTarget params nBits longer := by
  have divided : setCompact nBits * shorter / params.nPowTargetTimespan ≤
      setCompact nBits * longer / params.nPowTargetTimespan :=
    Nat.div_le_div_right (Nat.mul_le_mul_left _ le)
  simp only [scaledTarget, mulWord_eq word limit target (le.trans bounded),
    mulWord_eq word limit target bounded]
  split_ifs <;> omega

/-- A target scaled by a limited time span is permitted. -/
theorem permittedDifficultyTransition_scaledTarget {height : ℕ} {nBits : BitVec 32}
    (noMin : params.fPowAllowMinDifficultyBlocks = false)
    (adjusts : height % params.difficultyAdjustmentInterval = 0)
    (word : params.nPowTargetTimespan * 4 < 2 ^ 32)
    (limit : params.powLimit.toNat * (params.nPowTargetTimespan * 4) < 2 ^ 256)
    (target : setCompact nBits ≤ params.powLimit.toNat) (nActualTimespan : ℤ) :
    permittedDifficultyTransition params height nBits
      (getCompact (scaledTarget params nBits (limitTimespan params nActualTimespan)) false) =
        true := by
  have atLeast := le_limitTimespan params nActualTimespan
  have atMost := limitTimespan_le params nActualTimespan
  obtain ⟨timespan, isTimespan⟩ := Int.eq_ofNat_of_zero_le
    ((Int.natCast_nonneg (params.nPowTargetTimespan / 4)).trans atLeast)
  rw [isTimespan, Nat.cast_le] at atLeast atMost
  have fits : ∀ span, scaledTarget params nBits span < 2 ^ 256 := by
    intro span
    have limit := params.powLimit.isLt
    simp only [scaledTarget]
    split_ifs <;> omega
  have belowMaximum := setCompact_getCompact_mono
    (scaledTarget_mono word limit target atMost le_rfl) (fits _)
  have aboveMinimum := setCompact_getCompact_mono
    (scaledTarget_mono word limit target atLeast atMost) (fits _)
  simp only [permittedDifficultyTransition, noMin, Bool.false_eq_true, if_false, adjusts, if_true,
    isTimespan]
  rw [if_neg (Nat.not_lt.mpr belowMaximum), if_neg (Nat.not_lt.mpr aboveMinimum)]

variable {Block : Type*} [DecidableEq Block] (blocks : BlockTree Block) (hdrs : HeaderTable Block)

theorem exists_periodFirst {pindexLast : Block}
    (adjusts : ((blocks.memory pindexLast).nHeight + 1) % params.difficultyAdjustmentInterval = 0) :
    ¬((blocks.memory pindexLast).nHeight : ℤ) -
        ((params.difficultyAdjustmentInterval : ℤ) - 1) < 0 ∧
      ∃ pindexFirst, getAncestor blocks.memory pindexLast
        ((blocks.memory pindexLast).nHeight - ((params.difficultyAdjustmentInterval : ℤ) - 1)) =
          some pindexFirst := by
  have interval := params.difficultyAdjustmentInterval_pos
  have le : params.difficultyAdjustmentInterval ≤ (blocks.memory pindexLast).nHeight + 1 :=
    Nat.le_of_dvd (Nat.succ_pos _) (Nat.dvd_of_mod_eq_zero adjusts)
  have height : ((blocks.memory pindexLast).nHeight : ℤ) -
      ((params.difficultyAdjustmentInterval : ℤ) - 1) =
        (((blocks.memory pindexLast).nHeight + 1 - params.difficultyAdjustmentInterval : ℕ) : ℤ) := by
    omega
  rw [height, blocks.getAncestor_eq]
  refine ⟨by omega, blocks.tree.exists_ancestorAt ?_⟩
  rw [HeightTree.tree_height]
  omega

/-- Retargeting never rejects itself. On a chain without min-difficulty
blocks, the target that `getNextWorkRequired` computes for the next block is
permitted after the last one; with BIP94 this supposes that the period started
with the target of the last block. Four periods must fit a 32-bit word. -/
theorem getNextWorkRequired_permitted (params : Params)
    (noMin : params.fPowAllowMinDifficultyBlocks = false)
    (retargets : params.fPowNoRetargeting = false) (word : params.nPowTargetTimespan * 4 < 2 ^ 32)
    (limit : params.powLimit.toNat * (params.nPowTargetTimespan * 4) < 2 ^ 256) (pindexLast : Block)
    (target : setCompact (hdrs.nBits pindexLast) ≤ params.powLimit.toNat)
    (sameBits : params.enforceBIP94 → ∀ pindexFirst, getAncestor blocks.memory pindexLast
        ((blocks.memory pindexLast).nHeight - ((params.difficultyAdjustmentInterval : ℤ) - 1)) =
          some pindexFirst → hdrs.nBits pindexFirst = hdrs.nBits pindexLast) (nBlockTime : ℤ) :
    ∃ nBits, getNextWorkRequired blocks.memory hdrs params pindexLast nBlockTime = some nBits ∧
      permittedDifficultyTransition params ((blocks.memory pindexLast).nHeight + 1)
        (hdrs.nBits pindexLast) nBits := by
  by_cases adjusts :
      ((blocks.memory pindexLast).nHeight + 1) % params.difficultyAdjustmentInterval = 0
  · obtain ⟨inside, pindexFirst, isFirst⟩ := exists_periodFirst blocks adjusts
    refine ⟨_, ?_, permittedDifficultyTransition_scaledTarget noMin adjusts word limit target
      (hdrs.getBlockTime pindexLast - hdrs.getBlockTime pindexFirst)⟩
    simp only [getNextWorkRequired, adjusts, ne_eq, not_true_eq_false, if_false, inside, isFirst,
      Option.bind_some, calculateNextWorkRequired, retargets, Bool.false_eq_true]
    cases bip94 : params.enforceBIP94 with
    | false => simp
    | true => simp [sameBits bip94 pindexFirst isFirst]
  · refine ⟨hdrs.nBits pindexLast, ?_, ?_⟩
    · simp [getNextWorkRequired, adjusts, noMin]
    · simp [permittedDifficultyTransition, adjusts, noMin]

end

/-! ## Time spans beyond 32 bits -/

/-- The parameters of the main network, with a period of one block and the given
time span. -/
def singleBlockPeriod (timespan : ℕ) (pos : 0 < timespan) : Params where
  powLimit := BitVec.ofNat 256 (2 ^ 224 - 1)
  fPowAllowMinDifficultyBlocks := false
  enforceBIP94 := false
  fPowNoRetargeting := false
  nPowTargetSpacing := timespan
  nPowTargetTimespan := timespan
  spacing_pos := pos
  spacing_le_timespan := le_rfl

def genesisOnly : BlockTree (Fin 1) :=
  BlockTree.linear (fun _ => 1) (fun _ => 1) (fun _ => blockHaveData) (by decide)

def genesisHeaders : HeaderTable (Fin 1) where
  nBits _ := 0x1d00ffff#32
  nTime _ := 1231006505#32

/-- A period of two weeks: the block after the genesis block is permitted. -/
theorem getNextWorkRequired_permitted_twoWeeks :
    ∃ nBits, getNextWorkRequired genesisOnly.memory genesisHeaders
        (singleBlockPeriod 1209600 (by decide)) 0 0 = some nBits ∧
      permittedDifficultyTransition (singleBlockPeriod 1209600 (by decide)) 1
        (genesisHeaders.nBits 0) nBits :=
  getNextWorkRequired_permitted genesisOnly genesisHeaders (singleBlockPeriod 1209600 (by decide))
    rfl rfl (by decide) (by decide) 0 (by decide) (by simp [singleBlockPeriod]) 0

/-- A time span of 34 years is multiplied as zero. Four periods of `2 ^ 30`
seconds are `2 ^ 32` seconds, so the largest permitted target is zero, and the
computed one is rejected. -/
theorem longTimespan_not_permitted : ((singleBlockPeriod (2 ^ 30) (by decide)).powLimit.toNat *
        ((singleBlockPeriod (2 ^ 30) (by decide)).nPowTargetTimespan * 4) < 2 ^ 256) ∧
      0 < setCompact (genesisHeaders.nBits 0) ∧ setCompact (genesisHeaders.nBits 0) ≤
        (singleBlockPeriod (2 ^ 30) (by decide)).powLimit.toNat ∧
      getNextWorkRequired genesisOnly.memory genesisHeaders
        (singleBlockPeriod (2 ^ 30) (by decide)) 0 0 = some 0x1c3fffc0#32 ∧
      permittedDifficultyTransition (singleBlockPeriod (2 ^ 30) (by decide)) 1
        (genesisHeaders.nBits 0) 0x1c3fffc0#32 = false := by
  refine ⟨by decide, by decide, by decide, ?_, by decide⟩
  decide +kernel

end BitcoinCore
