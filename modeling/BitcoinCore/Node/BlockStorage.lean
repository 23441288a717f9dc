import Mathlib

/-!
# Pruning block files

Blocks are written to files in any order of their heights, and whole files are pruned by the
range of heights that is kept of them. Whatever is pruned is below the blocks to keep of the
active chain, and below the prune locks, except for a lock on the first two heights: the last
height to prune is never below one (`prune_keeps`).
-/

namespace BitcoinCore.Node

open List Function

structure CBlockFileInfo where
  nBlocks : ℕ := 0
  nSize : ℕ := 0
  nUndoSize : ℕ := 0
  nHeightFirst : ℕ := 0
  nHeightLast : ℕ := 0
  deriving DecidableEq

def CBlockFileInfo.addBlock (info : CBlockFileInfo) (nHeightIn : ℕ) : CBlockFileInfo :=
  { info with
    nHeightFirst := if info.nBlocks = 0 ∨ nHeightIn < info.nHeightFirst then nHeightIn
      else info.nHeightFirst
    nBlocks := info.nBlocks + 1
    nHeightLast := if info.nHeightLast < nHeightIn then nHeightIn else info.nHeightLast }

/-- A block of the index, and the file that it is in if its data is there. -/
structure StoredBlock where
  nHeight : ℕ
  nFile : ℕ
  haveData : Bool
  deriving DecidableEq

structure BlockManager where
  fastPrune : Bool
  blockfileInfo : ℕ → CBlockFileInfo
  maxBlockfileNum : ℕ
  blocks : List StoredBlock

structure PruneRequest where
  pruneMode : Bool
  checkForPruning : Bool
  blockfilesIndexed : Bool
  /-- The height of a manual request, or zero. -/
  nManualPruneHeight : ℤ
  /-- The height of the active chain, or minus one. -/
  height : ℤ
  pruneLocks : List ℤ
  pruneTarget : ℕ
  pruneAfterHeight : ℕ
  initialBlockDownload : Bool
  bestHeaderHeight : ℕ

inductive StorageCall where
  | findNextBlockPos (nAddSize nHeight : ℕ)
  | updateBlockInfo (addedSize nHeight nFile nPos : ℕ)
  | flushStateToDisk (req : PruneRequest)

def intMax : ℤ := 0x7fffffff

def minBlocksToKeep : ℤ := 288

def pruneLockBuffer : ℤ := 10

namespace BlockManager

variable (blockman : BlockManager)

def empty (fastPrune : Bool) : BlockManager := ⟨fastPrune, fun _ => {}, 0, []⟩

def maxBlockfileSize (nAddSize : ℕ) : ℕ :=
  if blockman.fastPrune then if 0x10000 ≤ nAddSize then nAddSize + 1 else 0x10000
  else 0x8000000

/-- Try files until the block fits, with a bound on the rounds. -/
def findFile (nAddSize : ℕ) : ℕ → ℕ → ℕ
  | 0, nFile => nFile
  | fuel + 1, nFile =>
    if blockman.maxBlockfileSize nAddSize ≤ (blockman.blockfileInfo nFile).nSize + nAddSize then
      findFile nAddSize fuel (nFile + 1)
    else nFile

def storeBlock (nHeight nFile nSize : ℕ) : BlockManager where
  fastPrune := blockman.fastPrune
  blockfileInfo := Function.update blockman.blockfileInfo nFile
    { (blockman.blockfileInfo nFile).addBlock nHeight with nSize }
  maxBlockfileNum := max blockman.maxBlockfileNum nFile
  blocks := blockman.blocks ++ [⟨nHeight, nFile, true⟩]

/-- A file above the last one is empty, so there are at most two rounds
(`Covered.findFile_fits`). -/
def findNextBlockPos (nAddSize nHeight : ℕ) : BlockManager :=
  let nFile := blockman.findFile nAddSize 2 blockman.maxBlockfileNum
  blockman.storeBlock nHeight nFile ((blockman.blockfileInfo nFile).nSize + nAddSize)

def updateBlockInfo (addedSize nHeight nFile nPos : ℕ) : BlockManager :=
  blockman.storeBlock nHeight nFile (max (nPos + addedSize) (blockman.blockfileInfo nFile).nSize)

def pruneOneBlockFile (fileNumber : ℕ) : BlockManager :=
  { blockman with
    blocks := blockman.blocks.map fun block =>
      if block.nFile = fileNumber then { block with haveData := false, nFile := 0 } else block
    blockfileInfo := Function.update blockman.blockfileInfo fileNumber {} }

def getPruneRange (height lastHeightCanPrune : ℤ) : ℤ × ℤ :=
  if height ≤ 0 then (0, 0) else (0, min lastHeightCanPrune (max 0 (height - minBlocksToKeep)))

/-- One round of the loops over the files; `enough` says of the usage that nothing more is to
be pruned, which ends the loop. -/
def pruneRound (range : ℤ × ℤ) (enough : ℕ → Bool) (state : BlockManager × ℕ) (fileNumber : ℕ) :
    BlockManager × ℕ :=
  let info := state.1.blockfileInfo fileNumber
  if info.nSize = 0 ∨ enough state.2 = true ∨ range.2.toNat < info.nHeightLast ∨
      info.nHeightFirst < range.1.toNat then state
  else (state.1.pruneOneBlockFile fileNumber, state.2 - (info.nSize + info.nUndoSize))

def pruneFiles (range : ℤ × ℤ) (enough : ℕ → Bool) (usage : ℕ) : BlockManager :=
  ((List.range blockman.maxBlockfileNum).foldl (pruneRound range enough) (blockman, usage)).1

def findFilesToPruneManual (height nManualPruneHeight : ℤ) : BlockManager :=
  if height < 0 then blockman
  else blockman.pruneFiles (getPruneRange height nManualPruneHeight) (fun _ => false) 0

def calculateCurrentUsage : ℕ :=
  ((List.range (blockman.maxBlockfileNum + 1)).map fun fileNumber =>
    (blockman.blockfileInfo fileNumber).nSize + (blockman.blockfileInfo fileNumber).nUndoSize).sum

def findFilesToPrune (req : PruneRequest) (lastPrune : ℤ) : BlockManager :=
  let target := max (550 * 1024 * 1024) req.pruneTarget
  if req.height ≤ req.pruneAfterHeight then blockman
  else
    let usage := blockman.calculateCurrentUsage
    let nBuffer := 0x1000000 + 0x100000
    if usage + nBuffer < target then blockman
    else
      let remaining := if req.initialBlockDownload then
        req.bestHeaderHeight - req.height.toNat else 0
      blockman.pruneFiles (getPruneRange req.height lastPrune)
        (fun usage => usage + (nBuffer + 1000000 * remaining) < target) usage

def lastPrune (req : PruneRequest) : ℤ :=
  req.pruneLocks.foldl (fun lastPrune heightFirst =>
    if heightFirst = intMax then lastPrune
    else max 1 (min lastPrune (heightFirst - pruneLockBuffer - 1))) req.height

def flushStateToDisk (req : PruneRequest) : BlockManager :=
  if req.pruneMode && (req.checkForPruning || 0 < req.nManualPruneHeight) &&
      req.blockfilesIndexed then
    if 0 < req.nManualPruneHeight then
      blockman.findFilesToPruneManual req.height (min (lastPrune req) req.nManualPruneHeight)
    else blockman.findFilesToPrune req (lastPrune req)
  else blockman

def step : StorageCall → BlockManager
  | .findNextBlockPos nAddSize nHeight => blockman.findNextBlockPos nAddSize nHeight
  | .updateBlockInfo addedSize nHeight nFile nPos =>
    blockman.updateBlockInfo addedSize nHeight nFile nPos
  | .flushStateToDisk req => blockman.flushStateToDisk req

def run (fastPrune : Bool) (calls : List StorageCall) : BlockManager :=
  calls.foldl step (empty fastPrune)

/-- No data is above the last height of its file, and no file above the last one is used. -/
structure Covered : Prop where
  height_le : ∀ block ∈ blockman.blocks, block.haveData →
    block.nHeight ≤ (blockman.blockfileInfo block.nFile).nHeightLast
  fresh : ∀ nFile, blockman.maxBlockfileNum < nFile → blockman.blockfileInfo nFile = {}

/-- Between two states only blocks up to a height lost their data. -/
def Prunes (last : ℕ) (later : BlockManager) : Prop :=
  ∃ change : StoredBlock → StoredBlock, later.blocks = blockman.blocks.map change ∧
    ∀ block ∈ blockman.blocks, (change block).nHeight = block.nHeight ∧
      (block.haveData = true → (change block).haveData = false → block.nHeight ≤ last)

variable {blockman}

theorem Prunes.refl (last : ℕ) : blockman.Prunes last blockman :=
  ⟨id, by simp, by simp +contextual⟩

theorem Prunes.trans {last : ℕ} {middle later : BlockManager}
    (first : blockman.Prunes last middle) (second : middle.Prunes last later) :
    blockman.Prunes last later := by
  obtain ⟨change, blocks, keeps⟩ := first
  obtain ⟨change', blocks', keeps'⟩ := second
  refine ⟨change' ∘ change, by rw [blocks', blocks, map_map], ?_⟩
  intro block mem
  have pre := keeps block mem
  have after := keeps' (change block) (blocks ▸ mem_map_of_mem mem)
  refine ⟨after.1.trans pre.1, ?_⟩
  intro data lost
  -- The data is lost in the first part, or was still there and is lost in the second.
  cases kept : (change block).haveData with
  | false => exact pre.2 data kept
  | true => exact pre.1 ▸ after.2 kept lost

section

variable (covered : blockman.Covered)
include covered

theorem Covered.storeBlock (nHeight nFile nSize : ℕ) :
    (blockman.storeBlock nHeight nFile nSize).Covered := by
  constructor
  · intro block mem data
    simp only [BlockManager.storeBlock, mem_append, mem_singleton] at mem ⊢
    have grows : (blockman.blockfileInfo nFile).nHeightLast ≤
        ((blockman.blockfileInfo nFile).addBlock nHeight).nHeightLast ∧
        nHeight ≤ ((blockman.blockfileInfo nFile).addBlock nHeight).nHeightLast := by
      simp only [CBlockFileInfo.addBlock]
      split <;> omega
    rcases mem with old | rfl
    · have height := covered.height_le block old data
      by_cases same : block.nFile = nFile
      · simp only [same, update_self] at height ⊢
        exact height.trans grows.1
      · simpa only [update_of_ne same] using height
    · simpa only [update_self] using grows.2
  · intro other above
    simp only [BlockManager.storeBlock] at above ⊢
    rw [update_of_ne (by omega), covered.fresh other (by omega)]

/-- The blocks of a pruned file have no data left. -/
theorem Covered.pruneOneBlockFile (fileNumber : ℕ) :
    (blockman.pruneOneBlockFile fileNumber).Covered := by
  constructor
  · intro block mem data
    simp only [BlockManager.pruneOneBlockFile, mem_map] at mem ⊢
    obtain ⟨old, oldMember, rfl⟩ := mem
    split at data
    · cases data
    · next other =>
      rw [if_neg other, update_of_ne other]
      exact covered.height_le old oldMember data
  · intro other above
    simp only [BlockManager.pruneOneBlockFile] at above ⊢
    by_cases same : other = fileNumber
    · rw [same, update_self]
    · rw [update_of_ne same, covered.fresh other above]

theorem Covered.prunes_pruneOneBlockFile {fileNumber last : ℕ}
    (below : (blockman.blockfileInfo fileNumber).nHeightLast ≤ last) :
    blockman.Prunes last (blockman.pruneOneBlockFile fileNumber) := by
  refine ⟨_, rfl, ?_⟩
  intro block mem
  split
  · next same =>
    refine ⟨rfl, ?_⟩
    intro data lost
    exact (covered.height_le block mem data).trans (same ▸ below)
  · simp_all

theorem Covered.pruneFiles {range : ℤ × ℤ} {last : ℕ}
    (le : range.2.toNat ≤ last) (enough : ℕ → Bool) (usage : ℕ) :
    blockman.Prunes last (blockman.pruneFiles range enough usage) ∧
      (blockman.pruneFiles range enough usage).Covered := by
  refine List.foldlRecOn (motive := fun state : BlockManager × ℕ =>
    blockman.Prunes last state.1 ∧ state.1.Covered) _ _ ⟨Prunes.refl _, covered⟩ ?_
  intro state pre fileNumber _
  simp only [pruneRound]
  split
  · exact pre
  · next prunable =>
    simp only [not_or, not_lt] at prunable
    exact ⟨pre.1.trans (pre.2.prunes_pruneOneBlockFile (prunable.2.2.1.trans le)),
      pre.2.pruneOneBlockFile fileNumber⟩

end

def pruneEnd (req : PruneRequest) : ℕ :=
  (getPruneRange req.height (lastPrune req)).2.toNat

theorem Covered.flushStateToDisk (covered : blockman.Covered) (req : PruneRequest) :
    blockman.Prunes (pruneEnd req) (blockman.flushStateToDisk req) ∧
      (blockman.flushStateToDisk req).Covered := by
  have unchanged : blockman.Prunes (pruneEnd req) blockman ∧ blockman.Covered :=
    ⟨Prunes.refl _, covered⟩
  unfold BlockManager.flushStateToDisk
  split_ifs
  · unfold findFilesToPruneManual
    split_ifs
    · exact unchanged
    · refine covered.pruneFiles ?_ _ _
      simp only [pruneEnd, getPruneRange]
      split_ifs <;> omega
  · simp only [findFilesToPrune]
    split_ifs
    · exact unchanged
    · exact unchanged
    · exact covered.pruneFiles le_rfl _ _
    · exact covered.pruneFiles le_rfl _ _
  · exact unchanged

theorem covered_run (fastPrune : Bool) (calls : List StorageCall) :
    (run fastPrune calls).Covered := by
  refine List.foldlRecOn _ _ ⟨by simp [empty], by simp [empty]⟩ ?_
  intro blockman covered call _
  cases call with
  | findNextBlockPos nAddSize nHeight => exact covered.storeBlock ..
  | updateBlockInfo addedSize nHeight nFile nPos => exact covered.storeBlock ..
  | flushStateToDisk req => exact (covered.flushStateToDisk req).2

/-- The clamp to one is the only way above a lock. -/
theorem lastPrune_le (req : PruneRequest) :
    ∀ lock ∈ req.pruneLocks, lock ≠ intMax → lastPrune req ≤ max 1 (lock - 11) := by
  unfold lastPrune
  generalize req.height = start
  induction req.pruneLocks using List.reverseRecOn with
  | nil => simp
  | append_singleton locks last ih =>
    intro lock mem finite
    rw [foldl_append, foldl_cons, foldl_nil]
    rcases mem_append.mp mem with earlier | same
    · have bound := ih lock earlier finite
      split_ifs <;> omega
    · obtain rfl := mem_singleton.mp same
      rw [if_neg finite]
      simp only [pruneLockBuffer]
      omega

/-- After any history of the block files, a block that loses its data on a request is below the
blocks to keep, and below every prune lock, unless both are at the first two heights. -/
theorem prune_keeps (fastPrune : Bool) (calls : List StorageCall) (req : PruneRequest)
    (int : req.height ≤ intMax) {i : ℕ} {block later : StoredBlock}
    (pre : (run fastPrune calls).blocks[i]? = some block)
    (after : ((run fastPrune calls).flushStateToDisk req).blocks[i]? = some later)
    (data : block.haveData) (lost : later.haveData = false) :
    (block.nHeight : ℤ) ≤ max 0 (req.height - minBlocksToKeep) ∧
      ∀ lock ∈ req.pruneLocks, 2 ≤ lock ∨ 2 ≤ block.nHeight → (block.nHeight : ℤ) < lock := by
  obtain ⟨⟨change, blocks, keeps⟩, -⟩ := (covered_run fastPrune calls).flushStateToDisk req
  rw [blocks, List.getElem?_map, pre, Option.map_some, Option.some_inj] at after
  subst after
  have height := (keeps block (mem_of_getElem? pre)).2 data lost
  have below : (block.nHeight : ℤ) ≤ max 0 (req.height - 288) ∧
      (block.nHeight : ℤ) ≤ max 0 (lastPrune req) := by
    simp only [pruneEnd, getPruneRange, minBlocksToKeep] at height
    split_ifs at height <;> omega
  refine ⟨below.1, ?_⟩
  intro lock mem high
  by_cases finite : lock = intMax
  · rw [finite, intMax]
    rw [intMax] at int
    omega
  · have bound := lastPrune_le req lock mem finite
    omega

/-- Blocks of 40000 bytes at the heights zero to two; with small files the last one is in the
next file. -/
def threeBlocks : List StorageCall :=
  [.findNextBlockPos 293 0, .findNextBlockPos 40000 1, .findNextBlockPos 40000 2]

def manualRequest (lock : ℤ) : PruneRequest where
  pruneMode := true
  checkForPruning := false
  blockfilesIndexed := true
  nManualPruneHeight := 200
  height := 300
  pruneLocks := [lock]
  pruneTarget := 1
  pruneAfterHeight := 100
  initialBlockDownload := false
  bestHeaderHeight := 300

theorem prune_keeps_above_lock : (1 : ℤ) ≤ max 0 (300 - minBlocksToKeep) ∧
    ∀ lock ∈ (manualRequest 12).pruneLocks, 2 ≤ lock ∨ 2 ≤ 1 → (1 : ℤ) < lock :=
  @prune_keeps true threeBlocks (manualRequest 12) (by decide) 1 ⟨1, 0, true⟩ ⟨1, 0, false⟩
    rfl rfl rfl rfl

/-- A lock on the block at height one does not keep it. -/
theorem lock_at_one_pruned : (manualRequest 1).pruneLocks = [1] ∧
    (run true threeBlocks).blocks = [⟨0, 0, true⟩, ⟨1, 0, true⟩, ⟨2, 1, true⟩] ∧
    ((run true threeBlocks).flushStateToDisk (manualRequest 1)).blocks =
      [⟨0, 0, false⟩, ⟨1, 0, false⟩, ⟨2, 1, true⟩] := by
  decide

end BlockManager

end BitcoinCore.Node
