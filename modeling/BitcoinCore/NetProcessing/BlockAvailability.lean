import BitcoinCore.NetProcessing.NodeState

/-!
# What a peer is known to have

The best block a peer is known to have follows from the hashes it announces. A
hash that is not in the block index yet is remembered and looked up again later.
`ChainstateManager` is what the peer manager reads of validation for this, and
for choosing the blocks to download.

Announcements change neither the blocks in flight nor the last common block.
-/

namespace BitcoinCore.NetProcessing

open Net Chain Node

inductive Assumeutxo where
  | validated
  | unvalidated
  | invalid
  deriving DecidableEq, Repr

/-- What the peer manager reads of the chainstate manager: the block index, the
active chain, the snapshot base of the current chainstate, and the blocks at
which segwit is active. -/
structure ChainstateManager (Block : Type*) [DecidableEq Block] where
  blocks : BlockTree Block
  activeChain : CChain blocks
  blockIndex : Uint256 → Option Block
  hash_of_blockIndex : ∀ {hash block}, blockIndex hash = some block →
    (blocks.memory block).hash = hash
  isInitialBlockDownload : Bool
  minimumChainWork : ℕ
  snapshotBase : Option Block
  assumeutxo : Assumeutxo
  segwitActiveAt : Block → Bool

namespace ChainstateManager

variable {Block : Type*} [DecidableEq Block] (chainman : ChainstateManager Block)

def entry (block : Block) : CBlockIndex Block := chainman.blocks.memory block

def lookupBlockIndex (hash : Uint256) : Option Block := chainman.blockIndex hash

def activeTip : Block := chainman.activeChain.tip

/-- Validation on a chain without forks whose blocks are all known. -/
def linear {n : ℕ} (nTx chainTxCount : Fin n → ℕ) (nStatus : Fin n → BlockStatus)
    (fits : n ≤ 2 ^ 256) (tip : Fin n) : ChainstateManager (Fin n) where
  blocks := .linear nTx chainTxCount nStatus fits
  activeChain := .linear nTx chainTxCount nStatus fits tip
  blockIndex hash := (List.finRange n).find? fun block => BitVec.ofNat 256 block.val = hash
  hash_of_blockIndex found := of_decide_eq_true (List.find?_some found :)
  isInitialBlockDownload := false
  minimumChainWork := 0
  snapshotBase := none
  assumeutxo := .validated
  segwitActiveAt _ := false

end ChainstateManager

namespace CNodeState

variable {Block R : Type*} [DecidableEq Block] (chainman : ChainstateManager Block)

/-- Take a block as the best known one, unless a better one is known. -/
def offerBestKnownBlock (state : CNodeState Block R) (pindex : Block) : CNodeState Block R :=
  if state.pindexBestKnownBlock.all fun best =>
      (chainman.entry best).nChainWork ≤ (chainman.entry pindex).nChainWork then
    { state with pindexBestKnownBlock := some pindex }
  else state

def knownBlock (hash : Uint256) : Option Block :=
  (chainman.lookupBlockIndex hash).filter fun pindex => 0 < (chainman.entry pindex).nChainWork

def processBlockAvailability (state : CNodeState Block R) : CNodeState Block R :=
  if state.hashLastUnknownBlock ≠ 0 then
    match knownBlock chainman state.hashLastUnknownBlock with
    | some pindex =>
      { state.offerBestKnownBlock chainman pindex with hashLastUnknownBlock := 0 }
    | none => state
  else state

def updateBlockAvailability (state : CNodeState Block R) (hash : Uint256) : CNodeState Block R :=
  let state := state.processBlockAvailability chainman
  match knownBlock chainman hash with
  | some pindex => state.offerBestKnownBlock chainman pindex
  -- Of unknown blocks, the latest one is taken to be the best.
  | none => { state with hashLastUnknownBlock := hash }

variable {chainman} (state : CNodeState Block R)

@[simp] theorem vBlocksInFlight_offerBestKnownBlock (pindex : Block) :
    (state.offerBestKnownBlock chainman pindex).vBlocksInFlight = state.vBlocksInFlight := by
  unfold offerBestKnownBlock
  split_ifs <;> rfl

@[simp] theorem vBlocksInFlight_processBlockAvailability :
    (state.processBlockAvailability chainman).vBlocksInFlight = state.vBlocksInFlight := by
  unfold processBlockAvailability
  split_ifs
  · cases knownBlock chainman state.hashLastUnknownBlock <;> simp
  · rfl

@[simp] theorem vBlocksInFlight_updateBlockAvailability (hash : Uint256) :
    (state.updateBlockAvailability chainman hash).vBlocksInFlight = state.vBlocksInFlight := by
  unfold updateBlockAvailability
  cases knownBlock chainman hash <;> simp

end CNodeState

end BitcoinCore.NetProcessing
