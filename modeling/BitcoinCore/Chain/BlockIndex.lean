import BitcoinCore.Lib.ParentTree

/-!
# The block index and its skip pointers

The block index is a tree of `CBlockIndex` entries. An entry points to its
predecessor and, further back, to a skip target chosen from its height alone
(`getSkipHeight`). `getAncestor` walks back along both kinds of pointers, and
`lastCommonAncestor` jumps back over the skip pointers until two blocks meet.

A pointer `const CBlockIndex*` is an element of a type `Block`, and the memory
it points into is a function from blocks to entries. A `SkipTree` is a memory
in which heights count from a single genesis block and every skip pointer was set
by `buildSkip`; in a `BlockTree` work accumulates as well.

In a skip tree the skip pointers lead to ancestors (`skipsToAncestor`), so
`getAncestor` agrees with following `pprev` (`getAncestor_eq`), and
`lastCommonAncestor` terminates at the last common ancestor
(`lastCommonAncestor_spec`).
-/

namespace BitcoinCore

open Option Nat ParentTree BitVec

/-- A hash, as an opaque value of 256 bits. -/
abbrev Uint256 := BitVec 256

namespace Chain

/-! ## Entries -/

/-- The field `nStatus`: a level of validity in the low bits, and flags. -/
abbrev BlockStatus := BitVec 32

/-- All parent headers are found and the header fits them. -/
def blockValidTree : BlockStatus := 2

/-- Only the first transaction is a coinbase, and the block is no larger than allowed. -/
def blockValidTransactions : BlockStatus := 3

/-- Outputs do not overspend inputs, and no coin is spent twice. -/
def blockValidChain : BlockStatus := 4

/-- Scripts and signatures are right. -/
def blockValidScripts : BlockStatus := 5

/-- The bits of the level of validity. -/
def blockValidMask : BlockStatus :=
  1 ||| blockValidTree ||| blockValidTransactions ||| blockValidChain ||| blockValidScripts

/-- The full block is stored. -/
def blockHaveData : BlockStatus := 8

/-- The block has failed a check. -/
def blockFailedValid : BlockStatus := 32

/-- An entry of the block index. -/
structure CBlockIndex (Block : Type*) where
  hash : Uint256
  pprev : Option Block
  pskip : Option Block
  nHeight : ℕ
  nChainWork : ℕ
  nTx : ℕ
  chainTxCount : ℕ
  nStatus : BlockStatus

namespace CBlockIndex

variable {Block : Type*} (entry : CBlockIndex Block)

/-- The transactions up to this block have been counted. -/
def haveNumChainTxs : Bool := entry.chainTxCount ≠ 0

/-- The full block is stored. -/
def haveData : Bool := entry.nStatus &&& blockHaveData ≠ 0

/-- The block is valid up to a level, and has not failed. -/
def isValid (upTo : BlockStatus) : Bool :=
  if entry.nStatus &&& blockFailedValid ≠ 0 then false
  else decide (upTo ≤ entry.nStatus &&& blockValidMask)

end CBlockIndex

/-- What the pointers point to. -/
abbrev BlockMemory (Block : Type*) := Block → CBlockIndex Block

/-! ## Walking back -/

/-- Turn the lowest one in the binary representation of a number into a
zero. -/
def invertLowestOne (n : ℕ) : ℕ := n &&& (n - 1)

/-- The height to jump back to with the skip pointer. -/
def getSkipHeight (height : ℕ) : ℕ :=
  if height < 2 then 0
  else if height % 2 = 1 then invertLowestOne (invertLowestOne (height - 1)) + 1
  else invertLowestOne height

section

variable {Block : Type*} [DecidableEq Block] (memory : BlockMemory Block)

/-- The loop of `getAncestor`, with a bound on its number of rounds. -/
def getAncestorLoop (height : ℕ) : ℕ → ℕ → Block → Option Block
  | 0, heightWalk, walk => if height < heightWalk then none else some walk
  | rounds + 1, heightWalk, walk =>
    if height < heightWalk then
      let heightSkip := getSkipHeight heightWalk
      let heightSkipPrev := getSkipHeight (heightWalk - 1)
      if (memory walk).pskip ≠ none ∧ (heightSkip = height ∨ (height < heightSkip ∧
            ¬(heightSkipPrev + 2 < heightSkip ∧ height ≤ heightSkipPrev))) then
        -- Only follow pskip if pprev->pskip is not better than pskip->pprev.
        (memory walk).pskip.bind (getAncestorLoop height rounds heightSkip)
      else
        (memory walk).pprev.bind (getAncestorLoop height rounds (heightWalk - 1))
    else some walk

/-- The ancestor of a block at a height; no block above its own height or below
zero. -/
def getAncestor (block : Block) (height : ℤ) : Option Block :=
  if (memory block).nHeight < height ∨ height < 0 then none
  else getAncestorLoop memory height.toNat (memory block).nHeight (memory block).nHeight block

/-- The skip pointer of a block, found by walking back from its predecessor. -/
def buildSkip (block : Block) : Option Block :=
  (memory block).pprev.bind fun prev =>
    getAncestor memory prev (getSkipHeight (memory block).nHeight)

/-- The inner loop of `lastCommonAncestor`: jump back until the two blocks have
a common skip target. -/
def skipWhileApart : ℕ → Block → Block → Option (Block × Block)
  | 0, _, _ => none
  | rounds + 1, pa, pb =>
    if (memory pa).pskip = (memory pb).pskip then some (pa, pb)
    else
      (memory pa).pskip.bind fun pa' =>
        (memory pb).pskip.bind fun pb' => skipWhileApart rounds pa' pb'

/-- The outer loop of `lastCommonAncestor`: step back until the two blocks meet. -/
def stepWhileApart : ℕ → Block → Block → Option Block
  | 0, _, _ => none
  | rounds + 1, pa, pb =>
    if pa = pb then some pa
    else
      (skipWhileApart memory ((memory pa).nHeight + 1) pa pb).bind fun apart =>
        (memory apart.1).pprev.bind fun pa' =>
          (memory apart.2).pprev.bind fun pb' => stepWhileApart rounds pa' pb'

/-- The last common ancestor, from two blocks of equal height on. -/
def lastCommonAncestor (pa pb : Block) : Option Block :=
  if (memory pb).nHeight < (memory pa).nHeight then
    (getAncestor memory pa (memory pb).nHeight).bind fun pa' =>
      stepWhileApart memory ((memory pa').nHeight + 1) pa' pb
  else if (memory pa).nHeight < (memory pb).nHeight then
    (getAncestor memory pb (memory pa).nHeight).bind fun pb' =>
      stepWhileApart memory ((memory pa).nHeight + 1) pa pb'
  else stepWhileApart memory ((memory pa).nHeight + 1) pa pb

end

theorem invertLowestOne_lt {n : ℕ} (pos : 0 < n) : invertLowestOne n < n :=
  lt_of_le_of_lt and_le_right (by omega)

theorem invertLowestOne_le (n : ℕ) : invertLowestOne n ≤ n := and_le_left

theorem getSkipHeight_lt {height : ℕ} (pos : 0 < height) : getSkipHeight height < height := by
  unfold getSkipHeight
  split_ifs with low odd
  · exact pos
  · have inner := invertLowestOne_lt (by omega : 0 < height - 1)
    have outer := invertLowestOne_le (invertLowestOne (height - 1))
    omega
  · exact invertLowestOne_lt pos

/-! ## Block trees -/

/-- A tree of entries: heights count from a single genesis block. -/
structure HeightTree (Block : Type*) where
  memory : BlockMemory Block
  nHeight_genesis : ∀ {block}, (memory block).pprev = none → (memory block).nHeight = 0
  nHeight_succ : ∀ {block prev}, (memory block).pprev = some prev →
    (memory block).nHeight = (memory prev).nHeight + 1
  genesis_unique : ∀ {first second}, (memory first).pprev = none →
    (memory second).pprev = none → first = second

namespace HeightTree

variable {Block : Type*} (blocks : HeightTree Block) (block : Block)

/-- The tree of the predecessors. -/
def tree : ParentTree Block where
  parent block := (blocks.memory block).pprev
  height block := (blocks.memory block).nHeight
  height_of_root := blocks.nHeight_genesis
  height_of_parent := blocks.nHeight_succ
  root_unique := blocks.genesis_unique

@[simp] theorem tree_parent : blocks.tree.parent block = (blocks.memory block).pprev := rfl

@[simp] theorem tree_height : blocks.tree.height block = (blocks.memory block).nHeight := rfl

/-- The skip pointer of a block leads to its ancestor at the skip height. -/
def SkipsToAncestor : Prop :=
  0 < (blocks.memory block).nHeight → (blocks.memory block).pskip =
      blocks.tree.ancestorAt (getSkipHeight (blocks.memory block).nHeight) block

/-- The walk of `getAncestor` reaches the ancestor at the height asked for, if
the skip pointers of the blocks it can visit lead to ancestors. -/
theorem getAncestorLoop_eq {height rounds : ℕ} {walk : Block}
    (skips : ∀ block, (blocks.memory block).nHeight ≤ (blocks.memory walk).nHeight →
      blocks.SkipsToAncestor block) (le : height ≤ (blocks.memory walk).nHeight)
    (enough : (blocks.memory walk).nHeight - height ≤ rounds) :
    getAncestorLoop blocks.memory height rounds (blocks.memory walk).nHeight walk =
      blocks.tree.ancestorAt height walk := by
  induction rounds generalizing walk with
  | zero =>
    have equal : (blocks.memory walk).nHeight = height := by omega
    rw [getAncestorLoop, if_neg (by omega), ← equal]
    exact (blocks.tree.ancestorAt_height walk).symm
  | succ rounds ih =>
    rw [getAncestorLoop]
    dsimp only
    split_ifs with below useSkip
    · -- The skip pointer leads to an ancestor at or above the height asked for.
      have skip := skips walk le_rfl (by omega)
      have skipLt := getSkipHeight_lt (by omega : 0 < (blocks.memory walk).nHeight)
      obtain ⟨target, found⟩ := blocks.tree.exists_ancestorAt
        (show getSkipHeight (blocks.memory walk).nHeight ≤ blocks.tree.height walk from skipLt.le)
      have targetHeight := blocks.tree.height_of_ancestorAt found
      rw [tree_height] at targetHeight
      rw [skip, found, bind_some, ← targetHeight, ih
        (fun block low => skips block (by omega)) (by omega) (by omega)]
      exact blocks.tree.ancestorAt_of_ancestorAt found (by omega)
    · obtain ⟨prev, isPrev⟩ := blocks.tree.exists_parent
        (show 0 < blocks.tree.height walk by rw [tree_height]; omega)
      rw [tree_parent] at isPrev
      have walkHeight := blocks.nHeight_succ isPrev
      have prevHeight : (blocks.memory walk).nHeight - 1 = (blocks.memory prev).nHeight := by
        omega
      rw [isPrev, bind_some, prevHeight, ih
        (fun block low => skips block (by omega)) (by omega) (by omega)]
      exact (blocks.tree.ancestorAt_of_parent isPrev
        (show height ≤ blocks.tree.height prev by rw [tree_height]; omega)).symm
    · have equal : (blocks.memory walk).nHeight = height := by omega
      rw [← equal]
      exact (blocks.tree.ancestorAt_height walk).symm

/-- `getAncestor` on the blocks whose skip pointers are known to be right. -/
theorem getAncestor_eq_of_skips {height : ℕ} {block : Block}
    (skips : ∀ other, (blocks.memory other).nHeight ≤ (blocks.memory block).nHeight →
      blocks.SkipsToAncestor other) :
    getAncestor blocks.memory block height = blocks.tree.ancestorAt height block := by
  unfold getAncestor
  by_cases high : (blocks.memory block).nHeight < height
  · rw [if_pos (Or.inl (by exact_mod_cast high)), ancestorAt,
      if_neg (by rw [tree_height]; omega)]
  · rw [if_neg (by omega), Int.toNat_natCast]
    exact blocks.getAncestorLoop_eq skips (by omega) (by omega)

end HeightTree

/-- A tree of entries with the skip pointers that `buildSkip` sets. -/
structure SkipTree (Block : Type*) [DecidableEq Block] extends HeightTree Block where
  pskip_built : ∀ block, (memory block).pskip = buildSkip memory block

namespace SkipTree

open HeightTree

variable {Block : Type*} [DecidableEq Block] (blocks : SkipTree Block) (block : Block)

/-- Skip pointers built by `BuildSkip` lead to ancestors. -/
theorem skipsToAncestor : blocks.SkipsToAncestor block := by
  -- On the height: the skip pointer of a block is computed by walking back from
  -- its predecessor, over skip pointers that were built before.
  suffices byHeight : ∀ height block, (blocks.memory block).nHeight ≤ height →
      blocks.SkipsToAncestor block from byHeight _ block le_rfl
  intro height
  induction height with
  | zero =>
    intro block low high
    omega
  | succ height ih =>
    intro block low high
    obtain ⟨prev, isPrev⟩ := blocks.tree.exists_parent (show 0 < blocks.tree.height block from high)
    rw [tree_parent] at isPrev
    have blockHeight := blocks.nHeight_succ isPrev
    have skipLt := getSkipHeight_lt high
    rw [blocks.pskip_built, buildSkip, isPrev, bind_some,
      blocks.getAncestor_eq_of_skips fun other otherLow => ih other (by omega)]
    exact (blocks.tree.ancestorAt_of_parent isPrev
      (show getSkipHeight _ ≤ blocks.tree.height prev by rw [tree_height]; omega)).symm

/-- `getAncestor` agrees with following `pprev`. -/
theorem getAncestor_eq (height : ℕ) :
    getAncestor blocks.memory block height = blocks.tree.ancestorAt height block :=
  blocks.getAncestor_eq_of_skips fun other _ => blocks.skipsToAncestor other

variable {pa pb : Block}

theorem nHeight_pos_of_ne
    (equal : (blocks.memory pa).nHeight = (blocks.memory pb).nHeight) (differ : pa ≠ pb) :
    0 < (blocks.memory pa).nHeight := by
  by_contra low
  have genesis : ∀ block, (blocks.memory block).nHeight = 0 →
      (blocks.memory block).pprev = none := by
    refine fun block zero => eq_none_iff_forall_ne_some.mpr fun prev isPrev => ?_
    have high := blocks.nHeight_succ isPrev
    omega
  exact differ (blocks.genesis_unique (genesis pa (by omega)) (genesis pb (by omega)))

/-- The inner loop ends at two different blocks of equal height, with the last
common ancestor of the two it started from. -/
theorem skipWhileApart_spec {rounds : ℕ}
    (equal : (blocks.memory pa).nHeight = (blocks.memory pb).nHeight) (differ : pa ≠ pb)
    (enough : (blocks.memory pa).nHeight < rounds) :
    ∃ pa' pb', skipWhileApart blocks.memory rounds pa pb = some (pa', pb') ∧ pa' ≠ pb' ∧
      (blocks.memory pa').nHeight = (blocks.memory pb').nHeight ∧
      (blocks.memory pa').nHeight ≤ (blocks.memory pa).nHeight ∧
      ∀ common, blocks.tree.IsLastCommon common pa' pb' →
        blocks.tree.IsLastCommon common pa pb := by
  induction rounds generalizing pa pb with
  | zero => exact absurd enough (not_lt_zero _)
  | succ rounds ih =>
    rw [skipWhileApart]
    split_ifs with sameSkip
    · exact ⟨pa, pb, rfl, differ, equal, le_rfl, fun _ isLast => isLast⟩
    · have high := blocks.nHeight_pos_of_ne equal differ
      have skipLt := getSkipHeight_lt high
      have skipA := blocks.skipsToAncestor pa high
      have skipB := blocks.skipsToAncestor pb (equal ▸ high)
      rw [← equal] at skipB
      obtain ⟨ta, foundA⟩ := blocks.tree.exists_ancestorAt
        (show getSkipHeight (blocks.memory pa).nHeight ≤ blocks.tree.height pa from skipLt.le)
      obtain ⟨tb, foundB⟩ := blocks.tree.exists_ancestorAt
        (show getSkipHeight (blocks.memory pa).nHeight ≤ blocks.tree.height pb by
          rw [tree_height, ← equal]; exact skipLt.le)
      rw [skipA, skipB, foundA, foundB, some_inj] at sameSkip
      have heightA := blocks.tree.height_of_ancestorAt foundA
      have heightB := blocks.tree.height_of_ancestorAt foundB
      rw [tree_height] at heightA heightB
      obtain ⟨pa', pb', ends, differ', equal', le', isLast'⟩ :=
        ih (heightA.trans heightB.symm) sameSkip (by omega)
      refine ⟨pa', pb', ?_, differ', equal', by omega, fun common isLast => ?_⟩
      · rw [skipA, skipB, foundA, foundB]
        exact ends
      · exact .of_ancestors foundA foundB sameSkip (isLast' common isLast)

/-- From two blocks of equal height the outer loop ends at their last common
ancestor. -/
theorem stepWhileApart_spec {rounds : ℕ}
    (equal : (blocks.memory pa).nHeight = (blocks.memory pb).nHeight)
    (enough : (blocks.memory pa).nHeight < rounds) :
    ∃ common, stepWhileApart blocks.memory rounds pa pb = some common ∧
      blocks.tree.IsLastCommon common pa pb := by
  induction rounds generalizing pa pb with
  | zero => exact absurd enough (not_lt_zero _)
  | succ rounds ih =>
    rw [stepWhileApart]
    split_ifs with same
    · subst same
      exact ⟨pa, rfl, .self pa⟩
    · obtain ⟨pa', pb', ends, differ', equal', le', isLast'⟩ :=
        blocks.skipWhileApart_spec equal same (lt_succ_self _)
      have highA := blocks.nHeight_pos_of_ne equal' differ'
      obtain ⟨qa, isPrevA⟩ := blocks.tree.exists_parent (show 0 < blocks.tree.height pa' from highA)
      obtain ⟨qb, isPrevB⟩ := blocks.tree.exists_parent
        (show 0 < blocks.tree.height pb' by rw [tree_height, ← equal']; exact highA)
      have heightA := blocks.nHeight_succ isPrevA
      have heightB := blocks.nHeight_succ isPrevB
      obtain ⟨common, found, isLast⟩ := ih (by omega :
        (blocks.memory qa).nHeight = (blocks.memory qb).nHeight) (by omega)
      rw [tree_parent] at isPrevA isPrevB
      refine ⟨common, ?_, ?_⟩
      · rw [ends, bind_some, isPrevA, bind_some, isPrevB, bind_some]
        exact found
      · exact isLast' common (.of_parents isPrevA isPrevB equal' differ' isLast)

/-- `lastCommonAncestor` terminates at the last common ancestor. -/
theorem lastCommonAncestor_spec (pa pb : Block) :
    ∃ common, lastCommonAncestor blocks.memory pa pb = some common ∧
      blocks.tree.IsLastCommon common pa pb := by
  unfold lastCommonAncestor
  split_ifs with higher lower
  · obtain ⟨pa', found⟩ := blocks.tree.exists_ancestorAt
      (show (blocks.memory pb).nHeight ≤ blocks.tree.height pa from higher.le)
    have height' := blocks.tree.height_of_ancestorAt found
    rw [tree_height] at height'
    obtain ⟨common, ends, isLast⟩ := blocks.stepWhileApart_spec height' (lt_succ_self _)
    refine ⟨common, ?_, .of_rewind found isLast⟩
    rw [blocks.getAncestor_eq, found]
    exact ends
  · obtain ⟨pb', found⟩ := blocks.tree.exists_ancestorAt
      (show (blocks.memory pa).nHeight ≤ blocks.tree.height pb from lower.le)
    have height' := blocks.tree.height_of_ancestorAt found
    rw [tree_height] at height'
    obtain ⟨common, ends, isLast⟩ := blocks.stepWhileApart_spec height'.symm (lt_succ_self _)
    refine ⟨common, ?_, (IsLastCommon.of_rewind found isLast.symm).symm⟩
    rw [blocks.getAncestor_eq, found]
    exact ends
  · exact blocks.stepWhileApart_spec (by omega) (lt_succ_self _)

/-- The skip pointers give the ancestry that the parent pointers give. `getAncestor` reaches
what following `pprev` reaches, at every height up to the block's own, and `lastCommonAncestor`
ends at the one common ancestor of greatest height. -/
theorem ancestry_eq_iteration : (∀ block height, height ≤ (blocks.memory block).nHeight → ∃ above,
      getAncestor blocks.memory block height = some above ∧
        blocks.tree.climb ((blocks.memory block).nHeight - height) block = some above) ∧
    ∀ pa pb, ∃ common, lastCommonAncestor blocks.memory pa pb = some common ∧
      blocks.tree.IsAncestor common pa ∧ blocks.tree.IsAncestor common pb ∧
      ∀ other, blocks.tree.IsAncestor other pa → blocks.tree.IsAncestor other pb →
        other ≠ common → (blocks.memory other).nHeight < (blocks.memory common).nHeight := by
  constructor
  · intro block height low
    obtain ⟨above, found⟩ := blocks.tree.exists_ancestorAt low
    refine ⟨above, (blocks.getAncestor_eq block height).trans found, ?_⟩
    exact (blocks.tree.ancestorAt_of_le low).symm.trans found
  · intro pa pb
    obtain ⟨common, found, isLast⟩ := blocks.lastCommonAncestor_spec pa pb
    refine ⟨common, found, isLast.left, isLast.right, ?_⟩
    intro other left right differ
    have above := isLast.last other left right
    refine lt_of_le_of_ne above.height_le fun same => differ ?_
    exact above.eq_of_height_eq (.refl common) same

end SkipTree

/-- A block index as the block manager builds it. -/
structure BlockTree (Block : Type*) [DecidableEq Block] extends SkipTree Block where
  nChainWork_le : ∀ {block prev}, (memory block).pprev = some prev →
    (memory prev).nChainWork ≤ (memory block).nChainWork
  hash_injective : ∀ {first second}, (memory first).hash = (memory second).hash → first = second

namespace BlockTree

variable {Block : Type*} [DecidableEq Block] (blocks : BlockTree Block)

theorem nChainWork_le_of_isAncestor {above block : Block}
    (ancestor : blocks.tree.IsAncestor above block) :
    (blocks.memory above).nChainWork ≤ (blocks.memory block).nChainWork := by
  suffices byDepth : ∀ depth block, blocks.tree.climb depth block = some above →
      (blocks.memory above).nChainWork ≤ (blocks.memory block).nChainWork by
    have reached := blocks.tree.ancestorAt_of_le ancestor.height_le
    exact byDepth _ block (reached.symm.trans ancestor)
  intro depth
  induction depth with
  | zero =>
    intro block reached
    rw [climb_zero, some_inj] at reached
    rw [reached]
  | succ depth ih =>
    intro block reached
    rw [climb_succ, bind_eq_some_iff] at reached
    obtain ⟨prev, isPrev, rest⟩ := reached
    exact (ih prev rest).trans (blocks.nChainWork_le isPrev)

end BlockTree

/-! ## Chains without forks -/

section

variable {n : ℕ} (nTx chainTxCount : Fin n → ℕ) (nStatus : Fin n → BlockStatus)

/-- A block below another one. -/
def linearBelow (block : Fin n) {height : ℕ} (below : height < block.val) : Fin n :=
  ⟨height, below.trans block.isLt⟩

/-- The entries of a chain: every block is known by its height. -/
def linearMemory : BlockMemory (Fin n) := fun block =>
  { hash := BitVec.ofNat 256 block.val
    pprev :=
      if high : 0 < block.val then some (linearBelow block (sub_one_lt_of_lt high)) else none
    pskip := if high : 0 < block.val then some (linearBelow block (getSkipHeight_lt high)) else none
    nHeight := block.val
    nChainWork := block.val + 1
    nTx := nTx block
    chainTxCount := chainTxCount block
    nStatus := nStatus block }

variable {nTx chainTxCount nStatus} {block : Fin n}

theorem linearMemory_pprev (high : 0 < block.val) :
    (linearMemory nTx chainTxCount nStatus block).pprev =
      some (linearBelow block (sub_one_lt_of_lt high)) :=
  dif_pos high

theorem linearMemory_pskip (high : 0 < block.val) :
    (linearMemory nTx chainTxCount nStatus block).pskip =
      some (linearBelow block (getSkipHeight_lt high)) :=
  dif_pos high

theorem linearMemory_pprev_eq_some {prev : Fin n}
    (isPrev : (linearMemory nTx chainTxCount nStatus block).pprev = some prev) :
    block.val = prev.val + 1 := by
  by_cases high : 0 < block.val
  · rw [linearMemory_pprev high, some_inj] at isPrev
    have value := congrArg Fin.val isPrev
    simp only [linearBelow] at value
    omega
  · simp [linearMemory, high] at isPrev

theorem linearMemory_pprev_eq_none
    (isGenesis : (linearMemory nTx chainTxCount nStatus block).pprev = none) : block.val = 0 := by
  by_contra high
  rw [linearMemory_pprev (pos_of_ne_zero high)] at isGenesis
  cases isGenesis

variable (nTx chainTxCount nStatus) in
/-- A chain as a tree of entries. -/
def HeightTree.linear : HeightTree (Fin n) where
  memory := linearMemory nTx chainTxCount nStatus
  nHeight_genesis := linearMemory_pprev_eq_none
  nHeight_succ := linearMemory_pprev_eq_some
  genesis_unique isGenesis isGenesis' := Fin.ext
    ((linearMemory_pprev_eq_none isGenesis).trans (linearMemory_pprev_eq_none isGenesis').symm)

theorem ancestorAt_linear {height : ℕ} (le : height ≤ block.val) :
    (HeightTree.linear nTx chainTxCount nStatus).tree.ancestorAt height block =
      some ⟨height, le.trans_lt block.isLt⟩ := by
  obtain ⟨above, found⟩ :=
    (HeightTree.linear nTx chainTxCount nStatus).tree.exists_ancestorAt le
  rw [found]
  exact congrArg some (Fin.ext (height_of_ancestorAt _ found))

theorem linearMemory_pskip_built (block : Fin n) :
    (linearMemory nTx chainTxCount nStatus block).pskip =
      buildSkip (linearMemory nTx chainTxCount nStatus) block := by
  by_cases high : 0 < block.val
  · rw [buildSkip, linearMemory_pprev high, bind_some, linearMemory_pskip high]
    have skips : ∀ other, (HeightTree.linear nTx chainTxCount nStatus).SkipsToAncestor other :=
      fun other high => (linearMemory_pskip high).trans
        (ancestorAt_linear (getSkipHeight_lt high).le).symm
    exact (((HeightTree.linear nTx chainTxCount nStatus).getAncestor_eq_of_skips
      fun other _ => skips other).trans
        (ancestorAt_linear (le_sub_one_of_lt (getSkipHeight_lt high)))).symm
  · rw [buildSkip]
    simp [linearMemory, high]

variable (nTx chainTxCount nStatus)

/-- A chain as a block index. -/
def BlockTree.linear (fits : n ≤ 2 ^ 256) : BlockTree (Fin n) where
  toHeightTree := HeightTree.linear nTx chainTxCount nStatus
  pskip_built := linearMemory_pskip_built
  nChainWork_le isPrev := by
    have above := linearMemory_pprev_eq_some isPrev
    simp only [HeightTree.linear, linearMemory]
    omega
  hash_injective := by
    intro first second same
    have same' := congrArg BitVec.toNat same
    simp only [HeightTree.linear, linearMemory, toNat_ofNat] at same'
    rw [mod_eq_of_lt (first.isLt.trans_le fits), mod_eq_of_lt (second.isLt.trans_le fits)] at same'
    exact Fin.ext same'

variable {nTx chainTxCount nStatus}

theorem BlockTree.isAncestor_linear (fits : n ≤ 2 ^ 256) {lower upper : Fin n}
    (le : lower ≤ upper) :
    (BlockTree.linear nTx chainTxCount nStatus fits).tree.IsAncestor lower upper :=
  ancestorAt_linear (Fin.le_def.mp le)

end

/-! ## The active chain -/

/-- An in-memory indexed chain of blocks: the block at every height, from the
genesis block up to the tip. -/
structure CChain {Block : Type*} [DecidableEq Block] (blocks : BlockTree Block) where
  vChain : List Block
  vChain_height : ∀ {height block}, vChain[height]? = some block →
    (blocks.memory block).nHeight = height
  vChain_linked : ∀ {height block}, vChain[height + 1]? = some block →
    (blocks.memory block).pprev = vChain[height]?
  tip : Block
  vChain_tip : vChain.getLast? = some tip

namespace CChain

variable {Block : Type*} [DecidableEq Block] {blocks : BlockTree Block}

/-- The block is the one at its height. -/
def contains (chain : CChain blocks) (block : Block) : Bool :=
  chain.vChain[(blocks.memory block).nHeight]? = some block

theorem getElem?_take_finRange {n : ℕ} (tip : Fin n) (height : ℕ) (block : Fin n) :
    ((List.finRange n).take (tip.val + 1))[height]? = some block ↔
      height ≤ tip.val ∧ block.val = height := by
  rw [List.getElem?_take, ite_none_right_eq_some, List.getElem?_eq_some_iff]
  constructor
  · rintro ⟨low, -, rfl⟩
    simp only [List.getElem_finRange, Fin.val_cast, and_true]
    omega
  · rintro ⟨low, rfl⟩
    exact ⟨by omega, by simp, Fin.ext (by simp)⟩

/-- The chain up to one of its blocks. -/
def linear {n : ℕ} (nTx chainTxCount : Fin n → ℕ) (nStatus : Fin n → BlockStatus)
    (fits : n ≤ 2 ^ 256) (tip : Fin n) :
    CChain (BlockTree.linear nTx chainTxCount nStatus fits) where
  vChain := (List.finRange n).take (tip.val + 1)
  vChain_height found := ((getElem?_take_finRange tip _ _).mp found).2
  vChain_linked := by
    intro height block found
    obtain ⟨low, isBlock⟩ := (getElem?_take_finRange tip _ _).mp found
    refine (linearMemory_pprev (by omega)).trans ?_
    exact ((getElem?_take_finRange tip _ _).mpr ⟨by omega, by simp only [linearBelow]; omega⟩).symm
  tip := tip
  vChain_tip := by
    rw [List.getLast?_eq_getElem?, getElem?_take_finRange]
    simp only [List.length_take, List.length_finRange]
    omega

theorem contains_linear {n : ℕ} {nTx chainTxCount : Fin n → ℕ} {nStatus : Fin n → BlockStatus}
    (fits : n ≤ 2 ^ 256) (tip block : Fin n) :
    (linear nTx chainTxCount nStatus fits tip).contains block = decide (block ≤ tip) := by
  refine decide_eq_decide.mpr ((getElem?_take_finRange tip _ _).trans ?_)
  exact ⟨(·.1), fun low => ⟨low, rfl⟩⟩

end CChain

end Chain

end BitcoinCore
