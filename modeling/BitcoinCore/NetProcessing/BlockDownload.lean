import BitcoinCore.NetProcessing.BlockAvailability
import BitcoinCore.NetProcessing.InFlight

/-!
# Which blocks to download next

`findNextBlocksToDownload` chooses the blocks to request from a peer: it walks
from the last block in common with the peer towards the peer's best block, in
batches that are read back to front, and leaves the walk early for any of five
reasons. A search carries the blocks found so far, the last common block, and the
peer that the first block in flight is awaited from.

The batches make no difference: the walk visits the blocks of the peer's chain
one by one, from the last common block up to one above the download window
(`findNextBlocks_eq`). So it finds exactly the first blocks on that path that are
wanted (`findNextBlocksToDownload_spec`).
-/

namespace BitcoinCore.NetProcessing

open Net Chain Node List Option BlockDownloads

/-! ## The source -/

/-- What a search for blocks depends on. `usesActiveChain` says that the caller
gives the active chain. -/
structure BlockQuery (Block R : Type*) [DecidableEq Block] where
  chainman : ChainstateManager Block
  downloads : BlockDownloads Block R
  peer : Peer
  pindexBestKnownBlock : Block
  count : ℕ
  nWindowEnd : ℕ
  usesActiveChain : Bool

structure BlockSearch (Block : Type*) where
  vBlocks : List Block
  pindexLastCommonBlock : Option Block
  waitingfor : NodeId
  nodeStaller : NodeId

/-- The block and those before it, as many as are asked for, lowest first. -/
def backFill {Block : Type*} (memory : BlockMemory Block) : ℕ → Block → Option (List Block)
  | 0, pindex => some [pindex]
  | more + 1, pindex =>
    (memory pindex).pprev.bind fun prev => (backFill memory more prev).map (· ++ [pindex])

variable {Block R : Type*} [DecidableEq Block]

namespace BlockQuery

variable (query : BlockQuery Block R)

def entry (pindex : Block) : CBlockIndex Block := query.chainman.entry pindex

/-- The block may be requested from the peer: its chain is not known to be
invalid, and the peer can serve its witnesses. -/
def isServeable (pindex : Block) : Bool :=
  (query.entry pindex).isValid blockValidTree &&
    (query.peer.canServeWitnesses || !query.chainman.segwitActiveAt pindex)

def isHeld (pindex : Block) : Bool :=
  (query.entry pindex).haveData ||
    (query.usesActiveChain && query.chainman.activeChain.contains pindex)

def isInFlight (pindex : Block) : Bool :=
  query.downloads.isBlockRequested (query.entry pindex).hash

def firstInLine (pindex : Block) : NodeId :=
  ((query.downloads.equalRange (query.entry pindex).hash).head?.map InFlight.nodeId).getD (-1)

/-- The block goes further back than what a limited peer can provide. -/
def isTooOld (pindex : Block) : Bool :=
  query.peer.isLimitedPeer && (nodeNetworkLimitedMinBlocks : ℤ) - 2 ≤
      (query.entry query.pindexBestKnownBlock).nHeight - (query.entry pindex).nHeight

/-- One round of the loop over the blocks of a batch. An error is a return. -/
def visit (search : BlockSearch Block) (pindex : Block) :
    Except (BlockSearch Block) (BlockSearch Block) :=
  if !query.isServeable pindex then .error search
  else if query.isHeld pindex then
    .ok { search with
      pindexLastCommonBlock :=
        if query.usesActiveChain && (query.entry pindex).haveNumChainTxs then some pindex
        else search.pindexLastCommonBlock }
  else if query.isInFlight pindex then
    .ok { search with
      waitingfor := if search.waitingfor = -1 then query.firstInLine pindex else search.waitingfor }
  else if query.nWindowEnd < (query.entry pindex).nHeight then
    .error { search with
      nodeStaller :=
        if search.vBlocks = [] ∧ search.waitingfor ≠ query.peer.id then search.waitingfor
        else search.nodeStaller }
  else if query.isTooOld pindex then .ok search
  else
    let search := { search with vBlocks := search.vBlocks ++ [pindex] }
    if search.vBlocks.length = query.count then .error search else .ok search

def nMaxHeight : ℕ := min (query.entry query.pindexBestKnownBlock).nHeight (query.nWindowEnd + 1)

/-- The loop over the batches, with a bound on its number of rounds. `none` stands
for a null pointer. -/
def findNextBlocksLoop : ℕ → Block → BlockSearch Block → Option (BlockSearch Block)
  | 0, _, _ => none
  | rounds + 1, pindexWalk, search =>
    let height := (query.entry pindexWalk).nHeight
    if height < query.nMaxHeight then
      let nToFetch := min (query.nMaxHeight - height)
        (max (query.count - search.vBlocks.length) 128)
      (getAncestor query.chainman.blocks.memory query.pindexBestKnownBlock
          ((height + nToFetch : ℕ) : ℤ)).bind fun pindexWalk =>
        (backFill query.chainman.blocks.memory (nToFetch - 1) pindexWalk).bind fun vToFetch =>
          match vToFetch.foldlM query.visit search with
          | .error search => some search
          | .ok search => findNextBlocksLoop rounds pindexWalk search
    else some search

def findNextBlocks (pindexWalk : Block) (search : BlockSearch Block) :
    Option (BlockSearch Block) :=
  query.findNextBlocksLoop (query.nMaxHeight + 1) pindexWalk search

end BlockQuery

namespace ChainstateManager

variable (chainman : ChainstateManager Block)

/-- The snapshot is not validated, and a chain does not contain its base. -/
def lacksSnapshotBase (best : Block) : Bool :=
  chainman.snapshotBase.any fun base =>
    chainman.assumeutxo = .unvalidated &&
      getAncestor chainman.blocks.memory best (chainman.entry base).nHeight ≠ some base

/-- The best known block of a peer, if the peer has something interesting. -/
def interestingBlock (state : CNodeState Block R) : Option Block :=
  state.pindexBestKnownBlock.filter fun best =>
    (chainman.entry chainman.activeTip).nChainWork ≤ (chainman.entry best).nChainWork &&
      chainman.minimumChainWork ≤ (chainman.entry best).nChainWork &&
      !chainman.lacksSnapshotBase best

/-- The last common block that a search starts from: the fork point with the
active chain, unless an ancestor of the best block with as much work is known. -/
def startBlock (state : CNodeState Block R) (best forkPoint : Block) : Block :=
  match state.pindexLastCommonBlock with
  | none => forkPoint
  | some lastCommon =>
    if (chainman.entry lastCommon).nChainWork < (chainman.entry forkPoint).nChainWork ∨
        getAncestor chainman.blocks.memory best (chainman.entry lastCommon).nHeight ≠
          some lastCommon then
      forkPoint
    else lastCommon

end ChainstateManager

/-- What a search for blocks leaves behind: the state of the peer, the blocks, and
the peer to blame for a stall. -/
structure DownloadResult (Block R : Type*) where
  state : CNodeState Block R
  vBlocks : List Block
  nodeStaller : NodeId

section

variable (chainman : ChainstateManager Block)
  (downloads : BlockDownloads Block R) (peer : Peer)

def downloadQuery (window count : ℕ) (best start : Block) : BlockQuery Block R where
  chainman := chainman
  downloads := downloads
  peer := peer
  pindexBestKnownBlock := best
  count := count
  nWindowEnd := (chainman.entry start).nHeight + window
  usesActiveChain := true

/-- Choose the blocks to download from a peer with the given state. The length of
the download window is a parameter; it is `blockDownloadWindow`. -/
def findNextBlocksToDownload (window : ℕ) (state : CNodeState Block R) (count : ℕ)
    (vBlocks : List Block) (nodeStaller : NodeId) : Option (DownloadResult Block R) :=
  if count = 0 then some ⟨state, vBlocks, nodeStaller⟩
  else
    let state := state.processBlockAvailability chainman
    match chainman.interestingBlock state with
    | none => some ⟨state, vBlocks, nodeStaller⟩
    | some best =>
      (lastCommonAncestor chainman.blocks.memory best chainman.activeTip).bind fun forkPoint =>
        let start := chainman.startBlock state best forkPoint
        if start = best then
          some ⟨{ state with pindexLastCommonBlock := some start }, vBlocks, nodeStaller⟩
        else
          ((downloadQuery chainman downloads peer window count best start).findNextBlocks start
              ⟨vBlocks, some start, -1, nodeStaller⟩).map fun search =>
            ⟨{ state with pindexLastCommonBlock := search.pindexLastCommonBlock },
              search.vBlocks, search.nodeStaller⟩

end

/-! ## Batches make no difference -/

namespace BlockQuery

variable (query : BlockQuery Block R)

/-- What a search has found when it has visited the blocks, or has ended early. -/
def walk (path : List Block) (search : BlockSearch Block) : BlockSearch Block :=
  match path.foldlM query.visit search with
  | .error stopped => stopped
  | .ok finished => finished

/-- The blocks of the chain above a block, up to where the search ends. -/
def path (pindexWalk : Block) : List Block :=
  query.chainman.blocks.tree.segment (query.entry pindexWalk).nHeight query.nMaxHeight
    query.pindexBestKnownBlock

theorem backFill_eq (blocks : BlockTree Block) {low more : ℕ} {best pindex : Block}
    (found : blocks.tree.ancestorAt (low + more + 1) best = some pindex) :
    backFill blocks.memory more pindex = some (blocks.tree.segment low (low + more + 1) best) := by
  induction more generalizing pindex with
  | zero =>
    rw [backFill, Nat.add_zero, blocks.tree.segment_succ (Nat.le_refl low) found]
    simp
  | succ more ih =>
    obtain ⟨prev, isPrev⟩ := blocks.tree.exists_ancestorAt
      (show low + (more + 1) ≤ blocks.tree.height best by
        have high := blocks.tree.le_of_ancestorAt found
        omega)
    have parent := blocks.tree.parent_of_ancestorAt found
    rw [HeightTree.tree_parent, isPrev] at parent
    rw [backFill, parent, bind_some, ih isPrev,
      blocks.tree.segment_succ (by omega : low ≤ low + (more + 1)) found]
    rfl

theorem findNextBlocksLoop_eq {rounds : ℕ} {pindexWalk : Block} (search : BlockSearch Block)
    (enough : query.nMaxHeight - (query.entry pindexWalk).nHeight < rounds) :
    query.findNextBlocksLoop rounds pindexWalk search =
      some (query.walk (query.path pindexWalk) search) := by
  -- On the number of rounds: a batch is a segment, and the segments join.
  induction rounds generalizing pindexWalk search with
  | zero => exact absurd enough (Nat.not_lt_zero _)
  | succ rounds ih =>
    rw [findNextBlocksLoop]
    dsimp only
    split_ifs with below
    · obtain ⟨nToFetch, isFetch⟩ : ∃ nToFetch, min
          (query.nMaxHeight - (query.entry pindexWalk).nHeight)
            (max (query.count - search.vBlocks.length) 128) = nToFetch + 1 :=
        Nat.exists_eq_add_one.mpr (by omega)
      have withinMax : (query.entry pindexWalk).nHeight + nToFetch + 1 ≤ query.nMaxHeight := by
        omega
      obtain ⟨pindexWalk', found⟩ := query.chainman.blocks.tree.exists_ancestorAt
        (show (query.entry pindexWalk).nHeight + nToFetch + 1 ≤
            query.chainman.blocks.tree.height query.pindexBestKnownBlock from
          withinMax.trans (Nat.min_le_left _ _))
      have height' : (query.entry pindexWalk').nHeight =
          (query.entry pindexWalk).nHeight + nToFetch + 1 :=
        query.chainman.blocks.tree.height_of_ancestorAt found
      have joined : query.path pindexWalk =
          query.chainman.blocks.tree.segment (query.entry pindexWalk).nHeight
            ((query.entry pindexWalk).nHeight + nToFetch + 1) query.pindexBestKnownBlock ++
            query.path pindexWalk' := by
        rw [path, path, height', query.chainman.blocks.tree.segment_append (by omega) withinMax]
      rw [isFetch, ← Nat.add_assoc, query.chainman.blocks.getAncestor_eq, found,
        bind_some, Nat.add_sub_cancel, backFill_eq query.chainman.blocks found,
        bind_some, joined, walk, foldlM_append]
      generalize List.foldlM query.visit search _ = visited
      cases visited with
      | error stopped => rfl
      | ok continued => exact ih continued (by omega)
    · rw [path, ParentTree.segment, Nat.sub_eq_zero_of_le (by omega)]
      rfl

/-- The walk in batches visits the blocks of the path one by one. -/
theorem findNextBlocks_eq (pindexWalk : Block) (search : BlockSearch Block) :
    query.findNextBlocks pindexWalk search = some (query.walk (query.path pindexWalk) search) :=
  query.findNextBlocksLoop_eq search (by omega)

/-! ## What a visit does -/

def isWanted (pindex : Block) : Bool :=
  !query.isHeld pindex && !query.isInFlight pindex &&
    (query.entry pindex).nHeight ≤ query.nWindowEnd && !query.isTooOld pindex

/-- The block is passed by: it is held, in flight, or inside the window and too
old for the peer. -/
def isPassed (pindex : Block) : Bool :=
  query.isHeld pindex || query.isInFlight pindex ||
    ((query.entry pindex).nHeight ≤ query.nWindowEnd && query.isTooOld pindex)

def awaited (waitingfor : NodeId) (pindex : Block) : NodeId :=
  if waitingfor = -1 ∧ query.isHeld pindex = false ∧ query.isInFlight pindex = true then
    query.firstInLine pindex
  else waitingfor

/-- The first block that could be asked for is beyond the window. -/
structure EndsWindow (pindex : Block) : Prop where
  serveable : query.isServeable pindex
  missing : query.isHeld pindex = false
  unrequested : query.isInFlight pindex = false
  above : query.nWindowEnd < (query.entry pindex).nHeight

/-- How a walk goes on from a search, over a list of blocks. -/
inductive Walks : BlockSearch Block → List Block → BlockSearch Block → Prop where
  | finished {search : BlockSearch Block} : Walks search [] search
  | unserveable {search : BlockSearch Block} {pindex : Block} {rest : List Block}
      (refused : query.isServeable pindex = false) : Walks search (pindex :: rest) search
  | passed {search res : BlockSearch Block} {pindex : Block} {rest : List Block}
      {lastCommon : Option Block} (serveable : query.isServeable pindex)
      (isPassed : query.isPassed pindex)
      (isLast : lastCommon = search.pindexLastCommonBlock ∨ lastCommon = some pindex)
      (later : Walks { search with
        pindexLastCommonBlock := lastCommon
        waitingfor := query.awaited search.waitingfor pindex } rest res) :
      Walks search (pindex :: rest) res
  | beyond {search : BlockSearch Block} {pindex : Block} {rest : List Block}
      (ends : query.EndsWindow pindex) :
      Walks search (pindex :: rest) { search with
        nodeStaller :=
          if search.vBlocks = [] ∧ search.waitingfor ≠ query.peer.id then search.waitingfor
          else search.nodeStaller }
  | full {search : BlockSearch Block} {pindex : Block} {rest : List Block}
      (serveable : query.isServeable pindex) (isWanted : query.isWanted pindex)
      (last : search.vBlocks.length + 1 = query.count) :
      Walks search (pindex :: rest) { search with vBlocks := search.vBlocks ++ [pindex] }
  | taken {search res : BlockSearch Block} {pindex : Block} {rest : List Block}
      (serveable : query.isServeable pindex) (isWanted : query.isWanted pindex)
      (more : search.vBlocks.length + 1 ≠ query.count)
      (later : Walks { search with vBlocks := search.vBlocks ++ [pindex] } rest res) :
      Walks search (pindex :: rest) res

theorem walk_cons (pindex : Block) (rest : List Block) (search : BlockSearch Block) :
    query.walk (pindex :: rest) search =
      match query.visit search pindex with
      | .error stopped => stopped
      | .ok next => query.walk rest next := by
  rw [walk, foldlM_cons]
  cases query.visit search pindex <;> rfl

theorem walks (path : List Block) (search : BlockSearch Block) :
    query.Walks search path (query.walk path search) := by
  induction path generalizing search with
  | nil => exact .finished
  | cons pindex rest ih =>
    rw [walk_cons]
    unfold visit
    cases serveable : query.isServeable pindex with
    | false => exact .unserveable serveable
    | true =>
      simp only [Bool.not_true, Bool.false_eq_true, if_false]
      cases held : query.isHeld pindex with
      | true =>
        have waits : query.awaited search.waitingfor pindex = search.waitingfor := by
          simp [awaited, held]
        refine .passed serveable (by simp [isPassed, held]) ?_ (by rw [waits]; exact ih _)
        split_ifs
        · exact .inr rfl
        · exact .inl rfl
      | false =>
        simp only [Bool.false_eq_true, if_false]
        cases inFlight : query.isInFlight pindex with
        | true =>
          rw [if_pos rfl]
          refine .passed serveable (by simp [isPassed, inFlight]) (.inl rfl) ?_
          simpa only [awaited, held, inFlight, and_true] using ih _
        | false =>
          simp only [Bool.false_eq_true, if_false]
          by_cases above : query.nWindowEnd < (query.entry pindex).nHeight
          · rw [if_pos above]
            exact .beyond ⟨serveable, held, inFlight, above⟩
          · rw [if_neg above]
            cases tooOld : query.isTooOld pindex with
            | true =>
              refine .passed serveable (by simp [isPassed, tooOld, not_lt.mp above]) (.inl rfl) ?_
              simpa [awaited, inFlight] using ih search
            | false =>
              have wanted : query.isWanted pindex := by
                simp [isWanted, held, inFlight, tooOld, not_lt.mp above]
              by_cases last : search.vBlocks.length + 1 = query.count
              · simpa [last] using Walks.full serveable wanted last
              · simpa [last] using Walks.taken serveable wanted last (ih _)

/-! ## What a walk finds -/

variable {query} in
theorem mem_path {pindexWalk pindex : Block} : pindex ∈ query.path pindexWalk ↔
    query.chainman.blocks.tree.IsAncestor pindex query.pindexBestKnownBlock ∧
      (query.entry pindexWalk).nHeight < (query.entry pindex).nHeight ∧
      (query.entry pindex).nHeight ≤ query.nMaxHeight :=
  query.chainman.blocks.tree.mem_segment

def Ascends (path : List Block) : Prop :=
  path.Pairwise fun lower upper => (query.entry lower).nHeight < (query.entry upper).nHeight

theorem ascends_path (pindexWalk : Block) : query.Ascends (query.path pindexWalk) :=
  query.chainman.blocks.tree.segment_pairwise _ _ _

variable {query}

theorem isWanted_of_isPassed {pindex : Block} (isPassed : query.isPassed pindex) :
    query.isWanted pindex = false := by
  simp only [BlockQuery.isPassed, Bool.or_eq_true, Bool.and_eq_true] at isPassed
  rcases isPassed with (held | inFlight) | ⟨-, tooOld⟩
  · simp [isWanted, held]
  · simp [isWanted, inFlight]
  · simp [isWanted, tooOld]

/-- A walk finds the first wanted blocks before the first one that cannot be
served. -/
theorem Walks.vBlocks {path : List Block} {search res : BlockSearch Block}
    (walks : query.Walks search path res) (ascends : query.Ascends path)
    (room : search.vBlocks.length < query.count) :
    res.vBlocks = search.vBlocks ++ ((path.takeWhile query.isServeable).filter query.isWanted).take
      (query.count - search.vBlocks.length) := by
  induction walks with
  | finished => simp
  | unserveable refused =>
    rw [takeWhile_cons, refused]
    simp
  | passed serveable isPassed isLast later ih =>
    rw [takeWhile_cons, if_pos serveable, filter_cons, if_neg (by simp [isWanted_of_isPassed isPassed])]
    exact ih (pairwise_cons.mp ascends).2 room
  | @beyond search pindex rest ends =>
    have none : ((pindex :: rest).takeWhile query.isServeable).filter query.isWanted = [] := by
      refine filter_eq_nil_iff.mpr ?_
      intro block mem
      have higher : query.nWindowEnd < (query.entry block).nHeight := by
        rcases mem_cons.mp ((List.takeWhile_prefix _).subset mem) with rfl | later
        · exact ends.above
        · exact ends.above.trans ((pairwise_cons.mp ascends).1 block later)
      simp [isWanted, not_le.mpr higher]
    rw [none]
    simp
  | full serveable isWanted last =>
    rw [takeWhile_cons, if_pos serveable, filter_cons, if_pos isWanted,
      Nat.sub_eq_of_eq_add' last.symm]
    simp
  | @taken search res pindex rest serveable isWanted more later ih =>
    rw [takeWhile_cons, if_pos serveable, filter_cons, if_pos isWanted,
      ih (pairwise_cons.mp ascends).2 (by simp; omega), show query.count - search.vBlocks.length =
        query.count - (search.vBlocks ++ [pindex]).length + 1 by simp; omega]
    simp

theorem Walks.pindexLastCommonBlock {path : List Block} {search res : BlockSearch Block}
    (walks : query.Walks search path res) :
    res.pindexLastCommonBlock = search.pindexLastCommonBlock ∨
      ∃ pindex ∈ path, res.pindexLastCommonBlock = some pindex := by
  induction walks with
  | finished | unserveable | beyond | full => exact .inl rfl
  | passed serveable isPassed isLast later ih =>
    rcases ih with same | ⟨block, mem, moved⟩
    · exact isLast.imp same.trans fun new => ⟨_, mem_cons_self, same.trans new⟩
    · exact .inr ⟨block, mem_cons_of_mem _ mem, moved⟩
  | taken serveable isWanted more later ih =>
    exact ih.imp_right fun ⟨block, mem, moved⟩ => ⟨block, mem_cons_of_mem _ mem, moved⟩

variable (query)

/-- The wanted blocks on the way from a block to the best block, before the first
one that cannot be served. -/
def wantedBlocks (start : Block) : List Block :=
  ((query.chainman.blocks.tree.segment (query.entry start).nHeight
    (query.entry query.pindexBestKnownBlock).nHeight
    query.pindexBestKnownBlock).takeWhile query.isServeable).filter query.isWanted

theorem wantedBlocks_eq {start : Block}
    (below : (query.entry start).nHeight ≤ (query.entry query.pindexBestKnownBlock).nHeight)
    (inWindow : (query.entry start).nHeight ≤ query.nWindowEnd) : query.wantedBlocks start =
      ((query.path start).takeWhile query.isServeable).filter query.isWanted := by
  have split := query.chainman.blocks.tree.segment_append
    (show (query.entry start).nHeight ≤ query.nMaxHeight from le_min below (by omega))
    (Nat.min_le_left _ _ : query.nMaxHeight ≤ (query.entry query.pindexBestKnownBlock).nHeight)
    query.pindexBestKnownBlock
  have none : ((query.chainman.blocks.tree.segment query.nMaxHeight
      (query.entry query.pindexBestKnownBlock).nHeight query.pindexBestKnownBlock).takeWhile
        query.isServeable).filter query.isWanted = [] := by
    refine filter_eq_nil_iff.mpr ?_
    intro pindex mem
    obtain ⟨-, above, atMost⟩ :=
      query.chainman.blocks.tree.mem_segment.mp ((List.takeWhile_prefix _).subset mem)
    have above' : query.nMaxHeight < (query.entry pindex).nHeight := above
    have atMost' : (query.entry pindex).nHeight ≤
      (query.entry query.pindexBestKnownBlock).nHeight := atMost
    have outside : query.nWindowEnd < (query.entry pindex).nHeight := by
      unfold nMaxHeight at above'
      omega
    simp [isWanted, not_le.mpr outside]
  rw [wantedBlocks, ← split, ← path, takeWhile_append]
  split_ifs with allServeable
  · rw [(List.takeWhile_prefix _).eq_of_length allServeable, filter_append, none, append_nil]
  · rfl

theorem ascends_wantedBlocks (start : Block) : query.Ascends (query.wantedBlocks start) :=
  ((query.chainman.blocks.tree.segment_pairwise _ _ _).sublist
    (takeWhile_sublist _)).sublist filter_sublist

end BlockQuery

/-! ## The choice of blocks -/

section

variable {chainman : ChainstateManager Block}
  {state : CNodeState Block R} {best forkPoint : Block}

namespace ChainstateManager

/-- The search starts from an ancestor of the best block that has at least the
work of the fork point. -/
theorem startBlock_spec (state : CNodeState Block R)
    (isFork : chainman.blocks.tree.IsLastCommon forkPoint best chainman.activeTip) :
    chainman.blocks.tree.IsAncestor (chainman.startBlock state best forkPoint) best ∧
      (chainman.entry forkPoint).nChainWork ≤
        (chainman.entry (chainman.startBlock state best forkPoint)).nChainWork := by
  unfold startBlock
  cases state.pindexLastCommonBlock with
  | none => exact ⟨isFork.left, le_rfl⟩
  | some lastCommon =>
    dsimp only
    split_ifs with outdated
    · exact ⟨isFork.left, le_rfl⟩
    · rw [not_or, not_lt, not_not] at outdated
      refine ⟨?_, outdated.1⟩
      rw [ParentTree.IsAncestor, ← chainman.blocks.getAncestor_eq]
      exact outdated.2

end ChainstateManager

variable (downloads : BlockDownloads Block R) (peer : Peer) (window : ℕ)

/-- The search for a peer with something interesting is a walk along the path
from the block it starts from. -/
theorem findNextBlocksToDownload_eq {count : ℕ} (wants : count ≠ 0) (vBlocks : List Block)
    (nodeStaller : NodeId)
    (interesting : chainman.interestingBlock (state.processBlockAvailability chainman) = some best)
    (fork : lastCommonAncestor chainman.blocks.memory best chainman.activeTip = some forkPoint) :
    let start := chainman.startBlock (state.processBlockAvailability chainman) best forkPoint
    let query := downloadQuery chainman downloads peer window count best start
    let search := query.walk (query.path start) ⟨vBlocks, some start, -1, nodeStaller⟩
    findNextBlocksToDownload chainman downloads peer window state count vBlocks nodeStaller =
      some ⟨{ state.processBlockAvailability chainman with
        pindexLastCommonBlock := search.pindexLastCommonBlock }, search.vBlocks,
        search.nodeStaller⟩ := by
  intro start query search
  rw [findNextBlocksToDownload, if_neg wants]
  simp only [interesting, fork, bind_some]
  split_ifs with atBest
  · have none : query.path start = [] := by
      refine eq_nil_iff_forall_not_mem.mpr ?_
      intro pindex mem
      obtain ⟨-, above, below⟩ := BlockQuery.mem_path.mp mem
      have isBest : query.pindexBestKnownBlock = start := atBest.symm
      have atMost := below.trans (Nat.min_le_left _ _)
      rw [isBest] at atMost
      omega
    have search_eq : search = ⟨vBlocks, some start, -1, nodeStaller⟩ :=
      congrArg (query.walk · _) none
    rw [search_eq]
  · rw [BlockQuery.findNextBlocks_eq]
    rfl

variable (chainman state)

/-- The blocks chosen for download. If the peer's best known block has at least
the work of the tip and the minimum work, and contains the base of a snapshot that
is not yet validated, then the search ends, and the blocks it appends are exactly
the first ones that are wanted on the path from the last common block it starts
from, in increasing order of height, before the first one that is invalid or
cannot be served. Afterwards the last common block is an ancestor of the best
block with at least the work of the fork point. -/
theorem findNextBlocksToDownload_spec (count : ℕ) (vBlocks : List Block) (nodeStaller : NodeId)
    (room : vBlocks.length < count)
    (known : (state.processBlockAvailability chainman).pindexBestKnownBlock = some best)
    (tipWork : (chainman.entry chainman.activeTip).nChainWork ≤ (chainman.entry best).nChainWork)
    (minimumWork : chainman.minimumChainWork ≤ (chainman.entry best).nChainWork)
    (snapshot : chainman.lacksSnapshotBase best = false) : ∃ res forkPoint start,
      findNextBlocksToDownload chainman downloads peer window state count vBlocks nodeStaller =
        some res ∧ chainman.blocks.tree.IsLastCommon forkPoint best chainman.activeTip ∧
      start = chainman.startBlock (state.processBlockAvailability chainman) best forkPoint ∧
      chainman.blocks.tree.IsAncestor start best ∧ res.vBlocks = vBlocks ++
        ((downloadQuery chainman downloads peer window count best start).wantedBlocks start).take
          (count - vBlocks.length) ∧
      (((downloadQuery chainman downloads peer window count best start).wantedBlocks start).take
        (count - vBlocks.length)).Pairwise
          (fun lower upper => (chainman.entry lower).nHeight < (chainman.entry upper).nHeight) ∧
      ∃ lastCommon, res.state.pindexLastCommonBlock = some lastCommon ∧
        chainman.blocks.tree.IsAncestor lastCommon best ∧
        (chainman.entry forkPoint).nChainWork ≤ (chainman.entry lastCommon).nChainWork := by
  have interesting : chainman.interestingBlock (state.processBlockAvailability chainman) =
      some best := by
    simp [ChainstateManager.interestingBlock, known, tipWork, minimumWork, snapshot]
  obtain ⟨forkPoint, fork, isFork⟩ :=
    chainman.blocks.lastCommonAncestor_spec best chainman.activeTip
  obtain ⟨ofBest, startWork⟩ :=
    ChainstateManager.startBlock_spec (state.processBlockAvailability chainman) isFork
  have isRes := findNextBlocksToDownload_eq downloads peer window
    (show count ≠ 0 by omega) vBlocks nodeStaller interesting fork
  generalize isStart : chainman.startBlock (state.processBlockAvailability chainman) best
    forkPoint = start at ofBest startWork isRes
  let query := downloadQuery chainman downloads peer window count best start
  refine ⟨_, forkPoint, start, isRes, isFork, isStart.symm, ofBest, ?_, ?_, ?_⟩
  · rw [query.wantedBlocks_eq ofBest.height_le (Nat.le_add_right _ _)]
    exact (query.walks _ _).vBlocks (query.ascends_path start) room
  · exact (query.ascends_wantedBlocks start).sublist (take_sublist _ _)
  · rcases (query.walks (query.path start)
        ⟨vBlocks, some start, -1, nodeStaller⟩).pindexLastCommonBlock with same | ⟨pindex, mem, moved⟩
    · exact ⟨start, same, ofBest, startWork⟩
    · obtain ⟨anc, above, -⟩ := BlockQuery.mem_path.mp mem
      refine ⟨pindex, moved, anc, startWork.trans ?_⟩
      exact chainman.blocks.nChainWork_le_of_isAncestor (ofBest.of_height_le anc above.le)

end

section

def threeBlocks : ChainstateManager (Fin 3) :=
  .linear (fun block => if block = 0 then 1 else 0) (fun block => if block = 0 then 1 else 0)
    (fun block => if block = 0 then blockValidScripts ||| blockHaveData else blockValidTree)
    (by decide) 0

def knownState {Block : Type} (best : Block) : CNodeState Block ℚ :=
  { CNodeState.initial with pindexBestKnownBlock := some best }

def fullNodePeer : Peer := ⟨0, nodeNetwork ||| nodeWitness, false, false⟩

/-- Two blocks are missing, and there is room for one. -/
theorem findNextBlocksToDownload_spec_threeBlocks :
    ∃ res, findNextBlocksToDownload threeBlocks initial fullNodePeer
        blockDownloadWindow (knownState 2) 1 [] (-1) = some res ∧ res.vBlocks = [1] ∧
      ∃ lastCommon, res.state.pindexLastCommonBlock = some lastCommon ∧
        threeBlocks.blocks.tree.IsAncestor lastCommon 2 := by
  obtain ⟨res, forkPoint, start, isRes, -, -, -, -, -, lastCommon, isLast, anc, -⟩ :=
    findNextBlocksToDownload_spec threeBlocks (knownState 2) initial fullNodePeer
      blockDownloadWindow 1 [] (-1) (by decide) rfl (by decide) (by decide) rfl
  refine ⟨res, isRes, ?_, lastCommon, isLast, anc⟩
  have found : (findNextBlocksToDownload threeBlocks initial fullNodePeer
      blockDownloadWindow (knownState 2) 1 [] (-1)).map DownloadResult.vBlocks = some [1] := by
    decide
  rw [isRes] at found
  exact some_inj.mp found

/-- Two blocks on the first one: the first of them is active, the second is not
held. -/
def forkedBlocks : BlockTree (Fin 3) where
  memory block :=
    if block = 0 then ⟨0, none, none, 0, 1, 1, 1, blockValidScripts ||| blockHaveData⟩
    else if block = 1 then ⟨1, some 0, some 0, 1, 2, 1, 2, blockValidScripts ||| blockHaveData⟩
    else ⟨2, some 0, some 0, 1, 2, 0, 0, blockValidTree⟩
  nHeight_genesis := by decide
  nHeight_succ := by decide
  genesis_unique := by decide
  pskip_built := by decide
  nChainWork_le := by decide
  hash_injective := by decide

/-- The active block is the base of a snapshot that is not validated yet. -/
def snapshotChainman : ChainstateManager (Fin 3) where
  blocks := forkedBlocks
  activeChain :=
    { vChain := [0, 1]
      vChain_height := by
        rintro (_ | _ | height) block found
        · cases found
          rfl
        · cases found
          rfl
        · cases found
      vChain_linked := by
        rintro (_ | height) block found
        · cases found
          rfl
        · cases found
      tip := 1
      vChain_tip := rfl }
  blockIndex _ := none
  hash_of_blockIndex found := by cases found
  isInitialBlockDownload := false
  minimumChainWork := 0
  snapshotBase := some 1
  assumeutxo := .unvalidated
  segwitActiveAt _ := false

/-- Nothing is downloaded from a peer whose best chain does not contain the base
of the snapshot, although a block on it is wanted. -/
theorem snapshotBase_missing_nothing_chosen :
    (snapshotChainman.entry snapshotChainman.activeTip).nChainWork ≤
        (snapshotChainman.entry 2).nChainWork ∧
      snapshotChainman.minimumChainWork ≤ (snapshotChainman.entry 2).nChainWork ∧
      (findNextBlocksToDownload snapshotChainman initial fullNodePeer
        blockDownloadWindow (knownState 2) 1 [] (-1)).map DownloadResult.vBlocks = some [] ∧
      lastCommonAncestor snapshotChainman.blocks.memory 2 snapshotChainman.activeTip = some 0 ∧
      (downloadQuery snapshotChainman (initial : BlockDownloads (Fin 3) ℚ)
        fullNodePeer blockDownloadWindow 1 2 0).wantedBlocks 0 = [2] := by
  decide

end

end BitcoinCore.NetProcessing
