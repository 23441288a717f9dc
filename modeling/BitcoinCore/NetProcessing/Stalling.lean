import BitcoinCore.NetProcessing.BlockDownload

/-!
# Who is blamed for a stall

When no block can be requested from a peer because the download window is used
up, the peer that the lowest block in flight is awaited from is blamed for the
stall.

A walk that blames a peer has passed by every block up to one that ends the
window (`Walks.blames`), and the peer it blames is the first in line for the lowest
block in flight (`isLowestInFlight_of_find?`). A larger window would have let the
asking peer serve a block, unless the peer is limited and the block after the
window is too old for it: the end of the window is tested first
(`stall_justified_iff`).
-/

namespace BitcoinCore.NetProcessing

open Net Chain Node List Bool

def BlockSearch.fresh {Block : Type*} (start : Block) : BlockSearch Block :=
  ⟨[], some start, -1, -1⟩

namespace BlockQuery

variable {Block R : Type*} [DecidableEq Block] (query : BlockQuery Block R)
  {search : BlockSearch Block}

/-! ## Walks that blame a peer -/

variable {query} {res : BlockSearch Block}

/-- A walk that blames a peer has passed by all blocks up to one that ends the
window, and has found none. -/
theorem Walks.blames {path : List Block} (walks : query.Walks search path res) :
    res.nodeStaller = search.nodeStaller ∨
      search.vBlocks = [] ∧ res.vBlocks = [] ∧ ∃ pre next after, path = pre ++ next :: after ∧
        (∀ pindex ∈ pre, query.isServeable pindex ∧ query.isPassed pindex) ∧
        query.EndsWindow next ∧ res.nodeStaller = pre.foldl query.awaited search.waitingfor ∧
        res.nodeStaller ≠ query.peer.id := by
  induction walks with
  | finished | unserveable | full => exact .inl rfl
  | @passed _ _ pindex _ _ serveable isPassed isLast later ih =>
    refine ih.imp_right ?_
    rintro ⟨empty, nothing, pre, next, after, rfl, passes, ends, isAwaited, other⟩
    refine ⟨empty, nothing, pindex :: pre, next, after, rfl, ?_, ends, isAwaited, other⟩
    exact forall_mem_cons.mpr ⟨⟨serveable, isPassed⟩, passes⟩
  | @beyond search pindex rest ends =>
    by_cases blames : search.vBlocks = [] ∧ search.waitingfor ≠ query.peer.id
    · right
      rw [if_pos blames]
      exact ⟨blames.1, blames.1, [], pindex, rest, rfl, by simp, ends, rfl, blames.2⟩
    · exact .inl (if_neg blames)
  | taken serveable isWanted more later ih => exact ih.imp_right fun found => by simp at found

/-- A walk that passes by all blocks up to one that ends the window blames the
peer it awaits. -/
theorem Walks.nodeStaller_of_passed {pre after : List Block} {next : Block}
    (walks : query.Walks search (pre ++ next :: after) res) (empty : search.vBlocks = [])
    (passes : ∀ pindex ∈ pre, query.isServeable pindex ∧ query.isPassed pindex)
    (ends : query.EndsWindow next)
    (other : pre.foldl query.awaited search.waitingfor ≠ query.peer.id) :
    res.nodeStaller = pre.foldl query.awaited search.waitingfor := by
  induction pre generalizing search with
  | nil =>
    cases walks with
    | unserveable refused => simp [ends.serveable] at refused
    | passed serveable isPassed =>
      simp [BlockQuery.isPassed, ends.missing, ends.unrequested, not_le.mpr ends.above]
        at isPassed
    | beyond => exact if_pos ⟨empty, other⟩
    | full serveable isWanted | taken serveable isWanted =>
      simp [BlockQuery.isWanted, not_le.mpr ends.above] at isWanted
  | cons pindex rest ih =>
    obtain ⟨⟨isServeable, passedBy⟩, passes'⟩ := forall_mem_cons.mp passes
    cases walks with
    | unserveable refused => simp [isServeable] at refused
    | passed serveable isPassed isLast later => exact ih later empty passes' other
    | beyond ends =>
      simp [BlockQuery.isPassed, ends.missing, ends.unrequested, not_le.mpr ends.above] at passedBy
    | full serveable isWanted | taken serveable isWanted =>
      simp [isWanted_of_isPassed passedBy] at isWanted

variable (query)

def isAwaited (pindex : Block) : Bool := !query.isHeld pindex && query.isInFlight pindex

theorem foldl_awaited_of_ne {waitingfor : NodeId} (waits : waitingfor ≠ -1)
    (pre : List Block) : pre.foldl query.awaited waitingfor = waitingfor := by
  induction pre with
  | nil => rfl
  | cons pindex rest ih => rw [foldl_cons, awaited, if_neg fun first => waits first.1, ih]

variable {pindex : Block}

theorem exists_request (inFlight : query.isInFlight pindex) :
    ∃ req ∈ query.downloads.mapBlocksInFlight, req.hash = (query.entry pindex).hash ∧
      req.nodeId = query.firstInLine pindex := by
  obtain ⟨requested, mem, same⟩ := any_eq_true.mp inFlight
  have inRange : requested ∈ query.downloads.equalRange (query.entry pindex).hash :=
    mem_filter.mpr ⟨mem, same⟩
  cases range : query.downloads.equalRange (query.entry pindex).hash with
  | nil => simp [range] at inRange
  | cons req rest =>
    have isIn : req ∈ query.downloads.equalRange (query.entry pindex).hash := by
      rw [range]
      exact mem_cons_self
    obtain ⟨inMap, sameHash⟩ := mem_filter.mp isIn
    exact ⟨req, inMap, of_decide_eq_true sameHash, by simp [firstInLine, range]⟩

def HasPeers : Prop := ∀ req ∈ query.downloads.mapBlocksInFlight, req.nodeId ≠ -1

variable {query}

theorem HasPeers.firstInLine_ne (hasPeers : query.HasPeers)
    (inFlight : query.isInFlight pindex) : query.firstInLine pindex ≠ -1 := by
  obtain ⟨req, mem, -, isFirst⟩ := query.exists_request inFlight
  rw [← isFirst]
  exact hasPeers req mem

theorem HasPeers.foldl_awaited (hasPeers : query.HasPeers) (pre : List Block) :
    pre.foldl query.awaited (-1) =
      (pre.find? query.isAwaited).elim (-1) query.firstInLine := by
  induction pre with
  | nil => rfl
  | cons pindex rest ih =>
    rw [foldl_cons, find?_cons]
    cases isAwaited : query.isAwaited pindex with
    | true =>
      simp only [BlockQuery.isAwaited, and_eq_true, not_eq_true'] at isAwaited
      rw [awaited, if_pos ⟨rfl, isAwaited⟩,
        query.foldl_awaited_of_ne (hasPeers.firstInLine_ne isAwaited.2)]
      rfl
    | false =>
      have skipped : query.awaited (-1) pindex = -1 := by
        rw [awaited, if_neg]
        rintro ⟨-, missing, inFlight⟩
        simp [BlockQuery.isAwaited, missing, inFlight] at isAwaited
      rw [skipped]
      exact ih

variable (query)

/-- The lowest block above a block on the way to the best block that is in flight
and not held. -/
structure IsLowestInFlight (start pindex : Block) : Prop where
  ancestor : query.chainman.blocks.tree.IsAncestor pindex query.pindexBestKnownBlock
  above : (query.entry start).nHeight < (query.entry pindex).nHeight
  isAwaited : query.isAwaited pindex
  lowest : ∀ other, query.chainman.blocks.tree.IsAncestor other query.pindexBestKnownBlock →
    (query.entry start).nHeight < (query.entry other).nHeight →
    (query.entry other).nHeight < (query.entry pindex).nHeight → query.isAwaited other = false

variable {query}

theorem isLowestInFlight_of_find? {start first : Block} {pre after : List Block}
    (split : query.path start = pre ++ after)
    (found : pre.find? query.isAwaited = some first) : query.IsLowestInFlight start first := by
  obtain ⟨isAwaited, earlier, later, rfl, unawaited⟩ := find?_eq_some_iff_append.mp found
  have mem : first ∈ query.path start := by simp [split]
  obtain ⟨ancestor, above, below⟩ := mem_path.mp mem
  refine ⟨ancestor, above, isAwaited, ?_⟩
  intro other ofBest aboveStart lower
  have isIn : other ∈ query.path start :=
    mem_path.mpr ⟨ofBest, aboveStart, lower.le.trans below⟩
  have ascends := query.ascends_path start
  rw [split, append_assoc] at isIn ascends
  rcases mem_append.mp isIn with isEarlier | isLater
  · simpa using unawaited other isEarlier
  · exfalso
    have ascends' := (pairwise_append.mp ascends).2.1
    rcases mem_cons.mp (cons_append ▸ isLater) with rfl | behind
    · exact lt_irrefl _ lower
    · exact lt_asymm lower ((pairwise_cons.mp (cons_append ▸ ascends')).1 other behind)

theorem IsLowestInFlight.isInFlight {start : Block}
    (isLowest : query.IsLowestInFlight start pindex) : query.isInFlight pindex :=
  (and_eq_true_iff.mp isLowest.isAwaited).2

theorem IsLowestInFlight.unique {start first second : Block}
    (isFirst : query.IsLowestInFlight start first)
    (isSecond : query.IsLowestInFlight start second) : first = second := by
  refine isFirst.ancestor.eq_of_height_eq isSecond.ancestor ?_
  rcases lt_trichotomy (query.entry first).nHeight (query.entry second).nHeight with
    lower | same | higher
  · have unawaited := isSecond.lowest first isFirst.ancestor isFirst.above lower
    simp [isFirst.isAwaited] at unawaited
  · exact same
  · have unawaited := isFirst.lowest second isSecond.ancestor isSecond.above higher
    simp [isSecond.isAwaited] at unawaited

/-! ## A larger window -/

variable (query)

def enlarged : BlockQuery Block R := { query with nWindowEnd := query.nWindowEnd + 1 }

variable {query} {start next : Block} {pre after : List Block}

theorem EndsWindow.is_last (ends : query.EndsWindow next)
    (split : query.path start = pre ++ next :: after) :
    (query.entry next).nHeight = query.nWindowEnd + 1 ∧ after = [] := by
  have atMost : ∀ pindex ∈ query.path start,
      (query.entry pindex).nHeight ≤ query.nWindowEnd + 1 := fun pindex mem =>
    (mem_path.mp mem).2.2.trans (Nat.min_le_right _ _)
  have nextAtMost := atMost next (by simp [split])
  have above := ends.above
  refine ⟨by omega, eq_nil_iff_forall_not_mem.mpr ?_⟩
  intro pindex mem
  have ascends := query.ascends_path start
  rw [split] at ascends
  have higher := (pairwise_cons.mp (pairwise_append.mp ascends).2.1).1 pindex mem
  have pindexAtMost := atMost pindex (by simp [split, mem])
  omega

theorem isPassed_enlarged (passed : query.isPassed pindex) : query.enlarged.isPassed pindex := by
  simp only [isPassed, or_eq_true, and_eq_true, decide_eq_true_eq] at passed ⊢
  exact passed.imp_right (.imp_left Nat.le_succ_of_le)

theorem path_enlarged (reaches : (query.entry start).nHeight ≤ query.nMaxHeight) :
    query.enlarged.path start = query.path start ++
      query.chainman.blocks.tree.segment query.nMaxHeight query.enlarged.nMaxHeight
        query.pindexBestKnownBlock := by
  have longer : query.nMaxHeight ≤ query.enlarged.nMaxHeight :=
    min_le_min le_rfl (Nat.le_succ _)
  exact (query.chainman.blocks.tree.segment_append reaches longer _).symm

theorem isWanted_of_beyond (isMax : query.nMaxHeight = query.nWindowEnd + 1)
    (mem : pindex ∈ query.chainman.blocks.tree.segment query.nMaxHeight
      query.enlarged.nMaxHeight query.pindexBestKnownBlock) :
    query.enlarged.isWanted pindex = false := by
  have above : query.nMaxHeight < (query.entry pindex).nHeight :=
    (query.chainman.blocks.tree.mem_segment.mp mem).2.1
  have outside : query.enlarged.nWindowEnd < (query.enlarged.entry pindex).nHeight := by
    rw [isMax] at above
    exact above
  simp [isWanted, not_le.mpr outside]

theorem EndsWindow.isWanted_enlarged (ends : query.EndsWindow next)
    (height : (query.entry next).nHeight = query.nWindowEnd + 1) :
    query.enlarged.isWanted next = !query.isTooOld next := by
  have held : query.enlarged.isHeld next = false := ends.missing
  have inFlight : query.enlarged.isInFlight next = false := ends.unrequested
  have isIn : (query.enlarged.entry next).nHeight ≤ query.enlarged.nWindowEnd := height.le
  have same : query.enlarged.isTooOld next = query.isTooOld next := rfl
  simp [isWanted, held, inFlight, isIn, same]

/-- A larger window adds the block that ends the window, unless that block is
too old for the peer. -/
theorem EndsWindow.enlarged_walk (ends : query.EndsWindow next)
    (split : query.path start = pre ++ next :: after)
    (passes : ∀ pindex ∈ pre, query.isServeable pindex ∧ query.isPassed pindex)
    (inWindow : (query.entry start).nHeight ≤ query.nWindowEnd) (wants : query.count ≠ 0)
    (empty : search.vBlocks = []) :
    (query.enlarged.walk (query.enlarged.path start) search).vBlocks =
      if query.isTooOld next then [] else [next] := by
  obtain ⟨height, rfl⟩ := ends.is_last split
  have isMax : query.nMaxHeight = query.nWindowEnd + 1 := by
    have mem : next ∈ query.path start := by simp [split]
    have atMost := (mem_path.mp mem).2.2
    rw [height] at atMost
    exact le_antisymm (Nat.min_le_right _ _) atMost
  have serveable : ∀ pindex ∈ query.path start, query.enlarged.isServeable pindex := by
    intro pindex mem
    rw [split, mem_append, mem_singleton] at mem
    rcases mem with mem | rfl
    · exact (passes pindex mem).1
    · exact ends.serveable
  have noneBeyond : (takeWhile query.enlarged.isServeable
      (query.chainman.blocks.tree.segment query.nMaxHeight query.enlarged.nMaxHeight
        query.pindexBestKnownBlock)).filter query.enlarged.isWanted = [] := by
    refine filter_eq_nil_iff.mpr ?_
    intro pindex mem
    simp [isWanted_of_beyond isMax ((List.takeWhile_prefix _).subset mem)]
  have noneBefore : pre.filter query.enlarged.isWanted = [] := by
    refine filter_eq_nil_iff.mpr ?_
    intro pindex mem
    simp [isWanted_of_isPassed (isPassed_enlarged (passes pindex mem).2)]
  have room : 0 < query.enlarged.count := Nat.pos_of_ne_zero wants
  rw [(query.enlarged.walks _ _).vBlocks (ascends_path _ _) (by rw [empty]; exact room), empty,
    path_enlarged (by omega), takeWhile_append_of_pos serveable, filter_append,
    noneBeyond, split, filter_append, noneBefore, filter_singleton,
    ends.isWanted_enlarged height]
  cases query.isTooOld next with
  | true => simp
  | false => simp [take_of_length_le (show [next].length ≤ query.enlarged.count from room)]

/-! ## Blame in vain -/

variable (query)

/-- A peer is blamed although the asking peer could serve no block of a larger
window either: all blocks are serveable, the block after the window is missing
but too old for the asking peer, and a block of the window is awaited from
another peer. -/
structure BlamesInVain (start : Block) : Prop where
  serveable : ∀ pindex ∈ query.path start, query.isServeable pindex
  missing : ∃ next ∈ query.path start, (query.entry next).nHeight = query.nWindowEnd + 1 ∧
    query.isHeld next = false ∧ query.isInFlight next = false ∧ query.isTooOld next
  awaits : ∃ lowest, query.IsLowestInFlight start lowest ∧
    (query.entry lowest).nHeight ≤ query.nWindowEnd ∧ query.firstInLine lowest ≠ query.peer.id

variable {query}

theorem isTooOld_of_lower (tooOld : query.isTooOld next)
    (lower : (query.entry pindex).nHeight ≤ (query.entry next).nHeight) :
    query.isTooOld pindex := by
  simp only [isTooOld, and_eq_true, decide_eq_true_eq] at tooOld ⊢
  exact ⟨tooOld.1, by omega⟩

theorem BlamesInVain.exists_split (inVain : query.BlamesInVain start) :
    ∃ pre next, query.path start = pre ++ [next] ∧
      (∀ pindex ∈ pre, query.isServeable pindex ∧ query.isPassed pindex) ∧
      query.EndsWindow next ∧ query.isTooOld next := by
  obtain ⟨next, mem, height, missing, unrequested, tooOld⟩ := inVain.missing
  obtain ⟨pre, after, split⟩ := append_of_mem mem
  have ends : query.EndsWindow next :=
    ⟨inVain.serveable next mem, missing, unrequested, by omega⟩
  obtain ⟨-, rfl⟩ := ends.is_last split
  refine ⟨pre, next, split, fun pindex isBefore => ⟨inVain.serveable pindex ?_, ?_⟩, ends,
    tooOld⟩
  · simp [split, isBefore]
  · have ascends := query.ascends_path start
    rw [split] at ascends
    have lower := (pairwise_append.mp ascends).2.2 pindex isBefore next (by simp)
    have inWindow : (query.entry pindex).nHeight ≤ query.nWindowEnd := by omega
    simp [isPassed, inWindow, isTooOld_of_lower tooOld lower.le]

theorem IsLowestInFlight.find?_eq {lowest : Block} (isLowest : query.IsLowestInFlight start lowest)
    (ends : query.EndsWindow next) (split : query.path start = pre ++ [next])
    (inWindow : (query.entry lowest).nHeight ≤ query.nWindowEnd) :
    pre.find? query.isAwaited = some lowest := by
  have atMost : (query.entry next).nHeight ≤ query.nMaxHeight :=
    (mem_path.mp (show next ∈ query.path start by simp [split])).2.2
  have above := ends.above
  have mem : lowest ∈ query.path start :=
    mem_path.mpr ⟨isLowest.ancestor, isLowest.above, by omega⟩
  rw [split, mem_append, mem_singleton] at mem
  have isBefore : lowest ∈ pre := mem.resolve_right fun isNext => by
    rw [← isNext] at above
    omega
  cases found : pre.find? query.isAwaited with
  | none =>
    have unawaited := find?_eq_none.mp found lowest isBefore
    exact absurd isLowest.isAwaited unawaited
  | some first => rw [(isLowestInFlight_of_find? split found).unique isLowest]

/-- A walk that blames a peer has found the window to be the bottleneck, unless it
blames in vain. -/
theorem HasPeers.exists_lowest_of_blames (hasPeers : query.HasPeers)
    (inWindow : (query.entry start).nHeight ≤ query.nWindowEnd) (wants : query.count ≠ 0)
    (blames : (query.walk (query.path start) (.fresh start)).nodeStaller ≠ -1) :
    (∃ lowest, query.IsLowestInFlight start lowest ∧
      (query.walk (query.path start) (.fresh start)).nodeStaller = query.firstInLine lowest) ∧
    ((query.enlarged.walk (query.enlarged.path start) (.fresh start)).vBlocks = [] →
      query.BlamesInVain start) := by
  obtain ⟨-, -, pre, next, after, split, passes, ends, isAwaited, other⟩ :=
    (query.walks _ _).blames.resolve_left blames
  obtain ⟨height, rfl⟩ := ends.is_last split
  replace isAwaited := isAwaited.trans (hasPeers.foldl_awaited pre)
  cases found : pre.find? query.isAwaited with
  | none =>
    rw [found] at isAwaited
    exact absurd isAwaited blames
  | some lowest =>
    rw [found, Option.elim_some] at isAwaited
    have isLowest := isLowestInFlight_of_find? split found
    refine ⟨⟨lowest, isLowest, isAwaited⟩, ?_⟩
    intro nothing
    have tooOld : query.isTooOld next := by
      rw [ends.enlarged_walk split passes inWindow wants rfl] at nothing
      by_contra recent
      rw [if_neg recent] at nothing
      cases nothing
    have isBefore := mem_of_find?_eq_some found
    refine ⟨fun pindex mem => ?_, ⟨next, by simp [split], height, ends.missing,
      ends.unrequested, tooOld⟩, lowest, isLowest, ?_, ?_⟩
    · rw [split, mem_append, mem_singleton] at mem
      rcases mem with mem | rfl
      · exact (passes pindex mem).1
      · exact ends.serveable
    · have ascends := query.ascends_path start
      rw [split] at ascends
      have lower := (pairwise_append.mp ascends).2.2 lowest isBefore next (by simp)
      omega
    · rw [← isAwaited]
      exact other

/-- A walk that blames in vain blames a peer, and finds nothing in a larger window
either. -/
theorem BlamesInVain.walk (inVain : query.BlamesInVain start) (hasPeers : query.HasPeers)
    (inWindow : (query.entry start).nHeight ≤ query.nWindowEnd) (wants : query.count ≠ 0) :
    (query.walk (query.path start) (.fresh start)).nodeStaller ≠ -1 ∧
      (query.enlarged.walk (query.enlarged.path start) (.fresh start)).vBlocks = [] := by
  obtain ⟨pre, next, split, passes, ends, tooOld⟩ := inVain.exists_split
  obtain ⟨lowest, isLowest, lowestInWindow, other⟩ := inVain.awaits
  have isFirst : pre.foldl query.awaited (-1) = query.firstInLine lowest := by
    rw [hasPeers.foldl_awaited, isLowest.find?_eq ends split lowestInWindow]
    rfl
  refine ⟨?_, ?_⟩
  · have blamed : (query.walk (pre ++ [next]) (.fresh start)).nodeStaller =
        pre.foldl query.awaited (-1) :=
      (query.walks _ _).nodeStaller_of_passed rfl passes ends (isFirst ▸ other)
    rw [split, blamed, isFirst]
    exact hasPeers.firstInLine_ne isLowest.isInFlight
  · rw [ends.enlarged_walk split passes inWindow wants rfl, if_pos tooOld]

end BlockQuery

/-! ## The peer that is blamed -/

section

variable {Block R : Type*} [DecidableEq Block]
  (chainman : ChainstateManager Block) (dl : BlockDownloads Block R) (peer : Peer)
  (window : ℕ) (state : CNodeState Block R) (count : ℕ)

/-- The window is what holds up the asking peer: nothing was found for it, the
blamed peer is another one that the lowest block in flight is in flight from, and
with a window that is one larger something would have been found. -/
structure WindowIsBottleneck (res : DownloadResult Block R) : Prop where
  nothing : res.vBlocks = []
  other : res.nodeStaller ≠ peer.id
  lowest : ∃ best forkPoint,
    chainman.interestingBlock (state.processBlockAvailability chainman) = some best ∧
    lastCommonAncestor chainman.blocks.memory best chainman.activeTip = some forkPoint ∧
    let start := chainman.startBlock (state.processBlockAvailability chainman) best forkPoint
    ∃ lowest, (downloadQuery chainman dl peer window count best start).IsLowestInFlight start
        lowest ∧
      ∃ req ∈ dl.mapBlocksInFlight, req.hash = (chainman.entry lowest).hash ∧
        req.nodeId = res.nodeStaller
  larger : ∃ larger, findNextBlocksToDownload chainman dl peer (window + 1) state count [] (-1) =
      some larger ∧ larger.vBlocks ≠ []

/-- A search from nothing blames a peer only when the window is the bottleneck. -/
def StallJustified : Prop :=
  ∀ res, findNextBlocksToDownload chainman dl peer window state count [] (-1) =
      some res → res.nodeStaller ≠ -1 →
    WindowIsBottleneck chainman dl peer window state count res

/-- The search is interested in the peer, and blames another one in vain. -/
def StallsInVain : Prop :=
  count ≠ 0 ∧ ∃ best forkPoint,
    chainman.interestingBlock (state.processBlockAvailability chainman) = some best ∧
    lastCommonAncestor chainman.blocks.memory best chainman.activeTip = some forkPoint ∧
    let start := chainman.startBlock (state.processBlockAvailability chainman) best forkPoint
    (downloadQuery chainman dl peer window count best start).BlamesInVain start

variable {chainman dl peer window state count}

theorem StallsInVain.not_stallJustified (hasPeers : ∀ req ∈ dl.mapBlocksInFlight, req.nodeId ≠ -1)
    (inVain : StallsInVain chainman dl peer window state count) :
    ¬ StallJustified chainman dl peer window state count := by
  obtain ⟨wants, best, forkPoint, interesting, fork, blamesInVain⟩ := inVain
  intro justified
  have isRes :=
    findNextBlocksToDownload_eq dl peer window wants [] (-1) interesting fork
  have isLarger :=
    findNextBlocksToDownload_eq dl peer (window + 1) wants [] (-1) interesting fork
  obtain ⟨blames, nothing⟩ := blamesInVain.walk hasPeers (Nat.le_add_right _ _) wants
  obtain ⟨larger, isLarger', found⟩ := (justified _ isRes blames).larger
  obtain rfl := Option.some_inj.mp (isLarger.symm.trans isLarger')
  exact found nothing

/-- A peer is blamed for a stall only when the window is the bottleneck, except
exactly when the block after the window is too old for the asking peer. -/
theorem stall_justified_iff (hasPeers : ∀ req ∈ dl.mapBlocksInFlight, req.nodeId ≠ -1) :
    StallJustified chainman dl peer window state count ↔
      ¬ StallsInVain chainman dl peer window state count := by
  refine ⟨fun justified inVain => inVain.not_stallJustified hasPeers justified, ?_⟩
  intro notInVain res isRes blames
  by_cases wants : count = 0
  · rw [findNextBlocksToDownload, if_pos wants] at isRes
    cases isRes
    exact absurd rfl blames
  cases interesting : chainman.interestingBlock (state.processBlockAvailability chainman) with
  | none =>
    rw [findNextBlocksToDownload, if_neg wants] at isRes
    simp only [interesting] at isRes
    cases isRes
    exact absurd rfl blames
  | some best =>
    obtain ⟨forkPoint, fork, -⟩ := chainman.blocks.lastCommonAncestor_spec best chainman.activeTip
    have isWalk :=
      findNextBlocksToDownload_eq dl peer window wants [] (-1) interesting fork
    have isLarger :=
      findNextBlocksToDownload_eq dl peer (window + 1) wants [] (-1) interesting fork
    obtain rfl := Option.some_inj.mp (isWalk.symm.trans isRes)
    let start := chainman.startBlock (state.processBlockAvailability chainman) best forkPoint
    let query := downloadQuery chainman dl peer window count best start
    obtain ⟨-, nothing, -, -, -, -, -, -, -, other⟩ :=
      (query.walks _ _).blames.resolve_left blames
    have hasPeers' : query.HasPeers := hasPeers
    obtain ⟨⟨lowest, isLowest, isFirst⟩, larger⟩ :=
      hasPeers'.exists_lowest_of_blames (Nat.le_add_right _ _) wants blames
    obtain ⟨req, mem, sameHash, sameNode⟩ := query.exists_request isLowest.isInFlight
    exact {
      nothing := nothing
      other := other
      lowest := ⟨best, forkPoint, interesting, fork, lowest, isLowest, req, mem,
        sameHash, sameNode.trans isFirst.symm⟩
      larger := ⟨_, isLarger, fun empty =>
        notInVain ⟨wants, best, forkPoint, interesting, fork, larger empty⟩⟩ }

end

section

/-- The first block above the genesis block is in flight from the second peer. -/
def firstBlockInFlight {Block : Type} : BlockDownloads Block ℚ :=
  ((BlockDownloads.initial.initializeNode 1).requestBlocks 1 1 [1]).getD .initial

theorem firstBlockInFlight_hasPeers {Block : Type} :
    ∀ req ∈ (firstBlockInFlight : BlockDownloads Block ℚ).mapBlocksInFlight, req.nodeId ≠ -1 := by
  have isSingle : (firstBlockInFlight : BlockDownloads Block ℚ).mapBlocksInFlight =
      [⟨1, 1, 0⟩] := rfl
  simp [isSingle]

/-- A full node has to wait for the block in flight when the window is one. -/
theorem stall_justified_iff_threeBlocks :
    (findNextBlocksToDownload threeBlocks firstBlockInFlight fullNodePeer 1 (knownState 2) 16 []
      (-1)).map DownloadResult.nodeStaller = some 1 ∧
      StallJustified threeBlocks firstBlockInFlight fullNodePeer 1 (knownState 2) 16 := by
  refine ⟨by decide, (stall_justified_iff firstBlockInFlight_hasPeers).mpr ?_⟩
  rintro ⟨-, best, forkPoint, -, -, inVain⟩
  obtain ⟨next, -, -, -, -, tooOld⟩ := inVain.missing
  have isLimited : fullNodePeer.isLimitedPeer := (and_eq_true_iff.mp tooOld).1
  exact absurd isLimited (by decide)

/-- A chain that goes on for longer than a limited peer can serve after the window
that follows the genesis block. Only the genesis block is held. -/
def longChain : ChainstateManager (Fin 1312) :=
  .linear (fun block => if block = 0 then 1 else 0) (fun block => if block = 0 then 1 else 0)
    (fun block => if block = 0 then blockValidScripts ||| blockHaveData else blockValidTree)
    (by norm_num) 0

def prunedPeer : Peer := ⟨0, nodeNetworkLimited ||| nodeWitness, false, false⟩

/-- The search for blocks of the long chain that the pruned peer could serve. -/
def prunedQuery : BlockQuery (Fin 1312) ℚ :=
  downloadQuery longChain firstBlockInFlight prunedPeer blockDownloadWindow 16 1311 0

theorem prunedQuery_isServeable (pindex : Fin 1312) : prunedQuery.isServeable pindex := by
  by_cases genesis : pindex = 0
  · subst genesis
    decide
  · have status : (prunedQuery.entry pindex).nStatus = blockValidTree := if_neg genesis
    have valid : (prunedQuery.entry pindex).isValid blockValidTree := by
      rw [CBlockIndex.isValid, status]
      decide
    have servesWitnesses : prunedQuery.peer.canServeWitnesses = true := by decide
    rw [BlockQuery.isServeable, valid, servesWitnesses]
    rfl

theorem prunedQuery_isHeld {pindex : Fin 1312} (above : 0 < pindex.val) :
    prunedQuery.isHeld pindex = false := by
  have status : (prunedQuery.entry pindex).nStatus = blockValidTree :=
    if_neg fun genesis => by simp [genesis] at above
  have outside : longChain.activeChain.contains pindex = false := by
    exact (CChain.contains_linear (by norm_num) _ _).trans (decide_eq_false (not_le.mpr above))
  have missing : (prunedQuery.entry pindex).haveData = false := by
    rw [CBlockIndex.haveData, status]
    decide
  have unused : (prunedQuery.usesActiveChain && longChain.activeChain.contains pindex) = false := by
    rw [outside, Bool.and_false]
  exact or_eq_false_iff.mpr ⟨missing, unused⟩

/-- The pruned peer could not serve the block after the window, and the first block
of the window is in flight from another peer. -/
theorem prunedQuery_blamesInVain : prunedQuery.BlamesInVain 0 := by
  have ofBest (pindex : Fin 1312) (below : pindex ≤ 1311) :
      longChain.blocks.tree.IsAncestor pindex 1311 :=
    BlockTree.isAncestor_linear (by norm_num) below
  refine ⟨fun pindex _ => prunedQuery_isServeable pindex, ?_, ?_⟩
  · have onPath : 1025 ∈ prunedQuery.path 0 :=
      BlockQuery.mem_path.mpr ⟨ofBest 1025 (by decide), by decide, by decide⟩
    exact ⟨1025, onPath, by decide, prunedQuery_isHeld (by decide), by decide, by decide⟩
  · refine ⟨1, ⟨ofBest 1 (by decide), by decide, ?_, fun other _ above below => ?_⟩, by decide,
      by decide⟩
    · exact and_eq_true_iff.mpr ⟨by rw [prunedQuery_isHeld (by decide)]; rfl, by decide⟩
    · have above' : 0 < other.val := above
      have below' : other.val < 1 := below
      omega

/-- The peer that the first block is in flight from is blamed for holding up a
pruned peer, which could serve nothing if the window were one larger. -/
theorem prunedPeer_stall_not_justified :
    ¬ StallJustified longChain firstBlockInFlight prunedPeer blockDownloadWindow
      (knownState 1311) 16 := by
  obtain ⟨forkPoint, fork, isFork⟩ :=
    longChain.blocks.lastCommonAncestor_spec 1311 longChain.activeTip
  have low : forkPoint.val ≤ 0 := isFork.right.height_le
  obtain rfl : forkPoint = 0 := Fin.ext (Nat.le_zero.mp low)
  exact StallsInVain.not_stallJustified firstBlockInFlight_hasPeers
    ⟨by decide, 1311, 0, rfl, fork, prunedQuery_blamesInVain⟩

end

end BitcoinCore.NetProcessing
