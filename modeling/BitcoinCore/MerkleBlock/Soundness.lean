import BitcoinCore.Lib.CheckedAccess
import BitcoinCore.MerkleBlock

/-!
# Partial Merkle trees from an untrusted peer

The peer that sends a `CPartialMerkleTree` chooses the number of transactions, the
bits and the hashes, and so the way `ExtractMatches` walks. The walk is modelled
once more with every read of `vBits` and `vHash` checked, the nodes it visits
counted and the pairs it hashes recorded.

No read is out of bounds, whatever is sent, and a node that takes a bit off is
visited once for it (`traverseChecked_spec`). A walk that runs out of bits still
visits the right children that are pending, so there can be more visits than bits.

If the returned root is the Merkle root of a list of as many transactions, then the
hashes the peer sent are the hashes of the nodes of that list: a pair hash without a
collision determines its arguments, from the root down (`traverseChecked_sound`).
Both are put together in `extractMatches_sound`.
-/

namespace BitcoinCore.MerkleBlock

open ByteStream Serialize PairedLevels Consensus CheckedAccess List Option

/-! ## The walk with checked reads -/

/-- The vector that is read behind its end. -/
inductive OutOfBounds where
  | vBits
  | vHash
  deriving DecidableEq

/-- How many nodes a walk visits, and which pairs it hashes. -/
structure Trace where
  visits : ℕ
  hashed : List (Uint256 × Uint256)
  deriving DecidableEq

section

variable (pairHash : Uint256 → Uint256 → Uint256) (tree : CPartialMerkleTree)

/-- The bit of the node that is visited, if there is one left. -/
def nextBitChecked (walk : Extraction) : Except OutOfBounds (Option Bool) :=
  if tree.vBits.length ≤ walk.nBitsUsed then .ok none
  else do
    let fParentOfMatch ← readAt .vBits tree.vBits walk.nBitsUsed
    .ok (some fParentOfMatch)

/-- `takeHash` with a checked read. -/
def takeHashChecked (matched : Bool) (pos : ℕ) (walk : Extraction) :
    Except OutOfBounds (Uint256 × Extraction) :=
  if tree.vHash.length ≤ walk.nHashUsed then .ok (0, { walk with fBad := true })
  else do
    let hash ← readAt .vHash tree.vHash walk.nHashUsed
    let walk := { walk with nHashUsed := walk.nHashUsed + 1 }
    if matched then
      .ok (hash, { walk with
        vMatch := walk.vMatch ++ [hash]
        vnIndex := walk.vnIndex ++ [pos] })
    else .ok (hash, walk)

/-- `traverseAndExtract` with checked reads. -/
def traverseChecked : ℕ → ℕ → Extraction → Except OutOfBounds (Uint256 × Extraction × Trace)
  | 0, pos, walk => do
    match ← nextBitChecked tree walk with
    | none => .ok (0, { walk with fBad := true }, { visits := 1, hashed := [] })
    | some fParentOfMatch =>
      let (hash, walk) ← takeHashChecked tree fParentOfMatch pos
        { walk with nBitsUsed := walk.nBitsUsed + 1 }
      .ok (hash, walk, { visits := 1, hashed := [] })
  | height + 1, pos, walk => do
    match ← nextBitChecked tree walk with
    | none => .ok (0, { walk with fBad := true }, { visits := 1, hashed := [] })
    | some false =>
      let (hash, walk) ← takeHashChecked tree false pos
        { walk with nBitsUsed := walk.nBitsUsed + 1 }
      .ok (hash, walk, { visits := 1, hashed := [] })
    | some true =>
      let (left, walk, trace) ← traverseChecked height (pos * 2)
        { walk with nBitsUsed := walk.nBitsUsed + 1 }
      if pos * 2 + 1 < calcTreeWidth tree.nTransactions height then
        let (right, walk, trace') ← traverseChecked height (pos * 2 + 1) walk
        .ok (pairHash left right, if right = left then { walk with fBad := true } else walk,
          { visits := 1 + trace.visits + trace'.visits
            hashed := (left, right) :: (trace.hashed ++ trace'.hashed) })
      else
        .ok (pairHash left left, walk,
          { visits := 1 + trace.visits, hashed := (left, left) :: trace.hashed })

/-- `extractMatches` with checked reads. -/
def extractMatchesChecked (vnIndex : List ℕ) :
    Except OutOfBounds ((Uint256 × List Uint256 × List ℕ) × Trace) :=
  if tree.nTransactions = 0 then .ok ((0, [], vnIndex), { visits := 0, hashed := [] })
  else if maxBlockWeight / minTransactionWeight < tree.nTransactions then
    .ok ((0, [], vnIndex), { visits := 0, hashed := [] })
  else if tree.nTransactions < tree.vHash.length then
    .ok ((0, [], vnIndex), { visits := 0, hashed := [] })
  else if tree.vBits.length < tree.vHash.length then
    .ok ((0, [], vnIndex), { visits := 0, hashed := [] })
  else do
    let (hashMerkleRoot, walk, trace) ←
      traverseChecked pairHash tree (treeHeight tree.nTransactions) 0
        { nBitsUsed := 0, nHashUsed := 0, vMatch := [], vnIndex := vnIndex, fBad := tree.fBad }
    if walk.fBad then .ok ((0, walk.vMatch, walk.vnIndex), trace)
    else if (walk.nBitsUsed + 7) / 8 ≠ (tree.vBits.length + 7) / 8 then
      .ok ((0, walk.vMatch, walk.vnIndex), trace)
    else if walk.nHashUsed ≠ tree.vHash.length then .ok ((0, walk.vMatch, walk.vnIndex), trace)
    else .ok ((hashMerkleRoot, walk.vMatch, walk.vnIndex), trace)

end

/-! ## Reads and visits -/

variable {walk later : Extraction}

section

variable {pairHash : Uint256 → Uint256 → Uint256} {tree : CPartialMerkleTree}

theorem nextBitChecked_eq (walk : Extraction) :
    nextBitChecked tree walk = .ok tree.vBits[walk.nBitsUsed]? := by
  rw [nextBitChecked]
  split
  case isTrue used => rw [getElem?_eq_none used]
  case isFalse unused =>
    have found := getElem?_eq_getElem (Nat.not_le.mp unused)
    rw [readAt_of_getElem? found, ok_bind, found]

theorem takeHashChecked_eq (matched : Bool) (pos : ℕ) (walk : Extraction) :
    takeHashChecked tree matched pos walk = .ok (takeHash tree matched pos walk) := by
  rw [takeHashChecked, takeHash]
  split
  case isTrue used =>
    rw [getElem?_eq_none used]
  case isFalse unused =>
    have found := getElem?_eq_getElem (Nat.not_le.mp unused)
    rw [readAt_of_getElem? found, ok_bind, found]
    cases matched with
    | false => rfl
    | true => rfl

theorem takeHash_nBitsUsed (matched : Bool) (pos : ℕ) (walk : Extraction) :
    (takeHash tree matched pos walk).2.nBitsUsed = walk.nBitsUsed := by
  rw [takeHash]
  split
  · rfl
  · split
    · rfl
    · rfl

variable (tree) in
/-- How many nodes a walk below a node may visit, given the bits it takes off. Only
a walk that has run out of bits visits nodes without taking a bit off, at most one
at each height. -/
structure VisitBound (height : ℕ) (walk later : Extraction) (visits : ℕ) : Prop where
  advances : walk.nBitsUsed ≤ later.nBitsUsed
  supplied : walk.nBitsUsed ≤ tree.vBits.length → later.nBitsUsed ≤ tree.vBits.length
  twice : visits ≤ 2 * (later.nBitsUsed - walk.nBitsUsed) + 1
  stops : tree.vBits.length ≤ walk.nBitsUsed → visits = 1
  fails : visits = later.nBitsUsed - walk.nBitsUsed ∨ tree.vBits.length ≤ later.nBitsUsed ∧
      visits ≤ later.nBitsUsed - walk.nBitsUsed + height + 1

theorem visitBound_failed {height : ℕ} (used : tree.vBits.length ≤ walk.nBitsUsed) (fBad : Bool) :
    VisitBound tree height walk { walk with fBad } 1 where
  advances := le_rfl
  supplied := id
  twice := by omega
  stops := fun _ => rfl
  fails := .inr ⟨used, by omega⟩

theorem visitBound_leaf {height : ℕ} (unused : walk.nBitsUsed < tree.vBits.length)
    (taken : later.nBitsUsed = walk.nBitsUsed + 1) : VisitBound tree height walk later 1 where
  advances := by omega
  supplied := by omega
  twice := by omega
  stops := by omega
  fails := .inl (by omega)

theorem VisitBound.oneChild {height visits : ℕ} (unused : walk.nBitsUsed < tree.vBits.length)
    (left : VisitBound tree height { walk with nBitsUsed := walk.nBitsUsed + 1 } later visits) :
    VisitBound tree (height + 1) walk later (1 + visits) := by
  obtain ⟨advances, supplied, twice, -, fails⟩ := left
  simp only at advances supplied twice fails
  refine ⟨by omega, by omega, by omega, by omega, ?_⟩
  omega

/-- A node with two children. The walk below the right one stops at once if there
are no bits left. -/
theorem VisitBound.twoChildren {height visits visits' : ℕ} {middle : Extraction}
    (unused : walk.nBitsUsed < tree.vBits.length)
    (left : VisitBound tree height { walk with nBitsUsed := walk.nBitsUsed + 1 } middle visits)
    (right : VisitBound tree height middle later visits') (fBad : Bool) :
    VisitBound tree (height + 1) walk { later with fBad } (1 + visits + visits') := by
  obtain ⟨advances, supplied, twice, -, fails⟩ := left
  obtain ⟨advances', supplied', twice', stops', fails'⟩ := right
  simp only at advances supplied twice fails
  refine ⟨by simp only; omega, by simp only; omega, by simp only; omega, by omega, ?_⟩
  simp only
  omega

variable (pairHash tree) in
/-- No read is out of bounds, and the bits limit the visits. -/
theorem traverseChecked_spec (height pos : ℕ) (walk : Extraction) :
    ∃ trace : Trace, traverseChecked pairHash tree height pos walk =
        .ok ((traverseAndExtract pairHash tree height pos walk).1,
          (traverseAndExtract pairHash tree height pos walk).2, trace) ∧
      VisitBound tree height walk (traverseAndExtract pairHash tree height pos walk).2
        trace.visits := by
  induction height generalizing pos walk with
  | zero =>
    rw [traverseChecked, traverseAndExtract, nextBitChecked_eq, ok_bind]
    cases bit : tree.vBits[walk.nBitsUsed]? with
    | none => exact ⟨_, rfl, visitBound_failed (getElem?_eq_none_iff.mp bit) true⟩
    | some fParentOfMatch =>
      simp only [takeHashChecked_eq, ok_bind]
      exact ⟨_, rfl, visitBound_leaf (List.getElem?_eq_some_iff.mp bit).1
        (takeHash_nBitsUsed _ _ _)⟩
  | succ height ih =>
    rw [traverseChecked, traverseAndExtract, nextBitChecked_eq, ok_bind]
    cases bit : tree.vBits[walk.nBitsUsed]? with
    | none => exact ⟨_, rfl, visitBound_failed (getElem?_eq_none_iff.mp bit) true⟩
    | some fParentOfMatch =>
      have unused := (List.getElem?_eq_some_iff.mp bit).1
      cases fParentOfMatch with
      | false =>
        simp only [takeHashChecked_eq, ok_bind]
        exact ⟨_, rfl, visitBound_leaf unused (takeHash_nBitsUsed _ _ _)⟩
      | true =>
        obtain ⟨trace, leftWalked, left⟩ :=
          ih (pos * 2) { walk with nBitsUsed := walk.nBitsUsed + 1 }
        simp only [leftWalked, ok_bind]
        split
        case isTrue isIn =>
          obtain ⟨trace', rightWalked, right⟩ := ih (pos * 2 + 1)
            (traverseAndExtract pairHash tree height (pos * 2)
              { walk with nBitsUsed := walk.nBitsUsed + 1 }).2
          simp only [rightWalked, ok_bind]
          refine ⟨_, rfl, ?_⟩
          split
          · exact left.twoChildren unused right true
          · exact left.twoChildren unused right _
        case isFalse missing => exact ⟨_, rfl, left.oneChild unused⟩

end

/-! ## What the root determines -/

variable {pairHash : Uint256 → Uint256 → Uint256} {tree : CPartialMerkleTree}
  {vTxid : List Uint256} {height pos : ℕ}

variable (vTxid) in
/-- The matches that a walk adds are transactions of a list at their positions. -/
def AddsMatches (walk later : Extraction) : Prop :=
  ∃ positions : List ℕ, later.vnIndex = walk.vnIndex ++ positions ∧
    ∃ txids : List Uint256, later.vMatch = walk.vMatch ++ txids ∧
      positions.map (fun pos => vTxid[pos]?) = txids.map some

theorem addsMatches_of_same (positions : later.vnIndex = walk.vnIndex)
    (txids : later.vMatch = walk.vMatch) : AddsMatches vTxid walk later :=
  ⟨[], by rw [positions, append_nil], [], by rw [txids, append_nil], rfl⟩

theorem AddsMatches.trans {middle : Extraction}
    (first : AddsMatches vTxid walk middle) (second : AddsMatches vTxid middle later) :
    AddsMatches vTxid walk later := by
  obtain ⟨positions, indexes, txids, ids, same⟩ := first
  obtain ⟨positions', indexes', txids', ids', same'⟩ := second
  refine ⟨positions ++ positions', ?_, txids ++ txids', ?_, ?_⟩
  · rw [indexes', indexes, append_assoc]
  · rw [ids', ids, append_assoc]
  · rw [map_append, map_append, same, same']

theorem addsMatches_takeHash {matched : Bool}
    (here : matched → vTxid[pos]? = some (takeHash tree matched pos walk).1) :
    AddsMatches vTxid walk (takeHash tree matched pos walk).2 := by
  rw [takeHash] at here ⊢
  cases found : tree.vHash[walk.nHashUsed]? with
  | none => exact addsMatches_of_same rfl rfl
  | some hash =>
    cases matched with
    | false => exact addsMatches_of_same rfl rfl
    | true =>
      rw [found] at here
      exact ⟨[pos], rfl, [hash], rfl, by simpa using here rfl⟩

theorem children_mem_pairsBelow (isNode : pos < calcTreeWidth vTxid.length (height + 1)) :
    (calcHash pairHash vTxid height (pos * 2),
      if pos * 2 + 1 < calcTreeWidth vTxid.length height then
        calcHash pairHash vTxid height (pos * 2 + 1)
      else calcHash pairHash vTxid height (pos * 2)) ∈ pairsBelow pairHash (height + 1) vTxid := by
  have left := calcHash_eq pairHash vTxid (lt_calcTreeWidth_left isNode)
  rw [mem_pairsBelow]
  refine ⟨height, Nat.lt_succ_self height, mem_of_getElem? (i := pos) ?_⟩
  rw [getElem?_levelPairs, Nat.mul_comm 2 pos, left, map_some]
  split
  case isTrue isIn => rw [calcHash_eq pairHash vTxid isIn, getD_some]
  case isFalse missing => rw [getElem?_level_missing pairHash vTxid missing, getD_none]

/-- The pairs that a walk hashes and those of the tree over a list. -/
def pairsOfBoth (pairHash : Uint256 → Uint256 → Uint256) (vTxid : List Uint256) (height : ℕ)
    (trace : Trace) : Set (Uint256 × Uint256) :=
  {pair | pair ∈ trace.hashed ∨ pair ∈ pairsBelow pairHash height vTxid}

theorem children_eq {trace : Trace} {left right : Uint256}
    (isNode : pos < calcTreeWidth vTxid.length (height + 1))
    (free : CollisionFree pairHash (pairsOfBoth pairHash vTxid (height + 1) trace))
    (hashed : (left, right) ∈ trace.hashed)
    (same : pairHash left right = calcHash pairHash vTxid (height + 1) pos) :
    left = calcHash pairHash vTxid height (pos * 2) ∧
      right = if pos * 2 + 1 < calcTreeWidth vTxid.length height then
          calcHash pairHash vTxid height (pos * 2 + 1)
        else calcHash pairHash vTxid height (pos * 2) :=
  Prod.mk.inj (free (Or.inl hashed) (Or.inr (children_mem_pairsBelow isNode)) same)

theorem collisionFree_below {trace part : Trace}
    (free : CollisionFree pairHash (pairsOfBoth pairHash vTxid (height + 1) trace))
    (subset : ∀ pair ∈ part.hashed, pair ∈ trace.hashed) :
    CollisionFree pairHash (pairsOfBoth pairHash vTxid height part) := by
  refine free.mono ?_
  intro pair mem
  exact mem.imp (subset pair) pairsBelow_subset

/-- A walk that arrives at the hash of a node finds what lies below that node.
The hashes of the children are forced from the top down, so a leaf that is reported
as a match has the hash of the transaction there. -/
theorem traverseChecked_sound {hash : Uint256}
    {trace : Trace} (lengths : vTxid.length = tree.nTransactions)
    (isNode : pos < calcTreeWidth vTxid.length height)
    (walked : traverseChecked pairHash tree height pos walk = .ok (hash, later, trace))
    (free : CollisionFree pairHash (pairsOfBoth pairHash vTxid height trace))
    (same : hash = calcHash pairHash vTxid height pos) : AddsMatches vTxid walk later := by
  induction height generalizing pos walk later hash trace with
  | zero =>
    rw [traverseChecked, nextBitChecked_eq, ok_bind] at walked
    cases bit : tree.vBits[walk.nBitsUsed]? with
    | none =>
      rw [bit] at walked
      cases walked
      exact addsMatches_of_same rfl rfl
    | some fParentOfMatch =>
      simp only [bit, takeHashChecked_eq, ok_bind] at walked
      cases walked
      rw [calcTreeWidth_zero] at isNode
      have leaf : vTxid[pos]? = some (calcHash pairHash vTxid 0 pos) := by
        simp [calcHash, isNode]
      exact addsMatches_takeHash fun _ => leaf.trans (congrArg some same.symm)
  | succ height ih =>
    rw [traverseChecked, nextBitChecked_eq, ok_bind] at walked
    cases bit : tree.vBits[walk.nBitsUsed]? with
    | none =>
      rw [bit] at walked
      cases walked
      exact addsMatches_of_same rfl rfl
    | some fParentOfMatch =>
      cases fParentOfMatch with
      | false =>
        simp only [bit, takeHashChecked_eq, ok_bind] at walked
        cases walked
        exact addsMatches_takeHash fun matched => absurd matched Bool.false_ne_true
      | true =>
        obtain ⟨left, leftWalked, -⟩ := traverseChecked_spec pairHash tree height (pos * 2)
          { walk with nBitsUsed := walk.nBitsUsed + 1 }
        simp only [bit, leftWalked, ok_bind, ← lengths] at walked
        split at walked
        case isTrue isIn =>
          obtain ⟨right, rightWalked, -⟩ :=
            traverseChecked_spec pairHash tree height (pos * 2 + 1)
              (traverseAndExtract pairHash tree height (pos * 2)
                { walk with nBitsUsed := walk.nBitsUsed + 1 }).2
          simp only [rightWalked, ok_bind] at walked
          cases walked
          obtain ⟨leftSame, rightSame⟩ :=
            children_eq isNode free mem_cons_self same
          rw [if_pos isIn] at rightSame
          have below := ih (lt_calcTreeWidth_left isNode) leftWalked
            (collisionFree_below free fun _ mem =>
              mem_cons_of_mem _ (mem_append_left _ mem)) leftSame
          have below' := ih isIn rightWalked
            (collisionFree_below free fun _ mem =>
              mem_cons_of_mem _ (mem_append_right _ mem)) rightSame
          split
          · exact (below.trans below').trans (addsMatches_of_same rfl rfl)
          · exact below.trans below'
        case isFalse missing =>
          cases walked
          obtain ⟨leftSame, -⟩ := children_eq isNode free mem_cons_self same
          have below := ih (lt_calcTreeWidth_left isNode) leftWalked
            (collisionFree_below free fun _ mem => mem_cons_of_mem _ mem) leftSame
          exact below

variable (pairHash tree) in
/-- The checks around the walk return zero, or the hash and the matches that the
walk arrives at. -/
theorem extractMatchesChecked_cases (vnIndex : List ℕ) :
    ∃ trace : Trace, extractMatchesChecked pairHash tree vnIndex =
        .ok (extractMatches pairHash tree vnIndex, trace) ∧ trace.visits ≤ tree.vBits.length + 1 +
        min tree.vBits.length (treeHeight tree.nTransactions) ∧
      ((extractMatches pairHash tree vnIndex).1 = 0 ∨ tree.nTransactions ≠ 0 ∧ ∃ later : Extraction,
          traverseChecked pairHash tree (treeHeight tree.nTransactions) 0
            { nBitsUsed := 0, nHashUsed := 0, vMatch := [], vnIndex, fBad := tree.fBad } =
            .ok ((extractMatches pairHash tree vnIndex).1, later, trace) ∧
          (extractMatches pairHash tree vnIndex).2 = (later.vMatch, later.vnIndex)) := by
  rw [extractMatchesChecked, extractMatches, extraction]
  obtain ⟨trace, walked, bound⟩ := traverseChecked_spec pairHash tree
    (treeHeight tree.nTransactions) 0
    { nBitsUsed := 0, nHashUsed := 0, vMatch := [], vnIndex, fBad := tree.fBad }
  have visits : trace.visits ≤ tree.vBits.length + 1 +
      min tree.vBits.length (treeHeight tree.nTransactions) := by
    obtain ⟨-, supplied, twice, -, fails⟩ := bound
    simp only [Nat.zero_le, forall_const, Nat.sub_zero] at supplied twice fails
    omega
  rw [walked, ok_bind]
  dsimp only
  split_ifs with ne
  -- the walk is made, and its result is taken
  case neg => exact ⟨trace, rfl, visits, .inr ⟨ne, _, rfl, rfl⟩⟩
  all_goals first
    | exact ⟨_, rfl, Nat.zero_le _, .inl rfl⟩
    | exact ⟨trace, rfl, visits, .inl rfl⟩

variable (pairHash tree) in
/-- What an untrusted peer proves. Extracting the matches of any partial tree
reads inside `vBits` and `vHash` only and ends: the loop that looks for the height
does, and there is a visit for each bit and at most one more, with one for each
right child that is pending when the bits run out. If the root it returns is not
zero and is the Merkle root of a list of as many transactions, then every match is
the transaction of that list at its position, as long as the pair hash does not meet
a collision among the pairs hashed in the walk and over the list. -/
theorem extractMatches_sound (vnIndex : List ℕ) :
    ∃ trace : Trace, extractMatchesChecked pairHash tree vnIndex =
        .ok (extractMatches pairHash tree vnIndex, trace) ∧
      calcTreeWidth tree.nTransactions (treeHeight tree.nTransactions) ≤ 1 ∧
      trace.visits ≤ tree.vBits.length + 1 + min tree.vBits.length (treeHeight tree.nTransactions) ∧
      ∀ vTxid : List Uint256, vTxid.length = tree.nTransactions → CollisionFree pairHash
          {pair | pair ∈ trace.hashed ∨ pair ∈ hashedPairs pairHash vTxid} →
        (extractMatches pairHash tree vnIndex).1 ≠ 0 →
        (extractMatches pairHash tree vnIndex).1 = (computeMerkleRoot pairHash vTxid).1 →
        ∃ positions : List ℕ, (extractMatches pairHash tree vnIndex).2.2 = vnIndex ++ positions ∧
          positions.map (fun pos => vTxid[pos]?) =
            (extractMatches pairHash tree vnIndex).2.1.map some := by
  obtain ⟨trace, checked, visits, returned⟩ :=
    extractMatchesChecked_cases pairHash tree vnIndex
  refine ⟨trace, checked, ?_, visits, ?_⟩
  · rw [← Nat.not_lt, lt_calcTreeWidth_iff, treeHeight_eq, Nat.one_mul, Nat.not_lt]
    exact Nat.le_pow_clog (by decide) _
  · intro vTxid lengths free nonzero same
    rcases returned with zero | ⟨ne, later, walked, results⟩
    · exact absurd zero nonzero
    · have isList : vTxid ≠ [] := by
        intro empty
        rw [empty] at lengths
        exact ne lengths.symm
      rw [hashedPairs, ← treeHeight_eq] at free
      rw [← calcHash_root isList] at same
      rw [← lengths] at walked
      obtain ⟨positions, indexes, txids, ids, at'⟩ :=
        traverseChecked_sound lengths (root_lt_calcTreeWidth isList _) walked free same
      refine ⟨positions, ?_, ?_⟩
      · rw [results, indexes]
      · rw [results, at', ids, nil_append]

/-- The tree of three transactions with the second one matched, and the list it was
built from. -/
theorem extractMatches_sound_second :
    ∃ positions : List ℕ, extractMatches (fun left right => 10 * left + right + 100)
        { nTransactions := 3, vBits := [true, true, false, true, false]
          vHash := [1, 2, 133], fBad := false } [] = (1353, [2], positions) ∧
      positions.map (fun pos => [1, 2, 3][pos]?) = [some 2#256] := by
  obtain ⟨trace, checked, -, -, sound⟩ :=
    extractMatches_sound (fun left right => 10 * left + right + 100)
      { nTransactions := 3, vBits := [true, true, false, true, false]
        vHash := [1, 2, 133], fBad := false } []
  have known : extractMatchesChecked (fun left right => 10 * left + right + 100)
      { nTransactions := 3, vBits := [true, true, false, true, false]
        vHash := [1, 2, 133], fBad := false } [] =
      .ok ((1353, [2], [1]), { visits := 5, hashed := [(112, 133), (1, 2)] }) := by
    decide
  have pairs : hashedPairs (fun left right : Uint256 => 10 * left + right + 100) [1, 2, 3] =
      [(1, 2), (3, 3), (112, 133)] := by
    decide
  rw [known, Except.ok.injEq, Prod.mk.injEq] at checked
  obtain ⟨returned, rfl⟩ := checked
  rw [← returned] at sound ⊢
  obtain ⟨positions, indexes, at'⟩ := sound [1, 2, 3] rfl (by
    rw [pairs]
    simp [CollisionFree, Set.InjOn, or_imp, forall_and]) (by decide) (by decide)
  exact ⟨positions, congrArg (fun indexes => (1353, [2], indexes)) indexes, at'⟩

/-- More visits than bits: a byte of set bits for a tree of 256 transactions. The
walk takes the eight bits off on the way down, and then visits the right child of
each of the eight nodes. -/
theorem visits_exceed_bits : ∃ recv : CPartialMerkleTree,
      unserializePartialMerkleTree.run [0, 1, 0, 0, 0, 1, 255] = .ok (recv, []) ∧ ∃ outcome,
        extractMatchesChecked (fun left right => 10 * left + right + 100) recv [] = .ok outcome ∧
        recv.vBits.length + 1 < outcome.2.visits :=
  ⟨_, rfl, _, rfl, by decide⟩

end BitcoinCore.MerkleBlock
