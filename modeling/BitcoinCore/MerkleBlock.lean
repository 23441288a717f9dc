import BitcoinCore.Consensus.Merkle
import BitcoinCore.Serialize

/-!
# Partial Merkle trees

A `CPartialMerkleTree` proves that some transactions are in a block. The tree over
the transaction ids is walked from the root; each visited node stores one bit,
whether a matched transaction lies below it, and a node that is not descended into
stores its hash. The bits are sent packed into bytes.

`extractMatches` walks the same tree again and takes the bits and hashes off in the
same order. What building a node appends, extracting it consumes
(`traverseAndBuild_encodes`), so a tree that was built, serialised and read back
yields the Merkle root and exactly the matched transactions
(`extractMatches_of_serialized`).
-/

namespace BitcoinCore.MerkleBlock

open List

variable (bits : List Bool)

open ByteStream Serialize PairedLevels Consensus

/-! ## Bits and bytes -/

/-- A byte with at most one bit set. -/
def bitAt (bit : Bool) (position : ℕ) : Byte := (BitVec.ofBool bit).setWidth 8 <<< position

/-- One round of `BitsToBytes`. -/
def setBit (bytes : List Byte) (p : ℕ) : List Byte :=
  bytes.modify (p / 8) fun byte => byte ||| bitAt (bits.getD p false) (p % 8)

/-- Eight bits in each byte, the lowest first. -/
def bitsToBytes : List Byte :=
  (List.range bits.length).foldl (setBit bits) (List.replicate ((bits.length + 7) / 8) 0)

/-- The bits of all bytes, the padding of the last one included. -/
def bytesToBits (bytes : List Byte) : List Bool :=
  (List.range (bytes.length * 8)).map fun p =>
    bytes.getD (p / 8) 0 &&& (1#8 <<< (p % 8)) != 0

theorem getLsbD_bitAt (bit : Bool) {position other : ℕ} (small : other < 8) :
    (bitAt bit position).getLsbD other = (decide (other = position) && bit) := by
  rw [bitAt, BitVec.getLsbD_shiftLeft, BitVec.getLsbD_setWidth, BitVec.getLsbD_ofBool]
  rcases Nat.lt_trichotomy other position with below | rfl | above
  · simp [below, below.ne]
  · simp [small]
  · have apart : other - position ≠ 0 := by omega
    simp [apart, above.ne']

theorem and_shiftLeft_ne_zero (byte : Byte) {position : ℕ} (small : position < 8) :
    (byte &&& (1#8 <<< position) != 0) = byte.getLsbD position := by
  have power : byte &&& (1#8 <<< position) =
      if byte.getLsbD position then BitVec.twoPow 8 position else 0#8 := by
    rw [← BitVec.and_twoPow, BitVec.twoPow_eq]
  have nonzero : BitVec.twoPow 8 position ≠ 0#8 := by
    intro zero
    have bit := congrArg (BitVec.getLsbD · position) zero
    simp [small] at bit
  rw [power]
  cases byte.getLsbD position with
  | false => rfl
  | true => simpa using nonzero

@[simp] theorem length_setBit (bytes : List Byte) (p : ℕ) :
    (setBit bits bytes p).length = bytes.length :=
  length_modify _ _ _

theorem length_foldl_setBit (positions : List ℕ) (bytes : List Byte) :
    (positions.foldl (setBit bits) bytes).length = bytes.length := by
  induction positions generalizing bytes with
  | nil => rfl
  | cons p positions ih => rw [foldl_cons, ih, length_setBit]

@[simp] theorem length_bitsToBytes : (bitsToBytes bits).length = (bits.length + 7) / 8 := by
  rw [bitsToBytes, length_foldl_setBit, length_replicate]

theorem getD_setBit {bytes : List Byte} {p : ℕ} (isIn : p / 8 < bytes.length)
    (idx : ℕ) : (setBit bits bytes p).getD idx 0 =
      if p / 8 = idx then bytes.getD idx 0 ||| bitAt (bits.getD p false) (p % 8)
      else bytes.getD idx 0 := by
  rw [setBit, getD_eq_getElem?_getD, getElem?_modify, getD_eq_getElem?_getD]
  split
  case isTrue here =>
    subst here
    simp [isIn]
  case isFalse elsewhere => simp

/-- After some rounds, exactly the bits visited so far are set. -/
theorem getLsbD_foldl_setBit {rounds : ℕ} (bound : rounds ≤ bits.length)
    (idx : ℕ) {position : ℕ} (small : position < 8) : (((range rounds).foldl (setBit bits)
      (replicate ((bits.length + 7) / 8) 0)).getD idx 0).getLsbD position =
      (decide (8 * idx + position < rounds) && bits.getD (8 * idx + position) false) := by
  induction rounds with
  | zero =>
    rw [range_zero, foldl_nil, getD_eq_getElem?_getD, getElem?_replicate]
    split <;> simp
  | succ rounds ih =>
    have previous := ih (Nat.le_of_succ_le bound)
    rw [range_succ, foldl_append, foldl_cons, foldl_nil, getD_setBit]
    case isIn =>
      rw [length_foldl_setBit, length_replicate]
      omega
    split
    case isTrue here =>
      rw [BitVec.getLsbD_or, previous, getLsbD_bitAt _ small]
      by_cases visited : 8 * idx + position = rounds
      · have last : position = rounds % 8 := by omega
        rw [visited, decide_eq_true last]
        simp
      · have other : position ≠ rounds % 8 := by omega
        have same : 8 * idx + position < rounds + 1 ↔ 8 * idx + position < rounds := by
          omega
        simp [other, same]
    case isFalse elsewhere =>
      have same : 8 * idx + position < rounds + 1 ↔ 8 * idx + position < rounds := by
        omega
      rw [previous, decide_eq_decide.mpr same]

/-- Bits are read back from bytes with zero padding. -/
theorem bytesToBits_bitsToBytes : bytesToBits (bitsToBytes bits) =
      bits ++ replicate ((bits.length + 7) / 8 * 8 - bits.length) false := by
  refine ext_getElem ?_ ?_
  · simp only [bytesToBits, length_map, length_range, length_bitsToBytes,
      length_append, length_replicate]
    omega
  · intro p isIn inside'
    have small : p % 8 < 8 := Nat.mod_lt p (by decide)
    simp only [bytesToBits, getElem_map, getElem_range]
    rw [and_shiftLeft_ne_zero _ small, bitsToBytes, getLsbD_foldl_setBit bits le_rfl _ small,
      Nat.div_add_mod, getElem_append]
    split
    case isTrue within => simp [within]
    case isFalse padding => simp [padding]

/-! ## Building and extracting -/

/-- A proof that some of the transactions of a block are in it. -/
structure CPartialMerkleTree where
  nTransactions : ℕ
  /-- For each visited node, whether a matched transaction lies below it. -/
  vBits : List Bool
  /-- Transaction ids and internal hashes. -/
  vHash : List Uint256
  /-- Set when invalid data is met. -/
  fBad : Bool
  deriving DecidableEq

/-- The number of nodes at a height. -/
def calcTreeWidth (nTransactions height : ℕ) : ℕ := (nTransactions + (1 <<< height) - 1) >>> height

/-- The loop that looks for the height of the tree, with a bound on its rounds. -/
def treeHeightLoop (nTransactions : ℕ) : ℕ → ℕ → ℕ
  | 0, nHeight => nHeight
  | rounds + 1, nHeight =>
    if 1 < calcTreeWidth nTransactions nHeight then
      treeHeightLoop nTransactions rounds (nHeight + 1)
    else nHeight

/-- The least height at which there is only one node. -/
def treeHeight (nTransactions : ℕ) : ℕ := treeHeightLoop nTransactions nTransactions 0

variable (pairHash : Uint256 → Uint256 → Uint256)

section

variable (vTxid : List Uint256) (vMatch : List Bool)

/-- The hash of a node; the left child stands for a missing right one. -/
def calcHash : ℕ → ℕ → Uint256
  | 0, pos => vTxid.getD pos 0
  | height + 1, pos =>
    let left := calcHash height (pos * 2)
    let right :=
      if pos * 2 + 1 < calcTreeWidth vTxid.length height then calcHash height (pos * 2 + 1)
      else left
    pairHash left right

/-- The positions of the matched transactions below a node. -/
def matchesBelow (height pos : ℕ) : List ℕ :=
  (List.range' (pos <<< height) (1 <<< height)).filter fun p =>
    p < vTxid.length && vMatch.getD p false

/-- The bit of a node. -/
def parentOfMatch (height pos : ℕ) : Bool :=
  (List.range' (pos <<< height) (1 <<< height)).any fun p =>
    p < vTxid.length && vMatch.getD p false

/-- Store the bit of a node, and its hash or what its children store. -/
def traverseAndBuild : ℕ → ℕ → CPartialMerkleTree → CPartialMerkleTree
  | 0, pos, tree =>
    { tree with
      vBits := tree.vBits ++ [parentOfMatch vTxid vMatch 0 pos]
      vHash := tree.vHash ++ [calcHash pairHash vTxid 0 pos] }
  | height + 1, pos, tree =>
    let fParentOfMatch := parentOfMatch vTxid vMatch (height + 1) pos
    let tree := { tree with vBits := tree.vBits ++ [fParentOfMatch] }
    if fParentOfMatch = false then
      { tree with vHash := tree.vHash ++ [calcHash pairHash vTxid (height + 1) pos] }
    else
      let tree := traverseAndBuild height (pos * 2) tree
      if pos * 2 + 1 < calcTreeWidth vTxid.length height then
        traverseAndBuild height (pos * 2 + 1) tree
      else tree

/-- The partial tree of a list of transaction ids and a mask that selects some of
them. -/
def buildPartialMerkleTree : CPartialMerkleTree :=
  traverseAndBuild pairHash vTxid vMatch (treeHeight vTxid.length) 0
    { nTransactions := vTxid.length, vBits := [], vHash := [], fBad := false }

end

/-- How far extraction has come, and what it has found. -/
structure Extraction where
  nBitsUsed : ℕ
  nHashUsed : ℕ
  vMatch : List Uint256
  vnIndex : List ℕ
  fBad : Bool
  deriving DecidableEq

section

variable (tree : CPartialMerkleTree)

/-- Take the next hash off; at a matched leaf it is the transaction id. -/
def takeHash (matched : Bool) (pos : ℕ) (walk : Extraction) : Uint256 × Extraction :=
  match tree.vHash[walk.nHashUsed]? with
  | none => (0, { walk with fBad := true })
  | some hash =>
    let walk := { walk with nHashUsed := walk.nHashUsed + 1 }
    if matched then
      (hash, { walk with
        vMatch := walk.vMatch ++ [hash]
        vnIndex := walk.vnIndex ++ [pos] })
    else (hash, walk)

/-- Take the bit of a node off, and its hash or what its children stored. -/
def traverseAndExtract : ℕ → ℕ → Extraction → Uint256 × Extraction
  | 0, pos, walk =>
    match tree.vBits[walk.nBitsUsed]? with
    | none => (0, { walk with fBad := true })
    | some fParentOfMatch =>
      takeHash tree fParentOfMatch pos { walk with nBitsUsed := walk.nBitsUsed + 1 }
  | height + 1, pos, walk =>
    match tree.vBits[walk.nBitsUsed]? with
    | none => (0, { walk with fBad := true })
    | some false => takeHash tree false pos { walk with nBitsUsed := walk.nBitsUsed + 1 }
    | some true =>
      let (left, walk) := traverseAndExtract height (pos * 2)
        { walk with nBitsUsed := walk.nBitsUsed + 1 }
      if pos * 2 + 1 < calcTreeWidth tree.nTransactions height then
        let (right, walk) := traverseAndExtract height (pos * 2 + 1) walk
        -- The transactions below the two branches must be different.
        (pairHash left right, if right = left then { walk with fBad := true } else walk)
      else (pairHash left left, walk)

/-- The least weight of a transaction. -/
def minTransactionWeight : ℕ := 4 * 60

/-- The walk from the root. -/
def extraction (vnIndex : List ℕ) : Uint256 × Extraction :=
  traverseAndExtract pairHash tree (treeHeight tree.nTransactions) 0
    { nBitsUsed := 0, nHashUsed := 0, vMatch := [], vnIndex := vnIndex, fBad := tree.fBad }

/-- The Merkle root, or zero in case of failure, with the matched transaction ids.
Their positions are appended to `vnIndex`. -/
def extractMatches (vnIndex : List ℕ) : Uint256 × List Uint256 × List ℕ :=
  if tree.nTransactions = 0 then (0, [], vnIndex)
  else if maxBlockWeight / minTransactionWeight < tree.nTransactions then (0, [], vnIndex)
  else if tree.nTransactions < tree.vHash.length then (0, [], vnIndex)
  else if tree.vBits.length < tree.vHash.length then (0, [], vnIndex)
  else
    let (hashMerkleRoot, walk) := extraction pairHash tree vnIndex
    if walk.fBad then (0, walk.vMatch, walk.vnIndex)
    -- All bits are consumed, except for the padding of the last byte.
    else if (walk.nBitsUsed + 7) / 8 ≠ (tree.vBits.length + 7) / 8 then
      (0, walk.vMatch, walk.vnIndex)
    else if walk.nHashUsed ≠ tree.vHash.length then (0, walk.vMatch, walk.vnIndex)
    else (hashMerkleRoot, walk.vMatch, walk.vnIndex)

end

/-! ## The byte format -/

/-- The count, the hashes and the packed bits. -/
def CPartialMerkleTree.serialize (tree : CPartialMerkleTree) : List Byte :=
  writeLE 4 tree.nTransactions ++
    (writeVector writeUint256 tree.vHash ++
      writeVector (fun byte => [byte]) (bitsToBytes tree.vBits))

/-- Reading a tree back; its bits come in whole bytes. -/
def unserializePartialMerkleTree : Unserialize CPartialMerkleTree := do
  let nTransactions ← readInt 4
  let vHash ← readVector readUint256
  let bytes ← readVector (readByte .endOfData)
  pure { nTransactions, vBits := bytesToBits bytes, vHash, fBad := false }

/-- A tree is read back with its bits padded to whole bytes. -/
theorem reads_serialize (tree : CPartialMerkleTree) (transactions : tree.nTransactions < 2 ^ 32)
    (hashes : tree.vHash.length ≤ maxSize) (bits : (tree.vBits.length + 7) / 8 ≤ maxSize) :
    Reads unserializePartialMerkleTree tree.serialize { tree with
        vBits := tree.vBits ++
          replicate ((tree.vBits.length + 7) / 8 * 8 - tree.vBits.length) false
        fBad := false } := by
  rw [← bytesToBits_bitsToBytes, CPartialMerkleTree.serialize,
    ← append_nil (writeVector (fun byte => [byte]) _)]
  refine Reads.bind (reads_writeLE ReadFailure.endOfData transactions) (Reads.bind
    (reads_writeVector hashes ?_) (Reads.bind (reads_writeVector ?_ ?_) (Reads.pure _)))
  · intro hash _
    exact reads_writeUint256 hash
  · rw [length_bitsToBytes]
    exact bits
  · intro byte _
    exact reads_readByte ReadFailure.endOfData byte

/-! ## The nodes of the tree -/

theorem calcTreeWidth_eq (nTransactions height : ℕ) :
    calcTreeWidth nTransactions height = (nTransactions + 2 ^ height - 1) / 2 ^ height := by
  rw [calcTreeWidth, Nat.one_shiftLeft, Nat.shiftRight_eq_div_pow]

@[simp] theorem calcTreeWidth_zero (nTransactions : ℕ) :
    calcTreeWidth nTransactions 0 = nTransactions := by
  simp [calcTreeWidth_eq]

variable {nTransactions height pos : ℕ}

theorem lt_calcTreeWidth_iff :
    pos < calcTreeWidth nTransactions height ↔ pos * 2 ^ height < nTransactions := by
  have positive : 0 < 2 ^ height := Nat.two_pow_pos height
  rw [calcTreeWidth_eq, Nat.lt_iff_add_one_le, Nat.le_div_iff_mul_le positive, Nat.add_mul]
  omega

theorem lt_calcTreeWidth_left (isNode : pos < calcTreeWidth nTransactions (height + 1)) :
    pos * 2 < calcTreeWidth nTransactions height := by
  rw [lt_calcTreeWidth_iff] at isNode ⊢
  rwa [Nat.mul_assoc, ← Nat.pow_succ']

theorem treeHeightLoop_eq {rounds nHeight : ℕ} (below : nHeight ≤ Nat.clog 2 nTransactions)
    (enough : Nat.clog 2 nTransactions ≤ nHeight + rounds) :
    treeHeightLoop nTransactions rounds nHeight = Nat.clog 2 nTransactions := by
  induction rounds generalizing nHeight with
  | zero => exact Nat.le_antisymm below enough
  | succ rounds ih =>
    have higher : 1 < calcTreeWidth nTransactions nHeight ↔
        nHeight < Nat.clog 2 nTransactions := by
      rw [lt_calcTreeWidth_iff, Nat.one_mul, Nat.lt_clog_iff_pow_lt (by decide)]
    rw [treeHeightLoop]
    split
    case isTrue wide => exact ih (higher.mp wide) (by omega)
    case isFalse top => exact Nat.le_antisymm below (Nat.not_lt.mp (mt higher.mpr top))

theorem treeHeight_eq (nTransactions : ℕ) : treeHeight nTransactions = Nat.clog 2 nTransactions :=
  treeHeightLoop_eq (Nat.zero_le _) (by simpa using clog_two_le nTransactions)

variable {height pos : ℕ}

section

variable (vTxid : List Uint256) (vMatch : List Bool)

theorem getElem?_level_missing (missing : ¬ pos < calcTreeWidth vTxid.length height) :
    (level pairHash height vTxid)[pos]? = none := by
  rw [getElem?_eq_none_iff, length_level, ← calcTreeWidth_eq]
  exact Nat.not_lt.mp missing

/-- The nodes at a height are the level at that height. -/
theorem calcHash_eq (isNode : pos < calcTreeWidth vTxid.length height) :
    (level pairHash height vTxid)[pos]? = some (calcHash pairHash vTxid height pos) := by
  induction height generalizing pos with
  | zero =>
    rw [calcTreeWidth_zero] at isNode
    simp [calcHash, isNode]
  | succ height ih =>
    rw [getElem?_level_succ, Nat.mul_comm 2 pos, ih (lt_calcTreeWidth_left isNode),
      Option.map_some, calcHash]
    split
    case isTrue right => rw [ih right, Option.getD_some]
    case isFalse missing => rw [getElem?_level_missing pairHash vTxid missing, Option.getD_none]

/-- Sibling nodes are different, when the transactions are and no collision is
met. -/
theorem calcHash_siblings_ne (nodup : vTxid.Nodup)
    (free : CollisionFree pairHash {pair | pair ∈ pairsBelow pairHash height vTxid})
    (right : pos * 2 + 1 < calcTreeWidth vTxid.length height) :
    calcHash pairHash vTxid height (pos * 2 + 1) ≠ calcHash pairHash vTxid height (pos * 2) := by
  intro same
  have found := calcHash_eq pairHash vTxid right
  have found' := calcHash_eq pairHash vTxid (Nat.lt_of_succ_lt right)
  rw [← same, ← found] at found'
  have positions := (getElem?_inj (by
    rw [length_level, ← calcTreeWidth_eq]
    exact Nat.lt_of_succ_lt right) (nodup_level free nodup)).mp found'
  omega

theorem parentOfMatch_eq_false_iff :
    parentOfMatch vTxid vMatch height pos = false ↔ matchesBelow vTxid vMatch height pos = [] := by
  rw [parentOfMatch, matchesBelow, any_eq_false, filter_eq_nil_iff]

theorem matchesBelow_zero (pos : ℕ) : matchesBelow vTxid vMatch 0 pos =
    if parentOfMatch vTxid vMatch 0 pos then [pos] else [] := by
  rw [matchesBelow, parentOfMatch]
  simp [filter_singleton]

theorem matchesBelow_succ (height pos : ℕ) : matchesBelow vTxid vMatch (height + 1) pos =
    matchesBelow vTxid vMatch height (pos * 2) ++
      matchesBelow vTxid vMatch height (pos * 2 + 1) := by
  simp only [matchesBelow, Nat.shiftLeft_eq, Nat.one_mul, ← filter_append]
  rw [show (pos * 2 + 1) * 2 ^ height = pos * 2 * 2 ^ height + 2 ^ height by ring,
    range'_append_1, show pos * 2 ^ (height + 1) = pos * 2 * 2 ^ height by ring,
    show 2 ^ (height + 1) = 2 ^ height + 2 ^ height by ring]

theorem matchesBelow_eq_nil (missing : ¬pos < calcTreeWidth vTxid.length height) :
    matchesBelow vTxid vMatch height pos = [] := by
  rw [lt_calcTreeWidth_iff, Nat.not_lt] at missing
  rw [matchesBelow, filter_eq_nil_iff]
  intro p mem
  rw [Nat.shiftLeft_eq, mem_range'_1] at mem
  simp only [Bool.and_eq_true, decide_eq_true_eq, not_and]
  intro isIn
  omega

end

/-! ## What is built is extracted -/

variable (vTxid : List Uint256) (vMatch : List Bool)

/-- Bits and hashes that encode a node: extracting the node consumes exactly them,
wherever they stand, and yields its hash and the matches below it. -/
structure Encodes (height pos : ℕ) (bits : List Bool) (hashes : List Uint256) : Prop where
  extracts : ∀ (tree : CPartialMerkleTree) (walk : Extraction) (restBits : List Bool)
    (restHashes : List Uint256), tree.nTransactions = vTxid.length →
    tree.vBits.drop walk.nBitsUsed = bits ++ restBits →
    tree.vHash.drop walk.nHashUsed = hashes ++ restHashes →
    traverseAndExtract pairHash tree height pos walk =
      (calcHash pairHash vTxid height pos,
        { walk with
          nBitsUsed := walk.nBitsUsed + bits.length
          nHashUsed := walk.nHashUsed + hashes.length
          vMatch := walk.vMatch ++
            (matchesBelow vTxid vMatch height pos).map fun p => vTxid.getD p 0
          vnIndex := walk.vnIndex ++ matchesBelow vTxid vMatch height pos })
  bits_lt : bits.length < 2 ^ (height + 1)
  hashes_le_bits : hashes.length ≤ bits.length
  hashes_le_transactions : pos * 2 ^ height + hashes.length ≤ vTxid.length
  hashes_le_width : hashes.length ≤ 2 ^ height

variable {vTxid vMatch pairHash} {hashes : List Uint256} {bits : List Bool}

theorem getElem?_of_drop {α : Type} {items : List α} {used : ℕ} {item : α} {rest : List α}
    (dropped : items.drop used = item :: rest) : items[used]? = some item := by
  rw [← head?_drop, dropped, head?_cons]

theorem drop_add_of_drop {α : Type} {items : List α} {used : ℕ} {first rest : List α}
    (dropped : items.drop used = first ++ rest) : items.drop (used + first.length) = rest := by
  rw [← drop_drop, dropped, drop_left]

/-- A leaf or a node without a match stores its hash. -/
theorem encodes_hash (isNode : pos < calcTreeWidth vTxid.length height)
    (undivided : height = 0 ∨ parentOfMatch vTxid vMatch height pos = false) :
    Encodes pairHash vTxid vMatch height pos [parentOfMatch vTxid vMatch height pos]
      [calcHash pairHash vTxid height pos] where
  extracts := by
    intro tree walk restBits restHashes _ bits hashes
    cases height with
    | zero =>
      rw [traverseAndExtract, getElem?_of_drop bits, matchesBelow_zero]
      simp only [takeHash, getElem?_of_drop hashes]
      split
      case isTrue matched => simp [calcHash]
      case isFalse unmatched => simp
    | succ height =>
      have unmatched := undivided.resolve_left (Nat.succ_ne_zero _)
      rw [unmatched] at bits
      rw [traverseAndExtract, getElem?_of_drop bits, (parentOfMatch_eq_false_iff vTxid vMatch).mp
        unmatched]
      simp only [takeHash, getElem?_of_drop hashes]
      simp
  bits_lt := by
    rw [length_singleton]
    exact Nat.one_lt_two_pow (Nat.succ_ne_zero _)
  hashes_le_bits := by simp
  hashes_le_transactions := by
    rw [lt_calcTreeWidth_iff] at isNode
    exact isNode
  hashes_le_width := Nat.one_le_two_pow

theorem encodes_oneChild (missing : ¬pos * 2 + 1 < calcTreeWidth vTxid.length height)
    (left : Encodes pairHash vTxid vMatch height (pos * 2) bits hashes) :
    Encodes pairHash vTxid vMatch (height + 1) pos (true :: bits) hashes where
  extracts := by
    intro tree walk restBits restHashes transactions treeBits treeHashes
    have bitsLeft : tree.vBits.drop (walk.nBitsUsed + 1) = bits ++ restBits := by
      rw [← drop_drop, treeBits]
      rfl
    rw [traverseAndExtract, getElem?_of_drop treeBits]
    simp only
    rw [left.extracts tree { walk with nBitsUsed := walk.nBitsUsed + 1 } _ _ transactions bitsLeft
      treeHashes]
    simp only [transactions, if_neg missing, calcHash, matchesBelow_succ,
      matchesBelow_eq_nil vTxid vMatch missing, append_nil, length_cons]
    rw [Nat.add_assoc, Nat.add_comm 1]
  bits_lt := by
    have bound := left.bits_lt
    rw [length_cons, pow_succ 2 (height + 1)]
    omega
  hashes_le_bits := left.hashes_le_bits.trans (Nat.le_succ _)
  hashes_le_transactions := by
    have bound := left.hashes_le_transactions
    rwa [Nat.mul_assoc, ← Nat.pow_succ'] at bound
  hashes_le_width := left.hashes_le_width.trans (Nat.pow_le_pow_right (by decide) (Nat.le_succ _))

theorem encodes_twoChildren {bits' : List Bool}
    {hashes' : List Uint256} (present : pos * 2 + 1 < calcTreeWidth vTxid.length height)
    (apart : calcHash pairHash vTxid height (pos * 2 + 1) ≠
      calcHash pairHash vTxid height (pos * 2))
    (left : Encodes pairHash vTxid vMatch height (pos * 2) bits hashes)
    (right : Encodes pairHash vTxid vMatch height (pos * 2 + 1) bits' hashes') :
    Encodes pairHash vTxid vMatch (height + 1) pos (true :: (bits ++ bits'))
      (hashes ++ hashes') where
  extracts := by
    intro tree walk restBits restHashes transactions treeBits treeHashes
    have bitsLeft : tree.vBits.drop (walk.nBitsUsed + 1) = bits ++ (bits' ++ restBits) := by
      rw [← drop_drop, treeBits, ← append_assoc]
      rfl
    have bitsRight := drop_add_of_drop bitsLeft
    rw [append_assoc] at treeHashes
    have hashesRight := drop_add_of_drop treeHashes
    rw [traverseAndExtract, getElem?_of_drop treeBits]
    simp only
    rw [left.extracts tree { walk with nBitsUsed := walk.nBitsUsed + 1 } _ _ transactions bitsLeft
      treeHashes]
    simp only [transactions, if_pos present]
    rw [right.extracts tree _ _ _ transactions (by exact bitsRight) (by exact hashesRight)]
    simp only [if_neg apart, calcHash, if_pos present, matchesBelow_succ, map_append,
      append_assoc, length_cons, length_append]
    rw [show walk.nBitsUsed + 1 + bits.length + bits'.length =
      walk.nBitsUsed + (bits.length + bits'.length + 1) by omega, Nat.add_assoc walk.nHashUsed]
  bits_lt := by
    have bound := left.bits_lt
    have bound' := right.bits_lt
    rw [length_cons, length_append, pow_succ 2 (height + 1)]
    omega
  hashes_le_bits := by
    have bound := left.hashes_le_bits
    have bound' := right.hashes_le_bits
    rw [length_cons, length_append, length_append]
    omega
  hashes_le_transactions := by
    have width := left.hashes_le_width
    have bound := right.hashes_le_transactions
    rw [length_append, Nat.pow_succ', ← Nat.mul_assoc]
    rw [Nat.add_mul, Nat.one_mul] at bound
    omega
  hashes_le_width := by
    have width := left.hashes_le_width
    have width' := right.hashes_le_width
    rw [length_append, Nat.pow_succ]
    omega

/-- What building a node appends, extracting it consumes. -/
theorem traverseAndBuild_encodes
    (isNode : pos < calcTreeWidth vTxid.length height) (nodup : vTxid.Nodup)
    (free : CollisionFree pairHash {pair | pair ∈ pairsBelow pairHash height vTxid}) :
    ∃ bits hashes, Encodes pairHash vTxid vMatch height pos bits hashes ∧
      ∀ tree, traverseAndBuild pairHash vTxid vMatch height pos tree =
        { tree with vBits := tree.vBits ++ bits, vHash := tree.vHash ++ hashes } := by
  induction height generalizing pos with
  | zero => exact ⟨_, _, encodes_hash isNode (Or.inl rfl), fun tree => rfl⟩
  | succ height ih =>
    have freeBelow : CollisionFree pairHash {pair | pair ∈ pairsBelow pairHash height vTxid} :=
      free.mono fun _ mem => pairsBelow_subset mem
    cases matched : parentOfMatch vTxid vMatch (height + 1) pos with
    | false =>
      refine ⟨_, _, encodes_hash isNode (Or.inr matched), ?_⟩
      intro tree
      simp only [traverseAndBuild, matched, ↓reduceIte]
    | true =>
      obtain ⟨bits, hashes, left, leftBuilt⟩ := ih (lt_calcTreeWidth_left isNode) freeBelow
      by_cases present : pos * 2 + 1 < calcTreeWidth vTxid.length height
      · obtain ⟨bits', hashes', right, rightBuilt⟩ := ih present freeBelow
        have apart := calcHash_siblings_ne pairHash vTxid nodup freeBelow present
        refine ⟨_, _, encodes_twoChildren present apart left right, ?_⟩
        intro tree
        simp only [traverseAndBuild, matched, Bool.true_eq_false, if_false, if_pos present,
          leftBuilt, rightBuilt, append_assoc, cons_append, nil_append]
      · refine ⟨_, _, encodes_oneChild present left, ?_⟩
        intro tree
        simp only [traverseAndBuild, matched, Bool.true_eq_false, if_false, if_neg present,
          leftBuilt, append_assoc, singleton_append]

/-- The positions that the mask selects. -/
def matchedPositions (vMatch : List Bool) : List ℕ :=
  (List.range vMatch.length).filter fun p => vMatch.getD p false

theorem matchesBelow_root (lengths : vMatch.length = vTxid.length) :
    matchesBelow vTxid vMatch (treeHeight vTxid.length) 0 = matchedPositions vMatch := by
  obtain ⟨padding, width⟩ : ∃ padding, 2 ^ treeHeight vTxid.length = vTxid.length + padding := by
    rw [treeHeight_eq]
    exact Nat.exists_eq_add_of_le (Nat.le_pow_clog (by decide) _)
  have outside : (range' (0 + vTxid.length) padding).filter
      (fun p => p < vTxid.length && vMatch.getD p false) = [] := by
    rw [filter_eq_nil_iff]
    intro p mem
    rw [mem_range'_1] at mem
    simp only [Bool.and_eq_true, decide_eq_true_eq, not_and]
    intro isIn
    omega
  rw [matchesBelow, Nat.zero_shiftLeft, Nat.one_shiftLeft, width, ← range'_append_1,
    filter_append, outside, append_nil, matchedPositions, lengths,
    range_eq_range']
  refine filter_congr ?_
  intro p mem
  rw [mem_range'_1, Nat.zero_add] at mem
  rw [decide_eq_true mem.2, Bool.true_and]

theorem root_lt_calcTreeWidth (ne : vTxid ≠ []) (height : ℕ) :
    0 < calcTreeWidth vTxid.length height := by
  rw [lt_calcTreeWidth_iff, Nat.zero_mul]
  exact length_pos_iff.mpr ne

theorem buildPartialMerkleTree_encodes (vMatch : List Bool) (ne : vTxid ≠ []) (nodup : vTxid.Nodup)
    (free : CollisionFree pairHash {pair | pair ∈ hashedPairs pairHash vTxid}) :
    ∃ bits hashes, Encodes pairHash vTxid vMatch (treeHeight vTxid.length) 0 bits hashes ∧
      buildPartialMerkleTree pairHash vTxid vMatch =
        { nTransactions := vTxid.length, vBits := bits, vHash := hashes, fBad := false } := by
  rw [hashedPairs, ← treeHeight_eq] at free
  obtain ⟨bits, hashes, encodes, built⟩ :=
    traverseAndBuild_encodes (root_lt_calcTreeWidth ne _) nodup free
  refine ⟨bits, hashes, encodes, ?_⟩
  rw [buildPartialMerkleTree, built]
  rfl

theorem calcHash_root (ne : vTxid ≠ []) :
    calcHash pairHash vTxid (treeHeight vTxid.length) 0 = (computeMerkleRoot pairHash vTxid).1 := by
  have top := calcHash_eq pairHash vTxid (root_lt_calcTreeWidth ne (treeHeight vTxid.length))
  rw [treeHeight_eq, computeMerkleRoot_root pairHash ne] at top
  rw [treeHeight_eq]
  exact (Option.some.inj top).symm

theorem extraction_of_encodes (ne : vTxid ≠ []) (lengths : vMatch.length = vTxid.length)
    (encodes : Encodes pairHash vTxid vMatch (treeHeight vTxid.length) 0 bits hashes)
    (padding : List Bool) (vnIndex : List ℕ) : extraction pairHash
        { nTransactions := vTxid.length, vBits := bits ++ padding, vHash := hashes, fBad := false }
        vnIndex =
      ((computeMerkleRoot pairHash vTxid).1,
        { nBitsUsed := bits.length
          nHashUsed := hashes.length
          vMatch := (matchedPositions vMatch).map fun p => vTxid.getD p 0
          vnIndex := vnIndex ++ matchedPositions vMatch
          fBad := false }) := by
  have walked := encodes.extracts
    { nTransactions := vTxid.length, vBits := bits ++ padding, vHash := hashes, fBad := false }
    { nBitsUsed := 0, nHashUsed := 0, vMatch := [], vnIndex := vnIndex, fBad := false }
    padding [] rfl rfl (append_nil hashes).symm
  rw [calcHash_root ne, matchesBelow_root lengths] at walked
  simp only [Nat.zero_add, nil_append] at walked
  exact walked

theorem extractMatches_of_encodes
    (ne : vTxid ≠ []) (acc : vTxid.length ≤ maxBlockWeight / minTransactionWeight)
    (lengths : vMatch.length = vTxid.length)
    (encodes : Encodes pairHash vTxid vMatch (treeHeight vTxid.length) 0 bits hashes)
    {padding : List Bool} (whole : (bits.length + 7) / 8 = (bits.length + padding.length + 7) / 8)
    (vnIndex : List ℕ) : extractMatches pairHash
        { nTransactions := vTxid.length, vBits := bits ++ padding, vHash := hashes, fBad := false }
        vnIndex =
      ((computeMerkleRoot pairHash vTxid).1,
        (matchedPositions vMatch).map fun p => vTxid.getD p 0,
        vnIndex ++ matchedPositions vMatch) := by
  have positive : vTxid.length ≠ 0 := (length_pos_iff.mpr ne).ne'
  have hashesLe : hashes.length ≤ vTxid.length := by
    simpa using encodes.hashes_le_transactions
  have hashesLeBits : hashes.length ≤ bits.length + padding.length :=
    encodes.hashes_le_bits.trans (Nat.le_add_right _ _)
  simp only [extractMatches, extraction_of_encodes ne lengths encodes, length_append]
  rw [if_neg positive, if_neg (Nat.not_lt.mpr acc), if_neg (Nat.not_lt.mpr hashesLe),
    if_neg (Nat.not_lt.mpr hashesLeBits)]
  simp [whole]

variable (pairHash vTxid vMatch) in
/-- Partial Merkle trees survive the network. A tree built from different
transactions, serialised and read back, is walked without an error; the walk uses
up the bits and hashes that were built, and `extractMatches` returns the Merkle
root with exactly the matched transactions and their positions. The pair hash must
not meet a collision in the computation of the root. -/
theorem extractMatches_of_serialized (ne : vTxid ≠ []) (nodup : vTxid.Nodup)
    (acc : vTxid.length ≤ maxBlockWeight / minTransactionWeight)
    (lengths : vMatch.length = vTxid.length)
    (free : CollisionFree pairHash {pair | pair ∈ hashedPairs pairHash vTxid}) (vnIndex : List ℕ) :
    ∃ recv : CPartialMerkleTree, unserializePartialMerkleTree.run
        (buildPartialMerkleTree pairHash vTxid vMatch).serialize = .ok (recv, []) ∧
      (extraction pairHash recv vnIndex).2.fBad = false ∧
      (extraction pairHash recv vnIndex).2.nBitsUsed =
        (buildPartialMerkleTree pairHash vTxid vMatch).vBits.length ∧
      (extraction pairHash recv vnIndex).2.nHashUsed =
        (buildPartialMerkleTree pairHash vTxid vMatch).vHash.length ∧
      extractMatches pairHash recv vnIndex =
        ((computeMerkleRoot pairHash vTxid).1,
          (matchedPositions vMatch).map fun p => vTxid.getD p 0,
          vnIndex ++ matchedPositions vMatch) := by
  obtain ⟨bits, hashes, encodes, built⟩ :=
    buildPartialMerkleTree_encodes vMatch ne nodup free
  have transactions : vTxid.length ≤ 16666 := acc.trans (by decide)
  have hashesLe : hashes.length ≤ vTxid.length := by
    simpa using encodes.hashes_le_transactions
  have bitsLt : bits.length < 2 ^ 16 := by
    refine encodes.bits_lt.trans_le (Nat.pow_le_pow_right (by decide) (Nat.succ_le_succ ?_))
    rw [treeHeight_eq, Nat.clog_le_iff_le_pow (by decide)]
    exact acc.trans (by decide)
  rw [built]
  refine ⟨_, (reads_serialize _ ?_ ?_ ?_).run, ?_⟩
  · show vTxid.length < 2 ^ 32
    omega
  · show hashes.length ≤ maxSize
    rw [maxSize]
    omega
  · show (bits.length + 7) / 8 ≤ maxSize
    rw [maxSize]
    omega
  · rw [extraction_of_encodes ne lengths encodes]
    refine ⟨rfl, rfl, rfl, extractMatches_of_encodes ne acc lengths encodes ?_ vnIndex⟩
    simp only [length_replicate]
    omega

/-- Three transactions, the second of them matched. -/
theorem extractMatches_of_serialized_second :
    ∃ recv : CPartialMerkleTree, unserializePartialMerkleTree.run
        (buildPartialMerkleTree (fun left right => 10 * left + right + 100) [1, 2, 3]
          [false, true, false]).serialize = .ok (recv, []) ∧
      extractMatches (fun left right => 10 * left + right + 100) recv [] =
        (1353, [2], [1]) := by
  have pairs : hashedPairs (fun left right : Uint256 => 10 * left + right + 100) [1, 2, 3] =
      [(1, 2), (3, 3), (112, 133)] := by
    decide
  have free : CollisionFree (fun left right : Uint256 => 10 * left + right + 100)
      {pair | pair ∈ hashedPairs (fun left right : Uint256 => 10 * left + right + 100)
        [1, 2, 3]} := by
    rw [pairs]
    simp [CollisionFree, Set.InjOn]
  obtain ⟨recv, read, -, -, -, extracted⟩ :=
    extractMatches_of_serialized (fun left right => 10 * left + right + 100) [1, 2, 3]
      [false, true, false] (by decide) (by decide) (by decide) (by decide) free []
  exact ⟨recv, read, extracted⟩

end BitcoinCore.MerkleBlock
