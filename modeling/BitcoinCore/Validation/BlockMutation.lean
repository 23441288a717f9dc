import BitcoinCore.Consensus.Merkle
import BitcoinCore.Primitives.Block

/-!
# Mutated blocks

The header of a block commits to the transaction ids by their Merkle root, and
the coinbase transaction commits to the transactions with their witnesses by an
output. `IsBlockMutated` finds a block whose transactions are not those of its
header.

A block remembers checks that it has passed, and what it remembers does not change
the answer (`isBlockMutated_eq_false_iff`). A block that matches the Merkle root
of its header has the transaction ids of every block of the same header and number
of transactions that does (`txids_eq_of_merkleRootMatches`); if both share a
coinbase whose commitment they match, they have the same transactions
(`vtx_eq_of_commitsToWitnesses`).
-/

namespace BitcoinCore.Validation

open ByteStream Serialize Consensus PairedLevels List CTransaction

/-! ## Commitments of a block -/

/-- The hashes of transactions and of pairs of hashes: both are double SHA256 in
the source. -/
structure BlockHashes where
  txid : CTransaction → Uint256
  wtxid : CTransaction → Uint256
  pairHash : Uint256 → Uint256 → Uint256

section

variable (hashes : BlockHashes)

/-- The Merkle root of the transaction ids, and whether it is reported as mutated. -/
def blockMerkleRoot (block : CBlock) : Uint256 × Bool :=
  computeMerkleRoot hashes.pairHash (block.vtx.map hashes.txid)

/-- The leaves of the witness tree. The witness hash of the coinbase is 0. -/
def witnessLeaves : List CTransaction → List Uint256
  | [] => []
  | _ :: rest => 0 :: rest.map hashes.wtxid

def blockWitnessMerkleRoot (block : CBlock) : Uint256 :=
  (computeMerkleRoot hashes.pairHash (witnessLeaves hashes block.vtx)).1

end

def minimumWitnessCommitment : ℕ := 38

def isWitnessCommitment (out : CTxOut) : Bool :=
  minimumWitnessCommitment ≤ out.scriptPubKey.length &&
    out.scriptPubKey.take 6 = [opReturn, 0x24, 0xaa, 0x21, 0xa9, 0xed]

/-- The last output of the first transaction that carries a witness commitment. -/
def getWitnessCommitmentIndex (block : CBlock) : Option ℕ :=
  match block.vtx with
  | [] => none
  | first :: _ =>
    first.vout.zipIdx.foldl
      (fun commitpos out => if isWitnessCommitment out.1 then some out.2 else commitpos) none

/-- The 32 bytes behind the marker of a commitment. -/
def witnessCommitment (tx : CTransaction) (commitpos : ℕ) : List Byte :=
  match tx.vout[commitpos]? with
  | none => []
  | some out => (out.scriptPubKey.drop 6).take 32

/-! ## The check -/

inductive BlockMutation where
  /-- Reported as "bad-txnmrklroot". -/
  | merkleRootMismatch
  /-- Reported as "bad-txns-duplicate". -/
  | duplicateTransaction
  /-- Reported as "bad-witness-nonce-size". -/
  | witnessNonceSize
  /-- Reported as "bad-witness-merkle-match". -/
  | witnessMerkleMatch
  /-- Reported as "unexpected-witness". -/
  | unexpectedWitness
  /-- The assertion that the first transaction has an input fails. -/
  | noCoinbaseInput
  deriving DecidableEq, Repr

section

variable (hashes : BlockHashes) (block : CBlock)

def checkMerkleRoot : Except BlockMutation CBlock :=
  if block.mCheckedMerkleRoot then .ok block
  else
    let (merkleRoot, mutated) := blockMerkleRoot hashes block
    if block.hashMerkleRoot ≠ merkleRoot then .error .merkleRootMismatch
    else if mutated then .error .duplicateTransaction
    else .ok { block with mCheckedMerkleRoot := true }

/-- The part of `checkWitnessMalleation` for a block with a commitment. The
witness of the coinbase is the value that is hashed with the witness root. -/
def matchWitnessCommitment (commitpos : ℕ) : Except BlockMutation Unit :=
  match block.vtx with
  | [] => .error .noCoinbaseInput
  | coinbase :: _ =>
    match coinbase.vin with
    | [] => .error .noCoinbaseInput
    | input :: _ =>
      match input.scriptWitness with
      | [nonce] =>
        if nonce.length ≠ 32 then .error .witnessNonceSize
        else if writeUint256 (hashes.pairHash (blockWitnessMerkleRoot hashes block)
            (uint256OfBytes nonce)) ≠ witnessCommitment coinbase commitpos then
          .error .witnessMerkleMatch
        else .ok ()
      | _ => .error .witnessNonceSize

def checkWitnessMalleation (expectWitnessCommitment : Bool) : Except BlockMutation CBlock :=
  if expectWitnessCommitment && block.mCheckedWitnessCommitment then .ok block
  else
    match if expectWitnessCommitment then getWitnessCommitmentIndex block else none with
    | some commitpos => do
      matchWitnessCommitment hashes block commitpos
      .ok { block with mCheckedWitnessCommitment := true }
    | none => if block.vtx.any hasWitness then .error .unexpectedWitness else .ok block

def startsWithCoinBase : Bool := block.vtx.head?.any isCoinBase

/-- Whether the block is mutated, and the block with the checks it has passed. -/
def isBlockMutated (checkWitnessRoot : Bool) : Bool × CBlock :=
  match checkMerkleRoot hashes block with
  | .error _ => (true, block)
  | .ok block =>
    if !startsWithCoinBase block then
      (block.vtx.any fun tx => (tx.serialize false).length == 64, block)
    else
      match checkWitnessMalleation hashes block checkWitnessRoot with
      | .error _ => (true, block)
      | .ok block => (false, block)

end

/-! ## What the check establishes -/

section

variable (hashes : BlockHashes)

/-- The header has the Merkle root of the transactions, and it is not reported. -/
def MerkleRootMatches (block : CBlock) : Prop :=
  blockMerkleRoot hashes block = (block.hashMerkleRoot, false)

/-- The first transaction carries a commitment to the witnesses of the block. -/
def CommitsToWitnesses (block : CBlock) : Prop :=
  ∃ commitpos, getWitnessCommitmentIndex block = some commitpos ∧
    matchWitnessCommitment hashes block commitpos = .ok ()

/-- The transactions are those that the header and the coinbase commit to. -/
structure Unmutated (block : CBlock) (checkWitnessRoot : Bool) : Prop where
  merkleRoot : MerkleRootMatches hashes block
  sizes : startsWithCoinBase block = false → ∀ tx ∈ block.vtx, (tx.serialize false).length ≠ 64
  witnesses : startsWithCoinBase block → (checkWitnessRoot ∧ CommitsToWitnesses hashes block) ∨
      ((checkWitnessRoot → getWitnessCommitmentIndex block = none) ∧
        ∀ tx ∈ block.vtx, tx.hasWitness = false)

structure ChecksRecorded (block : CBlock) : Prop where
  merkleRoot : block.mCheckedMerkleRoot → MerkleRootMatches hashes block
  witnesses : block.mCheckedWitnessCommitment → CommitsToWitnesses hashes block

variable {hashes} {block : CBlock}

theorem matchWitnessCommitment_eq_ok_iff {commitpos : ℕ} :
    matchWitnessCommitment hashes block commitpos = .ok () ↔
      ∃ coinbase rest input inputs nonce, block.vtx = coinbase :: rest ∧
        coinbase.vin = input :: inputs ∧ input.scriptWitness = [nonce] ∧ nonce.length = 32 ∧
        writeUint256 (hashes.pairHash (blockWitnessMerkleRoot hashes block)
          (uint256OfBytes nonce)) = witnessCommitment coinbase commitpos := by
  constructor
  · intro matching
    unfold matchWitnessCommitment at matching
    split at matching
    case h_1 => cases matching
    case h_2 coinbase rest vtx =>
      split at matching
      case h_1 => cases matching
      case h_2 input inputs vin =>
        split at matching
        case h_1 nonce witness =>
          split at matching
          case isTrue => cases matching
          case isFalse size =>
            split at matching
            case isTrue => cases matching
            case isFalse same =>
              exact ⟨coinbase, rest, input, inputs, nonce, vtx, vin, witness, not_not.mp size,
                not_not.mp same⟩
        case h_2 => cases matching
  · rintro ⟨coinbase, rest, input, inputs, nonce, vtx, vin, witness, size, same⟩
    simp only [matchWitnessCommitment, vtx, vin, witness, size, same, ne_eq, not_true_eq_false,
      if_false]

theorem checkMerkleRoot_cases (recorded : ChecksRecorded hashes block) :
    checkMerkleRoot hashes block = .ok { block with mCheckedMerkleRoot := true } ∧
        MerkleRootMatches hashes block ∨
      (∃ mutation, checkMerkleRoot hashes block = .error mutation) ∧
        ¬ MerkleRootMatches hashes block := by
  rw [checkMerkleRoot, MerkleRootMatches]
  split
  case isTrue checked => exact .inl ⟨by rw [← checked], recorded.merkleRoot checked⟩
  case isFalse =>
    rcases blockMerkleRoot hashes block with ⟨root, mutated⟩
    simp only [Prod.mk.injEq]
    split
    case isTrue different =>
      exact .inr ⟨⟨_, rfl⟩, fun matching => different matching.1.symm⟩
    case isFalse same =>
      rw [not_not] at same
      cases mutated with
      | true => exact .inr ⟨⟨_, rfl⟩, by simp⟩
      | false => exact .inl ⟨rfl, same.symm, rfl⟩

theorem checkWitnessMalleation_cases (recorded : ChecksRecorded hashes block)
    (expectWitnessCommitment : Bool) :
    (∃ passed, checkWitnessMalleation hashes block expectWitnessCommitment = .ok passed) ↔
      (expectWitnessCommitment ∧ CommitsToWitnesses hashes block) ∨
        ((expectWitnessCommitment → getWitnessCommitmentIndex block = none) ∧
          ∀ tx ∈ block.vtx, tx.hasWitness = false) := by
  have noWitness : (∃ passed, (if block.vtx.any hasWitness then
        .error .unexpectedWitness else .ok block : Except BlockMutation CBlock) = .ok passed) ↔
      ∀ tx ∈ block.vtx, tx.hasWitness = false := by
    cases witnessed : block.vtx.any hasWitness with
    | false => simpa [any_eq_false] using witnessed
    | true => simpa [any_eq_true] using witnessed
  rw [checkWitnessMalleation]
  cases expectWitnessCommitment with
  | false => simpa using noWitness
  | true =>
    cases checked : block.mCheckedWitnessCommitment with
    | true => simp [recorded.witnesses checked]
    | false =>
      cases idx : getWitnessCommitmentIndex block with
      | none => simpa [CommitsToWitnesses, idx] using noWitness
      | some commitpos =>
        cases matched : matchWitnessCommitment hashes block commitpos with
        | ok _ => simp [CommitsToWitnesses, idx, matched, Bind.bind, Except.bind]
        | error _ => simp [CommitsToWitnesses, idx, matched, Bind.bind, Except.bind]

/-- The check finds the blocks that are mutated. -/
theorem isBlockMutated_eq_false_iff (recorded : ChecksRecorded hashes block)
    (checkWitnessRoot : Bool) : (isBlockMutated hashes block checkWitnessRoot).1 = false ↔
      Unmutated hashes block checkWitnessRoot := by
  rw [isBlockMutated]
  rcases checkMerkleRoot_cases recorded with ⟨passes, agrees⟩ | ⟨⟨mutation, fails⟩, mismatch⟩
  · have recorded' : ChecksRecorded hashes { block with mCheckedMerkleRoot := true } :=
      ⟨fun _ => agrees, recorded.witnesses⟩
    have witnesses := checkWitnessMalleation_cases recorded' checkWitnessRoot
    simp only [passes]
    cases first : startsWithCoinBase block with
    | false =>
      rw [if_pos (by rw [Bool.not_eq_true']; exact first)]
      refine ⟨fun small => ⟨agrees, fun _ tx mem => ?_, fun other => ?_⟩, fun unmutated => ?_⟩
      · simpa using any_eq_false.mp small tx mem
      · rw [first] at other
        cases other
      · refine any_eq_false.mpr fun tx mem => ?_
        simpa using unmutated.sizes first tx mem
    | true =>
      rw [if_neg (by rw [Bool.not_eq_true, Bool.not_eq_false']; exact first)]
      refine ⟨fun passed => ⟨agrees, fun other => ?_, fun _ => ?_⟩, fun unmutated => ?_⟩
      · rw [first] at other
        cases other
      · refine witnesses.mp ?_
        split at passed
        case h_1 => cases passed
        case h_2 checked => exact ⟨_, checked⟩
      · obtain ⟨passed, checked⟩ := witnesses.mpr (unmutated.witnesses first)
        rw [checked]
  · simp only [fails, Bool.true_eq_false, false_iff]
    exact fun unmutated => mismatch unmutated.merkleRoot

variable {passed : CBlock}

theorem checkMerkleRoot_frame (passes : checkMerkleRoot hashes block = .ok passed) :
    passed.toCBlockHeader = block.toCBlockHeader ∧ passed.vtx = block.vtx := by
  simp only [checkMerkleRoot] at passes
  split at passes
  · cases passes
    exact ⟨rfl, rfl⟩
  · split at passes
    · cases passes
    · split at passes <;> cases passes
      exact ⟨rfl, rfl⟩

theorem checkWitnessMalleation_frame {expectWitnessCommitment : Bool}
    (passes : checkWitnessMalleation hashes block expectWitnessCommitment = .ok passed) :
    passed.toCBlockHeader = block.toCBlockHeader ∧ passed.vtx = block.vtx := by
  simp only [checkWitnessMalleation] at passes
  split at passes
  · cases passes
    exact ⟨rfl, rfl⟩
  · split at passes
    · cases matched : matchWitnessCommitment hashes block _ with
      | error mutation =>
        rw [matched] at passes
        cases passes
      | ok _ =>
        rw [matched] at passes
        cases passes
        exact ⟨rfl, rfl⟩
    · split at passes <;> cases passes
      exact ⟨rfl, rfl⟩

variable (hashes) in
theorem isBlockMutated_frame (block : CBlock) (checkWitnessRoot : Bool) :
    (isBlockMutated hashes block checkWitnessRoot).2.toCBlockHeader = block.toCBlockHeader ∧
      (isBlockMutated hashes block checkWitnessRoot).2.vtx = block.vtx := by
  rw [isBlockMutated]
  split
  case h_1 => exact ⟨rfl, rfl⟩
  case h_2 passed merkle =>
    have frame := checkMerkleRoot_frame merkle
    split
    · exact frame
    · split
      case h_1 => exact frame
      case h_2 witnesses =>
        have frame' := checkWitnessMalleation_frame witnesses
        exact ⟨frame'.1.trans frame.1, frame'.2.trans frame.2⟩

theorem ChecksRecorded.of_unchecked (merkle : block.mCheckedMerkleRoot = false)
    (witness : block.mCheckedWitnessCommitment = false) : ChecksRecorded hashes block := by
  constructor
  · intro checked
    rw [merkle] at checked
    cases checked
  · intro checked
    rw [witness] at checked
    cases checked

variable {other : CBlock}

theorem getWitnessCommitmentIndex_congr (coinbase : other.vtx.head? = block.vtx.head?) :
    getWitnessCommitmentIndex other = getWitnessCommitmentIndex block := by
  rw [getWitnessCommitmentIndex, getWitnessCommitmentIndex]
  generalize other.vtx = vtx at coinbase ⊢
  generalize block.vtx = vtx' at coinbase ⊢
  cases vtx with
  | nil =>
    cases vtx' with
    | nil => rfl
    | cons => cases coinbase
  | cons first rest =>
    cases vtx' with
    | nil => cases coinbase
    | cons first' rest' =>
      obtain rfl : first = first' := Option.some.inj coinbase
      rfl

/-- Only the committed root and the transactions matter. -/
theorem Unmutated.congr (root : other.hashMerkleRoot = block.hashMerkleRoot)
    (vtx : other.vtx = block.vtx) {checkWitnessRoot : Bool}
    (unmutated : Unmutated hashes block checkWitnessRoot) :
    Unmutated hashes other checkWitnessRoot := by
  have first : startsWithCoinBase other = startsWithCoinBase block := by
    rw [startsWithCoinBase, startsWithCoinBase, vtx]
  have idx : getWitnessCommitmentIndex other = getWitnessCommitmentIndex block :=
    getWitnessCommitmentIndex_congr (by rw [vtx])
  have commits : CommitsToWitnesses hashes block → CommitsToWitnesses hashes other := by
    simp only [CommitsToWitnesses, matchWitnessCommitment_eq_ok_iff, idx, blockWitnessMerkleRoot,
      vtx]
    exact id
  refine ⟨?_, ?_, ?_⟩
  · rw [MerkleRootMatches, blockMerkleRoot, root, vtx]
    exact unmutated.merkleRoot
  · rw [first, vtx]
    exact unmutated.sizes
  · rw [first, idx, vtx]
    exact fun starts => (unmutated.witnesses starts).imp_left (And.imp_right commits)

end

/-! ## Blocks with the same commitments -/

variable (hashes : BlockHashes)

/-- The value that is hashed with the witness root: the witness of the first input
of the first transaction. -/
def witnessReservedValue (block : CBlock) : List Byte :=
  (((block.vtx.head?.bind (·.vin.head?)).bind (·.scriptWitness.head?))).getD []

/-- The pairs that are hashed in the checks of a block. -/
def checkedPairs (block : CBlock) : List (Uint256 × Uint256) :=
  hashedPairs hashes.pairHash (block.vtx.map hashes.txid) ++
    (hashedPairs hashes.pairHash (witnessLeaves hashes block.vtx) ++
      [(blockWitnessMerkleRoot hashes block, uint256OfBytes (witnessReservedValue block))])

/-- The checks of the two blocks meet no collision of the pair hash. -/
def NoPairCollision (first second : CBlock) : Prop :=
  CollisionFree hashes.pairHash
    {pair | pair ∈ checkedPairs hashes first ∨ pair ∈ checkedPairs hashes second}

variable {hashes} {orig res : CBlock}

/-- A block that is not mutated and shares its first transaction with a block that
commits to its witnesses does so itself. -/
theorem Unmutated.commitsToWitnesses (unmutated : Unmutated hashes res true)
    (coinbase : res.vtx.head? = orig.vtx.head?)
    (first : startsWithCoinBase orig) (commits : CommitsToWitnesses hashes orig) :
    CommitsToWitnesses hashes res := by
  have first' : startsWithCoinBase res := by
    rwa [startsWithCoinBase, coinbase]
  rcases unmutated.witnesses first' with ⟨-, commits'⟩ | ⟨uncommitted, -⟩
  · exact commits'
  · obtain ⟨commitpos, idx, -⟩ := commits
    rw [← getWitnessCommitmentIndex_congr coinbase, uncommitted rfl] at idx
    cases idx

/-- The header binds the transaction ids. -/
theorem txids_eq_of_merkleRootMatches (root : res.hashMerkleRoot = orig.hashMerkleRoot)
    (commits : (blockMerkleRoot hashes orig).1 = orig.hashMerkleRoot)
    (ne : orig.vtx ≠ []) (lengths : res.vtx.length = orig.vtx.length)
    (matching : MerkleRootMatches hashes res) (free : NoPairCollision hashes orig res) :
    res.vtx.map hashes.txid = orig.vtx.map hashes.txid := by
  symm
  refine eq_of_computeMerkleRoot_eq (by simpa using ne) (by simp [lengths]) (free.mono ?_) ?_
  · rintro pair (mem | mem)
    · exact .inl (mem_append_left _ mem)
    · exact .inr (mem_append_left _ mem)
  · exact commits.trans (root.symm.trans (congrArg Prod.fst matching).symm)

/-- The coinbase binds the transactions. Blocks that share a coinbase with a
commitment that both match have the same transactions. -/
theorem vtx_eq_of_commitsToWitnesses (coinbase : res.vtx.head? = orig.vtx.head?)
    (lengths : res.vtx.length = orig.vtx.length)
    (commits : CommitsToWitnesses hashes orig) (commits' : CommitsToWitnesses hashes res)
    (free : NoPairCollision hashes orig res)
    (injective : Set.InjOn hashes.wtxid {tx | tx ∈ orig.vtx ∨ tx ∈ res.vtx}) :
    res.vtx = orig.vtx := by
  obtain ⟨commitpos, idx, matched⟩ := commits
  obtain ⟨commitpos', index', matched'⟩ := commits'
  rw [matchWitnessCommitment_eq_ok_iff] at matched matched'
  obtain ⟨first, rest, input, inputs, nonce, vtx, vin, witness, -, same⟩ := matched
  obtain ⟨first', rest', input', inputs', nonce', vtx', vin', witness', -, same'⟩ := matched'
  obtain rfl : first' = first := by
    rw [vtx, vtx'] at coinbase
    exact Option.some.inj coinbase
  obtain ⟨rfl, rfl⟩ := List.cons.inj (vin.symm.trans vin')
  obtain ⟨rfl, -⟩ := List.cons.inj (witness.symm.trans witness')
  obtain rfl : commitpos' = commitpos :=
    Option.some.inj (index'.symm.trans ((getWitnessCommitmentIndex_congr coinbase).trans idx))
  have hashed := writeUint256_injective (same.trans same'.symm)
  have roots : blockWitnessMerkleRoot hashes orig = blockWitnessMerkleRoot hashes res := by
    have pair : (blockWitnessMerkleRoot hashes orig, uint256OfBytes nonce) ∈
        checkedPairs hashes orig := by
      simp [checkedPairs, witnessReservedValue, vtx, vin, witness]
    have pair' : (blockWitnessMerkleRoot hashes res, uint256OfBytes nonce) ∈
        checkedPairs hashes res := by
      simp [checkedPairs, witnessReservedValue, vtx', vin, witness]
    exact (Prod.mk.inj (free (.inl pair) (.inr pair') hashed)).1
  have leaves : witnessLeaves hashes orig.vtx = witnessLeaves hashes res.vtx := by
    refine eq_of_computeMerkleRoot_eq (by simp [vtx, witnessLeaves]) ?_ (free.mono ?_) roots
    · rw [vtx, vtx', length_cons, length_cons] at lengths
      simp only [vtx, vtx', witnessLeaves, length_cons, length_map, lengths]
    · rintro pair (mem | mem)
      · exact .inl (mem_append_right _ (mem_append_left _ mem))
      · exact .inr (mem_append_right _ (mem_append_left _ mem))
  rw [vtx, vtx'] at leaves ⊢
  have tails : rest.map hashes.wtxid = rest'.map hashes.wtxid := (List.cons.inj leaves).2
  refine congrArg (first' :: ·) (eq_of_map_eq (injective.mono ?_) tails.symm)
  rintro tx (mem | mem)
  · exact .inr (vtx' ▸ mem_cons_of_mem _ mem)
  · exact .inl (vtx ▸ mem_cons_of_mem _ mem)

end BitcoinCore.Validation
