import BitcoinCore.Lib.PairedLevels

/-!
# Merkle roots

`ComputeMerkleRoot` hashes a list of leaves two by two, repeating the last hash
of a level of odd length, until one hash is left. A list and the same list with
its end repeated can have the same root (CVE-2012-2459), so the function reports
a mutation when two neighbours that are hashed together are equal.

The hashes of one round are a level of the tree over the leaves, and the root
stands at the height `Nat.clog 2 leaves.length` (`computeMerkleRoot_root`). If
the pair hash meets no collision, then two different lists have the same root
only if one of them is reported (`computeMerkleRoot_binding`).
-/

namespace BitcoinCore.Consensus

open PairedLevels Nat

/-- `MAX_BLOCK_WEIGHT` of `consensus.h`. -/
def maxBlockWeight : ℕ := 4000000

variable {Hash : Type*} [DecidableEq Hash]

/-! ## The computation -/

/-- The loop of `computeMerkleRoot`, with a bound on its number of rounds. The
double SHA256 of two concatenated hashes is a parameter. -/
def merkleLoop (pairHash : Hash → Hash → Hash) : ℕ → List Hash → Bool → List Hash × Bool
  | 0, hashes, mutation => (hashes, mutation)
  | rounds + 1, hashes, mutation =>
    if 1 < hashes.length then
      merkleLoop pairHash rounds (nextLevel pairHash hashes) (mutation || hasEqualPair hashes)
    else (hashes, mutation)

def computeMerkleRoot [Zero Hash] (pairHash : Hash → Hash → Hash) (leaves : List Hash) :
    Hash × Bool :=
  let (hashes, mutation) := merkleLoop pairHash leaves.length leaves false
  (hashes.headD 0, mutation)

/-- The pairs of hashes that are hashed together in the computation of a root. -/
def hashedPairs (pairHash : Hash → Hash → Hash) (leaves : List Hash) : List (Hash × Hash) :=
  pairsBelow pairHash (clog 2 leaves.length) leaves

/-! ## The rounds are the levels of the tree -/

section

variable (pairHash : Hash → Hash → Hash)

theorem merkleLoop_eq (rounds : ℕ) (hashes : List Hash) (mutation : Bool)
    (enough : clog 2 hashes.length ≤ rounds) : merkleLoop pairHash rounds hashes mutation =
      (level pairHash (clog 2 hashes.length) hashes,
        mutation || (List.range (clog 2 hashes.length)).any fun height =>
          hasEqualPair (level pairHash height hashes)) := by
  induction rounds generalizing hashes mutation with
  | zero =>
    rw [le_zero.mp enough]
    simp [merkleLoop]
  | succ rounds ih =>
    rw [merkleLoop]
    split
    case isTrue many =>
      have height : clog 2 hashes.length =
          clog 2 (nextLevel pairHash hashes).length + 1 := by
        rw [clog_of_two_le (by decide) many, length_nextLevel]
        rfl
      rw [height] at enough ⊢
      rw [ih _ _ (le_of_succ_le_succ enough), level_succ', List.range_succ_eq_map,
        List.any_cons, List.any_map, level_zero, Bool.or_assoc]
      simp only [Function.comp_def, succ_eq_add_one, level_succ']
    case isFalse few =>
      rw [clog_of_right_le_one (not_lt.mp few)]
      simp

theorem clog_two_le (number : ℕ) : clog 2 number ≤ number :=
  Nat.clog_le_of_le_pow (Nat.lt_two_pow_self).le

variable [Zero Hash] {leaves : List Hash}

theorem computeMerkleRoot_root (ne : leaves ≠ []) :
    level pairHash (clog 2 leaves.length) leaves = [(computeMerkleRoot pairHash leaves).1] := by
  obtain ⟨root, top⟩ := List.length_eq_one_iff.mp (length_level_clog pairHash ne)
  rw [computeMerkleRoot, merkleLoop_eq pairHash _ _ _ (clog_two_le _), top]
  rfl

theorem computeMerkleRoot_unreported :
    (computeMerkleRoot pairHash leaves).2 = false ↔ ∀ height < clog 2 leaves.length,
        hasEqualPair (level pairHash height leaves) = false := by
  rw [computeMerkleRoot, merkleLoop_eq pairHash _ _ _ (clog_two_le _)]
  simp [List.any_eq_false]

end

/-! ## Binding -/

variable [Zero Hash] {pairHash : Hash → Hash → Hash} {first second : List Hash}

theorem eq_of_computeMerkleRoot_eq (ne : first ≠ [])
    (lengths : first.length = second.length) (free : CollisionFree pairHash
      {pair | pair ∈ hashedPairs pairHash first ∨ pair ∈ hashedPairs pairHash second})
    (same : (computeMerkleRoot pairHash first).1 = (computeMerkleRoot pairHash second).1) :
    first = second := by
  have nonempty' : second ≠ [] := by
    intro empty
    rw [empty] at lengths
    exact ne (List.length_eq_zero_iff.mp lengths)
  have top := computeMerkleRoot_root pairHash ne
  have top' := computeMerkleRoot_root pairHash nonempty'
  rw [← lengths, ← same, ← top] at top'
  simp only [hashedPairs, ← lengths] at free
  exact eq_of_level_eq free lengths top'.symm

theorem eq_of_computeMerkleRoot_eq_of_unreported
    (ne : first ≠ []) (nonempty' : second ≠ []) (free : CollisionFree pairHash
      {pair | pair ∈ hashedPairs pairHash first ∨ pair ∈ hashedPairs pairHash second})
    (leaves : ∀ leaf ∈ first, ∀ pair ∈ hashedPairs pairHash second, pairHash pair.1 pair.2 ≠ leaf)
    (leaves' : ∀ leaf ∈ second, ∀ pair ∈ hashedPairs pairHash first, pairHash pair.1 pair.2 ≠ leaf)
    (unreported : (computeMerkleRoot pairHash first).2 = false)
    (unreported' : (computeMerkleRoot pairHash second).2 = false)
    (same : (computeMerkleRoot pairHash first).1 = (computeMerkleRoot pairHash second).1) :
    first = second := by
  have top := computeMerkleRoot_root pairHash ne
  have top' := computeMerkleRoot_root pairHash nonempty'
  rw [← same] at top'
  have heights : clog 2 first.length = clog 2 second.length := by
    exact height_eq_of_root_eq free leaves leaves' (congrArg (fun hashes => hashes[0]?) top)
      (congrArg (fun hashes => hashes[0]?) top')
  rw [computeMerkleRoot_unreported] at unreported unreported'
  simp only [hashedPairs] at free
  rw [← heights] at free unreported' top'
  exact eq_of_level_eq_of_apart free unreported unreported' (top.trans top'.symm)

theorem computeMerkleRoot_unreported_of_nodup {leaves : List Hash} (nodup : leaves.Nodup)
    (free : CollisionFree pairHash {pair | pair ∈ hashedPairs pairHash leaves}) :
    (computeMerkleRoot pairHash leaves).2 = false := by
  rw [computeMerkleRoot_unreported]
  intro height bound
  refine hasEqualPair_eq_false_of_nodup (nodup_level (free.mono ?_) nodup)
  intro pair mem
  rw [Set.mem_ofPred_eq, mem_pairsBelow] at mem
  obtain ⟨below, lower, found⟩ := mem
  exact (mem_pairsBelow pairHash).mpr ⟨below, lower.trans bound, found⟩

variable (pairHash) in
/-- Merkle root binding. Two different lists of leaves with the same root are
not both unreported, as long as the pair hash meets no collision in the two
computations and no leaf of one list is a hash of the other. A list of different
leaves is never reported. -/
theorem computeMerkleRoot_binding : (∀ first second : List Hash, first ≠ [] → second ≠ [] →
      CollisionFree pairHash
        {pair | pair ∈ hashedPairs pairHash first ∨ pair ∈ hashedPairs pairHash second} →
      (∀ leaf ∈ first, ∀ pair ∈ hashedPairs pairHash second, pairHash pair.1 pair.2 ≠ leaf) →
      (∀ leaf ∈ second, ∀ pair ∈ hashedPairs pairHash first, pairHash pair.1 pair.2 ≠ leaf) →
      first ≠ second →
      (computeMerkleRoot pairHash first).1 = (computeMerkleRoot pairHash second).1 →
      (computeMerkleRoot pairHash first).2 ∨ (computeMerkleRoot pairHash second).2) ∧
    (∀ leaves : List Hash, leaves.Nodup →
      CollisionFree pairHash {pair | pair ∈ hashedPairs pairHash leaves} →
      (computeMerkleRoot pairHash leaves).2 = false) := by
  refine ⟨?_, ?_⟩
  · intro first second ne nonempty' free leaves leaves' different same
    by_contra neither
    simp only [not_or, Bool.not_eq_true] at neither
    exact different (eq_of_computeMerkleRoot_eq_of_unreported ne nonempty' free leaves
      leaves' neither.1 neither.2 same)
  · intro leaves nodup free
    exact computeMerkleRoot_unreported_of_nodup nodup free

/-- Leaves 1, 2, 3 and the same leaves with the last one repeated. -/
theorem computeMerkleRoot_binding_repeatedEnd :
    (computeMerkleRoot (fun left right : ℕ => 10 * left + right + 100) [1, 2, 3]).1 =
        (computeMerkleRoot (fun left right : ℕ => 10 * left + right + 100) [1, 2, 3, 3]).1 ∧
      ((computeMerkleRoot (fun left right : ℕ => 10 * left + right + 100) [1, 2, 3]).2 = true ∨
        (computeMerkleRoot (fun left right : ℕ => 10 * left + right + 100) [1, 2, 3, 3]).2) ∧
      (computeMerkleRoot (fun left right : ℕ => 10 * left + right + 100) [1, 2, 3]).2 = false := by
  have pairs : hashedPairs (fun left right : ℕ => 10 * left + right + 100) [1, 2, 3] =
      [(1, 2), (3, 3), (112, 133)] := by
    rw [hashedPairs, show clog 2 [1, 2, 3].length = 2 by decide]
    decide
  have pairs' : hashedPairs (fun left right : ℕ => 10 * left + right + 100) [1, 2, 3, 3] =
      [(1, 2), (3, 3), (112, 133)] := by
    rw [hashedPairs, show clog 2 [1, 2, 3, 3].length = 2 by decide]
    decide
  have same : (computeMerkleRoot (fun left right : ℕ => 10 * left + right + 100) [1, 2, 3]).1 =
      (computeMerkleRoot (fun left right : ℕ => 10 * left + right + 100) [1, 2, 3, 3]).1 := by
    decide
  refine ⟨same, (computeMerkleRoot_binding _).1 _ _ (by decide) (by decide) ?_ ?_ ?_ (by decide)
    same, (computeMerkleRoot_binding _).2 _ (by decide) ?_⟩
  · simp [pairs, pairs', CollisionFree, Set.InjOn]
  · simp [pairs']
  · simp [pairs]
  · simp [pairs, CollisionFree, Set.InjOn]

end BitcoinCore.Consensus
