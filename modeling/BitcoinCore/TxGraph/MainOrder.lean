import BitcoinCore.TxGraph.Updated

/-!
# The order of the main level

Transactions of the main level are compared by the feerate of their chunk, then by the size
of the chunks of equal feerate up to it, then by the greatest transaction of the chunk in
the fallback order, and last by their position. Clusters are compared nowhere: where two
transactions agree in all of this but the position they are in one chunk.

So the comparison is the lexicographic order of keys (`MainLevel.compare_eq`), which is strict and
total (`MainLevel.strictTotal`). Along it every cluster is in the order of its linearization
(`MainLevel.linearized`), and chunks stay together (`MainLevel.contiguous`).
-/

namespace BitcoinCore.TxGraph

open ClusterLinearize StepDiagram List FeeFrac OrderDual GenericClusterImpl

attribute [local instance] levels_neZero

/-! ## The chunks of a cluster -/

/-- A chunk comes before another one: its feerate is higher, or equal and the chunks of this
feerate up to it have a smaller size. -/
def ChunkEntry.Before (a b : ChunkEntry) : Prop :=
  b.chunkFeerate.rate < a.chunkFeerate.rate ∨ a.chunkFeerate.rate = b.chunkFeerate.rate ∧
    a.equalFeerateChunkPrefixSize < b.equalFeerateChunkPrefixSize

variable {ρ : Type*}

/-- What an entry says about the chunk of its transaction. -/
def Entry.chunkEntry (entry : Entry ρ) : ChunkEntry :=
  ⟨entry.mainChunkFeerate, entry.mainEqualFeerateChunkPrefixSize, entry.mainMaxChunkFallback⟩

namespace Cluster

def transactions : Cluster → List GraphIndex
  | .generic impl => impl.transactions
  | .singleton impl => impl.graphIndex.toList

noncomputable def chunks (alt : ρ → ρ → Ordering) (refs : GraphIndex → ρ) : Cluster → List TxChunk
  | .generic impl => impl.txChunks alt refs
  | .singleton impl => impl.graphIndex.toList.map fun idx =>
    ⟨[idx], ⟨impl.feerate, impl.feerate.size, idx⟩⟩

/-- A cluster in good order, for which `Updated` stores the chunks. -/
def Valid : Cluster → Prop
  | .generic impl => impl.Valid ∧ impl.acceptable
  | .singleton impl => 0 < impl.feerate.size ∧ impl.acceptable

/-- The entries of the transactions of a cluster are what `Updated` stores. -/
structure Stored (alt : ρ → ρ → Ordering) (cluster : Cluster)
    (entries : GraphIndex → Entry ρ) : Prop where
  located : ∀ tx ∈ cluster.transactions, ((entries tx).locator 0).cluster = some cluster.sequence
  indexed : ∀ k tx, cluster.transactions[k]? = some tx → (entries tx).mainLinIndex = k
  keyed : ∀ chunk ∈ cluster.chunks alt (fun i => (entries i).ref), ∀ tx ∈ chunk.txs,
    (entries tx).chunkEntry = chunk.data

theorem stored_of_rows {alt : ρ → ρ → Ordering} {cluster : Cluster} {chunks : List TxChunk}
    {entries : GraphIndex → Entry ρ} (isChunks : cluster.chunks alt (fun i => (entries i).ref) = chunks)
    (whole : chunks.flatMap TxChunk.txs = cluster.transactions)
    (stored : ∀ (k : ℕ) tx data, (rowsOf chunks)[k]? = some (tx, data) → ∃ (entry : Entry ρ) (idx : ℕ),
      entries tx = (entry.located 0 cluster.sequence idx).stored data k) :
    cluster.Stored alt entries := by
  have exists_row : ∀ (k : ℕ) tx, cluster.transactions[k]? = some tx →
      ∃ data, (rowsOf chunks)[k]? = some (tx, data) := by
    intro k tx here
    rw [← whole, ← fst_rowsOf, getElem?_map, Option.map_eq_some_iff] at here
    obtain ⟨⟨_, data⟩, row, rfl⟩ := here
    exact ⟨data, row⟩
  refine ⟨fun tx mem => ?_, fun k tx here => ?_, fun chunk isChunk tx isTx => ?_⟩
  · obtain ⟨k, here⟩ := mem_iff_getElem?.mp mem
    obtain ⟨data, row⟩ := exists_row k tx here
    obtain ⟨entry, idx, isEntry⟩ := stored k tx data row
    rw [isEntry]
    rfl
  · obtain ⟨data, row⟩ := exists_row k tx here
    obtain ⟨entry, idx, isEntry⟩ := stored k tx data row
    rw [isEntry]
    rfl
  · rw [isChunks] at isChunk
    have mem : (tx, chunk.data) ∈ rowsOf chunks :=
      mem_flatMap.mpr ⟨chunk, isChunk, mem_map.mpr ⟨tx, isTx, rfl⟩⟩
    obtain ⟨k, row⟩ := mem_iff_getElem?.mp mem
    obtain ⟨entry, idx, isEntry⟩ := stored k tx chunk.data row
    rw [isEntry]
    rfl

end Cluster

/-! ### Equal feerates -/

section

variable {a b : FeeFrac} {r : ℝ}

theorem rate_eq_iff (a_pos : 0 < a.size) : a.rate = r ↔ (a.fee : ℝ) = r * a.size := by
  have wide : (a.size : ℝ) ≠ 0 := (Int.cast_pos.mpr a_pos).ne'
  exact div_eq_iff wide

theorem rate_add (a_pos : 0 < a.size) (b_pos : 0 < b.size) (a_rate : a.rate = r) (b_rate : b.rate = r) :
    (a + b).rate = r := by
  rw [rate_eq_iff a_pos] at a_rate
  rw [rate_eq_iff b_pos] at b_rate
  rw [rate_eq_iff (add_pos a_pos b_pos)]
  push_cast [add_fee, add_size]
  rw [a_rate, b_rate, mul_add]

theorem lower_iff (a_pos : 0 < a.size) (b_pos : 0 < b.size) : a.lower b ↔ a.rate < b.rate :=
  higher_iff b_pos a_pos

end

namespace GenericClusterImpl

variable {alt : ρ → ρ → Ordering} {cluster : GenericClusterImpl}
  {refs : GraphIndex → ρ} {groups : List (List ℕ)} {equalFeerate : FeeFrac}

noncomputable def groupRate (cluster : GenericClusterImpl) (group : List ℕ) : ℝ :=
  (feeRateOfList cluster.depgraph group).rate

theorem exists_chunkOf {chunk : TxChunk}
    (mem : chunk ∈ cluster.chunksFrom alt refs equalFeerate groups) :
    ∃ group ∈ groups, ∃ equal, chunk = cluster.chunkOf alt refs equal group := by
  induction groups generalizing equalFeerate with
  | nil => exact absurd mem not_mem_nil
  | cons group groups ih =>
    rcases mem_cons.mp mem with rfl | later
    · exact ⟨group, mem_cons_self, equalFeerate, rfl⟩
    · obtain ⟨other, isGroup, isChunk⟩ := ih later
      exact ⟨other, mem_cons_of_mem _ isGroup, isChunk⟩

theorem lt_prefix {r : ℝ} (positive : ∀ group ∈ groups, 0 < (feeRateOfList cluster.depgraph group).size)
    (falling : groups.Pairwise fun a b => cluster.groupRate b ≤ cluster.groupRate a)
    (below : ∀ group ∈ groups, cluster.groupRate group ≤ r) (equal_pos : 0 < equalFeerate.size)
    (equal_rate : equalFeerate.rate = r) :
    ∀ chunk ∈ cluster.chunksFrom alt refs equalFeerate groups,
      chunk.data.chunkFeerate.rate = r → equalFeerate.size < chunk.data.equalFeerateChunkPrefixSize := by
  induction groups generalizing equalFeerate with
  | nil => exact fun _ mem => absurd mem not_mem_nil
  | cons group groups ih =>
    obtain ⟨group_pos, positive⟩ := forall_mem_cons.mp positive
    obtain ⟨first, falling⟩ := pairwise_cons.mp falling
    obtain ⟨group_le, below⟩ := forall_mem_cons.mp below
    intro chunk mem same
    rw [chunksFrom] at mem
    -- A later chunk of this feerate means that the first chunk has it too.
    have first_rate : cluster.groupRate group = r := by
      rcases mem_cons.mp mem with rfl | later
      · exact same
      · obtain ⟨other, isGroup, equal, rfl⟩ := exists_chunkOf later
        have rate : cluster.groupRate other = r := same
        exact le_antisymm group_le (rate ▸ first other isGroup)
    have notLower : (feeRateOfList cluster.depgraph group).lower equalFeerate = false := by
      rw [Bool.eq_false_iff, ne_eq, lower_iff group_pos equal_pos, equal_rate]
      exact not_lt.mpr first_rate.ge
    have after : cluster.equalAfter equalFeerate group =
        equalFeerate + feeRateOfList cluster.depgraph group := by
      rw [equalAfter, addEqualFeerate, notLower]
      rfl
    have grows : equalFeerate.size < (cluster.equalAfter equalFeerate group).size := by
      rw [after]
      exact lt_add_of_pos_right _ group_pos
    rcases mem_cons.mp mem with rfl | later
    · exact grows
    · refine grows.trans (ih positive falling below (equal_pos.trans grows) ?_ chunk later same)
      rw [after]
      exact rate_add equal_pos group_pos equal_rate first_rate

theorem equalAfter_spec {group : List ℕ} (group_pos : 0 < (feeRateOfList cluster.depgraph group).size)
    (before : equalFeerate = 0 ∨ 0 < equalFeerate.size ∧ cluster.groupRate group ≤ equalFeerate.rate) :
    0 < (cluster.equalAfter equalFeerate group).size ∧
      (cluster.equalAfter equalFeerate group).rate = cluster.groupRate group := by
  rw [equalAfter, addEqualFeerate]
  rcases before with rfl | ⟨equal_pos, higher⟩
  · have notLower : (feeRateOfList cluster.depgraph group).lower 0 = false := by
      simp [lower, mul]
    rw [notLower, if_neg Bool.false_ne_true, zero_add]
    exact ⟨group_pos, rfl⟩
  · split
    case isTrue => exact ⟨group_pos, rfl⟩
    case isFalse notLower =>
      rw [lower_iff group_pos equal_pos, not_lt] at notLower
      have same : equalFeerate.rate = cluster.groupRate group := le_antisymm notLower higher
      exact ⟨add_pos equal_pos group_pos, rate_add equal_pos group_pos same rfl⟩

/-- The data of chunks is in order. -/
theorem pairwise_before
    (positive : ∀ group ∈ groups, 0 < (feeRateOfList cluster.depgraph group).size)
    (falling : groups.Pairwise fun a b => cluster.groupRate b ≤ cluster.groupRate a)
    (before : equalFeerate = 0 ∨ 0 < equalFeerate.size ∧
      ∀ group ∈ groups, cluster.groupRate group ≤ equalFeerate.rate) :
    (cluster.chunksFrom alt refs equalFeerate groups).Pairwise fun a b =>
      a.data.Before b.data := by
  induction groups generalizing equalFeerate with
  | nil => exact Pairwise.nil
  | cons group groups ih =>
    obtain ⟨group_pos, positive⟩ := forall_mem_cons.mp positive
    obtain ⟨first, falling⟩ := pairwise_cons.mp falling
    obtain ⟨after_pos, after_rate⟩ := equalAfter_spec group_pos
      (before.imp id fun both => ⟨both.1, both.2 group mem_cons_self⟩)
    refine pairwise_cons.mpr ⟨fun chunk later => ?_,
      ih positive falling (Or.inr ⟨after_pos, fun other mem => after_rate ▸ first other mem⟩)⟩
    obtain ⟨other, isGroup, equal, isChunk⟩ := exists_chunkOf later
    have rate : chunk.data.chunkFeerate.rate = cluster.groupRate other := by rw [isChunk]; rfl
    rcases (first other isGroup).lt_or_eq with lower | same
    · exact Or.inl (rate ▸ lower)
    · refine Or.inr ⟨(rate.trans same).symm, ?_⟩
      exact lt_prefix positive falling first after_pos after_rate chunk later (rate.trans same)

theorem maxElement_mem {group : List ℕ} (nonempty : group ≠ []) :
    cluster.maxElement alt refs group.toFinset ∈ group.map cluster.mapping := by
  have isIn : ∀ idx ∈ group.toFinset.sort, cluster.mapping idx ∈ group.map cluster.mapping :=
    fun idx mem => mem_map_of_mem (mem_toFinset.mp ((Finset.mem_sort _).mp mem))
  rw [maxElement]
  cases sorted : group.toFinset.sort with
  | nil =>
    obtain ⟨first, rest, rfl⟩ := exists_cons_of_ne_nil nonempty
    have mem : first ∈ (first :: rest).toFinset.sort :=
      (Finset.mem_sort _).mpr (mem_toFinset.mpr mem_cons_self)
    rw [sorted] at mem
    exact absurd mem not_mem_nil
  | cons first others =>
    rw [sorted] at isIn
    obtain ⟨here, rest⟩ := forall_mem_cons.mp isIn
    refine foldlRecOn others _ here fun best isBest idx mem => ?_
    split
    · exact rest idx mem
    · exact isBest

end GenericClusterImpl

/-! ### Good chunks -/

structure GoodChunks (transactions : List GraphIndex) (chunks : List TxChunk) : Prop where
  whole : chunks.flatMap TxChunk.txs = transactions
  nodup : transactions.Nodup
  size_pos : ∀ chunk ∈ chunks, 0 < chunk.data.chunkFeerate.size
  before : chunks.Pairwise fun a b => a.data.Before b.data
  max_mem : ∀ chunk ∈ chunks, chunk.data.maxChunkFallback ∈ chunk.txs

theorem Cluster.Valid.goodChunks {cluster : Cluster} (valid : cluster.Valid)
    (alt : ρ → ρ → Ordering) (refs : GraphIndex → ρ) :
    GoodChunks cluster.transactions (cluster.chunks alt refs) := by
  cases cluster with
  | generic impl =>
    obtain ⟨good, -⟩ := valid
    have positive : ∀ group ∈ impl.chunkGroups, 0 < (feeRateOfList impl.depgraph group).size := by
      intro group mem
      have wide := wide_of_positive good.sizes_of_mem
      rw [← good.isChunking.2] at wide
      rw [size_feeRateOfList]
      exact good.isChunking.1.advancing wide _ (mem_map_of_mem mem)
    have falling : impl.chunkGroups.Pairwise fun a b => impl.groupRate b ≤ impl.groupRate a := by
      have concave := good.isChunking.1.concave
      rw [Concave, pairwise_map] at concave
      refine concave.imp fun {a b} lower => ?_
      rw [groupRate, groupRate, rate, rate,
        step_feeRateOfList, step_feeRateOfList]
      exact lower
    refine ⟨?_, good.nodup_transactions, ?_, ?_, ?_⟩
    · exact good.txs_txChunks alt refs
    · intro chunk mem
      obtain ⟨group, isGroup, -, rfl⟩ := exists_chunkOf mem
      exact positive group isGroup
    · exact pairwise_before positive falling (Or.inl rfl)
    · intro chunk mem
      obtain ⟨group, isGroup, -, rfl⟩ := exists_chunkOf mem
      exact maxElement_mem (good.chunk_ne_nil group isGroup)
  | singleton impl =>
    obtain ⟨size_pos, -⟩ := valid
    rw [chunks, transactions]
    cases impl.graphIndex with
    | none => exact ⟨rfl, nodup_nil, by simp, Pairwise.nil, by simp⟩
    | some idx =>
      exact ⟨rfl, nodup_singleton _, by simpa using size_pos, pairwise_singleton _ _, by simp⟩

/-- What is between two pairs with one first component has this component too. -/
theorem lex_between {α β : Type*} [LinearOrder α] [Preorder β] {x y : α} {p q r : β}
    (first : toLex (x, p) < toLex (y, q)) (second : toLex (y, q) < toLex (x, r)) :
    x = y ∧ p < q ∧ q < r := by
  rw [Prod.Lex.toLex_lt_toLex] at first second
  rcases first with less | ⟨same, less⟩ <;> rcases second with less' | ⟨same', less'⟩
  · exact absurd less less'.asymm
  · exact absurd same' less.ne'
  · exact absurd same less'.ne'
  · exact ⟨same, less, less'⟩

/-! ## The main level -/

section MainLevel

variable [LinearOrder ρ] {entries : GraphIndex → Entry ρ} {clus : List Cluster}

def mainTxs (clus : List Cluster) : List GraphIndex := clus.flatMap Cluster.transactions

/-- A main level whose data is stored. The fallback order is a linear order of the `Ref`s. -/
structure MainLevel (entries : GraphIndex → Entry ρ) (clus : List Cluster) : Prop where
  valid : ∀ cluster ∈ clus, cluster.Valid
  stored : ∀ cluster ∈ clus, cluster.Stored compare entries
  sequences : (clus.map Cluster.sequence).Nodup
  refs : ∀ a ∈ mainTxs clus, ∀ b ∈ mainTxs clus, (entries a).ref = (entries b).ref → a = b

noncomputable def chunksOf (entries : GraphIndex → Entry ρ) (cluster : Cluster) : List TxChunk :=
  cluster.chunks compare fun i => (entries i).ref

noncomputable def mainKey (entries : GraphIndex → Entry ρ) (tx : GraphIndex) : ℝᵒᵈ ×ₗ ℤ ×ₗ ρ ×ₗ ℕ :=
  toLex (toDual (entries tx).mainChunkFeerate.rate,
    toLex ((entries tx).mainEqualFeerateChunkPrefixSize,
      toLex ((entries (entries tx).mainMaxChunkFallback).ref, (entries tx).mainLinIndex)))

theorem feeRateCompare_eq {a b : FeeFrac} (a_pos : 0 < a.size) (b_pos : 0 < b.size) :
    feeRateCompare a b = compare a.rate b.rate := by
  have lower := lower_iff a_pos b_pos
  have higher := lower_iff b_pos a_pos
  rw [FeeFrac.lower, decide_eq_true_iff] at lower higher
  rw [feeRateCompare]
  rcases lt_trichotomy a.rate b.rate with less | same | greater
  · rw [compare_lt_iff_lt.mpr less, compare_lt_iff_lt.mpr (lower.mpr less)]
  · rw [compare_eq_iff_eq.mpr same, compare_eq_iff_eq]
    exact le_antisymm (not_lt.mp fun less => same.not_gt (higher.mp less))
      (not_lt.mp fun less => same.not_lt (lower.mp less))
  · rw [compare_gt_iff_gt.mpr greater, compare_gt_iff_gt.mpr (higher.mpr greater)]

namespace MainLevel

variable (level : MainLevel entries clus)

include level

variable {tx : GraphIndex} {chunk : TxChunk} {cluster : Cluster}

theorem goodChunks (mem : cluster ∈ clus) :
    GoodChunks cluster.transactions (chunksOf entries cluster) :=
  (level.valid cluster mem).goodChunks _ _

theorem exists_chunk (isMain : tx ∈ mainTxs clus) :
    ∃ cluster ∈ clus, ∃ chunk ∈ chunksOf entries cluster, tx ∈ chunk.txs := by
  obtain ⟨cluster, isClus, mem⟩ := mem_flatMap.mp isMain
  rw [← (level.goodChunks isClus).whole] at mem
  obtain ⟨chunk, isChunk, isTx⟩ := mem_flatMap.mp mem
  exact ⟨cluster, isClus, chunk, isChunk, isTx⟩

theorem mem_transactions (isClus : cluster ∈ clus)
    (isChunk : chunk ∈ chunksOf entries cluster) (isTx : tx ∈ chunk.txs) :
    tx ∈ cluster.transactions := by
  rw [← (level.goodChunks isClus).whole]
  exact mem_flatMap.mpr ⟨chunk, isChunk, isTx⟩

theorem cluster_unique {a b : Cluster} (isA : a ∈ clus) (isB : b ∈ clus)
    (inA : tx ∈ a.transactions) (inB : tx ∈ b.transactions) : a = b := by
  have sequence := ((level.stored a isA).located tx inA).symm.trans ((level.stored b isB).located tx inB)
  exact inj_on_of_nodup_map level.sequences isA isB (Option.some_inj.mp sequence)

theorem chunk_unique (isClus : cluster ∈ clus) {a b : TxChunk}
    (isA : a ∈ chunksOf entries cluster) (isB : b ∈ chunksOf entries cluster)
    (rates : a.data.chunkFeerate.rate = b.data.chunkFeerate.rate)
    (sizes : a.data.equalFeerateChunkPrefixSize = b.data.equalFeerateChunkPrefixSize) : a = b := by
  by_contra different
  have symm : Std.Symm fun x y : TxChunk => x.data.Before y.data ∨ y.data.Before x.data :=
    ⟨fun _ _ => Or.symm⟩
  have ordered : (chunksOf entries cluster).Pairwise fun x y =>
      x.data.Before y.data ∨ y.data.Before x.data := (level.goodChunks isClus).before.imp Or.inl
  rcases ordered.forall isA isB different with (lower | ⟨-, less⟩) | (lower | ⟨-, less⟩)
  · exact lower.ne rates.symm
  · exact less.ne sizes
  · exact lower.ne rates
  · exact less.ne sizes.symm

/-- Equal keys up to the position mean one chunk. -/
theorem same_chunk {c d : Cluster} (isC : c ∈ clus) (isD : d ∈ clus) {a b : TxChunk}
    (isA : a ∈ chunksOf entries c) (isB : b ∈ chunksOf entries d)
    (rates : a.data.chunkFeerate.rate = b.data.chunkFeerate.rate)
    (sizes : a.data.equalFeerateChunkPrefixSize = b.data.equalFeerateChunkPrefixSize)
    (greatest : (entries a.data.maxChunkFallback).ref = (entries b.data.maxChunkFallback).ref) :
    c = d ∧ a = b := by
  have maxA := level.mem_transactions isC isA ((level.goodChunks isC).max_mem a isA)
  have maxB := level.mem_transactions isD isB ((level.goodChunks isD).max_mem b isB)
  have same := level.refs _ (mem_flatMap.mpr ⟨c, isC, maxA⟩) _ (mem_flatMap.mpr ⟨d, isD, maxB⟩)
    greatest
  obtain rfl := level.cluster_unique isC isD maxA (same ▸ maxB)
  exact ⟨rfl, level.chunk_unique isC isA isB rates sizes⟩

theorem mainKey_eq (isClus : cluster ∈ clus)
    (isChunk : chunk ∈ chunksOf entries cluster) (isTx : tx ∈ chunk.txs) :
    mainKey entries tx = toLex (toDual chunk.data.chunkFeerate.rate,
      toLex (chunk.data.equalFeerateChunkPrefixSize,
        toLex ((entries chunk.data.maxChunkFallback).ref, (entries tx).mainLinIndex))) := by
  rw [← (level.stored cluster isClus).keyed chunk isChunk tx isTx]
  rfl

theorem size_pos (isMain : tx ∈ mainTxs clus) :
    0 < (entries tx).mainChunkFeerate.size := by
  obtain ⟨cluster, isClus, chunk, isChunk, isTx⟩ := level.exists_chunk isMain
  have pos := (level.goodChunks isClus).size_pos chunk isChunk
  rwa [← (level.stored cluster isClus).keyed chunk isChunk tx isTx] at pos

section

variable {a b : GraphIndex} (isA : a ∈ mainTxs clus) (isB : b ∈ mainTxs clus)
include isA isB

/-- The comparison is that of the keys. -/
theorem compare_eq : compareMainTransactions compare entries a b =
    compare (mainKey entries a) (mainKey entries b) := by
  rcases eq_or_ne a b with rfl | ne
  · rw [compareMainTransactions, if_pos rfl, compare_eq_iff_eq.mpr rfl]
  have lex : compare (mainKey entries a) (mainKey entries b) =
      (compare (entries b).mainChunkFeerate.rate (entries a).mainChunkFeerate.rate).then
        ((compare (entries a).mainEqualFeerateChunkPrefixSize
          (entries b).mainEqualFeerateChunkPrefixSize).then
        ((compare (entries (entries a).mainMaxChunkFallback).ref
          (entries (entries b).mainMaxChunkFallback).ref).then
        (compare (entries a).mainLinIndex (entries b).mainLinIndex))) := rfl
  rw [compareMainTransactions, if_neg ne, lex]
  dsimp only
  rw [feeRateCompare_eq (level.size_pos isB) (level.size_pos isA)]
  cases rates : compare (entries b).mainChunkFeerate.rate (entries a).mainChunkFeerate.rate with
  | lt => rfl
  | gt => rfl
  | eq =>
  by_cases sizes : (entries a).mainEqualFeerateChunkPrefixSize =
    (entries b).mainEqualFeerateChunkPrefixSize
  case neg =>
    dsimp only
    rw [if_pos sizes]
    cases order : compare (entries a).mainEqualFeerateChunkPrefixSize
      (entries b).mainEqualFeerateChunkPrefixSize with
    | lt => rfl
    | gt => rfl
    | eq => exact absurd (compare_eq_iff_eq.mp order) sizes
  obtain ⟨c, isC, chunkA, isChunkA, inA⟩ := level.exists_chunk isA
  obtain ⟨d, isD, chunkB, isChunkB, inB⟩ := level.exists_chunk isB
  have dataA := (level.stored c isC).keyed chunkA isChunkA a inA
  have dataB := (level.stored d isD).keyed chunkB isChunkB b inB
  have placeA := (level.stored c isC).located a (level.mem_transactions isC isChunkA inA)
  have placeB := (level.stored d isD).located b (level.mem_transactions isD isChunkB inB)
  have sameRates : chunkA.data.chunkFeerate.rate = chunkB.data.chunkFeerate.rate := by
    rw [← dataA, ← dataB]
    exact (compare_eq_iff_eq.mp rates).symm
  have sameSizes : chunkA.data.equalFeerateChunkPrefixSize =
      chunkB.data.equalFeerateChunkPrefixSize := by
    rw [← dataA, ← dataB]
    exact sizes
  dsimp only
  rw [if_neg (not_not.mpr sizes), compare_eq_iff_eq.mpr sizes, placeA, placeB]
  by_cases clusters : c = d
  · -- Of one cluster, so of one chunk.
    subst clusters
    have sameData : (entries a).chunkEntry = (entries b).chunkEntry := by
      rw [dataA, dataB, level.chunk_unique isC isChunkA isChunkB sameRates sameSizes]
    have greatest : (entries a).mainMaxChunkFallback = (entries b).mainMaxChunkFallback :=
      congrArg ChunkEntry.maxChunkFallback sameData
    rw [if_neg (not_not.mpr rfl), greatest, compare_eq_iff_eq.mpr rfl]
    rfl
  · -- Of different clusters, so with different greatest transactions.
    have differ : some c.sequence ≠ some d.sequence := fun same =>
      clusters (inj_on_of_nodup_map level.sequences isC isD (Option.some_inj.mp same))
    rw [if_pos differ]
    cases order : compare (entries (entries a).mainMaxChunkFallback).ref
      (entries (entries b).mainMaxChunkFallback).ref with
    | lt => rfl
    | gt => rfl
    | eq =>
      refine absurd (level.same_chunk isC isD isChunkA isChunkB sameRates sameSizes ?_).1 clusters
      rw [← dataA, ← dataB]
      exact compare_eq_iff_eq.mp order

theorem lt_iff : compareMainTransactions compare entries a b = .lt ↔
    mainKey entries a < mainKey entries b := by
  rw [level.compare_eq isA isB, compare_lt_iff_lt]

theorem mainKey_injective (same : mainKey entries a = mainKey entries b) : a = b := by
  obtain ⟨c, isC, chunkA, isChunkA, inA⟩ := level.exists_chunk isA
  obtain ⟨d, isD, chunkB, isChunkB, inB⟩ := level.exists_chunk isB
  rw [level.mainKey_eq isC isChunkA inA, level.mainKey_eq isD isChunkB inB] at same
  obtain ⟨rates, rest⟩ := Prod.mk.inj same
  obtain ⟨sizes, rest⟩ := Prod.mk.inj rest
  obtain ⟨greatest, place⟩ := Prod.mk.inj rest
  obtain ⟨rfl, -⟩ := level.same_chunk isC isD isChunkA isChunkB rates sizes greatest
  obtain ⟨k, atA⟩ := mem_iff_getElem?.mp (level.mem_transactions isC isChunkA inA)
  obtain ⟨l, atB⟩ := mem_iff_getElem?.mp (level.mem_transactions isC isChunkB inB)
  have positions : k = l :=
    ((level.stored c isC).indexed k a atA).symm.trans (place.trans ((level.stored c isC).indexed l b atB))
  rw [positions, atB] at atA
  exact (Option.some_inj.mp atA).symm

end

theorem strictTotal : StrictTotalOn (fun a b => compareMainTransactions compare entries a b = .lt)
    {tx | tx ∈ mainTxs clus} where
  irrefl a isA less := absurd ((level.lt_iff isA isA).mp less) (lt_irrefl _)
  trans a isA b isB c isC first second :=
    (level.lt_iff isA isC).mpr
      (((level.lt_iff isA isB).mp first).trans ((level.lt_iff isB isC).mp second))
  total a isA b isB different := by
    rcases lt_trichotomy (mainKey entries a) (mainKey entries b) with less | same | greater
    · exact Or.inl ((level.lt_iff isA isB).mpr less)
    · exact absurd (level.mainKey_injective isA isB same) different
    · exact Or.inr ((level.lt_iff isB isA).mpr greater)

theorem linearized (isClus : cluster ∈ clus) :
    cluster.transactions.Pairwise fun a b => compareMainTransactions compare entries a b = .lt := by
  have good := level.goodChunks isClus
  have positions : cluster.transactions.Pairwise fun a b =>
      (entries a).mainLinIndex < (entries b).mainLinIndex := by
    rw [pairwise_iff_getElem]
    intro i j i_lt j_lt less
    rw [(level.stored cluster isClus).indexed i _ (getElem?_eq_getElem i_lt),
      (level.stored cluster isClus).indexed j _ (getElem?_eq_getElem j_lt)]
    exact less
  have isMain : ∀ chunk ∈ chunksOf entries cluster, ∀ tx ∈ chunk.txs, tx ∈ mainTxs clus :=
    fun chunk isChunk tx isTx =>
      mem_flatMap.mpr ⟨cluster, isClus, level.mem_transactions isClus isChunk isTx⟩
  rw [← good.whole, pairwise_flatMap] at positions ⊢
  refine ⟨fun chunk isChunk => ?_, ?_⟩
  · refine (Pairwise.and_mem.mp (positions.1 chunk isChunk)).imp fun {a b} both => ?_
    obtain ⟨inA, inB, less⟩ := both
    refine (level.lt_iff (isMain chunk isChunk a inA) (isMain chunk isChunk b inB)).mpr ?_
    rw [level.mainKey_eq isClus isChunk inA, level.mainKey_eq isClus isChunk inB]
    simp only [Prod.Lex.toLex_lt_toLex, lt_irrefl, false_or, true_and]
    exact less
  · refine (Pairwise.and_mem.mp good.before).imp fun {first second} both a inA b inB => ?_
    obtain ⟨isFirst, isSecond, before⟩ := both
    refine (level.lt_iff (isMain first isFirst a inA) (isMain second isSecond b inB)).mpr ?_
    rw [level.mainKey_eq isClus isFirst inA, level.mainKey_eq isClus isSecond inB,
      Prod.Lex.toLex_lt_toLex, Prod.Lex.toLex_lt_toLex]
    rcases before with lower | ⟨same, less⟩
    · exact Or.inl (toDual_lt_toDual.mpr lower)
    · exact Or.inr ⟨congrArg toDual same, Or.inl less⟩

theorem ancestor_first {impl : GenericClusterImpl} (isClus : Cluster.generic impl ∈ clus) {i j : ℕ}
    (isI : i ∈ impl.linearization) (isJ : j ∈ impl.linearization) (different : i ≠ j)
    (isAncestor : i ∈ impl.depgraph.ancestors j) :
    compareMainTransactions compare entries (impl.mapping i) (impl.mapping j) = .lt := by
  have ordered := level.linearized isClus
  rw [Cluster.transactions, transactions, pairwise_map] at ordered
  have topological := (level.valid _ isClus).1.topological.ordered
  obtain ⟨k, k_lt, rfl⟩ := getElem_of_mem isI
  obtain ⟨l, l_lt, rfl⟩ := getElem_of_mem isJ
  rcases lt_trichotomy k l with less | rfl | greater
  · exact pairwise_iff_getElem.mp ordered k l k_lt l_lt less
  · exact absurd rfl different
  · exact absurd isAncestor (pairwise_iff_getElem.mp topological l k l_lt k_lt greater)

/-- Feerates never increase along the order. -/
theorem feerate_le {a b : GraphIndex} (isA : a ∈ mainTxs clus) (isB : b ∈ mainTxs clus)
    (less : compareMainTransactions compare entries a b = .lt) :
    (entries b).mainChunkFeerate.rate ≤ (entries a).mainChunkFeerate.rate := by
  have key := (level.lt_iff isA isB).mp less
  rw [mainKey, mainKey, Prod.Lex.toLex_lt_toLex] at key
  rcases key with lower | ⟨same, -⟩
  · exact (toDual_lt_toDual.mp lower).le
  · exact (toDual_inj.mp same).ge

/-- Chunks stay together. -/
theorem contiguous (isClus : cluster ∈ clus)
    (isChunk : chunk ∈ chunksOf entries cluster) {a b : GraphIndex} (inA : a ∈ chunk.txs)
    (inB : b ∈ chunk.txs) (isTx : tx ∈ mainTxs clus)
    (after : compareMainTransactions compare entries a tx = .lt)
    (before : compareMainTransactions compare entries tx b = .lt) : tx ∈ chunk.txs := by
  have mainA : a ∈ mainTxs clus :=
    mem_flatMap.mpr ⟨cluster, isClus, level.mem_transactions isClus isChunk inA⟩
  have mainB : b ∈ mainTxs clus :=
    mem_flatMap.mpr ⟨cluster, isClus, level.mem_transactions isClus isChunk inB⟩
  obtain ⟨other, isOther, found, isFound, inFound⟩ := level.exists_chunk isTx
  have first := (level.lt_iff mainA isTx).mp after
  have second := (level.lt_iff isTx mainB).mp before
  rw [level.mainKey_eq isClus isChunk inA, level.mainKey_eq isOther isFound inFound] at first
  rw [level.mainKey_eq isOther isFound inFound, level.mainKey_eq isClus isChunk inB] at second
  obtain ⟨rates, first, second⟩ := lex_between first second
  obtain ⟨sizes, first, second⟩ := lex_between first second
  obtain ⟨greatest, -⟩ := lex_between first second
  obtain ⟨rfl, rfl⟩ := level.same_chunk isClus isOther isChunk isFound (toDual_inj.mp rates)
    sizes greatest
  exact inFound

end MainLevel

end MainLevel

end BitcoinCore.TxGraph
