import BitcoinCore.Lib.DiagramMerge
import BitcoinCore.TxGraph.MainOrder
import BitcoinCore.Util.CompareChunks

/-!
# The feerate diagrams of a replacement

A replacement is staged in the transaction graph. `GetMainStagingDiagrams` gathers the
chunks of the clusters that it changes, as they are and as they would be, and
`ImprovesFeerateDiagram` asks whether the second diagram is above the first.

The clusters that are not changed are left out of the comparison. Their chunks would be
merged into both diagrams, and that changes nothing: the whole diagram of the main level
gets better exactly if the compared parts do (`compareChunks_merge_iff`).
-/

namespace BitcoinCore

open StepDiagram List FeeFrac

namespace FeeFrac

/-- `operator>`: a higher feerate, or the same one and a smaller size. -/
def greater (a b : FeeFrac) : Bool :=
  mul a.fee b.size > mul b.fee a.size || (mul a.fee b.size = mul b.fee a.size && b.size > a.size)

noncomputable def key (a : FeeFrac) : ℝ ×ₗ ℤ := toLex (a.rate, -a.size)

theorem rate_eq_iff {a b : FeeFrac} (a_pos : 0 < a.size) (b_pos : 0 < b.size) :
    mul a.fee b.size = mul b.fee a.size ↔ b.rate = a.rate := by
  have a_wide : a.step.width ≠ 0 := (Int.cast_pos.mpr a_pos).ne'
  have b_wide : b.step.width ≠ 0 := (Int.cast_pos.mpr b_pos).ne'
  rw [rate, rate, Step.slope, Step.slope, div_eq_div_iff b_wide a_wide, eq_comm, step_width,
    step_width, step_rise, step_rise]
  exact_mod_cast Iff.rfl

theorem greater_iff {a b : FeeFrac} (a_pos : 0 < a.size) (b_pos : 0 < b.size) :
    a.greater b ↔ b.key < a.key := by
  have higher := higher_iff a_pos b_pos
  rw [FeeFrac.higher, decide_eq_true_iff] at higher
  rw [greater, Bool.or_eq_true, Bool.and_eq_true, decide_eq_true_iff, decide_eq_true_iff,
    decide_eq_true_iff, higher, rate_eq_iff a_pos b_pos, key, key, Prod.Lex.toLex_lt_toLex]
  simp only [gt_iff_lt, neg_lt_neg_iff]

end FeeFrac

def sortDecreasing (chunks : List FeeFrac) : List FeeFrac :=
  chunks.mergeSort fun a b => !b.greater a

theorem perm_sortDecreasing (chunks : List FeeFrac) : (sortDecreasing chunks).Perm chunks :=
  mergeSort_perm chunks _

/-- Where all sizes are positive, the feerates do not increase. -/
theorem pairwise_sortDecreasing {chunks : List FeeFrac} (pos : ∀ chunk ∈ chunks, 0 < chunk.size) :
    (sortDecreasing chunks).Pairwise fun a b => b.higher a = false := by
  -- `operator>` is an order among the feerates with a positive size only.
  let attached : List {chunk : FeeFrac // 0 < chunk.size} := chunks.attachWith _ pos
  have le_iff : ∀ a b : {chunk : FeeFrac // 0 < chunk.size},
      (!b.1.greater a.1) = true ↔ b.1.key ≤ a.1.key := by
    intro a b
    rw [Bool.not_eq_true', ← Bool.not_eq_true, greater_iff b.2 a.2, not_lt]
  have sorted : sortDecreasing chunks =
      (attached.mergeSort fun a b => !b.1.greater a.1).map Subtype.val := by
    rw [map_mergeSort (f := Subtype.val) (s := fun a b : FeeFrac => !b.greater a)
      fun _ _ _ _ => rfl, attachWith_map_subtype_val, sortDecreasing]
  rw [sorted, pairwise_map]
  refine (pairwise_mergeSort ?_ ?_ attached).imp ?_
  · intro a b c
    rw [le_iff, le_iff, le_iff]
    intro first second
    exact second.trans first
  · intro a b
    rw [Bool.or_eq_true, le_iff, le_iff]
    exact le_total _ _
  · intro a b ordered
    rw [le_iff] at ordered
    rw [← Bool.not_eq_true, higher_iff b.2 a.2, not_lt]
    exact Prod.Lex.monotone_fst_ofLex ordered

/-! ## Merged diagrams -/

/-- Chunks that draw a diagram: nonnegative fees, positive sizes, and feerates that do not
increase. -/
structure IsDiagram (chunks : List FeeFrac) : Prop where
  fees_nonneg : ∀ chunk ∈ chunks, 0 ≤ chunk.fee
  sizes_pos : ∀ chunk ∈ chunks, 0 < chunk.size
  sorted : chunks.Pairwise fun a b => b.higher a = false

/-- A list with the chunks of two others, by feerate. -/
structure MergedFrom (merged left right : List FeeFrac) : Prop where
  perm : merged.Perm (left ++ right)
  sorted : merged.Pairwise fun a b => b.higher a = false

/-- The sums that `CompareChunks` takes of a list are machine integers. -/
def InRange (chunks : List FeeFrac) : Prop := chunks.sum.size < 2 ^ 31 ∧ chunks.sum.fee < 2 ^ 63

section

variable {chunks left right merged : List FeeFrac}

theorem IsDiagram.growing (diagram : IsDiagram chunks) : Growing (chunks.map step) where
  advancing := by
    intro step mem
    obtain ⟨chunk, isChunk, rfl⟩ := mem_map.mp mem
    exact Int.cast_pos.mpr (diagram.sizes_pos chunk isChunk)
  concave := by
    rw [Concave, pairwise_map]
    refine (List.Pairwise.and_mem.mp diagram.sorted).imp ?_
    rintro a b ⟨isA, isB, notHigher⟩
    rw [← Bool.not_eq_true, higher_iff (diagram.sizes_pos b isB) (diagram.sizes_pos a isA),
      not_lt] at notHigher
    exact notHigher
  rises := by
    intro step mem
    obtain ⟨chunk, isChunk, rfl⟩ := mem_map.mp mem
    exact Int.cast_nonneg (diagram.fees_nonneg chunk isChunk)

theorem MergedFrom.isDiagram (merges : MergedFrom merged left right) (diagram : IsDiagram left)
    (diagram' : IsDiagram right) : IsDiagram merged where
  fees_nonneg chunk mem := (mem_append.mp (merges.perm.mem_iff.mp mem)).elim
    (diagram.fees_nonneg chunk) (diagram'.fees_nonneg chunk)
  sizes_pos chunk mem := (mem_append.mp (merges.perm.mem_iff.mp mem)).elim
    (diagram.sizes_pos chunk) (diagram'.sizes_pos chunk)
  sorted := merges.sorted

theorem IsDiagram.withinLimits (diagram : IsDiagram chunks) (range : InRange chunks) :
    WithinLimits 0 chunks :=
  .of_nonneg diagram.sizes_pos range.1 diagram.fees_nonneg range.2

theorem InRange.of_merged (range : InRange merged) (diagram : IsDiagram right)
    (merges : MergedFrom merged left right) : InRange left := by
  have sums := merges.perm.sum_eq
  rw [sum_append] at sums
  have fee_nonneg : 0 ≤ right.sum.fee := by
    rw [sum_fee]
    exact sum_nonneg (forall_mem_map.mpr diagram.fees_nonneg)
  have size_nonneg : 0 ≤ right.sum.size := by
    rw [sum_size]
    exact sum_nonneg (forall_mem_map.mpr fun chunk mem => (diagram.sizes_pos chunk mem).le)
  obtain ⟨size, fee⟩ := range
  rw [sums, add_size] at size
  rw [sums, add_fee] at fee
  exact ⟨by omega, by omega⟩

/-- Chunks that are merged into both sides do not change the comparison. -/
theorem compareChunks_merge_iff (arith : MachineArithmetic) {A B C pre after : List FeeFrac}
    (diagramA : IsDiagram A) (diagramB : IsDiagram B) (diagramC : IsDiagram C)
    (mergesA : MergedFrom pre A C) (mergesB : MergedFrom after B C)
    (rangeA : InRange pre) (rangeB : InRange after) :
    compareChunks arith after pre = .greater ↔ compareChunks arith B A = .greater := by
  have diagramBefore := mergesA.isDiagram diagramA diagramC
  have diagramAfter := mergesB.isDiagram diagramB diagramC
  have limitsA := diagramA.withinLimits (rangeA.of_merged diagramC mergesA)
  have limitsB := diagramB.withinLimits (rangeB.of_merged diagramC mergesB)
  have mapped : ∀ {merged left : List FeeFrac}, MergedFrom merged left C →
      (merged.map step).Perm (left.map step ++ C.map step) := by
    intro merged left merges
    rw [← map_append]
    exact merges.perm.map _
  have above := height_merge_le_iff diagramB.growing diagramA.growing diagramC.growing
    diagramAfter.growing diagramBefore.growing (mapped mergesB) (mapped mergesA)
  have below := height_merge_le_iff diagramA.growing diagramB.growing diagramC.growing
    diagramBefore.growing diagramAfter.growing (mapped mergesA) (mapped mergesB)
  rw [(compareChunks_reflects arith (diagramAfter.withinLimits rangeB)
      (diagramBefore.withinLimits rangeA)).cases.2.1,
    (compareChunks_reflects arith limitsB limitsA).cases.2.1,
    not_above_iff, not_above_iff]
  refine and_congr ?_ above
  rw [← not_iff_not, not_above_iff, not_above_iff]
  exact below

end

namespace TxGraph

open ClusterLinearize

attribute [local instance] levels_neZero

/-! ## A graph with staged changes -/

/-- The clusters of the two levels, and the transactions that the staging level removes. -/
structure StagedGraph (ρ : Type*) where
  entries : GraphIndex → Entry ρ
  mainClusters : List Cluster
  stagingClusters : List Cluster
  removed : List GraphIndex

def Cluster.appendChunkFeerates : Cluster → List FeeFrac
  | .generic impl => chunkLinearization impl.depgraph impl.linearization
  | .singleton impl => impl.graphIndex.toList.map fun _ => impl.feerate

namespace StagedGraph

variable {ρ : Type*} (graph : StagedGraph ρ)

/-- Whether a cluster of the main level has a transaction that staging removes or has too. -/
def conflicts (cluster : Cluster) : Bool :=
  (graph.removed ++ graph.stagingClusters.flatMap Cluster.transactions).any fun i =>
    ((graph.entries i).locator 0).cluster == some cluster.sequence

def getConflicts : List Cluster := graph.mainClusters.filter graph.conflicts

def getMainStagingDiagrams : List FeeFrac × List FeeFrac :=
  (sortDecreasing (graph.getConflicts.flatMap Cluster.appendChunkFeerates),
    sortDecreasing (graph.stagingClusters.flatMap Cluster.appendChunkFeerates))

/-- The clusters of the main level after `CommitStaging`: the conflicting ones are deleted,
and those of the staging level move there. -/
def commitStaging : List Cluster :=
  graph.mainClusters.filter (fun cluster => !graph.conflicts cluster) ++ graph.stagingClusters

end StagedGraph

inductive DiagramCheckError where
  | uncalculable
  | failure
  deriving DecidableEq, Repr

/-- `ImprovesFeerateDiagram`, where `withinPolicy` is what `CheckMemPoolPolicyLimits` says. -/
def improvesFeerateDiagram {ρ : Type*} (arith : MachineArithmetic) (withinPolicy : Bool)
    (graph : StagedGraph ρ) : Option (DiagramCheckError × String) :=
  if !withinPolicy then some (.uncalculable, "cluster size limit exceeded")
  else
    let chunkResults := graph.getMainStagingDiagrams
    if compareChunks arith chunkResults.2 chunkResults.1 ≠ .greater then
      some (.failure, "insufficient feerate: does not improve feerate diagram")
    else none

def diagramOf (clus : List Cluster) : List FeeFrac :=
  sortDecreasing (clus.flatMap Cluster.appendChunkFeerates)

/-- The chunks of clusters have nonnegative fees and positive sizes. -/
def GoodFeerates (clus : List Cluster) : Prop :=
  ∀ cluster ∈ clus, ∀ chunk ∈ cluster.appendChunkFeerates, 0 ≤ chunk.fee ∧ 0 < chunk.size

instance (clus : List Cluster) : Decidable (GoodFeerates clus) :=
  inferInstanceAs (Decidable (∀ cluster ∈ clus, ∀ chunk ∈ cluster.appendChunkFeerates,
    0 ≤ chunk.fee ∧ 0 < chunk.size))

theorem GoodFeerates.mono {clus fewer : List Cluster} (good : GoodFeerates clus)
    (subset : fewer ⊆ clus) : GoodFeerates fewer :=
  fun cluster mem => good cluster (subset mem)

theorem GoodFeerates.isDiagram {clus : List Cluster} (good : GoodFeerates clus) :
    IsDiagram (diagramOf clus) := by
  have all : ∀ chunk ∈ clus.flatMap Cluster.appendChunkFeerates, 0 ≤ chunk.fee ∧ 0 < chunk.size := by
    intro chunk mem
    obtain ⟨cluster, isCluster, isChunk⟩ := mem_flatMap.mp mem
    exact good cluster isCluster chunk isChunk
  have sorted := perm_sortDecreasing (clus.flatMap Cluster.appendChunkFeerates)
  exact ⟨fun chunk mem => (all chunk (sorted.mem_iff.mp mem)).1,
    fun chunk mem => (all chunk (sorted.mem_iff.mp mem)).2,
    pairwise_sortDecreasing fun chunk mem => (all chunk mem).2⟩

theorem mergedFrom_diagramOf {clus left right : List Cluster} (good : GoodFeerates clus)
    (split : clus.Perm (left ++ right)) :
    MergedFrom (diagramOf clus) (diagramOf left) (diagramOf right) := by
  refine ⟨?_, good.isDiagram.sorted⟩
  refine (perm_sortDecreasing _).trans ((split.flatMap_right _).trans ?_)
  rw [flatMap_append]
  exact (perm_sortDecreasing _).symm.append (perm_sortDecreasing _).symm

/-- Comparing the changed clusters is enough: if the diagram of some chunks is better
than that of others, it stays better when the same chunks are merged into both. So a
replacement that `ImprovesFeerateDiagram` accepts improves the diagram of the whole
mempool. -/
theorem replacement_improves (arith : MachineArithmetic) :
    (∀ A B C pre after : List FeeFrac, IsDiagram A → IsDiagram B → IsDiagram C →
      MergedFrom pre A C → MergedFrom after B C → InRange pre → InRange after →
      compareChunks arith B A = .greater → compareChunks arith after pre = .greater) ∧
    ∀ (ρ : Type) (graph : StagedGraph ρ) (withinPolicy : Bool),
      GoodFeerates (graph.mainClusters ++ graph.stagingClusters) →
      InRange (diagramOf graph.mainClusters) → InRange (diagramOf graph.commitStaging) →
      improvesFeerateDiagram arith withinPolicy graph = none →
      compareChunks arith (diagramOf graph.commitStaging) (diagramOf graph.mainClusters) =
        .greater := by
  constructor
  · intro A B C pre after diagramA diagramB diagramC mergesA mergesB rangeA rangeB greater
    exact (compareChunks_merge_iff arith diagramA diagramB diagramC mergesA mergesB rangeA
      rangeB).mpr greater
  · intro ρ graph withinPolicy good rangeMain rangeCommitted acc
    have main := good.mono (subset_append_left _ _)
    have staging := good.mono (subset_append_right _ _)
    have changed := main.mono (filter_sublist (p := graph.conflicts)).subset
    have kept := main.mono (filter_sublist (p := fun cluster => !graph.conflicts cluster)).subset
    have committed : GoodFeerates graph.commitStaging := by
      intro cluster mem
      rcases mem_append.mp mem with old | new
      · exact kept cluster old
      · exact staging cluster new
    refine (compareChunks_merge_iff arith changed.isDiagram staging.isDiagram kept.isDiagram
      (mergedFrom_diagramOf main (filter_append_perm graph.conflicts _).symm)
      (mergedFrom_diagramOf committed perm_append_comm) rangeMain rangeCommitted).mpr ?_
    rw [improvesFeerateDiagram] at acc
    split at acc
    case isTrue => cases acc
    case isFalse =>
      dsimp only at acc
      split at acc
      case isTrue => cases acc
      case isFalse better => exact not_not.mp better

def oneTx (sequence idx : ℕ) (feerate : FeeFrac) : Cluster :=
  .singleton ⟨sequence, true, some idx, feerate⟩

def replacingOne : StagedGraph Unit where
  entries i :=
    { ref := ()
      locator := fun level => if level.val = 0 ∧ i ≠ 1 then .present i 0 else .missing
      mainChunkFeerate := 0
      mainEqualFeerateChunkPrefixSize := 0
      mainLinIndex := 0
      mainMaxChunkFallback := 0 }
  mainClusters := [oneTx 0 0 ⟨1, 1⟩, oneTx 2 2 ⟨3, 2⟩]
  stagingClusters := [oneTx 1 1 ⟨2, 1⟩]
  removed := [0]

theorem replacement_improves_one :
    improvesFeerateDiagram wrappingArithmetic true replacingOne = none ∧
    compareChunks wrappingArithmetic (diagramOf replacingOne.commitStaging)
      (diagramOf replacingOne.mainClusters) = .greater := by
  have acc : improvesFeerateDiagram wrappingArithmetic true replacingOne = none := by
    decide +kernel
  have good : GoodFeerates (replacingOne.mainClusters ++ replacingOne.stagingClusters) := by
    decide
  refine ⟨acc, (replacement_improves wrappingArithmetic).2 Unit replacingOne true good
    ?_ ?_ acc⟩ <;>
  · rw [InRange, diagramOf, (perm_sortDecreasing _).sum_eq]
    exact ⟨by decide, by decide⟩

/-- If the sizes of the merged chunks do not fit 31 bits, the comparison can get lost. -/
theorem compareChunks_merge_overflow :
    compareChunks wrappingArithmetic [⟨1, 1⟩] [⟨0, 2147483645⟩] = .greater ∧
    MergedFrom [⟨1, 1⟩, ⟨4, 2147483645⟩] [⟨1, 1⟩] [⟨4, 2147483645⟩] ∧
    MergedFrom [⟨4, 2147483645⟩, ⟨0, 2147483645⟩] [⟨0, 2147483645⟩] [⟨4, 2147483645⟩] ∧
    compareChunks wrappingArithmetic [⟨1, 1⟩, ⟨4, 2147483645⟩] [⟨4, 2147483645⟩, ⟨0, 2147483645⟩] =
      .unordered := by
  refine ⟨?_, ⟨?_, ?_⟩, ⟨?_, ?_⟩, ?_⟩ <;> decide +kernel

end TxGraph

end BitcoinCore
