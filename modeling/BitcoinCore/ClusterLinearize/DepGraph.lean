import BitcoinCore.Lib.ConcaveChunks
import BitcoinCore.Util.FeeFrac

/-!
# Dependency graphs of clusters

A `DepGraph` holds for every transaction its fee and size, its ancestors and its
descendants, both with the transaction itself. A linearization is an order of the
transactions; it is topological when every transaction comes after all its ancestors
(`Topological`), and then every front of it is closed under ancestors.
-/

namespace BitcoinCore.ClusterLinearize

open StepDiagram Finset

/-- The elements of a set that are left when each of them, in order, removes the others that
it reaches. -/
def reduceBy (reach : ℕ → Finset ℕ) (elems : Finset ℕ) : Finset ℕ :=
  elems.sort.foldl (fun left i => if i ∈ left then insert i (left \ reach i) else left) elems

/-- A transaction graph, with what its class keeps true: ancestors are reflexive and
transitive, and descendants are the converse of ancestors. -/
structure DepGraph where
  positions : Finset ℕ
  feeRate : ℕ → FeeFrac
  ancestors : ℕ → Finset ℕ
  descendants : ℕ → Finset ℕ
  self_mem_ancestors : ∀ i ∈ positions, i ∈ ancestors i
  ancestors_subset : ∀ i ∈ positions, ancestors i ⊆ positions
  ancestors_trans : ∀ i ∈ positions, ∀ j ∈ ancestors i, ancestors j ⊆ ancestors i
  mem_descendants : ∀ i ∈ positions, ∀ j, j ∈ descendants i ↔ j ∈ positions ∧ i ∈ ancestors j

namespace DepGraph

def isAcyclic (graph : DepGraph) : Bool :=
  decide (∀ i ∈ graph.positions, graph.ancestors i ∩ graph.descendants i = {i})

/-- The minimal set of parents whose ancestors are all the ancestors of a transaction. -/
def getReducedParents (graph : DepGraph) (i : ℕ) : Finset ℕ :=
  reduceBy graph.ancestors ((graph.ancestors i).erase i)

/-- The minimal set of children whose descendants are all the descendants of a transaction. -/
def getReducedChildren (graph : DepGraph) (i : ℕ) : Finset ℕ :=
  reduceBy graph.descendants ((graph.descendants i).erase i)

/-- Whether two transactions of a set are connected inside it, where one that is an ancestor
of the other is connected to it. -/
def Connected (graph : DepGraph) (elems : Finset ℕ) : Prop :=
  ∀ a ∈ elems, ∀ b ∈ elems, Relation.ReflTransGen
    (fun x y => x ∈ elems ∧ y ∈ elems ∧ (x ∈ graph.ancestors y ∨ y ∈ graph.ancestors x)) a b

def Closed (graph : DepGraph) (elems : Finset ℕ) : Prop := ∀ i ∈ elems, graph.ancestors i ⊆ elems

/-- A linearization in which every transaction comes after all its ancestors. -/
structure Topological (graph : DepGraph) (lin : List ℕ) : Prop where
  nodup : lin.Nodup
  mem_iff : ∀ i, i ∈ lin ↔ i ∈ graph.positions
  ordered : lin.Pairwise fun init later => later ∉ graph.ancestors init

end DepGraph

/-- An acyclic graph of transactions of positive size. -/
structure AcyclicGraph extends DepGraph where
  acyclic : toDepGraph.isAcyclic
  sizes_pos : ∀ i ∈ positions, 0 < (feeRate i).size

instance : Coe AcyclicGraph DepGraph := ⟨AcyclicGraph.toDepGraph⟩

namespace DepGraph

variable {graph : DepGraph} {lin other front back : List ℕ}

theorem Topological.perm (topo : graph.Topological lin) (topo' : graph.Topological other) :
    lin.Perm other :=
  (List.perm_ext_iff_of_nodup topo.nodup topo'.nodup).mpr fun i =>
    (topo.mem_iff i).trans (topo'.mem_iff i).symm

theorem Topological.closed_front (topo : graph.Topological (front ++ back)) :
    graph.Closed front.toFinset := by
  intro i mem j anc
  rw [List.mem_toFinset] at mem ⊢
  have i_position := (topo.mem_iff i).mp (List.mem_append_left back mem)
  have j_position := graph.ancestors_subset i i_position anc
  rcases List.mem_append.mp ((topo.mem_iff j).mpr j_position) with init | later
  · exact init
  · exact absurd anc ((List.pairwise_append.mp topo.ordered).2.2 i mem j later)

end DepGraph

/-! ## Reduced parents and children -/

section

variable {reach : ℕ → Finset ℕ} {elems : Finset ℕ}

theorem foldl_reduce_subset (order : List ℕ) (left : Finset ℕ) :
    order.foldl (fun left i => if i ∈ left then insert i (left \ reach i) else left) left ⊆ left := by
  induction order generalizing left with
  | nil => exact Subset.refl left
  | cons i order ih =>
    refine (ih _).trans ?_
    dsimp only
    split
    case isTrue mem =>
      exact insert_subset mem sdiff_subset
    case isFalse => exact Subset.refl left

theorem foldl_reduce_covers
    (trans : ∀ i ∈ elems, ∀ j ∈ reach i, reach j ⊆ reach i) (order : List ℕ) {left : Finset ℕ}
    (subset : left ⊆ elems) {i : ℕ} (covered : ∃ j ∈ left, i ∈ reach j) :
    ∃ j ∈ order.foldl (fun left i => if i ∈ left then insert i (left \ reach i) else left) left,
      i ∈ reach j := by
  induction order generalizing left with
  | nil => exact covered
  | cons k order ih =>
    rw [List.foldl_cons]
    split
    case isTrue mem =>
      refine ih (insert_subset (subset mem) (sdiff_subset.trans subset)) ?_
      obtain ⟨j, j_mem, reached⟩ := covered
      by_cases removed : j ∈ reach k
      · exact ⟨k, mem_insert_self k _, trans k (subset mem) j removed reached⟩
      · exact ⟨j, mem_insert_of_mem (mem_sdiff.mpr ⟨j_mem, removed⟩), reached⟩
    case isFalse => exact ih subset covered

theorem reduceBy_subset : reduceBy reach elems ⊆ elems := foldl_reduce_subset _ _

theorem exists_mem_reduceBy (refl : ∀ i ∈ elems, i ∈ reach i)
    (trans : ∀ i ∈ elems, ∀ j ∈ reach i, reach j ⊆ reach i) {i : ℕ} (mem : i ∈ elems) :
    ∃ j ∈ reduceBy reach elems, i ∈ reach j :=
  foldl_reduce_covers trans _ (Subset.refl elems) ⟨i, mem, refl i mem⟩

end

namespace AcyclicGraph

variable (graph : AcyclicGraph) {i j : ℕ} (i_mem : i ∈ graph.positions)
include i_mem

theorem ancestors_antisymm (j_anc : j ∈ graph.ancestors i) (i_anc : i ∈ graph.ancestors j) :
    i = j := by
  have alone := of_decide_eq_true graph.acyclic i i_mem
  have j_position := graph.ancestors_subset i i_mem j_anc
  have both : j ∈ graph.ancestors i ∩ graph.descendants i :=
    mem_inter.mpr ⟨j_anc, (graph.mem_descendants i i_mem j).mpr ⟨j_position, i_anc⟩⟩
  rw [alone, mem_singleton] at both
  exact both.symm

theorem mem_ancestors_iff (j_mem : j ∈ graph.positions) :
    i ∈ graph.ancestors j ↔ j ∈ graph.descendants i := by
  rw [graph.mem_descendants i i_mem j, and_iff_right j_mem]

theorem descendants_subset : graph.descendants i ⊆ graph.positions :=
  fun j mem => ((graph.mem_descendants i i_mem j).mp mem).1

theorem self_mem_descendants : i ∈ graph.descendants i :=
  (graph.mem_descendants i i_mem i).mpr ⟨i_mem, graph.self_mem_ancestors i i_mem⟩

theorem descendants_trans (j_mem : j ∈ graph.descendants i) :
    graph.descendants j ⊆ graph.descendants i := by
  intro k mem
  obtain ⟨j_position, i_anc⟩ := (graph.mem_descendants i i_mem j).mp j_mem
  obtain ⟨k_position, j_anc⟩ := (graph.mem_descendants j j_position k).mp mem
  exact (graph.mem_descendants i i_mem k).mpr
    ⟨k_position, graph.ancestors_trans k k_position j j_anc i_anc⟩

/-- Every other descendant is a descendant of a reduced child. -/
theorem exists_reducedChild (descendant : j ∈ graph.descendants i) (other : j ≠ i) :
    ∃ child ∈ graph.getReducedChildren i, j ∈ graph.descendants child := by
  have pos : ∀ k ∈ (graph.descendants i).erase i, k ∈ graph.positions :=
    fun k mem => graph.descendants_subset i_mem (mem_of_mem_erase mem)
  exact exists_mem_reduceBy (fun k mem => graph.self_mem_descendants (pos k mem))
    (fun k mem _ j_mem => graph.descendants_trans (pos k mem) j_mem)
    (mem_erase.mpr ⟨other, descendant⟩)

omit i_mem

/-- The graph in which parents and children, and high and low feerates, are swapped. -/
def reversed : AcyclicGraph where
  positions := graph.positions
  feeRate i := ⟨-(graph.feeRate i).fee, (graph.feeRate i).size⟩
  ancestors := graph.descendants
  descendants := graph.ancestors
  self_mem_ancestors _ i_mem := graph.self_mem_descendants i_mem
  ancestors_subset _ i_mem := graph.descendants_subset i_mem
  ancestors_trans _ i_mem _ j_mem := graph.descendants_trans i_mem j_mem
  mem_descendants i i_mem j := by
    constructor
    · intro anc
      have j_mem := graph.ancestors_subset i i_mem anc
      exact ⟨j_mem, (graph.mem_ancestors_iff j_mem i_mem).mp anc⟩
    · intro ⟨j_mem, desc⟩
      exact (graph.mem_ancestors_iff j_mem i_mem).mpr desc
  acyclic := decide_eq_true fun i i_mem =>
    (inter_comm _ _).trans (of_decide_eq_true graph.acyclic i i_mem)
  sizes_pos := graph.sizes_pos

theorem topological_reversed_iff {lin : List ℕ} :
    graph.reversed.Topological lin.reverse ↔ graph.Topological lin := by
  have ordered (mem_iff : ∀ i, i ∈ lin ↔ i ∈ graph.positions) :
      lin.reverse.Pairwise (fun init later => later ∉ graph.descendants init) ↔
        lin.Pairwise fun init later => later ∉ graph.ancestors init := by
    rw [List.pairwise_reverse]
    exact List.Pairwise.iff_of_mem fun {a b} a_mem b_mem =>
      not_congr (graph.mem_ancestors_iff ((mem_iff b).mp b_mem) ((mem_iff a).mp a_mem)).symm
  constructor
  · intro topo
    have mem_iff := fun i => List.mem_reverse.symm.trans (topo.mem_iff i)
    exact ⟨List.nodup_reverse.mp topo.nodup, mem_iff, (ordered mem_iff).mp topo.ordered⟩
  · intro topo
    exact ⟨List.nodup_reverse.mpr topo.nodup, fun i => List.mem_reverse.trans (topo.mem_iff i),
      (ordered topo.mem_iff).mpr topo.ordered⟩

end AcyclicGraph

end BitcoinCore.ClusterLinearize
