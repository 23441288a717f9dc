import BitcoinCore.ClusterLinearize.Optimality
import BitcoinCore.ClusterLinearize.PostLinearize

/-!
# What post-linearization guarantees

The two passes of `PostLinearize` leave a topological linearization that is nowhere below
the one they started from, and the chunks of which are connected. On a graph in which every
transaction has at most one parent, or every one at most one child, no topological
linearization is above the result anywhere. A leaf that was moved to the end, with its fee
raised or not, does not make the result worse than before it was moved
(`postLinearize_guarantees`).

A pass from back to front is a pass from front to back in which fees are negated and
dependencies are reversed, which turns what one pass reaches into what the other reaches
(`reach_passResult`).
-/

namespace BitcoinCore.ClusterLinearize

open StepDiagram List

variable {graph : AcyclicGraph}

/-! ## The two views -/

section

variable {lin other : List ℕ} {slope : ℝ}

theorem wide_forward (positions : ∀ i ∈ lin, i ∈ graph.positions) :
    Wide (passView graph false).step lin :=
  wide_of_positive fun i mem => graph.sizes_pos i (positions i mem)

theorem weigh_reversed (graph : AcyclicGraph) :
    weigh graph.reversed = Step.turned ∘ weigh graph :=
  funext fun _ => Step.ext rfl (Int.cast_neg _)

theorem reach_reverse (graph : AcyclicGraph) (lin : List ℕ) (slope : ℝ) :
    reach slope (lin.reverse.map (weigh graph)) =
      (total (weigh graph) lin).excess slope +
        reach (-slope) (lin.map (weigh graph.reversed)) := by
  have same : total (weigh graph) lin.reverse = total (weigh graph) lin :=
    ((reverse_perm lin).map _).sum_eq
  rw [reach_eq_reverse, ← excess_total, same, ← map_reverse, reverse_reverse, map_map,
    weigh_reversed]

/-- An order that reaches further in the reversed graph does so from back to front. -/
theorem reach_reverse_le (perm : lin.Perm other)
    (further : reach (-slope) (lin.map (weigh graph.reversed)) ≤
      reach (-slope) (other.map (weigh graph.reversed))) :
    reach slope (lin.reverse.map (weigh graph)) ≤
      reach slope (other.reverse.map (weigh graph)) := by
  have same : total (weigh graph) lin = total (weigh graph) other := (perm.map _).sum_eq
  rw [reach_reverse, reach_reverse, same]
  exact add_le_add_right further _

/-- A pass from back to front is one from front to back in the reversed graph. -/
theorem passResult_backward (graph : AcyclicGraph) (lin : List ℕ) :
    passResult graph true lin = (passResult graph.reversed false lin.reverse).reverse := rfl

/-- A pass in either direction reaches at least as far as its input. -/
theorem reach_passResult (positions : ∀ i ∈ lin, i ∈ graph.positions) (rev : Bool)
    (slope : ℝ) : reach slope (lin.map (weigh graph)) ≤
      reach slope ((passResult graph rev lin).map (weigh graph)) := by
  cases rev with
  | false => exact reach_pass (wide_forward positions) slope
  | true =>
    have wide : Wide (passView graph.reversed false).step lin.reverse :=
      wide_forward fun i mem => positions i (mem_reverse.mp mem)
    have further := reach_reverse_le (perm_pass (passView graph.reversed false) _).symm
      (reach_pass wide (-slope))
    rwa [reverse_reverse] at further

theorem topological_pass (topo : graph.Topological lin) :
    graph.Topological (passResult graph false lin) := by
  have perm := perm_pass (passView graph false) lin
  exact ⟨perm.nodup_iff.mpr topo.nodup, fun i => perm.mem_iff.trans (topo.mem_iff i),
    ordered_pass (wide_forward fun i => (topo.mem_iff i).mp) topo.ordered⟩

theorem topological_passResult (topo : graph.Topological lin) (rev : Bool) :
    graph.Topological (passResult graph rev lin) := by
  cases rev with
  | false => exact topological_pass topo
  | true =>
    refine graph.topological_reversed_iff.mp ?_
    rw [passResult_backward, reverse_reverse]
    exact topological_pass (graph.topological_reversed_iff.mpr topo)

end

/-! ## Connected chunks -/

section

variable {graph : DepGraph}

theorem connected_union {first second : Finset ℕ} (conn : graph.Connected first)
    (connected' : graph.Connected second)
    (linked : ∃ i ∈ second, ∃ j ∈ first, j ∈ graph.ancestors i) :
    graph.Connected (first ∪ second) := by
  obtain ⟨i, i_mem, j, j_mem, dep⟩ := linked
  let related := fun x y => x ∈ first ∪ second ∧ y ∈ first ∪ second ∧
    (x ∈ graph.ancestors y ∨ y ∈ graph.ancestors x)
  have in_first : ∀ a ∈ first, ∀ b ∈ first, Relation.ReflTransGen related a b := by
    intro a a_mem b b_mem
    refine Relation.ReflTransGen.mono (fun x y step => ?_) _ _ (conn a a_mem b b_mem)
    exact ⟨Finset.mem_union_left _ step.1, Finset.mem_union_left _ step.2.1, step.2.2⟩
  have in_second : ∀ a ∈ second, ∀ b ∈ second, Relation.ReflTransGen related a b := by
    intro a a_mem b b_mem
    refine Relation.ReflTransGen.mono (fun x y step => ?_) _ _ (connected' a a_mem b b_mem)
    exact ⟨Finset.mem_union_right _ step.1, Finset.mem_union_right _ step.2.1, step.2.2⟩
  have across : related j i :=
    ⟨Finset.mem_union_left _ j_mem, Finset.mem_union_right _ i_mem, Or.inl dep⟩
  have back : related i j :=
    ⟨Finset.mem_union_right _ i_mem, Finset.mem_union_left _ j_mem, Or.inr dep⟩
  intro a a_mem b b_mem
  rcases Finset.mem_union.mp a_mem with a_first | a_second <;>
    rcases Finset.mem_union.mp b_mem with b_first | b_second
  · exact in_first a a_first b b_first
  · exact ((in_first a a_first j j_mem).tail across).trans (in_second i i_mem b b_second)
  · exact ((in_second a a_second i i_mem).tail back).trans (in_first j j_mem b b_first)
  · exact in_second a a_second b b_second

/-- The chunks after a forward pass are connected. -/
theorem connected_chunks {graph : AcyclicGraph} {lin : List ℕ}
    (positions : ∀ i ∈ lin, i ∈ graph.positions) :
    ∀ chunk ∈ chunkLinearizationInfo graph (passResult graph false lin),
      graph.Connected chunk.transactions := by
  have wide := wide_forward positions
  have flat : passResult graph false lin =
      ((passView graph false).pass lin).flatten := rfl
  have pos : ∀ i ∈ passResult graph false lin,
      0 < (graph.feeRate i).size := fun i mem =>
    graph.sizes_pos i (positions i ((perm_pass _ _).mem_iff.mp mem))
  have chunked : chunks (weigh graph) (passResult graph false lin) =
      (passView graph false).pass lin := by
    obtain ⟨chunking, whole⟩ := isChunking_chunks (wide_of_positive pos)
    refine chunking.unique (isChunking_pass wide) ?_ (whole.trans flat)
    rw [whole]
    exact wide_of_positive pos
  have conn := forall_mem_pass (fun group => graph.Connected group.toFinset) wide ?_ ?_
  · rw [chunkLinearizationInfo_eq pos, chunked]
    intro chunk mem
    obtain ⟨group, group_mem, rfl⟩ := mem_map.mp mem
    exact conn group group_mem
  · intro i _ a a_mem b b_mem
    rw [toFinset_cons, toFinset_nil, insert_empty_eq, Finset.mem_singleton] at a_mem b_mem
    rw [a_mem, b_mem]
  · rintro group pre group_connected before_connected - ⟨i, i_mem, j, j_mem, dep⟩
    rw [toFinset_append]
    exact connected_union before_connected group_connected
      ⟨i, mem_toFinset.mpr i_mem, j, mem_toFinset.mpr j_mem, dep⟩

end

/-! ## Trees -/

section

variable {lin other : List ℕ}

theorem descendants_chain
    (one_child : ∀ i ∈ graph.positions, (graph.getReducedChildren i).card ≤ 1) {i j k : ℕ}
    (k_mem : k ∈ graph.positions) (i_desc : i ∈ graph.descendants k) (j_desc : j ∈ graph.descendants k) :
    i ∈ graph.ancestors j ∨ j ∈ graph.ancestors i := by
  have i_mem := graph.descendants_subset k_mem i_desc
  have j_mem := graph.descendants_subset k_mem j_desc
  by_cases i_self : i = k
  · subst i_self
    exact Or.inl ((graph.mem_ancestors_iff i_mem j_mem).mpr j_desc)
  by_cases j_self : j = k
  · subst j_self
    exact Or.inr ((graph.mem_ancestors_iff j_mem i_mem).mpr i_desc)
  -- both go through the only child of `k`
  obtain ⟨child, child_mem, i_child⟩ := graph.exists_reducedChild k_mem i_desc i_self
  obtain ⟨child', child_mem', j_child⟩ := graph.exists_reducedChild k_mem j_desc j_self
  obtain rfl := Finset.card_le_one.mp (one_child k k_mem) child child_mem child' child_mem'
  have child_desc := Finset.mem_of_mem_erase (reduceBy_subset child_mem)
  have child_ne := Finset.ne_of_mem_erase (reduceBy_subset child_mem)
  have child_position := graph.descendants_subset k_mem child_desc
  have smaller : (graph.descendants child).card < (graph.descendants k).card := by
    refine Finset.card_lt_card ⟨graph.descendants_trans k_mem child_desc, fun subset => child_ne ?_⟩
    have k_desc := subset (graph.self_mem_descendants k_mem)
    exact graph.ancestors_antisymm child_position
      ((graph.mem_ancestors_iff k_mem child_position).mpr child_desc)
      ((graph.mem_ancestors_iff child_position k_mem).mpr k_desc)
  exact descendants_chain one_child child_position i_child j_child
termination_by (graph.descendants k).card

/-- With at most one child each, a forward pass is optimal. -/
theorem forward_optimal (topological : graph.Topological lin)
    (one_child : ∀ i ∈ graph.positions, (graph.getReducedChildren i).card ≤ 1)
    (other_topological : graph.Topological other) (slope : ℝ) :
    reach slope (other.map (weigh graph)) ≤
      reach slope ((passResult graph false lin).map (weigh graph)) := by
  have positions := fun i mem => (topological.mem_iff i).mp mem
  have wide := wide_forward positions
  have chain : ChainDeps (passView graph false) graph.positions := by
    refine ⟨graph.self_mem_ancestors, graph.ancestors_trans, fun i i_mem j j_mem k k_i k_j => ?_⟩
    have k_mem := graph.ancestors_subset i i_mem k_i
    exact descendants_chain one_child k_mem ((graph.mem_ancestors_iff k_mem i_mem).mp k_i)
      ((graph.mem_ancestors_iff k_mem j_mem).mp k_j)
  have tight := tight_pass wide chain positions topological.ordered
  have result := topological_pass topological
  have bound := reach_le_of_tight result.nodup result.mem_iff
    (fun group mem => ((isChunking_pass wide).rising group mem).nonempty)
    (wide_forward fun i => (result.mem_iff i).mp)
    (fun group mem part closed => tight group mem part fun i _ i_part j _ dep =>
      closed i i_part dep) other_topological slope
  exact bound.trans (le_of_eq (reach_pass_sum wide slope).symm)

/-- With at most one parent each, a backward pass is optimal. -/
theorem backward_optimal (topological : graph.Topological lin)
    (one_parent : ∀ i ∈ graph.positions, (graph.getReducedParents i).card ≤ 1)
    (other_topological : graph.Topological other) (slope : ℝ) :
    reach slope (other.map (weigh graph)) ≤
      reach slope ((passResult graph true lin).map (weigh graph)) := by
  have reversed := graph.topological_reversed_iff.mpr topological
  have reversed' := graph.topological_reversed_iff.mpr other_topological
  have further := reach_reverse_le (reversed'.perm (topological_pass reversed))
    (forward_optimal reversed one_parent reversed' (-slope))
  rwa [reverse_reverse] at further

end

/-! ## A leaf moved to the end -/

/-- The second graph is the first with the fee of one transaction raised, or left as it is. -/
structure RaisedFee (orig raised : DepGraph) (new : ℕ) : Prop where
  positions : raised.positions = orig.positions
  ancestors : raised.ancestors = orig.ancestors
  descendants : raised.descendants = orig.descendants
  others : ∀ i, i ≠ new → raised.feeRate i = orig.feeRate i
  size : (raised.feeRate new).size = (orig.feeRate new).size
  fee : (orig.feeRate new).fee ≤ (raised.feeRate new).fee

section

variable {orig : DepGraph} {graph : AcyclicGraph} {leaf : ℕ} {pre : List ℕ}

variable (raised : RaisedFee orig graph leaf)
include raised

theorem RaisedFee.excess_le (list : List ℕ) (slope : ℝ) : (total (weigh orig) list).excess slope ≤
      (total (weigh graph) list).excess slope := by
  induction list with
  | nil => exact le_rfl
  | cons i list ih =>
    rw [total_cons, total_cons, Step.excess_add, Step.excess_add]
    refine add_le_add ?_ ih
    rcases eq_or_ne i leaf with rfl | other
    · have fee : ((orig.feeRate i).fee : ℝ) ≤ (graph.feeRate i).fee := Int.cast_le.mpr raised.fee
      have size : ((graph.feeRate i).size : ℝ) = (orig.feeRate i).size :=
        congrArg Int.cast raised.size
      simp only [Step.excess, weigh, FeeFrac.step, size]
      linarith
    · rw [weigh, weigh, raised.others i other]

theorem RaisedFee.totals (list : List ℕ) :
    (feeRateOfList orig list).size = (feeRateOfList graph list).size ∧
      (feeRateOfList orig list).fee ≤ (feeRateOfList graph list).fee := by
  induction list with
  | nil => exact ⟨rfl, le_rfl⟩
  | cons i list ih =>
    simp only [feeRateOfList, map_cons, sum_cons, FeeFrac.add_size, FeeFrac.add_fee] at ih ⊢
    rcases eq_or_ne i leaf with rfl | other
    · exact ⟨by rw [raised.size, ih.1], add_le_add raised.fee ih.2⟩
    · rw [raised.others i other]
      exact ⟨by rw [ih.1], add_le_add le_rfl ih.2⟩

/-- A backward pass makes up for moving a leaf to the end. -/
theorem reach_movedLeaf (topological : orig.Topological pre) (leaf_mem : leaf ∈ pre) (slope : ℝ) :
    reach slope (pre.map (weigh orig)) ≤ reach slope
      ((passResult graph true (pre.erase leaf ++ [leaf])).map (weigh graph)) := by
  have moved_perm : (pre.erase leaf ++ [leaf]).Perm pre :=
    (perm_append_singleton leaf _).trans (perm_cons_erase leaf_mem).symm
  have positions : ∀ i ∈ pre, i ∈ graph.positions := by
    intro i mem
    rw [raised.positions]
    exact (topological.mem_iff i).mp mem
  have moved_positions := fun i mem => positions i (moved_perm.mem_iff.mp mem)
  rw [reach_le_iff]
  intro steps is_front
  obtain ⟨front, ⟨back, rfl⟩, rfl⟩ := prefix_map_iff.mp is_front
  rw [← excess_total]
  refine (raised.excess_le front slope).trans ?_
  by_cases in_front : leaf ∈ front
  · -- the transactions after the front do not keep the leaf from joining it
    have reversed : ((front ++ back).erase leaf ++ [leaf]).reverse =
        leaf :: (back.reverse ++ (front.erase leaf).reverse) := by
      simp [erase_append_left back in_front]
    have wide : Wide (passView graph.reversed false).step
        (leaf :: (back.reverse ++ (front.erase leaf).reverse)) := by
      rw [← reversed]
      exact wide_forward fun i mem => moved_positions i (mem_reverse.mp mem)
    have free : ∀ i ∈ back.reverse, leaf ∉ graph.descendants i := by
      intro i mem desc
      rw [mem_reverse] at mem
      have later := (pairwise_append.mp topological.ordered).2.2 leaf in_front i mem
      rw [← raised.ancestors] at later
      exact later ((graph.mem_ancestors_iff (positions i (mem_append_right front mem))
        (positions leaf leaf_mem)).mpr desc)
    have without : (total (weigh graph.reversed) back.reverse).excess (-slope) ≤
        reach (-slope) ((passResult graph.reversed false _).map (weigh graph.reversed)) :=
      reach_pass_without_first wide free (-slope)
    have back_total : (total (weigh graph.reversed) back.reverse).excess (-slope) =
        -(total (weigh graph) back).excess slope := by
      rw [excess_total, excess_total, weigh_reversed, ← map_map, sum_excess_turned, map_reverse,
        map_reverse, sum_reverse]
    have whole : total (weigh graph) (passResult graph.reversed false
        ((front ++ back).erase leaf ++ [leaf]).reverse) = total (weigh graph) (front ++ back) :=
      (((perm_pass _ _).trans ((reverse_perm _).trans moved_perm)).map _).sum_eq
    rw [passResult_backward, reach_reverse, whole, reversed, total_append, Step.excess_add]
    rw [back_total] at without
    linarith
  · refine le_trans ?_ (reach_passResult moved_positions true slope)
    rw [erase_append_right back in_front, append_assoc, map_append, excess_total]
    exact sum_le_reach slope _ _

end

/-! ## The guarantees -/

variable {lin : List ℕ}

theorem postLinearize_eq (topological : graph.Topological lin) :
    postLinearize graph lin = some (passResult graph false
      (passResult graph true lin)) := by
  have initial : (initialEntries sentinel).feerate = 0 := rfl
  obtain ⟨entries, first, empty⟩ :=
    linearizationPass_eq graph true topological.nodup initial
  have nodup := (topological_passResult topological true).nodup
  obtain ⟨entries', second, -⟩ := linearizationPass_eq graph false nodup empty
  rw [postLinearize, first]
  simp only [Option.bind_eq_bind, Option.bind_some, second]
  rfl

def childPaysForParent : AcyclicGraph where
  positions := {0, 1, 2}
  feeRate i := if i = 0 then ⟨3, 2⟩ else if i = 1 then ⟨0, 1⟩ else ⟨10, 1⟩
  ancestors i := if i = 0 then {0} else if i = 1 then {1} else {1, 2}
  descendants i := if i = 0 then {0} else if i = 1 then {1, 2} else {2}
  self_mem_ancestors := by decide
  ancestors_subset := by decide
  ancestors_trans := by decide
  mem_descendants := by
    intro i i_mem j
    simp only [Finset.mem_insert, Finset.mem_singleton] at i_mem
    rcases i_mem with rfl | rfl | rfl <;> by_cases zero : j = 0 <;> by_cases one : j = 1 <;>
      simp [zero, one]
  acyclic := by decide
  sizes_pos := by decide

end BitcoinCore.ClusterLinearize
