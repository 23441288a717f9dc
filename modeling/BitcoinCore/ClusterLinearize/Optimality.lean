import BitcoinCore.ClusterLinearize.Chunking

/-!
# Optimal linearizations

A group of transactions is tight when no part of it that is closed under ancestors has a
higher feerate than the whole group. If all transactions are cut into tight groups, no
topological linearization reaches further than the groups that rise above the slope
(`reach_le_of_tight`). So a linearization whose groups are tight and in the order of their
feerates is at least as high everywhere as any other.
-/

namespace BitcoinCore.ClusterLinearize

open StepDiagram List Step

/-- A group of which no part that is closed under ancestors has a higher feerate. -/
def TightGroup (graph : DepGraph) (group : List ℕ) : Prop :=
  ∀ part : Finset ℕ, graph.Closed part →
    (total (weigh graph) (group.filter (· ∈ part))).excess (total (weigh graph) group).slope ≤ 0

section

variable {graph : DepGraph} {group : List ℕ} {part : Finset ℕ}

theorem total_filter_add (weigh : ℕ → Step ℝ) (group : List ℕ) (part : Finset ℕ) :
    total weigh (group.filter (· ∈ part)) + total weigh (group.filter (· ∉ part)) =
      total weigh group := by
  have perm := filter_append_perm (fun i => decide (i ∈ part)) group
  simp only [← decide_not] at perm
  rw [← total_append]
  exact (perm.map weigh).sum_eq

theorem width_total_nonneg {weigh : ℕ → Step ℝ} (wide : Wide weigh group) :
    0 ≤ (total weigh group).width := by
  rcases eq_or_ne group [] with rfl | ne
  · exact le_rfl
  · exact (wide.total_pos ne).le

/-- A part of a group that is no steeper than the group gains at most what the group gains. -/
theorem excess_part_le (wide : Wide (weigh graph) group) (ne : group ≠ [])
    (flatter : (total (weigh graph) (group.filter (· ∈ part))).excess
      (total (weigh graph) group).slope ≤ 0) (slope : ℝ) :
    (total (weigh graph) (group.filter (· ∈ part))).excess slope ≤
      max 0 ((total (weigh graph) group).excess slope) := by
  have part_wide : Wide (weigh graph) (group.filter (· ∈ part)) :=
    fun i mem => wide i (mem_of_mem_filter mem)
  have rest_wide : Wide (weigh graph) (group.filter (· ∉ part)) :=
    fun i mem => wide i (mem_of_mem_filter mem)
  have part_nonneg := width_total_nonneg part_wide
  have rest_nonneg := width_total_nonneg rest_wide
  have widths := congrArg width (total_filter_add (weigh graph) group part)
  rw [add_width] at widths
  have own := excess_slope (wide.total_pos ne)
  generalize total (weigh graph) (group.filter (· ∉ part)) = rest at *
  generalize total (weigh graph) group = whole at *
  simp only [excess] at flatter own ⊢
  rcases le_total slope whole.slope with steep | flat
  · refine le_trans ?_ (le_max_right _ _)
    have gained := mul_nonneg (sub_nonneg.mpr steep) rest_nonneg
    rw [← widths] at own ⊢
    linarith
  · refine le_trans ?_ (le_max_left _ _)
    have lost := mul_le_mul_of_nonneg_right flat part_nonneg
    linarith

/-- No topological linearization reaches further than the rising tight groups. -/
theorem reach_le_of_tight {groups : List (List ℕ)} {other : List ℕ}
    (nodup : groups.flatten.Nodup) (mem_iff : ∀ i, i ∈ groups.flatten ↔ i ∈ graph.positions)
    (ne : ∀ group ∈ groups, group ≠ []) (wide : Wide (weigh graph) groups.flatten)
    (tight : ∀ group ∈ groups, TightGroup graph group) (topo : graph.Topological other)
    (slope : ℝ) : reach slope (other.map (weigh graph)) ≤
      (groups.map fun group => max 0 ((total (weigh graph) group).excess slope)).sum := by
  rw [reach_le_iff]
  intro steps is_front
  obtain ⟨front, ⟨back, rfl⟩, rfl⟩ := prefix_map_iff.mp is_front
  have closed := topo.closed_front
  have front_nodup : front.Nodup := (nodup_append'.mp topo.nodup).1
  have perm : front.Perm (groups.flatten.filter (· ∈ front.toFinset)) := by
    refine (perm_ext_iff_of_nodup front_nodup (nodup.filter _)).mpr fun i => ?_
    rw [mem_filter, decide_eq_true_iff, mem_toFinset, mem_iff, ← topo.mem_iff, mem_append]
    tauto
  have same : total (weigh graph) front =
      total (weigh graph) (groups.flatten.filter (· ∈ front.toFinset)) :=
    (perm.map (weigh graph)).sum_eq
  rw [← excess_total, same]
  clear perm same mem_iff nodup
  induction groups with
  | nil => simp
  | cons group groups ih =>
    obtain ⟨group_ne, ne⟩ := forall_mem_cons.mp ne
    obtain ⟨group_tight, tight⟩ := forall_mem_cons.mp tight
    rw [flatten_cons] at wide
    rw [flatten_cons, filter_append, total_append, excess_add, map_cons, sum_cons]
    exact add_le_add (excess_part_le wide.append_left group_ne (group_tight _ closed) slope)
      (ih ne wide.append_right tight)

end

/-- Of two topological linearizations, one that reaches at least as far along every slope is
nowhere below. -/
theorem diagram_le_of_topological {graph : AcyclicGraph} {lin other : List ℕ}
    (topo : graph.Topological lin) (other_topological : graph.Topological other)
    (reaches : ∀ slope, reach slope (other.map (weigh graph)) ≤ reach slope (lin.map (weigh graph)))
    {size : ℝ} (nonneg : 0 ≤ size) :
    linearizationDiagram graph other size ≤ linearizationDiagram graph lin size := by
  have same : feeRateOfList graph other = feeRateOfList graph lin :=
    ((other_topological.perm topo).map graph.feeRate).sum_eq
  refine diagram_le_diagram (fun i mem => graph.sizes_pos i ((topo.mem_iff i).mp mem))
    (fun i mem => graph.sizes_pos i ((other_topological.mem_iff i).mp mem)) ?_ ?_ reaches nonneg
  · rw [same]
  · rw [same]

end BitcoinCore.ClusterLinearize
