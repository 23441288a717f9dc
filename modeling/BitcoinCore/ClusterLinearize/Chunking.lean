import BitcoinCore.ClusterLinearize.DepGraph

/-!
# The chunks of a linearization

`ChunkLinearization` and `ChunkLinearizationInfo` cut a linearization into chunks with a
stack, the first keeping the feerates alone and the second the sets of transactions too.
Both find the only chunking there is (`chunkLinearizationInfo_eq`).

The feerate diagram of a linearization is that of its chunks. One linearization is nowhere
below another if along every slope it reaches at least as far (`diagram_le_diagram`). It is
the concave hull of the fronts (`chunkLinearization_concave_hull`).
-/

namespace BitcoinCore.ClusterLinearize

open StepDiagram List FeeFrac

@[ext]
structure SetInfo where
  transactions : Finset ℕ
  feerate : FeeFrac
  deriving DecidableEq

namespace SetInfo

def single (graph : DepGraph) (pos : ℕ) : SetInfo := ⟨{pos}, graph.feeRate pos⟩

def union (a b : SetInfo) : SetInfo := ⟨a.transactions ∪ b.transactions, a.feerate + b.feerate⟩

end SetInfo

section

variable (graph : DepGraph)

def chunkLinearizationInfo (lin : List ℕ) : List SetInfo :=
  (lin.foldl
    (fun ret i => absorb (fun a b => a.feerate.higher b.feerate) SetInfo.union
      (SetInfo.single graph i) ret) []).reverse

def chunkLinearization (lin : List ℕ) : List FeeFrac :=
  (lin.foldl (fun ret i => absorb higher (· + ·) (graph.feeRate i) ret) []).reverse

noncomputable def linearizationDiagram (lin : List ℕ) (size : ℝ) : ℝ :=
  feerateDiagram (chunkLinearization graph lin) size

end

/-! ## The chunking that the code finds -/

def feeRateOfList (graph : DepGraph) (group : List ℕ) : FeeFrac := (group.map graph.feeRate).sum

def weigh (graph : DepGraph) (i : ℕ) : Step ℝ := (graph.feeRate i).step

section

variable {graph : DepGraph} {lin : List ℕ}

theorem step_feeRateOfList (group : List ℕ) :
    (feeRateOfList graph group).step = total (weigh graph) group := by
  rw [feeRateOfList, step_sum, map_map]
  rfl

theorem size_feeRateOfList {group : List ℕ} :
    0 < (feeRateOfList graph group).size ↔ 0 < (total (weigh graph) group).width := by
  rw [← step_feeRateOfList, step_width, Int.cast_pos]

def setInfoOf (graph : DepGraph) (group : List ℕ) : SetInfo :=
  ⟨group.toFinset, feeRateOfList graph group⟩

theorem map_foldl_absorbItems {β : Type*} (higher : β → β → Bool) (join : β → β → β)
    (convert : List ℕ → β)
    (convert_higher : ∀ a b, 0 < (feeRateOfList graph a).size → 0 < (feeRateOfList graph b).size →
      higher (convert a) (convert b) = (feeRateOfList graph a).higher (feeRateOfList graph b))
    (convert_join : ∀ a b, convert (b ++ a) = join (convert a) (convert b))
    (positive : ∀ i ∈ lin, 0 < (graph.feeRate i).size) (stack : List (List ℕ))
    (stack_positive : ∀ group ∈ stack, 0 < (feeRateOfList graph group).size) :
    (lin.foldl (fun stack item => absorbItems (weigh graph) [item] stack) stack).map convert =
      lin.foldl (fun ret i => absorb higher join (convert [i]) ret) (stack.map convert) := by
  induction lin generalizing stack with
  | nil => rfl
  | cons i lin ih =>
    obtain ⟨i_positive, rest_positive⟩ := forall_mem_cons.mp positive
    have join_positive : ∀ a b : List ℕ, 0 < (feeRateOfList graph a).size →
        0 < (feeRateOfList graph b).size → 0 < (feeRateOfList graph (b ++ a)).size := by
      intro a b a_positive b_positive
      rw [feeRateOfList, map_append, sum_append]
      exact add_pos b_positive a_positive
    have single_positive : 0 < (feeRateOfList graph [i]).size := by
      simpa [feeRateOfList] using i_positive
    have stacked : ∀ group ∈ absorbItems (weigh graph) [i] stack,
        0 < (feeRateOfList graph group).size :=
      forall_mem_absorb join_positive single_positive stack_positive
    have joined : (absorbItems (weigh graph) [i] stack).map convert =
        absorb higher join (convert [i]) (stack.map convert) := by
      refine map_absorb convert join_positive ?_ convert_join single_positive stack_positive
      intro a b a_positive b_positive
      rw [convert_higher a b a_positive b_positive, Bool.eq_iff_iff,
        higher_iff a_positive b_positive, decide_eq_true_iff, rate, rate,
        step_feeRateOfList, step_feeRateOfList]
    rw [foldl_cons, foldl_cons, ih rest_positive _ stacked, joined]

theorem feeRateOfList_append (front back : List ℕ) :
    feeRateOfList graph (front ++ back) = feeRateOfList graph back + feeRateOfList graph front := by
  rw [feeRateOfList, map_append, sum_append, add_comm, feeRateOfList, feeRateOfList]

theorem feeRateOfList_singleton (i : ℕ) : feeRateOfList graph [i] = graph.feeRate i := by
  rw [feeRateOfList, map_singleton, sum_singleton]

/-- `ChunkLinearizationInfo` finds the chunks. -/
theorem chunkLinearizationInfo_eq (positive : ∀ i ∈ lin, 0 < (graph.feeRate i).size) :
    chunkLinearizationInfo graph lin = (chunks (weigh graph) lin).map (setInfoOf graph) := by
  have join : ∀ a b, setInfoOf graph (b ++ a) = (setInfoOf graph a).union (setInfoOf graph b) := by
    intro a b
    ext1
    · exact toFinset_append.trans (Finset.union_comm _ _)
    · exact feeRateOfList_append b a
  have single : ∀ i, setInfoOf graph [i] = SetInfo.single graph i := by
    intro i
    ext1
    · exact toFinset_cons
    · exact feeRateOfList_singleton i
  have followed := map_foldl_absorbItems (fun a b : SetInfo => a.feerate.higher b.feerate)
    SetInfo.union (setInfoOf graph) (fun a b _ _ => rfl) join positive [] (forall_mem_nil _)
  rw [chunks, map_reverse, followed]
  simp only [single]
  rfl

theorem chunkLinearization_eq (positive : ∀ i ∈ lin, 0 < (graph.feeRate i).size) :
    chunkLinearization graph lin = (chunks (weigh graph) lin).map (feeRateOfList graph) := by
  have followed := map_foldl_absorbItems higher (· + ·) (feeRateOfList graph)
    (fun a b _ _ => rfl) (fun a b => feeRateOfList_append b a) positive [] (forall_mem_nil _)
  rw [chunks, map_reverse, followed]
  simp only [feeRateOfList_singleton]
  rfl

end

/-! ## Comparing diagrams -/

/-- A concave function on or above all points of the fronts of a linearization. -/
def Covers (graph : DepGraph) (lin : List ℕ) (bound : ℝ → ℝ) : Prop :=
  ConcaveOn ℝ (Set.Icc (0 : ℝ) (feeRateOfList graph lin).size) bound ∧ ∀ front, front <+: lin →
    ((feeRateOfList graph front).fee : ℝ) ≤ bound (feeRateOfList graph front).size

theorem sum_feeRateOfList (graph : DepGraph) (groups : List (List ℕ)) :
    (groups.map (feeRateOfList graph)).sum = feeRateOfList graph groups.flatten := by
  induction groups with
  | nil => rfl
  | cons group groups ih =>
    rw [map_cons, sum_cons, ih, flatten_cons, feeRateOfList_append, add_comm]

section

variable {graph graph' : DepGraph} {lin lin' : List ℕ}
  (positive : ∀ i ∈ lin, 0 < (graph.feeRate i).size)
include positive

theorem wide_of_positive : Wide (weigh graph) lin := fun i mem => Int.cast_pos.mpr (positive i mem)

theorem map_step_chunkLinearization : (chunkLinearization graph lin).map step =
      (chunks (weigh graph) lin).map (total (weigh graph)) := by
  rw [chunkLinearization_eq positive, map_map]
  exact map_congr_left fun group _ => step_feeRateOfList group

theorem reach_chunkLinearization
    (slope : ℝ) : reach slope ((chunkLinearization graph lin).map step) =
      reach slope (lin.map (weigh graph)) := by
  have wide := wide_of_positive positive
  obtain ⟨chunking, flat⟩ := isChunking_chunks wide
  rw [map_step_chunkLinearization positive, ← reach_flatten chunking.rising, flat]
  intro group mem
  rw [← flat] at wide
  exact wide_of_flatten wide mem

theorem sum_chunkLinearization : (chunkLinearization graph lin).sum = feeRateOfList graph lin := by
  rw [chunkLinearization_eq positive, sum_feeRateOfList,
    (isChunking_chunks (wide_of_positive positive)).2]

theorem concave_chunkLinearization : Concave ((chunkLinearization graph lin).map step) ∧
    Advancing ((chunkLinearization graph lin).map step) := by
  have wide := wide_of_positive positive
  obtain ⟨chunking, flat⟩ := isChunking_chunks wide
  rw [map_step_chunkLinearization positive]
  exact ⟨chunking.concave, chunking.advancing (by rwa [flat])⟩

theorem widths_chunkLinearization :
    (((chunkLinearization graph lin).map step).map Step.width).sum = (feeRateOfList graph lin).size := by
  rw [widths_step, sum_chunkLinearization positive]

theorem size_feeRateOfList_nonneg : 0 ≤ (feeRateOfList graph lin).size := by
  rw [feeRateOfList, sum_size, map_map]
  refine sum_nonneg fun size mem => ?_
  obtain ⟨i, i_mem, rfl⟩ := mem_map.mp mem
  exact (positive i i_mem).le

/-- A linearization that reaches at least as far along every slope is nowhere below. -/
theorem diagram_le_diagram (positive' : ∀ i ∈ lin', 0 < (graph'.feeRate i).size)
    (same_size : (feeRateOfList graph' lin').size = (feeRateOfList graph lin).size)
    (fee_le : (feeRateOfList graph' lin').fee ≤ (feeRateOfList graph lin).fee)
    (reaches : ∀ slope, reach slope (lin'.map (weigh graph')) ≤
      reach slope (lin.map (weigh graph))) {size : ℝ} (nonneg : 0 ≤ size) :
    linearizationDiagram graph' lin' size ≤ linearizationDiagram graph lin size := by
  obtain ⟨concave, advancing⟩ := concave_chunkLinearization positive
  obtain ⟨-, advancing'⟩ := concave_chunkLinearization positive'
  refine height_le_height concave advancing advancing' ?_ ?_ (fun slope => ?_) nonneg
  · rw [widths_step, widths_step, sum_chunkLinearization positive,
      sum_chunkLinearization positive', same_size]
  · rw [rises_step, rises_step, sum_chunkLinearization positive, sum_chunkLinearization positive']
    exact Int.cast_le.mpr fee_le
  · rw [reach_chunkLinearization positive, reach_chunkLinearization positive']
    exact reaches slope

theorem covers_linearizationDiagram : Covers graph lin (linearizationDiagram graph lin) := by
  obtain ⟨concave, advancing⟩ := concave_chunkLinearization positive
  have widths := widths_chunkLinearization positive
  refine ⟨widths ▸ concave.concaveOn advancing, ?_⟩
  rintro front ⟨back, rfl⟩
  have front_nonneg := size_feeRateOfList_nonneg fun i mem => positive i (mem_append_left back mem)
  have back_nonneg := size_feeRateOfList_nonneg fun i mem => positive i (mem_append_right front mem)
  rw [feeRateOfList_append, add_size, Int.cast_add] at widths
  obtain ⟨slope, touches⟩ := concave.touches advancing (Int.cast_nonneg front_nonneg)
    (widths ▸ le_add_of_nonneg_left (Int.cast_nonneg back_nonneg))
  have reaches := sum_le_reach slope (front.map (weigh graph)) (back.map (weigh graph))
  rw [← excess_total, ← step_feeRateOfList, ← map_append, ← reach_chunkLinearization positive,
    Step.excess, step_width, step_rise] at reaches
  rw [linearizationDiagram, feerateDiagram, touches]
  linarith

theorem Covers.diagram_le {bound : ℝ → ℝ} (covers : Covers graph lin bound) {size : ℝ}
    (mem : size ∈ Set.Icc (0 : ℝ) (feeRateOfList graph lin).size) :
    linearizationDiagram graph lin size ≤ bound size := by
  obtain ⟨concave, above⟩ := covers
  rw [← widths_chunkLinearization positive] at concave mem
  refine height_le_of_concaveOn (concave_chunkLinearization positive).2 concave ?_ mem.1 mem.2
  intro front is_front
  rw [chunkLinearization_eq positive, map_map, prefix_map_iff] at is_front
  obtain ⟨groups, ⟨rest, whole⟩, rfl⟩ := is_front
  have corner := above groups.flatten
    ⟨rest.flatten, by rw [← flatten_append, whole, (isChunking_chunks (wide_of_positive positive)).2]⟩
  rw [← map_map, widths_step, rises_step, sum_feeRateOfList]
  exact corner

end

/-- Two unrelated transactions, the second with the higher feerate. -/
def risingPair : DepGraph where
  positions := {0, 1}
  feeRate i := ⟨i, 1⟩
  ancestors i := {i}
  descendants i := {i}
  self_mem_ancestors := by simp
  ancestors_subset := by simp
  ancestors_trans := by simp
  mem_descendants := by grind

end BitcoinCore.ClusterLinearize
