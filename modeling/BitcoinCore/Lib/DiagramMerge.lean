import BitcoinCore.Lib.StepDiagram

/-!
# Merged diagrams

Concave diagrams that never fall are compared through how far they reach along the slopes
that do not fall: one is nowhere below another exactly if it reaches at least as far along
each of them (`height_le_iff`). A concave diagram of the steps of two others reaches as far
as the two together (`Concave.reach_merge`), so what is merged into both sides of a
comparison does not change it (`height_merge_le_iff`).
-/

namespace StepDiagram

variable {K : Type*} [Field K] [LinearOrder K] [IsStrictOrderedRing K]
  {steps upper lower others upper' lower' : List (Step K)}

/-- A diagram that goes to the right and never falls, with flatter and flatter steps. -/
structure Growing (steps : List (Step K)) : Prop where
  advancing : Advancing steps
  concave : Concave steps
  rises : ∀ step ∈ steps, 0 ≤ step.rise

/-- Beyond its last step too, a diagram stays below the lines that do not fall. -/
theorem height_le_line_of_nonneg (advancing : Advancing steps) {slope : K} (climbs : 0 ≤ slope)
    {x : K} (nonneg : 0 ≤ x) : height steps x ≤ slope * x + reach slope steps := by
  rcases le_total x (steps.map Step.width).sum with within | beyond
  · exact height_le_line advancing nonneg within slope
  · have atEnd := height_le_line advancing advancing.width_nonneg le_rfl slope
    have further := mul_le_mul_of_nonneg_left beyond climbs
    rw [height_of_ge advancing le_rfl] at atEnd
    rw [height_of_ge advancing beyond]
    linarith

omit [LinearOrder K] [IsStrictOrderedRing K] in
theorem sum_excess (slope : K) (steps : List (Step K)) : (steps.map (Step.excess slope)).sum =
      (steps.map Step.rise).sum - slope * (steps.map Step.width).sum := by
  induction steps with
  | nil => simp
  | cons step steps ih =>
    simp only [List.map_cons, List.sum_cons, ih, Step.excess]
    ring

theorem reach_le_of_height_le (advancing : Advancing upper) (advancing' : Advancing lower)
    (below : ∀ x, 0 ≤ x → height lower x ≤ height upper x) {slope : K} (climbs : 0 ≤ slope) :
    reach slope lower ≤ reach slope upper := by
  rw [reach_le_iff]
  rintro front ⟨back, rfl⟩
  have corner := height_append_of_ge advancing' le_rfl
  have wide := advancing'.append_left.width_nonneg
  have lower_le := below _ wide
  have upper_le := height_le_line_of_nonneg advancing climbs wide
  have back_advancing : Advancing back := by
    intro step mem
    exact advancing' step (List.mem_append_right front mem)
  rw [corner, sub_self, height_zero back_advancing, add_zero] at lower_le
  rw [sum_excess]
  linarith

theorem Growing.slope_nonneg (growing : Growing steps) {step : Step K} (mem : step ∈ steps) :
    0 ≤ step.slope :=
  div_nonneg (growing.rises step mem) (growing.advancing step mem).le

theorem Growing.reach_zero (growing : Growing steps) :
    reach 0 steps = (steps.map Step.rise).sum := by
  rw [growing.concave.reach_eq growing.advancing]
  refine congrArg List.sum (List.map_congr_left ?_)
  intro step mem
  rw [Step.excess, zero_mul, sub_zero]
  exact max_eq_right (growing.rises step mem)

/-- Growing diagrams are compared by their reach. -/
theorem height_le_iff (growing : Growing upper) (advancing' : Advancing lower) :
    (∀ x, 0 ≤ x → height lower x ≤ height upper x) ↔
      ∀ slope, 0 ≤ slope → reach slope lower ≤ reach slope upper := by
  constructor
  · intro below slope climbs
    exact reach_le_of_height_le growing.advancing advancing' below climbs
  intro reaches x nonneg
  have atEnd : (upper.map Step.width).sum ≤ x → height lower x ≤ height upper x := by
    intro beyond
    have line := height_le_line_of_nonneg advancing' le_rfl nonneg
    have level := reaches 0 le_rfl
    rw [growing.reach_zero] at level
    rw [height_of_ge growing.advancing beyond]
    linarith
  rcases le_total x (upper.map Step.width).sum with within | beyond
  · rcases eq_or_ne upper [] with rfl | ne
    · exact atEnd nonneg
    · obtain ⟨step, mem, touches⟩ :=
        growing.concave.exists_line growing.advancing nonneg within ne
      have climbs := growing.slope_nonneg mem
      have line := height_le_line_of_nonneg advancing' climbs nonneg
      have further := reaches step.slope climbs
      rw [touches]
      linarith
  · exact atEnd beyond

/-- A merged diagram reaches as far as its parts together. -/
theorem Growing.reach_merge (growing : Growing steps) (growing' : Growing others)
    (merged : Growing upper) (merges : upper.Perm (steps ++ others)) (slope : K) :
    reach slope upper = reach slope steps + reach slope others := by
  rw [merged.concave.reach_eq merged.advancing, growing.concave.reach_eq growing.advancing,
    growing'.concave.reach_eq growing'.advancing, (merges.map _).sum_eq, List.map_append,
    List.sum_append]

/-- What is merged into both sides does not change the comparison. -/
theorem height_merge_le_iff (upper_growing : Growing upper) (lower_growing : Growing lower)
    (others_growing : Growing others) (upper_growing' : Growing upper')
    (lower_growing' : Growing lower') (upper_merges : upper'.Perm (upper ++ others))
    (lower_merges : lower'.Perm (lower ++ others)) :
    (∀ x, 0 ≤ x → height lower' x ≤ height upper' x) ↔
      ∀ x, 0 ≤ x → height lower x ≤ height upper x := by
  rw [height_le_iff upper_growing' lower_growing'.advancing,
    height_le_iff upper_growing lower_growing.advancing]
  refine forall₂_congr ?_
  intro slope _
  rw [upper_growing.reach_merge others_growing upper_growing' upper_merges,
    lower_growing.reach_merge others_growing lower_growing' lower_merges]
  exact add_le_add_iff_right _

end StepDiagram
