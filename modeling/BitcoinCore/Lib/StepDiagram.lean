import Mathlib

/-!
# Diagrams of steps

A list of steps, each with a width and a rise, draws a piecewise linear diagram that
starts at the origin and continues horizontally after the last step. `height` is its
height at any position.

Two diagrams that are both straight between two positions differ somewhere between
them only if they differ the same way at one of the two (`lt_at_end_of_lt`), which
reduces a comparison of two diagrams to their corner points.

A diagram is also seen along one slope: `reach` is how far its corner points get above
a line of that slope through the origin. Of two diagrams of the same width, a concave one
is nowhere below the other if it ends at least as high and reaches at least as far along
every slope (`height_le_height`). How far a list of steps reaches does not change when a step is
joined with a steeper one after it (`reach_join`), and does not get less when the two
are swapped (`reach_swap`).
-/

namespace StepDiagram

open List

@[ext]
structure Step (K : Type*) where
  width : K
  rise : K

variable {K : Type*} [Field K]

namespace Step

instance : Zero (Step K) := ⟨⟨0, 0⟩⟩

instance : Add (Step K) := ⟨fun a b => ⟨a.width + b.width, a.rise + b.rise⟩⟩

@[simp] theorem zero_width : (0 : Step K).width = 0 := rfl
@[simp] theorem zero_rise : (0 : Step K).rise = 0 := rfl
@[simp] theorem add_width (a b : Step K) : (a + b).width = a.width + b.width := rfl
@[simp] theorem add_rise (a b : Step K) : (a + b).rise = a.rise + b.rise := rfl

instance : AddCommMonoid (Step K) where
  add_assoc a b c := Step.ext (add_assoc _ _ _) (add_assoc _ _ _)
  zero_add a := Step.ext (zero_add _) (zero_add _)
  add_zero a := Step.ext (add_zero _) (add_zero _)
  add_comm a b := Step.ext (add_comm _ _) (add_comm _ _)
  nsmul := nsmulRec

def slope (step : Step K) : K := step.rise / step.width

/-- How much more a step rises than a line of the given slope. -/
def excess (slope : K) (step : Step K) : K := step.rise - slope * step.width

@[simp] theorem excess_zero (slope : K) : (0 : Step K).excess slope = 0 := by
  simp [excess]

@[simp] theorem excess_add (slope : K) (a b : Step K) :
    (a + b).excess slope = a.excess slope + b.excess slope := by
  simp only [excess, add_width, add_rise]
  ring

def turned (step : Step K) : Step K := ⟨step.width, -step.rise⟩

@[simp] theorem excess_turned (slope : K) (step : Step K) :
    step.turned.excess (-slope) = -step.excess slope := by
  simp only [excess, turned]
  ring

end Step

variable [LinearOrder K] {rest : List (Step K)} {step : Step K}

/-- The height of the diagram drawn by the steps, horizontal after the last of them. -/
def height : List (Step K) → K → K
  | [], _ => 0
  | step :: rest, x =>
    if x ≤ step.width then step.rise * x / step.width
    else step.rise + height rest (x - step.width)

def Advancing (steps : List (Step K)) : Prop := ∀ step ∈ steps, 0 < step.width

theorem Advancing.head (advancing : Advancing (step :: rest)) :
    0 < step.width := advancing step mem_cons_self

theorem Advancing.tail (advancing : Advancing (step :: rest)) :
    Advancing rest := fun other mem => advancing other (mem_cons_of_mem step mem)

variable {steps front back : List (Step K)}

theorem Advancing.append_left (advancing : Advancing (front ++ back)) :
    Advancing front := fun step mem => advancing step (mem_append_left back mem)

@[simp] theorem height_nil (x : K) : height [] x = 0 := rfl

variable {x : K}

theorem height_cons_of_le (within : x ≤ step.width) :
    height (step :: rest) x = step.rise * x / step.width := by
  rw [height, if_pos within]

theorem height_zero (advancing : Advancing steps) : height steps 0 = 0 := by
  cases steps with
  | nil => rfl
  | cons step rest =>
    rw [height_cons_of_le advancing.head.le, mul_zero, zero_div]

/-- From the end of the first step on, the diagram is the rest of it drawn from there. -/
theorem height_cons_of_ge (advancing : Advancing (step :: rest)) (beyond : step.width ≤ x) :
    height (step :: rest) x = step.rise + height rest (x - step.width) := by
  rcases beyond.eq_or_lt with corner | strictly
  · rw [height_cons_of_le corner.ge, ← corner, sub_self, height_zero advancing.tail, add_zero,
      mul_div_cancel_right₀ _ advancing.head.ne']
  · rw [height, if_neg strictly.not_ge]

variable [IsStrictOrderedRing K]

theorem Advancing.width_nonneg (advancing : Advancing steps) :
    0 ≤ (steps.map Step.width).sum := by
  refine sum_nonneg fun width mem => ?_
  obtain ⟨step, step_mem, rfl⟩ := mem_map.mp mem
  exact (advancing step step_mem).le

theorem height_append_of_ge
    (advancing : Advancing (front ++ back)) (beyond : (front.map Step.width).sum ≤ x) :
    height (front ++ back) x =
      (front.map Step.rise).sum + height back (x - (front.map Step.width).sum) := by
  induction front generalizing x with
  | nil => simp
  | cons step front ih =>
    rw [map_cons, sum_cons] at beyond
    rw [cons_append] at advancing
    have rest_nonneg : 0 ≤ (front.map Step.width).sum := advancing.tail.append_left.width_nonneg
    rw [cons_append, height_cons_of_ge advancing (by linarith), ih advancing.tail (by linarith)]
    simp only [map_cons, sum_cons, sub_sub, add_assoc]

/-- A straight difference that is positive somewhere between two positions is positive
at one of them. -/
theorem lt_at_end_of_lt {left right base slope : K} (lower : left ≤ x) (upper : x ≤ right)
    (pos : 0 < base + slope * x) : 0 < base + slope * left ∨ 0 < base + slope * right := by
  rcases le_total 0 slope with rising | falling
  · right
    have grows : slope * x ≤ slope * right := mul_le_mul_of_nonneg_left upper rising
    linarith
  · left
    have grows : slope * x ≤ slope * left := mul_le_mul_of_nonpos_left lower falling
    linarith

/-! ## Slopes -/

variable {slope : K} {a b : Step K}

section

variable (wide : 0 < a.width)
include wide

theorem Step.excess_nonneg_iff : 0 ≤ a.excess slope ↔ slope ≤ a.slope := by
  rw [Step.excess, sub_nonneg, Step.slope, le_div_iff₀ wide]

theorem Step.excess_pos_iff : 0 < a.excess slope ↔ slope < a.slope := by
  rw [Step.excess, sub_pos, Step.slope, lt_div_iff₀ wide]

theorem Step.excess_nonpos_iff : a.excess slope ≤ 0 ↔ a.slope ≤ slope := by
  rw [Step.excess, sub_nonpos, Step.slope, div_le_iff₀ wide]

theorem Step.excess_neg_iff : a.excess slope < 0 ↔ a.slope < slope := by
  rw [Step.excess, sub_neg, Step.slope, div_lt_iff₀ wide]

theorem Step.excess_slope : a.excess a.slope = 0 :=
  le_antisymm ((Step.excess_nonpos_iff wide).mpr le_rfl) ((Step.excess_nonneg_iff wide).mpr le_rfl)

end

/-! ## How far a diagram reaches along a slope -/

/-- The most that a corner point of the diagram lies above the line of the given slope
through the origin, which is itself a corner point. -/
def reach (slope : K) : List (Step K) → K
  | [] => 0
  | step :: rest => max 0 (step.excess slope + reach slope rest)

section

variable {front back steps : List (Step K)}

omit [IsStrictOrderedRing K] in
theorem reach_nonneg (slope : K) (steps : List (Step K)) : 0 ≤ reach slope steps := by
  cases steps with
  | nil => exact le_rfl
  | cons step rest => exact le_max_left _ _

theorem reach_append (slope : K) (front back : List (Step K)) : reach slope (front ++ back) =
      max (reach slope front) ((front.map (Step.excess slope)).sum + reach slope back) := by
  induction front with
  | nil => simp [reach, reach_nonneg]
  | cons step front ih =>
    rw [cons_append, reach, ih, reach, map_cons, sum_cons, add_assoc,
      ← max_add_add_left, ← max_assoc]

theorem sum_le_reach (slope : K) (front back : List (Step K)) :
    (front.map (Step.excess slope)).sum ≤ reach slope (front ++ back) := by
  rw [reach_append]
  exact (le_add_of_nonneg_right (reach_nonneg slope back)).trans (le_max_right _ _)

theorem reach_le_reach_append (slope : K) (front back : List (Step K)) :
    reach slope front ≤ reach slope (front ++ back) := by
  rw [reach_append]
  exact le_max_left _ _

omit [IsStrictOrderedRing K] in
theorem exists_reach_eq (slope : K) (steps : List (Step K)) :
    ∃ front, front <+: steps ∧ reach slope steps = (front.map (Step.excess slope)).sum := by
  induction steps with
  | nil => exact ⟨[], List.nil_prefix, rfl⟩
  | cons step rest ih =>
    obtain ⟨front, is_front, attained⟩ := ih
    rcases le_total 0 (step.excess slope + reach slope rest) with pos | negative
    · refine ⟨step :: front, (prefix_cons_inj step).mpr is_front, ?_⟩
      rw [reach, max_eq_right pos, attained, map_cons, sum_cons]
    · refine ⟨[], List.nil_prefix, ?_⟩
      rw [reach, max_eq_left negative, map_nil, sum_nil]

theorem reach_le_iff {bound : K} : reach slope steps ≤ bound ↔
      ∀ front, front <+: steps → (front.map (Step.excess slope)).sum ≤ bound := by
  constructor
  · rintro bounded front ⟨back, rfl⟩
    exact (sum_le_reach slope front back).trans bounded
  · intro bounded
    obtain ⟨front, is_front, attained⟩ := exists_reach_eq slope steps
    rw [attained]
    exact bounded front is_front

section

variable (wide_a : 0 < a.width) (wide_b : 0 < b.width) (steeper : a.slope ≤ b.slope)
include wide_a wide_b steeper

/-- A step that is followed by a steeper one is no corner of the concave hull. -/
theorem max_excess_of_steeper (rest : K) (rest_nonneg : 0 ≤ rest) :
    max 0 (a.excess slope + max 0 (b.excess slope + rest)) =
      max 0 (a.excess slope + b.excess slope + rest) := by
  rcases le_total 0 (b.excess slope + rest) with gain | loss
  · rw [max_eq_right gain, add_assoc]
  · have falling : b.excess slope ≤ 0 := by linarith
    have falling' : a.excess slope ≤ 0 := by
      rw [Step.excess_nonpos_iff wide_b] at falling
      exact (Step.excess_nonpos_iff wide_a).mpr (steeper.trans falling)
    rw [max_eq_left loss, add_zero, max_eq_left falling', max_eq_left (by linarith)]

/-- Joining a step with a steeper one after it does not change the reach. -/
theorem reach_join :
    reach slope (front ++ a :: b :: back) = reach slope (front ++ (a + b) :: back) := by
  have same : reach slope (a :: b :: back) = reach slope ((a + b) :: back) := by
    rw [reach, reach, reach, Step.excess_add]
    exact max_excess_of_steeper wide_a wide_b steeper _ (reach_nonneg slope back)
  rw [reach_append, reach_append, same]

/-- Swapping a step with a steeper one after it does not lessen the reach. -/
theorem reach_swap :
    reach slope (front ++ a :: b :: back) ≤ reach slope (front ++ b :: a :: back) := by
  rw [reach_append, reach_append]
  refine max_le_max le_rfl (add_le_add_right ?_ _)
  rw [reach, reach, reach, reach,
    max_excess_of_steeper wide_a wide_b steeper _ (reach_nonneg slope back)]
  refine max_le (le_max_left _ _) ?_
  have kept : a.excess slope + reach slope back ≤ max 0 (a.excess slope + reach slope back) :=
    le_max_right _ _
  exact le_trans (by linarith) (le_max_right _ _)

end

omit [LinearOrder K] [IsStrictOrderedRing K] in
theorem sum_excess_turned (slope : K) (steps : List (Step K)) :
    ((steps.map Step.turned).map (Step.excess (-slope))).sum =
      -(steps.map (Step.excess slope)).sum := by
  rw [map_map, sum_neg, map_map]
  exact congrArg List.sum (map_congr_left fun step _ => Step.excess_turned slope step)

theorem reach_eq_reverse (slope : K) (steps : List (Step K)) :
    reach slope steps = (steps.map (Step.excess slope)).sum +
      reach (-slope) (steps.reverse.map Step.turned) := by
  induction steps with
  | nil => simp [reach]
  | cons step rest ih =>
    have last : reach (-slope) ([step].map Step.turned) = max 0 (-step.excess slope) := by
      rw [map_singleton, reach, reach, Step.excess_turned, add_zero]
    have rest_nonneg := reach_nonneg slope rest
    rw [reverse_cons, map_append, reach_append, sum_excess_turned,
      ((reverse_perm rest).map _).sum_eq, last, reach, map_cons, sum_cons, ih]
    rw [ih] at rest_nonneg
    rcases le_total 0 (step.excess slope) with rising | falling
    · rw [max_eq_right (by linarith), max_eq_left (a := 0) (by linarith),
        max_eq_left (by linarith), add_assoc]
    · rw [max_eq_right (a := 0) (b := -step.excess slope) (by linarith)]
      rw [← max_add_add_left, max_comm, add_assoc]
      congr 1
      ring

end

/-! ## Concave diagrams -/

def Concave (steps : List (Step K)) : Prop := steps.Pairwise fun a b => b.slope ≤ a.slope

variable {steps upper lower : List (Step K)}

/-- A concave diagram reaches as far as all its steps that rise above the slope. -/
theorem Concave.reach_eq (concave : Concave steps) (advancing : Advancing steps) (slope : K) :
    reach slope steps = (steps.map fun step => max 0 (step.excess slope)).sum := by
  induction steps with
  | nil => rfl
  | cons step rest ih =>
    obtain ⟨first, concave⟩ := pairwise_cons.mp concave
    rw [reach, ih concave advancing.tail, map_cons, sum_cons]
    rcases le_total 0 (step.excess slope) with rising | falling
    · rw [max_eq_right rising, max_eq_right]
      refine add_nonneg rising (sum_nonneg fun value mem => ?_)
      obtain ⟨other, -, rfl⟩ := mem_map.mp mem
      exact le_max_left _ _
    · have rest_zero : (rest.map fun step => max 0 (step.excess slope)).sum = 0 := by
        refine sum_eq_zero fun value mem => ?_
        obtain ⟨other, other_mem, rfl⟩ := mem_map.mp mem
        rw [Step.excess_nonpos_iff advancing.head] at falling
        exact max_eq_left ((Step.excess_nonpos_iff (advancing.tail other other_mem)).mpr
          ((first other other_mem).trans falling))
      rw [rest_zero, add_zero, add_zero]

theorem height_le_line (advancing : Advancing steps) (nonneg : 0 ≤ x)
    (within : x ≤ (steps.map Step.width).sum) (slope : K) :
    height steps x ≤ slope * x + reach slope steps := by
  induction steps generalizing x with
  | nil =>
    rw [map_nil, sum_nil] at within
    rw [le_antisymm within nonneg, mul_zero, height_nil, reach, add_zero]
  | cons step rest ih =>
    rcases le_total x step.width with isIn | beyond
    · rw [height_cons_of_le isIn, reach]
      have part : step.rise * x / step.width =
          slope * x + x / step.width * step.excess slope := by
        have wide := advancing.head.ne'
        rw [Step.excess]
        field_simp
        ring
      have ratio_le : x / step.width ≤ 1 := (div_le_one advancing.head).mpr isIn
      have ratio_nonneg : 0 ≤ x / step.width := div_nonneg nonneg advancing.head.le
      have rest_nonneg := reach_nonneg slope rest
      rw [part, add_le_add_iff_left]
      rcases le_total 0 (step.excess slope) with rising | falling
      · have whole : x / step.width * step.excess slope ≤ step.excess slope :=
          mul_le_of_le_one_left rising ratio_le
        exact le_trans (by linarith) (le_max_right _ _)
      · exact (mul_nonpos_of_nonneg_of_nonpos ratio_nonneg falling).trans (le_max_left _ _)
    · rw [map_cons, sum_cons] at within
      have rest_le := ih advancing.tail (sub_nonneg.mpr beyond) (by linarith)
      have reach_ge : step.excess slope + reach slope rest ≤ reach slope (step :: rest) :=
        le_max_right _ _
      rw [height_cons_of_ge advancing beyond]
      rw [Step.excess] at reach_ge
      linarith [mul_sub slope x step.width]

/-- A concave diagram touches one of those lines everywhere. -/
theorem Concave.exists_line (concave : Concave steps) (advancing : Advancing steps)
    (nonneg : 0 ≤ x) (within : x ≤ (steps.map Step.width).sum) (ne : steps ≠ []) :
    ∃ step ∈ steps, height steps x = step.slope * x + reach step.slope steps := by
  induction steps generalizing x with
  | nil => exact absurd rfl ne
  | cons step rest ih =>
    obtain ⟨first, concave'⟩ := pairwise_cons.mp concave
    rcases le_or_gt x step.width with isIn | beyond
    · refine ⟨step, mem_cons_self, ?_⟩
      have flat : reach step.slope (step :: rest) = 0 := by
        rw [concave.reach_eq advancing]
        refine sum_eq_zero fun value mem => ?_
        obtain ⟨other, other_mem, rfl⟩ := mem_map.mp mem
        refine max_eq_left ((Step.excess_nonpos_iff (advancing other other_mem)).mpr ?_)
        rcases mem_cons.mp other_mem with rfl | later
        · exact le_rfl
        · exact first other later
      rw [height_cons_of_le isIn, flat, add_zero, Step.slope]
      ring
    · rw [map_cons, sum_cons] at within
      have rest_nonempty : rest ≠ [] := by
        rintro rfl
        rw [map_nil, sum_nil] at within
        linarith
      obtain ⟨other, other_mem, touches⟩ :=
        ih concave' advancing.tail (sub_nonneg.mpr beyond.le) (by linarith) rest_nonempty
      refine ⟨other, mem_cons_of_mem step other_mem, ?_⟩
      have rising : 0 ≤ step.excess other.slope :=
        (Step.excess_nonneg_iff advancing.head).mpr (first other other_mem)
      rw [height_cons_of_ge advancing beyond.le, touches, reach,
        max_eq_right (add_nonneg rising (reach_nonneg _ rest)), Step.excess]
      ring

theorem height_of_ge (advancing : Advancing steps)
    (beyond : (steps.map Step.width).sum ≤ x) : height steps x = (steps.map Step.rise).sum := by
  have whole : height (steps ++ []) x = _ := height_append_of_ge (by rwa [append_nil]) beyond
  rwa [append_nil, height_nil, add_zero] at whole

theorem Concave.touches (concave : Concave steps) (advancing : Advancing steps)
    (nonneg : 0 ≤ x) (within : x ≤ (steps.map Step.width).sum) :
    ∃ slope, height steps x = slope * x + reach slope steps := by
  rcases eq_or_ne steps [] with rfl | ne
  · exact ⟨0, by simp [reach]⟩
  · obtain ⟨step, -, touches⟩ := concave.exists_line advancing nonneg within ne
    exact ⟨step.slope, touches⟩

/-- A concave diagram that reaches at least as far along every slope is nowhere below. -/
theorem height_le_height (concave : Concave upper) (advancing : Advancing upper)
    (advancing' : Advancing lower)
    (same_width : (lower.map Step.width).sum = (upper.map Step.width).sum)
    (rise_le : (lower.map Step.rise).sum ≤ (upper.map Step.rise).sum)
    (reaches : ∀ slope, reach slope lower ≤ reach slope upper) (nonneg : 0 ≤ x) :
    height lower x ≤ height upper x := by
  rcases le_total x (upper.map Step.width).sum with within | beyond
  · obtain ⟨slope, touches⟩ := concave.touches advancing nonneg within
    rw [touches]
    exact (height_le_line advancing' nonneg (by rwa [same_width]) _).trans
      (add_le_add_right (reaches _) _)
  · rw [height_of_ge advancing beyond, height_of_ge advancing' (by rwa [same_width])]
    exact rise_le

/-- A concave diagram is a concave function, as the lowest of its lines. -/
theorem Concave.concaveOn (concave : Concave steps) (advancing : Advancing steps) :
    ConcaveOn K (Set.Icc 0 (steps.map Step.width).sum) (height steps) := by
  refine ⟨convex_Icc _ _, ?_⟩
  intro x x_mem y y_mem a b a_nonneg b_nonneg whole
  obtain ⟨nonneg, within⟩ := convex_Icc _ _ x_mem y_mem a_nonneg b_nonneg whole
  obtain ⟨slope, touches⟩ := concave.touches advancing nonneg within
  have x_le := height_le_line advancing x_mem.1 x_mem.2 slope
  have y_le := height_le_line advancing y_mem.1 y_mem.2 slope
  rw [touches]
  simp only [smul_eq_mul]
  calc a * height steps x + b * height steps y
      ≤ a * (slope * x + reach slope steps) + b * (slope * y + reach slope steps) := by gcongr
    _ = slope * (a * x + b * y) + (a + b) * reach slope steps := by ring
    _ = slope * (a * x + b * y) + reach slope steps := by rw [whole, one_mul]

/-- A concave function that is nowhere below the corners is nowhere below the diagram. -/
theorem height_le_of_concaveOn {bound : K → K} (advancing : Advancing steps)
    (concave : ConcaveOn K (Set.Icc 0 (steps.map Step.width).sum) bound)
    (corners : ∀ front, front <+: steps →
      (front.map Step.rise).sum ≤ bound (front.map Step.width).sum)
    (nonneg : 0 ≤ x) (within : x ≤ (steps.map Step.width).sum) :
    height steps x ≤ bound x := by
  induction steps generalizing bound x with
  | nil =>
    have origin := corners [] prefix_rfl
    rw [map_nil, sum_nil] at within
    rwa [le_antisymm within nonneg]
  | cons step rest ih =>
    have wide := advancing.head
    have rest_nonneg := advancing.tail.width_nonneg
    rw [map_cons, sum_cons] at within concave
    rcases le_total x step.width with isIn | beyond
    · have origin : 0 ≤ bound 0 := corners [] nil_prefix
      have first : step.rise ≤ bound step.width := by
        simpa using corners [step] ⟨rest, rfl⟩
      have ratio_le : x / step.width ≤ 1 := (div_le_one wide).mpr isIn
      have above := concave.2 ⟨le_rfl, by linarith⟩ ⟨wide.le, by linarith⟩
        (sub_nonneg.mpr ratio_le) (div_nonneg nonneg wide.le) (sub_add_cancel 1 _)
      simp only [smul_eq_mul, mul_zero, zero_add, div_mul_cancel₀ x wide.ne'] at above
      rw [height_cons_of_le isIn, mul_comm, mul_div_right_comm]
      have part := mul_le_mul_of_nonneg_left first (div_nonneg nonneg wide.le)
      have start := mul_nonneg (sub_nonneg.mpr ratio_le) origin
      linarith
    · have moved : ConcaveOn K (Set.Icc 0 (rest.map Step.width).sum)
          fun y => bound (y + step.width) + -step.rise := by
        refine ((concave.translate_left step.width).add_const (-step.rise)).subset ?_ (convex_Icc _ _)
        intro y mem
        exact ⟨add_nonneg wide.le mem.1, by linarith [mem.2]⟩
      have later := ih advancing.tail moved (fun front is_front => by
        have corner := corners (step :: front) ((prefix_cons_inj step).mpr is_front)
        rw [map_cons, sum_cons, map_cons, sum_cons, add_comm step.width] at corner
        linarith) (sub_nonneg.mpr beyond) (by linarith)
      rw [height_cons_of_ge advancing beyond]
      rw [sub_add_cancel] at later
      linarith

end StepDiagram
