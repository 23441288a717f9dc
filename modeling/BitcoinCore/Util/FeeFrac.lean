import BitcoinCore.Lib.StepDiagram

/-!
# Fees per size

A `FeeFrac` is a fee together with a size. Two of them are compared by feerate through
the cross products of fee and size, without a division; where the sizes are positive this
compares the quotients (`higher_iff`).

Chunks, one after the other, draw the feerate diagram (`feerateDiagram`): the fee that is
collected at every size, with each chunk a straight line.
-/

namespace BitcoinCore

open StepDiagram List Step

@[ext]
structure FeeFrac where
  fee : ℤ
  size : ℤ
  deriving DecidableEq, Repr

namespace FeeFrac

variable (chunks : List FeeFrac)

instance : Zero FeeFrac := ⟨⟨0, 0⟩⟩

instance : Add FeeFrac := ⟨fun a b => ⟨a.fee + b.fee, a.size + b.size⟩⟩

instance : Sub FeeFrac := ⟨fun a b => ⟨a.fee - b.fee, a.size - b.size⟩⟩

@[simp] theorem zero_fee : (0 : FeeFrac).fee = 0 := rfl
@[simp] theorem zero_size : (0 : FeeFrac).size = 0 := rfl
@[simp] theorem add_fee (a b : FeeFrac) : (a + b).fee = a.fee + b.fee := rfl
@[simp] theorem add_size (a b : FeeFrac) : (a + b).size = a.size + b.size := rfl

instance : AddCommMonoid FeeFrac where
  add_assoc a b c := FeeFrac.ext (add_assoc _ _ _) (add_assoc _ _ _)
  zero_add a := FeeFrac.ext (zero_add _) (zero_add _)
  add_zero a := FeeFrac.ext (add_zero _) (add_zero _)
  add_comm a b := FeeFrac.ext (add_comm _ _) (add_comm _ _)
  nsmul := nsmulRec

theorem sum_fee : chunks.sum.fee = (chunks.map fee).sum :=
  map_list_sum (⟨⟨fee, rfl⟩, add_fee⟩ : FeeFrac →+ ℤ) chunks

theorem sum_size : chunks.sum.size = (chunks.map size).sum :=
  map_list_sum (⟨⟨size, rfl⟩, add_size⟩ : FeeFrac →+ ℤ) chunks

theorem sum_concat (chunk : FeeFrac) : (chunks ++ [chunk]).sum = chunks.sum + chunk := by
  rw [sum_append, sum_singleton]

/-- The product of a 64-bit fee and a 32-bit size, which 128 bits always hold. -/
def mul (fee size : ℤ) : ℤ := fee * size

def feeRateCompare (a b : FeeFrac) : Ordering := compare (mul a.fee b.size) (mul b.fee a.size)

def lower (a b : FeeFrac) : Bool := mul a.fee b.size < mul b.fee a.size

def higher (a b : FeeFrac) : Bool := mul a.fee b.size > mul b.fee a.size

def step (chunk : FeeFrac) : Step ℝ := ⟨chunk.size, chunk.fee⟩

@[simp] theorem step_width (a : FeeFrac) : a.step.width = a.size := rfl
@[simp] theorem step_rise (a : FeeFrac) : a.step.rise = a.fee := rfl

@[simp] theorem step_zero : (0 : FeeFrac).step = 0 := Step.ext Int.cast_zero Int.cast_zero

@[simp] theorem step_add (a b : FeeFrac) : (a + b).step = a.step + b.step :=
  Step.ext (Int.cast_add _ _) (Int.cast_add _ _)

theorem step_sum : chunks.sum.step = (chunks.map step).sum :=
  map_list_sum (⟨⟨step, step_zero⟩, step_add⟩ : FeeFrac →+ Step ℝ) chunks

theorem widths_step : ((chunks.map step).map width).sum = (chunks.sum.size : ℝ) := by
  simp only [sum_size, Int.cast_list_sum, map_map]
  rfl

theorem rises_step : ((chunks.map step).map rise).sum = (chunks.sum.fee : ℝ) := by
  simp only [sum_fee, Int.cast_list_sum, map_map]
  rfl

noncomputable def rate (a : FeeFrac) : ℝ := a.step.slope

/-- Cross products compare the feerates. -/
theorem higher_iff {a b : FeeFrac} (a_pos : 0 < a.size) (b_pos : 0 < b.size) :
    a.higher b ↔ b.rate < a.rate := by
  have a_wide : 0 < a.step.width := Int.cast_pos.mpr a_pos
  have b_wide : 0 < b.step.width := Int.cast_pos.mpr b_pos
  rw [higher, decide_eq_true_iff, rate, rate, Step.slope, Step.slope, div_lt_div_iff₀ b_wide a_wide,
    step_width, step_width, step_rise, step_rise]
  exact_mod_cast Iff.rfl

end FeeFrac

/-- The feerate diagram of chunks: the fee at every real size. -/
noncomputable def feerateDiagram (chunks : List FeeFrac) (size : ℝ) : ℝ :=
  height (chunks.map FeeFrac.step) size

end BitcoinCore
