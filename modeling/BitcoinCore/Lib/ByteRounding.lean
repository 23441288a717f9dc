import Mathlib

/-!
# Rounding to leading bytes

A number is rounded down by clearing its low bytes, so that only some leading
ones are kept. How many bytes are cleared depends on the length of the number in
bits, so numbers of different lengths are rounded to different multiples.

Rounding is monotone (`roundDown_mono`): where the cleared part grows, the larger
number is at least a power of two that rounding does not touch.
-/

namespace ByteRounding

variable (kept : ℕ)

def cleared (num : ℕ) : ℕ := num.size / 8 - kept

def roundDown (num : ℕ) : ℕ := num / 256 ^ cleared kept num * 256 ^ cleared kept num

theorem roundDown_le (num : ℕ) : roundDown kept num ≤ num := Nat.div_mul_le_self _ _

theorem cleared_mono {lower upper : ℕ} (le : lower ≤ upper) :
    cleared kept lower ≤ cleared kept upper :=
  Nat.sub_le_sub_right (Nat.div_le_div_right (Nat.size_le_size le)) kept

/-- A multiple of the cleared part that does not exceed the number does not exceed
the rounded number. -/
theorem le_roundDown_of_dvd {multiple num : ℕ} (divides : 256 ^ cleared kept num ∣ multiple)
    (le : multiple ≤ num) : multiple ≤ roundDown kept num := by
  obtain ⟨quotient, rfl⟩ := divides
  have pos : 0 < 256 ^ cleared kept num := Nat.pow_pos (by decide)
  rw [roundDown, Nat.mul_comm]
  refine Nat.mul_le_mul_right _ ?_
  rw [Nat.le_div_iff_mul_le pos, Nat.mul_comm]
  exact le

variable {kept}

theorem two_pow_dvd {num bits : ℕ} (fewer : 8 * cleared kept num ≤ bits) :
    256 ^ cleared kept num ∣ 2 ^ bits := by
  rw [show 256 = 2 ^ 8 by decide, ← Nat.pow_mul]
  exact Nat.pow_dvd_pow 2 fewer

/-- Rounding to leading bytes is monotone. -/
theorem roundDown_mono (some : 0 < kept) {lower upper : ℕ} (le : lower ≤ upper) :
    roundDown kept lower ≤ roundDown kept upper := by
  rcases (cleared_mono kept le).lt_or_eq with fewer | same
  · -- The lengths differ, and a power of two lies between the numbers.
    have lengths : lower.size / 8 < upper.size / 8 := by
      rw [cleared, cleared] at fewer
      omega
    have lowerLt : lower < 2 ^ (8 * (upper.size / 8) - 1) := by
      rw [← Nat.size_le]
      omega
    have upperGe : 2 ^ (8 * (upper.size / 8) - 1) ≤ upper := by
      rw [← Nat.lt_size]
      omega
    have divides : 256 ^ cleared kept upper ∣ 2 ^ (8 * (upper.size / 8) - 1) :=
      two_pow_dvd (by rw [cleared]; omega)
    exact (roundDown_le kept lower).trans
      (lowerLt.le.trans (le_roundDown_of_dvd kept divides upperGe))
  · rw [roundDown, roundDown, same]
    exact Nat.mul_le_mul_right _ (Nat.div_le_div_right le)

/-- Rounding keeps the length in bits, as long as a byte is kept. -/
theorem size_roundDown (some : 0 < kept) (num : ℕ) : (roundDown kept num).size = num.size := by
  apply Nat.le_antisymm (Nat.size_le_size (roundDown_le kept num))
  rcases Nat.eq_zero_or_pos num with rfl | pos
  · simp
  · have size : 0 < num.size := Nat.size_pos.mpr pos
    have top : 2 ^ (num.size - 1) ≤ num := by
      rw [← Nat.lt_size]
      omega
    have kept := le_roundDown_of_dvd kept (two_pow_dvd (by rw [cleared]; omega)) top
    rw [← Nat.lt_size] at kept
    omega

/-- What is left of a number without the cleared bytes. -/
theorem roundDown_div (kept num : ℕ) :
    roundDown kept num / 256 ^ cleared kept num = num / 256 ^ cleared kept num :=
  Nat.mul_div_cancel _ (Nat.pow_pos (by decide))

theorem div_lt (kept num : ℕ) : num / 256 ^ cleared kept num < 2 ^ (8 * kept + 7) := by
  have below : num < 2 ^ num.size := Nat.lt_size_self num
  rw [Nat.div_lt_iff_lt_mul (Nat.pow_pos (by decide)), show 256 = 2 ^ 8 by decide, ← Nat.pow_mul,
    ← Nat.pow_add]
  refine below.trans_le (Nat.pow_le_pow_right (by decide) ?_)
  rw [cleared]
  omega

/-- Rounding finds the largest number below with so few leading bits and bytes of zeros. -/
theorem le_roundDown (some : 0 < kept) {leading zeros num : ℕ}
    (few : leading < 2 ^ (8 * kept + 7)) (le : leading * 256 ^ zeros ≤ num) :
    leading * 256 ^ zeros ≤ roundDown kept num := by
  rcases Nat.lt_or_ge zeros (cleared kept num) with fewer | enough
  · -- The number is longer than any such number, so a power of two lies between.
    have longer : leading * 256 ^ zeros < 2 ^ (8 * (kept + zeros) + 7) := by
      rw [show 256 = 2 ^ 8 by decide, ← Nat.pow_mul,
        show 8 * (kept + zeros) + 7 = 8 * kept + 7 + 8 * zeros by omega, Nat.pow_add]
      exact Nat.mul_lt_mul_of_pos_right few (Nat.two_pow_pos _)
    rw [cleared] at fewer
    have between : 2 ^ (num.size - 1) ≤ num := by
      rw [← Nat.lt_size]
      omega
    have rounded := le_roundDown_of_dvd kept (two_pow_dvd (by rw [cleared]; omega)) between
    refine longer.le.trans (le_trans (Nat.pow_le_pow_right (by decide) ?_) rounded)
    omega
  · exact le_roundDown_of_dvd kept ((pow_dvd_pow 256 enough).mul_left leading) le

end ByteRounding
