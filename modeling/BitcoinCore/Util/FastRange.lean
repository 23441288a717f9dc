import Mathlib

/-!
# Hashes in a range

A hash is mapped into a range by the upper bits of its product with the size of the range.
-/

namespace BitcoinCore

/-- Map a hash of 32 bits into a range. -/
def fastRange32 (x : UInt32) (n : ℕ) : ℕ := x.toNat * n / 2 ^ 32

theorem fastRange32_lt (x : UInt32) {n : ℕ} (pos : 0 < n) : fastRange32 x n < n := by
  rw [fastRange32, Nat.div_lt_iff_lt_mul (by decide), Nat.mul_comm]
  exact Nat.mul_lt_mul_of_pos_left x.toNat_lt pos

/-- Map a hash of 64 bits into a range. -/
def fastRange64 (x n : ℕ) : ℕ := (x * n) >>> 64

end BitcoinCore
