import Mathlib

/-!
# Digits in base two

The lowest digits of a number, most significant first, and the number that digits
stand for. Digits are taken in two parts (`digits_add`), agree when the bits agree
(`digits_congr`), and give the number back modulo a power of two (`value_digits`).

A number is written as its quotient by a power of two, in unary, followed by the
digits of the remainder (`riceCode`).
-/

namespace BitDigits

open List

variable (bits : List Bool)

def digits : ℕ → ℕ → List Bool
  | 0, _ => []
  | count + 1, num => num.testBit count :: digits count num

def value : ℕ := bits.foldl (fun num bit => 2 * num + bit.toNat) 0

@[simp] theorem length_digits (count num : ℕ) : (digits count num).length = count := by
  induction count with
  | zero => rfl
  | succ count ih => rw [digits, length_cons, ih]

/-- Digits come in two parts. -/
theorem digits_add (high low num : ℕ) :
    digits (high + low) num = digits high (num >>> low) ++ digits low num := by
  induction high with
  | zero => rw [Nat.zero_add, digits, nil_append]
  | succ high ih =>
    rw [Nat.add_right_comm, digits, digits, ih, Nat.testBit_shiftRight, Nat.add_comm low high,
      cons_append]

theorem digits_split {count high : ℕ} (bound : high ≤ count) (num : ℕ) : digits count num =
      digits high (num >>> (count - high)) ++ digits (count - high) num := by
  rw [← digits_add, Nat.add_sub_cancel' bound]

theorem digits_congr {count num other : ℕ}
    (same : ∀ place < count, num.testBit place = other.testBit place) :
    digits count num = digits count other := by
  induction count with
  | zero => rfl
  | succ count ih =>
    rw [digits, digits, same count (Nat.lt_succ_self count)]
    rw [ih fun place bound => same place (Nat.lt_succ_of_lt bound)]

theorem digits_ones {count num : ℕ} (ones : ∀ place < count, num.testBit place) :
    digits count num = List.replicate count true := by
  induction count with
  | zero => rfl
  | succ count ih =>
    rw [digits, ones count (Nat.lt_succ_self count), replicate_succ]
    rw [ih fun place bound => ones place (Nat.lt_succ_of_lt bound)]

theorem digits_zeros (count : ℕ) : digits count 0 = List.replicate count false := by
  induction count with
  | zero => rfl
  | succ count ih => rw [digits, Nat.zero_testBit, ih, replicate_succ]

theorem foldl_value (num : ℕ) : bits.foldl (fun num bit => 2 * num + bit.toNat) num =
      num * 2 ^ bits.length + value bits := by
  induction bits generalizing num with
  | nil => simp [value]
  | cons bit bits ih =>
    rw [value, foldl_cons, foldl_cons, ih, ih, length_cons, Nat.pow_succ']
    rw [Nat.mul_zero, Nat.zero_add, Nat.add_mul, Nat.add_assoc, Nat.mul_comm 2 num, Nat.mul_assoc]

theorem value_append (first second : List Bool) :
    value (first ++ second) = value first * 2 ^ second.length + value second := by
  rw [value, foldl_append, foldl_value]
  rfl

theorem value_cons (bit : Bool) (bits : List Bool) :
    value (bit :: bits) = bit.toNat * 2 ^ bits.length + value bits := by
  rw [← singleton_append, value_append]
  simp [value]

/-- The digits of a number give it back as far as they go. -/
theorem value_digits (count num : ℕ) : value (digits count num) = num % 2 ^ count := by
  induction count with
  | zero => simp [digits, value, Nat.mod_one]
  | succ count ih =>
    rw [digits, value_cons, ih, length_digits, Nat.toNat_testBit, Nat.mod_pow_succ,
      Nat.add_comm, Nat.mul_comm]

theorem value_lt : value bits < 2 ^ bits.length := by
  induction bits with
  | nil => simp [value]
  | cons bit bits ih =>
    rw [value_cons, length_cons, Nat.pow_succ']
    have small : bit.toNat ≤ 1 := Bool.toNat_le bit
    have most : bit.toNat * 2 ^ bits.length ≤ 1 * 2 ^ bits.length := Nat.mul_le_mul_right _ small
    omega

/-- A number with its quotient by `2 ^ parameter` in unary and the remainder in
digits. -/
def riceCode (parameter num : ℕ) : List Bool :=
  List.replicate (num >>> parameter) true ++ false :: digits parameter num

end BitDigits
