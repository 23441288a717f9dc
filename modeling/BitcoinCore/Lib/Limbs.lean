import Mathlib

/-!
# Numbers as words

A number is stored as a list of words of a fixed width, the lowest one first. A bit of the
number is a bit of one of the words (`testBit_value`), so a loop that moves the bits of every
word moves the bits of the number (`bit_moved`).
-/

namespace Limbs

open List

variable {width : ℕ}

/-- The number that the lowest words stand for. -/
def value (words : List (BitVec width)) : ℕ → ℕ
  | 0 => 0
  | count + 1 => 2 ^ (width * count) * (words.getD count 0).toNat + value words count

/-- A bit of the number. -/
def bit (words : List (BitVec width)) (place : ℕ) : Bool :=
  (words.getD (place / width) 0).getLsbD (place % width)

/-- Set the bits of a word in one of the words. -/
def orAt (words : List (BitVec width)) (idx : ℕ) (word : BitVec width) : List (BitVec width) :=
  words.modify idx (· ||| word)

variable {words : List (BitVec width)} {place : ℕ}

theorem value_lt (words : List (BitVec width)) (count : ℕ) :
    value words count < 2 ^ (width * count) := by
  induction count with
  | zero => simp [value]
  | succ count ih =>
    have top := (words.getD count 0).isLt
    rw [value, Nat.mul_succ, pow_add]
    calc 2 ^ (width * count) * (words.getD count 0).toNat + value words count
        < 2 ^ (width * count) * ((words.getD count 0).toNat + 1) := by rw [Nat.mul_succ]; omega
      _ ≤ 2 ^ (width * count) * 2 ^ width := Nat.mul_le_mul_left _ top

theorem testBit_value (pos : 0 < width) (count : ℕ) :
    (value words count).testBit place = (decide (place < width * count) && bit words place) := by
  induction count with
  | zero => simp [value]
  | succ count ih =>
    rw [value, Nat.testBit_two_pow_mul_add _ (value_lt words count), ih, BitVec.testBit_toNat]
    split_ifs with low
    · have below : place < width * (count + 1) := by rw [Nat.mul_succ]; omega
      rw [decide_eq_true low, decide_eq_true below]
    · by_cases below : place < width * (count + 1)
      · rw [Nat.mul_succ] at below
        have quotient : place / width = count :=
          Nat.div_eq_of_lt_le (by rw [mul_comm]; omega) (by rw [mul_comm, Nat.mul_succ]; omega)
        have remainder := Nat.div_add_mod place width
        rw [quotient] at remainder
        rw [decide_eq_true (by rw [Nat.mul_succ]; omega), Bool.true_and, bit, quotient]
        congr 1
        omega
      · rw [decide_eq_false below, Bool.false_and]
        rw [Nat.mul_succ] at below
        exact BitVec.getLsbD_of_ge _ _ (by omega)

theorem lt_of_bit (isSet : bit words place) : place < width * words.length := by
  by_contra outside
  have high : words.length ≤ place / width := by
    rcases Nat.eq_zero_or_pos width with rfl | pos
    · simp [bit] at isSet
    · rwa [Nat.le_div_iff_mul_le pos, mul_comm, ← not_lt]
  rw [bit, getD_eq_default _ _ high] at isSet
  simp at isSet

/-- A write under a condition. -/
theorem bit_orAt {idx : ℕ} {cond : Prop} [Decidable cond] (inside : cond → idx < words.length)
    (word : BitVec width) : (if cond then orAt words idx word else words).length = words.length ∧
      bit (if cond then orAt words idx word else words) place =
        (bit words place || (decide (cond ∧ place / width = idx) && word.getLsbD (place % width))) := by
  split_ifs with holds
  · refine ⟨length_modify _ _ _, ?_⟩
    simp only [bit, orAt, getD_eq_getElem?_getD, getElem?_modify]
    by_cases here : idx = place / width
    · subst here
      simp [getElem?_eq_getElem (inside holds), holds]
    · simp [here, Ne.symm here]
  · simp [holds]

/-- Two writes. -/
theorem bit_orAt_orAt {upper lower : Prop} [Decidable upper] [Decidable lower] {high low : ℕ}
    (inHigh : upper → high < words.length) (inLow : lower → low < words.length)
    (highWord lowWord : BitVec width) (place : ℕ) :
    let target := if upper then orAt words high highWord else words
    let final := if lower then orAt target low lowWord else target
    final.length = words.length ∧ (bit final place ↔ bit words place ∨
      (upper ∧ place / width = high) ∧ highWord.getLsbD (place % width) ∨
      (lower ∧ place / width = low) ∧ lowWord.getLsbD (place % width)) := by
  intro target final
  obtain ⟨length, first⟩ : target.length = _ ∧ bit target place = _ := bit_orAt inHigh highWord
  obtain ⟨length', second⟩ : final.length = _ ∧ bit final place = _ :=
    bit_orAt (fun holds => length ▸ inLow holds) lowWord
  refine ⟨length'.trans length, ?_⟩
  rw [second, first]
  simp [or_assoc]

/-- A loop over the words of a number, the rounds of which move a bit to a place if the word
has it. -/
theorem bit_moved {step : List (BitVec width) → ℕ → List (BitVec width)} {source : ℕ}
    {moves : Prop} (spec : ∀ target, ∀ idx < words.length, target.length = words.length →
      (step target idx).length = words.length ∧ (bit (step target idx) place ↔ bit target place ∨
        moves ∧ source / width = idx ∧ bit words source)) :
    ((range words.length).foldl step (replicate words.length 0)).length = words.length ∧
      (bit ((range words.length).foldl step (replicate words.length 0)) place ↔
        moves ∧ bit words source) := by
  have rounds : ∀ idxs target, (∀ idx ∈ idxs, idx < words.length) →
      target.length = words.length → (foldl step target idxs).length = words.length ∧ (bit (foldl step target idxs) place ↔
        bit target place ∨ moves ∧ source / width ∈ idxs ∧ bit words source) := by
    intro idxs
    induction idxs with
    | nil => simp
    | cons idx idxs ih =>
      intro target inside length
      rw [forall_mem_cons] at inside
      obtain ⟨length', sets⟩ := spec target idx inside.1 length
      obtain ⟨length'', later⟩ := ih _ inside.2 length'
      refine ⟨length'', later.trans ?_⟩
      rw [sets, mem_cons]
      tauto
  obtain ⟨length, moved⟩ := rounds (range words.length) (replicate words.length 0)
    (fun _ => mem_range.mp) length_replicate
  refine ⟨length, moved.trans ?_⟩
  have zero : bit (replicate words.length (0 : BitVec width)) place = false := by
    rw [bit, getD_eq_getElem?_getD, getElem?_replicate]
    split_ifs <;> simp
  have inside : bit words source → source / width < words.length := fun isSet =>
    Nat.div_lt_of_lt_mul (lt_of_bit isSet)
  rw [zero, mem_range]
  tauto

end Limbs
