import BitcoinCore.Lib.Limbs

/-!
# The limbs of 256-bit numbers

`base_uint` stores a number in limbs of 32 bits. The loops of the shift operators write, for
every limb, the two parts of it that come to lie in different limbs, and `bits` looks for the
highest bit from the highest limb down.

In terms of the number these are the shifts (`toNat_shiftLeft`, `toNat_shiftRight`) and the
length in binary (`bits_eq`).
-/

namespace BitcoinCore.ArithUint256

open Limbs

/-- `base_uint<256>`, the lowest limb first. -/
structure BaseUint where
  pn : List (BitVec 32)
  length_pn : pn.length = 8

/-! ## The source -/

section

variable (a : List (BitVec 32)) (shift : ℕ)

/-- A round of `operator<<=`, by `k` limbs and `shift` bits. -/
def shiftLeftRound (k : ℕ) (pn : List (BitVec 32)) (i : ℕ) : List (BitVec 32) :=
  let pn := if i + k + 1 < a.length ∧ shift ≠ 0 then
      orAt pn (i + k + 1) (a.getD i 0 >>> (32 - shift))
    else pn
  if i + k < a.length then orAt pn (i + k) (a.getD i 0 <<< shift) else pn

/-- A round of `operator>>=`, by `k` limbs and `shift` bits. -/
def shiftRightRound (k : ℕ) (pn : List (BitVec 32)) (i : ℕ) : List (BitVec 32) :=
  let pn := if k + 1 ≤ i ∧ shift ≠ 0 then
      orAt pn (i - k - 1) (a.getD i 0 <<< (32 - shift))
    else pn
  if k ≤ i then orAt pn (i - k) (a.getD i 0 >>> shift) else pn

/-- The loop of `operator<<=`. -/
def shiftLeftLimbs : List (BitVec 32) :=
  (List.range a.length).foldl (shiftLeftRound a (shift % 32) (shift / 32))
    (List.replicate a.length 0)

/-- The loop of `operator>>=`. -/
def shiftRightLimbs : List (BitVec 32) :=
  (List.range a.length).foldl (shiftRightRound a (shift % 32) (shift / 32))
    (List.replicate a.length 0)

end

/-- The inner loop of `bits`, from a bit of a limb down. -/
def topBit (limb : BitVec 32) : ℕ → ℕ
  | 0 => 1
  | nbits + 1 => if limb &&& 1#32 <<< (nbits + 1) ≠ 0 then nbits + 2 else topBit limb nbits

/-- The outer loop of `bits`, over the limbs below one. -/
def bitsLoop (pn : List (BitVec 32)) : ℕ → ℕ
  | 0 => 0
  | pos + 1 =>
    if pn.getD pos 0 ≠ 0 then 32 * pos + topBit (pn.getD pos 0) 31 else bitsLoop pn pos

/-! ## Bits -/

variable {a : List (BitVec 32)}

theorem bit_shiftLeftLimbs (total : ℕ) {place : ℕ} (inside : place < 32 * a.length) :
    (shiftLeftLimbs a total).length = a.length ∧
      (bit (shiftLeftLimbs a total) place ↔ total ≤ place ∧ bit a (place - total)) := by
  refine bit_moved fun target idx within length => ?_
  obtain ⟨length', sets⟩ := bit_orAt_orAt
    (fun both : idx + total / 32 + 1 < a.length ∧ total % 32 ≠ 0 => length ▸ both.1)
    (fun below : idx + total / 32 < a.length => length ▸ below)
    (a.getD idx 0 >>> (32 - total % 32)) (a.getD idx 0 <<< (total % 32)) place
  refine ⟨length'.trans length, sets.trans (or_congr_right ?_)⟩
  simp only [BitVec.getLsbD_ushiftRight, BitVec.getLsbD_shiftLeft, Bool.and_eq_true,
    Bool.not_eq_true', decide_eq_true_eq, decide_eq_false_iff_not, bit]
  constructor
  · rintro (⟨⟨_, here⟩, isSet⟩ | ⟨⟨_, here⟩, _, isSet⟩)
    · have fits := BitVec.lt_of_getLsbD isSet
      refine ⟨by omega, by omega, ?_⟩
      rwa [show (place - total) / 32 = idx by omega,
        show (place - total) % 32 = 32 - total % 32 + place % 32 by omega]
    · refine ⟨by omega, by omega, ?_⟩
      rwa [show (place - total) / 32 = idx by omega,
        show (place - total) % 32 = place % 32 - total % 32 by omega]
  · rintro ⟨above, rfl, isSet⟩
    by_cases low : place % 32 < total % 32
    · rw [show (place - total) % 32 = 32 - total % 32 + place % 32 by omega] at isSet
      exact .inl ⟨⟨⟨by omega, by omega⟩, by omega⟩, isSet⟩
    · rw [show (place - total) % 32 = place % 32 - total % 32 by omega] at isSet
      exact .inr ⟨⟨by omega, by omega⟩, ⟨by omega, low⟩, isSet⟩

theorem bit_shiftRightLimbs (total place : ℕ) : (shiftRightLimbs a total).length = a.length ∧
      (bit (shiftRightLimbs a total) place ↔ True ∧ bit a (place + total)) := by
  refine bit_moved fun target idx within length => ?_
  obtain ⟨length', sets⟩ := bit_orAt_orAt
    (fun both : total / 32 + 1 ≤ idx ∧ total % 32 ≠ 0 =>
      (by omega : idx - total / 32 - 1 < target.length))
    (fun below : total / 32 ≤ idx => (by omega : idx - total / 32 < target.length))
    (a.getD idx 0 <<< (32 - total % 32)) (a.getD idx 0 >>> (total % 32)) place
  refine ⟨length'.trans length, sets.trans (or_congr_right ?_)⟩
  simp only [BitVec.getLsbD_ushiftRight, BitVec.getLsbD_shiftLeft, Bool.and_eq_true,
    Bool.not_eq_true', decide_eq_true_eq, decide_eq_false_iff_not, bit]
  constructor
  · rintro (⟨⟨_, here⟩, _, isSet⟩ | ⟨⟨_, here⟩, isSet⟩)
    · refine ⟨trivial, by omega, ?_⟩
      rwa [show (place + total) / 32 = idx by omega,
        show (place + total) % 32 = place % 32 - (32 - total % 32) by omega]
    · have fits := BitVec.lt_of_getLsbD isSet
      refine ⟨trivial, by omega, ?_⟩
      rwa [show (place + total) / 32 = idx by omega,
        show (place + total) % 32 = total % 32 + place % 32 by omega]
  · rintro ⟨-, rfl, isSet⟩
    by_cases low : total % 32 + place % 32 < 32
    · rw [show (place + total) % 32 = total % 32 + place % 32 by omega] at isSet
      exact .inr ⟨⟨by omega, by omega⟩, isSet⟩
    · rw [show (place + total) % 32 = place % 32 - (32 - total % 32) by omega] at isSet
      exact .inl ⟨⟨⟨by omega, by omega⟩, by omega⟩, ⟨by omega, by omega⟩, isSet⟩

/-! ## The number -/

theorem and_twoPow_ne_zero {word : BitVec 32} {place : ℕ} (few : place < 32) :
    word &&& BitVec.twoPow 32 place ≠ 0 ↔ word.getLsbD place := by
  rw [BitVec.and_twoPow]
  split_ifs with isSet
  · refine iff_of_true (fun zero => ?_) isSet
    have bit := congrArg (BitVec.getLsbD · place) zero
    simp [few] at bit
  · simp [isSet]

theorem topBit_eq {limb : BitVec 32} (ne : limb ≠ 0) {nbits : ℕ} (few : nbits < 32)
    (fits : limb.toNat < 2 ^ (nbits + 1)) : topBit limb nbits = limb.toNat.size := by
  have pos : 0 < limb.toNat := Nat.pos_of_ne_zero fun zero => ne (BitVec.eq_of_toNat_eq zero)
  induction nbits with
  | zero => rw [topBit, show limb.toNat = 1 by omega, Nat.size_one]
  | succ nbits ih =>
    rw [topBit]
    simp only [← BitVec.twoPow_eq, and_twoPow_ne_zero few, ← BitVec.testBit_toNat]
    split_ifs with high
    · exact le_antisymm (Nat.lt_size.mpr (Nat.ge_two_pow_of_testBit high)) (Nat.size_le.mpr fits)
    · exact ih (by omega) (not_le.mp fun le =>
        high (Nat.testBit_of_two_pow_le_and_two_pow_add_one_gt le fits))

theorem bitsLoop_eq (pn : List (BitVec 32)) (count : ℕ) :
    bitsLoop pn count = (value pn count).size := by
  induction count with
  | zero => simp [bitsLoop, value]
  | succ count ih =>
    rw [bitsLoop, value]
    have low := value_lt pn count
    generalize pn.getD count 0 = limb
    split_ifs with ne
    · rw [topBit_eq ne (by decide) limb.isLt]
      have pos : 0 < limb.toNat.size :=
        Nat.size_pos.mpr (Nat.pos_of_ne_zero fun zero => ne (BitVec.eq_of_toNat_eq zero))
      apply le_antisymm
      · have least : 2 ^ (limb.toNat.size - 1) ≤ limb.toNat := Nat.lt_size.mp (by omega)
        have scaled := Nat.mul_le_mul_left (2 ^ (32 * count)) least
        rw [← pow_add] at scaled
        have above := Nat.lt_size.mpr (scaled.trans (Nat.le_add_right _ (value pn count)))
        omega
      · have most := Nat.mul_le_mul_left (2 ^ (32 * count)) (Nat.size_le.mp (le_refl limb.toNat.size))
        rw [← pow_add, Nat.mul_succ] at most
        exact Nat.size_le.mpr (by omega)
    · rw [not_ne_iff.mp ne, ih]
      simp

namespace BaseUint

variable (x : BaseUint) (shift : ℕ)

/-- The number that the limbs stand for. -/
def toNat : ℕ := value x.pn 8

def shiftLeft : BaseUint where
  pn := shiftLeftLimbs x.pn shift
  length_pn := (bit_shiftLeftLimbs shift (by rw [x.length_pn]; decide : 0 < _)).1.trans x.length_pn

def shiftRight : BaseUint where
  pn := shiftRightLimbs x.pn shift
  length_pn := (bit_shiftRightLimbs shift 0).1.trans x.length_pn

def bits : ℕ := bitsLoop x.pn 8

def getLow64 : BitVec 64 :=
  (x.pn.getD 0 0).setWidth 64 ||| (x.pn.getD 1 0).setWidth 64 <<< 32

theorem toNat_lt : x.toNat < 2 ^ 256 := value_lt x.pn 8

theorem bits_eq : x.bits = x.toNat.size := bitsLoop_eq x.pn 8

theorem toNat_shiftLeft : (x.shiftLeft shift).toNat = (x.toNat <<< shift) % 2 ^ 256 := by
  refine Nat.eq_of_testBit_eq fun place => ?_
  rw [toNat, toNat, testBit_value (by decide), Nat.testBit_mod_two_pow, Nat.testBit_shiftLeft,
    testBit_value (by decide), shiftLeft]
  by_cases inside : place < 32 * 8
  · have sets := (bit_shiftLeftLimbs shift (x.length_pn.symm ▸ inside)).2
    have below : place - shift < 32 * 8 := by omega
    rw [Bool.eq_iff_iff, decide_eq_true below]
    simpa [inside] using sets
  · simp [inside]

theorem toNat_shiftRight : (x.shiftRight shift).toNat = x.toNat >>> shift := by
  refine Nat.eq_of_testBit_eq fun place => ?_
  have sets := (@bit_shiftRightLimbs x.pn shift place).2
  rw [true_and, add_comm place] at sets
  rw [toNat, toNat, testBit_value (by decide), Nat.testBit_shiftRight, testBit_value (by decide),
    shiftRight, Bool.eq_iff_iff]
  simp only [Bool.and_eq_true, decide_eq_true_eq, sets, and_congr_left_iff]
  intro isSet
  have inside := lt_of_bit isSet
  rw [x.length_pn] at inside
  omega

theorem toNat_getLow64 : x.getLow64.toNat = x.toNat % 2 ^ 64 := by
  refine Nat.eq_of_testBit_eq fun place => ?_
  rw [Nat.testBit_mod_two_pow, toNat, testBit_value (by decide), BitVec.testBit_toNat, getLow64,
    BitVec.getLsbD_or, BitVec.getLsbD_shiftLeft, BitVec.getLsbD_setWidth, BitVec.getLsbD_setWidth,
    bit]
  rcases lt_or_ge place 32 with low | high
  · rw [Nat.div_eq_of_lt low, Nat.mod_eq_of_lt low]
    simp [low, show place < 64 by omega, show place < 256 by omega]
  · rcases lt_or_ge place 64 with second | outside
    · rw [show place / 32 = 1 by omega, show place % 32 = place - 32 by omega,
        BitVec.getLsbD_of_ge _ _ high]
      simp [second, not_lt.mpr high, show place < 256 by omega, show place - 32 < 64 by omega]
    · simp [not_lt.mpr outside]

end BaseUint

end BitcoinCore.ArithUint256
