import BitcoinCore.ArithUint256.BaseUint
import BitcoinCore.Lib.ByteRounding

/-!
# 256-bit numbers and their compact form

A difficulty target is a 256-bit number. Headers carry it in a compact form of 32
bits: a number of bytes and the three leading bytes, the highest bit of which
is a sign.

`getCompact` keeps two bytes and the low seven bits of the byte above them, so
decoding its result rounds the number down (`setCompact_getCompact`). The rounding
is monotone (`setCompact_getCompact_mono`). This is first said of numbers, and then the code
on limbs is shown to compute it (`BaseUint.getCompact_toNat`).
-/

namespace BitcoinCore.ArithUint256

variable (val : ℕ) (nCompact : BitVec 32)

open ByteRounding

/-! ## The compact form -/

/-- The three leading bytes, shifted if there are fewer. -/
def compactWord : ℕ :=
  let nSize := (nCompact >>> 24).toNat
  let nWord := (nCompact &&& 0x007fffff#32).toNat
  if nSize ≤ 3 then nWord >>> (8 * (3 - nSize)) else nWord

/-- The number of a compact form, modulo 2 ^ 256. -/
def setCompact : ℕ :=
  let nSize := (nCompact >>> 24).toNat
  if nSize ≤ 3 then compactWord nCompact
  else (compactWord nCompact <<< (8 * (nSize - 3))) % 2 ^ 256

/-- What `SetCompact` writes to `pfNegative`. -/
def compactNegative : Bool :=
  compactWord nCompact ≠ 0 && nCompact &&& 0x00800000#32 ≠ 0

/-- What `SetCompact` writes to `pfOverflow`. -/
def compactOverflow : Bool :=
  let nSize := (nCompact >>> 24).toNat
  let nWord := compactWord nCompact
  nWord ≠ 0 && (34 < nSize || (0xff < nWord && 33 < nSize) || (0xffff < nWord && 32 < nSize))

/-- The three leading bytes of a number, shifted if there are fewer. -/
def leadingBytes : ℕ :=
  let nSize := (val.size + 7) / 8
  if nSize ≤ 3 then val <<< (8 * (3 - nSize)) else val >>> (8 * (nSize - 3))

/-- The end of `GetCompact`, after the leading bytes and their number are known. -/
def compactOf (nCompact : BitVec 32) (nSize : ℕ) (fNegative : Bool) : BitVec 32 :=
  -- The bit 0x00800000 denotes the sign, so a set one is moved out of the way.
  let (nCompact, nSize) :=
    if nCompact &&& 0x00800000#32 ≠ 0 then (nCompact >>> 8, nSize + 1) else (nCompact, nSize)
  let nCompact := nCompact ||| (BitVec.ofNat 32 nSize <<< 24)
  nCompact ||| (if fNegative && nCompact &&& 0x007fffff#32 ≠ 0 then 0x00800000#32 else 0)

/-- The compact form of a number. -/
def getCompact (fNegative : Bool) : BitVec 32 :=
  compactOf (BitVec.ofNat 32 (leadingBytes val)) ((val.size + 7) / 8) fNegative

/-! ## Decoding what was encoded -/

/-- A word and a size in one word. -/
def packed (word size : ℕ) : BitVec 32 := BitVec.ofNat 32 word ||| (BitVec.ofNat 32 size <<< 24)

theorem toNat_packed {word size : ℕ} (wordFits : word < 2 ^ 24) (sizeFits : size < 2 ^ 8) :
    (packed word size).toNat = size * 2 ^ 24 + word := by
  have split : size <<< 24 + word = size <<< 24 ||| word :=
    Nat.shiftLeft_add_eq_or_of_lt wordFits size
  rw [packed, BitVec.toNat_or, BitVec.toNat_shiftLeft, BitVec.toNat_ofNat, BitVec.toNat_ofNat,
    Nat.mod_eq_of_lt (by omega : word < 2 ^ 32), Nat.mod_eq_of_lt (by omega : size < 2 ^ 32),
    Nat.mod_eq_of_lt (by rw [Nat.shiftLeft_eq]; omega), Nat.or_comm, ← split, Nat.shiftLeft_eq]

theorem bytes_eq (count : ℕ) : 256 ^ count = 2 ^ (8 * count) := by
  rw [Nat.pow_mul]

section

variable {word size : ℕ} (wordFits : word < 2 ^ 23) (sizeFits : size < 2 ^ 8)
include wordFits sizeFits

theorem size_packed : (packed word size >>> 24).toNat = size := by
  rw [BitVec.toNat_ushiftRight, toNat_packed (wordFits.trans (by decide)) sizeFits,
    Nat.shiftRight_eq_div_pow]
  omega

theorem word_packed : (packed word size &&& 0x007fffff#32).toNat = word := by
  rw [BitVec.toNat_and, toNat_packed (wordFits.trans (by decide)) sizeFits,
    show (0x007fffff#32).toNat = 2 ^ 23 - 1 by decide, Nat.and_two_pow_sub_one_eq_mod]
  omega

theorem signBit_packed : (packed word size).getLsbD 23 = false := by
  rw [← BitVec.testBit_toNat, toNat_packed (wordFits.trans (by decide)) sizeFits,
    Nat.testBit_eq_decide_div_mod_eq]
  apply decide_eq_false
  omega

theorem setCompact_packed : setCompact (packed word size) =
    if size ≤ 3 then word / 256 ^ (3 - size) else word * 256 ^ (size - 3) % 2 ^ 256 := by
  simp only [setCompact, compactWord, size_packed wordFits sizeFits, word_packed wordFits sizeFits,
    Nat.shiftRight_eq_div_pow, Nat.shiftLeft_eq, bytes_eq]
  split <;> rfl

end

/-- The number of bytes. -/
def byteSize : ℕ := (val.size + 7) / 8

/-- The number of bytes that leave the highest bit free. -/
def compactSize : ℕ := if val = 0 then 0 else val.size / 8 + 1

theorem compactSize_eq : compactSize val = byteSize val ∨ compactSize val = byteSize val + 1 := by
  have zero : val.size = 0 ↔ val = 0 := Nat.size_eq_zero
  rw [compactSize, byteSize]
  split_ifs <;> omega

theorem leadingBytes_eq : leadingBytes val = val * 256 ^ 3 / 256 ^ byteSize val := by
  have pos := fun count => Nat.pow_pos (n := count) (by decide : 0 < 256)
  by_cases short : byteSize val ≤ 3
  · refine (if_pos short).trans (Nat.div_eq_of_eq_mul_left (pos _) ?_).symm
    rw [Nat.shiftLeft_eq, ← bytes_eq, Nat.mul_assoc, ← Nat.pow_add]
    exact congrArg (val * 256 ^ ·) (Nat.sub_add_cancel short).symm
  · refine (if_neg short).trans ?_
    rw [Nat.shiftRight_eq_div_pow, ← bytes_eq, ← Nat.mul_div_mul_right _ _ (pos 3), ← Nat.pow_add]
    exact congrArg (val * 256 ^ 3 / 256 ^ ·) (Nat.sub_add_cancel (not_le.mp short).le)

theorem word_lt {val bits size : ℕ} (enough : 24 ≤ bits + 8 * size)
    (fits : val < 2 ^ (bits + 8 * size - 24)) : val * 256 ^ 3 / 256 ^ size < 2 ^ bits := by
  rw [Nat.div_lt_iff_lt_mul (Nat.pow_pos (by decide)), bytes_eq, bytes_eq, ← Nat.pow_add,
    ← Nat.sub_add_cancel enough, Nat.pow_add]
  exact Nat.mul_lt_mul_of_pos_right fits (by decide)

theorem leadingBytes_lt : leadingBytes val < 2 ^ 24 := by
  rw [leadingBytes_eq]
  refine word_lt (by omega) ?_
  rw [← Nat.size_le, byteSize]
  omega

/-- The word of the compact form leaves the bit of the sign free. -/
theorem compactSize_word_lt : val * 256 ^ 3 / 256 ^ compactSize val < 2 ^ 23 := by
  rw [compactSize]
  split_ifs with zero
  · simp [zero]
  · refine word_lt (by omega) ?_
    rw [← Nat.size_le]
    omega

theorem le_leadingBytes_iff : 2 ^ 23 ≤ leadingBytes val ↔ compactSize val = byteSize val + 1 := by
  rcases Nat.eq_zero_or_pos val with rfl | pos
  · simp [leadingBytes, compactSize]
  · have size : 0 < val.size := Nat.size_pos.mpr pos
    rw [leadingBytes_eq, Nat.le_div_iff_mul_le (Nat.pow_pos (by decide)), bytes_eq, bytes_eq,
      ← Nat.pow_add, compactSize, if_neg pos.ne', byteSize,
      show 23 + 8 * ((val.size + 7) / 8) = 8 * ((val.size + 7) / 8) - 1 + 8 * 3 by omega,
      Nat.pow_add, Nat.mul_le_mul_right_iff (by decide), ← Nat.lt_size]
    omega

/-- The bit of the sign is set exactly if the highest bit of the bytes is. -/
theorem signBit_iff : BitVec.ofNat 32 (leadingBytes val) &&& 0x00800000#32 ≠ 0 ↔
    compactSize val = byteSize val + 1 := by
  rw [show 0x00800000#32 = BitVec.twoPow 32 23 by decide, and_twoPow_ne_zero (by decide),
    BitVec.getLsbD_ofNat, decide_eq_true (by decide), Bool.true_and, ← le_leadingBytes_iff]
  exact ⟨Nat.ge_two_pow_of_testBit, fun high =>
    Nat.testBit_of_two_pow_le_and_two_pow_add_one_gt high (leadingBytes_lt val)⟩

theorem getCompact_eq : getCompact val false =
    packed (val * 256 ^ 3 / 256 ^ compactSize val) (compactSize val) := by
  have fits := leadingBytes_lt val
  rw [getCompact, compactOf]
  simp only [signBit_iff, Bool.false_and, Bool.false_eq_true, if_false]
  refine (BitVec.or_zero).trans ?_
  split_ifs with more
  · have shifted : BitVec.ofNat 32 (leadingBytes val) >>> 8 =
        BitVec.ofNat 32 (val * 256 ^ 3 / 256 ^ compactSize val) := by
      refine BitVec.eq_of_toNat_eq ?_
      rw [more, Nat.pow_succ 256 (byteSize val), ← Nat.div_div_eq_div_mul, ← leadingBytes_eq,
        BitVec.toNat_ushiftRight, BitVec.toNat_ofNat, BitVec.toNat_ofNat, Nat.shiftRight_eq_div_pow]
      omega
    rw [shifted, packed, more]
    rfl
  · rw [leadingBytes_eq, packed, (compactSize_eq val).resolve_right more]
    rfl

theorem cleared_eq : cleared 2 val = compactSize val - 3 := by
  have zero : val.size = 0 ↔ val = 0 := Nat.size_eq_zero
  rw [cleared, compactSize]
  split_ifs <;> omega

theorem compactSize_le {val : ℕ} (fits : val < 2 ^ 256) : compactSize val ≤ 33 := by
  have sizeLe : val.size ≤ 256 := Nat.size_le.mpr fits
  rw [compactSize]
  split_ifs <;> omega

/-- The word without the bytes of zeros that short numbers get. -/
theorem word_div : val * 256 ^ 3 / 256 ^ compactSize val / 256 ^ (3 - compactSize val) =
    val / 256 ^ cleared 2 val := by
  rw [Nat.div_div_eq_div_mul, ← Nat.pow_add, cleared_eq,
    show compactSize val + (3 - compactSize val) = compactSize val - 3 + 3 by omega, Nat.pow_add,
    Nat.mul_div_mul_right _ _ (by decide)]

/-- Decoding an encoded number rounds it down to leading bytes. -/
theorem setCompact_getCompact {val : ℕ} (fits : val < 2 ^ 256) :
    setCompact (getCompact val false) = roundDown 2 val := by
  have roundedFits : roundDown 2 val < 2 ^ 256 := (roundDown_le 2 val).trans_lt fits
  have few := compactSize_le fits
  have word := word_div val
  rw [getCompact_eq, setCompact_packed (compactSize_word_lt val) (by omega)]
  rw [roundDown, cleared_eq] at roundedFits ⊢
  rw [cleared_eq] at word
  split_ifs with short
  · rw [word, Nat.sub_eq_zero_of_le short]
    simp
  · rw [Nat.sub_eq_zero_of_le (not_le.mp short).le, Nat.pow_zero, Nat.div_one] at word
    rw [word, Nat.mod_eq_of_lt roundedFits]

/-- Rounding to the compact form is monotone. -/
theorem setCompact_getCompact_mono {lower upper : ℕ} (le : lower ≤ upper) (fits : upper < 2 ^ 256) :
    setCompact (getCompact lower false) ≤ setCompact (getCompact upper false) := by
  rw [setCompact_getCompact (le.trans_lt fits), setCompact_getCompact fits]
  exact roundDown_mono (by decide) le

/-! ## The flags -/

theorem compactNegative_iff : compactNegative nCompact ↔
    nCompact.getLsbD 23 ∧ compactWord nCompact ≠ 0 := by
  rw [compactNegative, Bool.and_eq_true, decide_eq_true_iff, decide_eq_true_iff, and_comm,
    show 0x00800000#32 = BitVec.twoPow 32 23 by decide, and_twoPow_ne_zero (by decide)]

/-- The number that a compact form stands for, before it has to fit. -/
def compactNumber : ℕ :=
  (nCompact &&& 0x007fffff#32).toNat * 256 ^ (nCompact >>> 24).toNat / 256 ^ 3

theorem compactWord_of_le (short : (nCompact >>> 24).toNat ≤ 3) :
    compactWord nCompact = compactNumber nCompact := by
  rw [compactWord, if_pos short, compactNumber, Nat.shiftRight_eq_div_pow, ← bytes_eq,
    ← Nat.mul_div_mul_right _ _ (Nat.pow_pos (by decide : 0 < 256)), ← Nat.pow_add,
    Nat.sub_add_cancel short]

theorem compactNumber_of_lt (long : 3 < (nCompact >>> 24).toNat) :
    compactNumber nCompact = compactWord nCompact * 256 ^ ((nCompact >>> 24).toNat - 3) := by
  rw [compactWord, if_neg (by omega), compactNumber]
  apply Nat.div_eq_of_eq_mul_left (by decide)
  rw [Nat.mul_assoc, ← Nat.pow_add, Nat.sub_add_cancel (by omega)]

theorem mantissa_lt : (nCompact &&& 0x007fffff#32).toNat < 2 ^ 23 := by
  rw [BitVec.toNat_and, show (0x007fffff#32).toNat = 2 ^ 23 - 1 by decide,
    Nat.and_two_pow_sub_one_eq_mod]
  exact Nat.mod_lt _ (by decide)

theorem compactWord_lt : compactWord nCompact < 2 ^ 23 := by
  rw [compactWord]
  split_ifs
  · exact (Nat.shiftRight_le _ _).trans_lt (mantissa_lt nCompact)
  · exact mantissa_lt nCompact

/-- The three comparisons of the overflow test: the word moves up by whole bytes, and may have
one, two or three of them. -/
theorem compactOverflow_iff : compactOverflow nCompact ↔ 2 ^ 256 ≤ compactNumber nCompact := by
  have wordFits := compactWord_lt nCompact
  simp only [compactOverflow, Bool.and_eq_true, Bool.or_eq_true, decide_eq_true_iff]
  rcases Nat.lt_or_ge 3 (nCompact >>> 24).toNat with long | short
  · rw [compactNumber_of_lt nCompact long, bytes_eq]
    generalize compactWord nCompact = word at *
    generalize (nCompact >>> 24).toNat = size at *
    rcases Nat.lt_or_ge size 35 with below | above
    · have split : 2 ^ 256 = 2 ^ (280 - 8 * size) * 2 ^ (8 * (size - 3)) := by
        rw [← Nat.pow_add]
        congr 1
        omega
      rw [split, Nat.mul_le_mul_right_iff (Nat.two_pow_pos _)]
      rcases Nat.lt_or_ge size 33 with low | high
      · have many : 2 ^ 23 ≤ 2 ^ (280 - 8 * size) := Nat.pow_le_pow_right (by decide) (by omega)
        omega
      · obtain rfl | rfl : size = 33 ∨ size = 34 := by omega
        all_goals omega
    · have many : 2 ^ 256 ≤ 2 ^ (8 * (size - 3)) := Nat.pow_le_pow_right (by decide) (by omega)
      rcases Nat.eq_zero_or_pos word with rfl | pos
      · simp
      · have scaled := Nat.mul_le_mul pos many
        omega
  · rw [← compactWord_of_le nCompact short]
    omega

theorem setCompact_of_fits (fits : compactNumber nCompact < 2 ^ 256) :
    setCompact nCompact = compactNumber nCompact := by
  rw [setCompact]
  split_ifs with short
  · exact compactWord_of_le nCompact short
  · rw [Nat.shiftLeft_eq, ← bytes_eq, ← compactNumber_of_lt nCompact (by omega),
      Nat.mod_eq_of_lt fits]

theorem flags_packed {word size : ℕ} (wordFits : word < 2 ^ 23) (sizeFits : size < 2 ^ 8)
    (small : size ≤ 32 ∨ size = 33 ∧ word < 2 ^ 16) :
    compactNegative (packed word size) = false ∧ compactOverflow (packed word size) = false := by
  rw [← Bool.not_eq_true, ← Bool.not_eq_true, compactNegative_iff, signBit_packed wordFits sizeFits]
  refine ⟨by simp, ?_⟩
  have le : compactWord (packed word size) ≤ word := by
    simp only [compactWord, size_packed wordFits sizeFits, word_packed wordFits sizeFits]
    split_ifs
    · exact Nat.shiftRight_le _ _
    · exact le_rfl
  simp only [compactOverflow, size_packed wordFits sizeFits, Bool.and_eq_true, Bool.or_eq_true,
    decide_eq_true_iff]
  omega

theorem flags_getCompact {val : ℕ} (fits : val < 2 ^ 256) :
    compactNegative (getCompact val false) = false ∧
      compactOverflow (getCompact val false) = false := by
  have few := compactSize_le fits
  rw [getCompact_eq]
  refine flags_packed (compactSize_word_lt val) (by omega) ?_
  rcases few.lt_or_eq with fewer | most
  · omega
  · exact .inr ⟨most, word_lt (by omega) (by rwa [most])⟩

/-- The compact form of a number is that of the number it decodes to: rounding keeps the length
and the leading bytes. -/
theorem getCompact_roundDown : getCompact (roundDown 2 val) false = getCompact val false := by
  have size := size_roundDown (by decide : 0 < 2) val
  have zero : roundDown 2 val = 0 ↔ val = 0 := by
    rw [← Nat.size_eq_zero, size, Nat.size_eq_zero]
  have bytes : compactSize (roundDown 2 val) = compactSize val := by
    simp only [compactSize, size, zero]
  rw [getCompact_eq, getCompact_eq, bytes]
  refine congrArg (packed · (compactSize val)) ?_
  rcases Nat.lt_or_ge (compactSize val) 3 with short | long
  · rw [roundDown, cleared_eq, Nat.sub_eq_zero_of_le short.le]
    simp
  · have word := word_div (roundDown 2 val)
    have word' := word_div val
    rw [bytes, Nat.sub_eq_zero_of_le long, Nat.pow_zero, Nat.div_one] at word
    rw [Nat.sub_eq_zero_of_le long, Nat.pow_zero, Nat.div_one] at word'
    rw [word, word', cleared_eq, bytes, ← cleared_eq, roundDown_div]

/-! ## The limbs -/

namespace BaseUint

/-- A word, as a number with limbs. -/
def ofWord (nWord : BitVec 32) : BaseUint := ⟨nWord :: List.replicate 7 0, rfl⟩

/-- `SetCompact`. -/
def setCompact : BaseUint :=
  let nSize := (nCompact >>> 24).toNat
  let nWord := nCompact &&& 0x007fffff#32
  if nSize ≤ 3 then ofWord (nWord >>> (8 * (3 - nSize)))
  else (ofWord nWord).shiftLeft (8 * (nSize - 3))

/-- `GetCompact`. -/
def getCompact (x : BaseUint) (fNegative : Bool) : BitVec 32 :=
  let nSize := (x.bits + 7) / 8
  let nCompact := if nSize ≤ 3 then (x.getLow64 <<< (8 * (3 - nSize))).setWidth 32
    else (x.shiftRight (8 * (nSize - 3))).getLow64.setWidth 32
  compactOf nCompact nSize fNegative

theorem toNat_ofWord (nWord : BitVec 32) : (ofWord nWord).toNat = nWord.toNat := by
  simp [ofWord, toNat, Limbs.value]

theorem toNat_setCompact : (setCompact nCompact).toNat = ArithUint256.setCompact nCompact := by
  rw [setCompact, ArithUint256.setCompact, compactWord]
  split_ifs with short
  · rw [toNat_ofWord, BitVec.toNat_ushiftRight]
  · rw [toNat_shiftLeft, toNat_ofWord]

theorem getCompact_toNat (x : BaseUint) (fNegative : Bool) :
    x.getCompact fNegative = ArithUint256.getCompact x.toNat fNegative := by
  rw [getCompact, ArithUint256.getCompact, leadingBytes, bits_eq]
  congr 1
  apply BitVec.eq_of_toNat_eq
  split_ifs
  · simp only [BitVec.toNat_setWidth, BitVec.toNat_shiftLeft, toNat_getLow64, BitVec.toNat_ofNat,
      Nat.shiftLeft_eq]
    rw [Nat.mod_mod_of_dvd _ (by decide : 2 ^ 32 ∣ 2 ^ 64), Nat.mul_mod, Nat.mod_mod_of_dvd _
      (by decide : 2 ^ 32 ∣ 2 ^ 64), ← Nat.mul_mod]
  · rw [BitVec.toNat_setWidth, toNat_getLow64, toNat_shiftRight, BitVec.toNat_ofNat,
      Nat.mod_mod_of_dvd _ (by decide : 2 ^ 32 ∣ 2 ^ 64)]

end BaseUint

/-- The compact form. The code on limbs computes what the other statements say of numbers. A
compact form overflows exactly when its number does not fit 256 bits, stands for that number
otherwise, and is negative exactly when the sign is set and the word left over is not zero.
Encoding a number and decoding it gives the largest number below with 23 leading bits and zero
bytes after them, without a flag; this is idempotent and monotone, and encoding again changes
nothing. -/
theorem compact_rounds :
    (∀ nCompact, (BaseUint.setCompact nCompact).toNat = setCompact nCompact) ∧
    (∀ (x : BaseUint) fNegative, x.toNat < 2 ^ 256 ∧
      x.getCompact fNegative = getCompact x.toNat fNegative) ∧
    (∀ nCompact, (compactOverflow nCompact ↔ 2 ^ 256 ≤ compactNumber nCompact) ∧
      (compactOverflow nCompact = false → setCompact nCompact = compactNumber nCompact) ∧
      (compactNegative nCompact ↔ nCompact.getLsbD 23 ∧ compactWord nCompact ≠ 0)) ∧
    (∀ val < 2 ^ 256, (∃ leading zeros, leading < 2 ^ 23 ∧
        setCompact (getCompact val false) = leading * 256 ^ zeros) ∧
      setCompact (getCompact val false) ≤ val ∧
      (∀ leading zeros, leading < 2 ^ 23 → leading * 256 ^ zeros ≤ val →
        leading * 256 ^ zeros ≤ setCompact (getCompact val false)) ∧
      (compactNegative (getCompact val false) = false ∧
        compactOverflow (getCompact val false) = false) ∧
      setCompact (getCompact (setCompact (getCompact val false)) false) =
        setCompact (getCompact val false) ∧
      getCompact (setCompact (getCompact val false)) false = getCompact val false) ∧
    ∀ lower upper, lower ≤ upper → upper < 2 ^ 256 →
      setCompact (getCompact lower false) ≤ setCompact (getCompact upper false) := by
  refine ⟨BaseUint.toNat_setCompact, fun x fNegative => ⟨x.toNat_lt, x.getCompact_toNat fNegative⟩,
    fun nCompact => ⟨compactOverflow_iff nCompact, fun fits => ?_, compactNegative_iff nCompact⟩,
    fun val fits => ?_, fun lower upper => setCompact_getCompact_mono⟩
  · apply setCompact_of_fits
    rwa [← Nat.not_le, ← compactOverflow_iff, Bool.not_eq_true]
  · rw [setCompact_getCompact fits]
    have encoded := getCompact_roundDown val
    refine ⟨⟨_, _, div_lt 2 val, rfl⟩, roundDown_le 2 val, ?_, flags_getCompact fits, ?_, encoded⟩
    · intro leading zeros few le
      exact le_roundDown (by decide) few le
    · rw [encoded, setCompact_getCompact fits]

end BitcoinCore.ArithUint256
