import BitcoinCore.Lib.ByteStream
import BitcoinCore.Chain.BlockIndex

/-!
# Serialisation

The primitives of the network and disk formats: fixed-width little-endian
integers, hashes, sizes in the `CompactSize` form, integers of variable length, and
vectors of items behind their size. Reading is strict: a size has one accepted form,
and none above `maxSize` is accepted.

Every size up to `maxSize` is read back (`reads_writeCompactSize`), and so are every
integer of variable length that its type can hold (`reads_writeVarInt`), whose form is a
bijection (`varInt_bijection`), and every vector of items that are read back
(`reads_writeVector`).
-/

namespace BitcoinCore.Serialize

open ByteStream Nat List

inductive ReadFailure where
  /-- The stream ends early. -/
  | endOfData
  /-- A size is written in more bytes than it needs. -/
  | nonCanonicalSize
  /-- A size is above `maxSize`, or an integer of variable length above its type. -/
  | sizeTooLarge
  deriving DecidableEq, Repr

abbrev Unserialize (α : Type) := Reader ReadFailure α

def maxSize : ℕ := 0x02000000

def readInt (width : ℕ) : Unserialize ℕ := readLE .endOfData width

/-! ## Sizes -/

/-- Write a size in one, three, five or nine bytes. -/
def writeCompactSize (size : ℕ) : List Byte :=
  if size < 253 then writeLE 1 size
  else if size ≤ 0xffff then writeLE 1 253 ++ writeLE 2 size
  else if size ≤ 0xffffffff then writeLE 1 254 ++ writeLE 4 size
  else writeLE 1 255 ++ writeLE 8 size

/-- Read a size whose form has been announced by its first byte. -/
def readSizeAfter (first : ℕ) : Unserialize ℕ :=
  if first < 253 then pure first
  else if first = 253 then do
    let size ← readInt 2
    require .nonCanonicalSize (253 ≤ size)
    pure size
  else if first = 254 then do
    let size ← readInt 4
    require .nonCanonicalSize (0x10000 ≤ size)
    pure size
  else do
    let size ← readInt 8
    require .nonCanonicalSize (0x100000000 ≤ size)
    pure size

/-- Read a size, with the check of its range unless it stands for a number. -/
def readCompactSize (rangeCheck : Bool) : Unserialize ℕ := do
  let first ← readInt 1
  let size ← readSizeAfter first
  require .sizeTooLarge (!rangeCheck || size ≤ maxSize)
  pure size

theorem reads_announced {width size least : ℕ} (fits : size < 256 ^ width) (large : least ≤ size) :
    Reads (do
      let size ← readInt width
      require .nonCanonicalSize (least ≤ size)
      pure size : Unserialize ℕ) (writeLE width size) size := by
  rw [← append_nil (writeLE width size), ← append_nil []]
  exact (reads_writeLE ReadFailure.endOfData fits).bind
    ((reads_require (decide_eq_true large)).bind (Reads.pure size))

theorem writeCompactSize_split {size : ℕ} (fits : size < 2 ^ 64) :
    ∃ first following, writeCompactSize size = writeLE 1 first ++ following ∧ first < 256 ∧
      Reads (readSizeAfter first) following size := by
  rw [writeCompactSize]
  split
  case isTrue small =>
    refine ⟨size, [], (append_nil _).symm, by omega, ?_⟩
    rw [readSizeAfter, if_pos small]
    exact Reads.pure size
  case isFalse atLeast =>
    rw [not_lt] at atLeast
    split
    case isTrue upper =>
      exact ⟨253, _, rfl, by decide, reads_announced (by omega) atLeast⟩
    case isFalse above =>
      split
      case isTrue upper =>
        exact ⟨254, _, rfl, by decide, reads_announced (by omega) (by omega)⟩
      case isFalse aboveWord =>
        exact ⟨255, _, rfl, by decide, reads_announced (by omega) (by omega)⟩

theorem reads_writeCompactSize {size : ℕ} (range : size ≤ maxSize) (rangeCheck : Bool) :
    Reads (readCompactSize rangeCheck) (writeCompactSize size) size := by
  obtain ⟨first, following, written, firstFits, reads⟩ :=
    writeCompactSize_split (lt_of_le_of_lt range (by decide : maxSize < 2 ^ 64))
  rw [written, ← append_nil following, ← append_nil []]
  refine (reads_writeLE ReadFailure.endOfData firstFits).bind (reads.bind
    ((reads_require ?_).bind (Reads.pure size)))
  rw [decide_eq_true range, Bool.or_true]

/-! ## Integers of variable length -/

/-- The loop of `writeVarInt`. The bytes found so far stand in the order in which
they are written, the last digit of the number at the end. -/
def writeVarIntLoop (n : ℕ) (tmp : List Byte) : List Byte :=
  let byte := BitVec.ofNat 8 (n &&& 0x7f) ||| if tmp = [] then 0x00#8 else 0x80#8
  if n ≤ 0x7f then byte :: tmp
  -- Every further byte stands for one more than its digits.
  else writeVarIntLoop ((n >>> 7) - 1) (byte :: tmp)
termination_by n
decreasing_by
  rw [shiftRight_eq_div_pow]
  omega

/-- Write an integer in base 128; all bytes but the last have the high bit set. -/
def writeVarInt (n : ℕ) : List Byte := writeVarIntLoop n []

def readVarIntLoop (max : ℕ) : ℕ → List Byte → Except ReadFailure (ℕ × List Byte)
  | _, [] => .error .endOfData
  | n, chData :: rest =>
    if max >>> 7 < n then .error .sizeTooLarge
    else
      let n := (n <<< 7) ||| (chData &&& 0x7f).toNat
      if chData &&& 0x80 ≠ 0 then
        if n = max then .error .sizeTooLarge else readVarIntLoop max (n + 1) rest
      else .ok (n, rest)

def readVarInt (bits : ℕ) : Unserialize ℕ := readVarIntLoop (2 ^ bits - 1) 0

def getSizeOfVarInt (n : ℕ) : ℕ :=
  if n ≤ 0x7f then 1 else getSizeOfVarInt ((n >>> 7) - 1) + 1
termination_by n
decreasing_by
  rw [shiftRight_eq_div_pow]
  omega

/-- Bytes with the high bit set, and then one without it. -/
def IsVarInt : List Byte → Prop
  | [] => False
  | byte :: rest => if byte &&& 0x80 = 0 then rest = [] else IsVarInt rest

def varIntDigits (byte : Byte) : ℕ := (byte &&& 0x7f).toNat

/-- One more than the number that the bytes stand for, behind bytes that gave `n`. -/
def varIntNext (n : ℕ) (bytes : List Byte) : ℕ :=
  bytes.foldl (fun n byte => n * 128 + varIntDigits byte + 1) n

def varIntValue (bytes : List Byte) : ℕ := varIntNext 0 bytes - 1

theorem varInt_byte : ∀ byte : Byte, varIntDigits byte < 128 ∧
    byte = BitVec.ofNat 8 (varIntDigits byte) ||| if byte &&& 0x80 = 0 then 0x00#8 else 0x80#8 := by
  decide +kernel

/-- A byte of seven digits and a mark gives both back. -/
theorem marked_byte : ∀ digits : Fin 128,
    (varIntDigits (BitVec.ofNat 8 digits ||| 0x00#8) = digits ∧
      (BitVec.ofNat 8 digits ||| 0x00#8) &&& 0x80 = 0) ∧
      varIntDigits (BitVec.ofNat 8 digits ||| 0x80#8) = digits ∧
      (BitVec.ofNat 8 digits ||| 0x80#8) &&& 0x80 ≠ 0 := by
  decide +kernel

theorem shiftLeft_or_digits (n : ℕ) (byte : Byte) :
    n <<< 7 ||| (byte &&& 0x7f).toNat = n * 128 + varIntDigits byte := by
  rw [shiftLeft_eq, mul_comm, ← two_pow_add_eq_or_of_lt (varInt_byte byte).1, varIntDigits]

section

variable {front tmp bytes : List Byte} {byte : Byte}

theorem varIntNext_concat (n : ℕ) :
    varIntNext n (front ++ [byte]) = varIntNext n front * 128 + varIntDigits byte + 1 := by
  rw [varIntNext, foldl_append]
  rfl

theorem le_varIntNext (n : ℕ) : n ≤ varIntNext n bytes := by
  induction bytes using reverseRecOn with
  | nil => exact le_rfl
  | append_singleton front byte ih =>
    rw [varIntNext_concat]
    omega

theorem lt_varIntNext (isVarInt : IsVarInt bytes) (n : ℕ) : n < varIntNext n bytes := by
  cases bytes with
  | nil => exact isVarInt.elim
  | cons byte bytes =>
    have more : _ ≤ varIntNext n (byte :: bytes) := le_varIntNext (n * 128 + varIntDigits byte + 1)
    omega

theorem varIntNext_lt {first second : List Byte} (shorter : first.length < second.length) :
    varIntNext 0 first < varIntNext 0 second := by
  induction first using reverseRecOn generalizing second with
  | nil =>
    obtain ⟨front, last, rfl⟩ :=
      (eq_nil_or_concat' second).resolve_left (by rintro rfl; cases shorter)
    rw [varIntNext_concat]
    exact succ_pos _
  | append_singleton first byte ih =>
    obtain ⟨front, last, rfl⟩ :=
      (eq_nil_or_concat' second).resolve_left (by rintro rfl; cases shorter)
    rw [length_append, length_append] at shorter
    have fronts := ih (lt_of_add_lt_add_right shorter)
    have digits := (varInt_byte byte).1
    rw [varIntNext_concat, varIntNext_concat]
    omega

/-- What is read is the number, unless it is too large for the type. -/
theorem readVarIntLoop_eq {max n : ℕ} (isVarInt : IsVarInt bytes)
    (whole : varIntNext n bytes ≤ max + 1 ∨ 128 ∣ max + 1) (rest : List Byte) :
    readVarIntLoop max n (bytes ++ rest) = if varIntNext n bytes ≤ max + 1 then
      .ok (varIntNext n bytes - 1, rest) else .error .sizeTooLarge := by
  induction bytes generalizing n with
  | nil => exact isVarInt.elim
  | cons byte bytes ih =>
    have digits := (varInt_byte byte).1
    have next : varIntNext n (byte :: bytes) = varIntNext (n * 128 + varIntDigits byte + 1) bytes :=
      rfl
    have grows : _ ≤ varIntNext _ bytes := le_varIntNext (n * 128 + varIntDigits byte + 1)
    rw [next] at whole ⊢
    rw [cons_append, readVarIntLoop, shiftLeft_or_digits, shiftRight_eq_div_pow]
    rw [IsVarInt] at isVarInt
    by_cases above : max / 2 ^ 7 < n
    · rw [if_pos above, if_neg (by omega)]
    · rw [if_neg above]
      split at isVarInt
      case isTrue last =>
        -- the guard has kept room for the last digits
        have fits : n * 128 + varIntDigits byte ≤ max := by
          rcases whole with fits | ⟨k, whole⟩ <;> omega
        subst isVarInt
        rw [if_neg (not_not.mpr last)]
        exact (if_pos (succ_le_succ fits)).symm
      case isFalse marked =>
        rw [if_pos marked]
        by_cases full : n * 128 + varIntDigits byte = max
        · have more := lt_varIntNext isVarInt (n * 128 + varIntDigits byte + 1)
          rw [if_pos full, if_neg (by omega)]
        · rw [if_neg full]
          exact ih isVarInt whole

theorem writeVarIntLoop_spec (n : ℕ) (tmp : List Byte) :
    varIntNext 0 (writeVarIntLoop n tmp) = varIntNext (n + 1) tmp ∧
      (tmp = [] ∨ IsVarInt tmp → IsVarInt (writeVarIntLoop n tmp)) ∧
      (writeVarIntLoop n tmp).length = getSizeOfVarInt n + tmp.length := by
  induction n using Nat.strongRecOn generalizing tmp with
  | ind n ih =>
    obtain ⟨byte, written, digits, marked⟩ : ∃ byte : Byte,
        byte = (BitVec.ofNat 8 (n &&& 0x7f) ||| if tmp = [] then 0x00#8 else 0x80#8) ∧
        varIntDigits byte = n % 128 ∧ (byte &&& 0x80 = 0 ↔ tmp = []) := by
      obtain ⟨plain, marked⟩ := marked_byte ⟨n % 128, mod_lt n (by decide)⟩
      refine ⟨_, rfl, ?_⟩
      rw [and_two_pow_sub_one_eq_mod n 7]
      by_cases last : tmp = []
      · simpa only [last, if_true, iff_true] using plain
      · simpa only [last, if_false, iff_false] using marked
    have step (k : ℕ) : varIntNext k (byte :: tmp) = varIntNext (k * 128 + n % 128 + 1) tmp := by
      rw [← digits]
      rfl
    have form : tmp = [] ∨ IsVarInt tmp → IsVarInt (byte :: tmp) := by
      intro pre
      rw [IsVarInt]
      split
      case isTrue last => exact marked.mp last
      case isFalse more => exact pre.resolve_left fun last => more (marked.mpr last)
    rw [writeVarIntLoop, getSizeOfVarInt, ← written]
    split
    case isTrue small =>
      refine ⟨?_, form, add_comm _ _⟩
      rw [step, mod_eq_of_lt (by omega), zero_mul, zero_add]
    case isFalse large =>
      rw [shiftRight_eq_div_pow]
      obtain ⟨next, isVarInt, length⟩ := ih (n / 2 ^ 7 - 1) (by omega) (byte :: tmp)
      refine ⟨?_, fun pre => isVarInt (.inr (form pre)), ?_⟩
      · rw [next, step]
        congr 1
        omega
      · rw [length, length_cons]
        omega

theorem last_iff_of_isVarInt (isVarInt : IsVarInt (front ++ byte :: tmp)) :
    byte &&& 0x80 = 0 ↔ tmp = [] := by
  induction front with
  | nil =>
    rw [nil_append, IsVarInt] at isVarInt
    split at isVarInt
    case isTrue last => exact iff_of_true last isVarInt
    case isFalse more => exact iff_of_false more (by rintro rfl; exact isVarInt)
  | cons first front ih =>
    rw [cons_append, IsVarInt] at isVarInt
    split at isVarInt
    · exact absurd isVarInt (by simp)
    · exact ih isVarInt

theorem writeVarIntLoop_digits (isVarInt : IsVarInt (front ++ byte :: tmp)) (n : ℕ) :
    writeVarIntLoop (n * 128 + varIntDigits byte) tmp =
      if n = 0 then byte :: tmp else writeVarIntLoop (n - 1) (byte :: tmp) := by
  obtain ⟨digits, whole⟩ := varInt_byte byte
  simp only [last_iff_of_isVarInt isVarInt] at whole
  have low : n * 128 + varIntDigits byte &&& 0x7f = varIntDigits byte := by
    rw [and_two_pow_sub_one_eq_mod _ 7]
    omega
  rw [writeVarIntLoop, low, ← whole, shiftRight_eq_div_pow]
  by_cases none : n = 0
  · rw [if_pos none, if_pos (by omega)]
  · rw [if_neg none, if_neg (by omega)]
    congr 1
    omega

/-- The bytes of a number are the only ones that stand for it. -/
theorem writeVarIntLoop_varIntNext (isVarInt : IsVarInt (front ++ byte :: tmp)) :
    writeVarIntLoop (varIntNext 0 (front ++ [byte]) - 1) tmp = front ++ byte :: tmp := by
  induction front using reverseRecOn generalizing byte tmp with
  | nil =>
    rw [varIntNext_concat, Nat.add_sub_cancel, writeVarIntLoop_digits isVarInt]
    rfl
  | append_singleton front pre ih =>
    rw [varIntNext_concat, Nat.add_sub_cancel, writeVarIntLoop_digits isVarInt, if_neg]
    · rw [append_assoc, singleton_append] at isVarInt ⊢
      exact ih isVarInt
    · rw [varIntNext_concat]
      exact succ_ne_zero _

end

/-- Numbers and the strings of the format correspond to each other, and a type holds those that
are read. -/
theorem varInt_bijection (bits : ℕ) :
    (∀ n, IsVarInt (writeVarInt n) ∧ varIntValue (writeVarInt n) = n ∧
      (writeVarInt n).length = getSizeOfVarInt n) ∧
    (∀ bytes, IsVarInt bytes → writeVarInt (varIntValue bytes) = bytes ∧
      ∀ rest, readVarInt (bits + 7) (bytes ++ rest) =
        if varIntValue bytes < 2 ^ (bits + 7) then .ok (varIntValue bytes, rest)
        else .error .sizeTooLarge) ∧
    (∀ (n : ℕ) (chData : Byte), n ≤ (2 ^ (bits + 7) - 1) >>> 7 →
      n <<< 7 ||| (chData &&& 0x7f).toNat < 2 ^ (bits + 7)) ∧
    ∀ first second, IsVarInt first → IsVarInt second → first.length < second.length →
      varIntValue first < varIntValue second := by
  have positive : 0 < 2 ^ (bits + 7) := Nat.two_pow_pos _
  have whole : 128 ∣ 2 ^ (bits + 7) - 1 + 1 := by
    rw [Nat.sub_add_cancel positive, pow_add]
    exact Nat.dvd_mul_left _ _
  refine ⟨?_, ?_, ?_, ?_⟩
  · intro n
    obtain ⟨next, isVarInt, length⟩ := writeVarIntLoop_spec n []
    exact ⟨isVarInt (.inl rfl), congrArg (· - 1) next, length⟩
  · intro bytes isVarInt
    constructor
    · obtain ⟨front, last, rfl⟩ :=
        (eq_nil_or_concat' bytes).resolve_left (by rintro rfl; exact isVarInt)
      exact writeVarIntLoop_varIntNext isVarInt
    · intro rest
      have some := lt_varIntNext isVarInt 0
      rw [readVarInt, readVarIntLoop_eq isVarInt (.inr whole), varIntValue,
        Nat.sub_add_cancel positive]
      congr 1
      rw [eq_iff_iff]
      omega
  · intro n chData small
    have digits := (varInt_byte chData).1
    rw [shiftRight_eq_div_pow] at small
    rw [shiftLeft_or_digits]
    omega
  · intro first second isVarInt _ shorter
    have less := varIntNext_lt shorter
    have some := lt_varIntNext isVarInt 0
    rw [varIntValue, varIntValue]
    omega

/-- An integer of variable length is read back as any type that can hold it. -/
theorem reads_writeVarInt {bits n : ℕ} (fits : n < 2 ^ bits) :
    Reads (readVarInt bits) (writeVarInt n) n := by
  intro rest
  obtain ⟨next, isVarInt, -⟩ := writeVarIntLoop_spec n []
  have small : varIntNext 0 (writeVarIntLoop n []) ≤ 2 ^ bits - 1 + 1 := by
    rw [next, Nat.sub_add_cancel (Nat.two_pow_pos bits)]
    exact fits
  refine (readVarIntLoop_eq (isVarInt (.inl rfl)) (.inl small) rest).trans ?_
  rw [if_pos small, next]
  rfl

/-! ## Hashes and vectors -/

def writeUint256 (hash : Uint256) : List Byte := writeLE 32 hash.toNat

def uint256OfBytes (bytes : List Byte) : Uint256 :=
  BitVec.ofNat 256 (bytes.foldr (fun byte number => byte.toNat + 256 * number) 0)

def readUint256 : Unserialize Uint256 := BitVec.ofNat 256 <$> readInt 32

theorem reads_writeUint256 (hash : Uint256) : Reads readUint256 (writeUint256 hash) hash := by
  have fits : hash.toNat < 256 ^ 32 := lt_of_lt_of_eq hash.isLt (by decide)
  have reads := (reads_writeLE ReadFailure.endOfData fits).map (BitVec.ofNat 256)
  rwa [BitVec.ofNat_toNat, BitVec.setWidth_eq] at reads

theorem writeUint256_injective : Function.Injective writeUint256 := by
  intro hash other same
  have reads := (reads_writeUint256 hash).run
  rw [same, (reads_writeUint256 other).run] at reads
  simpa using reads.symm

variable {α : Type}

def writeVector (write : α → List Byte) (items : List α) : List Byte :=
  writeCompactSize items.length ++ items.flatMap write

def readVector (item : Unserialize α) : Unserialize (List α) := do
  let size ← readCompactSize true
  readMany item size

theorem reads_writeVector {item : Unserialize α} {write : α → List Byte} {items : List α}
    (range : items.length ≤ maxSize) (reads : ∀ value ∈ items, Reads item (write value) value) :
    Reads (readVector item) (writeVector write items) items :=
  (reads_writeCompactSize range true).bind (reads_readMany reads)

end BitcoinCore.Serialize
