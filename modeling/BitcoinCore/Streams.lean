import BitcoinCore.Lib.BitDigits
import BitcoinCore.Lib.ByteStream

/-!
# Streams of bits

A `BitStreamWriter` collects bits in a byte, most significant first, and writes the
byte when it is full. A `BitStreamReader` takes them off again. Both move as many
bits at a time as the byte has room for.

What has been written is a list of bits (`BitStreamWriter.contents`), to which a
write appends (`write_spec`). What is left to read is a list of bits
(`BitStreamReader.remaining`), of which a read takes the front (`read_spec`).
-/

namespace BitcoinCore.Streams

open ByteStream BitDigits List

inductive StreamFailure where
  /-- More than 64 bits are asked for. -/
  | outOfRange
  | endOfData
  deriving DecidableEq

def byteDigits (bytes : List Byte) : List Bool := bytes.flatMap fun byte => digits 8 byte.toNat

theorem length_byteDigits (bytes : List Byte) : (byteDigits bytes).length = 8 * bytes.length := by
  induction bytes with
  | nil => rfl
  | cons byte bytes ih =>
    rw [byteDigits, flatMap_cons, length_append, length_digits, length_cons]
    rw [byteDigits] at ih
    omega

/-! ## Writing -/

/-- A writer between two writes: the byte has room. -/
structure BitStreamWriter where
  ostream : List Byte
  buffer : Byte
  /-- The number of bits of the byte that are used. -/
  offset : Fin 8
  deriving DecidableEq

namespace BitStreamWriter

variable (writer : BitStreamWriter) {data nbits offset pos : ℕ}

def new : BitStreamWriter := { ostream := [], buffer := 0, offset := 0 }

/-- Write the byte, padded with zeros, unless it is empty. -/
def flush : BitStreamWriter :=
  if writer.offset = 0 then writer
  else { ostream := writer.ostream ++ [writer.buffer], buffer := 0, offset := 0 }

/-- The byte with some bits more; it is written when it is full. -/
def advance (buffer : Byte) (bits : ℕ) : BitStreamWriter :=
  if room : writer.offset.val + bits < 8 then { writer with buffer, offset := ⟨_, room⟩ }
  else { ostream := writer.ostream ++ [buffer], buffer := 0, offset := 0 }

def writeLoop (data : ℕ) (nbits : ℕ) (writer : BitStreamWriter) : BitStreamWriter :=
  if 0 < nbits then
    let bits := min (8 - writer.offset.val) nbits
    let buffer := writer.buffer |||
      BitVec.ofNat 8 (((data <<< (64 - nbits)) % 2 ^ 64) >>> (64 - 8 + writer.offset.val))
    writeLoop data (nbits - bits) (writer.advance buffer bits)
  else writer
termination_by nbits
decreasing_by
  have room := writer.offset.isLt
  omega

def write (data nbits : ℕ) (writer : BitStreamWriter) : Except StreamFailure BitStreamWriter :=
  if 64 < nbits then .error .outOfRange else .ok (writeLoop data nbits writer)

/-- What has been written, the bits that wait in the byte included. -/
def contents : List Bool :=
  byteDigits writer.ostream ++ digits writer.offset (writer.buffer.toNat >>> (8 - writer.offset.val))

def Clean : Prop :=
  ∀ pos < 8 - writer.offset.val, writer.buffer.getLsbD pos = false

@[simp] theorem contents_new : new.contents = [] := rfl

theorem clean_new : new.Clean := by
  intro pos _
  simp [new]

theorem getLsbD_chunk (small : nbits ≤ 64) (inside : pos < 8 - offset) :
    (BitVec.ofNat 8 (((data <<< (64 - nbits)) % 2 ^ 64) >>> (64 - 8 + offset))).getLsbD pos =
      (decide (8 - offset ≤ nbits + pos) && data.testBit (nbits + pos - (8 - offset))) := by
  rw [BitVec.getLsbD_ofNat, Nat.testBit_shiftRight, Nat.testBit_mod_two_pow, Nat.testBit_shiftLeft]
  have bounds : pos < 8 ∧ 64 - 8 + offset + pos < 64 := by omega
  have reaches : 64 - nbits ≤ 64 - 8 + offset + pos ↔ 8 - offset ≤ nbits + pos := by
    omega
  by_cases reached : 8 - offset ≤ nbits + pos
  · have same : 64 - 8 + offset + pos - (64 - nbits) = nbits + pos - (8 - offset) := by
      omega
    simp [bounds, reaches, reached, same]
  · simp [reaches, reached]

theorem getLsbD_chunk_of_used (used : 8 - offset ≤ pos) (room : offset < 8) :
    (BitVec.ofNat 8 (((data <<< (64 - nbits)) % 2 ^ 64) >>> (64 - 8 + offset))).getLsbD pos =
      false := by
  rw [BitVec.getLsbD_ofNat, Nat.testBit_shiftRight, Nat.testBit_mod_two_pow]
  have beyond : ¬64 - 8 + offset + pos < 64 := by omega
  simp [beyond]

/-- One round of a write appends as many bits as the byte has room for. -/
theorem advance_spec {writer : BitStreamWriter} (clean : writer.Clean) (data : ℕ)
    (some : 0 < nbits) (small : nbits ≤ 64) :
    let bits := min (8 - writer.offset.val) nbits
    let buffer := writer.buffer |||
      BitVec.ofNat 8 (((data <<< (64 - nbits)) % 2 ^ 64) >>> (64 - 8 + writer.offset.val))
    (writer.advance buffer bits).Clean ∧ (writer.advance buffer bits).contents =
        writer.contents ++ digits bits (data >>> (nbits - bits)) := by
  intro bits buffer
  have room := writer.offset.isLt
  have used : ∀ pos, 8 - writer.offset.val ≤ pos →
      buffer.getLsbD pos = writer.buffer.getLsbD pos := by
    intro pos isUsed
    rw [BitVec.getLsbD_or, getLsbD_chunk_of_used isUsed room, Bool.or_false]
  have fresh : ∀ pos < 8 - writer.offset.val, buffer.getLsbD pos =
      (decide (8 - writer.offset.val ≤ nbits + pos) &&
        data.testBit (nbits + pos - (8 - writer.offset.val))) := by
    intro pos inside
    rw [BitVec.getLsbD_or, clean pos inside, Bool.false_or, getLsbD_chunk small inside]
  have front : digits writer.offset (buffer.toNat >>> (8 - writer.offset.val)) =
      digits writer.offset (writer.buffer.toNat >>> (8 - writer.offset.val)) := by
    refine digits_congr ?_
    intro pos _
    rw [Nat.testBit_shiftRight, Nat.testBit_shiftRight, BitVec.testBit_toNat, BitVec.testBit_toNat]
    exact used _ (Nat.le_add_right _ _)
  rw [advance]
  split
  case isTrue partly =>
    have whole : bits = nbits := by omega
    refine ⟨?_, ?_⟩
    · intro pos inside
      simp only [whole] at inside
      have early : ¬8 - writer.offset.val ≤ nbits + pos := by omega
      show buffer.getLsbD pos = false
      rw [fresh pos (by omega), decide_eq_false early, Bool.false_and]
    · show byteDigits writer.ostream ++ digits (writer.offset.val + bits)
        (buffer.toNat >>> (8 - (writer.offset.val + bits))) = _
      rw [digits_add, ← Nat.shiftRight_add, contents, append_assoc,
        show 8 - (writer.offset.val + bits) + bits = 8 - writer.offset.val by omega, front]
      congr 2
      refine digits_congr ?_
      intro pos inside
      have here : nbits + (8 - (writer.offset.val + bits) + pos) - (8 - writer.offset.val) =
        nbits - bits + pos := by omega
      rw [Nat.testBit_shiftRight, Nat.testBit_shiftRight, BitVec.testBit_toNat,
        fresh _ (by omega), here, decide_eq_true (by omega), Bool.true_and]
  case isFalse full =>
    have filled : bits = 8 - writer.offset.val := by omega
    refine ⟨clean_new, ?_⟩
    show byteDigits (writer.ostream ++ [buffer]) ++ [] = _
    rw [append_nil, byteDigits, flatMap_append, flatMap_singleton, contents,
      append_assoc, byteDigits, filled]
    congr 1
    rw [digits_split room.le, front]
    congr 1
    refine digits_congr ?_
    intro pos inside
    have here : nbits + pos - (8 - writer.offset.val) =
      nbits - (8 - writer.offset.val) + pos := by omega
    rw [Nat.testBit_shiftRight, BitVec.testBit_toNat, fresh _ inside, here,
      decide_eq_true (by omega), Bool.true_and]

/-- A write appends bits. -/
theorem writeLoop_spec (data : ℕ) (small : nbits ≤ 64) {writer : BitStreamWriter}
    (clean : writer.Clean) : (writeLoop data nbits writer).Clean ∧
      (writeLoop data nbits writer).contents = writer.contents ++ digits nbits data := by
  induction nbits using Nat.strongRecOn generalizing writer with
  | ind nbits ih =>
    rw [writeLoop]
    split
    case isFalse none =>
      rw [Nat.eq_zero_of_not_pos none]
      exact ⟨clean, (append_nil _).symm⟩
    case isTrue some =>
      have room := writer.offset.isLt
      obtain ⟨cleaned, appended⟩ := advance_spec clean data some small
      obtain ⟨cleaned', appended'⟩ := ih (nbits - min (8 - writer.offset.val) nbits) (by omega)
        (by omega) cleaned
      refine ⟨cleaned', ?_⟩
      rw [appended', appended, append_assoc, ← digits_split (Nat.min_le_right _ _)]

theorem write_spec (data : ℕ) (small : nbits ≤ 64) {writer : BitStreamWriter}
    (clean : writer.Clean) :
    ∃ later : BitStreamWriter, writer.write data nbits = .ok later ∧ later.Clean ∧
      later.contents = writer.contents ++ digits nbits data := by
  refine ⟨_, if_neg (Nat.not_lt.mpr small), writeLoop_spec data small clean⟩

theorem flush_spec (clean : writer.Clean) : ∃ padding < 8, byteDigits writer.flush.ostream =
      writer.contents ++ List.replicate padding false := by
  rw [flush]
  split
  case isTrue empty =>
    refine ⟨0, by decide, ?_⟩
    rw [contents, empty]
    simp [digits]
  case isFalse used =>
    have room := writer.offset.isLt
    have positive : writer.offset.val ≠ 0 := fun zero => used (Fin.ext zero)
    refine ⟨8 - writer.offset.val, by omega, ?_⟩
    rw [byteDigits, flatMap_append, flatMap_singleton, contents, append_assoc,
      byteDigits, digits_split room.le]
    congr 2
    have zeros : digits (8 - writer.offset.val) writer.buffer.toNat =
        digits (8 - writer.offset.val) 0 := by
      refine digits_congr ?_
      intro pos inside
      rw [BitVec.testBit_toNat, clean pos inside, Nat.zero_testBit]
    rw [zeros, digits_zeros]

end BitStreamWriter

/-! ## Reading -/

structure BitStreamReader where
  istream : List Byte
  buffer : Byte
  /-- The number of bits of the byte that have been read. -/
  offset : Fin 9
  deriving DecidableEq

namespace BitStreamReader

variable (reader : BitStreamReader) {first rest : List Bool}

/-- A reader of a stream; the first byte is taken off by the first read. -/
def new (istream : List Byte) : BitStreamReader := { istream, buffer := 0, offset := 8 }

/-- Take the next byte off if all bits of this one are read. -/
def refill : Except StreamFailure BitStreamReader :=
  if reader.offset = 8 then
    match reader.istream with
    | [] => .error .endOfData
    | byte :: rest => .ok { istream := rest, buffer := byte, offset := 0 }
  else .ok reader

theorem offset_refill {reader ready : BitStreamReader} (refilled : reader.refill = .ok ready) :
    ready.offset.val < 8 := by
  rw [refill] at refilled
  split at refilled
  case isTrue =>
    split at refilled
    · cases refilled
    · cases refilled
      exact Nat.zero_lt_succ 7
  case isFalse notAll =>
    cases refilled
    have bound := reader.offset.isLt
    have apart : reader.offset.val ≠ 8 := fun all => notAll (Fin.ext all)
    omega

def skip (bits : ℕ) (bound : bits ≤ 8 - reader.offset.val) : BitStreamReader :=
  { reader with offset := ⟨reader.offset.val + bits, by omega⟩ }

def readLoop (nbits data : ℕ) (reader : BitStreamReader) :
    Except StreamFailure (ℕ × BitStreamReader) :=
  if 0 < nbits then
    match refilled : reader.refill with
    | .error failure => .error failure
    | .ok reader =>
      let bits := min (8 - reader.offset.val) nbits
      let data := ((data <<< bits) % 2 ^ 64) |||
        ((reader.buffer <<< reader.offset.val).toNat >>> (8 - bits))
      readLoop (nbits - bits) data (reader.skip bits (Nat.min_le_left _ _))
  else .ok (data, reader)
termination_by nbits
decreasing_by
  have room := offset_refill refilled
  omega

def read (nbits : ℕ) (reader : BitStreamReader) : Except StreamFailure (ℕ × BitStreamReader) :=
  if 64 < nbits then .error .outOfRange else readLoop nbits 0 reader

def remaining : List Bool :=
  digits (8 - reader.offset.val) reader.buffer.toNat ++ byteDigits reader.istream

theorem length_remaining :
    reader.remaining.length = 8 - reader.offset.val + 8 * reader.istream.length := by
  rw [remaining, length_append, length_digits, length_byteDigits]

theorem remaining_refill {reader ready : BitStreamReader} (refilled : reader.refill = .ok ready) :
    ready.remaining = reader.remaining := by
  rw [refill] at refilled
  split at refilled
  case isTrue all =>
    split at refilled
    case h_1 => cases refilled
    case h_2 byte rest stream =>
      cases refilled
      rw [remaining, remaining, all, stream]
      rfl
  case isFalse =>
    cases refilled
    rfl

theorem exists_refill {reader : BitStreamReader} (left : reader.remaining ≠ []) :
    ∃ ready, reader.refill = .ok ready := by
  rw [refill]
  split
  case isFalse => exact ⟨reader, rfl⟩
  case isTrue all =>
    cases stream : reader.istream with
    | cons byte rest => exact ⟨_, rfl⟩
    | nil =>
      refine absurd ?_ left
      rw [remaining, all, stream]
      rfl

variable {bits : ℕ}

theorem remaining_skip (bound : bits ≤ 8 - reader.offset.val) : reader.remaining =
      digits bits (reader.buffer.toNat >>> (8 - reader.offset.val - bits)) ++
        (reader.skip bits bound).remaining := by
  rw [remaining, digits_split bound, append_assoc, remaining, skip]
  simp only [Nat.sub_sub]

theorem chunk_eq (bound : bits ≤ 8 - reader.offset.val) :
    (reader.buffer <<< reader.offset.val).toNat >>> (8 - bits) =
      value (digits bits (reader.buffer.toNat >>> (8 - reader.offset.val - bits))) := by
  rw [value_digits, BitVec.toNat_shiftLeft]
  refine Nat.eq_of_testBit_eq ?_
  intro pos
  rw [Nat.testBit_shiftRight, Nat.testBit_mod_two_pow, Nat.testBit_shiftLeft,
    Nat.testBit_mod_two_pow, Nat.testBit_shiftRight]
  have offsetLt := reader.offset.isLt
  by_cases inside : pos < bits
  · have here : 8 - bits + pos - reader.offset.val = 8 - reader.offset.val - bits + pos := by omega
    have bounds : 8 - bits + pos < 8 ∧ reader.offset.val ≤ 8 - bits + pos := by omega
    simp [inside, here, bounds]
  · have beyond : ¬8 - bits + pos < 8 := by omega
    simp [inside, beyond]

variable {reader}

/-- One round of a read takes bits from the byte, off the front of what is
left. -/
theorem skip_spec (bound : bits ≤ 8 - reader.offset.val) (left : reader.remaining = first ++ rest)
    (enough : bits ≤ first.length) : (reader.skip bits bound).remaining = first.drop bits ++ rest ∧
      (reader.buffer <<< reader.offset.val).toNat >>> (8 - bits) = value (first.take bits) := by
  have whole : first = first.take bits ++ first.drop bits := (take_append_drop _ _).symm
  rw [remaining_skip reader bound, whole, append_assoc] at left
  have lengths : (digits bits (reader.buffer.toNat >>> (8 - reader.offset.val - bits))).length =
      (first.take bits).length := by
    rw [length_digits, length_take_of_le enough]
  obtain ⟨taken, dropped⟩ := append_inj left lengths
  exact ⟨dropped, by rw [chunk_eq reader bound, taken]⟩

theorem shiftLeft_or {data chunk : ℕ} (small : chunk < 2 ^ bits) (fits : data * 2 ^ bits < 2 ^ 64) :
    ((data <<< bits) % 2 ^ 64) ||| chunk = data * 2 ^ bits + chunk := by
  rw [Nat.shiftLeft_eq, Nat.mod_eq_of_lt fits, ← Nat.shiftLeft_eq,
    ← Nat.shiftLeft_add_eq_or_of_lt small]

theorem word_split {data nbits chunk : ℕ} (bound : bits ≤ nbits) (small : chunk < 2 ^ bits)
    (fits : (data + 1) * 2 ^ nbits ≤ 2 ^ 64) : data * 2 ^ bits < 2 ^ 64 ∧
      (data * 2 ^ bits + chunk + 1) * 2 ^ (nbits - bits) ≤ 2 ^ 64 ∧
      (data * 2 ^ bits + chunk) * 2 ^ (nbits - bits) =
        data * 2 ^ nbits + chunk * 2 ^ (nbits - bits) := by
  have powers : 2 ^ nbits = 2 ^ bits * 2 ^ (nbits - bits) := by
    rw [← Nat.pow_add, Nat.add_sub_cancel' bound]
  have positive : 0 < 2 ^ (nbits - bits) := Nat.two_pow_pos _
  have next : data * 2 ^ bits + chunk + 1 ≤ (data + 1) * 2 ^ bits := by
    rw [Nat.add_mul, Nat.one_mul]
    omega
  have most := Nat.mul_le_mul_right (2 ^ (nbits - bits)) next
  rw [Nat.mul_assoc, ← powers] at most
  refine ⟨?_, most.trans fits, ?_⟩
  · have less := Nat.le_mul_of_pos_right (data * 2 ^ bits + chunk + 1) positive
    omega
  · rw [Nat.add_mul, Nat.mul_assoc, ← powers]

theorem readLoop_spec {nbits data : ℕ}
    (left : reader.remaining = first ++ rest) (length : first.length = nbits)
    (fits : (data + 1) * 2 ^ nbits ≤ 2 ^ 64) :
    ∃ later, readLoop nbits data reader = .ok (data * 2 ^ nbits + value first, later) ∧
      later.remaining = rest := by
  induction nbits using Nat.strongRecOn generalizing data reader first with
  | ind nbits ih =>
    rw [readLoop]
    split
    case isFalse none =>
      have zero := Nat.eq_zero_of_not_pos none
      rw [zero, length_eq_zero_iff] at length
      subst zero length
      exact ⟨reader, by simp [value], left⟩
    case isTrue some =>
      have ne : reader.remaining ≠ [] := by
        rw [left]
        intro empty
        rw [(append_eq_nil_iff.mp empty).1] at length
        exact some.ne length
      obtain ⟨ready, refilled⟩ := exists_refill ne
      have room := offset_refill refilled
      rw [← remaining_refill refilled] at left
      split
      case h_1 failure failed =>
        rw [refilled] at failed
        cases failed
      case h_2 ready' refilled' =>
        rw [refilled] at refilled'
        cases refilled'
        have enough : min (8 - ready.offset.val) nbits ≤ first.length :=
          (Nat.min_le_right _ _).trans length.ge
        obtain ⟨dropped, chunk⟩ := skip_spec (Nat.min_le_left _ _) left enough
        have split := value_append (first.take (min (8 - ready.offset.val) nbits))
          (first.drop (min (8 - ready.offset.val) nbits))
        have small := value_lt (first.take (min (8 - ready.offset.val) nbits))
        rw [take_append_drop, length_drop, length] at split
        rw [length_take_of_le enough] at small
        obtain ⟨word, fits', total⟩ := word_split (Nat.min_le_right _ _) small fits
        obtain ⟨later, read, behind⟩ := ih (nbits - min (8 - ready.offset.val) nbits) (by omega)
          dropped (by rw [length_drop, length]) fits'
        refine ⟨later, ?_, behind⟩
        simp only [chunk, shiftLeft_or small word]
        rw [read, split, ← Nat.add_assoc, total]

/-- A read returns the number of the bits it takes off. -/
theorem read_spec {nbits : ℕ} (small : nbits ≤ 64)
    (left : reader.remaining = first ++ rest) (length : first.length = nbits) :
    ∃ later, reader.read nbits = .ok (value first, later) ∧ later.remaining = rest := by
  have fits : (0 + 1) * 2 ^ nbits ≤ 2 ^ 64 := by
    rw [Nat.zero_add, Nat.one_mul]
    exact Nat.pow_le_pow_right (by decide) small
  obtain ⟨later, read, behind⟩ := readLoop_spec left length fits
  rw [Nat.zero_mul, Nat.zero_add] at read
  exact ⟨later, by rw [BitStreamReader.read, if_neg (Nat.not_lt.mpr small), read], behind⟩

theorem read_bit {bit : Bool} (left : reader.remaining = bit :: rest) :
    ∃ later, reader.read 1 = .ok (bit.toNat, later) ∧ later.remaining = rest := by
  rw [← singleton_append] at left
  obtain ⟨later, read, behind⟩ := read_spec (by decide) left (length_singleton)
  rw [value_cons, length_nil, Nat.pow_zero, Nat.mul_one] at read
  exact ⟨later, read, behind⟩

theorem length_remaining_readLoop {nbits data number : ℕ} {reader later : BitStreamReader}
    (read : readLoop nbits data reader = .ok (number, later)) :
    later.remaining.length + nbits = reader.remaining.length := by
  induction nbits using Nat.strongRecOn generalizing data reader with
  | ind nbits ih =>
    rw [readLoop] at read
    split at read
    case isFalse none =>
      cases read
      omega
    case isTrue some =>
      split at read
      case h_1 => cases read
      case h_2 ready refilled =>
        have room := offset_refill refilled
        have skipped := congrArg List.length
          (remaining_skip ready (Nat.min_le_left (8 - ready.offset.val) nbits))
        have behind := ih _ (by omega) read
        rw [length_append, length_digits] at skipped
        rw [← remaining_refill refilled]
        omega

end BitStreamReader

end BitcoinCore.Streams
