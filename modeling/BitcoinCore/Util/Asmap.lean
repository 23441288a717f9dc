import BitcoinCore.Lib.CheckedAccess

/-!
# The bytecode of address maps

An asmap is a bytecode program that finds the number of an address's network. `Interpret`
runs it and follows one path, which the bits of the address decide; `SanityCheckAsmap`
scans it once from front to back, with a stack of the jump targets that are still ahead.
Reads are checked: one outside the asmap or the address is a fault, and so are the
assertion at the end of `Interpret` and a run that takes too many steps.

Every position from which the scan goes on is a position from which the interpreter
returns, with any address that has the number of bits left that the scan counted (`Safe`).
The scan meets every jump target with the bits it had at the jump, so the interpreter
returns on every address (`interpret_returns`).
-/

namespace BitcoinCore.Asmap

open CheckedAccess

inductive Fault where
  | outOfBounds
  | assertion
  | outOfSteps
  deriving DecidableEq

def invalid : ℕ := 0xFFFFFFFF

def consumeBitLE (bytes : List UInt8) (bitpos : ℕ) : Except Fault (Bool × ℕ) := do
  let byte ← readAt .outOfBounds bytes (bitpos / 8)
  return (byte.toNat.testBit (bitpos % 8), bitpos + 1)

/-- Read a bit of the address, the highest bit of each byte first. The position has eight
bits. -/
def consumeBitBE (bytes : List UInt8) (bitpos : ℕ) : Except Fault (Bool × ℕ) := do
  let byte ← readAt .outOfBounds bytes (bitpos / 8)
  return (byte.toNat.testBit (7 - bitpos % 8), (bitpos + 1) % 2 ^ 8)

section

variable (data : List UInt8) (bitpos : ℕ)

/-- The inner loop of `DecodeBits`: the position within a class. -/
def decodeMantissa : ℕ → ℕ → ℕ → Except Fault (ℕ × ℕ)
  | 0, val, bitpos => return (val, bitpos)
  | left + 1, val, bitpos =>
    if data.length * 8 ≤ bitpos then return (invalid, bitpos)
    else do
      let read ← consumeBitLE data bitpos
      decodeMantissa left (if read.1 then val + 2 ^ left else val) read.2

def decodeBits : ℕ → List ℕ → ℕ → Except Fault (ℕ × ℕ)
  | _, [], bitpos => return (invalid, bitpos)
  | val, [size], bitpos => decodeMantissa data size val bitpos
  | val, size :: next :: sizes, bitpos =>
    if data.length * 8 ≤ bitpos then return (invalid, bitpos)
    else do
      let read ← consumeBitLE data bitpos
      if read.1 then decodeBits (val + 2 ^ size) (next :: sizes) read.2
      else decodeMantissa data size val read.2

inductive Instruction where
  | returnAsn
  | jump
  | matchBits
  | defaultAsn
  | straddlesEnd
  deriving DecidableEq

def Instruction.ofValue : ℕ → Instruction
  | 0 => .returnAsn
  | 1 => .jump
  | 2 => .matchBits
  | 3 => .defaultAsn
  | _ => .straddlesEnd

def typeBitSizes : List ℕ := [0, 0, 1]

def asnBitSizes : List ℕ := [15, 16, 17, 18, 19, 20, 21, 22, 23, 24]

def matchBitSizes : List ℕ := [1, 2, 3, 4, 5, 6, 7, 8]

def jumpBitSizes : List ℕ :=
  [5, 6, 7, 8, 9, 10, 11, 12, 13, 14, 15, 16, 17, 18, 19, 20, 21, 22, 23, 24, 25, 26, 27, 28, 29, 30]

def decodeType : Except Fault (Instruction × ℕ) := do
  let decoded ← decodeBits data 0 typeBitSizes bitpos
  return (Instruction.ofValue decoded.1, decoded.2)

def decodeAsn : Except Fault (ℕ × ℕ) := decodeBits data 1 asnBitSizes bitpos

def decodeMatch : Except Fault (ℕ × ℕ) := decodeBits data 2 matchBitSizes bitpos

def decodeJump : Except Fault (ℕ × ℕ) := decodeBits data 17 jumpBitSizes bitpos

end

/-- The number of bits of the address that a match instruction compares. -/
def matchLength (value : ℕ) : ℕ := value.size - 1

section

variable (asmap ip : List UInt8)

/-- Compare bits of the address with the lower bits of a value; the result tells whether all
were equal. -/
def compareBits (value : ℕ) : ℕ → ℕ → Except Fault (Bool × ℕ)
  | 0, ipBit => return (true, ipBit)
  | left + 1, ipBit => do
    let read ← consumeBitBE ip ipBit
    if read.1 ≠ value.testBit left then return (false, read.2) else compareBits value left read.2

def interpretLoop : ℕ → ℕ → ℕ → ℕ → Except Fault ℕ
  | 0, _, _, _ => throw .outOfSteps
  | steps + 1, pos, ipBit, defaultAsn =>
    let endpos := asmap.length * 8
    let ipBitsEnd := ip.length * 8 % 2 ^ 8
    if pos < endpos then do
      let opcode ← decodeType asmap pos
      match opcode.1 with
      | .returnAsn => do
        let asn ← decodeAsn asmap opcode.2
        if asn.1 = invalid then throw .assertion else return asn.1
      | .jump => do
        let jump ← decodeJump asmap opcode.2
        if jump.1 = invalid then throw .assertion
        else if ipBit = ipBitsEnd then throw .assertion
        else if endpos - jump.2 ≤ jump.1 then throw .assertion
        else do
          let read ← consumeBitBE ip ipBit
          interpretLoop steps (if read.1 then jump.2 + jump.1 else jump.2) read.2 defaultAsn
      | .matchBits => do
        let value ← decodeMatch asmap opcode.2
        if value.1 = invalid then throw .assertion
        else if ipBitsEnd - ipBit < matchLength value.1 then throw .assertion
        else do
          let compared ← compareBits ip value.1 (matchLength value.1) ipBit
          if compared.1 then interpretLoop steps value.2 compared.2 defaultAsn
          else return defaultAsn
      | .defaultAsn => do
        let asn ← decodeAsn asmap opcode.2
        if asn.1 = invalid then throw .assertion else interpretLoop steps asn.2 ipBit asn.1
      | .straddlesEnd => throw .assertion
    else throw .assertion

def interpret : Except Fault ℕ := interpretLoop asmap ip (asmap.length * 8) 0 0 0

end

section

variable (asmap : List UInt8)

def zeroPadding : ℕ → ℕ → Except Fault Bool
  | 0, _ => return true
  | left + 1, pos => do
    let read ← consumeBitLE asmap pos
    if read.1 then return false else zeroPadding left read.2

/-- The loop of `SanityCheckAsmap`, with a bound on its steps. The jumps have the last one
first. -/
def sanityLoop : ℕ → ℕ → List (ℕ × ℕ) → ℕ → Instruction → Bool → Except Fault Bool
  | 0, _, _, _, _, _ => throw .outOfSteps
  | steps + 1, pos, jumps, bits, prevopcode, hadIncompleteMatch =>
    let endpos := asmap.length * 8
    if pos = endpos then return false
    else if (jumps.head?.any fun last => decide (last.1 ≤ pos)) = true then return false
    else do
      let opcode ← decodeType asmap pos
      match opcode.1 with
      | .returnAsn =>
        if prevopcode = .defaultAsn then return false
        else do
          let asn ← decodeAsn asmap opcode.2
          if asn.1 = invalid then return false
          else
            match jumps with
            | [] =>
              if 7 < endpos - asn.2 then return false
              else zeroPadding asmap (endpos - asn.2) asn.2
            | last :: jumps =>
              if asn.2 ≠ last.1 then return false
              else sanityLoop steps asn.2 jumps last.2 .jump hadIncompleteMatch
      | .jump => do
        let jump ← decodeJump asmap opcode.2
        if jump.1 = invalid then return false
        else if endpos - jump.2 < jump.1 then return false
        else if bits = 0 then return false
        else
          let jumpOffset := (jump.2 + jump.1) % 2 ^ 32
          if (jumps.head?.any fun last => decide (last.1 ≤ jumpOffset)) = true then return false
          else
            sanityLoop steps jump.2 ((jumpOffset, bits - 1) :: jumps) (bits - 1) .jump
              hadIncompleteMatch
      | .matchBits => do
        let value ← decodeMatch asmap opcode.2
        if value.1 = invalid then return false
        else
          let hadIncomplete := if prevopcode ≠ .matchBits then false else hadIncompleteMatch
          if matchLength value.1 < 8 ∧ hadIncomplete = true then return false
          else if bits < matchLength value.1 then return false
          else
            sanityLoop steps value.2 jumps (bits - matchLength value.1) .matchBits
              (decide (matchLength value.1 < 8))
      | .defaultAsn =>
        if prevopcode = .defaultAsn then return false
        else do
          let asn ← decodeAsn asmap opcode.2
          if asn.1 = invalid then return false
          else sanityLoop steps asn.2 jumps bits .defaultAsn hadIncompleteMatch
      | .straddlesEnd => return false

def sanityCheckAsmap (bits : ℕ) : Except Fault Bool :=
  sanityLoop asmap (asmap.length * 8 + 1) 0 [] bits .jump false

end

/-! ## Reading and decoding -/

section

variable {data : List UInt8} {bitpos : ℕ}

theorem readAt_bit (isIn : bitpos < data.length * 8) :
    ∃ byte, readAt Fault.outOfBounds data (bitpos / 8) = .ok byte := by
  have bound : bitpos / 8 < data.length := by omega
  exact ⟨_, readAt_of_getElem? (List.getElem?_eq_getElem bound)⟩

theorem consumeBitLE_spec (isIn : bitpos < data.length * 8) :
    ∃ bit, consumeBitLE data bitpos = .ok (bit, bitpos + 1) := by
  obtain ⟨byte, found⟩ := readAt_bit isIn
  refine ⟨byte.toNat.testBit (bitpos % 8), ?_⟩
  rw [consumeBitLE, found]
  rfl

theorem consumeBitBE_spec (isIn : bitpos < data.length * 8) (small : data.length * 8 < 2 ^ 8) :
    ∃ bit, consumeBitBE data bitpos = .ok (bit, bitpos + 1) := by
  obtain ⟨byte, found⟩ := readAt_bit isIn
  refine ⟨byte.toNat.testBit (7 - bitpos % 8), ?_⟩
  have fits : (bitpos + 1) % 2 ^ 8 = bitpos + 1 := Nat.mod_eq_of_lt (by omega)
  rw [consumeBitBE, found, ok_bind, fits]
  rfl

/-- A decoding reads nothing outside the data, and goes forward. -/
theorem decodeMantissa_spec (left val : ℕ) (le : bitpos ≤ data.length * 8) :
    ∃ value pos, decodeMantissa data left val bitpos = .ok (value, pos) ∧ bitpos ≤ pos ∧
      pos ≤ data.length * 8 := by
  induction left generalizing val bitpos with
  | zero => exact ⟨val, bitpos, rfl, le_rfl, le⟩
  | succ left ih =>
    rw [decodeMantissa]
    split
    case isTrue => exact ⟨invalid, bitpos, rfl, le_rfl, le⟩
    case isFalse isIn =>
      obtain ⟨bit, read⟩ := consumeBitLE_spec (not_le.mp isIn)
      rw [read, ok_bind]
      obtain ⟨value, pos, decoded, forward, bound⟩ :=
        ih (if bit then val + 2 ^ left else val) (by omega : bitpos + 1 ≤ data.length * 8)
      exact ⟨value, pos, decoded, by omega, bound⟩

theorem decodeBits_spec (val : ℕ) (sizes : List ℕ) (le : bitpos ≤ data.length * 8) :
    ∃ value pos, decodeBits data val sizes bitpos = .ok (value, pos) ∧ bitpos ≤ pos ∧
      pos ≤ data.length * 8 ∧ (bitpos < data.length * 8 → 2 ≤ sizes.length → bitpos < pos) := by
  induction sizes generalizing val bitpos with
  | nil => exact ⟨invalid, bitpos, rfl, le_rfl, le, fun _ two => absurd two (by simp)⟩
  | cons size sizes ih =>
    cases sizes with
    | nil =>
      obtain ⟨value, pos, decoded, forward, bound⟩ := decodeMantissa_spec size val le
      exact ⟨value, pos, decoded, forward, bound, fun _ two => absurd two (by simp)⟩
    | cons next sizes =>
      rw [decodeBits]
      split
      case isTrue outside =>
        exact ⟨invalid, bitpos, rfl, le_rfl, le, fun isIn => absurd isIn (by omega)⟩
      case isFalse isIn =>
        obtain ⟨bit, read⟩ := consumeBitLE_spec (not_le.mp isIn)
        rw [read, ok_bind]
        cases bit with
        | true =>
          obtain ⟨value, pos, decoded, forward, bound, -⟩ :=
            ih (val + 2 ^ size) (by omega : bitpos + 1 ≤ data.length * 8)
          exact ⟨value, pos, decoded, by omega, bound, fun _ _ => by omega⟩
        | false =>
          obtain ⟨value, pos, decoded, forward, bound⟩ :=
            decodeMantissa_spec size val (by omega : bitpos + 1 ≤ data.length * 8)
          exact ⟨value, pos, decoded, by omega, bound, fun _ _ => by omega⟩

theorem decodeType_spec (isIn : bitpos < data.length * 8) :
    ∃ opcode pos, decodeType data bitpos = .ok (opcode, pos) ∧ bitpos < pos ∧
      pos ≤ data.length * 8 := by
  obtain ⟨value, pos, decoded, -, bound, forward⟩ := decodeBits_spec 0 typeBitSizes (Nat.le_of_lt isIn)
  refine ⟨Instruction.ofValue value, pos, ?_, forward isIn (by decide), bound⟩
  rw [decodeType, decoded]
  rfl

end

/-! ## The interpreter -/

section

variable {asmap : List UInt8} {pos pos' bits : ℕ}

/-- The interpreter returns from a position, on every address with a number of bits left. -/
def Safe (asmap : List UInt8) (pos bits : ℕ) : Prop :=
  pos < asmap.length * 8 ∧ ∀ (ip : List UInt8) (ipBit defaultAsn steps : ℕ), ip.length * 8 < 2 ^ 8 →
      ipBit + bits = ip.length * 8 → asmap.length * 8 - pos ≤ steps →
      ∃ asn, interpretLoop asmap ip steps pos ipBit defaultAsn = .ok asn

theorem compareBits_spec {ip : List UInt8} (small : ip.length * 8 < 2 ^ 8) (value : ℕ) {left ipBit : ℕ}
    (enough : ipBit + left ≤ ip.length * 8) :
    ∃ equal, ∃ ipBit', compareBits ip value left ipBit = .ok (equal, ipBit') ∧
      (equal → ipBit' = ipBit + left) := by
  induction left generalizing ipBit with
  | zero => exact ⟨true, ipBit, rfl, fun _ => rfl⟩
  | succ left ih =>
    obtain ⟨bit, read⟩ := consumeBitBE_spec (by omega : ipBit < ip.length * 8) small
    rw [compareBits, read, ok_bind]
    dsimp only
    split
    case isTrue => exact ⟨false, ipBit + 1, rfl, fun wrong => absurd wrong (by decide)⟩
    case isFalse =>
      obtain ⟨equal, ipBit', compared, all⟩ := ih (by omega : ipBit + 1 + left ≤ ip.length * 8)
      exact ⟨equal, ipBit', compared, fun same => by rw [all same]; omega⟩

/-! A position is safe when the positions after its instruction are. -/

section

variable (isIn : pos < asmap.length * 8)
include isIn

theorem safe_returnAsn (opcode : decodeType asmap pos = .ok (.returnAsn, pos')) {asn : ℕ × ℕ}
    (decoded : decodeAsn asmap pos' = .ok asn) (valid : asn.1 ≠ invalid) : Safe asmap pos bits := by
  refine ⟨isIn, fun ip ipBit defaultAsn steps small bitsLeft enough => ⟨asn.1, ?_⟩⟩
  obtain ⟨steps, rfl⟩ : ∃ less, steps = less + 1 := Nat.exists_eq_succ_of_ne_zero (by omega)
  rw [interpretLoop, if_pos isIn, opcode, ok_bind]
  dsimp only
  rw [decoded, ok_bind, if_neg valid]
  rfl

theorem safe_jump
    (opcode : decodeType asmap pos = .ok (.jump, pos')) (forward : pos < pos') {jump after : ℕ}
    (decoded : decodeJump asmap pos' = .ok (jump, after)) (forward' : pos' ≤ after)
    (valid : jump ≠ invalid) (some_left : bits ≠ 0) (next : Safe asmap after (bits - 1))
    (target : Safe asmap (after + jump) (bits - 1)) : Safe asmap pos bits := by
  refine ⟨isIn, fun ip ipBit defaultAsn steps small bitsLeft enough => ?_⟩
  obtain ⟨steps, rfl⟩ : ∃ less, steps = less + 1 := Nat.exists_eq_succ_of_ne_zero (by omega)
  have fits : ip.length * 8 % 2 ^ 8 = ip.length * 8 := Nat.mod_eq_of_lt small
  have target_inside := target.1
  obtain ⟨bit, read⟩ := consumeBitBE_spec (by omega : ipBit < ip.length * 8) small
  rw [interpretLoop, if_pos isIn, opcode, ok_bind]
  dsimp only
  rw [decoded, ok_bind, if_neg valid, fits, if_neg (by omega), if_neg (by omega), read, ok_bind]
  cases bit with
  | true => exact target.2 ip (ipBit + 1) defaultAsn steps small (by omega) (by omega)
  | false => exact next.2 ip (ipBit + 1) defaultAsn steps small (by omega) (by omega)

theorem safe_matchBits
    (opcode : decodeType asmap pos = .ok (.matchBits, pos')) (forward : pos < pos') {value after : ℕ}
    (decoded : decodeMatch asmap pos' = .ok (value, after)) (forward' : pos' ≤ after)
    (valid : value ≠ invalid) (enough_bits : matchLength value ≤ bits)
    (next : Safe asmap after (bits - matchLength value)) : Safe asmap pos bits := by
  refine ⟨isIn, fun ip ipBit defaultAsn steps small bitsLeft enough => ?_⟩
  obtain ⟨steps, rfl⟩ : ∃ less, steps = less + 1 := Nat.exists_eq_succ_of_ne_zero (by omega)
  have fits : ip.length * 8 % 2 ^ 8 = ip.length * 8 := Nat.mod_eq_of_lt small
  obtain ⟨equal, ipBit', compared, all⟩ :=
    compareBits_spec small value (by omega : ipBit + matchLength value ≤ ip.length * 8)
  rw [interpretLoop, if_pos isIn, opcode, ok_bind]
  dsimp only
  rw [decoded, ok_bind]
  dsimp only
  rw [if_neg valid, fits, if_neg (by omega), compared, ok_bind]
  cases equal with
  | true =>
    rw [if_pos rfl, all rfl]
    exact next.2 ip (ipBit + matchLength value) defaultAsn steps small (by omega) (by omega)
  | false => exact ⟨defaultAsn, rfl⟩

theorem safe_defaultAsn
    (opcode : decodeType asmap pos = .ok (.defaultAsn, pos')) (forward : pos < pos') {asn after : ℕ}
    (decoded : decodeAsn asmap pos' = .ok (asn, after)) (forward' : pos' ≤ after)
    (valid : asn ≠ invalid) (next : Safe asmap after bits) : Safe asmap pos bits := by
  refine ⟨isIn, fun ip ipBit defaultAsn steps small bitsLeft enough => ?_⟩
  obtain ⟨steps, rfl⟩ : ∃ less, steps = less + 1 := Nat.exists_eq_succ_of_ne_zero (by omega)
  rw [interpretLoop, if_pos isIn, opcode, ok_bind]
  dsimp only
  rw [decoded, ok_bind, if_neg valid]
  exact next.2 ip ipBit asn steps small bitsLeft (by omega)

end

/-! ## The scan -/

theorem of_accepted {failed : Prop} [Decidable failed] {rest : Except Fault Bool}
    (acc : (if failed then .ok false else rest) = .ok true) : ¬ failed ∧ rest = .ok true := by
  split at acc
  case isTrue => cases acc
  case isFalse passed => exact ⟨passed, acc⟩

/-- What the scan accepts is safe: the position it stands at, and all the jump targets
that are still ahead. -/
theorem safe_of_sanityLoop (short : asmap.length * 8 < 2 ^ 32) {steps : ℕ}
    {jumps : List (ℕ × ℕ)} {prevopcode : Instruction} {hadIncompleteMatch : Bool}
    (le : pos ≤ asmap.length * 8)
    (acc : sanityLoop asmap steps pos jumps bits prevopcode hadIncompleteMatch = .ok true) :
    Safe asmap pos bits ∧ ∀ jump ∈ jumps, Safe asmap jump.1 jump.2 := by
  induction steps generalizing pos jumps bits prevopcode hadIncompleteMatch with
  | zero => cases acc
  | succ steps ih =>
    rw [sanityLoop] at acc
    dsimp only at acc
    obtain ⟨notEnd, acc⟩ := of_accepted acc
    have isIn : pos < asmap.length * 8 := by omega
    obtain ⟨-, acc⟩ := of_accepted acc
    obtain ⟨instruction, pos', opcode, forward, bound⟩ := decodeType_spec isIn
    rw [opcode, ok_bind] at acc
    cases instruction with
    | returnAsn =>
      dsimp only at acc
      obtain ⟨-, acc⟩ := of_accepted acc
      obtain ⟨asn, after, decoded, forward', bound', -⟩ := decodeBits_spec 1 asnBitSizes bound
      rw [decodeAsn, decoded, ok_bind] at acc
      obtain ⟨valid, acc⟩ := of_accepted acc
      have returns : ∀ bits, Safe asmap pos bits :=
        fun bits => safe_returnAsn isIn opcode decoded valid
      cases jumps with
      | nil => exact ⟨returns bits, List.forall_mem_nil _⟩
      | cons last jumps =>
        dsimp only at acc
        obtain ⟨here, acc⟩ := of_accepted acc
        rw [not_not] at here
        obtain ⟨next, rest⟩ := ih bound' acc
        rw [here] at next
        exact ⟨returns bits, List.forall_mem_cons.mpr ⟨next, rest⟩⟩
    | jump =>
      obtain ⟨jump, after, decoded, forward', bound', -⟩ := decodeBits_spec 17 jumpBitSizes bound
      dsimp only at acc
      rw [decodeJump, decoded, ok_bind] at acc
      dsimp only at acc
      obtain ⟨valid, acc⟩ := of_accepted acc
      obtain ⟨inRange, acc⟩ := of_accepted acc
      obtain ⟨some_left, acc⟩ := of_accepted acc
      obtain ⟨-, acc⟩ := of_accepted acc
      have offset : (after + jump) % 2 ^ 32 = after + jump := Nat.mod_eq_of_lt (by omega)
      obtain ⟨next, rest⟩ := ih bound' acc
      rw [offset] at rest
      obtain ⟨target, rest⟩ := List.forall_mem_cons.mp rest
      exact ⟨safe_jump isIn opcode forward decoded forward' valid some_left next target, rest⟩
    | matchBits =>
      obtain ⟨value, after, decoded, forward', bound', -⟩ := decodeBits_spec 2 matchBitSizes bound
      dsimp only at acc
      rw [decodeMatch, decoded, ok_bind] at acc
      dsimp only at acc
      generalize (if prevopcode ≠ .matchBits then false else hadIncompleteMatch) = incomplete
        at acc
      obtain ⟨valid, acc⟩ := of_accepted acc
      obtain ⟨-, acc⟩ := of_accepted acc
      obtain ⟨enough, acc⟩ := of_accepted acc
      obtain ⟨next, rest⟩ := ih bound' acc
      exact ⟨safe_matchBits isIn opcode forward decoded forward' valid (not_lt.mp enough) next,
        rest⟩
    | defaultAsn =>
      dsimp only at acc
      obtain ⟨-, acc⟩ := of_accepted acc
      obtain ⟨asn, after, decoded, forward', bound', -⟩ := decodeBits_spec 1 asnBitSizes bound
      rw [decodeAsn, decoded, ok_bind] at acc
      dsimp only at acc
      obtain ⟨valid, acc⟩ := of_accepted acc
      obtain ⟨next, rest⟩ := ih bound' acc
      exact ⟨safe_defaultAsn isIn opcode forward decoded forward' valid next, rest⟩
    | straddlesEnd => cases acc

end

/-- On an accepted asmap the interpreter returns, for every address: it does not reach
its assertion, reads nothing outside the asmap or the address, and takes no more steps than
the asmap has bits. -/
theorem interpret_returns (asmap ip : List UInt8) (bits : ℕ) (short : asmap.length < 2 ^ 29)
    (small : bits ≤ 248) (acc : sanityCheckAsmap asmap bits = .ok true)
    (exact_bits : ip.length * 8 = bits) : ∃ asn, interpret asmap ip = .ok asn := by
  obtain ⟨⟨-, safe⟩, -⟩ := safe_of_sanityLoop (by omega) (Nat.zero_le _) acc
  exact safe ip 0 0 (asmap.length * 8) (by omega) (by omega) (by omega)

theorem interpret_returns_zeros :
    sanityCheckAsmap [0, 0, 0] 8 = .ok true ∧ ∃ asn, interpret [0, 0, 0] [77] = .ok asn :=
  ⟨rfl, interpret_returns [0, 0, 0] [77] 8 (by decide) (by decide) rfl (by decide)⟩

end BitcoinCore.Asmap
