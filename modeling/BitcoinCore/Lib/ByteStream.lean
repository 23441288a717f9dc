import Mathlib

/-!
# Reading what was written

A reader takes a value off the front of a stream of bytes, or fails. Some bytes
read as a value when the reader returns the value from them and leaves what
follows (`Reads`). Readers that run one after the other read what was written one
after the other (`Reads.bind`), so a format is checked part by part.

The parts given here are little-endian numbers (`reads_writeLE`) and a known
number of equal items (`reads_readMany`).
-/

namespace ByteStream

open List

abbrev Byte := BitVec 8

abbrev Reader (Failure α : Type) := StateT (List Byte) (Except Failure) α

variable {Failure α β : Type} {reader : Reader Failure α} {bytes : List Byte} {val : α}

/-- The reader returns the value from the bytes and leaves what follows them. -/
def Reads (reader : Reader Failure α) (bytes : List Byte) (val : α) : Prop :=
  ∀ rest, reader.run (bytes ++ rest) = .ok (val, rest)

theorem Reads.run (reads : Reads reader bytes val) : reader.run bytes = .ok (val, []) := by
  simpa using reads []

theorem Reads.pure (val : α) : Reads (pure val : Reader Failure α) [] val := by
  intro rest
  rfl

theorem Reads.run_bind
    (reads : Reads reader bytes val) (next : α → Reader Failure β) (rest : List Byte) :
    (reader >>= next).run (bytes ++ rest) = (next val).run rest := by
  rw [StateT.run_bind, reads rest]
  rfl

theorem Reads.bind {next : α → Reader Failure β}
    {following : List Byte} {result : β} (reads : Reads reader bytes val)
    (nextReads : Reads (next val) following result) :
    Reads (reader >>= next) (bytes ++ following) result := by
  intro rest
  rw [append_assoc, reads.run_bind]
  exact nextReads rest

theorem Reads.map (f : α → β)
    (reads : Reads reader bytes val) : Reads (f <$> reader) bytes (f val) := by
  intro rest
  rw [StateT.run_map, reads rest]
  rfl

/-! ## Conditions -/

def require (failure : Failure) (cond : Bool) : Reader Failure Unit :=
  if cond then pure () else throw failure

theorem reads_require {failure : Failure} {cond : Bool} (holds : cond) :
    Reads (require failure cond) [] () := by
  rw [require, if_pos holds]
  exact Reads.pure ()

/-! ## Numbers -/

section

variable (endOfData : Failure)

def readByte : Reader Failure Byte := fun
  | [] => .error endOfData
  | byte :: rest => .ok (byte, rest)

theorem reads_readByte (byte : Byte) : Reads (readByte endOfData) [byte] byte := by
  intro rest
  rfl

def writeLE : ℕ → ℕ → List Byte
  | 0, _ => []
  | width + 1, num => BitVec.ofNat 8 num :: writeLE width (num / 256)

def readLE : ℕ → Reader Failure ℕ
  | 0 => pure 0
  | width + 1 => do
    let byte ← readByte endOfData
    let high ← readLE width
    pure (byte.toNat + 256 * high)

theorem reads_writeLE {width num : ℕ} (fits : num < 256 ^ width) :
    Reads (readLE endOfData width) (writeLE width num) num := by
  induction width generalizing num with
  | zero =>
    rw [pow_zero, Nat.lt_one_iff] at fits
    subst fits
    exact Reads.pure 0
  | succ width ih =>
    have highFits : num / 256 < 256 ^ width := by
      rw [Nat.div_lt_iff_lt_mul (by decide), ← pow_succ]
      exact fits
    have split : (BitVec.ofNat 8 num).toNat + 256 * (num / 256) = num := by
      rw [BitVec.toNat_ofNat]
      exact Nat.mod_add_div num 256
    rw [writeLE, ← singleton_append, ← append_nil (writeLE width (num / 256)), readLE]
    nth_rewrite 3 [← split]
    exact (reads_readByte endOfData _).bind ((ih highFits).bind (Reads.pure _))

end

/-! ## Items -/

def readMany (reader : Reader Failure α) : ℕ → Reader Failure (List α)
  | 0 => pure []
  | count + 1 => do
    let item ← reader
    let items ← readMany reader count
    pure (item :: items)

/-- Items that are each read back are read back together. -/
theorem reads_readMany {write : α → List Byte} {items : List α}
    (reads : ∀ item ∈ items, Reads reader (write item) item) :
    Reads (readMany reader items.length) (items.flatMap write) items := by
  induction items with
  | nil => exact Reads.pure []
  | cons item items ih =>
    have itemReads := reads item mem_cons_self
    have itemsRead := ih fun other mem => reads other (mem_cons_of_mem item mem)
    rw [flatMap_cons, length_cons, readMany, ← append_nil (items.flatMap write)]
    exact itemReads.bind (itemsRead.bind (Reads.pure _))

end ByteStream
