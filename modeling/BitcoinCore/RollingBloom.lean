import BitcoinCore.Util.FastRange

/-!
# The rolling bloom filter

`CRollingBloomFilter` of `common/bloom.cpp` stores a generation from 1 to 3 at every position
a key hashes to. A generation takes half of the capacity; when it is full the next one starts,
and the positions that still hold its number are wiped.

The `i`-th insertion belongs to the era `i / nEntriesPerGeneration`, and its generation is the
era modulo 3. A position holds the stamp of the insertion that marked it last until the third
era after it begins (`generation_run`), whatever other keys collide with it.
-/

namespace BitcoinCore.RollingBloom

open List BitVec

/-- The words `data[p]` and `data[p + 1]` for an even `p`: the low and the high bits of 64
generations, where 0 is an empty position. -/
abbrev Words := BitVec 64 × BitVec 64

/-- The body of the wiping loop. -/
def wipe (nGeneration : ℕ) (words : Words) : Words :=
  let nGenerationMask1 := 0#64 - BitVec.ofNat 64 (nGeneration &&& 1)
  let nGenerationMask2 := 0#64 - BitVec.ofNat 64 (nGeneration >>> 1)
  let mask := (words.1 ^^^ nGenerationMask1) ||| (words.2 ^^^ nGenerationMask2)
  (words.1 &&& mask, words.2 &&& mask)

def mark (nGeneration bit : ℕ) (words : Words) : Words :=
  ((words.1 &&& ~~~(1#64 <<< bit)) ||| BitVec.ofNat 64 (nGeneration &&& 1) <<< bit,
    (words.2 &&& ~~~(1#64 <<< bit)) ||| BitVec.ofNat 64 (nGeneration >>> 1) <<< bit)

def Words.generation (words : Words) (bit : ℕ) : ℕ :=
  (words.1.getLsbD bit).toNat + 2 * (words.2.getLsbD bit).toNat

section

variable {words : Words} {bit : ℕ}

theorem generation_ne_zero :
    words.generation bit ≠ 0 ↔ ((words.1 ||| words.2) >>> bit) &&& 1#64 ≠ 0#64 := by
  rw [and_one_eq_setWidth_ofBool_getLsbD, getLsbD_ushiftRight, getLsbD_or,
    Nat.add_zero, Words.generation]
  cases words.1.getLsbD bit <;> cases words.2.getLsbD bit <;> decide

variable (small : bit < 64) {gen : ℕ} (valid : gen = 1 ∨ gen = 2 ∨ gen = 3)
include small valid

theorem generation_wipe :
    (wipe gen words).generation bit =
      if words.generation bit = gen then 0 else words.generation bit := by
  have ones : 0#64 - 1#64 = allOnes 64 := by decide
  have zeros : 0#64 - 0#64 = 0#64 := by decide
  rcases valid with rfl | rfl | rfl
  all_goals
    simp only [wipe, Words.generation, Nat.reduceAnd, Nat.reduceShiftRight, ones, zeros,
      getLsbD_and, getLsbD_or, getLsbD_xor, getLsbD_allOnes,
      getLsbD_zero, small, decide_true]
    obtain low | low := Bool.eq_false_or_eq_true (words.1.getLsbD bit) <;>
      obtain high | high := Bool.eq_false_or_eq_true (words.2.getLsbD bit) <;>
        simp [low, high]

theorem generation_mark {marked : ℕ} :
    (mark gen marked words).generation bit =
      if bit = marked then gen else words.generation bit := by
  by_cases same : bit = marked
  · subst same
    rcases valid with rfl | rfl | rfl <;> simp [mark, Words.generation, small]
  · have apart : bit - marked = 0 ↔ bit < marked := by omega
    rcases valid with rfl | rfl | rfl <;> simp [mark, Words.generation, small, same, apart]

end

/-- The `2 * (pairs + 1)` words of a filter, which is never empty. -/
abbrev Data (pairs : ℕ) := Fin (pairs + 1) → Words

structure CRollingBloomFilter (pairs : ℕ) where
  nEntriesPerGeneration : ℕ
  nEntriesThisGeneration : ℕ
  nGeneration : ℕ
  data : Data pairs

abbrev Position (pairs : ℕ) := Fin (pairs + 1) × Fin 64

variable {Key : Type*} {pairs : ℕ}

/-- The pair of words and the bit that a hash selects. -/
def position (h : UInt32) : Position pairs :=
  (⟨fastRange32 h (2 * (pairs + 1)) / 2,
      Nat.div_lt_of_lt_mul (fastRange32_lt h (Nat.succ_pos _))⟩,
    ⟨(h &&& 0x3F).toNat, Nat.lt_succ_of_le (UInt32.toNat_and h 0x3F ▸ Nat.and_le_right)⟩)

variable (hashes : Key → List UInt32)

/-- `hashes` lists the `RollingBloomHash` values of a key, one for each `n < nHashFuncs`. -/
def positions (vKey : Key) : List (Position pairs) := (hashes vKey).map position

def markAt (nGeneration : ℕ) (data : Data pairs) (pos : Position pairs) : Data pairs :=
  Function.update data pos.1 (mark nGeneration pos.2 (data pos.1))

theorem generation_foldl_markAt {gen : ℕ} (valid : gen = 1 ∨ gen = 2 ∨ gen = 3)
    (data : Data pairs) (marked : List (Position pairs)) (pos : Position pairs) :
    (marked.foldl (markAt gen) data pos.1).generation pos.2 =
      if pos ∈ marked then gen else (data pos.1).generation pos.2 := by
  induction marked generalizing data with
  | nil => simp
  | cons first marked ih =>
    have once : (markAt gen data first pos.1).generation pos.2 =
        if pos = first then gen else (data pos.1).generation pos.2 := by
      simp only [markAt, Function.update_apply, Prod.ext_iff]
      by_cases same : pos.1 = first.1
      · rw [if_pos same, generation_mark pos.2.isLt valid, same]
        simp [Fin.ext_iff]
      · simp [same]
    rw [foldl_cons, ih, once]
    by_cases later : pos ∈ marked <;> simp [later]

namespace CRollingBloomFilter

/-- The constructor ends with `reset`. -/
def reset (nElements : ℕ) : CRollingBloomFilter pairs where
  nEntriesPerGeneration := (nElements + 1) / 2
  nEntriesThisGeneration := 0
  nGeneration := 1
  data _ := (0, 0)

variable (filter : CRollingBloomFilter pairs)

/-- The first part of `insert`: a full generation ends. -/
def roll : CRollingBloomFilter pairs :=
  if filter.nEntriesThisGeneration = filter.nEntriesPerGeneration then
    let nGeneration := if filter.nGeneration + 1 = 4 then 1 else filter.nGeneration + 1
    { filter with
      nEntriesThisGeneration := 0
      nGeneration
      data := fun p => wipe nGeneration (filter.data p) }
  else filter

def insert (vKey : Key) : CRollingBloomFilter pairs :=
  { filter.roll with
    nEntriesThisGeneration := filter.roll.nEntriesThisGeneration + 1
    data := (positions hashes vKey).foldl (markAt filter.roll.nGeneration) filter.roll.data }

def contains (vKey : Key) : Bool :=
  (positions hashes vKey).all fun pos =>
    (((filter.data pos.1).1 ||| (filter.data pos.1).2) >>> pos.2.val) &&& 1#64 != 0#64

/-- The insertions since the last `reset`, the newest key first. -/
def run (pairs nElements : ℕ) (keys : List Key) : CRollingBloomFilter pairs :=
  keys.foldr (fun vKey filter => filter.insert hashes vKey) (reset nElements)

def generation (pos : Position pairs) : ℕ := (filter.data pos.1).generation pos.2

theorem contains_iff (vKey : Key) :
    filter.contains hashes vKey ↔ ∀ pos ∈ positions hashes vKey, filter.generation pos ≠ 0 := by
  simp only [contains, all_eq_true]
  exact forall₂_congr fun pos _ => bne_iff_ne.trans generation_ne_zero.symm

/-- The counters after `n` insertions, with `E` entries in a generation. -/
structure Counts (E n : ℕ) : Prop where
  perGeneration : filter.nEntriesPerGeneration = E
  thisGeneration : filter.nEntriesThisGeneration = n - E * ((n - 1) / E)
  current : filter.nGeneration = (n - 1) / E % 3 + 1

/-- What a position holds after `n` insertions if the `i`-th one was the last to mark it. -/
def stamp (E n i : ℕ) : ℕ := if (n - 1) / E ≤ i / E + 2 then i / E % 3 + 1 else 0

section

variable {filter} {E n : ℕ} (some : 0 < E)
include some

/-- The `n`-th insertion starts a new era exactly when the current generation is full. -/
theorem era_eq : n / E = if n - E * ((n - 1) / E) = E then (n - 1) / E + 1 else (n - 1) / E := by
  have lower := Nat.mul_div_le (n - 1) E
  have upper := Nat.lt_mul_div_succ (n - 1) some
  rw [Nat.mul_succ] at upper
  apply Nat.div_eq_of_lt_le
  all_goals
    split <;> simp only [Nat.mul_comm _ E, Nat.mul_succ] <;> omega

variable (counts : filter.Counts E n)
include counts

theorem roll_spec :
    filter.roll.nEntriesPerGeneration = E ∧
      filter.roll.nEntriesThisGeneration = n - E * (n / E) ∧
      filter.roll.nGeneration = n / E % 3 + 1 ∧
      ∀ pos, ∀ i < n, filter.generation pos = stamp E n i →
        filter.roll.generation pos = stamp E (n + 1) i := by
  obtain ⟨perGeneration, thisGeneration, current⟩ := counts
  have era := era_eq some (n := n)
  rw [← thisGeneration] at era
  unfold roll
  rw [perGeneration]
  split at era
  next full =>
    have next : (if filter.nGeneration + 1 = 4 then 1 else filter.nGeneration + 1) =
        n / E % 3 + 1 := by
      split <;> omega
    rw [if_pos full, next]
    refine ⟨rfl, ?_, rfl, ?_⟩
    · rw [era, Nat.mul_succ]
      show 0 = _
      omega
    · -- what still holds the new number was marked three eras ago
      intro pos i older held
      have earlier : i / E ≤ (n - 1) / E := Nat.div_le_div_right (by omega)
      rw [generation] at held
      rw [generation, generation_wipe pos.2.isLt (by omega), held, stamp, stamp,
        Nat.add_sub_cancel]
      split_ifs <;> omega
  next partly =>
    rw [if_neg partly, era]
    refine ⟨perGeneration, thisGeneration, current, ?_⟩
    intro pos i _ held
    rw [held, stamp, stamp, Nat.add_sub_cancel, era]

theorem insert_spec (vKey : Key) :
    (filter.insert hashes vKey).Counts E (n + 1) ∧
      ∀ pos, (filter.insert hashes vKey).generation pos =
        if pos ∈ positions hashes vKey then n / E % 3 + 1 else filter.roll.generation pos := by
  obtain ⟨perGeneration, thisGeneration, current, -⟩ := roll_spec some counts
  have below := Nat.mul_div_le n E
  refine ⟨⟨perGeneration, ?_, current⟩, ?_⟩
  · rw [Nat.add_sub_cancel]
    show filter.roll.nEntriesThisGeneration + 1 = _
    omega
  · intro pos
    rw [← current]
    exact generation_foldl_markAt (by omega) _ _ pos

end

variable (nElements : ℕ+)

theorem half_pos : 0 < ((nElements : ℕ) + 1) / 2 := by
  have := nElements.pos
  omega

theorem counts_run (keys : List Key) :
    (run hashes pairs nElements keys).Counts ((nElements + 1) / 2) keys.length := by
  induction keys with
  | nil => exact ⟨rfl, by simp [run, reset], by simp [run, reset]⟩
  | cons vKey keys ih => exact (insert_spec hashes (half_pos nElements) ih vKey).1

/-- A position that a key has marked holds the stamp of that insertion or of a later one. -/
theorem generation_run (recent older : List Key) {vKey : Key} {pos : Position pairs}
    (marked : pos ∈ positions hashes vKey) :
    ∃ i, older.length ≤ i ∧ i ≤ recent.length + older.length ∧
      (run hashes pairs nElements (recent ++ vKey :: older)).generation pos =
        stamp ((nElements + 1) / 2) (recent.length + older.length + 1) i ∧
      (older.length < i → ∃ newer ∈ recent, pos ∈ positions hashes newer) := by
  have half := half_pos nElements
  induction recent with
  | nil =>
    refine ⟨older.length, le_rfl, by simp, ?_, by omega⟩
    have inserted := (insert_spec hashes half (counts_run hashes nElements older) vKey).2 pos
    rw [if_pos marked] at inserted
    exact inserted.trans (by simp [stamp])
  | cons newer recent ih =>
    obtain ⟨i, after, within, held, again⟩ := ih
    have counts : (run hashes pairs nElements (recent ++ vKey :: older)).Counts _ _ :=
      counts_run hashes nElements _
    rw [length_append, length_cons, ← Nat.add_assoc] at counts
    have inserted := (insert_spec hashes half counts newer).2 pos
    rw [length_cons, Nat.add_right_comm]
    -- the newer key marks the position again, or leaves its stamp to the next era
    by_cases remarked : pos ∈ positions hashes newer
    · rw [if_pos remarked] at inserted
      exact ⟨_, by omega, le_rfl, inserted.trans (by simp [stamp]),
        fun _ => ⟨newer, mem_cons_self, remarked⟩⟩
    · rw [if_neg remarked, (roll_spec half counts).2.2.2 pos i (by omega) held] at inserted
      refine ⟨i, after, by omega, inserted, ?_⟩
      intro later
      obtain ⟨other, mem, shared⟩ := again later
      exact ⟨other, mem_cons_of_mem _ mem, shared⟩

end CRollingBloomFilter

end BitcoinCore.RollingBloom
