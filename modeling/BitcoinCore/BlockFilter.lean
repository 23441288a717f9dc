import BitcoinCore.Lib.CheckedAccess
import BitcoinCore.Streams
import BitcoinCore.Serialize
import BitcoinCore.Util.FastRange

/-!
# Compact block filters

A `GCSFilter` is a set of byte strings, hashed into the range below `N * M`. The
hashes are sorted, and the difference of each to the one before is written as a
Golomb-Rice code in a stream of bits behind the number of elements. A query is
hashed in the same way and looked up by walking both sorted lists.

The codes are read back in order (`decodeDeltas_spec`), and the walk finds a hash of
the query exactly if it is among the hashes of the elements (`matchLoop_spec`). The
number of elements is read as the size of an object, which is refused above
`maxSize`; up to there a filter is read back and matches by hash, and above it is not
readable (`gcsFilter_matches_iff`).
-/

namespace BitcoinCore.BlockFilter

open ByteStream Serialize BitDigits Streams CheckedAccess List BitStreamReader BitStreamWriter ReadFailure

/-! ## Golomb-Rice codes -/

def writeOnes (q : ℕ) (bitwriter : BitStreamWriter) : Except StreamFailure BitStreamWriter :=
  if 0 < q then do
    let nbits := if q ≤ 64 then q else 64
    let bitwriter ← bitwriter.write (2 ^ 64 - 1) nbits
    writeOnes (q - nbits) bitwriter
  else .ok bitwriter
termination_by q
decreasing_by
  split <;> omega

/-- Write the quotient of a number in unary and its remainder in `P` bits. -/
def golombRiceEncode (P x : ℕ) (bitwriter : BitStreamWriter) :
    Except StreamFailure BitStreamWriter := do
  let bitwriter ← writeOnes (x >>> P) bitwriter
  let bitwriter ← bitwriter.write 0 1
  bitwriter.write x P

def readOnes (bitreader : BitStreamReader) (q : ℕ) :
    Except StreamFailure (ℕ × BitStreamReader) :=
  match read : bitreader.read 1 with
  | .error failure => .error failure
  | .ok (bit, later) => if bit = 1 then readOnes later ((q + 1) % 2 ^ 64) else .ok (q, later)
termination_by bitreader.remaining.length
decreasing_by
  have taken := length_remaining_readLoop read
  omega

def golombRiceDecode (P : ℕ) (bitreader : BitStreamReader) :
    Except StreamFailure (ℕ × BitStreamReader) := do
  let (q, bitreader) ← readOnes bitreader 0
  let (r, bitreader) ← bitreader.read P
  .ok ((q <<< P + r) % 2 ^ 64, bitreader)

variable {bitwriter : BitStreamWriter}

theorem writeOnes_spec (q : ℕ) (clean : bitwriter.Clean) :
    ∃ later, writeOnes q bitwriter = .ok later ∧ later.Clean ∧
      later.contents = bitwriter.contents ++ List.replicate q true := by
  induction q using Nat.strongRecOn generalizing bitwriter with
  | ind q ih =>
    rw [writeOnes]
    split
    case isFalse none =>
      rw [Nat.eq_zero_of_not_pos none]
      exact ⟨bitwriter, rfl, clean, (append_nil _).symm⟩
    case isTrue some =>
      obtain ⟨nbits, chosen, atMost, pos, small⟩ : ∃ nbits,
          (if q ≤ 64 then q else 64) = nbits ∧ nbits ≤ q ∧ 0 < nbits ∧ nbits ≤ 64 := by
        refine ⟨_, rfl, ?_, ?_, ?_⟩ <;> split <;> omega
      obtain ⟨middle, written, clean', appended⟩ :=
        write_spec (2 ^ 64 - 1) small clean
      obtain ⟨later, rest, clean'', appended'⟩ := ih (q - nbits) (by omega) clean'
      simp only [chosen, written, ok_bind]
      refine ⟨later, rest, clean'', ?_⟩
      have ones : digits nbits (2 ^ 64 - 1) = List.replicate nbits true := by
        refine digits_ones ?_
        intro place bound
        rw [Nat.testBit_two_pow_sub_one, decide_eq_true (by omega)]
      rw [appended', appended, ones, append_assoc, replicate_append_replicate,
        Nat.add_sub_cancel' atMost]

theorem golombRiceEncode_spec {P : ℕ} (small : P ≤ 64) (x : ℕ)
    (clean : bitwriter.Clean) : ∃ later, golombRiceEncode P x bitwriter = .ok later ∧ later.Clean ∧
      later.contents = bitwriter.contents ++ riceCode P x := by
  obtain ⟨ones, quotient, clean₁, appended₁⟩ := writeOnes_spec (x >>> P) clean
  obtain ⟨zero, stop, clean₂, appended₂⟩ := 
    write_spec 0 (show 1 ≤ 64 by decide) clean₁
  obtain ⟨later, rem, clean₃, appended₃⟩ := write_spec x small clean₂
  refine ⟨later, ?_, clean₃, ?_⟩
  · rw [golombRiceEncode, quotient, ok_bind, stop, ok_bind, rem]
  · rw [appended₃, appended₂, appended₁, riceCode]
    simp [digits]

theorem readOnes_of_read {bitreader later : BitStreamReader} {bit : ℕ}
    (read : bitreader.read 1 = .ok (bit, later)) (q : ℕ) : readOnes bitreader q =
      if bit = 1 then readOnes later ((q + 1) % 2 ^ 64) else .ok (q, later) := by
  rw [readOnes]
  split
  case h_1 failure failed =>
    rw [read] at failed
    cases failed
  case h_2 bit' later' read' =>
    rw [read] at read'
    cases read'
    rfl

variable {rest : List Bool} {bitreader : BitStreamReader}

theorem readOnes_spec {count q : ℕ}
    (left : bitreader.remaining = List.replicate count true ++ false :: rest)
    (fits : q + count < 2 ^ 64) :
    ∃ later, readOnes bitreader q = .ok (q + count, later) ∧ later.remaining = rest := by
  induction count generalizing q bitreader with
  | zero =>
    obtain ⟨later, read, behind⟩ := read_bit left
    refine ⟨later, ?_, behind⟩
    rw [readOnes_of_read read]
    rfl
  | succ count ih =>
    rw [replicate_succ, cons_append] at left
    obtain ⟨middle, read, behind⟩ := read_bit left
    obtain ⟨later, counted, behind'⟩ := ih behind (q := q + 1) (by omega)
    refine ⟨later, ?_, behind'⟩
    rw [readOnes_of_read read, Bool.toNat_true, if_pos rfl, Nat.mod_eq_of_lt (by omega),
      counted, Nat.add_assoc, Nat.add_comm 1]

/-- A code is read back. -/
theorem golombRiceDecode_spec {P x : ℕ} (small : P ≤ 64) (word : x < 2 ^ 64)
    (left : bitreader.remaining = riceCode P x ++ rest) :
    ∃ later, golombRiceDecode P bitreader = .ok (x, later) ∧ later.remaining = rest := by
  rw [riceCode, append_assoc, cons_append] at left
  have fits : 0 + x >>> P < 2 ^ 64 := by
    rw [Nat.zero_add, Nat.shiftRight_eq_div_pow]
    exact lt_of_le_of_lt (Nat.div_le_self _ _) word
  obtain ⟨middle, quotient, behind⟩ := readOnes_spec left fits
  obtain ⟨later, rem, behind'⟩ :=
    read_spec small behind (length_digits P x)
  refine ⟨later, ?_, behind'⟩
  have whole : (0 + x >>> P) <<< P + value (digits P x) = x := by
    rw [Nat.zero_add, value_digits, Nat.shiftLeft_eq, Nat.shiftRight_eq_div_pow, Nat.div_add_mod']
  simp only [golombRiceDecode, quotient, ok_bind, rem, whole, Nat.mod_eq_of_lt word]

/-! ## Filters -/

abbrev Element := List Byte

/-- The parameters of a filter, with the hash function for its two keys. -/
structure Params where
  siphash : Element → BitVec 64
  P : ℕ
  M : ℕ

structure GCSFilter where
  params : Params
  N : ℕ
  F : ℕ
  encoded : List Byte

inductive FilterFailure where
  /-- The number of elements has more than 32 bits. -/
  | invalidN
  | read (failure : ReadFailure)
  | stream (failure : StreamFailure)
  | excessData
  | assertion
  deriving DecidableEq

def hashToRange (params : Params) (F : ℕ) (elem : Element) : ℕ :=
  fastRange64 (params.siphash elem).toNat F

/-- The sorted hashes of a set, which is given as the list of its elements in any
order. -/
def buildHashedSet (params : Params) (F : ℕ) (elems : List Element) : List ℕ :=
  (elems.map (hashToRange params F)).mergeSort

def encodeDeltas (P : ℕ) : List ℕ → ℕ → BitStreamWriter → Except StreamFailure BitStreamWriter
  | [], _, bitwriter => .ok bitwriter
  | value :: values, lastValue, bitwriter => do
    let delta := (value + 2 ^ 64 - lastValue) % 2 ^ 64
    let bitwriter ← golombRiceEncode P delta bitwriter
    encodeDeltas P values value bitwriter

def decodeMany (P : ℕ) : ℕ → BitStreamReader → Except StreamFailure BitStreamReader
  | 0, bitreader => .ok bitreader
  | count + 1, bitreader => do
    let (_, bitreader) ← golombRiceDecode P bitreader
    decodeMany P count bitreader

def ofStream {α : Type} : Except StreamFailure α → Except FilterFailure α
  | .ok res => .ok res
  | .error failure => .error (.stream failure)

def readN (encoded : List Byte) : Except FilterFailure (ℕ × List Byte) :=
  match (readCompactSize true).run encoded with
  | .ok res => .ok res
  | .error failure => .error (.read failure)

namespace GCSFilter

def ofElements (params : Params) (elems : List Element) : Except FilterFailure GCSFilter :=
  let N := elems.length % 2 ^ 32
  if N ≠ elems.length then .error .invalidN
  else
    let F := N * params.M % 2 ^ 64
    if elems = [] then .ok { params, N, F, encoded := writeCompactSize N }
    else do
      let bitwriter ← ofStream (encodeDeltas params.P (buildHashedSet params F elems) 0 new)
      -- The writer appends to the stream that the number was written to.
      .ok { params, N, F, encoded := writeCompactSize N ++ bitwriter.flush.ostream }

def ofEncoded (params : Params) (encoded : List Byte) (skipDecodeCheck : Bool) :
    Except FilterFailure GCSFilter := do
  let (size, stream) ← readN encoded
  let N := size % 2 ^ 32
  if N ≠ size then .error .invalidN
  else
    let F := N * params.M % 2 ^ 64
    if skipDecodeCheck then .ok { params, N, F, encoded }
    else do
      let bitreader ← ofStream (decodeMany params.P N (new stream))
      if bitreader.istream ≠ [] then .error .excessData else .ok { params, N, F, encoded }

/-- How the inner loop of `matchInternal` ends. -/
inductive Progress where
  | exhausted
  | found
  /-- The hashes from the first one above the value on. -/
  | above (hashes : List ℕ)

/-- The inner loop of `matchInternal`, from the hash at the index on. -/
def skipBelow (value : ℕ) : List ℕ → Progress
  | [] => .exhausted
  | hash :: hashes =>
    if hash = value then .found
    else if value < hash then .above (hash :: hashes)
    else skipBelow value hashes

def matchLoop (P : ℕ) : ℕ → BitStreamReader → ℕ → List ℕ → Except StreamFailure Bool
  | 0, _, _, _ => .ok false
  | count + 1, bitreader, value, hashes => do
    let (delta, bitreader) ← golombRiceDecode P bitreader
    let value := (value + delta) % 2 ^ 64
    match skipBelow value hashes with
    | .exhausted => .ok false
    | .found => .ok true
    | .above hashes => matchLoop P count bitreader value hashes

def matchInternal (filter : GCSFilter) (elementHashes : List ℕ) : Except FilterFailure Bool := do
  let (N, stream) ← readN filter.encoded
  if N ≠ filter.N then .error .assertion
  else ofStream (matchLoop filter.params.P filter.N (new stream) 0 elementHashes)

def matchElement (filter : GCSFilter) (elem : Element) : Except FilterFailure Bool :=
  filter.matchInternal [hashToRange filter.params filter.F elem]

def matchAny (filter : GCSFilter) (elems : List Element) : Except FilterFailure Bool :=
  filter.matchInternal (buildHashedSet filter.params filter.F elems)

end GCSFilter

open GCSFilter

/-! ## Differences of sorted values -/

def deltaCodes (P : ℕ) : List ℕ → ℕ → List Bool
  | [], _ => []
  | value :: values, lastValue => riceCode P (value - lastValue) ++ deltaCodes P values value

structure Ascends (lastValue : ℕ) (values : List ℕ) : Prop where
  sorted : (lastValue :: values).Pairwise (· ≤ ·)
  words : ∀ value ∈ values, value < 2 ^ 64

variable {values : List ℕ} {lastValue value : ℕ}

theorem Ascends.tail (ascends : Ascends lastValue (value :: values)) : Ascends value values where
  sorted := (pairwise_cons.mp ascends.sorted).2
  words := fun other mem => ascends.words other (mem_cons_of_mem _ mem)

theorem Ascends.head
    (ascends : Ascends lastValue (value :: values)) : lastValue ≤ value ∧ value < 2 ^ 64 :=
  ⟨(pairwise_cons.mp ascends.sorted).1 value mem_cons_self, ascends.words value mem_cons_self⟩

section

variable {P : ℕ} (small : P ≤ 64)

include small

theorem encodeDeltas_spec (ascends : Ascends lastValue values) (clean : bitwriter.Clean) :
    ∃ later, encodeDeltas P values lastValue bitwriter = .ok later ∧ later.Clean ∧
      later.contents = bitwriter.contents ++ deltaCodes P values lastValue := by
  induction values generalizing lastValue bitwriter with
  | nil => exact ⟨bitwriter, rfl, clean, (append_nil _).symm⟩
  | cons value values ih =>
    obtain ⟨atLeast, word⟩ := ascends.head
    have delta : (value + 2 ^ 64 - lastValue) % 2 ^ 64 = value - lastValue := by omega
    obtain ⟨middle, encoded, clean', appended⟩ :=
      golombRiceEncode_spec small (value - lastValue) clean
    obtain ⟨later, rest, clean'', appended'⟩ := ih ascends.tail clean'
    refine ⟨later, ?_, clean'', ?_⟩
    · rw [encodeDeltas, delta, encoded, ok_bind, rest]
    · rw [appended', appended, append_assoc, deltaCodes]

/-- As many codes as were written are read. -/
theorem decodeMany_spec (ascends : Ascends lastValue values)
    (left : bitreader.remaining = deltaCodes P values lastValue ++ rest) :
    ∃ later, decodeMany P values.length bitreader = .ok later ∧ later.remaining = rest := by
  induction values generalizing lastValue bitreader with
  | nil => exact ⟨bitreader, rfl, left⟩
  | cons value values ih =>
    obtain ⟨atLeast, word⟩ := ascends.head
    rw [deltaCodes, append_assoc] at left
    obtain ⟨middle, decoded, behind⟩ := golombRiceDecode_spec small (by omega) left
    obtain ⟨later, decodedRest, behind'⟩ := ih ascends.tail behind
    refine ⟨later, ?_, behind'⟩
    simp only [length_cons, decodeMany, decoded, ok_bind, decodedRest]

omit small in
theorem skipBelow_spec (value : ℕ) {hashes : List ℕ} (sorted : hashes.Pairwise (· ≤ ·)) :
    ∃ passed rest, hashes = passed ++ rest ∧ (∀ hash ∈ passed, hash < value) ∧
      (rest = [] ∧ skipBelow value hashes = .exhausted ∨
        value ∈ rest ∧ skipBelow value hashes = .found ∨
        (∀ hash ∈ rest, value < hash) ∧ skipBelow value hashes = .above rest) := by
  induction hashes with
  | nil => exact ⟨[], [], rfl, by simp, .inl ⟨rfl, rfl⟩⟩
  | cons hash hashes ih =>
    obtain ⟨least, sorted'⟩ := pairwise_cons.mp sorted
    rw [skipBelow]
    split
    case isTrue same =>
      exact ⟨[], _, rfl, by simp, .inr (.inl ⟨same ▸ mem_cons_self, rfl⟩)⟩
    case isFalse apart =>
      split
      case isTrue larger =>
        refine ⟨[], _, rfl, by simp, .inr (.inr ⟨?_, rfl⟩)⟩
        intro other mem
        rcases mem_cons.mp mem with rfl | later
        · exact larger
        · exact larger.trans_le (least other later)
      case isFalse notLarger =>
        obtain ⟨passed, rest, split, below, ends⟩ := ih sorted'
        refine ⟨hash :: passed, rest, by rw [split, cons_append], ?_, ends⟩
        intro other mem
        rcases mem_cons.mp mem with rfl | later
        · omega
        · exact below other later

/-- The walk over both lists finds a common value. A hash that is passed is below
all values to come, and the hashes that are kept are above the value. -/
theorem matchLoop_spec (ascends : Ascends lastValue values)
    {hashes : List ℕ} (sorted : hashes.Pairwise (· ≤ ·)) (left : bitreader.remaining = deltaCodes P values lastValue ++ rest) :
    ∃ found, matchLoop P values.length bitreader lastValue hashes = .ok found ∧
      (found ↔ ∃ hash ∈ hashes, hash ∈ values) := by
  induction values generalizing lastValue hashes bitreader with
  | nil => exact ⟨false, rfl, by simp⟩
  | cons value values ih =>
    obtain ⟨atLeast, word⟩ := ascends.head
    have least := (pairwise_cons.mp ascends.tail.sorted).1
    rw [deltaCodes, append_assoc] at left
    obtain ⟨middle, decoded, behind⟩ := golombRiceDecode_spec small (by omega) left
    have next : (lastValue + (value - lastValue)) % 2 ^ 64 = value := by omega
    simp only [length_cons, matchLoop, decoded, ok_bind, next]
    obtain ⟨passed, kept, rfl, below, ends⟩ := skipBelow_spec value sorted
    have passedBy : ∀ hash ∈ passed, hash ∉ value :: values := by
      intro hash mem there
      have early := below hash mem
      rcases mem_cons.mp there with rfl | later
      · exact lt_irrefl _ early
      · exact absurd (least hash later) (Nat.not_le.mpr early)
    rcases ends with ⟨rfl, ended⟩ | ⟨here, ended⟩ | ⟨above, ended⟩
    · rw [ended]
      refine ⟨false, rfl, ?_⟩
      simp only [Bool.false_eq_true, append_nil, false_iff, not_exists, not_and]
      exact passedBy
    · rw [ended]
      refine ⟨true, rfl, ?_⟩
      simp only [true_iff]
      exact ⟨value, mem_append_right _ here, mem_cons_self⟩
    · rw [ended]
      obtain ⟨found, walked, correct⟩ := ih ascends.tail (pairwise_append.mp sorted).2.1 behind
      refine ⟨found, walked, correct.trans ⟨?_, ?_⟩⟩
      · rintro ⟨hash, mem, there⟩
        exact ⟨hash, mem_append_right _ mem, mem_cons_of_mem _ there⟩
      · rintro ⟨hash, mem, there⟩
        rcases mem_append.mp mem with early | late
        · exact absurd there (passedBy hash early)
        · refine ⟨hash, late, ?_⟩
          rcases mem_cons.mp there with rfl | later
          · exact absurd (above hash late) (lt_irrefl hash)
          · exact later

end

/-! ## Built and decoded filters -/

theorem hashToRange_lt (params : Params) {F : ℕ} (range : F < 2 ^ 64) (elem : Element) :
    hashToRange params F elem < 2 ^ 64 := by
  rw [hashToRange, fastRange64, Nat.shiftRight_eq_div_pow, Nat.div_lt_iff_lt_mul (by decide)]
  exact Nat.mul_lt_mul'' (params.siphash elem).isLt range

theorem mem_buildHashedSet {params : Params} {F : ℕ} {elems : List Element} {hash : ℕ} :
    hash ∈ buildHashedSet params F elems ↔ ∃ elem ∈ elems, hashToRange params F elem = hash := by
  rw [buildHashedSet, mem_mergeSort, mem_map]

theorem sorted_buildHashedSet (params : Params) (F : ℕ) (elems : List Element) :
    (buildHashedSet params F elems).Pairwise (· ≤ ·) :=
  pairwise_mergeSort' (· ≤ ·) _

theorem ascends_buildHashedSet (params : Params) {F : ℕ} (range : F < 2 ^ 64)
    (elems : List Element) : Ascends 0 (buildHashedSet params F elems) where
  sorted := pairwise_cons.mpr ⟨fun _ _ => Nat.zero_le _, sorted_buildHashedSet params F elems⟩
  words := by
    intro value mem
    obtain ⟨elem, _, rfl⟩ := mem_buildHashedSet.mp mem
    exact hashToRange_lt params range elem

theorem readN_of_le {N : ℕ} (range : N ≤ maxSize) (stream : List Byte) :
    readN (writeCompactSize N ++ stream) = .ok (N, stream) := by
  rw [readN, reads_writeCompactSize range true stream]

theorem readN_of_lt {N : ℕ} (large : maxSize < N) (fits : N < 2 ^ 64) (stream : List Byte) :
    readN (writeCompactSize N ++ stream) = .error (.read .sizeTooLarge) := by
  obtain ⟨first, following, written, byte, reads⟩ := writeCompactSize_split fits
  have size : (readCompactSize true).run (writeLE 1 first ++ (following ++ stream)) =
      .error .sizeTooLarge := by
    have header : Reads (readInt 1) (writeLE 1 first) first :=
      reads_writeLE endOfData byte
    rw [readCompactSize, header.run_bind, reads.run_bind, decide_eq_false (Nat.not_le.mpr large)]
    rfl
  rw [readN, written, append_assoc, size]

section

variable {params : Params} {elems : List Element}

/-- The bytes behind the number of elements hold the codes of the sorted hashes. -/
def EncodesSet (params : Params) (F : ℕ) (elems : List Element) (stream : List Byte) : Prop :=
  ∃ padding < 8, (new stream).remaining =
    deltaCodes params.P (buildHashedSet params F elems) 0 ++ List.replicate padding false

/-- The filter of a set, with the stream that its codes are written to. -/
abbrev filterOf (params : Params) (elems : List Element) (stream : List Byte) : GCSFilter where
  params
  N := elems.length
  F := elems.length * params.M
  encoded := writeCompactSize elems.length ++ stream

/-- A filter is built of every set with fewer than 2 ^ 32 elements. -/
theorem ofElements_spec (small : params.P ≤ 64) (count : elems.length < 2 ^ 32)
    (range : elems.length * params.M < 2 ^ 64) :
    ∃ stream, ofElements params elems = .ok (filterOf params elems stream) ∧
      EncodesSet params (elems.length * params.M) elems stream := by
  simp only [ofElements, Nat.mod_eq_of_lt count, Nat.mod_eq_of_lt range, ne_eq,
    not_true_eq_false, if_false]
  split
  case isTrue empty =>
    subst empty
    refine ⟨[], ?_, 0, by decide, ?_⟩
    · rw [filterOf, append_nil]
    · rw [buildHashedSet, map_nil, mergeSort_nil]
      rfl
  case isFalse =>
    obtain ⟨bitwriter, encoded, clean, contents⟩ := encodeDeltas_spec small
      (ascends_buildHashedSet params range elems) clean_new
    obtain ⟨padding, few, flushed⟩ := bitwriter.flush_spec clean
    rw [contents, contents_new, nil_append] at flushed
    rw [encoded]
    exact ⟨_, rfl, padding, few, flushed⟩

theorem length_buildHashedSet (params : Params) (F : ℕ) (elems : List Element) :
    (buildHashedSet params F elems).length = elems.length := by
  rw [buildHashedSet, length_mergeSort, length_map]

section

variable (small : params.P ≤ 64) (size : elems.length ≤ maxSize)
  (range : elems.length * params.M < 2 ^ 64) {stream : List Byte}
  (encodes : EncodesSet params (elems.length * params.M) elems stream)
include small size range encodes

/-- The decoding constructor accepts the encoding. -/
theorem ofEncoded_spec (skipDecodeCheck : Bool) :
    ofEncoded params (writeCompactSize elems.length ++ stream) skipDecodeCheck =
      .ok (filterOf params elems stream) := by
  have count : elems.length < 2 ^ 32 := lt_of_le_of_lt size (by decide)
  obtain ⟨padding, few, bits⟩ := encodes
  obtain ⟨later, decoded, behind⟩ := decodeMany_spec small
    (ascends_buildHashedSet params range elems) bits
  rw [length_buildHashedSet] at decoded
  have consumed : later.istream = [] := by
    have length := later.length_remaining
    rw [behind, length_replicate] at length
    exact length_eq_zero_iff.mp (by omega)
  rw [ofEncoded, readN_of_le size, ok_bind]
  simp only [Nat.mod_eq_of_lt count, Nat.mod_eq_of_lt range, ne_eq, not_true_eq_false, if_false,
    decoded]
  cases skipDecodeCheck with
  | true => rfl
  | false => simp [ofStream, ok_bind, consumed]

theorem matchInternal_spec {hashes : List ℕ} (sorted : hashes.Pairwise (· ≤ ·)) :
    ∃ found, (filterOf params elems stream).matchInternal hashes = .ok found ∧
      (found ↔ ∃ hash ∈ hashes,
        ∃ elem ∈ elems, hashToRange params (elems.length * params.M) elem = hash) := by
  obtain ⟨padding, few, bits⟩ := encodes
  obtain ⟨found, walked, correct⟩ := matchLoop_spec small
    (ascends_buildHashedSet params range elems) sorted bits
  rw [length_buildHashedSet] at walked
  refine ⟨found, ?_, ?_⟩
  · rw [matchInternal, readN_of_le size, ok_bind]
    simp only [ne_eq, not_true_eq_false, if_false, walked]
    rfl
  · simp only [correct, mem_buildHashedSet]

end

/-- A filter stands for a set: it is reconstructed from its encoding, and it matches
an element, or any of several, exactly if the hash is one of those of the set. -/
structure StandsFor (filter : GCSFilter) (params : Params) (elems : List Element) : Prop where
  count : filter.N = elems.length
  reconstructed : ∀ skipDecodeCheck,
    ofEncoded params filter.encoded skipDecodeCheck = .ok filter
  matchElement : ∀ query, ∃ found, filter.matchElement query = .ok found ∧ (found ↔ ∃ elem ∈ elems,
      hashToRange params filter.F elem = hashToRange params filter.F query)
  matchAny : ∀ queries, ∃ found, filter.matchAny queries = .ok found ∧
    (found ↔ ∃ query ∈ queries, ∃ elem ∈ elems,
      hashToRange params filter.F elem = hashToRange params filter.F query)
  contained : ∀ elem ∈ elems, filter.matchElement elem = .ok true

theorem standsFor_of_le (small : params.P ≤ 64) (size : elems.length ≤ maxSize)
    (range : elems.length * params.M < 2 ^ 64) {stream : List Byte}
    (encodes : EncodesSet params (elems.length * params.M) elems stream) :
    StandsFor (filterOf params elems stream) params elems := by
  have one : ∀ query, ∃ found, (filterOf params elems stream).matchElement query = .ok found ∧
      (found ↔ ∃ elem ∈ elems, hashToRange params (elems.length * params.M) elem =
          hashToRange params (elems.length * params.M) query) := by
    intro query
    obtain ⟨found, matched, correct⟩ := matchInternal_spec small size range encodes
      (pairwise_singleton _ (hashToRange params (elems.length * params.M) query))
    refine ⟨found, matched, correct.trans ?_⟩
    simp only [mem_singleton, exists_eq_left]
  refine ⟨rfl, ofEncoded_spec small size range encodes, one, ?_, ?_⟩
  · intro queries
    obtain ⟨found, matched, correct⟩ := matchInternal_spec small size range encodes
      (sorted_buildHashedSet params (elems.length * params.M) queries)
    refine ⟨found, matched, correct.trans ?_⟩
    simp only [mem_buildHashedSet]
    constructor
    · rintro ⟨_, ⟨query, mem, rfl⟩, elem, there, same⟩
      exact ⟨query, mem, elem, there, same⟩
    · rintro ⟨query, mem, elem, there, same⟩
      exact ⟨_, ⟨query, mem, rfl⟩, elem, there, same⟩
  · intro elem mem
    obtain ⟨found, matched, correct⟩ := one elem
    rw [matched, correct.mpr ⟨elem, mem, rfl⟩]

variable (params elems) in
/-- Filters match by hash, as far as they can be read. A filter is built of every
set with fewer than 2 ^ 32 elements. It is accepted by the decoding constructor and
matches exactly by hash, without false negatives, if and only if the number of
elements is at most `maxSize`; from there on its own encoding cannot be read. -/
theorem gcsFilter_matches_iff (small : params.P ≤ 64) (count : elems.length < 2 ^ 32)
    (range : elems.length * params.M < 2 ^ 64) :
    ∃ filter, ofElements params elems = .ok filter ∧
      (StandsFor filter params elems ↔ elems.length ≤ maxSize) := by
  obtain ⟨stream, built, encodes⟩ := ofElements_spec small count range
  refine ⟨_, built, ?_, ?_⟩
  · intro stands
    by_contra large
    have refused := stands.reconstructed true
    rw [ofEncoded, readN_of_lt (Nat.not_le.mp large) (count.trans (by decide))] at refused
    cases refused
  · intro size
    exact standsFor_of_le small size range encodes

end

def spread : Params where
  siphash elem := BitVec.ofNat 64 (elem.foldl (fun sum byte => sum + byte.toNat) 0 * 2 ^ 56)
  P := 2
  M := 16

/-- The filter of two strings is read back and matches them. -/
theorem gcsFilter_matches_iff_pair :
    ∃ filter, ofElements spread [[17], [200, 3]] = .ok filter ∧
      ofEncoded spread filter.encoded false = .ok filter ∧
      filter.matchElement [200, 3] = .ok true := by
  obtain ⟨filter, built, readable⟩ :=
    gcsFilter_matches_iff spread [[17], [200, 3]] (by decide) (by decide) (by decide)
  have stands := readable.mpr (by decide)
  exact ⟨filter, built, stands.reconstructed false, stands.contained [200, 3] (by decide)⟩

def manyElements : List Element := (List.range (maxSize + 1)).map (writeLE 4)

theorem nodup_manyElements : manyElements.Nodup := by
  refine Nodup.map_on ?_ nodup_range
  intro number mem other mem' same
  rw [mem_range, maxSize] at mem mem'
  have reads := (reads_writeLE endOfData (show number < 256 ^ 4 by omega)).run
  rw [same, (reads_writeLE endOfData (show other < 256 ^ 4 by omega)).run] at reads
  cases reads
  rfl

/-- The filter of these strings is built, but it is neither accepted by the decoding
constructor nor does it match a string it contains. -/
theorem manyElements_unreadable : manyElements.Nodup ∧ manyElements.length < 2 ^ 32 ∧
      ∃ filter, ofElements spread manyElements = .ok filter ∧
        ofEncoded spread filter.encoded false = .error (.read .sizeTooLarge) ∧
        writeLE 4 0 ∈ manyElements ∧
        filter.matchElement (writeLE 4 0) = .error (.read .sizeTooLarge) := by
  have length : manyElements.length = maxSize + 1 := by
    rw [manyElements, length_map, length_range]
  have count : manyElements.length < 2 ^ 32 := by
    rw [length, maxSize]
    decide
  have range : manyElements.length * spread.M < 2 ^ 64 := by
    rw [length, maxSize]
    decide
  obtain ⟨stream, built, encodes⟩ := ofElements_spec (by decide) count range
  have refused := readN_of_lt (show maxSize < manyElements.length by omega)
    (count.trans (by decide)) stream
  refine ⟨nodup_manyElements, count, _, built, ?_, ?_, ?_⟩
  · rw [ofEncoded, refused, error_bind]
  · exact mem_map.mpr ⟨0, mem_range.mpr (Nat.succ_pos _), rfl⟩
  · rw [matchElement, matchInternal, refused, error_bind]

end BitcoinCore.BlockFilter
