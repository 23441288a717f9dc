import BitcoinCore.Chain.BlockIndex

/-!
# The median time past

`GetMedianTimePast` sorts the times of a block and of up to ten blocks before it, and takes
the middle one. A block is only valid if its time is above the median time past of its
predecessor, and so the median time past never decreases along a chain
(`getMedianTimePast_le_of_isAncestor`), although the times themselves may.
-/

namespace BitcoinCore.Chain

open List

/-! ## Positions in a sorted list -/

section

variable {times : List ℤ} {bound : ℤ} {k : ℕ}

theorem countP_lt_le_of_getElem (sorted : times.Pairwise (· ≤ ·)) (isIn : k < times.length)
    (here : times[k] = bound) : times.countP (· < bound) ≤ k := by
  have parts : times.countP (· < bound) =
      (times.take k).countP (· < bound) + (times.drop k).countP (· < bound) := by
    rw [← countP_append, take_append_drop]
  have later : (times.drop k).countP (· < bound) = 0 := by
    refine countP_eq_zero.mpr fun time mem => ?_
    rw [drop_eq_getElem_cons isIn, here] at mem
    have sorted' : (bound :: times.drop (k + 1)).Pairwise (· ≤ ·) := by
      rw [← here, ← drop_eq_getElem_cons isIn]
      exact sorted.sublist (drop_sublist k times)
    rcases mem_cons.mp mem with rfl | behind
    · simp
    · simpa using (pairwise_cons.mp sorted').1 time behind
  have earlier := countP_le_length (p := fun time => decide (time < bound)) (l := times.take k)
  rw [length_take] at earlier
  omega

/-- If no more entries than the position lie below a bound, the entry there does not. -/
theorem le_getElem_of_countP_lt (sorted : times.Pairwise (· ≤ ·)) (isIn : k < times.length)
    (few : times.countP (· < bound) ≤ k) : bound ≤ times[k] := by
  by_contra below
  have front : (times.take (k + 1)).countP (· < bound) = (times.take (k + 1)).length := by
    refine countP_eq_length.mpr fun time mem => ?_
    obtain ⟨i, i_lt, rfl⟩ := getElem_of_mem mem
    rw [length_take] at i_lt
    rw [getElem_take, decide_eq_true_iff]
    refine lt_of_le_of_lt ?_ (not_le.mp below)
    rcases eq_or_lt_of_le (by omega : i ≤ k) with rfl | before
    · exact le_rfl
    · exact pairwise_iff_getElem.mp sorted i k (by omega) isIn before
  have part := (take_sublist (k + 1) times).countP_le (p := fun time => decide (time < bound))
  rw [front, length_take] at part
  omega

end

/-! ## Median times of a block tree -/

variable {Block : Type*} [DecidableEq Block] (memory : BlockMemory Block) (btime : Block → ℤ)

def nMedianTimeSpan : ℕ := 11

/-- The times of a block and of the blocks before it, up to a number. -/
def lastTimes : ℕ → Option Block → List ℤ
  | 0, _ => []
  | _ + 1, none => []
  | count + 1, some block => btime block :: lastTimes count (memory block).pprev

def getMedianTimePast (block : Block) : ℤ :=
  let times := (lastTimes memory btime nMedianTimeSpan (some block)).insertionSort (· ≤ ·)
  times.getD (times.length / 2) 0

variable {memory btime}

omit [DecidableEq Block] in
theorem lastTimes_take (count more : ℕ) (block : Option Block) :
    (lastTimes memory btime (count + more) block).take count =
      lastTimes memory btime count block := by
  induction count generalizing block with
  | zero => cases block <;> rfl
  | succ count ih =>
    cases block with
    | none => rw [Nat.succ_add]; rfl
    | some block => rw [Nat.succ_add, lastTimes, lastTimes, take_succ_cons, ih]

omit [DecidableEq Block] in
theorem length_lastTimes_le (memory : BlockMemory Block) (btime : Block → ℤ) (count : ℕ)
    (block : Option Block) : (lastTimes memory btime count block).length ≤ count := by
  induction count generalizing block with
  | zero => exact Nat.le_refl 0
  | succ count ih =>
    cases block with
    | none => exact Nat.zero_le _
    | some block => exact Nat.succ_le_succ (ih _)

omit [DecidableEq Block] in
theorem getMedianTimePast_eq (memory : BlockMemory Block) (btime : Block → ℤ) (block : Block) :
    ∃ isIn : (lastTimes memory btime 11 (some block)).length / 2 <
        ((lastTimes memory btime 11 (some block)).insertionSort (· ≤ ·)).length,
      ((lastTimes memory btime 11 (some block)).insertionSort (· ≤ ·)).get ⟨_, isIn⟩ =
        getMedianTimePast memory btime block := by
  have positive : 0 < (lastTimes memory btime 11 (some block)).length := Nat.succ_pos _
  have isIn : (lastTimes memory btime 11 (some block)).length / 2 <
      ((lastTimes memory btime 11 (some block)).insertionSort (· ≤ ·)).length := by
    rw [length_insertionSort]
    omega
  have middle : getMedianTimePast memory btime block =
      ((lastTimes memory btime 11 (some block)).insertionSort (· ≤ ·)).getD
        ((lastTimes memory btime 11 (some block)).length / 2) 0 := by
    rw [getMedianTimePast, nMedianTimeSpan, length_insertionSort]
  refine ⟨isIn, ?_⟩
  rw [middle, getD_eq_getElem _ _ isIn]
  rfl

omit [DecidableEq Block] in
/-- A block with a time above the median time past of its predecessor does not lower it. -/
theorem getMedianTimePast_le_of_parent {block prev : Block} (parent : (memory block).pprev = some prev)
    (later : getMedianTimePast memory btime prev < btime block) :
    getMedianTimePast memory btime prev ≤ getMedianTimePast memory btime block := by
  obtain ⟨isIn, middle⟩ := getMedianTimePast_eq memory btime prev
  obtain ⟨inside', middle'⟩ := getMedianTimePast_eq memory btime block
  have sorted : ∀ times : List ℤ, (times.insertionSort (· ≤ ·)).Pairwise (· ≤ ·) :=
    fun times => pairwise_insertionSort (· ≤ ·) times
  have few := countP_lt_le_of_getElem (sorted _) isIn middle
  rw [(perm_insertionSort _ _).countP_eq] at few
  have window : lastTimes memory btime 11 (some block) =
      btime block :: (lastTimes memory btime 11 (some prev)).take 10 := by
    rw [lastTimes_take 10 1, lastTimes, parent]
  rw [← middle']
  refine le_getElem_of_countP_lt (sorted _) inside' ?_
  rw [(perm_insertionSort _ _).countP_eq, window, countP_cons_of_neg (by simpa using later.le)]
  have fewer := (take_sublist 10 (lastTimes memory btime 11 (some prev))).countP_le
    (p := fun time => decide (time < getMedianTimePast memory btime prev))
  have short := length_lastTimes_le memory btime 11 (some prev)
  simp only [length_cons, length_take]
  omega

def TimesAboveMedian (memory : BlockMemory Block) (btime : Block → ℤ) : Prop :=
  ∀ block prev, (memory block).pprev = some prev → getMedianTimePast memory btime prev < btime block

/-- The median time past never decreases along a chain. -/
theorem getMedianTimePast_le_of_isAncestor {blocks : BlockTree Block}
    (times : TimesAboveMedian blocks.memory btime) {above block : Block}
    (ancestor : blocks.tree.IsAncestor above block) : getMedianTimePast blocks.memory btime above ≤
      getMedianTimePast blocks.memory btime block := by
  suffices byDepth : ∀ depth block, blocks.tree.climb depth block = some above →
      getMedianTimePast blocks.memory btime above ≤
        getMedianTimePast blocks.memory btime block by
    refine byDepth (blocks.tree.height block - blocks.tree.height above) block ?_
    rw [← blocks.tree.ancestorAt_of_le ancestor.height_le]
    exact ancestor
  intro depth
  induction depth with
  | zero =>
    intro block reached
    rw [ParentTree.climb_zero, Option.some_inj] at reached
    rw [reached]
  | succ depth ih =>
    intro block reached
    rw [ParentTree.climb_succ, Option.bind_eq_some_iff] at reached
    obtain ⟨prev, parent, rest⟩ := reached
    exact (ih prev rest).trans (getMedianTimePast_le_of_parent parent (times block prev parent))

end BitcoinCore.Chain
