import BitcoinCore.Util.FeeFrac

/-!
# Comparison of feerate diagrams

`CompareChunks` walks two lists of chunks from left to right, visits every corner point
of either diagram, and compares the corner with the line of the other diagram there.
The fees and sizes are machine integers, so what an overflowing sum yields is left
open (`MachineArithmetic`).

The walk keeps an invariant (`Walk`): the flags say which diagram was strictly above
the other up to the last corner visited. Between two corners both diagrams are
straight, so nothing is missed (`Walk.visit`), and the result says how the diagrams
compare at every real size (`compareChunks_spec`).
-/

namespace BitcoinCore

open StepDiagram List FeeFrac

/-! ## The code -/

inductive PartialOrdering where
  | less
  | equivalent
  | greater
  | unordered
  deriving DecidableEq, Repr

/-- Sums of machine integers: exact in range, and any value whatever outside it. -/
structure MachineArithmetic where
  int64 : ℤ → ℤ
  int32 : ℤ → ℤ
  int64_exact : ∀ val, -2 ^ 63 ≤ val → val < 2 ^ 63 → int64 val = val
  int32_exact : ∀ val, -2 ^ 31 ≤ val → val < 2 ^ 31 → int32 val = val

namespace MachineArithmetic

variable (arith : MachineArithmetic)

def add (a b : FeeFrac) : FeeFrac := ⟨arith.int64 (a.fee + b.fee), arith.int32 (a.size + b.size)⟩

def sub (a b : FeeFrac) : FeeFrac := ⟨arith.int64 (a.fee - b.fee), arith.int32 (a.size - b.size)⟩

end MachineArithmetic

structure DiagramCursor where
  -- the chunks from `next_index` on
  remaining : List FeeFrac
  accum : FeeFrac
  betterSomewhere : Bool

namespace DiagramCursor

def advance (arith : MachineArithmetic) (cursor : DiagramCursor) : DiagramCursor :=
  match cursor.remaining with
  | [] => cursor
  | chunk :: rest => { cursor with remaining := rest, accum := arith.add cursor.accum chunk }

/-- Note that this side is strictly better in one place, if it is. -/
def noteBetter (cursor : DiagramCursor) (better : Bool) : DiagramCursor :=
  { cursor with betterSomewhere := cursor.betterSomewhere || better }

@[simp] theorem advance_betterSomewhere (arith : MachineArithmetic) (cursor : DiagramCursor) :
    (cursor.advance arith).betterSomewhere = cursor.betterSomewhere := by
  unfold advance
  split <;> rfl

@[simp] theorem noteBetter_betterSomewhere (cursor : DiagramCursor) (better : Bool) :
    (cursor.noteBetter better).betterSomewhere = (cursor.betterSomewhere || better) := rfl

end DiagramCursor

section

variable (arith : MachineArithmetic)

/-- The comparison at the next point of the side that comes first, of which `chunk` is the
next chunk: the two cursors afterwards. -/
def visitPoint (chunk : FeeFrac) (unproc other : DiagramCursor) : DiagramCursor × DiagramCursor :=
  let pointP := arith.add chunk unproc.accum
  let pointA := other.accum
  let slopeAP := arith.sub pointP pointA
  let compared : Ordering × DiagramCursor :=
    match other.remaining with
    -- a finished side goes on with feerate zero
    | [] => (feeRateCompare slopeAP ⟨0, 1⟩, other)
    | next :: _ =>
      let pointB := arith.add next other.accum
      let slopeAB := arith.sub pointB pointA
      (feeRateCompare slopeAP slopeAB,
        if pointB.size = pointP.size then other.advance arith else other)
  ((unproc.noteBetter (compared.1 == .gt)).advance arith, compared.2.noteBetter (compared.1 == .lt))

def compareStep (first second : DiagramCursor) : Option (DiagramCursor × DiagramCursor) :=
  match first.remaining, second.remaining with
  | [], [] => none
  | chunk :: _, [] => some (visitPoint arith chunk first second)
  | [], chunk :: _ => some (visitPoint arith chunk second first).swap
  | chunk :: _, chunk' :: _ =>
    if (arith.add chunk first.accum).size > (arith.add chunk' second.accum).size then
      some (visitPoint arith chunk' second first).swap
    else
      some (visitPoint arith chunk first second)

def compareFlags (first second : Bool) : PartialOrdering :=
  match first, second with
  | false, true => .less
  | true, false => .greater
  | _, _ => .equivalent

theorem length_advance_le (cursor : DiagramCursor) :
    (cursor.advance arith).remaining.length ≤ cursor.remaining.length := by
  unfold DiagramCursor.advance
  split
  · exact le_refl _
  case h_2 chunk rest next =>
    rw [next]
    exact Nat.le_succ _

theorem length_visitPoint_lt {chunk : FeeFrac} {rest : List FeeFrac} {unproc : DiagramCursor}
    (next : unproc.remaining = chunk :: rest) (other : DiagramCursor) :
    (visitPoint arith chunk unproc other).1.remaining.length +
        (visitPoint arith chunk unproc other).2.remaining.length <
      unproc.remaining.length + other.remaining.length := by
  refine Nat.add_lt_add_of_lt_of_le ?_ ?_
  · simp [visitPoint, DiagramCursor.advance, DiagramCursor.noteBetter, next]
  · simp only [visitPoint, DiagramCursor.noteBetter]
    split
    · exact le_refl _
    · dsimp only
      split
      · exact length_advance_le arith other
      · exact le_refl _

variable {first second first' second' : DiagramCursor}

/-- What one iteration does: it visits the next point of a side that the other side
does not precede. -/
theorem compareStep_cases (stepped : compareStep arith first second = some (first', second')) :
    (∃ chunk rest, first.remaining = chunk :: rest ∧ (∀ other ∈ second.remaining.head?,
        (arith.add chunk first.accum).size ≤ (arith.add other second.accum).size) ∧
      (first', second') = visitPoint arith chunk first second) ∨
    (∃ chunk rest, second.remaining = chunk :: rest ∧ (∀ other ∈ first.remaining.head?,
        (arith.add chunk second.accum).size ≤ (arith.add other first.accum).size) ∧
      (second', first') = visitPoint arith chunk second first) := by
  unfold compareStep at stepped
  split at stepped
  case h_1 => cases stepped
  case h_2 chunk rest nextFirst nextSecond =>
    left
    refine ⟨chunk, rest, nextFirst, ?_, (Option.some.inj stepped).symm⟩
    rw [nextSecond]
    intro other mem
    cases mem
  case h_3 chunk rest nextFirst nextSecond =>
    right
    refine ⟨chunk, rest, nextSecond, ?_, (congrArg Prod.swap (Option.some.inj stepped)).symm⟩
    rw [nextFirst]
    intro other mem
    cases mem
  case h_4 chunk rest chunk' rest' nextFirst nextSecond =>
    split at stepped
    case isTrue later =>
      right
      refine ⟨chunk', rest', nextSecond, ?_, (congrArg Prod.swap (Option.some.inj stepped)).symm⟩
      rw [nextFirst]
      rintro other ⟨⟩
      exact later.le
    case isFalse notLater =>
      left
      refine ⟨chunk, rest, nextFirst, ?_, (Option.some.inj stepped).symm⟩
      rw [nextSecond]
      rintro other ⟨⟩
      exact not_lt.mp notLater

theorem length_compareStep_lt (stepped : compareStep arith first second = some (first', second')) :
    first'.remaining.length + second'.remaining.length <
      first.remaining.length + second.remaining.length := by
  rcases compareStep_cases arith stepped with
    ⟨chunk, rest, next, -, visited⟩ | ⟨chunk, rest, next, -, visited⟩
  · have shorter := length_visitPoint_lt arith next second
    rwa [← visited] at shorter
  · have shorter := length_visitPoint_lt arith next first
    rw [← visited] at shorter
    simp only at shorter
    omega

def compareLoop (first second : DiagramCursor) : PartialOrdering :=
  match _stepped : compareStep arith first second with
  | none => compareFlags first.betterSomewhere second.betterSomewhere
  | some (first', second') =>
    if first'.betterSomewhere && second'.betterSomewhere then .unordered
    else compareLoop first' second'
termination_by first.remaining.length + second.remaining.length
decreasing_by exact length_compareStep_lt arith (by assumption)

def compareChunks (chunks0 chunks1 : List FeeFrac) : PartialOrdering :=
  compareLoop arith ⟨chunks0, 0, false⟩ ⟨chunks1, 0, false⟩

end

/-! ## What the code is for -/

/-- The limits on a list of chunks: positive sizes, a total size below `2 ^ 31`, and fee sums
that 63 bits hold, counted from `low`. -/
structure WithinLimits (low : ℤ) (chunks : List FeeFrac) : Prop where
  sizes_pos : ∀ chunk ∈ chunks, 0 < chunk.size
  total_size : chunks.sum.size < 2 ^ 31
  fees_low : ∀ count, low ≤ (chunks.take count).sum.fee
  fees_high : ∀ count, (chunks.take count).sum.fee < low + 2 ^ 63

/-! ## One side of the walk -/

/-- The line that a side follows after its last processed point: its next chunk, or
feerate zero. -/
def lineAfter (remaining : List FeeFrac) : FeeFrac := remaining.head?.getD ⟨0, 1⟩

/-- A cursor that has processed the points up to a size, and none after it. -/
structure Stands (low : ℤ) (chunks : List FeeFrac) (cursor : DiagramCursor) (visited : ℝ) :
    Prop where
  limits : WithinLimits low chunks
  processed : ∃ front, chunks = front ++ cursor.remaining ∧ cursor.accum = front.sum
  reached : (cursor.accum.size : ℝ) ≤ visited
  next_beyond : ∀ chunk ∈ cursor.remaining.head?, visited < cursor.accum.size + chunk.size

variable {low : ℤ} {visited : ℝ} {chunk : FeeFrac} {rest : List FeeFrac}

section

variable {chunks : List FeeFrac} {cursor : DiagramCursor}

theorem WithinLimits.advancing (limits : WithinLimits low chunks) :
    Advancing (chunks.map step) := by
  intro step mem
  obtain ⟨chunk, chunk_mem, rfl⟩ := mem_map.mp mem
  exact Int.cast_pos.mpr (limits.sizes_pos chunk chunk_mem)

/-- Between the last processed point and the next one the diagram is straight. -/
theorem Stands.straight (stands : Stands low chunks cursor visited)
    {size : ℝ} (lower : cursor.accum.size ≤ size)
    (upper : ∀ chunk ∈ cursor.remaining.head?, size ≤ cursor.accum.size + chunk.size) :
    feerateDiagram chunks size = cursor.accum.fee +
      (lineAfter cursor.remaining).fee / (lineAfter cursor.remaining).size *
        (size - cursor.accum.size) := by
  obtain ⟨front, split, total⟩ := stands.processed
  have advancing := stands.limits.advancing
  rw [split, map_append] at advancing
  rw [total] at lower upper ⊢
  rw [feerateDiagram, split, map_append,
    height_append_of_ge advancing (by rwa [widths_step]), widths_step, rises_step]
  cases remaining : cursor.remaining with
  | nil => simp [lineAfter]
  | cons chunk rest =>
    have within : size - front.sum.size ≤ chunk.size := by
      have := upper chunk (by rw [remaining]; rfl)
      linarith
    rw [map_cons, height_cons_of_le within]
    simp only [lineAfter, step, head?_cons, Option.getD_some]
    ring

theorem Stands.exists_line (stands : Stands low chunks cursor visited)
    {point : ℝ} (upper : ∀ chunk ∈ cursor.remaining.head?, point ≤ cursor.accum.size + chunk.size) :
    ∃ base slope : ℝ, ∀ size, visited ≤ size → size ≤ point →
      feerateDiagram chunks size = base + slope * size := by
  let slope : ℝ := (lineAfter cursor.remaining).fee / (lineAfter cursor.remaining).size
  refine ⟨cursor.accum.fee - slope * cursor.accum.size, slope, fun size lower within => ?_⟩
  rw [stands.straight (stands.reached.trans lower) fun chunk mem => within.trans (upper chunk mem)]
  ring

/-- The sum of no fees is one of the fee sums. -/
theorem WithinLimits.zero_between (limits : WithinLimits low chunks) : low ≤ 0 ∧ 0 < low + 2 ^ 63 :=
  ⟨limits.fees_low 0, limits.fees_high 0⟩

theorem WithinLimits.front (limits : WithinLimits low chunks) {front rest : List FeeFrac}
    (split : chunks = front ++ rest) : low ≤ front.sum.fee ∧ front.sum.fee < low + 2 ^ 63 ∧
      0 ≤ front.sum.size ∧ front.sum.size < 2 ^ 31 := by
  have taken : chunks.take front.length = front := by rw [split, take_left]
  have fees_low := limits.fees_low front.length
  have fees_high := limits.fees_high front.length
  rw [taken] at fees_low fees_high
  have sizes_nonneg : ∀ part : List FeeFrac, (∀ chunk ∈ part, chunk ∈ chunks) →
      0 ≤ part.sum.size := by
    intro part subset
    rw [sum_size]
    refine sum_nonneg fun size mem => ?_
    obtain ⟨chunk, chunk_mem, rfl⟩ := mem_map.mp mem
    exact (limits.sizes_pos chunk (subset chunk chunk_mem)).le
  have total : chunks.sum.size = front.sum.size + rest.sum.size := by
    rw [split, sum_append, add_size]
  have rest_nonneg := sizes_nonneg rest fun chunk mem => by
    rw [split]
    exact mem_append_right front mem
  have front_nonneg := sizes_nonneg front fun chunk mem => by
    rw [split]
    exact mem_append_left rest mem
  have total_size := limits.total_size
  exact ⟨fees_low, fees_high, front_nonneg, by omega⟩

theorem Stands.exact_next (stands : Stands low chunks cursor visited) (arith : MachineArithmetic)
    (next : cursor.remaining = chunk :: rest) :
    arith.add cursor.accum chunk = cursor.accum + chunk ∧
      arith.add chunk cursor.accum = cursor.accum + chunk := by
  obtain ⟨front, split, total⟩ := stands.processed
  rw [next, ← singleton_append, ← append_assoc] at split
  have bounds := stands.limits.front split
  rw [sum_concat, ← total, add_fee, add_size] at bounds
  obtain ⟨zero_mem, low_bound⟩ := stands.limits.zero_between
  obtain ⟨fee_low, fee_high, size_low, size_high⟩ := bounds
  have fee : arith.int64 (cursor.accum.fee + chunk.fee) = cursor.accum.fee + chunk.fee :=
    arith.int64_exact _ (by omega) (by omega)
  have size : arith.int32 (cursor.accum.size + chunk.size) = cursor.accum.size + chunk.size :=
    arith.int32_exact _ (by omega) (by omega)
  constructor
  · ext
    · exact fee
    · exact size
  · ext
    · rw [MachineArithmetic.add, add_comm chunk.fee, fee, add_fee]
    · rw [MachineArithmetic.add, add_comm chunk.size, size, add_size]

theorem Stands.advance (stands : Stands low chunks cursor visited) (arith : MachineArithmetic)
    (next : cursor.remaining = chunk :: rest) :
    Stands low chunks (cursor.advance arith) (cursor.accum.size + chunk.size) := by
  obtain ⟨front, split, total⟩ := stands.processed
  have advanced : cursor.advance arith = ⟨rest, cursor.accum + chunk, cursor.betterSomewhere⟩ := by
    rw [DiagramCursor.advance, next]
    simp only [(stands.exact_next arith next).1]
  rw [advanced]
  refine ⟨stands.limits, ⟨front ++ [chunk], ?_, ?_⟩, ?_, ?_⟩
  · rw [split, next, append_assoc, singleton_append]
  · rw [sum_concat, total]
  · simp
  · intro following following_mem
    have mem : following ∈ chunks := by
      rw [split, next]
      exact mem_append_right _ (mem_cons_of_mem _ (mem_of_mem_head? following_mem))
    have pos : (0 : ℝ) < following.size := Int.cast_pos.mpr (stands.limits.sizes_pos _ mem)
    push_cast [add_size]
    linarith

theorem Stands.noteBetter (stands : Stands low chunks cursor visited) (better : Bool) :
    Stands low chunks (cursor.noteBetter better) visited :=
  ⟨stands.limits, stands.processed, stands.reached, stands.next_beyond⟩

end

/-! ## The comparison at a point -/

/-- Which of the diagrams was strictly above the other one somewhere up to a size. -/
def AboveUpTo (chunks other : List FeeFrac) (visited : ℝ) : Prop :=
  ∃ size, 0 ≤ size ∧ size ≤ visited ∧ feerateDiagram other size < feerateDiagram chunks size

/-- The first diagram is strictly above the second one at some size. -/
def Above (chunks other : List FeeFrac) : Prop :=
  ∃ size, 0 ≤ size ∧ feerateDiagram other size < feerateDiagram chunks size

theorem AboveUpTo.above {chunks other : List FeeFrac} {visited : ℝ}
    (above : AboveUpTo chunks other visited) : Above chunks other := by
  obtain ⟨size, nonneg, -, higher⟩ := above
  exact ⟨size, nonneg, higher⟩

/-- The result that two facts call for: that the first is above somewhere, and the second. -/
def PartialOrdering.Reflects (res : PartialOrdering) (first second : Prop) : Prop :=
  match res with
  | .less => ¬ first ∧ second
  | .greater => first ∧ ¬ second
  | .equivalent => ¬ first ∧ ¬ second
  | .unordered => first ∧ second

section

variable {chunks chunks' : List FeeFrac} {cursor cursor' : DiagramCursor}
  {pointP pointA line : FeeFrac}

/-- While both diagrams are straight, one that is above somewhere is above at an end. -/
theorem above_extend (stands : Stands low chunks cursor visited)
    (stands' : Stands low chunks' cursor' visited) (visited_nonneg : 0 ≤ visited) {point : ℝ} (later : visited ≤ point)
    (upper : ∀ chunk ∈ cursor.remaining.head?, point ≤ cursor.accum.size + chunk.size)
    (upper' : ∀ chunk ∈ cursor'.remaining.head?, point ≤ cursor'.accum.size + chunk.size) :
    AboveUpTo chunks chunks' point ↔
      AboveUpTo chunks chunks' visited ∨ feerateDiagram chunks' point < feerateDiagram chunks point := by
  obtain ⟨base, slope, line⟩ := stands.exists_line upper
  obtain ⟨base', slope', line'⟩ := stands'.exists_line upper'
  have diff : ∀ size, visited ≤ size → size ≤ point →
      feerateDiagram chunks size - feerateDiagram chunks' size =
        (base - base') + (slope - slope') * size := by
    intro size lower within
    rw [line size lower within, line' size lower within]
    ring
  constructor
  · rintro ⟨size, nonneg, within, above⟩
    rcases le_total size visited with pre | after
    · exact Or.inl ⟨size, nonneg, pre, above⟩
    · have pos : 0 < (base - base') + (slope - slope') * size := by
        rw [← diff size after within]
        exact sub_pos.mpr above
      rcases lt_at_end_of_lt after within pos with at_visited | at_point
      · rw [← diff visited le_rfl later, sub_pos] at at_visited
        exact Or.inl ⟨visited, visited_nonneg, le_rfl, at_visited⟩
      · rw [← diff point later le_rfl, sub_pos] at at_point
        exact Or.inr at_point
  · rintro (⟨size, nonneg, within, above⟩ | above)
    · exact ⟨size, nonneg, within.trans later, above⟩
    · exact ⟨point, visited_nonneg.trans later, le_rfl, above⟩

theorem cross_lt_iff (line_size : 0 < line.size) :
    ((pointA.fee : ℝ) + line.fee / line.size * (pointP.size - pointA.size) < pointP.fee ↔
        line.fee * (pointP.size - pointA.size) < (pointP.fee - pointA.fee) * line.size) ∧
      ((pointP.fee : ℝ) < pointA.fee + line.fee / line.size * (pointP.size - pointA.size) ↔
        (pointP.fee - pointA.fee) * line.size < line.fee * (pointP.size - pointA.size)) := by
  have pos : (0 : ℝ) < line.size := Int.cast_pos.mpr line_size
  have scaled : (line.fee : ℝ) / line.size * (pointP.size - pointA.size) =
      line.fee * (pointP.size - pointA.size) / line.size := by ring
  constructor
  · rw [scaled, ← lt_sub_iff_add_lt', div_lt_iff₀ pos]
    exact_mod_cast Iff.rfl
  · rw [scaled, ← sub_lt_iff_lt_add', lt_div_iff₀ pos]
    exact_mod_cast Iff.rfl

theorem compare_slopes_gt (line_size : 0 < line.size) :
    (feeRateCompare (pointP - pointA) line == .gt) ↔
      (pointA.fee : ℝ) + line.fee / line.size * (pointP.size - pointA.size) < pointP.fee := by
  rw [(cross_lt_iff line_size).1, beq_iff_eq, feeRateCompare, compare_gt_iff_gt]
  rfl

theorem compare_slopes_lt (line_size : 0 < line.size) :
    (feeRateCompare (pointP - pointA) line == .lt) ↔
      (pointP.fee : ℝ) < pointA.fee + line.fee / line.size * (pointP.size - pointA.size) := by
  rw [(cross_lt_iff line_size).2, beq_iff_eq, feeRateCompare, compare_lt_iff_lt]
  rfl

end

/-! ## The walk -/

/-- The flags tell which diagram was strictly above the other up to the size visited. -/
structure Walk (low : ℤ) (chunks0 chunks1 : List FeeFrac) (first second : DiagramCursor)
    (visited : ℝ) : Prop where
  nonneg : 0 ≤ visited
  first_stands : Stands low chunks0 first visited
  second_stands : Stands low chunks1 second visited
  first_better : first.betterSomewhere ↔ AboveUpTo chunks0 chunks1 visited
  second_better : second.betterSomewhere ↔ AboveUpTo chunks1 chunks0 visited

section

variable {chunks0 chunks1 : List FeeFrac} {first second : DiagramCursor}

theorem Walk.symm (walk : Walk low chunks0 chunks1 first second visited) :
    Walk low chunks1 chunks0 second first visited :=
  ⟨walk.nonneg, walk.second_stands, walk.first_stands, walk.second_better, walk.first_better⟩

theorem Stands.lineAfter_pos (stands : Stands low chunks0 first visited) : 0 < (lineAfter first.remaining).size := by
  cases remaining : first.remaining with
  | nil => exact Int.one_pos
  | cons chunk rest =>
    obtain ⟨front, split, -⟩ := stands.processed
    refine stands.limits.sizes_pos chunk ?_
    rw [split, remaining]
    exact mem_append_right front mem_cons_self

/-- The other side stands at the point as well, after its own next point if that has the
same size. -/
theorem Stands.visit_other (stands : Stands low chunks1 second visited)
    (arith : MachineArithmetic) (point : ℤ) (later : visited ≤ point)
    (upper : ∀ other ∈ second.remaining.head?, (point : ℝ) ≤ second.accum.size + other.size) :
    Stands low chunks1 (if (second.accum + lineAfter second.remaining).size = point then
      second.advance arith else second) point := by
  cases remaining : second.remaining with
  | nil =>
    have finished : second.advance arith = second := by
      rw [DiagramCursor.advance, remaining]
    rw [finished, ite_self]
    refine ⟨stands.limits, stands.processed, stands.reached.trans later, ?_⟩
    rw [remaining]
    rintro other ⟨⟩
  | cons other rest =>
    have within := upper other (by rw [remaining]; rfl)
    split
    case isTrue same =>
      rw [← same]
      simpa [lineAfter] using stands.advance arith remaining
    case isFalse different =>
      refine ⟨stands.limits, stands.processed, stands.reached.trans later, ?_⟩
      rw [remaining]
      rintro other ⟨⟩
      refine within.lt_of_ne fun same => different ?_
      exact_mod_cast same.symm

theorem compareStep_eq_none {arith : MachineArithmetic}
    (finished : compareStep arith first second = none) :
    first.remaining = [] ∧ second.remaining = [] := by
  unfold compareStep at finished
  split at finished
  case h_1 done0 done1 => exact ⟨done0, done1⟩
  case h_2 => cases finished
  case h_3 => cases finished
  case h_4 => split at finished <;> cases finished

theorem Walk.initial (limits0 : WithinLimits low chunks0) (limits1 : WithinLimits low chunks1) :
    Walk low chunks0 chunks1 ⟨chunks0, 0, false⟩ ⟨chunks1, 0, false⟩ 0 := by
  have stands : ∀ chunks, WithinLimits low chunks → Stands low chunks ⟨chunks, 0, false⟩ 0 := by
    intro chunks limits
    refine ⟨limits, ⟨[], rfl, rfl⟩, by simp, fun chunk mem => ?_⟩
    have pos := limits.sizes_pos chunk (mem_of_mem_head? mem)
    simpa using pos
  have nowhere : ∀ chunks chunks', WithinLimits low chunks → WithinLimits low chunks' →
      ¬ AboveUpTo chunks chunks' 0 := by
    rintro chunks chunks' limits limits' ⟨size, nonneg, nonpos, above⟩
    rw [le_antisymm nonpos nonneg, feerateDiagram, feerateDiagram, height_zero limits.advancing,
      height_zero limits'.advancing] at above
    exact lt_irrefl _ above
  exact ⟨le_rfl, stands chunks0 limits0, stands chunks1 limits1,
    iff_of_false Bool.false_ne_true (nowhere _ _ limits0 limits1),
    iff_of_false Bool.false_ne_true (nowhere _ _ limits1 limits0)⟩

theorem exact_sub (arith : MachineArithmetic) (limits0 : WithinLimits low chunks0)
    (limits1 : WithinLimits low chunks1) {front0 rest0 front1 rest1 : List FeeFrac} (split0 : chunks0 = front0 ++ rest0)
    (split1 : chunks1 = front1 ++ rest1) : arith.sub front0.sum front1.sum = front0.sum - front1.sum := by
  have bounds0 := limits0.front split0
  have bounds1 := limits1.front split1
  ext
  · exact arith.int64_exact _ (by omega) (by omega)
  · exact arith.int32_exact _ (by omega) (by omega)

/-- When both sides are done, the diagrams go on side by side. -/
theorem Walk.finish (walk : Walk low chunks0 chunks1 first second visited)
    (done0 : first.remaining = []) (done1 : second.remaining = []) :
    first.betterSomewhere ↔ Above chunks0 chunks1 := by
  rw [walk.first_better]
  refine ⟨AboveUpTo.above, ?_⟩
  rintro ⟨size, nonneg, above⟩
  rcases le_total size visited with pre | after
  · exact ⟨size, nonneg, pre, above⟩
  · have straight0 : ∀ size, visited ≤ size → feerateDiagram chunks0 size = first.accum.fee := by
      intro size after
      rw [walk.first_stands.straight (walk.first_stands.reached.trans after) (by simp [done0])]
      simp [done0, lineAfter]
    have straight1 : ∀ size, visited ≤ size → feerateDiagram chunks1 size = second.accum.fee := by
      intro size after
      rw [walk.second_stands.straight (walk.second_stands.reached.trans after) (by simp [done1])]
      simp [done1, lineAfter]
    rw [straight0 size after, straight1 size after] at above
    refine ⟨visited, walk.nonneg, le_rfl, ?_⟩
    rwa [straight0 visited le_rfl, straight1 visited le_rfl]

section

variable (arith : MachineArithmetic) (walk : Walk low chunks0 chunks1 first second visited)
include walk

/-- The comparison of one iteration, with every sum exact. -/
theorem Walk.visitPoint_eq (next : first.remaining = chunk :: rest) :
    let compared := feeRateCompare (first.accum + chunk - second.accum) (lineAfter second.remaining)
    visitPoint arith chunk first second = ((first.noteBetter (compared == .gt)).advance arith,
        (if (second.accum + lineAfter second.remaining).size = (first.accum + chunk).size then
          second.advance arith else second).noteBetter (compared == .lt)) := by
  obtain ⟨front0, split0, total0⟩ := walk.first_stands.processed
  obtain ⟨front1, split1, total1⟩ := walk.second_stands.processed
  have exact0 := (walk.first_stands.exact_next arith next).2
  have split0' : chunks0 = (front0 ++ [chunk]) ++ rest := by
    rw [split0, next, append_assoc, singleton_append]
  have slopeAP : arith.sub (first.accum + chunk) second.accum =
      first.accum + chunk - second.accum := by
    rw [total0, total1, ← sum_concat]
    exact exact_sub arith walk.first_stands.limits walk.second_stands.limits split0' split1
  cases remaining : second.remaining with
  | nil =>
    have finished : second.advance arith = second := by
      rw [DiagramCursor.advance, remaining]
    simp only [visitPoint, remaining, exact0, slopeAP, lineAfter, head?_nil,
      Option.getD_none, finished, ite_self]
  | cons other rest1 =>
    have exact1 := (walk.second_stands.exact_next arith remaining).2
    have split1' : chunks1 = (front1 ++ [other]) ++ rest1 := by
      rw [split1, remaining, append_assoc, singleton_append]
    have slopeAB : arith.sub (second.accum + other) second.accum = other := by
      rw [total1, ← sum_concat, exact_sub arith walk.second_stands.limits walk.second_stands.limits
        split1' split1, sum_concat]
      ext
      · exact add_sub_cancel_left _ _
      · exact add_sub_cancel_left _ _
    simp only [visitPoint, remaining, exact0, exact1, slopeAP, slopeAB, lineAfter,
      head?_cons, Option.getD_some]
    rfl

/-- Visiting the next corner keeps the flags right. -/
theorem Walk.visit (next : first.remaining = chunk :: rest)
    (precedes : ∀ other ∈ second.remaining.head?,
      (arith.add chunk first.accum).size ≤ (arith.add other second.accum).size) :
    Walk low chunks0 chunks1 (visitPoint arith chunk first second).1
      (visitPoint arith chunk first second).2 (first.accum.size + chunk.size) := by
  have exact0 := walk.first_stands.exact_next arith next
  have later : visited < first.accum.size + chunk.size :=
    walk.first_stands.next_beyond chunk (by rw [next]; rfl)
  have upper0 : ∀ other ∈ first.remaining.head?,
      (first.accum.size + chunk.size : ℝ) ≤ first.accum.size + other.size := by
    rw [next]
    rintro other ⟨⟩
    exact le_rfl
  have upper1 : ∀ other ∈ second.remaining.head?,
      (first.accum.size + chunk.size : ℝ) ≤ second.accum.size + other.size := by
    intro other mem
    obtain ⟨rest1, remaining⟩ := head?_eq_some_iff.mp mem
    have exact1 := (walk.second_stands.exact_next arith remaining).2
    have ordered := precedes other mem
    rw [exact0.2, exact1, add_size, add_size] at ordered
    exact_mod_cast ordered
  have height0 := walk.first_stands.straight (walk.first_stands.reached.trans later.le) upper0
  have height1 := walk.second_stands.straight (walk.second_stands.reached.trans later.le) upper1
  have above0 := above_extend walk.first_stands walk.second_stands walk.nonneg later.le upper0 upper1
  have above1 := above_extend walk.second_stands walk.first_stands walk.nonneg later.le upper1 upper0
  have line_pos := walk.second_stands.lineAfter_pos
  have corner : feerateDiagram chunks0 (first.accum.size + chunk.size) =
      first.accum.fee + chunk.fee := by
    have chunk_pos := walk.first_stands.lineAfter_pos
    rw [next] at height0 chunk_pos
    have nonzero : ((lineAfter (chunk :: rest)).size : ℝ) ≠ 0 := Int.cast_ne_zero.mpr chunk_pos.ne'
    rw [height0, add_sub_cancel_left]
    exact congrArg _ (div_mul_cancel₀ _ nonzero)
  rw [walk.visitPoint_eq arith next]
  dsimp only
  refine ⟨walk.nonneg.trans later.le, ?_, ?_, ?_, ?_⟩
  · exact (walk.first_stands.noteBetter _).advance arith next
  · refine Stands.noteBetter ?_ _
    have stands := walk.second_stands.visit_other arith (first.accum + chunk).size
    push_cast [add_size] at stands
    exact stands later.le upper1
  · rw [above0, ← walk.first_better, corner, height1, DiagramCursor.advance_betterSomewhere,
      DiagramCursor.noteBetter_betterSomewhere, Bool.or_eq_true, compare_slopes_gt line_pos]
    push_cast [add_fee, add_size]
    rfl
  · rw [above1, ← walk.second_better, corner, height1, DiagramCursor.noteBetter_betterSomewhere,
      apply_ite DiagramCursor.betterSomewhere, DiagramCursor.advance_betterSomewhere, ite_self,
      Bool.or_eq_true, compare_slopes_lt line_pos]
    push_cast [add_fee, add_size]
    rfl

theorem Walk.step {first' second' : DiagramCursor}
    (stepped : compareStep arith first second = some (first', second')) :
    ∃ visited', Walk low chunks0 chunks1 first' second' visited' := by
  rcases compareStep_cases arith stepped with
    ⟨chunk, rest, next, precedes, visit⟩ | ⟨chunk, rest, next, precedes, visit⟩
  · have after := walk.visit arith next precedes
    rw [← visit] at after
    exact ⟨_, after⟩
  · have after := walk.symm.visit arith next precedes
    rw [← visit] at after
    exact ⟨_, after.symm⟩

/-- The loop says which diagrams are above the other one somewhere. -/
theorem Walk.loop (comparable : (first.betterSomewhere && second.betterSomewhere) = false) :
    (compareLoop arith first second).Reflects (Above chunks0 chunks1) (Above chunks1 chunks0) := by
  induction first, second using compareLoop.induct arith generalizing visited with
  | case1 first second finished =>
    obtain ⟨done0, done1⟩ := compareStep_eq_none finished
    rw [compareLoop, finished]
    have flag0 := walk.finish done0 done1
    have flag1 := walk.symm.finish done1 done0
    rw [← flag0, ← flag1]
    cases better0 : first.betterSomewhere <;> cases better1 : second.betterSomewhere <;>
      simp_all [compareFlags, PartialOrdering.Reflects]
  | case2 first second first' second' stepped both =>
    obtain ⟨visited', after⟩ := walk.step arith stepped
    rw [compareLoop, stepped]
    simp only [both, if_true, PartialOrdering.Reflects]
    rw [Bool.and_eq_true, after.first_better, after.second_better] at both
    exact ⟨both.1.above, both.2.above⟩
  | case3 first second first' second' stepped notBoth ih =>
    obtain ⟨visited', after⟩ := walk.step arith stepped
    rw [compareLoop, stepped]
    simp only [notBoth]
    exact ih after (Bool.eq_false_iff.mpr notBoth)

end

end

/-! ## The result -/

section

variable {arith : MachineArithmetic} {chunks0 chunks1 : List FeeFrac}

theorem not_above_iff : ¬ Above chunks0 chunks1 ↔
      ∀ size, 0 ≤ size → feerateDiagram chunks0 size ≤ feerateDiagram chunks1 size := by
  simp only [Above, not_exists, not_and, not_lt]

theorem compareChunks_reflects (arith : MachineArithmetic)
    (limits0 : WithinLimits low chunks0) (limits1 : WithinLimits low chunks1) :
    (compareChunks arith chunks0 chunks1).Reflects (Above chunks0 chunks1)
      (Above chunks1 chunks0) :=
  (Walk.initial limits0 limits1).loop arith rfl

/-- The first list of chunks compares as greater than the second, or as equivalent to it. -/
def AtLeast (arith : MachineArithmetic) (chunks0 chunks1 : List FeeFrac) : Prop :=
  compareChunks arith chunks0 chunks1 = .greater ∨ compareChunks arith chunks0 chunks1 = .equivalent

theorem PartialOrdering.Reflects.cases {res : PartialOrdering} {first second : Prop}
    (reflects : res.Reflects first second) :
    (res = .less ↔ ¬ first ∧ second) ∧ (res = .greater ↔ first ∧ ¬ second) ∧
      (res = .equivalent ↔ ¬ first ∧ ¬ second) ∧ (res = .unordered ↔ first ∧ second) := by
  cases res <;> simp only [PartialOrdering.Reflects] at reflects <;> simp [reflects.1, reflects.2]

theorem atLeast_iff (arith : MachineArithmetic)
    (limits0 : WithinLimits low chunks0) (limits1 : WithinLimits low chunks1) :
    AtLeast arith chunks0 chunks1 ↔
      ∀ size, 0 ≤ size → feerateDiagram chunks1 size ≤ feerateDiagram chunks0 size := by
  obtain ⟨-, greater, equivalent, -⟩ :=
    (compareChunks_reflects arith limits0 limits1).cases
  rw [AtLeast, greater, equivalent, ← not_above_iff]
  tauto

/-- `CompareChunks` compares the diagrams at every real size. Whatever overflowing sums
would yield, for lists within the limits the result is `equivalent` exactly if the diagrams
coincide, `less` exactly if the first is nowhere above the second and somewhere below it,
`greater` the other way round, and `unordered` otherwise; so being greater or equivalent is
reflexive and transitive. -/
theorem compareChunks_spec (arith : MachineArithmetic) (low : ℤ) :
    (∀ chunks0 chunks1, WithinLimits low chunks0 → WithinLimits low chunks1 →
      (compareChunks arith chunks0 chunks1 = .equivalent ↔
        ∀ size, 0 ≤ size → feerateDiagram chunks0 size = feerateDiagram chunks1 size) ∧
      (compareChunks arith chunks0 chunks1 = .less ↔
        (∀ size, 0 ≤ size → feerateDiagram chunks0 size ≤ feerateDiagram chunks1 size) ∧
          ∃ size, 0 ≤ size ∧ feerateDiagram chunks0 size < feerateDiagram chunks1 size) ∧
      (compareChunks arith chunks0 chunks1 = .greater ↔
        (∀ size, 0 ≤ size → feerateDiagram chunks1 size ≤ feerateDiagram chunks0 size) ∧
          ∃ size, 0 ≤ size ∧ feerateDiagram chunks1 size < feerateDiagram chunks0 size) ∧
      (compareChunks arith chunks0 chunks1 = .unordered ↔
        (∃ size, 0 ≤ size ∧ feerateDiagram chunks1 size < feerateDiagram chunks0 size) ∧
          ∃ size, 0 ≤ size ∧ feerateDiagram chunks0 size < feerateDiagram chunks1 size)) ∧
    (∀ chunks, WithinLimits low chunks → AtLeast arith chunks chunks) ∧
    (∀ chunks0 chunks1 chunks2, WithinLimits low chunks0 → WithinLimits low chunks1 →
      WithinLimits low chunks2 → AtLeast arith chunks0 chunks1 →
      AtLeast arith chunks1 chunks2 → AtLeast arith chunks0 chunks2) := by
  refine ⟨fun chunks0 chunks1 limits0 limits1 => ?_, fun chunks limits => ?_,
    fun chunks0 chunks1 chunks2 limits0 limits1 limits2 upper lower => ?_⟩
  · obtain ⟨less, greater, equivalent, unordered⟩ :=
      (compareChunks_reflects arith limits0 limits1).cases
    refine ⟨?_, ?_, ?_, unordered⟩
    · rw [equivalent, not_above_iff, not_above_iff, ← forall₂_and]
      exact forall₂_congr fun size _ => le_antisymm_iff.symm
    · rw [less, not_above_iff]
      rfl
    · rw [greater, not_above_iff, and_comm]
      rfl
  · exact (atLeast_iff arith limits limits).mpr fun size _ => le_rfl
  · rw [atLeast_iff arith limits0 limits1] at upper
    rw [atLeast_iff arith limits1 limits2] at lower
    rw [atLeast_iff arith limits0 limits2]
    exact fun size nonneg => (lower size nonneg).trans (upper size nonneg)

def wrappingArithmetic : MachineArithmetic where
  int64 val := (val + 2 ^ 63) % 2 ^ 64 - 2 ^ 63
  int32 val := (val + 2 ^ 31) % 2 ^ 32 - 2 ^ 31
  int64_exact val lower upper := by omega
  int32_exact val lower upper := by omega

theorem WithinLimits.of_nonneg {chunks : List FeeFrac} (sizes_pos : ∀ chunk ∈ chunks, 0 < chunk.size)
    (total_size : chunks.sum.size < 2 ^ 31) (fees_nonneg : ∀ chunk ∈ chunks, 0 ≤ chunk.fee)
    (total_fee : chunks.sum.fee < 2 ^ 63) : WithinLimits 0 chunks := by
  have nonneg : ∀ part : List FeeFrac, part.Sublist chunks → 0 ≤ part.sum.fee := by
    intro part sublist
    rw [sum_fee]
    refine sum_nonneg fun fee mem => ?_
    obtain ⟨chunk, chunk_mem, rfl⟩ := mem_map.mp mem
    exact fees_nonneg chunk (sublist.subset chunk_mem)
  refine ⟨sizes_pos, total_size, fun count => nonneg _ (take_sublist count chunks), fun count => ?_⟩
  have parts : chunks.sum.fee =
      ((chunks.take count).sum).fee + ((chunks.drop count).sum).fee := by
    rw [← add_fee, ← sum_append, take_append_drop]
  have rest_nonneg := nonneg _ (drop_sublist count chunks)
  omega

/-- Two lists that cross: a good chunk and a bad one against one chunk in between. -/
theorem compareChunks_spec_crossing : WithinLimits 0 [⟨5, 1⟩, ⟨0, 1⟩] ∧ WithinLimits 0 [⟨8, 2⟩] ∧
    (compareChunks wrappingArithmetic [⟨5, 1⟩, ⟨0, 1⟩] [⟨8, 2⟩] = .unordered ↔ (∃ size, 0 ≤ size ∧
        feerateDiagram [⟨8, 2⟩] size < feerateDiagram [⟨5, 1⟩, ⟨0, 1⟩] size) ∧ ∃ size, 0 ≤ size ∧
        feerateDiagram [⟨5, 1⟩, ⟨0, 1⟩] size < feerateDiagram [⟨8, 2⟩] size) := by
  have limits0 : WithinLimits 0 [⟨5, 1⟩, ⟨0, 1⟩] :=
    WithinLimits.of_nonneg (by decide) (by decide) (by decide) (by decide)
  have limits1 : WithinLimits 0 [⟨8, 2⟩] :=
    WithinLimits.of_nonneg (by decide) (by decide) (by decide) (by decide)
  exact ⟨limits0, limits1, ((compareChunks_spec wrappingArithmetic 0).1 _ _ limits0 limits1).2.2.2⟩

end

end BitcoinCore
