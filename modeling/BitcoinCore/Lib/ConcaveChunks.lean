import BitcoinCore.Lib.StepDiagram

/-!
# Cutting a list of steps into concave chunks

Items that each weigh a step are cut into consecutive chunks, so that the chunks get
flatter and flatter while inside a chunk every front is flatter than the whole
(`IsChunking`). There is only one way to do that (`IsChunking.unique`), and a stack that
absorbs its last chunk into a steeper one finds it (`isChunking_chunks`).

The chunks draw the concave hull of the items: they reach as far as the items do along
every slope (`reach_flatten`).
-/

namespace StepDiagram

open List Step

variable {α : Type*} {K : Type*} [Field K]

def total (weigh : α → Step K) (group : List α) : Step K := (group.map weigh).sum

section

variable (weigh : α → Step K)

@[simp] theorem total_nil : total weigh [] = 0 := rfl

@[simp] theorem total_singleton (item : α) : total weigh [item] = weigh item := by
  rw [total, map_singleton, sum_singleton]

@[simp] theorem total_append (front back : List α) :
    total weigh (front ++ back) = total weigh front + total weigh back := by
  rw [total, map_append, sum_append, total, total]

theorem total_cons (item : α) (group : List α) :
    total weigh (item :: group) = weigh item + total weigh group := by
  rw [total, map_cons, sum_cons, total]

theorem excess_total (slope : K) (group : List α) :
    (total weigh group).excess slope = ((group.map weigh).map (excess slope)).sum := by
  induction group with
  | nil => exact excess_zero slope
  | cons item group ih =>
    rw [total_cons, excess_add, ih, map_cons, map_cons, sum_cons]

end

variable [LinearOrder K] [IsStrictOrderedRing K] {weigh : α → Step K}

def Wide (weigh : α → Step K) (group : List α) : Prop := ∀ item ∈ group, 0 < (weigh item).width

/-- A group of items of which every proper front is flatter than the whole. -/
structure Rising (weigh : α → Step K) (group : List α) : Prop where
  nonempty : group ≠ []
  flatter : ∀ front back, group = front ++ back → front ≠ [] → back ≠ [] →
    (total weigh front).slope < (total weigh group).slope

section

variable {group front back : List α} {slope : K}

section

omit [IsStrictOrderedRing K]

theorem Wide.singleton {item : α} (pos : 0 < (weigh item).width) : Wide weigh [item] :=
  forall_mem_singleton.mpr pos

theorem Wide.append_left (wide : Wide weigh (front ++ back)) : Wide weigh front :=
  fun item mem => wide item (mem_append_left back mem)

theorem Wide.append_right (wide : Wide weigh (front ++ back)) : Wide weigh back :=
  fun item mem => wide item (mem_append_right front mem)

theorem Wide.append (wide : Wide weigh front) (wide' : Wide weigh back) :
    Wide weigh (front ++ back) := by
  intro item mem
  rcases mem_append.mp mem with in_front | in_back
  · exact wide item in_front
  · exact wide' item in_back

theorem rising_singleton (weigh : α → Step K) (item : α) : Rising weigh [item] := by
  refine ⟨cons_ne_nil item [], fun front back whole front_ne back_ne => ?_⟩
  cases front with
  | nil => exact absurd rfl front_ne
  | cons first front =>
    rw [cons_append, List.cons.injEq] at whole
    exact absurd (append_eq_nil_iff.mp whole.2.symm).2 back_ne

end

theorem Wide.total_pos (wide : Wide weigh group) (nonempty : group ≠ []) :
    0 < (total weigh group).width := by
  induction group with
  | nil => exact absurd rfl nonempty
  | cons item group ih =>
    have item_pos := wide item mem_cons_self
    rw [total_cons, add_width]
    rcases eq_or_ne group [] with rfl | more
    · simpa using item_pos
    · have rest_pos := ih (fun other mem => wide other (mem_cons_of_mem item mem)) more
      exact add_pos item_pos rest_pos

theorem slope_add_lt_iff {a b : Step K} (wide_a : 0 < a.width) (wide_b : 0 < b.width) :
    a.slope < (a + b).slope ↔ a.slope < b.slope := by
  have wide : 0 < (a + b).width := add_pos wide_a wide_b
  rw [← excess_pos_iff wide, ← excess_pos_iff wide_b, excess_add, excess_slope wide_a, zero_add]

theorem lt_slope_add_iff {a b : Step K} (wide_a : 0 < a.width) (wide_b : 0 < b.width) :
    (a + b).slope < b.slope ↔ a.slope < b.slope := by
  have wide : 0 < (a + b).width := add_pos wide_a wide_b
  rw [← excess_neg_iff wide, ← excess_neg_iff wide_a, excess_add, excess_slope wide_b, add_zero]

theorem Rising.steeper_back (rising : Rising weigh (front ++ back)) (wide : Wide weigh (front ++ back))
    (front_ne : front ≠ []) (back_ne : back ≠ []) :
    (total weigh (front ++ back)).slope < (total weigh back).slope := by
  have wide_front := wide.append_left.total_pos front_ne
  have wide_back := wide.append_right.total_pos back_ne
  have flatter := rising.flatter front back rfl front_ne back_ne
  rw [total_append] at flatter ⊢
  rw [slope_add_lt_iff wide_front wide_back] at flatter
  exact (lt_slope_add_iff wide_front wide_back).mpr flatter

/-- Two rising groups, the second of them steeper, are one rising group. -/
theorem Rising.append (rising : Rising weigh front) (rising' : Rising weigh back)
    (wide : Wide weigh (front ++ back))
    (steeper : (total weigh front).slope < (total weigh back).slope) :
    Rising weigh (front ++ back) := by
  refine ⟨append_ne_nil_of_left_ne_nil rising.nonempty _, ?_⟩
  intro first second whole first_ne second_ne
  have wide_front := wide.append_left.total_pos rising.nonempty
  have wide_back := wide.append_right.total_pos rising'.nonempty
  have front_lt : (total weigh front).slope < (total weigh (front ++ back)).slope := by
    rw [total_append]
    exact (slope_add_lt_iff wide_front wide_back).mpr steeper
  have back_gt : (total weigh (front ++ back)).slope < (total weigh back).slope := by
    rw [total_append]
    exact (lt_slope_add_iff wide_front wide_back).mpr steeper
  rcases append_eq_append_iff.mp whole with
    ⟨middle, rfl, rfl⟩ | ⟨middle, rfl, rfl⟩
  · -- the front ends inside the second group
    rcases eq_or_ne middle [] with rfl | middle_ne
    · simpa using front_lt
    · have rest_gt : (total weigh (middle ++ second)).slope < (total weigh second).slope :=
        rising'.steeper_back wide.append_right middle_ne second_ne
      have wide_first := (wide.append_left.append wide.append_right.append_left).total_pos first_ne
      have wide_second := wide.append_right.append_right.total_pos second_ne
      rw [← append_assoc, total_append weigh (front ++ middle)] at back_gt ⊢
      rw [slope_add_lt_iff wide_first wide_second, ← lt_slope_add_iff wide_first wide_second]
      exact back_gt.trans rest_gt
  · -- the front ends inside the first group
    rcases eq_or_ne middle [] with rfl | middle_ne
    · simpa using front_lt
    · exact (rising.flatter first middle rfl first_ne middle_ne).trans front_lt

theorem Rising.reach_eq (rising : Rising weigh group) (wide : Wide weigh group) (slope : K) :
    reach slope (group.map weigh) = max 0 ((total weigh group).excess slope) := by
  refine le_antisymm (reach_le_iff.mpr ?_) (max_le (reach_nonneg _ _) ?_)
  · intro steps is_front
    obtain ⟨front, ⟨back, rfl⟩, rfl⟩ := prefix_map_iff.mp is_front
    rw [← excess_total]
    rcases eq_or_ne front [] with rfl | front_ne
    · rw [total_nil, excess_zero]
      exact le_max_left _ _
    rcases eq_or_ne back [] with rfl | back_ne
    · rw [append_nil]
      exact le_max_right _ _
    rcases le_or_gt ((total weigh front).excess slope) 0 with below | above
    · exact below.trans (le_max_left _ _)
    · refine le_trans ?_ (le_max_right _ _)
      rw [excess_pos_iff (wide.append_left.total_pos front_ne)] at above
      have steeper := rising.steeper_back wide front_ne back_ne
      have flatter := rising.flatter front back rfl front_ne back_ne
      have back_pos : 0 < (total weigh back).excess slope :=
        (excess_pos_iff (wide.append_right.total_pos back_ne)).mpr
          (above.trans (flatter.trans steeper))
      rw [total_append, excess_add]
      linarith
  · have whole := sum_le_reach slope (group.map weigh) []
    rwa [← excess_total, append_nil] at whole

/-- Rising groups reach as far as their items do. -/
theorem reach_flatten {groups : List (List α)} (rising : ∀ group ∈ groups, Rising weigh group)
    (wide : ∀ group ∈ groups, Wide weigh group) (slope : K) :
    reach slope (groups.flatten.map weigh) = reach slope (groups.map (total weigh)) := by
  induction groups with
  | nil => rfl
  | cons group groups ih =>
    rw [flatten_cons, map_append, reach_append,
      ih (fun other mem => rising other (mem_cons_of_mem group mem))
        (fun other mem => wide other (mem_cons_of_mem group mem)),
      (rising group mem_cons_self).reach_eq (wide group mem_cons_self), ← excess_total,
      map_cons, reach, max_assoc]
    refine congrArg _ (max_eq_right ?_)
    exact le_add_of_nonneg_right (reach_nonneg _ _)

end

/-! ## Chunkings -/

/-- Rising chunks, each at most as steep as the one before. -/
structure IsChunking (weigh : α → Step K) (chunks : List (List α)) : Prop where
  rising : ∀ chunk ∈ chunks, Rising weigh chunk
  concave : Concave (chunks.map (total weigh))

section

variable {chunk : List α} {chunks others : List (List α)}

omit [IsStrictOrderedRing K] in
theorem wide_of_flatten (wide : Wide weigh chunks.flatten) (mem : chunk ∈ chunks) :
    Wide weigh chunk := fun item in_chunk => wide item (mem_flatten_of_mem mem in_chunk)

theorem IsChunking.advancing (chunking : IsChunking weigh chunks) (wide : Wide weigh chunks.flatten) :
    Advancing (chunks.map (total weigh)) := by
  intro step mem
  obtain ⟨chunk, chunk_mem, rfl⟩ := mem_map.mp mem
  exact (wide_of_flatten wide chunk_mem).total_pos (chunking.rising chunk chunk_mem).nonempty

omit [IsStrictOrderedRing K] in
theorem IsChunking.tail (chunking : IsChunking weigh (chunk :: chunks)) : IsChunking weigh chunks :=
  ⟨fun other mem => chunking.rising other (mem_cons_of_mem chunk mem),
    (pairwise_cons.mp chunking.concave).2⟩

theorem IsChunking.first_steepest (chunking : IsChunking weigh (chunk :: chunks))
    (wide : Wide weigh (chunk :: chunks).flatten) {front : List α}
    (is_front : front <+: (chunk :: chunks).flatten) (nonempty : front ≠ []) :
    (total weigh front).slope ≤ (total weigh chunk).slope := by
  have advancing := chunking.advancing wide
  have none : reach (total weigh chunk).slope ((chunk :: chunks).flatten.map weigh) = 0 := by
    rw [reach_flatten chunking.rising (fun group mem => wide_of_flatten wide mem),
      chunking.concave.reach_eq advancing]
    refine sum_eq_zero fun value mem => ?_
    obtain ⟨step, step_mem, rfl⟩ := mem_map.mp mem
    refine max_eq_left ((excess_nonpos_iff (advancing step step_mem)).mpr ?_)
    rcases mem_cons.mp step_mem with rfl | later
    · exact le_rfl
    · exact (pairwise_cons.mp chunking.concave).1 step later
  obtain ⟨back, whole⟩ := is_front
  have wide_front : Wide weigh front := by
    rw [← whole] at wide
    exact wide.append_left
  rw [← excess_nonpos_iff (wide_front.total_pos nonempty), excess_total, ← none, ← whole,
    map_append]
  exact sum_le_reach _ _ _

/-- There is only one chunking of a list. -/
theorem IsChunking.unique (chunking : IsChunking weigh chunks) (chunking' : IsChunking weigh others)
    (wide : Wide weigh chunks.flatten) (same : chunks.flatten = others.flatten) : chunks = others := by
  induction chunks generalizing others with
  | nil =>
    cases others with
    | nil => rfl
    | cons other others =>
      rw [flatten_nil, flatten_cons, eq_comm, append_eq_nil_iff] at same
      exact absurd same.1 (chunking'.rising other mem_cons_self).nonempty
  | cons chunk chunks ih =>
    cases others with
    | nil =>
      rw [flatten_nil, flatten_cons, append_eq_nil_iff] at same
      exact absurd same.1 (chunking.rising chunk mem_cons_self).nonempty
    | cons other others =>
      have rising := chunking.rising chunk mem_cons_self
      have rising' := chunking'.rising other mem_cons_self
      have wide' : Wide weigh (other :: others).flatten := by rwa [← same]
      have front : chunk <+: (other :: others).flatten := by
        rw [← same, flatten_cons]
        exact prefix_append _ _
      have front' : other <+: (chunk :: chunks).flatten := by
        rw [same, flatten_cons]
        exact prefix_append _ _
      have first_le := chunking'.first_steepest wide' front rising.nonempty
      have first_ge := chunking.first_steepest wide front' rising'.nonempty
      have equal : chunk = other := by
        rcases List.prefix_or_prefix_of_prefix front (prefix_append other others.flatten) with
          ⟨rest, rfl⟩ | ⟨rest, rfl⟩
        · rcases eq_or_ne rest [] with rfl | rest_ne
          · rw [append_nil]
          · exact absurd (rising'.flatter chunk rest rfl rising.nonempty rest_ne) first_ge.not_gt
        · rcases eq_or_ne rest [] with rfl | rest_ne
          · rw [append_nil]
          · exact absurd (rising.flatter other rest rfl rising'.nonempty rest_ne) first_le.not_gt
      subst equal
      rw [flatten_cons, flatten_cons, append_cancel_left_eq] at same
      rw [ih chunking.tail chunking'.tail wide.append_right same]

end

/-! ## Finding the chunks with a stack -/

/-- Put a chunk on a stack, after absorbing into it the chunks that it is higher than. -/
def absorb {β : Type*} (higher : β → β → Bool) (join : β → β → β) : β → List β → List β
  | new, [] => [new]
  | new, last :: stack =>
    if higher new last then absorb higher join (join new last) stack
    else new :: last :: stack

/-- Two ways to represent chunks find the same chunks. -/
theorem map_absorb {β γ : Type*} {higher : β → β → Bool} {join : β → β → β}
    {higher' : γ → γ → Bool} {join' : γ → γ → γ} {valid : β → Prop} (convert : β → γ)
    (valid_join : ∀ a b, valid a → valid b → valid (join a b))
    (convert_higher : ∀ a b, valid a → valid b → higher' (convert a) (convert b) = higher a b)
    (convert_join : ∀ a b, convert (join a b) = join' (convert a) (convert b))
    {new : β} {stack : List β} (new_valid : valid new) (stack_valid : ∀ chunk ∈ stack, valid chunk) :
    (absorb higher join new stack).map convert =
      absorb higher' join' (convert new) (stack.map convert) := by
  induction stack generalizing new with
  | nil => rfl
  | cons last stack ih =>
    have last_valid := stack_valid last mem_cons_self
    rw [absorb, map_cons, absorb, convert_higher new last new_valid last_valid]
    split
    · rw [← convert_join]
      exact ih (valid_join new last new_valid last_valid)
        fun chunk mem => stack_valid chunk (mem_cons_of_mem last mem)
    · rfl

theorem forall_mem_absorb {β : Type*} {higher : β → β → Bool} {join : β → β → β} {valid : β → Prop}
    (valid_join : ∀ a b, valid a → valid b → valid (join a b))
    {new : β} {stack : List β} (new_valid : valid new) (stack_valid : ∀ chunk ∈ stack, valid chunk) :
    ∀ chunk ∈ absorb higher join new stack, valid chunk := by
  induction stack generalizing new with
  | nil => simpa [absorb] using new_valid
  | cons last stack ih =>
    obtain ⟨last_valid, rest_valid⟩ := forall_mem_cons.mp stack_valid
    rw [absorb]
    split
    · exact ih (valid_join new last new_valid last_valid) rest_valid
    · exact forall_mem_cons.mpr ⟨new_valid, stack_valid⟩

def absorbItems (weigh : α → Step K) : List α → List (List α) → List (List α) :=
  absorb (fun new last => decide ((total weigh last).slope < (total weigh new).slope))
    fun new last => last ++ new

def chunks (weigh : α → Step K) (items : List α) : List (List α) :=
  (items.foldl (fun stack item => absorbItems weigh [item] stack) []).reverse

variable {new : List α} {stack : List (List α)}

omit [IsStrictOrderedRing K] in
theorem flatten_absorbItems (weigh : α → Step K) (new : List α) (stack : List (List α)) :
    (absorbItems weigh new stack).reverse.flatten = stack.reverse.flatten ++ new := by
  induction stack generalizing new with
  | nil => simp [absorbItems, absorb]
  | cons last stack ih =>
    rw [absorbItems, absorb]
    split
    · refine (ih (last ++ new)).trans ?_
      simp
    · simp

/-- A stack of rising chunks, each at most as steep as the one below it. -/
structure Stacked (weigh : α → Step K) (stack : List (List α)) : Prop where
  rising : ∀ chunk ∈ stack, Rising weigh chunk
  wide : ∀ chunk ∈ stack, Wide weigh chunk
  sorted : stack.Pairwise fun later init => (total weigh later).slope ≤ (total weigh init).slope

namespace Stacked

variable {last : List α}

section

omit [IsStrictOrderedRing K]

theorem nil (weigh : α → Step K) : Stacked weigh [] :=
  ⟨forall_mem_nil _, forall_mem_nil _, List.Pairwise.nil⟩

theorem tail (stacked : Stacked weigh (last :: stack)) : Stacked weigh stack :=
  ⟨(forall_mem_cons.mp stacked.rising).2, (forall_mem_cons.mp stacked.wide).2,
    (pairwise_cons.mp stacked.sorted).2⟩

theorem cons (stacked : Stacked weigh stack) (rising : Rising weigh new) (wide : Wide weigh new)
    (flatter : ∀ chunk ∈ stack, (total weigh new).slope ≤ (total weigh chunk).slope) :
    Stacked weigh (new :: stack) :=
  ⟨forall_mem_cons.mpr ⟨rising, stacked.rising⟩, forall_mem_cons.mpr ⟨wide, stacked.wide⟩,
    pairwise_cons.mpr ⟨flatter, stacked.sorted⟩⟩

/-- What is at most as steep as the top of a stack is so of all of it. -/
theorem le_slope (stacked : Stacked weigh (last :: stack)) {slope : K}
    (flatter : slope ≤ (total weigh last).slope) :
    ∀ chunk ∈ last :: stack, slope ≤ (total weigh chunk).slope :=
  forall_mem_cons.mpr ⟨flatter, fun chunk mem =>
    flatter.trans ((pairwise_cons.mp stacked.sorted).1 chunk mem)⟩

theorem isChunking (stacked : Stacked weigh stack) : IsChunking weigh stack.reverse := by
  refine ⟨fun chunk mem => stacked.rising chunk (mem_reverse.mp mem), ?_⟩
  rw [Concave, pairwise_map, pairwise_reverse]
  exact stacked.sorted

end

theorem absorbed (stacked : Stacked weigh stack) (rising : Rising weigh new)
    (wide : Wide weigh new) : Stacked weigh (absorbItems weigh new stack) := by
  induction stack generalizing new with
  | nil => exact (nil weigh).cons rising wide (forall_mem_nil _)
  | cons last stack ih =>
    have last_wide := stacked.wide last mem_cons_self
    rw [absorbItems, absorb]
    split
    case isTrue higher =>
      exact ih stacked.tail ((stacked.rising last mem_cons_self).append rising
        (last_wide.append wide) (of_decide_eq_true higher)) (last_wide.append wide)
    case isFalse notHigher =>
      exact stacked.cons rising wide
        (stacked.le_slope (not_lt.mp fun higher => notHigher (decide_eq_true higher)))

end Stacked

theorem stacked_foldl (items : List α) (wide : Wide weigh items) (stacked : Stacked weigh stack) :
    Stacked weigh (items.foldl (fun stack item => absorbItems weigh [item] stack) stack) ∧
      (items.foldl (fun stack item => absorbItems weigh [item] stack) stack).reverse.flatten =
        stack.reverse.flatten ++ items := by
  induction items generalizing stack with
  | nil => exact ⟨stacked, (append_nil _).symm⟩
  | cons item items ih =>
    obtain ⟨pos, wide⟩ := forall_mem_cons.mp wide
    have next := ih wide (stacked.absorbed (rising_singleton weigh item) (Wide.singleton pos))
    rwa [flatten_absorbItems, append_assoc, singleton_append] at next

/-- The stack finds the chunks. -/
theorem isChunking_chunks {items : List α} (wide : Wide weigh items) :
    IsChunking weigh (chunks weigh items) ∧ (chunks weigh items).flatten = items := by
  obtain ⟨stacked, flat⟩ := stacked_foldl items wide (Stacked.nil weigh)
  exact ⟨stacked.isChunking, flat⟩

end StepDiagram
