import BitcoinCore.ClusterLinearize.Chunking

/-!
# A pass over groups of transactions

One pass of the post-linearization on lists: the groups found so far stand on a stack,
the last of them on top. Every transaction joins as a group of its own, and as long as the
group before it has a lower feerate, it is merged with that group if it depends on it, and
moved before it otherwise (`settle`).

A pass is described by the feerates and dependencies it goes by (`PassView`), so the same
results hold for a pass from front to back and for one from back to front. The groups it
ends with are the chunks of its result (`isChunking_pass`), the result reaches at least as
far as the input along every slope (`reach_pass`), and if the transactions that depend on
one form a chain, no part of a group that has its own dependencies in the group has a
higher feerate than the group (`tight_pass`).
-/

namespace BitcoinCore.ClusterLinearize

open StepDiagram List FeeFrac Step

/-- What a pass goes by: a feerate and the dependencies of every transaction. -/
structure PassView where
  rate : ℕ → FeeFrac
  deps : ℕ → Finset ℕ

namespace PassView

variable (view : PassView)

def step (i : ℕ) : Step ℝ := (view.rate i).step

def groupRate (group : List ℕ) : FeeFrac := (group.map view.rate).sum

def dependsOn (group pre : List ℕ) : Bool :=
  group.any fun i => pre.any fun j => j ∈ view.deps i

/-- Move a group to its place on the stack of groups, merging it with what it depends on. -/
def settle : List ℕ → List (List ℕ) → List (List ℕ)
  | group, [] => [group]
  | group, pre :: stack =>
    if (view.groupRate group).higher (view.groupRate pre) then
      if view.dependsOn group pre then settle (pre ++ group) stack
      else pre :: settle group stack
    else group :: pre :: stack

def pass (lin : List ℕ) : List (List ℕ) :=
  (lin.foldl (fun stack i => view.settle [i] stack) []).reverse

end PassView

variable {view : PassView} {group pre : List ℕ} {stack res : List (List ℕ)}

theorem step_groupRate (group : List ℕ) : (view.groupRate group).step = total view.step group := by
  rw [PassView.groupRate, step_sum, map_map]
  rfl

theorem dependsOn_eq_true_iff :
    view.dependsOn group pre ↔ ∃ i ∈ group, ∃ j ∈ pre, j ∈ view.deps i := by
  simp [PassView.dependsOn]

theorem perm_settle (view : PassView) (group : List ℕ) (stack : List (List ℕ)) :
    (view.settle group stack).flatten.Perm (group ++ stack.flatten) := by
  induction stack generalizing group with
  | nil => rfl
  | cons pre stack ih =>
    have moved : (pre ++ (group ++ stack.flatten)).Perm (group ++ (pre ++ stack.flatten)) := by
      rw [← append_assoc, ← append_assoc]
      exact perm_append_comm.append_right _
    rw [PassView.settle, flatten_cons]
    split
    · split
      · refine (ih (pre ++ group)).trans ?_
        rwa [append_assoc]
      · rw [flatten_cons]
        exact ((ih group).append_left pre).trans moved
    · rfl

theorem length_settle_le (view : PassView) (group : List ℕ) (stack : List (List ℕ)) :
    (view.settle group stack).length ≤ stack.length + 1 := by
  induction stack generalizing group with
  | nil => rfl
  | cons pre stack ih =>
    rw [PassView.settle, length_cons]
    split
    · split
      · exact (ih (pre ++ group)).trans (Nat.le_succ _)
      · rw [length_cons]
        exact Nat.succ_le_succ (ih group)
    · rfl

/-- How a group settles on a stack: at once, or after merging with the group before it, or
after moving before it. -/
inductive Settles (view : PassView) : List ℕ → List (List ℕ) → List (List ℕ) → Prop
  | first (group : List ℕ) : Settles view group [] [group]
  | stay {group pre : List ℕ} {stack : List (List ℕ)}
      (flatter : (total view.step group).slope ≤ (total view.step pre).slope) :
      Settles view group (pre :: stack) (group :: pre :: stack)
  | merge {group pre : List ℕ} {stack res : List (List ℕ)}
      (steeper : (total view.step pre).slope < (total view.step group).slope)
      (depends : ∃ i ∈ group, ∃ j ∈ pre, j ∈ view.deps i)
      (settles : Settles view (pre ++ group) stack res) :
      Settles view group (pre :: stack) res
  | move {group pre : List ℕ} {stack res : List (List ℕ)}
      (steeper : (total view.step pre).slope < (total view.step group).slope)
      (indep : ∀ i ∈ group, ∀ j ∈ pre, j ∉ view.deps i)
      (settles : Settles view group stack res) :
      Settles view group (pre :: stack) (pre :: res)

/-- Groups of transactions of positive size, none of them empty. -/
def Sound (view : PassView) (stack : List (List ℕ)) : Prop :=
  ∀ group ∈ stack, group ≠ [] ∧ Wide view.step group

namespace Sound

theorem width_pos (sound : Sound view stack) (mem : group ∈ stack) :
    0 < (total view.step group).width := (sound group mem).2.total_pos (sound group mem).1

theorem size_pos (sound : Sound view stack) (mem : group ∈ stack) :
    0 < (view.groupRate group).size := by
  have pos := sound.width_pos mem
  rwa [← step_groupRate, step_width, Int.cast_pos] at pos

variable (sound : Sound view (group :: pre :: stack))
include sound

theorem first_pos : 0 < (total view.step group).width := sound.width_pos mem_cons_self

theorem second_pos : 0 < (total view.step pre).width :=
  sound.width_pos (mem_cons_of_mem _ mem_cons_self)

theorem merged : Sound view ((pre ++ group) :: stack) := by
  obtain ⟨⟨-, group_wide⟩, sound⟩ := forall_mem_cons.mp sound
  obtain ⟨⟨before_ne, before_wide⟩, sound⟩ := forall_mem_cons.mp sound
  exact forall_mem_cons.mpr
    ⟨⟨append_ne_nil_of_left_ne_nil before_ne _, before_wide.append group_wide⟩, sound⟩

theorem moved : Sound view (group :: stack) := by
  obtain ⟨group_sound, sound⟩ := forall_mem_cons.mp sound
  exact forall_mem_cons.mpr ⟨group_sound, (forall_mem_cons.mp sound).2⟩

end Sound

theorem settles_settle (sound : Sound view (group :: stack)) :
    Settles view group stack (view.settle group stack) := by
  induction stack generalizing group with
  | nil => exact Settles.first group
  | cons pre stack ih =>
    have higher := higher_iff (sound.size_pos mem_cons_self)
      (sound.size_pos (mem_cons_of_mem _ mem_cons_self))
    rw [rate, rate, step_groupRate, step_groupRate] at higher
    rw [PassView.settle]
    split
    case isTrue steeper =>
      split
      case isTrue depends =>
        exact Settles.merge (higher.mp steeper) (dependsOn_eq_true_iff.mp depends) (ih sound.merged)
      case isFalse indep =>
        refine Settles.move (higher.mp steeper) (fun i i_mem j j_mem dep => indep ?_)
          (ih sound.moved)
        exact dependsOn_eq_true_iff.mpr ⟨i, i_mem, j, j_mem, dep⟩
    case isFalse notSteeper =>
      exact Settles.stay (not_lt.mp fun steeper => notSteeper (higher.mpr steeper))

/-! ## What settling keeps -/

namespace Settles

variable (settles : Settles view group stack res)
include settles

theorem forall_mem (valid : List ℕ → Prop) (merges : ∀ group pre, valid group → valid pre →
      (total view.step pre).slope < (total view.step group).slope →
      (∃ i ∈ group, ∃ j ∈ pre, j ∈ view.deps i) → valid (pre ++ group))
    (group_valid : valid group) (stack_valid : ∀ other ∈ stack, valid other) :
    ∀ other ∈ res, valid other := by
  induction settles with
  | first group => simpa using group_valid
  | stay _ => exact forall_mem_cons.mpr ⟨group_valid, stack_valid⟩
  | merge steeper depends _ ih =>
    obtain ⟨before_valid, rest_valid⟩ := forall_mem_cons.mp stack_valid
    exact ih (merges _ _ group_valid before_valid steeper depends) rest_valid
  | move _ _ _ ih =>
    obtain ⟨before_valid, rest_valid⟩ := forall_mem_cons.mp stack_valid
    exact forall_mem_cons.mpr ⟨before_valid, ih group_valid rest_valid⟩

theorem ordered (after : List ℕ) (ordered : (stack.reverse.flatten ++ group ++ after).Pairwise
      fun init later => later ∉ view.deps init) :
    (res.reverse.flatten ++ after).Pairwise fun init later => later ∉ view.deps init := by
  induction settles generalizing after with
  | first group => simpa using ordered
  | stay _ => simpa using ordered
  | merge _ _ _ ih =>
    refine ih after ?_
    simpa using ordered
  | @move group pre stack res _ indep _ ih =>
    rw [reverse_cons, flatten_append, append_assoc]
    refine ih _ ?_
    rw [reverse_cons, flatten_append] at ordered
    simp only [flatten_singleton, pairwise_append, mem_append] at ordered ⊢
    obtain ⟨⟨⟨rest_ok, before_ok, rest_before⟩, group_ok, rest_group⟩, after_ok, all_after⟩ := ordered
    refine ⟨⟨rest_ok, group_ok, fun i i_mem j j_mem => rest_group i (.inl i_mem) j j_mem⟩,
      ⟨before_ok, after_ok, fun i i_mem j j_mem => all_after i (.inl (.inr i_mem)) j j_mem⟩, ?_⟩
    rintro i (in_rest | in_group) j (in_before | in_after)
    · exact rest_before i in_rest j in_before
    · exact all_after i (.inl (.inl in_rest)) j in_after
    · exact indep i in_group j in_before
    · exact all_after i (.inr in_group) j in_after

/-- Along every slope the groups reach at least as far as before. -/
theorem reach_le (slope : ℝ) (after : List (Step ℝ)) (sound : Sound view (group :: stack)) :
    reach slope ((stack.reverse.map (total view.step)) ++ total view.step group :: after) ≤
      reach slope (res.reverse.map (total view.step) ++ after) := by
  induction settles generalizing after with
  | first group => simp
  | stay _ => simp
  | merge steeper _ _ ih =>
    have merged := ih after sound.merged
    rw [total_append, ← reach_join sound.second_pos sound.first_pos steeper.le] at merged
    simpa using merged
  | @move group pre stack res steeper _ _ ih =>
    have swapped : reach slope (stack.reverse.map (total view.step) ++
        total view.step pre :: total view.step group :: after) ≤ _ :=
      reach_swap sound.second_pos sound.first_pos steeper.le
    have moved := swapped.trans (ih (total view.step pre :: after) sound.moved)
    simpa using moved

/-- The groups stay in the order of their feerates, and no lower than they and the new one
have been. -/
theorem stacked (stacked : Stacked view.step stack) (rising : Rising view.step group)
    (wide : Wide view.step group) : Stacked view.step res ∧
      ∀ bound, bound ≤ (total view.step group).slope →
        (∀ other ∈ stack, bound ≤ (total view.step other).slope) →
        ∀ other ∈ res, bound ≤ (total view.step other).slope := by
  induction settles with
  | first group =>
    exact ⟨stacked.cons rising wide (forall_mem_nil _), fun bound le _ => forall_mem_singleton.mpr le⟩
  | stay flatter =>
    exact ⟨stacked.cons rising wide (stacked.le_slope flatter), fun bound le all =>
      forall_mem_cons.mpr ⟨le, all⟩⟩
  | merge steeper _ _ ih =>
    obtain ⟨before_rising, -⟩ := forall_mem_cons.mp stacked.rising
    obtain ⟨before_wide, -⟩ := forall_mem_cons.mp stacked.wide
    have both_wide := before_wide.append wide
    obtain ⟨kept, above⟩ := ih stacked.tail (before_rising.append rising both_wide steeper) both_wide
    refine ⟨kept, fun bound _ all => ?_⟩
    obtain ⟨before_ge, stack_ge⟩ := forall_mem_cons.mp all
    refine above bound ?_ stack_ge
    rw [total_append]
    exact before_ge.trans ((slope_add_lt_iff (before_wide.total_pos before_rising.nonempty)
      (wide.total_pos rising.nonempty)).mpr steeper).le
  | move steeper _ _ ih =>
    obtain ⟨kept, above⟩ := ih stacked.tail rising wide
    refine ⟨kept.cons (stacked.rising _ mem_cons_self) (stacked.wide _ mem_cons_self)
      (above _ steeper.le (pairwise_cons.mp stacked.sorted).1), fun bound le all => ?_⟩
    obtain ⟨before_ge, stack_ge⟩ := forall_mem_cons.mp all
    exact forall_mem_cons.mpr ⟨before_ge, above bound le stack_ge⟩

end Settles

/-! ## The whole pass -/

section

variable {lin : List ℕ}

theorem sound_of_stacked (stacked : Stacked view.step stack) {i : ℕ}
    (pos : 0 < (view.step i).width) : Sound view ([i] :: stack) :=
  forall_mem_cons.mpr ⟨⟨cons_ne_nil i [], Wide.singleton pos⟩, fun group mem =>
    ⟨(stacked.rising group mem).nonempty, stacked.wide group mem⟩⟩

theorem stacked_settle (stacked : Stacked view.step stack) {i : ℕ} (pos : 0 < (view.step i).width) :
    Stacked view.step (view.settle [i] stack) :=
  ((settles_settle (sound_of_stacked stacked pos)).stacked stacked (rising_singleton view.step i)
    (Wide.singleton pos)).1

def settleAll (view : PassView) (stack : List (List ℕ)) (lin : List ℕ) : List (List ℕ) :=
  lin.foldl (fun stack i => view.settle [i] stack) stack

theorem stacked_settleAll (stacked : Stacked view.step stack) (wide : Wide view.step lin) :
    Stacked view.step (settleAll view stack lin) := by
  induction lin generalizing stack with
  | nil => exact stacked
  | cons i lin ih =>
    obtain ⟨pos, wide⟩ := forall_mem_cons.mp wide
    exact ih (stacked_settle stacked pos) wide

theorem stacked_pass (wide : Wide view.step lin) : Stacked view.step (settleAll view [] lin) :=
  stacked_settleAll (Stacked.nil _) wide

/-- A pass ends with the chunks of its result. -/
theorem isChunking_pass (wide : Wide view.step lin) : IsChunking view.step (view.pass lin) :=
  (stacked_pass wide).isChunking

theorem settleAll_induction {motive : List (List ℕ) → List ℕ → Prop}
    (stacked : Stacked view.step stack) (wide : Wide view.step lin)
    (step : ∀ stack i rest, Stacked view.step stack → 0 < (view.step i).width →
      Settles view [i] stack (view.settle [i] stack) → motive stack (i :: rest) →
      motive (view.settle [i] stack) rest)
    (start : motive stack lin) : motive (settleAll view stack lin) [] := by
  induction lin generalizing stack with
  | nil => exact start
  | cons i lin ih =>
    obtain ⟨pos, wide⟩ := forall_mem_cons.mp wide
    exact ih (stacked_settle stacked pos) wide
      (step stack i lin stacked pos (settles_settle (sound_of_stacked stacked pos)) start)

theorem perm_settleAll (view : PassView) (stack : List (List ℕ)) (lin : List ℕ) :
    (settleAll view stack lin).flatten.Perm (stack.flatten ++ lin) := by
  induction lin generalizing stack with
  | nil => rw [append_nil]; rfl
  | cons i lin ih =>
    refine (ih (view.settle [i] stack)).trans ?_
    exact ((perm_settle view [i] stack).append_right lin).trans perm_middle.symm

theorem perm_pass (view : PassView) (lin : List ℕ) : (view.pass lin).flatten.Perm lin :=
  (reverse_perm _).flatten.trans (perm_settleAll view [] lin)

theorem ordered_pass (wide : Wide view.step lin)
    (ordered : lin.Pairwise fun init later => later ∉ view.deps init) :
    (view.pass lin).flatten.Pairwise fun init later => later ∉ view.deps init := by
  have kept := settleAll_induction
    (motive := fun stack rest => (stack.reverse.flatten ++ rest).Pairwise
      fun init later => later ∉ view.deps init)
    (Stacked.nil _) wide ?_ ordered
  · rwa [append_nil] at kept
  · intro stack i rest _ _ settles ordered
    refine settles.ordered rest ?_
    rwa [append_assoc, singleton_append]

theorem reach_settleAll (stacked : Stacked view.step stack) (wide : Wide view.step lin)
    (slope : ℝ) : reach slope (stack.reverse.map (total view.step) ++ lin.map view.step) ≤
      reach slope ((settleAll view stack lin).reverse.map (total view.step)) := by
  have kept := settleAll_induction
    (motive := fun stack' rest =>
      reach slope (stack.reverse.map (total view.step) ++ lin.map view.step) ≤
        reach slope (stack'.reverse.map (total view.step) ++ rest.map view.step))
    stacked wide ?_ le_rfl
  · rwa [map_nil, append_nil] at kept
  · intro stack i rest stacked pos settles pre
    have next := settles.reach_le slope (rest.map view.step) (sound_of_stacked stacked pos)
    rw [total_singleton] at next
    exact pre.trans next

/-- Groups on the stack reach as far as those that rise. -/
theorem reach_stacked (stacked : Stacked view.step stack) (slope : ℝ) :
    reach slope (stack.reverse.map (total view.step)) =
      (stack.reverse.map fun group => max 0 ((total view.step group).excess slope)).sum := by
  have wide : Wide view.step stack.reverse.flatten := by
    intro i mem
    obtain ⟨group, group_mem, i_mem⟩ := mem_flatten.mp mem
    exact stacked.wide group (mem_reverse.mp group_mem) i i_mem
  rw [stacked.isChunking.concave.reach_eq (stacked.isChunking.advancing wide), map_map]
  rfl

theorem reach_pass_eq (wide : Wide view.step lin) (slope : ℝ) :
    reach slope ((view.pass lin).flatten.map view.step) =
      reach slope ((view.pass lin).map (total view.step)) :=
  reach_flatten (isChunking_pass wide).rising
    (fun group mem => (stacked_pass wide).wide group (mem_reverse.mp mem)) slope

/-- A pass reaches as far as those of its groups that rise. -/
theorem reach_pass_sum (wide : Wide view.step lin) (slope : ℝ) :
    reach slope ((view.pass lin).flatten.map view.step) =
      ((view.pass lin).map fun group => max 0 ((total view.step group).excess slope)).sum :=
  (reach_pass_eq wide slope).trans (reach_stacked (stacked_pass wide) slope)

/-- A pass reaches at least as far as its input along every slope. -/
theorem reach_pass (wide : Wide view.step lin) (slope : ℝ) : reach slope (lin.map view.step) ≤
      reach slope ((view.pass lin).flatten.map view.step) := by
  rw [reach_pass_eq wide]
  exact reach_settleAll (Stacked.nil _) wide slope

theorem forall_mem_pass (valid : List ℕ → Prop) (wide : Wide view.step lin)
    (single : ∀ i ∈ lin, valid [i]) (merges : ∀ group pre, valid group → valid pre →
      (total view.step pre).slope < (total view.step group).slope →
      (∃ i ∈ group, ∃ j ∈ pre, j ∈ view.deps i) → valid (pre ++ group)) :
    ∀ group ∈ view.pass lin, valid group := by
  have kept := settleAll_induction
    (motive := fun stack rest => (∀ group ∈ stack, valid group) ∧ ∀ i ∈ rest, valid [i])
    (Stacked.nil _) wide ?_ ⟨forall_mem_nil _, single⟩
  · exact fun group mem => kept.1 group (mem_reverse.mp mem)
  · rintro stack i rest - - settles ⟨stack_valid, rest_valid⟩
    obtain ⟨i_valid, rest_valid⟩ := forall_mem_cons.mp rest_valid
    exact ⟨settles.forall_mem valid merges i_valid stack_valid, rest_valid⟩

end

/-! ## Passes over trees -/

/-- A group of which no part that has its own dependencies in the group has a higher feerate. -/
def Tight (view : PassView) (group : List ℕ) : Prop :=
  ∀ part : Finset ℕ, (∀ i ∈ group, i ∈ part → ∀ j ∈ group, j ∈ view.deps i → j ∈ part) →
    (total view.step (group.filter (· ∈ part))).excess (total view.step group).slope ≤ 0

/-- Dependencies in which what depends on one transaction forms a chain. -/
structure ChainDeps (view : PassView) (domain : Finset ℕ) : Prop where
  refl : ∀ i ∈ domain, i ∈ view.deps i
  trans : ∀ i ∈ domain, ∀ j ∈ view.deps i, view.deps j ⊆ view.deps i
  chain : ∀ i ∈ domain, ∀ j ∈ domain, ∀ k, k ∈ view.deps i → k ∈ view.deps j →
    i ∈ view.deps j ∨ j ∈ view.deps i

section

variable {domain : Finset ℕ}

theorem excess_anti {slope slope' : ℝ} (wide : Wide view.step group) (le : slope ≤ slope') :
    (total view.step group).excess slope' ≤ (total view.step group).excess slope := by
  rcases eq_or_ne group [] with rfl | ne
  · simp
  · have scaled := mul_le_mul_of_nonneg_right le (wide.total_pos ne).le
    rw [excess, excess]
    linarith

variable {last : ℕ}

/-- A group made of tight pieces that are flatter than it, and of one more transaction that
depends on all of it, is tight. -/
theorem tight_of_pieces {pieces : List (List ℕ)} (whole : group = pieces.flatten ++ [last])
    (wide : Wide view.step group) (pieces_tight : ∀ piece ∈ pieces, Tight view piece)
    (flatter : ∀ piece ∈ pieces, (total view.step piece).slope ≤ (total view.step group).slope)
    (rooted : ∀ i ∈ group, i ∈ view.deps last) : Tight view group := by
  intro part closed
  have last_mem : last ∈ group := by simp [whole]
  by_cases last_part : last ∈ part
  · have all : group.filter (· ∈ part) = group := by
      refine filter_eq_self.mpr fun i mem => decide_eq_true ?_
      exact closed last last_mem last_part i mem (rooted i mem)
    rw [all, excess_slope (wide.total_pos (ne_nil_of_mem last_mem))]
  · have parts : ∀ rest : List (List ℕ), rest ⊆ pieces →
        (total view.step (rest.flatten.filter (· ∈ part))).excess (total view.step group).slope ≤ 0 := by
      intro rest subset
      induction rest with
      | nil => simp
      | cons piece rest ih =>
        obtain ⟨piece_mem, rest_subset⟩ := cons_subset.mp subset
        have in_group : ∀ i ∈ piece, i ∈ group := by
          intro i mem
          rw [whole]
          exact mem_append_left _ (mem_flatten_of_mem piece_mem mem)
        have piece_wide : Wide view.step (piece.filter (· ∈ part)) :=
          fun i mem => wide i (in_group i (mem_of_mem_filter mem))
        have piece_le := pieces_tight piece piece_mem part fun i mem i_part j j_mem =>
          closed i (in_group i mem) i_part j (in_group j j_mem)
        have flatter_le := excess_anti piece_wide (flatter piece piece_mem)
        rw [flatten_cons, filter_append, total_append, excess_add]
        linarith [ih rest_subset]
    have without : group.filter (· ∈ part) = pieces.flatten.filter (· ∈ part) := by
      rw [whole, filter_append]
      simp [last_part]
    rw [without]
    exact parts pieces (List.Subset.refl _)

/-- A tight group with a transaction that depends on all of it. -/
structure Rooted (view : PassView) (domain : Finset ℕ) (group : List ℕ) : Prop where
  tight : Tight view group
  wide : Wide view.step group
  subset : ∀ i ∈ group, i ∈ domain
  root : ∃ last ∈ group, ∀ i ∈ group, i ∈ view.deps last

/-- What a group on its way to its place is made of: tight groups that it was merged with, each
flatter than it and than all groups still before it, and the transaction it began with. -/
structure Growing (view : PassView) (domain : Finset ℕ) (last : ℕ) (group : List ℕ)
    (stack : List (List ℕ)) : Prop where
  wide : Wide view.step group
  subset : ∀ i ∈ group, i ∈ domain
  rooted : ∀ i ∈ group, i ∈ view.deps last
  pieces : ∃ pieces : List (List ℕ), group = pieces.flatten ++ [last] ∧
    ∀ piece ∈ pieces, Tight view piece ∧
      (total view.step piece).slope ≤ (total view.step group).slope ∧
      ∀ pre ∈ stack, (total view.step piece).slope ≤ (total view.step pre).slope

theorem Growing.done (growing : Growing view domain last group stack) :
    Rooted view domain group := by
  obtain ⟨pieces, whole, each⟩ := growing.pieces
  refine ⟨?_, growing.wide, growing.subset, last, by simp [whole], growing.rooted⟩
  exact tight_of_pieces whole growing.wide (fun piece mem => (each piece mem).1)
    (fun piece mem => (each piece mem).2.1) growing.rooted

/-- Merging with the flattest group first keeps every group tight. -/
theorem Settles.rooted (settles : Settles view group stack res)
    (chain : ChainDeps view domain) (growing : Growing view domain last group stack)
    (stacked : ∀ pre ∈ stack, Rooted view domain pre) (sorted : stack.Pairwise fun later init =>
      (total view.step later).slope ≤ (total view.step init).slope)
    (later : ∀ pre ∈ stack, ∀ i ∈ pre, last ∉ view.deps i) :
    ∀ other ∈ res, Rooted view domain other := by
  induction settles with
  | first group => simpa using growing.done
  | stay _ => exact forall_mem_cons.mpr ⟨growing.done, stacked⟩
  | @merge group pre stack res steeper depends _ ih =>
    obtain ⟨before_rooted, stacked⟩ := forall_mem_cons.mp stacked
    obtain ⟨first, sorted⟩ := pairwise_cons.mp sorted
    obtain ⟨before_later, later⟩ := forall_mem_cons.mp later
    refine ih ?_ stacked sorted later
    obtain ⟨pieces, whole, each⟩ := growing.pieces
    obtain ⟨root, root_mem, root_deps⟩ := before_rooted.root
    obtain ⟨i, i_mem, j, j_mem, dep⟩ := depends
    have last_mem : last ∈ group := by simp [whole]
    have last_domain := growing.subset last last_mem
    have j_last : j ∈ view.deps last :=
      chain.trans last last_domain i (growing.rooted i i_mem) dep
    -- both ends depend on `j`, and the earlier one does not depend on the later one
    have root_last : root ∈ view.deps last := by
      rcases chain.chain last last_domain root (before_rooted.subset root root_mem) j j_last
        (root_deps j j_mem) with backward | forward
      · exact absurd backward (before_later root root_mem)
      · exact forward
    have group_ne : group ≠ [] := ne_nil_of_mem last_mem
    have before_ne : pre ≠ [] := ne_nil_of_mem root_mem
    have before_flatter : (total view.step pre).slope <
        (total view.step (pre ++ group)).slope := by
      rw [total_append]
      exact (slope_add_lt_iff (before_rooted.wide.total_pos before_ne)
        (growing.wide.total_pos group_ne)).mpr steeper
    refine ⟨before_rooted.wide.append growing.wide, ?_, ?_, pre :: pieces, ?_, ?_⟩
    · intro k mem
      rcases mem_append.mp mem with in_before | in_group
      · exact before_rooted.subset k in_before
      · exact growing.subset k in_group
    · intro k mem
      rcases mem_append.mp mem with in_before | in_group
      · exact chain.trans last last_domain root root_last (root_deps k in_before)
      · exact growing.rooted k in_group
    · rw [flatten_cons, whole, append_assoc]
    · refine forall_mem_cons.mpr
        ⟨⟨before_rooted.tight, before_flatter.le, first⟩, fun piece mem => ?_⟩
      obtain ⟨piece_tight, -, piece_flatter⟩ := each piece mem
      obtain ⟨before_ge, rest_ge⟩ := forall_mem_cons.mp piece_flatter
      exact ⟨piece_tight, before_ge.trans before_flatter.le, rest_ge⟩
  | @move group pre stack res steeper _ _ ih =>
    obtain ⟨before_rooted, stacked⟩ := forall_mem_cons.mp stacked
    obtain ⟨first, sorted⟩ := pairwise_cons.mp sorted
    obtain ⟨-, later⟩ := forall_mem_cons.mp later
    refine forall_mem_cons.mpr ⟨before_rooted, ih ?_ stacked sorted later⟩
    obtain ⟨pieces, whole, each⟩ := growing.pieces
    refine ⟨growing.wide, growing.subset, growing.rooted, pieces, whole, fun piece mem => ?_⟩
    obtain ⟨piece_tight, piece_le, piece_flatter⟩ := each piece mem
    exact ⟨piece_tight, piece_le, (forall_mem_cons.mp piece_flatter).2⟩

/-- Over a tree, the groups of a pass are tight. -/
theorem tight_pass {lin : List ℕ} (wide : Wide view.step lin)
    (chain : ChainDeps view domain) (subset : ∀ i ∈ lin, i ∈ domain)
    (ordered : lin.Pairwise fun init later => later ∉ view.deps init) :
    ∀ group ∈ view.pass lin, Tight view group := by
  have kept := settleAll_induction
    (motive := fun stack rest => (∀ group ∈ stack, Rooted view domain group) ∧
      (∀ i ∈ rest, i ∈ domain) ∧ (stack.reverse.flatten ++ rest).Pairwise
        fun init later => later ∉ view.deps init)
    (Stacked.nil _) wide ?_ ⟨forall_mem_nil _, subset, ordered⟩
  · exact fun group mem => (kept.1 group (mem_reverse.mp mem)).tight
  · rintro stack i rest stacked pos settles ⟨rooted, rest_subset, ordered⟩
    obtain ⟨i_domain, rest_subset⟩ := forall_mem_cons.mp rest_subset
    refine ⟨?_, rest_subset, settles.ordered rest (by rwa [append_assoc])⟩
    have growing : Growing view domain i [i] stack := by
      refine ⟨Wide.singleton pos, ?_, ?_, [], rfl, forall_mem_nil _⟩
      · simpa using i_domain
      · simpa using chain.refl i i_domain
    refine settles.rooted chain growing rooted stacked.sorted fun pre before_mem j j_mem => ?_
    refine (pairwise_append.mp ordered).2.2 j ?_ i mem_cons_self
    exact mem_flatten_of_mem (mem_reverse.mpr before_mem) j_mem

end

/-! ## A transaction that nothing depends on for a while -/

variable {alone : ℕ}

/-- A transaction that the others do not depend on stays a group of its own. -/
theorem Settles.keeps_alone (settles : Settles view group stack res)
    (free : ∀ i ∈ group, alone ∉ view.deps i)
    (stack_free : ∀ other ∈ stack, other = [alone] ∨ ∀ i ∈ other, alone ∉ view.deps i) :
    ([alone] ∈ stack → [alone] ∈ res) ∧
      ∀ other ∈ res, other = [alone] ∨ ∀ i ∈ other, alone ∉ view.deps i := by
  induction settles with
  | first group => exact ⟨fun mem => absurd mem not_mem_nil, by simpa using Or.inr free⟩
  | stay _ =>
    exact ⟨mem_cons_of_mem _, forall_mem_cons.mpr ⟨Or.inr free, stack_free⟩⟩
  | @merge group pre stack res _ depends _ ih =>
    obtain ⟨before_free, stack_free⟩ := forall_mem_cons.mp stack_free
    obtain ⟨i, i_mem, j, j_mem, dep⟩ := depends
    have other : pre ≠ [alone] := by
      rintro rfl
      rw [mem_singleton.mp j_mem] at dep
      exact free i i_mem dep
    have merged : ∀ k ∈ pre ++ group, alone ∉ view.deps k := by
      intro k mem
      rcases mem_append.mp mem with in_before | in_group
      · exact before_free.resolve_left other k in_before
      · exact free k in_group
    obtain ⟨kept, result_free⟩ := ih merged stack_free
    refine ⟨fun mem => kept ?_, result_free⟩
    exact (mem_cons.mp mem).resolve_left other.symm
  | move _ _ _ ih =>
    obtain ⟨before_free, stack_free⟩ := forall_mem_cons.mp stack_free
    obtain ⟨kept, result_free⟩ := ih free stack_free
    refine ⟨fun mem => ?_, forall_mem_cons.mpr ⟨before_free, result_free⟩⟩
    rcases mem_cons.mp mem with here | below
    · exact mem_cons.mpr (Or.inl here)
    · exact mem_cons_of_mem _ (kept below)

theorem le_reach_of_mem (stacked : Stacked view.step stack) (mem : group ∈ stack) (slope : ℝ) :
    (total view.step stack.flatten).excess slope - (total view.step group).excess slope ≤
      reach slope (stack.reverse.map (total view.step)) := by
  rw [reach_stacked stacked, map_reverse, sum_reverse]
  have gains : ∀ groups : List (List ℕ), (total view.step groups.flatten).excess slope ≤
      (groups.map fun group => max 0 ((total view.step group).excess slope)).sum := by
    intro groups
    induction groups with
    | nil => simp
    | cons group groups ih =>
      rw [flatten_cons, total_append, excess_add, map_cons, sum_cons]
      exact add_le_add (le_max_right _ _) ih
  obtain ⟨front, back, rfl⟩ := append_of_mem mem
  have front_gain := gains front
  have back_gain := gains back
  have nonneg := le_max_left 0 ((total view.step group).excess slope)
  simp only [flatten_append, flatten_cons, total_append, excess_add, map_append,
    map_cons, sum_append, sum_cons]
  linarith

/-- A first transaction does not stand in the way of those that do not depend on it. -/
theorem reach_pass_without_first {front back : List ℕ}
    (wide : Wide view.step (alone :: (front ++ back)))
    (free : ∀ i ∈ front, alone ∉ view.deps i) (slope : ℝ) : (total view.step front).excess slope ≤
      reach slope ((view.pass (alone :: (front ++ back))).flatten.map view.step) := by
  obtain ⟨pos, rest_wide⟩ := forall_mem_cons.mp wide
  have front_wide : Wide view.step front := Wide.append_left rest_wide
  have first : Stacked view.step [[alone]] := stacked_settle (Stacked.nil _) pos
  have stacked := stacked_settleAll first front_wide
  have kept := settleAll_induction
    (motive := fun stack rest => ([alone] ∈ stack ∧
      ∀ other ∈ stack, other = [alone] ∨ ∀ i ∈ other, alone ∉ view.deps i) ∧
      ∀ i ∈ rest, alone ∉ view.deps i)
    first front_wide ?_ ⟨⟨mem_singleton_self _, by simp⟩, free⟩
  · obtain ⟨⟨mem, -⟩, -⟩ := kept
    have perm := perm_settleAll view [[alone]] front
    have without := le_reach_of_mem stacked mem slope
    have same : total view.step (settleAll view [[alone]] front).flatten =
        total view.step (alone :: front) := (perm.map view.step).sum_eq
    rw [same, total_cons, excess_add, total_singleton, add_sub_cancel_left] at without
    have later := reach_settleAll stacked (Wide.append_right rest_wide) slope
    rw [reach_pass_eq wide]
    refine without.trans ((reach_le_reach_append slope _ _).trans (later.trans (le_of_eq ?_)))
    rw [PassView.pass, foldl_cons, foldl_append]
    rfl
  · rintro stack i rest - - settles ⟨⟨mem, stack_free⟩, rest_free⟩
    obtain ⟨i_free, rest_free⟩ := forall_mem_cons.mp rest_free
    obtain ⟨keeps, result_free⟩ := settles.keeps_alone (by simpa using i_free) stack_free
    exact ⟨⟨keeps mem, result_free⟩, rest_free⟩

end BitcoinCore.ClusterLinearize
