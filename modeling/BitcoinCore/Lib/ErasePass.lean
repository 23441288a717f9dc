import Mathlib

/-!
# Passes that sort a list and erase from its end

A pass sorts a list with a comparison and erases, among its last elements, those of a
condition. The order of elements that the comparison does not tell apart is left open: a
`Sorter` is any function that returns a sorted permutation.

An element that is better than all but a few others is among the last ones, so a pass
without a condition erases it (`notMem_eraseLastK`); this stays so if other passes have
erased some elements before, since it needs only an upper bound (`BetterThanAllBut.mono`).
-/

namespace ErasePass

open List Sublist

/-- A comparison that `std::sort` may be given. -/
structure StrictWeak {α : Type*} (less : α → α → Bool) : Prop where
  asymm : ∀ a b, less a b → less b a = false
  trans : ∀ a b c, less b a = false → less c b = false → less c a = false

/-- Elements that are compared by a key. -/
theorem StrictWeak.of_key {α κ : Type*} [LinearOrder κ] {less : α → α → Bool} (key : α → κ)
    (byKey : ∀ a b, less a b ↔ key a < key b) : StrictWeak less where
  asymm a b ab := by
    rw [Bool.eq_false_iff, ne_eq, byKey]
    exact ((byKey a b).mp ab).not_gt
  trans a b c ab bc := by
    simp only [Bool.eq_false_iff, ne_eq, byKey, not_lt] at ab bc ⊢
    exact ab.trans bc

/-- A function that sorts lists, with equivalent elements in any order. -/
structure Sorter (α : Type*) where
  sort : (α → α → Bool) → List α → List α
  perm : ∀ less elems, (sort less elems).Perm elems
  sorted : ∀ less elems, StrictWeak less → (sort less elems).Pairwise fun a b => less b a = false

/-- Sorting by insertion. -/
def Sorter.ofInsertion (α : Type*) : Sorter α where
  sort less elems := elems.insertionSort fun a b => less b a = false
  perm less elems := perm_insertionSort _ elems
  sorted less elems weak := by
    have : Std.Total fun a b : α => less b a = false := by
      refine ⟨fun a b => ?_⟩
      cases order : less b a with
      | false => exact Or.inl rfl
      | true => exact Or.inr (weak.asymm b a order)
    have : IsTrans α fun a b => less b a = false := ⟨weak.trans⟩
    exact pairwise_insertionSort _ elems

section

variable {α : Type*} (sorter : Sorter α) (less : α → α → Bool) (k : ℕ) (cond : α → Bool)
  (elems : List α)

/-- Sort the elements, and erase those of the last ones that meet the condition. -/
def eraseLastK : List α :=
  let sorted := sorter.sort less elems
  let eraseSize := min k sorted.length
  sorted.take (sorted.length - eraseSize) ++
    (sorted.drop (sorted.length - eraseSize)).filter fun elem => !cond elem

theorem length_sort : (sorter.sort less elems).length = elems.length :=
  (sorter.perm less elems).length_eq

theorem eraseLastK_subperm : (eraseLastK sorter less k cond elems).Subperm elems := by
  refine Subperm.trans (subperm ?_) (sorter.perm less elems).subperm
  conv_rhs => rw [← take_append_drop
    ((sorter.sort less elems).length - min k (sorter.sort less elems).length)
    (sorter.sort less elems)]
  exact (refl _).append filter_sublist

theorem le_length_eraseLastK : elems.length ≤ (eraseLastK sorter less k cond elems).length + k := by
  have length_eq := length_sort sorter less elems
  simp only [eraseLastK, length_append, length_take]
  omega

theorem eraseLastK_all : eraseLastK sorter less k (fun _ => true) elems =
      (sorter.sort less elems).take (elems.length - k) := by
  have length_eq := length_sort sorter less elems
  rw [eraseLastK, length_eq]
  simp only [Bool.not_true, filter_false, append_nil]
  congr 1
  omega

theorem length_eraseLastK_all :
    (eraseLastK sorter less k (fun _ => true) elems).length = elems.length - k := by
  have length_eq := length_sort sorter less elems
  rw [eraseLastK_all, length_take]
  omega

theorem pairwise_eraseLastK_all (weak : StrictWeak less) :
    (eraseLastK sorter less k (fun _ => true) elems).Pairwise fun a b => less b a = false := by
  rw [eraseLastK_all]
  exact (sorter.sorted less elems weak).sublist (take_sublist _ _)

end

/-! ## Elements that are better than most -/

variable {α : Type*} [DecidableEq α] {less : α → α → Bool} {count : ℕ} {elems : List α} {elem : α}

/-- All but a few other elements compare as less. -/
def BetterThanAllBut (less : α → α → Bool) (count : ℕ) (elems : List α) (elem : α) : Prop :=
  (elems.filter fun other => decide (other ≠ elem) && !less other elem).length ≤ count

theorem BetterThanAllBut.mono {fewer : List α} (subperm : fewer.Subperm elems)
    (better : BetterThanAllBut less count elems elem) : BetterThanAllBut less count fewer elem :=
  (subperm.filter _).length_le.trans better

/-- A pass erases an element that is better than all but a few. -/
theorem notMem_eraseLastK (sorter : Sorter α) (weak : StrictWeak less) (nodup : elems.Nodup)
    (better : BetterThanAllBut less count elems elem) :
    elem ∉ eraseLastK sorter less (count + 1) (fun _ => true) elems := by
  intro mem
  have perm := sorter.perm less elems
  have length_eq := length_sort sorter less elems
  have better' := better.mono perm.subperm
  have sorted := sorter.sorted less elems weak
  have sortedNodup := perm.nodup_iff.mpr nodup
  rw [eraseLastK_all] at mem
  generalize sorter.sort less elems = list at *
  -- the erased elements come after `elem`, so none of them is worse
  have split := take_append_drop (elems.length - (count + 1)) list
  rw [← split] at sorted sortedNodup
  have after := (pairwise_append.mp sorted).2.2 elem mem
  have apart := (nodup_append.mp sortedNodup).2.2 elem mem
  have erased : (list.drop (elems.length - (count + 1))).filter
      (fun other => decide (other ≠ elem) && !less other elem) =
        list.drop (elems.length - (count + 1)) := by
    refine filter_eq_self.mpr fun other others => ?_
    simp [after other others, (apart other others).symm]
  have nonempty := length_pos_of_mem mem
  have many := (Sublist.filter (fun other => decide (other ≠ elem) && !less other elem)
    (drop_sublist (elems.length - (count + 1)) list)).length_le
  rw [erased, length_drop] at many
  rw [length_take] at nonempty
  rw [BetterThanAllBut] at better'
  omega

/-! ## Several passes -/

/-- What some passes leave of the elements: all but a number of them, and none of a kind. -/
structure Remaining (elems : List α) (erased : ℕ) (Gone : α → Prop) (left : List α) : Prop where
  subperm : left.Subperm elems
  length_le : elems.length ≤ left.length + erased
  notGone : ∀ elem ∈ left, ¬ Gone elem

variable {erased : ℕ} {Gone : α → Prop} {left : List α}

omit [DecidableEq α] in
theorem Remaining.start (elems : List α) : Remaining elems 0 (fun _ => False) elems :=
  ⟨Subperm.refl _, le_rfl, fun _ _ => id⟩

omit [DecidableEq α] in
theorem Remaining.pass (sorter : Sorter α) (less : α → α → Bool) (k : ℕ) (cond : α → Bool)
    (rem : Remaining elems erased Gone left) :
    Remaining elems (erased + k) Gone (eraseLastK sorter less k cond left) := by
  have subperm := eraseLastK_subperm sorter less k cond left
  have length_le := le_length_eraseLastK sorter less k cond left
  have before := rem.length_le
  exact ⟨subperm.trans rem.subperm, by omega, fun elem mem => rem.notGone elem (subperm.subset mem)⟩

theorem Remaining.passAll (sorter : Sorter α) (weak : StrictWeak less) (nodup : elems.Nodup)
    (count : ℕ) (rem : Remaining elems erased Gone left) : Remaining elems (erased + (count + 1))
      (fun elem => Gone elem ∨ BetterThanAllBut less count elems elem)
      (eraseLastK sorter less (count + 1) (fun _ => true) left) := by
  obtain ⟨subperm, length_le, notGone⟩ := rem.pass sorter less (count + 1) fun _ => true
  refine ⟨subperm, length_le, fun elem mem gone => ?_⟩
  rcases gone with earlier | better
  · exact notGone elem mem earlier
  · obtain ⟨middle, perm, sublist⟩ := rem.subperm
    have leftNodup := perm.nodup_iff.mp (nodup.sublist sublist)
    exact notMem_eraseLastK sorter weak leftNodup (better.mono rem.subperm) mem

end ErasePass
