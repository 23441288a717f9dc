import Mathlib.Data.List.Basic
import Mathlib.Order.Lattice

/-!
# The smallest element by a comparison

`std::min_element` keeps the first element that no later one is before. The comparison can be
any function: `minElement_of_mem` carries over what passes from an element to those before it,
and `minElement_le` is the case of a comparison by a key.
-/

namespace MinElement

open List

variable {α β : Type*} {less : α → α → Bool} {first a : α} {rest : List α}

/-- One pass over the list that keeps the best element so far. -/
def minElement (less : α → α → Bool) (first : α) (rest : List α) : α :=
  rest.foldl (fun smallest elem => if less elem smallest then elem else smallest) first

theorem minElement_of_mem {P : α → Prop}
    (ordered : ∀ x ∈ first :: rest, ∀ y ∈ first :: rest, if less x y then P y → P x else P x → P y)
    (isIn : a ∈ first :: rest) (holds : P a) : P (minElement less first rest) := by
  induction rest generalizing first a with
  | nil => rwa [mem_singleton.mp isIn] at holds
  | cons second rest ih =>
    rw [minElement, foldl_cons, ← minElement]
    have pair := ordered second (by simp) first (by simp)
    have chosen : (if less second first then second else first) ∈ [first, second] := by
      split_ifs <;> simp
    have among : (if less second first then second else first) :: rest ⊆ first :: second :: rest :=
      cons_subset.mpr ⟨mem_append_left rest chosen, fun _ isIn => by simp [isIn]⟩
    have ordered' := fun x isX y isY => ordered x (among isX) y (among isY)
    rcases mem_cons.mp isIn with rfl | isIn
    · refine ih ordered' mem_cons_self ?_
      split_ifs with before
      · exact (if_pos before ▸ pair) holds
      · exact holds
    · rcases mem_cons.mp isIn with rfl | isIn
      · refine ih ordered' mem_cons_self ?_
        split_ifs with before
        · exact holds
        · exact (if_neg before ▸ pair) holds
      · exact ih ordered' (mem_cons_of_mem _ isIn) holds

theorem minElement_mem (less : α → α → Bool) (first : α) (rest : List α) :
    minElement less first rest ∈ first :: rest := by
  refine minElement_of_mem (P := (· ∈ first :: rest)) (fun x isX y isY => ?_) mem_cons_self
    mem_cons_self
  split_ifs
  · exact fun _ => isX
  · exact fun _ => isY

theorem minElement_le [LinearOrder β] {key : α → β} (less_iff : ∀ a b, less a b ↔ key a < key b) :
    ∀ a ∈ first :: rest, key (minElement less first rest) ≤ key a := by
  intro a isIn
  refine minElement_of_mem (P := (key · ≤ key a)) ?_ isIn le_rfl
  intro x _ y _
  split_ifs with before
  · exact ((less_iff x y).mp before).le.trans
  · exact (not_lt.mp fun isLess => before ((less_iff x y).mpr isLess)).trans

end MinElement
