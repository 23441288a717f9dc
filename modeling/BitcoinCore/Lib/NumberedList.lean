import Mathlib

/-!
# Numbered lists

The items of a list are numbered from a given position on. Each may be required to
stand in a relation to the one before it, which depends on the position
(`Successive`).

Or some positions are selected, and only the values at the selected positions are
kept (`sample`). The positions themselves are not kept, but they can be counted
again: if the samples of one list are the first samples of another, then the two
lists have the same value at every selected position of the first
(`eq_of_sample_prefix`).
-/

namespace NumberedList

open List

variable {α β : Type*} {Follows : ℕ → α → α → Prop}

/-! ## Relations between neighbours -/

/-- Each item stands in the relation of its position to the one before it; the
first item stands at the given position and follows the given item. -/
def Successive (Follows : ℕ → α → α → Prop) : ℕ → α → List α → Prop
  | _, _, [] => True
  | place, prev, item :: items =>
    Follows place prev item ∧ Successive Follows (place + 1) item items

variable {place : ℕ}

theorem successive_append {prev : α} {items more : List α} :
    Successive Follows place prev (items ++ more) ↔ Successive Follows place prev items ∧
        Successive Follows (place + items.length) (items.getLastD prev) more := by
  induction items generalizing place prev with
  | nil => simp [Successive]
  | cons item items ih =>
    rw [cons_append, Successive, Successive, ih, and_assoc, length_cons,
      getLastD_cons, Nat.add_right_comm, Nat.add_assoc place]

theorem getLastD_append (items more : List α) (prev : α) :
    (items ++ more).getLastD prev = more.getLastD (items.getLastD prev) := by
  induction items generalizing prev with
  | nil => rfl
  | cons item items ih => rw [cons_append, getLastD_cons, getLastD_cons, ih]

theorem successive_concat {prev item : α} {items : List α} :
    Successive Follows place prev (items ++ [item]) ↔ Successive Follows place prev items ∧
        Follows (place + items.length) (items.getLastD prev) item := by
  rw [successive_append, Successive, Successive, and_true]

/-! ## Samples -/

variable (sel : ℕ → Bool) (val : α → β)

/-- The values of the items at selected positions; the first item stands at the
given position. -/
def sample : ℕ → List α → List β
  | _, [] => []
  | place, item :: items =>
    if sel place then val item :: sample (place + 1) items
    else sample (place + 1) items

theorem sample_append (place : ℕ) (items more : List α) :
    sample sel val place (items ++ more) = sample sel val place items ++
        sample sel val (place + items.length) more := by
  induction items generalizing place with
  | nil => rfl
  | cons item items ih =>
    rw [cons_append, sample, sample, ih, length_cons, Nat.add_right_comm, Nat.add_assoc place]
    split <;> rfl

/-- Lists with the same samples agree where they were sampled. -/
theorem eq_of_sample_prefix {items others : List α}
    (same : sample sel val place items <+: sample sel val place others)
    {idx : ℕ} {item : α} (found : items[idx]? = some item) (isSel : sel (place + idx)) :
    ∃ other, others[idx]? = some other ∧ val item = val other := by
  induction idx generalizing place items others with
  | zero =>
    cases items with
    | nil => simp at found
    | cons head items =>
      obtain rfl : head = item := by simpa using found
      rw [Nat.add_zero] at isSel
      cases others with
      | nil => simp [sample, isSel] at same
      | cons other others =>
        rw [sample, sample, if_pos isSel, if_pos isSel, cons_prefix_cons]
          at same
        exact ⟨other, rfl, same.1⟩
  | succ idx ih =>
    cases items with
    | nil => simp at found
    | cons head items =>
      rw [List.getElem?_cons_succ] at found
      rw [← Nat.add_assoc, Nat.add_right_comm] at isSel
      cases others with
      | nil =>
        -- The other list has no samples, so this one has none at the index.
        have none : sample sel val (place + 1) items <+:
            sample sel val (place + 1) [] := by
          simp only [sample] at same ⊢
          split at same
          · simp at same
          · exact same
        obtain ⟨other, impossible, -⟩ := ih none found isSel
        simp at impossible
      | cons other others =>
        rw [sample, sample] at same
        split at same
        · exact ih (cons_prefix_cons.mp same).2 found isSel
        · exact ih same found isSel

end NumberedList
