import Mathlib

/-!
# Changing a table at some keys

A table is changed at one key after the other (`changeAll`). Where the keys are distinct,
every one of them is changed once, by the change that belongs to it (`changeAll_of_mem`),
and at all other keys the table stays as it is (`changeAll_of_notMem`).
-/

namespace PointChanges

open List Function

variable {ι β : Type*} [DecidableEq ι] {changes : List (ι × (β → β))} {table : ι → β} {i : ι}

def changeAll (changes : List (ι × (β → β))) (table : ι → β) : ι → β :=
  changes.foldl (fun table change => update table change.1 (change.2 (table change.1))) table

theorem changeAll_cons (first : ι × (β → β)) : changeAll (first :: changes) table =
    changeAll changes (update table first.1 (first.2 (table first.1))) := rfl

theorem changeAll_append (front back : List (ι × (β → β))) :
    changeAll (front ++ back) table = changeAll back (changeAll front table) := foldl_append

theorem changeAll_of_notMem (absent : i ∉ changes.map Prod.fst) :
    changeAll changes table i = table i := by
  induction changes generalizing table with
  | nil => rfl
  | cons first changes ih =>
    rw [map_cons, mem_cons, not_or] at absent
    rw [changeAll_cons, ih absent.2, update_of_ne absent.1]

theorem changeAll_of_mem (distinct : (changes.map Prod.fst).Nodup) {change : β → β}
    (mem : (i, change) ∈ changes) : changeAll changes table i = change (table i) := by
  induction changes generalizing table with
  | nil => exact absurd mem not_mem_nil
  | cons first changes ih =>
    rw [map_cons, nodup_cons] at distinct
    rw [changeAll_cons]
    rcases mem_cons.mp mem with rfl | later
    · rw [changeAll_of_notMem distinct.1, update_self]
    · have other : i ≠ first.1 := fun same => distinct.1 (mem_map.mpr ⟨_, later, same⟩)
      rw [ih distinct.2 later, update_of_ne other]

/-- What every change keeps stays as it is at every key. -/
theorem changeAll_frame {γ : Type*} (field : β → γ)
    (kept : ∀ change ∈ changes, ∀ value, field (change.2 value) = field value)
    (table : ι → β) (i : ι) : field (changeAll changes table i) = field (table i) := by
  induction changes generalizing table with
  | nil => rfl
  | cons first changes ih =>
    obtain ⟨here, kept⟩ := forall_mem_cons.mp kept
    rw [changeAll_cons, ih kept]
    rcases eq_or_ne i first.1 with rfl | other
    · rw [update_self, here]
    · rw [update_of_ne other]

end PointChanges
