import Mathlib

/-!
# Changing one element of a list

What the members, the images and the counts of a list without repetition become when
one of its elements is replaced or removed.
-/

namespace ElementUpdate

open Function List

variable {α β : Type*} [DecidableEq α]

def replaceElem (old new : α) (elems : List α) : List α :=
  elems.map fun elem => if elem = old then new else elem

def removeElem (old : α) (elems : List α) : List α :=
  elems.filter fun elem => elem ≠ old

variable {old new : α} {elems : List α}

@[grind =] theorem mem_replaceElem {elem : α} : elem ∈ replaceElem old new elems ↔
      (elem = new ∧ old ∈ elems) ∨ (elem ∈ elems ∧ elem ≠ old) := by
  rw [replaceElem, mem_map]
  constructor
  · rintro ⟨source, mem, rfl⟩
    split
    case isTrue same => exact .inl ⟨rfl, same ▸ mem⟩
    case isFalse apart => exact .inr ⟨mem, apart⟩
  · rintro (⟨rfl, mem⟩ | ⟨mem, apart⟩)
    · exact ⟨old, mem, if_pos rfl⟩
    · exact ⟨elem, mem, if_neg apart⟩

@[grind =] theorem mem_removeElem {elem : α} :
    elem ∈ removeElem old elems ↔ elem ∈ elems ∧ elem ≠ old := by
  simp [removeElem]

theorem map_replaceElem {f : α → β} (same : f new = f old) (elems : List α) :
    (replaceElem old new elems).map f = elems.map f := by
  rw [replaceElem, map_map]
  refine map_congr_left fun elem _ => ?_
  rw [comp_apply]
  split
  case isTrue here => rw [here, same]
  case isFalse => rfl

@[simp] theorem replaceElem_self : replaceElem old old elems = elems := by
  have kept : ∀ elem ∈ elems, (if elem = old then old else elem) = id elem := by
    intro elem _
    split
    case isTrue here => exact here.symm
    case isFalse => rfl
  rw [replaceElem, map_congr_left kept, map_id]

theorem replaceElem_of_not_mem (absent : old ∉ elems) : replaceElem old new elems = elems := by
  have kept : ∀ elem ∈ elems, (if elem = old then new else elem) = id elem := by
    intro elem mem
    have apart : elem ≠ old := fun same => absent (same ▸ mem)
    exact if_neg apart
  rw [replaceElem, map_congr_left kept, map_id]

theorem removeElem_of_not_mem (absent : old ∉ elems) : removeElem old elems = elems := by
  rw [removeElem, filter_eq_self]
  exact fun elem mem => decide_eq_true fun same => absent (same ▸ mem)

theorem replaceElem_replaceElem {newest : α} (absent : new ∉ elems) :
    replaceElem new newest (replaceElem old new elems) = replaceElem old newest elems := by
  rw [replaceElem, replaceElem, replaceElem, map_map]
  refine map_congr_left fun elem mem => ?_
  have apart : elem ≠ new := fun same => absent (same ▸ mem)
  rw [comp_apply]
  rcases eq_or_ne elem old with here | kept
  · rw [if_pos here, if_pos rfl, if_pos here]
  · rw [if_neg kept, if_neg apart, if_neg kept]

theorem replaceElem_cons_of_ne {first : α} (apart : first ≠ old) :
    replaceElem old new (first :: elems) = first :: replaceElem old new elems := by
  rw [replaceElem, map_cons, if_neg apart]
  rfl

theorem replaceElem_comm {old' new' : α} (apart : old ≠ old') (keeps : new ≠ old')
    (keeps' : new' ≠ old) : replaceElem old new (replaceElem old' new' elems) =
      replaceElem old' new' (replaceElem old new elems) := by
  rw [replaceElem, replaceElem, replaceElem, replaceElem, map_map, map_map]
  refine map_congr_left fun elem _ => ?_
  rw [comp_apply, comp_apply]
  grind

theorem filter_replaceElem {p : α → Bool} (lacks : p old = false) (lacks' : p new = false) :
    (replaceElem old new elems).filter p = elems.filter p := by
  induction elems with
  | nil => rfl
  | cons first rest ih =>
    rcases eq_or_ne first old with rfl | apart
    · rw [replaceElem, map_cons, if_pos rfl, filter_cons_of_neg (by simp [lacks']),
        filter_cons_of_neg (by simp [lacks])]
      exact ih
    · rw [replaceElem_cons_of_ne apart, filter_cons, filter_cons, ih]

section

variable (nodup : elems.Nodup) (mem : old ∈ elems)
include nodup mem

theorem perm_cons_removeElem : elems.Perm (old :: removeElem old elems) := by
  have erased := perm_cons_erase mem
  rw [nodup.erase_eq_filter] at erased
  refine erased.trans (Perm.of_eq (congrArg (old :: ·) (filter_congr fun elem _ => ?_)))
  exact (decide_not).symm

variable (new)

theorem perm_replaceElem : (replaceElem old new elems).Perm (new :: removeElem old elems) := by
  refine ((perm_cons_removeElem nodup mem).map _).trans (Perm.of_eq ?_)
  rw [map_cons, if_pos rfl]
  exact congrArg (new :: ·) (replaceElem_of_not_mem (by simp [removeElem]))

theorem countP_replaceElem (p : α → Bool) : (replaceElem old new elems).countP p + (p old).toNat =
      elems.countP p + (p new).toNat := by
  rw [(perm_replaceElem new nodup mem).countP_eq, (perm_cons_removeElem nodup mem).countP_eq p,
    countP_cons, countP_cons]
  cases p old <;> cases p new <;> simp

variable {new}

theorem perm_filter_replaceElem {p : α → Bool} (holds : p old) (lacks : p new = false) :
    (elems.filter p).Perm (old :: (replaceElem old new elems).filter p) := by
  have whole := (perm_cons_removeElem nodup mem).filter p
  have left := (perm_replaceElem new nodup mem).filter p
  rw [filter_cons_of_pos holds] at whole
  rw [filter_cons_of_neg (by simp [lacks])] at left
  exact whole.trans (left.symm.cons old)

end

end ElementUpdate
