import Mathlib

/-!
# Partly filled slots

A list of slots, some of them filled, to be completed to a list of elements. The
elements of a full list that stand at the empty slots (`missing`) fill the slots
up to a list that agrees with the full one at the empty slots and with the slots
at the filled ones (`overlay`).
-/

namespace SparseSlots

open List

variable {α : Type*} {slots : List (Option α)} {elems : List α} {place : ℕ}

/-! ## Counting empty slots -/

def vacancies (slots : List (Option α)) : ℕ := slots.countP Option.isNone

@[simp] theorem vacancies_cons_none (slots : List (Option α)) :
    vacancies (none :: slots) = vacancies slots + 1 := by
  simp [vacancies]

@[simp] theorem vacancies_cons_some (elem : α) (slots : List (Option α)) :
    vacancies (some elem :: slots) = vacancies slots := by
  simp [vacancies]

theorem vacancies_append (slots more : List (Option α)) :
    vacancies (slots ++ more) = vacancies slots + vacancies more :=
  countP_append

@[simp] theorem vacancies_replicate (number : ℕ) :
    vacancies (replicate number (none : Option α)) = number := by
  simp [vacancies, countP_replicate]

theorem vacancies_set (vacant : slots[place]? = some none) (elem : α) :
    vacancies (slots.set place (some elem)) + 1 = vacancies slots := by
  induction slots generalizing place with
  | nil => simp at vacant
  | cons slot slots ih =>
    cases place with
    | zero =>
      obtain rfl : slot = none := by simpa using vacant
      simp
    | succ place =>
      have kept : vacancies (slots.set place (some elem)) + 1 = vacancies slots :=
        ih (by simpa using vacant)
      cases slot with
      | none => rw [set_cons_succ, vacancies_cons_none, vacancies_cons_none, kept]
      | some held => rw [set_cons_succ, vacancies_cons_some, vacancies_cons_some, kept]

theorem vacancies_take_succ (vacant : slots[place]? = some none) :
    vacancies (slots.take (place + 1)) = vacancies (slots.take place) + 1 := by
  rw [take_add_one, vacant, vacancies_append]
  rfl

/-- The number of empty slots that are filled later. -/
def newlyFilled (slots later : List (Option α)) : ℕ :=
  (slots.zip later).countP fun slot => slot.1.isNone && slot.2.isSome

theorem newlyFilled_add {later : List (Option α)} (length : later.length = slots.length)
    (keeps : ∀ (place : ℕ) (elem : α), slots[place]? = some (some elem) →
      later[place]? = some (some elem)) :
    newlyFilled slots later + vacancies later = vacancies slots := by
  induction slots generalizing later with
  | nil =>
    rw [length_eq_zero_iff.mp length]
    rfl
  | cons slot slots ih =>
    cases later with
    | nil => cases length
    | cons now later =>
      have rest := ih (Nat.succ.inj length) fun place elem filled => keeps (place + 1) elem filled
      rw [newlyFilled] at rest ⊢
      cases slot with
      | none => cases now <;> simp <;> omega
      | some elem =>
        obtain rfl : now = some elem := Option.some.inj (keeps 0 elem rfl)
        simpa using rest

/-! ## Completing the slots -/

def missing : List (Option α) → List α → List α
  | none :: slots, elem :: elems => elem :: missing slots elems
  | some _ :: slots, _ :: elems => missing slots elems
  | _, _ => []

/-- The elements with those at the filled slots replaced by what the slots hold. -/
def overlay (slots : List (Option α)) (elems : List α) : List α :=
  List.zipWith Option.getD slots elems

def vacantIndexes (slots : List (Option α)) : List ℕ :=
  (List.range slots.length).filter fun place => slots[place]?.join.isNone

theorem vacantIndexes_cons (slot : Option α) (slots : List (Option α)) :
    vacantIndexes (slot :: slots) =
      (if slot.isNone then [0] else []) ++ (vacantIndexes slots).map (· + 1) := by
  rw [vacantIndexes, length_cons, range_succ_eq_map, filter_cons, filter_map, vacantIndexes]
  cases slot <;> simp [Function.comp_def]

theorem lt_length_of_mem_vacantIndexes (mem : place ∈ vacantIndexes slots) : place < slots.length :=
  mem_range.mp (mem_of_mem_filter mem)

variable (lengths : slots.length = elems.length)
include lengths

theorem getElem?_vacantIndexes :
    (vacantIndexes slots).map (elems[·]?) = (missing slots elems).map some := by
  induction slots generalizing elems with
  | nil => rfl
  | cons slot slots ih =>
    cases elems with
    | nil => simp at lengths
    | cons elem elems =>
      have rest := ih (Nat.succ.inj lengths)
      rw [vacantIndexes_cons, map_append, map_map]
      cases slot <;> simpa [missing, Function.comp_def] using rest

theorem length_overlay : (overlay slots elems).length = elems.length := by
  rw [overlay, length_zipWith, lengths, Nat.min_self]

theorem getElem?_overlay_of_filled {elem : α} (filled : slots[place]? = some (some elem)) :
    (overlay slots elems)[place]? = some elem := by
  have bound : place < elems.length := by
    rw [← lengths]
    exact (List.getElem?_eq_some_iff.mp filled).1
  rw [overlay, getElem?_zipWith, filled, getElem?_eq_getElem bound]
  rfl

/-- Slots filled from the full list complete to the full list. -/
theorem overlay_eq_of_agree (agree : ∀ (place : ℕ) (elem : α), slots[place]? = some (some elem) →
      elems[place]? = some elem) : overlay slots elems = elems := by
  induction slots generalizing elems with
  | nil => exact (length_eq_zero_iff.mp lengths.symm).symm
  | cons slot slots ih =>
    cases elems with
    | nil => simp at lengths
    | cons elem elems =>
      have rest := ih (Nat.succ.inj lengths)
        fun place elem filled => agree (place + 1) elem filled
      have first : slot.getD elem = elem := by
        cases slot with
        | none => rfl
        | some held => exact (Option.some.inj (agree 0 held rfl)).symm
      rw [overlay, zipWith_cons_cons, first]
      exact congrArg (elem :: ·) rest

end SparseSlots
