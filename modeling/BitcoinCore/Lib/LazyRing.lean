import Mathlib

/-!
# A ring that is allocated when it is first used

A ring keeps the last elements added to it. Its slots are allocated together when
the first element comes, and hold a blank until they are reached. Until the ring
is full its slots are the elements added and blanks behind them
(`slots_addAll`); a full ring holds elements only (`mem_of_mem_addAll`).
-/

/-- The slots of a ring, and the slot that the next element goes to. -/
structure LazyRing (α : Type*) where
  slots : List α
  next : ℕ

namespace LazyRing

open List

variable {α : Type*}

def empty : LazyRing α := ⟨[], 0⟩

section

variable (cap : ℕ) (blank : α)

def add (ring : LazyRing α) (elem : α) : LazyRing α :=
  if cap = 0 then ring
  else
    let slots := if ring.slots.isEmpty then replicate cap blank else ring.slots
    { slots := slots.set ring.next elem, next := (ring.next + 1) % cap }

def addAll (elems : List α) : LazyRing α := elems.foldl (add cap blank) empty

theorem addAll_concat (elems : List α) (elem : α) : addAll cap blank (elems ++ [elem]) =
      add cap blank (addAll cap blank elems) elem := by
  rw [addAll, foldl_append]
  rfl

theorem addAll_of_capacity_eq_zero (noCapacity : cap = 0) (elems : List α) :
    addAll cap blank elems = empty := by
  induction elems using reverseRecOn with
  | nil => rfl
  | append_singleton elems elem ih => rw [addAll_concat, ih, add, if_pos noCapacity]

end

variable {cap : ℕ} {blank : α} {elems : List α}

theorem next_addAll (pos : 0 < cap) (elems : List α) :
    (addAll cap blank elems).next = elems.length % cap := by
  induction elems using reverseRecOn with
  | nil => exact (Nat.zero_mod cap).symm
  | append_singleton elems elem ih =>
    rw [addAll_concat, add, if_neg (Nat.pos_iff_ne_zero.mp pos)]
    simp only [ih, length_append, length_singleton, Nat.mod_add_mod]

theorem length_slots_addAll (ne : elems ≠ []) : (addAll cap blank elems).slots.length = cap := by
  induction elems using reverseRecOn with
  | nil => exact absurd rfl ne
  | append_singleton elems elem ih =>
    rw [addAll_concat, add]
    split
    case isTrue none =>
      rw [addAll_of_capacity_eq_zero cap blank none, none]
      rfl
    case isFalse =>
      rcases eq_or_ne elems [] with rfl | some
      · simp [addAll, empty]
      · simp only [length_set]
        split
        · exact length_replicate
        · exact ih some

/-- Slots that are not reached yet hold blanks. -/
theorem slots_addAll (ne : elems ≠ []) (fits : elems.length ≤ cap) :
    (addAll cap blank elems).slots = elems ++ replicate (cap - elems.length) blank := by
  induction elems using reverseRecOn with
  | nil => exact absurd rfl ne
  | append_singleton elems elem ih =>
    rw [length_append, length_singleton] at fits
    have next : (addAll cap blank elems).next = elems.length := by
      rw [next_addAll (by omega), Nat.mod_eq_of_lt (by omega)]
    have allocated : (if (addAll cap blank elems).slots.isEmpty then
          replicate cap blank else (addAll cap blank elems).slots) =
        elems ++ replicate (cap - elems.length) blank := by
      rcases eq_or_ne elems [] with rfl | some
      · rfl
      · rw [ih some (by omega), if_neg (by simp [some])]
    have unreached : cap - elems.length = cap - (elems.length + 1) + 1 := by
      omega
    rw [addAll_concat, add, if_neg (by omega)]
    simp only [allocated, next]
    rw [set_append_right _ _ (Nat.le_refl _), Nat.sub_self, unreached,
      replicate_succ, set_cons_zero, append_assoc, length_append]
    rfl

/-- A full ring holds elements only. -/
theorem mem_of_mem_addAll (full : cap ≤ elems.length) {slot : α}
    (mem : slot ∈ (addAll cap blank elems).slots) : slot ∈ elems := by
  induction elems using reverseRecOn with
  | nil =>
    cases mem
  | append_singleton elems elem ih =>
    rcases Nat.lt_or_ge elems.length cap with before | already
    · have fits : (elems ++ [elem]).length = cap := by
        rw [length_append, length_singleton] at full ⊢
        omega
      rw [slots_addAll (by simp) (Nat.le_of_eq fits), fits, Nat.sub_self] at mem
      simpa using mem
    · rcases Nat.eq_zero_or_pos cap with none | pos
      · rw [addAll_of_capacity_eq_zero cap blank none] at mem
        cases mem
      · rw [addAll_concat, add, if_neg (Nat.pos_iff_ne_zero.mp pos)] at mem
        have some : elems ≠ [] := ne_nil_of_length_pos (by omega)
        have allocated : (addAll cap blank elems).slots ≠ [] :=
          ne_nil_of_length_pos (by rwa [length_slots_addAll some])
        simp only [List.isEmpty_iff, allocated, if_false] at mem
        rcases mem_or_eq_of_mem_set mem with old | rfl
        · exact mem_append_left _ (ih already old)
        · simp

end LazyRing
