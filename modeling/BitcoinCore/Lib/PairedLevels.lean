import Mathlib

/-!
# Levels of a tree over a list

A list is combined two by two: a last element without a neighbour is paired with
itself. Repeating this gives the levels of a binary tree over the list, up to a
level with one element.

A level is determined by its pairs and its length (`eq_of_levelPairs_eq`). It is
determined by its pairs alone when no element is paired with an equal one that
stands next to it (`eq_of_levelPairs_eq_of_apart`). When the combination meets no
collision, the same holds between a list and any of its levels
(`eq_of_level_eq`, `eq_of_level_eq_of_apart`).
-/

namespace PairedLevels

open List Nat Function Option

variable {α : Type*}

/-! ## One level -/

def padOdd (elems : List α) : List α :=
  if elems.length % 2 = 1 then elems ++ elems.getLast?.toList else elems

/-- The elements at the positions 0 and 1, 2 and 3, and so on. -/
def neighbours : List α → List (α × α)
  | left :: right :: rest => (left, right) :: neighbours rest
  | _ => []

/-- The pairs that are combined into the next level. -/
def levelPairs (elems : List α) : List (α × α) := neighbours (padOdd elems)

@[simp] theorem levelPairs_nil : levelPairs ([] : List α) = [] := rfl

@[simp] theorem levelPairs_singleton (elem : α) : levelPairs [elem] = [(elem, elem)] :=
  rfl

@[simp] theorem levelPairs_cons_cons (left right : α) (rest : List α) :
    levelPairs (left :: right :: rest) = (left, right) :: levelPairs rest := by
  have padded : padOdd (left :: right :: rest) = left :: right :: padOdd rest := by
    simp only [padOdd, length_cons, Nat.add_assoc, Nat.reduceAdd, add_mod_right]
    split
    · cases rest with
      | nil => contradiction
      | cons head tail => simp [getLast?_cons_cons]
    · rfl
  rw [levelPairs, padded, neighbours, levelPairs]

theorem length_levelPairs : ∀ elems : List α,
    (levelPairs elems).length = (elems.length + 1) / 2
  | [] => by simp
  | [_] => by simp
  | _ :: _ :: rest => by
    rw [levelPairs_cons_cons, length_cons, length_levelPairs rest, length_cons,
      length_cons]
    omega

theorem levelPairs_eq_nil_iff {elems : List α} : levelPairs elems = [] ↔ elems = [] := by
  rw [← length_eq_zero_iff, length_levelPairs, ← length_eq_zero_iff]
  omega

/-- A pair consists of the elements at an even position and at the next one, or
of the last element twice. -/
theorem getElem?_levelPairs : ∀ (elems : List α) (place : ℕ),
    (levelPairs elems)[place]? = elems[2 * place]?.map
      fun left => (left, elems[2 * place + 1]?.getD left)
  | [], _ => by simp
  | [_], 0 => rfl
  | [_], place + 1 => by simp [Nat.mul_add]
  | _ :: _ :: _, 0 => by simp
  | _ :: _ :: rest, place + 1 => by
    rw [levelPairs_cons_cons, getElem?_cons_succ, getElem?_levelPairs rest place]
    simp [Nat.mul_add]

theorem levelPairs_fst_sublist : ∀ elems : List α,
    ((levelPairs elems).map Prod.fst).Sublist elems
  | [] => Sublist.refl []
  | [_] => Sublist.refl _
  | left :: right :: rest => by
    rw [levelPairs_cons_cons, map_cons]
    exact ((levelPairs_fst_sublist rest).cons right).cons_cons left

theorem nodup_levelPairs {elems : List α} (nodup : elems.Nodup) :
    (levelPairs elems).Nodup :=
  Nodup.of_map Prod.fst (nodup.sublist (levelPairs_fst_sublist elems))

/-- A level is determined by its pairs and its length. -/
theorem eq_of_levelPairs_eq : ∀ {first second : List α}, first.length = second.length →
    levelPairs first = levelPairs second → first = second
  | [], second, lengths, _ => (length_eq_zero_iff.mp lengths.symm).symm
  | [_], [], lengths, _ => by simp at lengths
  | [_], [_], _, same => by simpa using same
  | [_], _ :: _ :: _, lengths, _ => by simp at lengths
  | _ :: _ :: _, [], lengths, _ => by simp at lengths
  | _ :: _ :: _, [_], lengths, _ => by simp at lengths
  | left :: right :: rest, left' :: right' :: rest', lengths, same => by
    rw [levelPairs_cons_cons, levelPairs_cons_cons, cons.injEq, Prod.mk.injEq] at same
    obtain ⟨⟨rfl, rfl⟩, restSame⟩ := same
    rw [eq_of_levelPairs_eq (by simpa using lengths) restSame]

section

variable [DecidableEq α]

def hasEqualPair (elems : List α) : Bool :=
  (neighbours elems).any fun pair => pair.1 == pair.2

theorem hasEqualPair_cons_cons_eq_false {left right : α} {rest : List α} :
    hasEqualPair (left :: right :: rest) = false ↔ left ≠ right ∧ hasEqualPair rest = false := by
  simp [hasEqualPair, neighbours]

theorem hasEqualPair_eq_false_of_nodup : ∀ {elems : List α}, elems.Nodup →
    hasEqualPair elems = false
  | [], _ => rfl
  | [_], _ => rfl
  | left :: right :: rest, nodup => by
    have apart := nodup_cons.mp nodup
    have restNodup := (nodup_cons.mp apart.2).2
    rw [hasEqualPair_cons_cons_eq_false]
    refine ⟨?_, hasEqualPair_eq_false_of_nodup restNodup⟩
    intro same
    exact apart.1 (same ▸ mem_cons_self)

/-- A level without equal neighbours is determined by its pairs. Only a
padded element is paired with itself. -/
theorem eq_of_levelPairs_eq_of_apart : ∀ {first second : List α},
    hasEqualPair first = false → hasEqualPair second = false →
      levelPairs first = levelPairs second → first = second
  | [], _, _, _, same => (levelPairs_eq_nil_iff.mp same.symm).symm
  | _ :: _, [], _, _, same => levelPairs_eq_nil_iff.mp same
  | [_], [_], _, _, same => by simpa using same
  | [_], left :: right :: rest, _, apart, same => by
    rw [levelPairs_singleton, levelPairs_cons_cons, cons.injEq, Prod.mk.injEq] at same
    exact absurd (same.1.1.symm.trans same.1.2) (hasEqualPair_cons_cons_eq_false.mp apart).1
  | left :: right :: rest, [_], apart, _, same => by
    rw [levelPairs_singleton, levelPairs_cons_cons, cons.injEq, Prod.mk.injEq] at same
    exact absurd (same.1.1.trans same.1.2.symm) (hasEqualPair_cons_cons_eq_false.mp apart).1
  | left :: right :: rest, left' :: right' :: rest', apart, apart', same => by
    rw [levelPairs_cons_cons, levelPairs_cons_cons, cons.injEq, Prod.mk.injEq] at same
    obtain ⟨⟨rfl, rfl⟩, restSame⟩ := same
    rw [eq_of_levelPairs_eq_of_apart (hasEqualPair_cons_cons_eq_false.mp apart).2
      (hasEqualPair_cons_cons_eq_false.mp apart').2 restSame]

end

/-! ## All levels -/

variable (combine : α → α → α) (elems : List α)

def nextLevel : List α :=
  (levelPairs elems).map (uncurry combine)

def level (height : ℕ) (elems : List α) : List α := (nextLevel combine)^[height] elems

@[simp] theorem level_zero : level combine 0 elems = elems := rfl

theorem level_succ (height : ℕ) (elems : List α) :
    level combine (height + 1) elems = nextLevel combine (level combine height elems) :=
  iterate_succ_apply' _ _ _

theorem level_succ' (height : ℕ) (elems : List α) :
    level combine (height + 1) elems = level combine height (nextLevel combine elems) :=
  iterate_succ_apply _ _ _

theorem length_nextLevel : (nextLevel combine elems).length = (elems.length + 1) / 2 := by
  rw [nextLevel, length_map, length_levelPairs]

theorem length_level (height : ℕ) (elems : List α) :
    (level combine height elems).length = (elems.length + 2 ^ height - 1) / 2 ^ height := by
  induction height with
  | zero => simp
  | succ height ih =>
    rw [level_succ, length_nextLevel, ih, pow_succ, ← Nat.div_div_eq_div_mul]
    have positive : 0 < 2 ^ height := Nat.two_pow_pos height
    rw [show elems.length + 2 ^ height * 2 - 1 =
      (elems.length + 2 ^ height - 1) + 2 ^ height by omega,
      add_div_right _ positive]

theorem length_level_clog {elems : List α} (ne : elems ≠ []) :
    (level combine (Nat.clog 2 elems.length) elems).length = 1 := by
  have bound : elems.length ≤ 2 ^ Nat.clog 2 elems.length := le_pow_clog (by decide) _
  have positive : 0 < elems.length := length_pos_iff.mpr ne
  rw [length_level]
  exact Nat.div_eq_of_lt_le (by omega) (by omega)

theorem getElem?_level_succ (height place : ℕ) (elems : List α) :
    (level combine (height + 1) elems)[place]? =
      (level combine height elems)[2 * place]?.map fun left =>
        combine left ((level combine height elems)[2 * place + 1]?.getD left) := by
  rw [level_succ, nextLevel, getElem?_map, getElem?_levelPairs, Option.map_map]
  rfl

/-! ## Combinations without collisions -/

def pairsBelow (height : ℕ) (elems : List α) : List (α × α) :=
  (range height).flatMap fun below => levelPairs (level combine below elems)

theorem mem_pairsBelow {height : ℕ} {elems : List α} {pair : α × α} :
    pair ∈ pairsBelow combine height elems ↔
      ∃ below < height, pair ∈ levelPairs (level combine below elems) := by
  simp [pairsBelow]

/-- No two different pairs of a set are combined into the same element. -/
def CollisionFree (pairs : Set (α × α)) : Prop := Set.InjOn (uncurry combine) pairs

variable {combine}

theorem CollisionFree.mono {pairs fewer : Set (α × α)} (free : CollisionFree combine pairs)
    (subset : fewer ⊆ pairs) : CollisionFree combine fewer :=
  Set.InjOn.mono subset free

theorem eq_of_map_eq {β : Type*} {f : α → β} : ∀ {first second : List α},
    Set.InjOn f {elem | elem ∈ first ∨ elem ∈ second} →
      first.map f = second.map f → first = second
  | [], _, _, same => (map_eq_nil_iff.mp same.symm).symm
  | _ :: _, [], _, same => map_eq_nil_iff.mp same
  | head :: tail, head' :: tail', injective, same => by
    rw [map_cons, map_cons, cons.injEq] at same
    have headSame : head = head' :=
      injective (Or.inl mem_cons_self) (Or.inr mem_cons_self) same.1
    have tailSame : tail = tail' := by
      refine eq_of_map_eq (injective.mono ?_) same.2
      intro elem mem
      exact mem.imp (mem_cons_of_mem _) (mem_cons_of_mem _)
    rw [headSame, tailSame]

theorem pairsBelow_succ (height : ℕ) (elems : List α) :
    pairsBelow combine (height + 1) elems =
      levelPairs elems ++ pairsBelow combine height (nextLevel combine elems) := by
  simp only [pairsBelow, range_succ_eq_map, flatMap_cons, level_zero, flatMap_map,
    succ_eq_add_one, level_succ']

def pairsBelowEither (combine : α → α → α) (height height' : ℕ) (first second : List α) :
    Set (α × α) :=
  {pair | pair ∈ pairsBelow combine height first ∨ pair ∈ pairsBelow combine height' second}

section

variable {height height' : ℕ} {first second : List α}

section

variable (free : CollisionFree combine (pairsBelowEither combine (height + 1) (height' + 1) first second))
include free

theorem CollisionFree.levelPairs :
    CollisionFree combine
      {pair | pair ∈ PairedLevels.levelPairs first ∨ pair ∈ PairedLevels.levelPairs second} := by
  refine free.mono ?_
  intro pair mem
  simp only [pairsBelowEither, pairsBelow_succ, mem_append, Set.mem_ofPred_eq]
  exact mem.imp Or.inl Or.inl

theorem CollisionFree.nextLevel :
    CollisionFree combine (pairsBelowEither combine height height'
      (PairedLevels.nextLevel combine first) (PairedLevels.nextLevel combine second)) := by
  refine free.mono ?_
  intro pair mem
  simp only [pairsBelowEither, pairsBelow_succ, mem_append, Set.mem_ofPred_eq] at mem ⊢
  exact mem.imp Or.inr Or.inr

end

/-- Without collisions, a level and the length determine the list. -/
theorem eq_of_level_eq
    (free : CollisionFree combine (pairsBelowEither combine height height first second))
    (lengths : first.length = second.length)
    (same : level combine height first = level combine height second) : first = second := by
  induction height generalizing first second with
  | zero => exact same
  | succ height ih =>
    rw [level_succ', level_succ'] at same
    have above : nextLevel combine first = nextLevel combine second := by
      refine ih free.nextLevel ?_ same
      rw [length_nextLevel, length_nextLevel, lengths]
    exact eq_of_levelPairs_eq lengths (eq_of_map_eq free.levelPairs above)

/-- Without collisions and equal neighbours, a level determines the list. -/
theorem eq_of_level_eq_of_apart [DecidableEq α]
    (free : CollisionFree combine (pairsBelowEither combine height height first second))
    (apart : ∀ below < height, hasEqualPair (level combine below first) = false)
    (apart' : ∀ below < height, hasEqualPair (level combine below second) = false)
    (same : level combine height first = level combine height second) : first = second := by
  induction height generalizing first second with
  | zero => exact same
  | succ height ih =>
    rw [level_succ', level_succ'] at same
    have above : nextLevel combine first = nextLevel combine second := by
      refine ih free.nextLevel ?_ ?_ same
      · intro below bound
        rw [← level_succ']
        exact apart (below + 1) (succ_lt_succ bound)
      · intro below bound
        rw [← level_succ']
        exact apart' (below + 1) (succ_lt_succ bound)
    exact eq_of_levelPairs_eq_of_apart (apart 0 (succ_pos height))
      (apart' 0 (succ_pos height)) (eq_of_map_eq free.levelPairs above)

/-- The first element of a level above the list combines a pair whose left side
is the first element of the level below. -/
theorem exists_pair_of_head {root : α} (head : (level combine (height + 1) first)[0]? = some root) :
    ∃ pair ∈ pairsBelow combine (height + 1) first,
      (level combine height first)[0]? = some pair.1 ∧ uncurry combine pair = root := by
  rw [level_succ, nextLevel, getElem?_map, map_eq_some_iff] at head
  obtain ⟨pair, found, combined⟩ := head
  refine ⟨pair, ?_, ?_, combined⟩
  · rw [mem_pairsBelow]
    exact ⟨height, lt_succ_self height, mem_of_getElem? found⟩
  · rw [getElem?_levelPairs, map_eq_some_iff] at found
    obtain ⟨left, leftFound, rfl⟩ := found
    exact leftFound

theorem pairsBelow_subset {pair : α × α} (mem : pair ∈ pairsBelow combine height first) :
    pair ∈ pairsBelow combine (height + 1) first := by
  rw [mem_pairsBelow] at mem ⊢
  obtain ⟨below, bound, found⟩ := mem
  exact ⟨below, lt_succ_of_lt bound, found⟩

/-- Equal roots stand at equal heights, when no element of a list is a
combination: both roots are taken apart along their left sides. -/
theorem height_eq_of_root_eq {root : α}
    (free : CollisionFree combine (pairsBelowEither combine height height' first second))
    (leaves : ∀ leaf ∈ first, ∀ pair ∈ pairsBelow combine height' second,
      uncurry combine pair ≠ leaf)
    (leaves' : ∀ leaf ∈ second, ∀ pair ∈ pairsBelow combine height first,
      uncurry combine pair ≠ leaf) (head : (level combine height first)[0]? = some root)
    (head' : (level combine height' second)[0]? = some root) : height = height' := by
  induction height generalizing height' root with
  | zero =>
    cases height' with
    | zero => rfl
    | succ height' =>
      obtain ⟨pair, mem, -, combined⟩ := exists_pair_of_head head'
      exact absurd combined (leaves root (mem_of_getElem? head) pair mem)
  | succ height ih =>
    obtain ⟨pair, mem, left, combined⟩ := exists_pair_of_head head
    cases height' with
    | zero => exact absurd combined (leaves' root (mem_of_getElem? head') pair mem)
    | succ height' =>
      obtain ⟨pair', mem', left', combined'⟩ := exists_pair_of_head head'
      have samePair : pair = pair' :=
        free (Or.inl mem) (Or.inr mem') (combined.trans combined'.symm)
      subst samePair
      refine congrArg Nat.succ (ih (free.mono ?_) ?_ ?_ left left')
      · intro other found
        exact found.imp pairsBelow_subset pairsBelow_subset
      · intro leaf leafMember other found
        exact leaves leaf leafMember other (pairsBelow_subset found)
      · intro leaf leafMember other found
        exact leaves' leaf leafMember other (pairsBelow_subset found)

end

theorem nodup_level {height : ℕ} {elems : List α}
    (free : CollisionFree combine {pair | pair ∈ pairsBelow combine height elems})
    (nodup : elems.Nodup) : (level combine height elems).Nodup := by
  induction height with
  | zero => exact nodup
  | succ height ih =>
    have below := ih (free.mono fun _ mem => pairsBelow_subset mem)
    rw [level_succ]
    refine Nodup.map_on ?_ (nodup_levelPairs below)
    intro pair mem pair' mem' same
    refine free ?_ ?_ same
    · exact (mem_pairsBelow combine).mpr ⟨height, lt_succ_self height, mem⟩
    · exact (mem_pairsBelow combine).mpr ⟨height, lt_succ_self height, mem'⟩

end PairedLevels
