import Mathlib

/-!
# Rooted trees given by parent pointers

A rooted tree is a parent function with the height of every node: a node
without a parent is the root, at height zero, and a node is one higher than its
parent.

The ancestor of a node at a height is reached by climbing (`ancestorAt`). A
node has exactly one ancestor at every height up to its own, and the ancestors
of an ancestor are ancestors (`ancestorAt_of_ancestorAt`). Two nodes have a
last common ancestor (`IsLastCommon`), which is found from the parents of two
different nodes of equal height (`IsLastCommon.of_parents`), or from any pair
of their ancestors at one height that still differ
(`IsLastCommon.of_ancestors`). The ancestors between two heights form a segment,
in increasing order of height (`segment`).
-/

/-- A rooted tree: parent pointers and heights that agree. -/
structure ParentTree (Node : Type*) where
  parent : Node → Option Node
  height : Node → ℕ
  height_of_root : ∀ {node}, parent node = none → height node = 0
  height_of_parent : ∀ {node above}, parent node = some above → height node = height above + 1
  root_unique : ∀ {first second}, parent first = none → parent second = none → first = second

namespace ParentTree

open Option List

variable {Node : Type*} (tree : ParentTree Node) {node above : Node} {height : ℕ}

def climb : ℕ → Node → Option Node
  | 0, node => some node
  | steps + 1, node => (tree.parent node).bind (climb steps)

def ancestorAt (height : ℕ) (node : Node) : Option Node :=
  if height ≤ tree.height node then tree.climb (tree.height node - height) node else none

/-- A node is an ancestor of another when it is the other's ancestor at its own
height. Every node is an ancestor of itself. -/
def IsAncestor (above node : Node) : Prop :=
  tree.ancestorAt (tree.height above) node = some above

instance [DecidableEq Node] (above node : Node) : Decidable (tree.IsAncestor above node) :=
  inferInstanceAs (Decidable (_ = _))

/-- The last common ancestor of two nodes: every common ancestor is one of its
ancestors. -/
structure IsLastCommon (common first second : Node) : Prop where
  left : tree.IsAncestor common first
  right : tree.IsAncestor common second
  last : ∀ other, tree.IsAncestor other first → tree.IsAncestor other second →
    tree.IsAncestor other common

@[simp] theorem climb_zero (node : Node) : tree.climb 0 node = some node := rfl

theorem climb_succ (steps : ℕ) (node : Node) :
    tree.climb (steps + 1) node = (tree.parent node).bind (tree.climb steps) := rfl

theorem climb_add (first second : ℕ) (node : Node) :
    tree.climb (first + second) node = (tree.climb first node).bind (tree.climb second) := by
  induction first generalizing node with
  | zero => simp
  | succ first ih =>
    rw [Nat.succ_add, climb_succ, climb_succ]
    cases tree.parent node with
    | none => rfl
    | some above => exact ih above

theorem height_climb {steps : ℕ} (reached : tree.climb steps node = some above) :
    tree.height above + steps = tree.height node := by
  induction steps generalizing node with
  | zero =>
    rw [climb_zero, some_inj] at reached
    rw [reached, Nat.add_zero]
  | succ steps ih =>
    rw [climb_succ, bind_eq_some_iff] at reached
    obtain ⟨parent, isParent, rest⟩ := reached
    rw [tree.height_of_parent isParent, ← ih rest]
    omega

theorem exists_parent (high : 0 < tree.height node) :
    ∃ above, tree.parent node = some above := by
  cases isParent : tree.parent node with
  | none => exact absurd (tree.height_of_root isParent) (by omega)
  | some above => exact ⟨above, rfl⟩

theorem exists_climb {steps : ℕ} (enough : steps ≤ tree.height node) :
    ∃ above, tree.climb steps node = some above := by
  induction steps generalizing node with
  | zero => exact ⟨node, rfl⟩
  | succ steps ih =>
    obtain ⟨parent, isParent⟩ := tree.exists_parent (by omega : 0 < tree.height node)
    have parentHeight := tree.height_of_parent isParent
    obtain ⟨above, reached⟩ := ih (by omega : steps ≤ tree.height parent)
    exact ⟨above, by rw [climb_succ, isParent]; exact reached⟩

theorem ancestorAt_of_le (le : height ≤ tree.height node) :
    tree.ancestorAt height node = tree.climb (tree.height node - height) node :=
  if_pos le

theorem le_of_ancestorAt
    (found : tree.ancestorAt height node = some above) : height ≤ tree.height node := by
  by_contra low
  rw [ancestorAt, if_neg low] at found
  exact absurd found (by simp)

@[simp] theorem height_of_ancestorAt
    (found : tree.ancestorAt height node = some above) : tree.height above = height := by
  have le := tree.le_of_ancestorAt found
  rw [tree.ancestorAt_of_le le] at found
  have heights := tree.height_climb found
  omega

theorem exists_ancestorAt (le : height ≤ tree.height node) :
    ∃ above, tree.ancestorAt height node = some above := by
  rw [tree.ancestorAt_of_le le]
  exact tree.exists_climb (by omega)

@[simp] theorem ancestorAt_height (node : Node) :
    tree.ancestorAt (tree.height node) node = some node := by
  rw [tree.ancestorAt_of_le (Nat.le_refl _), Nat.sub_self, climb_zero]

variable {low high : ℕ}

/-- The ancestors of an ancestor are the ancestors of the node. -/
theorem ancestorAt_of_ancestorAt
    (found : tree.ancestorAt high node = some above) (le : low ≤ high) :
    tree.ancestorAt low above = tree.ancestorAt low node := by
  have highLe := tree.le_of_ancestorAt found
  have aboveHeight := tree.height_of_ancestorAt found
  rw [tree.ancestorAt_of_le highLe] at found
  rw [tree.ancestorAt_of_le (by omega), tree.ancestorAt_of_le (by omega), aboveHeight]
  have split : tree.height node - low = (tree.height node - high) + (high - low) := by omega
  rw [split, climb_add, found, bind_some]

theorem parent_of_ancestorAt (found : tree.ancestorAt (height + 1) node = some above) :
    tree.parent above = tree.ancestorAt height node := by
  have aboveHeight := tree.height_of_ancestorAt found
  rw [← tree.ancestorAt_of_ancestorAt found (Nat.le_succ height),
    tree.ancestorAt_of_le (by omega), aboveHeight, Nat.add_sub_cancel_left, climb_succ]
  cases tree.parent above <;> rfl

theorem ancestorAt_of_parent
    (isParent : tree.parent node = some above) (le : height ≤ tree.height above) :
    tree.ancestorAt height node = tree.ancestorAt height above := by
  have nodeHeight := tree.height_of_parent isParent
  have step : tree.ancestorAt (tree.height above) node = some above := by
    rw [tree.ancestorAt_of_le (by omega), nodeHeight, Nat.add_sub_cancel_left, climb_succ, isParent]
    rfl
  exact (tree.ancestorAt_of_ancestorAt step le).symm

theorem ancestorAt_zero (first second : Node) :
    tree.ancestorAt 0 first = tree.ancestorAt 0 second := by
  obtain ⟨root, found⟩ := tree.exists_ancestorAt (Nat.zero_le (tree.height first))
  obtain ⟨root', found'⟩ := tree.exists_ancestorAt (Nat.zero_le (tree.height second))
  have noParent : ∀ {node : Node}, tree.height node = 0 → tree.parent node = none := by
    intro node low
    cases isParent : tree.parent node with
    | none => rfl
    | some above =>
      have high := tree.height_of_parent isParent
      omega
  rw [found, found', tree.root_unique (noParent (tree.height_of_ancestorAt found))
    (noParent (tree.height_of_ancestorAt found'))]

/-! ## Ancestors and last common ancestors -/

theorem isAncestor_of_ancestorAt
    (found : tree.ancestorAt height node = some above) : tree.IsAncestor above node := by
  rw [IsAncestor, tree.height_of_ancestorAt found, found]

namespace IsAncestor

variable {tree}

@[refl] theorem refl (node : Node) : tree.IsAncestor node node := tree.ancestorAt_height node

theorem height_le (anc : tree.IsAncestor above node) :
    tree.height above ≤ tree.height node :=
  tree.le_of_ancestorAt anc

theorem ancestorAt_eq (anc : tree.IsAncestor above node) (le : height ≤ tree.height above) :
    tree.ancestorAt height above = tree.ancestorAt height node :=
  tree.ancestorAt_of_ancestorAt anc le

theorem trans {first second third : Node} (lower : tree.IsAncestor first second)
    (upper : tree.IsAncestor second third) : tree.IsAncestor first third := by
  rw [IsAncestor, ← upper.ancestorAt_eq lower.height_le]
  exact lower

variable {first second : Node}

theorem of_height_le (lower : tree.IsAncestor first node)
    (upper : tree.IsAncestor second node) (le : tree.height first ≤ tree.height second) :
    tree.IsAncestor first second := by
  rw [IsAncestor, upper.ancestorAt_eq le]
  exact lower

theorem eq_of_height_eq (lower : tree.IsAncestor first node)
    (upper : tree.IsAncestor second node) (equal : tree.height first = tree.height second) :
    first = second := by
  rw [IsAncestor, equal] at lower
  exact Option.some_inj.mp (lower.symm.trans upper)

end IsAncestor

theorem isAncestor_parent (isParent : tree.parent node = some above) :
    tree.IsAncestor above node := by
  rw [IsAncestor, tree.ancestorAt_of_parent isParent (Nat.le_refl _)]
  exact tree.ancestorAt_height above

namespace IsLastCommon

variable {tree} {common first second first' second' : Node}

theorem self (node : Node) : tree.IsLastCommon node node node where
  left := .refl node
  right := .refl node
  last _ anc _ := anc

theorem symm (isLast : tree.IsLastCommon common first second) :
    tree.IsLastCommon common second first where
  left := isLast.right
  right := isLast.left
  last other ofSecond ofFirst := isLast.last other ofFirst ofSecond

theorem of_rewind {rewound : Node}
    (found : tree.ancestorAt (tree.height second) first = some rewound)
    (isLast : tree.IsLastCommon common rewound second) : tree.IsLastCommon common first second where
  left := isLast.left.trans (tree.isAncestor_of_ancestorAt found)
  right := isLast.right
  last other ofFirst ofSecond := by
    refine isLast.last other ?_ ofSecond
    refine ofFirst.of_height_le (tree.isAncestor_of_ancestorAt found) ?_
    rw [tree.height_of_ancestorAt found]
    exact ofSecond.height_le

/-- If the ancestors of two nodes at one height differ, the last common
ancestor is that of these ancestors. -/
theorem of_ancestors (foundFirst : tree.ancestorAt height first = some first')
    (foundSecond : tree.ancestorAt height second = some second') (differ : first' ≠ second')
    (isLast : tree.IsLastCommon common first' second') : tree.IsLastCommon common first second where
  left := isLast.left.trans (tree.isAncestor_of_ancestorAt foundFirst)
  right := isLast.right.trans (tree.isAncestor_of_ancestorAt foundSecond)
  last other ofFirst ofSecond := by
    -- A common ancestor at or above `height` would make the two ancestors equal.
    have low : tree.height other ≤ height := by
      by_contra high
      have equal := (ofFirst.ancestorAt_eq (by omega : height ≤ tree.height other)).symm.trans
        (ofSecond.ancestorAt_eq (by omega))
      rw [foundFirst, foundSecond, some_inj] at equal
      exact differ equal
    refine isLast.last other ?_ ?_
    · refine ofFirst.of_height_le (tree.isAncestor_of_ancestorAt foundFirst) ?_
      rwa [tree.height_of_ancestorAt foundFirst]
    · refine ofSecond.of_height_le (tree.isAncestor_of_ancestorAt foundSecond) ?_
      rwa [tree.height_of_ancestorAt foundSecond]

theorem of_parents (parentFirst : tree.parent first = some first')
    (parentSecond : tree.parent second = some second')
    (equal : tree.height first = tree.height second) (differ : first ≠ second)
    (isLast : tree.IsLastCommon common first' second') : tree.IsLastCommon common first second where
  left := isLast.left.trans (tree.isAncestor_parent parentFirst)
  right := isLast.right.trans (tree.isAncestor_parent parentSecond)
  last other ofFirst ofSecond := by
    have heightFirst := tree.height_of_parent parentFirst
    have heightSecond := tree.height_of_parent parentSecond
    have below : tree.height other < tree.height first := by
      refine Nat.lt_of_le_of_ne ofFirst.height_le fun top => differ ?_
      rw [← ofFirst.eq_of_height_eq (.refl first) top,
        ← ofSecond.eq_of_height_eq (.refl second) (top.trans equal)]
    refine isLast.last other ?_ ?_
    · exact ofFirst.of_height_le (tree.isAncestor_parent parentFirst) (by omega)
    · exact ofSecond.of_height_le (tree.isAncestor_parent parentSecond) (by omega)

end IsLastCommon

/-! ## Segments -/

/-- The ancestors of a node above one height and up to another, lowest first. -/
def segment (low high : ℕ) (node : Node) : List Node :=
  (range' (low + 1) (high - low)).filterMap fun height => tree.ancestorAt height node

@[simp] theorem segment_self (height : ℕ) (node : Node) : tree.segment height height node = [] := by
  simp [segment]

theorem segment_append {middle : ℕ} (lower : low ≤ middle) (upper : middle ≤ high) (node : Node) :
    tree.segment low middle node ++ tree.segment middle high node = tree.segment low high node := by
  have parts : range' (low + 1) (middle - low) ++ range' (middle + 1) (high - middle) =
      range' (low + 1) (high - low) := by
    have joined := @List.range'_append_1 (low + 1) (middle - low) (high - middle)
    rwa [show low + 1 + (middle - low) = middle + 1 by omega,
      show middle - low + (high - middle) = high - low by omega] at joined
  rw [segment, segment, segment, ← parts, filterMap_append]

theorem segment_succ (le : low ≤ high) (found : tree.ancestorAt (high + 1) node = some above) :
    tree.segment low (high + 1) node = tree.segment low high node ++ [above] := by
  rw [← tree.segment_append le (Nat.le_succ high)]
  congr 1
  simp [segment, found]

theorem mem_segment {block : Node} : block ∈ tree.segment low high node ↔
      tree.IsAncestor block node ∧ low < tree.height block ∧ tree.height block ≤ high := by
  rw [segment, mem_filterMap]
  constructor
  · rintro ⟨height, inRange, found⟩
    have blockHeight := tree.height_of_ancestorAt found
    rw [mem_range'_1] at inRange
    exact ⟨tree.isAncestor_of_ancestorAt found, by omega, by omega⟩
  · rintro ⟨anc, above, below⟩
    exact ⟨tree.height block, mem_range'_1.mpr (by omega), anc⟩

theorem segment_pairwise (low high : ℕ) (node : Node) :
    (tree.segment low high node).Pairwise fun lower upper =>
      tree.height lower < tree.height upper := by
  rw [segment, pairwise_filterMap]
  refine (pairwise_lt_range' (s := low + 1)).imp ?_
  intro first second less lower foundLower upper foundUpper
  rwa [tree.height_of_ancestorAt foundLower, tree.height_of_ancestorAt foundUpper]

end ParentTree
