import Mathlib

/-!
# Singly linked nodes

Nodes that are linked by a pointer from each to the next, up to a node where the list
stops (`Linked`). Following the pointers visits the nodes in order (`follow_eq`), and a
list is linked in the same way after the pointers of other nodes have changed
(`Linked.congr`).
-/

namespace LinkedNodes

variable {Node : Type*}

/-- Every node points to the next one, and the last one to the node where the list stops. -/
def Linked (next : Node → Node) : List Node → Node → Prop
  | [], _ => True
  | node :: rest, stop => next node = rest.headD stop ∧ Linked next rest stop

def follow [DecidableEq Node] (next : Node → Node) (stop : Node) : ℕ → Node → Option (List Node)
  | 0, _ => none
  | fuel + 1, node =>
    if node = stop then some []
    else (follow next stop fuel (next node)).map (node :: ·)

variable {next next' : Node → Node} {front back nodes : List Node} {stop : Node}

theorem linked_append : Linked next (front ++ back) stop ↔
      Linked next front (back.headD stop) ∧ Linked next back stop := by
  induction front with
  | nil => simp [Linked]
  | cons node front ih =>
    rw [List.cons_append, Linked, Linked, ih, and_assoc]
    refine and_congr ?_ Iff.rfl
    cases front <;> rfl

/-- A linked list is not concerned by the pointers of other nodes. -/
theorem Linked.congr (linked : Linked next nodes stop)
    (same : ∀ node ∈ nodes, next' node = next node) : Linked next' nodes stop := by
  induction nodes with
  | nil => trivial
  | cons node nodes ih =>
    obtain ⟨node_same, same⟩ := List.forall_mem_cons.mp same
    exact ⟨node_same.trans linked.1, ih linked.2 same⟩

/-- Following the pointers visits the linked nodes in order. -/
theorem follow_eq [DecidableEq Node] (linked : Linked next nodes stop) (fresh : stop ∉ nodes)
    {fuel : ℕ} (enough : nodes.length < fuel) :
    follow next stop fuel (nodes.headD stop) = some nodes := by
  induction nodes generalizing fuel with
  | nil =>
    obtain ⟨fuel, rfl⟩ := Nat.exists_eq_add_of_lt enough
    simp [follow]
  | cons node nodes ih =>
    obtain ⟨fuel, rfl⟩ := Nat.exists_eq_succ_of_ne_zero (Nat.ne_zero_of_lt enough)
    rw [List.mem_cons, not_or] at fresh
    rw [List.headD_cons, follow, if_neg (Ne.symm fresh.1), linked.1,
      ih linked.2 fresh.2 (Nat.lt_of_succ_lt_succ enough)]
    rfl

end LinkedNodes
