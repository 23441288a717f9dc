import Mathlib

/-!
# Sets kept in order by a comparison

A set that is ordered by a comparison is a list in increasing order. The comparison may
depend on data outside the elements, so it need be an order only among the elements that
can be met (`StrictTotalOn`). Inserting a new element among these keeps the list increasing
(`pairwise_insert`) and adds exactly that element (`perm_insert`).
-/

/-- A relation that is a strict total order among the members of a set. -/
structure StrictTotalOn {α : Type*} (less : α → α → Prop) (members : Set α) : Prop where
  irrefl : ∀ a ∈ members, ¬ less a a
  trans : ∀ a ∈ members, ∀ b ∈ members, ∀ c ∈ members, less a b → less b c → less a c
  total : ∀ a ∈ members, ∀ b ∈ members, a ≠ b → less a b ∨ less b a

namespace OrderedSet

open List

variable {α : Type*} {less less' : α → α → Bool} {new : α} {elems : List α}

/-- Insert an element at its place, unless an equivalent one is there. -/
def insert (less : α → α → Bool) (new : α) : List α → List α
  | [] => [new]
  | first :: rest =>
    if less first new then first :: insert less new rest
    else if less new first then new :: first :: rest
    else first :: rest

def insertAll (less : α → α → Bool) (news elems : List α) : List α :=
  news.foldl (fun elems new => insert less new elems) elems

theorem mem_of_mem_insert {elem : α} (mem : elem ∈ insert less new elems) :
    elem = new ∨ elem ∈ elems := by
  induction elems with
  | nil => exact Or.inl (mem_singleton.mp mem)
  | cons first rest ih =>
    rw [insert] at mem
    split at mem
    · rcases mem_cons.mp mem with rfl | later
      · exact Or.inr mem_cons_self
      · exact (ih later).imp_right (mem_cons_of_mem first)
    · split at mem
      · exact mem_cons.mp mem
      · exact Or.inr mem

theorem insert_congr (same : ∀ other ∈ elems, less other new = less' other new ∧
    less new other = less' new other) : insert less new elems = insert less' new elems := by
  induction elems with
  | nil => rfl
  | cons first rest ih =>
    obtain ⟨⟨left, right⟩, others⟩ := forall_mem_cons.mp same
    rw [insert, insert, left, right, ih others]

theorem perm_insert (comparable : ∀ other ∈ elems, less other new ∨ less new other) :
    (insert less new elems).Perm (new :: elems) := by
  induction elems with
  | nil => exact Perm.refl _
  | cons first rest ih =>
    obtain ⟨here, others⟩ := forall_mem_cons.mp comparable
    rw [insert]
    split
    case isTrue => exact ((ih others).cons first).trans (Perm.swap new first rest)
    case isFalse notAfter =>
      rw [if_pos (here.resolve_left notAfter)]

theorem pairwise_insert (trans : ∀ a ∈ new :: elems, ∀ b ∈ new :: elems, ∀ c ∈ new :: elems,
      less a b → less b c → less a c)
    (comparable : ∀ other ∈ elems, less other new ∨ less new other)
    (sorted : elems.Pairwise fun a b => less a b = true) :
    (insert less new elems).Pairwise fun a b => less a b = true := by
  induction elems with
  | nil => exact pairwise_singleton _ _
  | cons first rest ih =>
    obtain ⟨here, others⟩ := forall_mem_cons.mp comparable
    obtain ⟨first_least, rest_sorted⟩ := pairwise_cons.mp sorted
    have sub : ∀ a ∈ new :: rest, a ∈ new :: first :: rest := by
      intro a mem
      rcases mem_cons.mp mem with rfl | later
      · exact mem_cons_self
      · exact mem_cons_of_mem _ (mem_cons_of_mem _ later)
    rw [insert]
    split
    case isTrue after =>
      have inserted := ih (fun a a_mem b b_mem c c_mem =>
        trans a (sub a a_mem) b (sub b b_mem) c (sub c c_mem)) others rest_sorted
      refine pairwise_cons.mpr ⟨fun other mem => ?_, inserted⟩
      rcases mem_cons.mp ((perm_insert others).mem_iff.mp mem) with rfl | later
      · exact after
      · exact first_least other later
    case isFalse notAfter =>
      have pre := here.resolve_left notAfter
      rw [if_pos pre]
      refine pairwise_cons.mpr ⟨fun other mem => ?_, sorted⟩
      rcases mem_cons.mp mem with rfl | later
      · exact pre
      · exact trans new mem_cons_self first (mem_cons_of_mem _ mem_cons_self) other
          (mem_cons_of_mem _ mem) pre (first_least other later)

/-- New elements are added in order, where the comparison looks at a key of the
elements and is an order among the keys. -/
theorem insertAll_spec {κ : Type*} {key : α → κ} {keyLess : κ → κ → Prop} {members : Set κ}
    {news : List α} (order : StrictTotalOn keyLess members)
    (less_iff : ∀ a b, less a b ↔ keyLess (key a) (key b)) (nodup : ((elems ++ news).map key).Nodup)
    (isIn : ∀ elem ∈ elems ++ news, key elem ∈ members)
    (sorted : elems.Pairwise fun a b => less a b = true) :
    (insertAll less news elems).Perm (elems ++ news) ∧
      (insertAll less news elems).Pairwise fun a b => less a b = true := by
  induction news generalizing elems with
  | nil => exact ⟨(append_nil elems).symm ▸ Perm.refl _, sorted⟩
  | cons new news ih =>
    have new_mem : key new ∈ members := isIn new (by simp)
    have apart : ∀ other ∈ elems, key other ≠ key new := by
      intro other mem
      rw [map_append, nodup_append] at nodup
      exact nodup.2.2 (key other) (mem_map_of_mem mem) (key new) (by simp)
    have comparable : ∀ other ∈ elems, less other new ∨ less new other := by
      intro other mem
      rw [less_iff, less_iff]
      exact order.total (key other) (isIn other (mem_append_left _ mem)) (key new) new_mem
        (apart other mem)
    have members_of : ∀ a ∈ new :: elems, key a ∈ members := by
      intro a mem
      rcases mem_cons.mp mem with rfl | old
      · exact new_mem
      · exact isIn a (mem_append_left _ old)
    have added : (insert less new elems).Perm (new :: elems) := perm_insert comparable
    have moved : (insert less new elems ++ news).Perm (elems ++ new :: news) :=
      (added.append_right news).trans perm_middle.symm
    have increasing : (insert less new elems).Pairwise fun a b => less a b = true := by
      refine pairwise_insert (fun a a_mem b b_mem c c_mem ab bc => ?_) comparable sorted
      rw [less_iff] at ab bc ⊢
      exact order.trans (key a) (members_of a a_mem) (key b) (members_of b b_mem) (key c)
        (members_of c c_mem) ab bc
    obtain ⟨perm, pairwise⟩ := ih ((moved.map key).nodup_iff.mpr nodup)
      (fun elem mem => isIn elem (moved.mem_iff.mp mem)) increasing
    exact ⟨perm.trans moved, pairwise⟩

end OrderedSet
