import Mathlib

/-!
# Sorted views of a collection

A collection that is indexed by keys is seen through lists that are sorted by the
keys. The order of elements with equal keys is left open: it may depend on the
history of the collection.

Code that finds an element by its neighbours in a sorted view relies on what lies
between them: every other element is bounded by one of the two neighbours
(`neighbour_bounds`). Code that walks from a lower bound on, as long as a condition
holds, visits all elements of the condition (`takeWhile_from_eq_filter`).
-/

/-- A sorted list of the elements of a collection, for every history. -/
structure SortedView {α K : Type*} [LinearOrder K] (key : α → K) where
  view : ℕ → List α → List α
  perm : ∀ hist elems, (view hist elems).Perm elems
  sorted : ∀ hist elems, (view hist elems).Pairwise fun a b => key a ≤ key b

namespace SortedView

open List

variable {α K : Type*} [LinearOrder K]

def ofInsertion (key : α → K) : SortedView key where
  view _ elems := elems.insertionSort fun a b => key a ≤ key b
  perm _ elems := perm_insertionSort _ elems
  sorted _ elems := by
    have : Std.Total fun a b : α => key a ≤ key b := ⟨fun a b => le_total (key a) (key b)⟩
    have : IsTrans α fun a b => key a ≤ key b := ⟨fun _ _ _ => le_trans⟩
    exact pairwise_insertionSort _ elems

variable {key : α → K} (sortedView : SortedView key)

theorem mem_view {hist : ℕ} {elems : List α} {elem : α} :
    elem ∈ sortedView.view hist elems ↔ elem ∈ elems :=
  (sortedView.perm hist elems).mem_iff

theorem nodup_view {hist : ℕ} {elems : List α}
    (nodup : elems.Nodup) : (sortedView.view hist elems).Nodup :=
  (sortedView.perm hist elems).nodup_iff.mpr nodup

theorem view_eq_of_perm (hist : ℕ) {elems increasing : List α}
    (perm : elems.Perm increasing) (strict : increasing.Pairwise fun a b => key a < key b) :
    sortedView.view hist elems = increasing := by
  have distinct : (increasing.map key).Nodup := pairwise_map.mpr (strict.imp ne_of_lt)
  have perm' := (sortedView.perm hist elems).trans perm
  refine List.Perm.eq_of_pairwise (fun a b mem mem' order order' => ?_)
    (sortedView.sorted hist elems) (strict.imp le_of_lt) perm'
  exact inj_on_of_nodup_map distinct (perm'.mem_iff.mp mem) mem' (le_antisymm order order')

end SortedView

namespace SortedList

variable {α K : Type*} [LinearOrder K] {key : α → K} {elems : List α}

/-! ## The ends -/

theorem head?_le (sorted : elems.Pairwise fun a b => key a ≤ key b) {first elem : α}
    (head : elems.head? = some first) (mem : elem ∈ elems) : key first ≤ key elem := by
  cases elems with
  | nil => cases head
  | cons head' rest =>
    obtain rfl : head' = first := Option.some.inj head
    rcases List.mem_cons.mp mem with rfl | later
    · exact le_rfl
    · exact (List.pairwise_cons.mp sorted).1 elem later

theorem le_getLast? (sorted : elems.Pairwise fun a b => key a ≤ key b) {last elem : α}
    (tail : elems.getLast? = some last) (mem : elem ∈ elems) : key elem ≤ key last := by
  obtain ⟨initial, rfl⟩ := List.getLast?_eq_some_iff.mp tail
  rcases List.mem_append.mp mem with init | here
  · exact (List.pairwise_append.mp sorted).2.2 _ init _ (List.mem_singleton_self last)
  · rw [List.mem_singleton.mp here]

/-! ## Neighbours -/

section

variable [DecidableEq α]

def next : List α → α → Option α
  | [], _ => none
  | first :: rest, elem => if first = elem then rest.head? else next rest elem

def prev (elems : List α) (elem : α) : Option α := next elems.reverse elem

variable {pre after : List α} {elem : α}

theorem next_append (absent : elem ∉ pre) :
    next (pre ++ elem :: after) elem = after.head? := by
  induction pre with
  | nil => rw [List.nil_append, next, if_pos rfl]
  | cons first pre ih =>
    rw [List.mem_cons, not_or] at absent
    rw [List.cons_append, next, if_neg (Ne.symm absent.1), ih absent.2]

theorem prev_append (absent : elem ∉ after) :
    prev (pre ++ elem :: after) elem = pre.getLast? := by
  rw [prev, List.reverse_append, List.reverse_cons, List.append_assoc, List.singleton_append,
    next_append (by rwa [List.mem_reverse]), List.head?_reverse]

omit [DecidableEq α] in
theorem split_of_mem (nodup : elems.Nodup) (mem : elem ∈ elems) :
    ∃ pre after, elems = pre ++ elem :: after ∧ elem ∉ pre ∧ elem ∉ after := by
  obtain ⟨pre, after, rfl⟩ := List.append_of_mem mem
  rw [List.nodup_append, List.nodup_cons] at nodup
  exact ⟨pre, after, rfl, fun init => nodup.2.2 elem init elem List.mem_cons_self rfl,
    nodup.2.1.1⟩

variable (sorted : elems.Pairwise fun a b => key a ≤ key b) (nodup : elems.Nodup)
include sorted nodup

theorem next_spec {neighbour : α} (mem : elem ∈ elems) (found : next elems elem = some neighbour) :
    neighbour ∈ elems ∧ neighbour ≠ elem ∧ key elem ≤ key neighbour := by
  obtain ⟨pre, after, rfl, absent, absent'⟩ := split_of_mem nodup mem
  rw [next_append absent] at found
  have behind : neighbour ∈ after := List.mem_of_mem_head? found
  rw [List.pairwise_append, List.pairwise_cons] at sorted
  refine ⟨List.mem_append_right _ (List.mem_cons_of_mem _ behind), ?_, sorted.2.1.1 _ behind⟩
  rintro rfl
  exact absent' behind

theorem prev_spec {neighbour : α} (mem : elem ∈ elems) (found : prev elems elem = some neighbour) :
    neighbour ∈ elems ∧ neighbour ≠ elem ∧ key neighbour ≤ key elem := by
  obtain ⟨pre, after, rfl, absent, absent'⟩ := split_of_mem nodup mem
  rw [prev_append absent'] at found
  have ahead : neighbour ∈ pre := List.mem_of_mem_getLast? found
  rw [List.pairwise_append] at sorted
  refine ⟨List.mem_append_left _ ahead, ?_, sorted.2.2 _ ahead _ List.mem_cons_self⟩
  rintro rfl
  exact absent ahead

/-- Every other element is bounded by a neighbour. -/
theorem neighbour_bounds {other : α} (mem : elem ∈ elems)
    (mem' : other ∈ elems) (apart : other ≠ elem) :
    (∃ neighbour, prev elems elem = some neighbour ∧ key other ≤ key neighbour) ∨
      ∃ neighbour, next elems elem = some neighbour ∧ key neighbour ≤ key other := by
  obtain ⟨pre, after, rfl, absent, absent'⟩ := split_of_mem nodup mem
  rw [List.pairwise_append, List.pairwise_cons] at sorted
  rw [prev_append absent', next_append absent]
  rcases List.mem_append.mp mem' with ahead | behind
  · left
    have tail := List.getLast?_eq_some_getLast (List.ne_nil_of_mem ahead)
    exact ⟨_, tail, le_getLast? sorted.1 tail ahead⟩
  · right
    have behind' : other ∈ after := (List.mem_cons.mp behind).resolve_left apart
    have head := List.head?_eq_some_head (List.ne_nil_of_mem behind')
    exact ⟨_, head, head?_le sorted.2.1.2 head behind'⟩

end

/-! ## Walking from a bound -/

/-- The elements from the first one on whose key is not below a bound. -/
def fromBound (key : α → K) (bound : K) (elems : List α) : List α :=
  elems.dropWhile fun elem => key elem < bound

variable {cond : α → Bool} {bound : K}

variable (sorted : elems.Pairwise fun a b => key a ≤ key b)
include sorted

theorem takeWhile_eq_filter (closed : ∀ a ∈ elems, ∀ b ∈ elems, key a ≤ key b → cond b → cond a) :
    elems.takeWhile cond = elems.filter cond := by
  induction elems with
  | nil => rfl
  | cons first rest ih =>
    rw [List.pairwise_cons] at sorted
    have rest' := ih sorted.2 fun a mem b mem' =>
      closed a (List.mem_cons_of_mem _ mem) b (List.mem_cons_of_mem _ mem')
    cases holds : cond first with
    | true => rw [List.takeWhile_cons_of_pos holds, List.filter_cons_of_pos holds, rest']
    | false =>
      rw [List.takeWhile_cons_of_neg (by simp [holds]), List.filter_cons_of_neg (by simp [holds]),
        eq_comm, List.filter_eq_nil_iff]
      intro later mem condition'
      rw [closed first List.mem_cons_self later (List.mem_cons_of_mem _ mem)
        (sorted.1 later mem) condition'] at holds
      cases holds

/-- A walk from a bound visits all elements of its condition, if the condition
holds of no element below the bound and of no element behind one that lacks it. -/
theorem takeWhile_from_eq_filter (above : ∀ a ∈ elems, cond a → bound ≤ key a)
    (closed : ∀ a ∈ elems, ∀ b ∈ elems, bound ≤ key a → key a ≤ key b → cond b → cond a) :
    (fromBound key bound elems).takeWhile cond = elems.filter cond := by
  induction elems with
  | nil => rfl
  | cons first rest ih =>
    rw [fromBound, List.dropWhile_cons]
    split
    case isTrue below =>
      have lacks : ¬ cond first = true := fun holds =>
        absurd (above first List.mem_cons_self holds) (not_le.mpr (of_decide_eq_true below))
      rw [List.filter_cons_of_neg lacks]
      exact ih (List.pairwise_cons.mp sorted).2 (fun a mem => above a (List.mem_cons_of_mem _ mem))
        fun a mem b mem' => closed a (List.mem_cons_of_mem _ mem) b (List.mem_cons_of_mem _ mem')
    case isFalse reached =>
      have least : bound ≤ key first := not_lt.mp fun below => reached (decide_eq_true below)
      refine takeWhile_eq_filter sorted fun a mem b mem' order holds =>
        closed a mem b mem' (least.trans ?_) order holds
      rcases List.mem_cons.mp mem with rfl | later
      · exact le_rfl
      · exact (List.pairwise_cons.mp sorted).1 a later

theorem head?_fromBound_spec {elem : α} (mem : elem ∈ elems) (above : bound ≤ key elem) :
    ∃ first, (fromBound key bound elems).head? = some first ∧ first ∈ elems ∧
      bound ≤ key first ∧ key first ≤ key elem := by
  induction elems with
  | nil => cases mem
  | cons first rest ih =>
    rw [fromBound, List.dropWhile_cons]
    rw [List.pairwise_cons] at sorted
    split
    case isTrue below =>
      have later : elem ∈ rest := by
        refine (List.mem_cons.mp mem).resolve_left ?_
        rintro rfl
        exact absurd above (not_le.mpr (of_decide_eq_true below))
      obtain ⟨found, head, mem', bounds⟩ := ih sorted.2 later
      exact ⟨found, head, List.mem_cons_of_mem _ mem', bounds⟩
    case isFalse reached =>
      refine ⟨first, rfl, List.mem_cons_self,
        not_lt.mp fun below => reached (decide_eq_true below), ?_⟩
      rcases List.mem_cons.mp mem with rfl | later
      · exact le_rfl
      · exact sorted.1 elem later

end SortedList
