import Mathlib

/-!
# One queue kept in parts

A queue holds keys, each with an owner. Some programs keep such a queue next to
a queue for every owner. The owners' queues are redundant: `IsSplit` says that
each is the part of the whole that belongs to its owner. Adding, removing and
dropping all of an owner's keys keeps the parts in step (`IsSplit.push`,
`IsSplit.remove`, `IsSplit.drop`), and `busy` counts the owners whose queue is
not empty.
-/

namespace SplitQueue

open Function List

variable {Owner Key : Type*} [DecidableEq Owner]
  {queues : Owner → List Key} {owners : Finset Owner} {owner : Owner}

/-! ## Parts -/

def part (queue : List (Owner × Key)) (owner : Owner) : List Key :=
  (queue.filter (·.1 = owner)).map Prod.snd

theorem part_append (first second : List (Owner × Key)) (owner : Owner) :
    part (first ++ second) owner = part first owner ++ part second owner := by
  simp [part]

theorem mem_part {queue : List (Owner × Key)} {key : Key} :
    key ∈ part queue owner ↔ (owner, key) ∈ queue := by
  simp [part]

theorem part_sublist (queue : List (Owner × Key)) (owner : Owner) :
    (part queue owner).Sublist (queue.map Prod.snd) :=
  filter_sublist.map _

theorem part_filter (queue : List (Owner × Key)) (keep : Key → Bool) (owner : Owner) :
    part (queue.filter fun entry => keep entry.2) owner = (part queue owner).filter keep := by
  simp only [part, filter_filter, filter_map]
  congr 1
  apply filter_congr
  intro entry _
  simp [Bool.and_comm]

theorem part_filter_owner (queue : List (Owner × Key)) (dropped owner : Owner) :
    part (queue.filter (·.1 ≠ dropped)) owner =
      if owner = dropped then [] else part queue owner := by
  simp only [part, filter_filter]
  split_ifs with same
  · subst same
    simp
  · congr 1
    apply filter_congr
    intro entry _
    by_cases isOwner : entry.1 = owner
    · simp [isOwner, same]
    · simp [isOwner]

theorem foldl_filter {Member Condition : Type*} (holds : Condition → Member → Bool)
    (conditions : List Condition) (members : List Member) :
    conditions.foldl (fun members cond => members.filter (holds cond)) members =
      members.filter fun mem => conditions.all fun cond => holds cond mem := by
  induction conditions generalizing members with
  | nil => simp
  | cons cond rest ih =>
    rw [foldl_cons, ih, filter_filter]
    apply filter_congr
    intro mem _
    simp [Bool.and_comm]

/-- Where no two members have the same tag, removing the first member with a tag
removes all members with it. -/
theorem eraseP_eq_filter {Member Tag : Type*} [DecidableEq Tag] {tag : Member → Tag}
    {members : List Member} (nodup : (members.map tag).Nodup) (removed : Tag) :
    members.eraseP (fun mem => tag mem = removed) =
      members.filter fun mem => tag mem ≠ removed := by
  induction members with
  | nil => rfl
  | cons head rest ih =>
    rw [map_cons, nodup_cons] at nodup
    by_cases isRemoved : tag head = removed
    · rw [eraseP_cons_of_pos (by simpa using isRemoved),
        filter_cons_of_neg (by simpa using isRemoved), eq_comm, filter_eq_self]
      intro other mem
      simp only [ne_eq, decide_not, Bool.not_eq_eq_eq_not, Bool.not_true, decide_eq_false_iff_not]
      rintro rfl
      exact nodup.1 (isRemoved ▸ mem_map_of_mem mem)
    · rw [eraseP_cons_of_neg (by simpa using isRemoved),
        filter_cons_of_pos (by simpa using isRemoved), ih nodup.2]

/-! ## Queues that are the parts of a whole -/

def IsSplit (queue : List (Owner × Key)) (queues : Owner → List Key) : Prop :=
  ∀ owner, queues owner = part queue owner

section

variable {queue : List (Owner × Key)} (split : IsSplit queue queues)
include split

theorem IsSplit.mem_iff {key : Key} : key ∈ queues owner ↔ (owner, key) ∈ queue := by
  rw [split owner, mem_part]

theorem IsSplit.push (owner : Owner) (key : Key) : IsSplit (queue ++ [(owner, key)])
      (update queues owner (queues owner ++ [key])) := by
  intro other
  rw [part_append, ← split other]
  by_cases same : other = owner
  · subst same
    simp [part]
  · simp [part, update_of_ne same, Ne.symm same]

theorem IsSplit.remove (owner : Owner) (keep : Key → Bool)
    (owned : ∀ entry ∈ queue, keep entry.2 = false → entry.1 = owner) :
    IsSplit (queue.filter fun entry => keep entry.2)
      (update queues owner ((queues owner).filter keep)) := by
  intro other
  rw [part_filter, ← split other]
  by_cases same : other = owner
  · subst same
    simp
  · rw [update_of_ne same, eq_comm, filter_eq_self]
    intro key mem
    have inQueue := split.mem_iff.mp mem
    by_contra removed
    exact same (owned _ inQueue (by simpa using removed))

theorem IsSplit.drop (owner : Owner) :
    IsSplit (queue.filter (·.1 ≠ owner)) (update queues owner []) := by
  intro other
  rw [part_filter_owner, update_apply, split other]

end

/-! ## Busy owners -/

def busy (owners : Finset Owner) (queues : Owner → List Key) : ℕ :=
  (owners.filter fun owner => (queues owner).isEmpty = false).card

def load (queue : List Key) : ℕ := if queue.isEmpty then 0 else 1

theorem busy_eq_erase_add (mem : owner ∈ owners) (queues : Owner → List Key) :
    busy owners queues = busy (owners.erase owner) queues + load (queues owner) := by
  conv_lhs => rw [busy, ← Finset.insert_erase mem, Finset.filter_insert]
  cases isEmpty : (queues owner).isEmpty with
  | true => simp [busy, load, isEmpty]
  | false =>
    rw [if_pos rfl, Finset.card_insert_of_notMem (by simp)]
    simp [busy, load, isEmpty]

omit [DecidableEq Owner] in
theorem busy_congr {queues' : Owner → List Key}
    (same : ∀ owner ∈ owners, queues owner = queues' owner) :
    busy owners queues = busy owners queues' := by
  rw [busy, busy, Finset.filter_congr fun owner mem => by rw [same owner mem]]

/-- Changing one owner's queue changes the number of busy owners by the change
of its load. -/
theorem busy_update (mem : owner ∈ owners) (queues : Owner → List Key) (queue : List Key) :
    busy owners (update queues owner queue) + load (queues owner) =
      busy owners queues + load queue := by
  have others : busy (owners.erase owner) (update queues owner queue) =
      busy (owners.erase owner) queues :=
    busy_congr fun other inside => update_of_ne (Finset.ne_of_mem_erase inside) _ _
  rw [busy_eq_erase_add mem, others, update_self, busy_eq_erase_add mem queues]
  omega

theorem busy_insert_idle (absent : owner ∉ owners) (idle : queues owner = []) :
    busy (insert owner owners) queues = busy owners queues := by
  rw [busy_eq_erase_add (Finset.mem_insert_self owner owners), Finset.erase_insert absent, idle]
  rfl

end SplitQueue
