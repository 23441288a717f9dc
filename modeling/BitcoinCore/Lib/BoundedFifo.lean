import Mathlib

/-!
# Bounded first-in-first-out queues

A queue of distinct keys has a capacity. A key enters at the end, and the oldest
keys are dropped when the capacity is exceeded; a key may also leave from
anywhere in the queue.

Which keys are dropped is decided by what happens behind them. A key stays for
as long as it does not leave and fewer keys than the capacity that entered after
it are inside at the same time (`stays_iff`).
-/

namespace BoundedFifo

open List

variable {Key : Type*} [DecidableEq Key] {queue : List Key} {cap : ℕ} {key : Key}

/-! ## Queues -/

inductive Event (Key : Type*) where
  | enter (key : Key)
  | leave (key : Key)

def trim (cap : ℕ) (queue : List Key) : List Key :=
  queue.drop (queue.length - cap)

def step (cap : ℕ) (queue : List Key) : Event Key → List Key
  | .enter key => if key ∈ queue then queue else trim cap (queue ++ [key])
  | .leave key => queue.filter fun other => other ≠ key

def run (cap : ℕ) (queue : List Key) (events : List (Event Key)) : List Key :=
  events.foldl (step cap) queue

/-- The keys that have entered, and not left, since the set of them was
`inside`. -/
def entered (cap : ℕ) : List Key → List (Event Key) → Finset Key → Finset Key
  | _, [], inside => inside
  | queue, .enter key :: rest, inside =>
    entered cap (step cap queue (.enter key)) rest
      (if key ∈ queue then inside else insert key inside)
  | queue, .leave key :: rest, inside =>
    entered cap (step cap queue (.leave key)) rest (inside.erase key)

structure IsBounded (cap : ℕ) (queue : List Key) : Prop where
  distinct : queue.Nodup
  bounded : queue.length ≤ cap

omit [DecidableEq Key] in
theorem length_trim_le (cap : ℕ) (queue : List Key) : (trim cap queue).length ≤ cap := by
  rw [trim, length_drop]
  omega

omit [DecidableEq Key] in
theorem trim_sublist (cap : ℕ) (queue : List Key) : (trim cap queue).Sublist queue :=
  drop_sublist _ _

theorem mem_of_mem_enter {other : Key}
    (inside : other ∈ step cap queue (.enter key)) : other = key ∨ other ∈ queue := by
  rw [step] at inside
  split_ifs at inside
  · exact .inr inside
  · have mem := (trim_sublist _ _).subset inside
    rwa [mem_append, mem_singleton, or_comm] at mem

theorem IsBounded.step (isBounded : IsBounded cap queue)
    (event : Event Key) : IsBounded cap (step cap queue event) := by
  cases event with
  | enter key =>
    rw [BoundedFifo.step]
    split_ifs with inside
    · exact isBounded
    · refine ⟨Nodup.sublist (trim_sublist _ _) ?_, length_trim_le _ _⟩
      rw [← concat_eq_append]
      exact isBounded.distinct.concat inside
  | leave key =>
    exact ⟨isBounded.distinct.filter _, (length_filter_le _ _).trans isBounded.bounded⟩

/-! ## What a key has behind it -/

/-- The keys behind a key are those that entered after it. -/
structure IsBehind (cap : ℕ) (queue : List Key) (key : Key) (inside : Finset Key) : Prop where
  isBounded : IsBounded cap queue
  split : ∃ front back, queue = front ++ key :: back ∧ back.toFinset = inside

variable {inside : Finset Key}

theorem IsBehind.mem (behind : IsBehind cap queue key inside) : key ∈ queue := by
  obtain ⟨front, back, rfl, -⟩ := behind.split
  simp

theorem IsBehind.card_lt (behind : IsBehind cap queue key inside) : inside.card < cap := by
  obtain ⟨⟨-, bounded⟩, front, back, rfl, rfl⟩ := behind
  rw [length_append, length_cons] at bounded
  have few := back.toFinset_card_le
  omega

theorem IsBounded.isBehind_enter
    (isBounded : IsBounded cap queue) (pos : 0 < cap) (absent : key ∉ queue) :
    IsBehind cap (BoundedFifo.step cap queue (.enter key)) key ∅ := by
  refine ⟨isBounded.step _, queue.drop ((queue ++ [key]).length - cap), [], ?_, rfl⟩
  have bounded := isBounded.bounded
  rw [BoundedFifo.step, if_neg absent, trim, drop_append_of_le_length]
  rw [length_append, length_singleton]
  omega

theorem IsBounded.mem_enter (isBounded : IsBounded cap queue)
    (pos : 0 < cap) (key : Key) : key ∈ BoundedFifo.step cap queue (.enter key) := by
  by_cases known : key ∈ queue
  · rwa [BoundedFifo.step, if_pos known]
  · exact (isBounded.isBehind_enter pos known).mem

theorem IsBehind.enter {new : Key} (behind : IsBehind cap queue key inside) (absent : new ∉ queue) :
    (IsBehind cap (step cap queue (.enter new)) key (insert new inside)) ∨
      (key ∉ step cap queue (.enter new) ∧ cap ≤ (insert new inside).card) := by
  have isBounded := behind.isBounded.step (.enter new)
  obtain ⟨⟨distinct, bounded⟩, front, back, rfl, rfl⟩ := behind
  have whole : step cap (front ++ key :: back) (.enter new) =
      trim cap (front ++ key :: (back ++ [new])) := by
    rw [step, if_neg absent, append_assoc, cons_append]
  have card : (insert new back.toFinset).card = back.length + 1 := by
    rw [Finset.card_insert_of_notMem (by simp at absent ⊢; tauto), toFinset_card_of_nodup]
    exact (nodup_cons.mp (nodup_append.mp distinct).2.1).2
  rw [whole] at isBounded ⊢
  rw [trim] at isBounded ⊢
  by_cases fits : (front ++ key :: (back ++ [new])).length - cap ≤ front.length
  · left
    rw [drop_append_of_le_length fits] at isBounded ⊢
    exact ⟨isBounded, _, back ++ [new], rfl, by ext other; simp⟩
  · right
    have dropped : (front ++ key :: (back ++ [new])).drop
        ((front ++ key :: (back ++ [new])).length - cap) ⊆ back ++ [new] := by
      rw [append_cons, drop_append, drop_eq_nil_of_le (by simp at fits ⊢; omega)]
      exact drop_subset _ _
    constructor
    · intro mem
      have isBack := dropped mem
      simp only [mem_append, mem_singleton] at isBack
      rcases isBack with inBack | rfl
      · exact (nodup_cons.mp (nodup_append.mp distinct).2.1).1 inBack
      · simp at absent
    · simp only [length_append, length_cons, length_nil] at bounded fits
      omega

theorem IsBehind.leave {gone : Key} (behind : IsBehind cap queue key inside) (other : gone ≠ key) :
    IsBehind cap (step cap queue (.leave gone)) key (inside.erase gone) := by
  refine ⟨behind.isBounded.step _, ?_⟩
  obtain ⟨-, front, back, rfl, rfl⟩ := behind
  refine ⟨front.filter fun mem => mem ≠ gone, back.filter fun mem => mem ≠ gone, ?_, ?_⟩
  · simp [step, other.symm]
  · ext mem
    simp [and_comm]

/-! ## How long a key stays -/

omit [DecidableEq Key] in
theorem forall_prefix_cons {Event : Type*} {holds : List Event → Prop} {event : Event}
    {rest : List Event} : (∀ init, init <+: event :: rest → holds init) ↔
      holds [] ∧ ∀ init, init <+: rest → holds (event :: init) := by
  simp only [prefix_cons_iff]
  constructor
  · intro always
    exact ⟨always [] (.inl rfl), fun init before => always _ (.inr ⟨init, rfl, before⟩)⟩
  · rintro ⟨now, later⟩ init (rfl | ⟨before, rfl, isPrefix⟩)
    · exact now
    · exact later before isPrefix

omit [DecidableEq Key] in
theorem forall_prefix_map {Event Call : Type*} {holds : List Event → Prop} (event : Call → Event)
    {calls : List Call} : (∀ init, init <+: calls.map event → holds init) ↔
      ∀ init, init <+: calls → holds (init.map event) := by
  constructor
  · exact fun always init isPrefix => always _ (isPrefix.map event)
  · intro always init isPrefix
    rw [prefix_iff_eq_take.mp isPrefix, ← map_take]
    exact always _ (List.take_prefix _ _)

/-- A key stays exactly as long as it does not leave and fewer keys than the
capacity that entered after it are inside at the same time. -/
theorem stays_iff (behind : IsBehind cap queue key inside) (events : List (Event Key)) :
    (∀ init, init <+: events → key ∈ run cap queue init) ↔ .leave key ∉ events ∧
        ∀ init, init <+: events → (entered cap queue init inside).card < cap := by
  induction events generalizing queue inside with
  | nil => simpa [run, entered] using ⟨fun _ => behind.card_lt, fun _ => behind.mem⟩
  | cons event rest ih =>
    have nowInside : key ∈ run cap queue [] := behind.mem
    have nowFew : (entered cap queue [] inside).card < cap := behind.card_lt
    rw [forall_prefix_cons, forall_prefix_cons, and_iff_right nowInside, and_iff_right nowFew]
    cases event with
    | leave gone =>
      by_cases isKey : gone = key
      · subst isKey
        refine iff_of_false (fun stays => ?_) (by simp)
        simpa [run, step] using stays [] nil_prefix
      · have noLeave : .leave key ∉ .leave gone :: rest ↔ .leave key ∉ rest := by
          simp [Ne.symm isKey]
        rw [noLeave]
        exact ih (behind.leave isKey)
    | enter new =>
      have noLeave : .leave key ∉ .enter new :: rest ↔ .leave key ∉ rest := by simp
      rw [noLeave]
      by_cases known : new ∈ queue
      · simpa only [run, foldl_cons, entered, step, if_pos known] using ih behind
      · rcases behind.enter known with stillBehind | ⟨dropped, full⟩
        · simpa only [run, foldl_cons, entered, if_neg known] using ih stillBehind
        · refine iff_of_false (fun stays => ?_) (fun few => ?_)
          · exact dropped (stays [] nil_prefix)
          · have now := few.2 [] nil_prefix
            rw [entered, if_neg known, entered] at now
            omega

end BoundedFifo
