import BitcoinCore.Util.FastRange

/-!
# The cuckoo cache

`CuckooCache::cache` is a table in which every element has eight locations. A slot whose
collection flag is set may be overwritten; the flags are set by lookups that erase and by
`epoch_check`, and never clear the table. An insertion that finds no such slot displaces
an element, which is then inserted in turn, at most `depth_limit` times.

Whatever the hash function, an element is stored in one of its own locations and only once
(`Placed`). A displacement moves elements and loses none, so an insertion loses the element
that it overwrites at the end, or the one it is left with (`insertLoop_spec`).
-/

namespace BitcoinCore.CuckooCache

open List Function Or

structure Cache (Element : Type*) (size : ℕ) where
  table : Fin size → Element
  collectionFlags : Fin size → Bool
  epochFlags : Fin size → Bool
  epochHeuristicCounter : ℕ
  epochSize : ℕ
  depthLimit : ℕ

variable {Element : Type*} [DecidableEq Element]

section

variable {size : ℕ} [NeZero size]

def computeHashes (hash : Fin 8 → Element → UInt32) (e : Element) (i : Fin 8) : Fin size :=
  ⟨fastRange32 (hash i e) size, fastRange32_lt (hash i e) (NeZero.pos size)⟩

namespace Cache

variable (hash : Fin 8 → Element → UInt32) (cache : Cache Element size)

/-- `setup`; what `log2` of the size yields in floating point is left open. -/
def setup [Inhabited Element] (newSize depthLimit : ℕ) : Cache Element (max 2 newSize) where
  table _ := default
  collectionFlags _ := true
  epochFlags _ := false
  epochHeuristicCounter := max 1 (45 * max 2 newSize % 2 ^ 32 / 100)
  epochSize := max 1 (45 * max 2 newSize % 2 ^ 32 / 100)
  depthLimit := depthLimit

def epochCheck : Cache Element size :=
  if cache.epochHeuristicCounter ≠ 0 then
    { cache with epochHeuristicCounter := cache.epochHeuristicCounter - 1 }
  else
    let epochUnusedCount := (finRange size).countP fun i =>
      cache.epochFlags i && !cache.collectionFlags i
    if cache.epochSize ≤ epochUnusedCount then
      { cache with
        epochFlags := fun _ => false
        collectionFlags := fun i => !cache.epochFlags i || cache.collectionFlags i
        epochHeuristicCounter := cache.epochSize }
    else
      { cache with
        epochHeuristicCounter :=
          max 1 (max (cache.epochSize / 16) (cache.epochSize - epochUnusedCount)) }

def pleaseKeep (loc : Fin size) (epoch : Bool) : Cache Element size :=
  { cache with
    collectionFlags := update cache.collectionFlags loc false
    epochFlags := update cache.epochFlags loc epoch }

theorem eight_neZero : NeZero 8 := ⟨by decide⟩

/-- The location after the last one in the circle of locations, or the second one at first,
where `last_loc` is invalid. -/
def nextLoc (locs : Fin 8 → Fin size) (lastLoc : Option (Fin size)) : Fin size :=
  locs (@Fin.ofNat 8 eight_neZero (1 + lastLoc.elim 8 (ofFn locs).idxOf))

/-- The loop of `insert`, with the number of iterations left. Says also whether a slot was
found for the last element. -/
def insertLoop : ℕ → Cache Element size → Element → Option (Fin size) → Bool →
    Cache Element size × Bool
  | 0, cache, _, _, _ => (cache, false)
  | depth + 1, cache, e, lastLoc, lastEpoch =>
    let locs := computeHashes hash e
    match (ofFn locs).find? cache.collectionFlags with
    | some loc =>
      ({ cache with table := update cache.table loc e }.pleaseKeep loc lastEpoch, true)
    | none =>
      let loc := nextLoc locs lastLoc
      insertLoop depth
        { cache with
          table := update cache.table loc e
          epochFlags := update cache.epochFlags loc lastEpoch }
        (cache.table loc) (some loc) (cache.epochFlags loc)

def insert (e : Element) : Cache Element size × Bool :=
  let cache := cache.epochCheck
  match (ofFn (computeHashes hash e)).find? fun loc => cache.table loc = e with
  | some loc => (cache.pleaseKeep loc true, true)
  | none => insertLoop hash cache.depthLimit cache e none true

def contains (e : Element) (erase : Bool) : Bool × Cache Element size :=
  match (ofFn (computeHashes hash e)).find? fun loc => cache.table loc = e with
  | some loc =>
    (true, if erase then
        { cache with collectionFlags := update cache.collectionFlags loc true }
      else cache)
  | none => (false, cache)

end Cache

inductive Call (Element : Type*) where
  | insert (e : Element)
  | contains (e : Element) (erase : Bool)

def Cache.call (hash : Fin 8 → Element → UInt32) (cache : Cache Element size) :
    Call Element → Cache Element size
  | .insert e => (cache.insert hash e).1
  | .contains e erase => (cache.contains hash e erase).2

end

/-! ## Where elements are stored -/

theorem exists_update_iff {Element : Type*} {size : ℕ} {table : Fin size → Element} {slot : Fin size}
    {e x : Element} : (∃ other, update table slot e other = x) ↔
      x = e ∨ ∃ other, other ≠ slot ∧ table other = x := by
  constructor
  · rintro ⟨other, rfl⟩
    rcases eq_or_ne other slot with rfl | ne
    · exact inl (update_self _ _ _)
    · exact inr ⟨other, ne, (update_of_ne ne _ _).symm⟩
  · rintro (rfl | ⟨other, ne, rfl⟩)
    · exact ⟨slot, update_self _ _ _⟩
    · exact ⟨other, update_of_ne ne _ _⟩

section

variable [Inhabited Element] {size : ℕ} [NeZero size]
  {hash : Fin 8 → Element → UInt32} {table : Fin size → Element} {cache : Cache Element size}
  {e : Element} {slot : Fin size}

/-- Elements other than the default one are in one of their own locations, and only once. -/
structure Placed (hash : Fin 8 → Element → UInt32) (table : Fin size → Element) : Prop where
  own : ∀ slot, table slot ≠ default → ∃ i, computeHashes hash (table slot) i = slot
  once : ∀ slot other, table slot ≠ default → table other = table slot → other = slot

omit [DecidableEq Element] in
/-- A new element may be written to one of its own locations. -/
theorem Placed.write (placed : Placed hash table) (own : ∃ i, computeHashes hash e i = slot)
    (new : e ≠ default → ∀ other, table other ≠ e) : Placed hash (update table slot e) := by
  constructor
  · intro other stored
    rcases eq_or_ne other slot with rfl | ne
    · rwa [update_self]
    · rw [update_of_ne ne] at stored ⊢
      exact placed.own other stored
  · intro first second stored same
    rcases eq_or_ne first slot with rfl | ne
    · rw [update_self] at stored same
      by_contra ne
      rw [update_of_ne ne] at same
      exact new stored second same
    · rw [update_of_ne ne] at stored same
      rcases eq_or_ne second slot with rfl | ne'
      · rw [update_self] at same
        exact absurd same.symm (new (same ▸ stored) first)
      · rw [update_of_ne ne'] at same
        exact placed.once first second stored same

omit [DecidableEq Element] in
/-- What the loop does: the elements are those of before and the one to insert, except
for one at most. If a slot is found, what is missing was in a slot with its flag set. -/
theorem insertLoop_spec (depth : ℕ) (lastLoc : Option (Fin size)) (lastEpoch : Bool)
    (placed : Placed hash cache.table) (new : e ≠ default → ∀ other, cache.table other ≠ e) :
    Placed hash (Cache.insertLoop hash depth cache e lastLoc lastEpoch).1.table ∧
    ∃ removed, (∀ x, x ≠ default →
      ((∃ other, (Cache.insertLoop hash depth cache e lastLoc lastEpoch).1.table other = x) ↔
        (x = e ∨ ∃ other, cache.table other = x) ∧ x ≠ removed)) ∧
      ((Cache.insertLoop hash depth cache e lastLoc lastEpoch).2 →
        ∃ other, cache.table other = removed ∧ cache.collectionFlags other) := by
  induction depth generalizing cache e lastLoc lastEpoch with
  | zero =>
    rw [Cache.insertLoop]
    refine ⟨placed, e, fun x notDefault => ?_, fun found => (by cases found)⟩
    constructor
    · rintro ⟨other, rfl⟩
      refine ⟨inr ⟨other, rfl⟩, ?_⟩
      rintro rfl
      exact new notDefault other rfl
    · rintro ⟨rfl | stored, ne⟩
      · exact absurd rfl ne
      · exact stored
  | succ depth ih =>
    rw [Cache.insertLoop]
    cases found : (ofFn (computeHashes hash e)).find? cache.collectionFlags with
    | some loc =>
      obtain ⟨i, isLoc⟩ := mem_ofFn.mp (mem_of_find?_eq_some found)
      refine ⟨placed.write ⟨i, isLoc⟩ new, cache.table loc, fun x notDefault => ?_,
        fun _ => ⟨loc, rfl, find?_some found⟩⟩
      dsimp only [Cache.pleaseKeep]
      rw [exists_update_iff]
      constructor
      · rintro (rfl | ⟨other, ne, rfl⟩)
        · exact ⟨inl rfl, fun same => new notDefault loc same.symm⟩
        · exact ⟨inr ⟨other, rfl⟩, fun same => ne (placed.once other loc notDefault same.symm).symm⟩
      · rintro ⟨rfl | ⟨other, rfl⟩, ne⟩
        · exact inl rfl
        · exact inr ⟨other, fun same => ne (same ▸ rfl), rfl⟩
    | none =>
      dsimp only
      generalize isLoc : Cache.nextLoc (computeHashes hash e) lastLoc = loc
      have own : ∃ i, computeHashes hash e i = loc := ⟨_, isLoc⟩
      -- The displaced element is no longer in the table.
      have displaced : cache.table loc ≠ default →
          ∀ other, update cache.table loc e other ≠ cache.table loc := by
        intro notDefault other same
        rcases exists_update_iff.mp ⟨other, same⟩ with isNew | ⟨old, ne, same⟩
        · exact new (isNew ▸ notDefault) loc isNew
        · exact ne (placed.once loc old notDefault same)
      obtain ⟨placed', removed, contents, flagged⟩ := @ih
        { cache with
          table := update cache.table loc e
          epochFlags := update cache.epochFlags loc lastEpoch }
        (cache.table loc) (some loc) (cache.epochFlags loc) (placed.write own new) displaced
      refine ⟨placed', removed, fun x notDefault => ?_, fun success => ?_⟩
      · rw [contents x notDefault]
        refine and_congr_left fun _ => ?_
        rw [exists_update_iff]
        constructor
        · rintro (rfl | rfl | ⟨other, -, rfl⟩)
          · exact inr ⟨loc, rfl⟩
          · exact inl rfl
          · exact inr ⟨other, rfl⟩
        · rintro (rfl | ⟨other, rfl⟩)
          · exact inr (inl rfl)
          · rcases eq_or_ne other loc with rfl | ne
            · exact inl rfl
            · exact inr (inr ⟨other, ne, rfl⟩)
      · -- A slot with its flag set was not written to before.
        obtain ⟨other, isRemoved, flag⟩ := flagged success
        have unset : cache.collectionFlags loc ≠ true := by
          obtain ⟨i, rfl⟩ := own
          exact find?_eq_none.mp found _ (mem_ofFn.mpr ⟨i, rfl⟩)
        have ne : other ≠ loc := by
          rintro rfl
          exact unset flag
        exact ⟨other, (update_of_ne ne _ _).symm.trans isRemoved, flag⟩

omit [DecidableEq Element] [Inhabited Element] [NeZero size] in
theorem epochCheck_table (cache : Cache Element size) : cache.epochCheck.table = cache.table := by
  rw [Cache.epochCheck]
  split
  · rfl
  · dsimp only
    split <;> rfl

omit [Inhabited Element] in
theorem contains_table (erase : Bool) : (cache.contains hash e erase).2.table = cache.table := by
  rw [Cache.contains]
  split
  · dsimp only
    split <;> rfl
  · rfl

omit [Inhabited Element] in
theorem stored_of_contains {erase : Bool} (found : (cache.contains hash e erase).1) :
    ∃ slot, cache.table slot = e := by
  rw [Cache.contains] at found
  split at found
  case h_1 loc isLoc => exact ⟨loc, by simpa using find?_some isLoc⟩
  case h_2 => cases found

theorem Placed.contains_iff (placed : Placed hash cache.table) (notDefault : e ≠ default) (erase : Bool) :
    (cache.contains hash e erase).1 ↔ ∃ slot, cache.table slot = e := by
  refine ⟨stored_of_contains, ?_⟩
  rintro ⟨slot, rfl⟩
  obtain ⟨i, own⟩ := placed.own slot notDefault
  rw [Cache.contains]
  split
  case h_1 => rfl
  case h_2 missed =>
    have absent := find?_eq_none.mp missed slot (mem_ofFn.mpr ⟨i, own⟩)
    exact absurd (decide_eq_true rfl) absent

theorem insert_spec (placed : Placed hash cache.table) (e : Element) :
    Placed hash (cache.insert hash e).1.table ∧ ∃ removed : Option Element, (∀ x, x ≠ default →
      ((∃ slot, (cache.insert hash e).1.table slot = x) ↔
        (x = e ∨ ∃ slot, cache.table slot = x) ∧ removed ≠ some x)) ∧
      ((cache.insert hash e).2 → ∀ x, removed = some x →
        ∃ slot, cache.table slot = x ∧ cache.epochCheck.collectionFlags slot) := by
  rw [← epochCheck_table cache] at placed ⊢
  rw [Cache.insert]
  cases found : (ofFn (computeHashes hash e)).find? fun loc => cache.epochCheck.table loc = e with
  | some loc =>
    have stored : cache.epochCheck.table loc = e := by simpa using find?_some found
    refine ⟨placed, none, fun x _ => ?_, fun _ x none => (by cases none)⟩
    constructor
    · intro old
      exact ⟨inr old, fun none => (by cases none)⟩
    · rintro ⟨rfl | old, -⟩
      · exact ⟨loc, stored⟩
      · exact old
  | none =>
    have new : e ≠ default → ∀ other, cache.epochCheck.table other ≠ e := by
      intro notDefault other same
      obtain ⟨i, own⟩ := placed.own other (same ▸ notDefault)
      rw [same] at own
      exact find?_eq_none.mp found other (mem_ofFn.mpr ⟨i, own⟩) (decide_eq_true same)
    obtain ⟨placed', removed, contents, flagged⟩ :=
      insertLoop_spec cache.epochCheck.depthLimit none true placed new
    refine ⟨placed', some removed, fun x notDefault => ?_, fun success x isRemoved => ?_⟩
    · rw [contents x notDefault, ne_comm, ne_eq, ne_eq, Option.some_inj]
    · cases isRemoved
      exact flagged success

end

/-! ## Sequences of calls -/

variable [Inhabited Element]

local instance slots_neZero (newSize : ℕ) : NeZero (max 2 newSize) :=
  ⟨(lt_of_lt_of_le Nat.two_pos (le_max_left 2 newSize)).ne'⟩

variable (hash : Fin 8 → Element → UInt32) (newSize depthLimit : ℕ) (calls : List (Call Element))

def afterCalls : Cache Element (max 2 newSize) :=
  calls.foldl (Cache.call hash) (Cache.setup newSize depthLimit)

theorem afterCalls_placed : Placed hash (afterCalls hash newSize depthLimit calls).table ∧
    ∀ x, x ≠ default → (∃ slot, (afterCalls hash newSize depthLimit calls).table slot = x) →
      .insert x ∈ calls := by
  induction calls using reverseRecOn with
  | nil =>
    refine ⟨⟨fun slot stored => absurd rfl stored, fun slot _ stored => absurd rfl stored⟩, ?_⟩
    rintro x notDefault ⟨slot, rfl⟩
    exact absurd rfl notDefault
  | append_singleton calls call ih =>
    rw [afterCalls, foldl_append, foldl_cons, foldl_nil, ← afterCalls]
    obtain ⟨placed, ins⟩ := ih
    cases call with
    | insert e =>
      obtain ⟨placed', removed, contents, -⟩ := insert_spec placed e
      refine ⟨placed', fun x notDefault stored => ?_⟩
      rcases ((contents x notDefault).mp stored).1 with rfl | old
      · exact mem_append_right _ mem_cons_self
      · exact mem_append_left _ (ins x notDefault old)
    | contains e erase =>
      rw [Cache.call, contains_table]
      exact ⟨placed, fun x notDefault stored => mem_append_left _ (ins x notDefault stored)⟩

end BitcoinCore.CuckooCache
