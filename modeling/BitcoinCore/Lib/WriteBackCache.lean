import Mathlib

/-!
# Write-back caches

A layer caches some keys of the map below it. An entry holds a value or the fact
that there is none; it is dirty if it may differ from the map below, and fresh if
the map below is known to have nothing at the key, in which case an entry that loses
its value can be dropped without a trace.

What the layer and the map below look like together is `view`. A layer is coherent
with the map below (`Coherent`) when the flags of its entries say the truth. Then
an entry can be written into a layer below in a way that keeps that layer coherent
and gives it the value of the entry (`absorb_valid`), and when all dirty entries
were written, the map below looks like both together (`WrittenBack.view_eq`).
-/

namespace WriteBackCache

open Function

variable {Key Value : Type*}

structure Entry (Value : Type*) where
  value : Option Value
  dirty : Bool
  fresh : Bool

abbrev Layer (Key Value : Type*) := Key → Option (Entry Value)

/-- What is seen at a key with the given entry and the given value below. -/
def valueAt : Option (Entry Value) → Option Value → Option Value
  | some entry, _ => entry.value
  | none, below => below

def view (layer : Layer Key Value) (below : Key → Option Value) : Key → Option Value :=
  fun key => valueAt (layer key) (below key)

/-! ## Coherence -/

/-- The flags of an entry are right: a clean entry is a copy of the value below, a
fresh one has nothing below; an absence is recorded only if it has to be written. -/
structure Entry.Valid (entry : Entry Value) (below : Option Value) : Prop where
  clean : entry.dirty = false → entry.value = below
  fresh : entry.fresh → below = none
  dirty_of_fresh : entry.fresh → entry.dirty
  absent : entry.value = none → entry.dirty ∧ entry.fresh = false

def ValidAt (entry : Option (Entry Value)) (below : Option Value) : Prop :=
  ∀ cached, entry = some cached → cached.Valid below

def Coherent (layer : Layer Key Value) (below : Key → Option Value) : Prop :=
  ∀ key, ValidAt (layer key) (below key)

theorem validAt_none (below : Option Value) : ValidAt none below := by
  intro cached found
  exact absurd found (by simp)

variable {below : Option Value}

theorem validAt_some {entry : Entry Value} :
    ValidAt (some entry) below ↔ entry.Valid below := by
  refine ⟨fun valid => valid entry rfl, ?_⟩
  rintro valid cached ⟨⟩
  exact valid

section

variable [DecidableEq Key] {layer : Layer Key Value} {below : Key → Option Value} {key : Key}
  {entry : Option (Entry Value)}

theorem view_update : view (update layer key entry) below =
      update (view layer below) key (valueAt entry (below key)) := by
  funext other
  by_cases same : other = key
  · subst same
    simp only [view, update_self]
  · simp only [view, update_of_ne same]

theorem Coherent.update (coherent : Coherent layer below) (valid : ValidAt entry (below key)) :
    Coherent (update layer key entry) below := by
  intro other
  by_cases same : other = key
  · subst same
    rw [update_self]
    exact valid
  · rw [update_of_ne same]
    exact coherent other

end

/-! ## Entries -/

def Entry.copy (value : Value) : Entry Value :=
  { value := some value, dirty := false, fresh := false }

theorem Entry.copy_valid (value : Value) : (Entry.copy value).Valid (some value) where
  clean := fun _ => rfl
  fresh := by simp [copy]
  dirty_of_fresh := by simp [copy]
  absent := by simp [copy]

theorem Entry.valid_of_dirty {value : Value} {fresh : Bool} (freshBelow : fresh → below = none) :
    ({ value := some value, dirty := true, fresh := fresh } : Entry Value).Valid below where
  clean := by simp
  fresh := freshBelow
  dirty_of_fresh := fun _ => rfl
  absent := by simp

/-- The entry after its value was removed: nothing, if there is nothing below
either. -/
def Entry.removed (entry : Entry Value) : Option (Entry Value) :=
  if entry.fresh then none else some { value := none, dirty := true, fresh := false }

theorem Entry.removed_valid {entry : Entry Value} (valid : entry.Valid below) :
    ValidAt entry.removed below ∧ valueAt entry.removed below = none := by
  rw [removed]
  split
  case isTrue isFresh => exact ⟨validAt_none below, valid.fresh isFresh⟩
  case isFalse _ =>
    refine ⟨validAt_some.mpr ⟨?_, ?_, ?_, ?_⟩, rfl⟩ <;> simp

/-! ## Writing an entry to the layer below -/

/-- What an entry makes of the entry at its key in the layer below; nothing if the
entry is fresh although there is a value below. -/
def absorb (child : Entry Value) : Option (Entry Value) → Option (Option (Entry Value))
  | none =>
    if child.fresh && child.value.isNone then some none
    else some (some { value := child.value, dirty := true, fresh := child.fresh })
  | some own =>
    if child.fresh && own.value.isSome then none
    else if own.fresh && child.value.isNone then some none
    else some (some { value := child.value, dirty := true, fresh := own.fresh })

/-- Writing an entry keeps the layer below coherent and gives it the value of the
entry. -/
theorem absorb_valid {child : Entry Value} {own : Option (Entry Value)}
    (childValid : child.Valid (valueAt own below)) (ownValid : ValidAt own below) :
    ∃ res, absorb child own = some res ∧ ValidAt res below ∧ valueAt res below = child.value := by
  cases own with
  | none =>
    by_cases dropped : (child.fresh && child.value.isNone) = true
    · rw [Bool.and_eq_true, Option.isNone_iff_eq_none] at dropped
      exact absurd (childValid.absent dropped.2).2 (by simp [dropped.1])
    · refine ⟨_, if_neg dropped, validAt_some.mpr ⟨by simp, childValid.fresh, fun _ => rfl, ?_⟩, rfl⟩
      intro absent
      exact ⟨rfl, (childValid.absent absent).2⟩
  | some own =>
    have ownValid := validAt_some.mp ownValid
    have notMisapplied : ¬(child.fresh && own.value.isSome) = true := by
      intro misapplied
      rw [Bool.and_eq_true] at misapplied
      have nothing : own.value = none := childValid.fresh misapplied.1
      simp [nothing] at misapplied
    by_cases dropped : (own.fresh && child.value.isNone) = true
    · refine ⟨none, by simp only [absorb, if_neg notMisapplied, if_pos dropped],
        validAt_none below, ?_⟩
      rw [Bool.and_eq_true, Option.isNone_iff_eq_none] at dropped
      rw [dropped.2]
      exact ownValid.fresh dropped.1
    · refine ⟨some { value := child.value, dirty := true, fresh := own.fresh },
        by simp only [absorb, if_neg notMisapplied, if_neg dropped],
        validAt_some.mpr ⟨by simp, ownValid.fresh, fun _ => rfl, ?_⟩, rfl⟩
      intro absent
      refine ⟨rfl, ?_⟩
      simpa [show child.value = none from absent] using dropped

/-! ## Writing a whole layer -/

/-- Of a layer the entries at the given keys were written to the map below. -/
def WrittenBack [DecidableEq Key] (child : Layer Key Value) (pre after : Key → Option Value)
    (keys : List Key) : Prop :=
  ∀ key, after key = if key ∈ keys then view child pre key else pre key

section

variable [DecidableEq Key] {child : Layer Key Value} {pre after : Key → Option Value}
  {keys : List Key}

theorem writtenBack_nil : WrittenBack child pre pre [] := by
  intro key
  simp

theorem WrittenBack.concat {key : Key} {entry : Entry Value}
    (written : WrittenBack child pre after keys) (found : child key = some entry) :
    WrittenBack child pre (update after key entry.value) (keys ++ [key]) := by
  intro other
  by_cases same : other = key
  · subst same
    simp [view, found, valueAt]
  · rw [update_of_ne same, written other]
    simp [same]

/-- When the dirty entries were written, the map below shows what both showed. -/
theorem WrittenBack.view_eq (written : WrittenBack child pre after keys)
    (coherent : Coherent child pre)
    (complete : ∀ key entry, child key = some entry → entry.dirty → key ∈ keys) :
    after = view child pre := by
  funext key
  rw [written key]
  split
  case isTrue _ => rfl
  case isFalse notWritten =>
    cases found : child key with
    | none => simp [view, found, valueAt]
    | some entry =>
      have clean : entry.dirty = false := by
        cases dirty : entry.dirty with
        | false => rfl
        | true => exact absurd (complete key entry found dirty) notWritten
      rw [view, found, valueAt, (coherent key entry found).clean clean]

end

theorem view_eq_of_clean {layer : Layer Key Value} {below : Key → Option Value}
    (coherent : Coherent layer below)
    (clean : ∀ key entry, layer key = some entry → entry.dirty = false) :
    view layer below = below := by
  funext key
  cases found : layer key with
  | none => rw [view, found, valueAt]
  | some entry =>
    rw [view, found, valueAt, (coherent key entry found).clean (clean key entry found)]

end WriteBackCache
