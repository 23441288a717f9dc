import Mathlib

/-!
# Loops that stop at the first failure

Items are handled one after the other; each is accepted or refused, and the loop
stops at the first refused one. What one accepted item preserves, the items accepted
before that preserve together (`accepted_invariant`).
-/

namespace EarlyExit

variable {State Item : Type*} (accept : State → Item → State × Bool)

def acceptAll : State → List Item → State × Bool
  | state, [] => (state, true)
  | state, item :: items =>
    if (accept state item).2 then acceptAll (accept state item).1 items
    else ((accept state item).1, false)

def accepted : State → List Item → List Item
  | _, [] => []
  | state, item :: items =>
    if (accept state item).2 then item :: accepted (accept state item).1 items else []

variable {accept} {state : State} {seen : List Item} {items : List Item}

theorem accepted_of_acceptAll
    (success : (acceptAll accept state items).2) : accepted accept state items = items := by
  induction items generalizing state with
  | nil => rfl
  | cons item items ih =>
    rw [acceptAll] at success
    rw [accepted]
    split at success
    case isTrue taken => rw [if_pos taken, ih success]
    case isFalse refused => simp at success

section

variable {Inv : List Item → State → Prop}
  (step : ∀ {seen state item}, Inv seen state → (accept state item).2 →
    Inv (seen ++ [item]) (accept state item).1) (initially : Inv seen state)
include step initially

/-- What one accepted item preserves, a loop without failure preserves. -/
theorem acceptAll_invariant (success : (acceptAll accept state items).2) :
    Inv (seen ++ items) (acceptAll accept state items).1 := by
  induction items generalizing seen state with
  | nil => simpa [acceptAll] using initially
  | cons item items ih =>
    rw [acceptAll] at success ⊢
    split at success
    case isTrue taken =>
      rw [if_pos taken, List.append_cons]
      exact ih (step initially taken) success
    case isFalse refused => simp at success

theorem accepted_invariant (items : List Item) :
    ∃ after, Inv (seen ++ accepted accept state items) after := by
  induction items generalizing seen state with
  | nil => exact ⟨state, by simpa [accepted] using initially⟩
  | cons item items ih =>
    rw [accepted]
    split
    case isTrue taken =>
      rw [List.append_cons]
      exact ih (step initially taken)
    case isFalse refused => exact ⟨state, by simpa using initially⟩

end

/-- What holds before the loop stops and when an item is refused holds after the
loop. -/
theorem acceptAll_outcome (Inv : List Item → State → Prop) (Outcome : State → Prop)
    (step : ∀ {seen state item}, Inv seen state → (accept state item).2 →
      Inv (seen ++ [item]) (accept state item).1)
    (finished : ∀ {seen state}, Inv seen state → Outcome state)
    (refused : ∀ {seen state item}, Inv seen state → Outcome (accept state item).1)
    (initially : Inv seen state) (items : List Item) :
    Outcome (acceptAll accept state items).1 := by
  induction items generalizing seen state with
  | nil => exact finished initially
  | cons item items ih =>
    rw [acceptAll]
    split
    case isTrue taken => exact ih (step initially taken)
    case isFalse _ => exact refused initially

theorem acceptAll_preserves (Inv : State → Prop)
    (step : ∀ {state item}, Inv state → Inv (accept state item).1)
    (initially : Inv state) (items : List Item) : Inv (acceptAll accept state items).1 := by
  induction items generalizing state with
  | nil => exact initially
  | cons item items ih =>
    rw [acceptAll]
    split
    · exact ih (step initially)
    · exact step initially

/-- A loop succeeds if every item that continues an allowed list is accepted. -/
theorem acceptAll_success (Inv : List Item → State → Prop) (Allowed : List Item → Prop)
    (initial_segment : ∀ {items more}, Allowed (items ++ more) → Allowed items)
    (takes : ∀ {seen state item}, Inv seen state → Allowed (seen ++ [item]) → (accept state item).2)
    (step : ∀ {seen state item}, Inv seen state → (accept state item).2 →
      Inv (seen ++ [item]) (accept state item).1) (initially : Inv seen state)
    (allowed : Allowed (seen ++ items)) : (acceptAll accept state items).2 := by
  induction items generalizing seen state with
  | nil => rfl
  | cons item items ih =>
    rw [List.append_cons] at allowed
    have taken := takes initially (initial_segment allowed)
    rw [acceptAll, if_pos taken]
    exact ih (step initially taken) allowed

end EarlyExit
