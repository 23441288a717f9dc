import Mathlib

/-!
# Computations that may fault

Code that indexes arrays is modelled with every access checked: an access out of
bounds is a fault, and a faulting computation stops. An `Outcome` says which
faults a computation may stop with and what holds of its result if it does not.
Outcomes are chained (`Outcome.bind`), and a loop keeps what each of its steps keeps
(`outcome_foldlM`), also if it may end early (`outcome_runUntil`).
-/

namespace CheckedAccess

open List

universe u v

variable {Fault : Type u} {α β : Type v}

@[simp] theorem ok_bind (val : α) (next : α → Except Fault β) :
    (Except.ok val >>= next) = next val := rfl

@[simp] theorem error_bind (fault : Fault) (next : α → Except Fault β) :
    ((Except.error fault : Except Fault α) >>= next) = .error fault := rfl

variable {next : α → Except Fault β}

theorem of_bind_eq_ok {comp : Except Fault α} {res : β}
    (isOk : (comp >>= next) = .ok res) : ∃ val, comp = .ok val ∧ next val = .ok res := by
  cases comp with
  | ok val => exact ⟨val, rfl, isOk⟩
  | error fault => cases isOk

theorem of_unless_eq {guard : Prop} [Decidable guard] {stop rest res : α}
    (eq : (if guard then stop else rest) = res) (stops : stop ≠ res) : ¬ guard ∧ rest = res := by
  split at eq
  case isTrue => exact absurd eq stops
  case isFalse passed => exact ⟨passed, eq⟩

/-! ## Outcomes -/

/-- The computation faults with one of the given faults or returns one of the
given values. -/
def Outcome (Fails : Fault → Prop) (Holds : α → Prop) : Except Fault α → Prop
  | .ok val => Holds val
  | .error fault => Fails fault

section

variable {Fails : Fault → Prop} {Holds : α → Prop} {comp : Except Fault α}

section

variable (out : Outcome Fails Holds comp)
include out

theorem Outcome.of_ok {val : α} (returns : comp = .ok val) : Holds val := by
  rw [returns] at out
  exact out

theorem Outcome.of_error {fault : Fault} (faults : comp = .error fault) : Fails fault := by
  rw [faults] at out
  exact out

theorem Outcome.mono {Holds' : α → Prop}
    (weaker : ∀ val, Holds val → Holds' val) : Outcome Fails Holds' comp := by
  cases comp with
  | ok val => exact weaker val out
  | error fault => exact out

end

theorem Outcome.returns (out : Outcome (fun _ => False) Holds comp) : ∃ val, comp = .ok val := by
  cases comp with
  | ok val => exact ⟨val, rfl⟩
  | error fault => exact out.elim

variable {Holds' : β → Prop}

theorem Outcome.bind (out : Outcome Fails Holds comp) (rest : ∀ val, Holds val → Outcome Fails Holds' (next val)) :
    Outcome Fails Holds' (comp >>= next) := by
  cases comp with
  | ok val => exact rest val out
  | error fault => exact out

theorem Outcome.map {f : α → β}
    (out : Outcome Fails (fun val => Holds' (f val)) comp) : Outcome Fails Holds' (comp.map f) := by
  cases comp with
  | ok val => exact out
  | error fault => exact out

theorem outcome_unless {guard : Prop} [Decidable guard] {val : α} (returns : Holds val)
    (rest : ¬ guard → Outcome Fails Holds comp) :
    Outcome Fails Holds (if guard then .ok val else comp) := by
  split
  case isTrue => exact returns
  case isFalse passed => exact rest passed

theorem outcome_foldlM {Item : Type*} {step : α → Item → Except Fault α} {Inv : α → Prop}
    {items : List Item}
    (keeps : ∀ item ∈ items, ∀ state, Inv state → Outcome Fails Inv (step state item)) {state : α}
    (inv : Inv state) : Outcome Fails Inv (items.foldlM step state) := by
  induction items generalizing state with
  | nil => exact inv
  | cons item items ih =>
    rw [foldlM_cons]
    exact (keeps item mem_cons_self state inv).bind fun next kept =>
      ih (fun later mem => keeps later (mem_cons_of_mem _ mem)) kept

end

/-! ## Checked reads and writes -/

def readAt (fault : Fault) (elems : List α) (place : ℕ) : Except Fault α :=
  match elems[place]? with
  | some elem => .ok elem
  | none => .error fault

def writeAt (fault : Fault) (elems : List α) (place : ℕ) (elem : α) :
    Except Fault (List α) :=
  if place < elems.length then .ok (elems.set place elem) else .error fault

variable {fault : Fault}

theorem readAt_of_getElem? {elems : List α} {place : ℕ} {elem : α}
    (found : elems[place]? = some elem) : readAt fault elems place = .ok elem := by
  rw [readAt, found]

theorem writeAt_of_lt {elems : List α} {place : ℕ} (bound : place < elems.length) (elem : α) :
    writeAt fault elems place elem = .ok (elems.set place elem) := by
  rw [writeAt, if_pos bound]

/-! ## Loops -/

def runUntil {Item : Type*} (step : Item → α → Except Fault α) (finished : α → Bool) :
    List Item → α → Except Fault α
  | [], state => .ok state
  | item :: items, state => do
    let state ← step item state
    if finished state then .ok state else runUntil step finished items state

theorem outcome_runUntil {Item : Type*} {step : Item → α → Except Fault α}
    {Fails : Fault → Prop} (Inv : α → Prop) (finished : α → Bool) {items : List Item}
    (keeps : ∀ item ∈ items, ∀ state, Inv state → Outcome Fails Inv (step item state))
    {state : α} (inv : Inv state) : Outcome Fails Inv (runUntil step finished items state) := by
  induction items generalizing state with
  | nil => exact inv
  | cons item items ih =>
    rw [runUntil]
    refine (keeps item mem_cons_self state inv).bind fun next kept => ?_
    split
    · exact kept
    · exact ih (fun later mem => keeps later (mem_cons_of_mem _ mem)) kept

/-- An item that faults is reached behind items that change nothing. -/
theorem runUntil_fault {Item : Type*} {step : Item → α → Except Fault α} {finished : α → Bool}
    {state : α} (unfinished : finished state = false) {before : List Item}
    (idle : ∀ item ∈ before, step item state = .ok state) {item : Item}
    (faults : step item state = .error fault) (behind : List Item) :
    runUntil step finished (before ++ item :: behind) state = .error fault := by
  induction before with
  | nil => rw [nil_append, runUntil, faults, error_bind]
  | cons first before ih =>
    rw [cons_append, runUntil, idle first mem_cons_self, ok_bind, unfinished]
    exact ih fun later mem => idle later (mem_cons_of_mem _ mem)

end CheckedAccess
