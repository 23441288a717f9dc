import Mathlib

/-!
# Where a fact came from

A system takes labelled steps. A run is kept as its trace: the steps taken, the
newest first, each with the state it was taken in.

Some facts about the state are caused by steps and forgotten by others. If every
step accounts for the facts that hold after it (`Accountable`), then every fact
that holds now was caused by some step since it was last forgotten
(`Accountable.exists_cause`).
-/

namespace Provenance

variable {State Label Fact : Type*}

inductive Run (step : State → Label → Option State) (start : State) :
    List (State × Label) → State → Prop where
  | refl : Run step start [] start
  | step {trace : List (State × Label)} {before after : State} {label : Label}
      (run : Run step start trace before) (taken : step before label = some after) :
      Run step start ((before, label) :: trace) after

/-- The steps since the last one that forgets. -/
def since (forgets : Label → Bool) (trace : List (State × Label)) : List (State × Label) :=
  trace.takeWhile fun taken => !forgets taken.2

variable {step : State → Label → Option State} {start state : State} {trace : List (State × Label)}

theorem since_cons {forgets : Label → Bool} {before : State} {label : Label}
    (kept : forgets label = false) :
    since forgets ((before, label) :: trace) = (before, label) :: since forgets trace := by
  rw [since, List.takeWhile_cons, if_pos (by simp [kept])]
  rfl

/-- Every fact is caused by steps: none holds at the start, and one that holds
after a step was not forgotten by the step, and was caused by it or held
before. -/
structure Accountable (step : State → Label → Option State) (start : State)
    (Holds : State → Fact → Prop) (Causes : State → Label → Fact → Prop)
    (forgets : Fact → Label → Bool) : Prop where
  initially : ∀ fact, ¬Holds start fact
  taken : ∀ {before label after fact}, step before label = some after → Holds after fact →
    forgets fact label = false ∧ (Causes before label fact ∨ Holds before fact)

/-- A fact that holds was caused since it was last forgotten. -/
theorem Accountable.exists_cause {Holds : State → Fact → Prop}
    {Causes : State → Label → Fact → Prop} {forgets : Fact → Label → Bool}
    (accountable : Accountable step start Holds Causes forgets)
    (run : Run step start trace state) (fact : Fact) (holds : Holds state fact) :
    ∃ taken ∈ since (forgets fact) trace, Causes taken.1 taken.2 fact := by
  induction run with
  | refl => exact absurd holds (accountable.initially fact)
  | step _ taken ih =>
    obtain ⟨kept, caused | before⟩ := accountable.taken taken holds
    · exact ⟨_, by rw [since_cons kept]; exact List.mem_cons_self, caused⟩
    · obtain ⟨cause, mem, causes⟩ := ih before
      exact ⟨cause, by rw [since_cons kept]; exact List.mem_cons_of_mem _ mem, causes⟩

end Provenance
