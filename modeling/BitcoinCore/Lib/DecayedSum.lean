import Mathlib

/-!
# Exponentially decayed sums

A decay law gives every age a factor: age zero keeps the full value, ages add
to products of factors, and no age amplifies. The decayed sum of a list of
timed values at a moment `now` is the sum of the values, each scaled by the
factor of its age. An entry stamped after `now` has age zero.

A decayed sum can be carried from one moment to another by a single factor.
When the second moment is not earlier, and no entry is stamped after the first
one, this is exact (`decayed_age_eq`). For arbitrary stamps and moments it only
ever loses weight (`decayed_age_le`): a clock that moves backwards does not
amplify old entries.
-/

namespace DecayedSum

structure DecayLaw (R : Type*) [Field R] [LinearOrder R] [IsStrictOrderedRing R] where
  factor : ℤ → R
  factor_zero : factor 0 = 1
  factor_add : ∀ first second, factor (first + second) = factor first * factor second
  factor_pos : ∀ age, 0 < factor age
  factor_le_one : ∀ age, 0 ≤ age → factor age ≤ 1

/-- The age of a stamp at a moment; a stamp in the future has age zero. -/
def age (now stamp : ℤ) : ℤ := max 0 (now - stamp)

theorem age_of_le {now stamp : ℤ} (past : stamp ≤ now) : age now stamp = now - stamp :=
  max_eq_right (by omega)

theorem age_of_ge {now stamp : ℤ} (future : now ≤ stamp) : age now stamp = 0 :=
  max_eq_left (by omega)

/-- Ageing up to `last` and then from `last` to `now` is at least ageing up to
`now`. -/
theorem age_le_add (now last stamp : ℤ) : age now stamp ≤ age last stamp + age now last := by
  unfold age
  omega

variable {R : Type*} [Field R] [LinearOrder R] [IsStrictOrderedRing R]

namespace DecayLaw

variable (law : DecayLaw R) {allObs : List (R × ℤ)}

theorem factor_anti {younger older : ℤ} (ordered : younger ≤ older) :
    law.factor older ≤ law.factor younger := by
  have split : older = younger + (older - younger) := by omega
  rw [split, law.factor_add]
  exact mul_le_of_le_one_right (law.factor_pos younger).le (law.factor_le_one _ (by omega))

def decayed (allObs : List (R × ℤ)) (now : ℤ) : R :=
  (allObs.map fun obs =>
    obs.1 * law.factor (age now obs.2)).sum

@[simp] theorem decayed_nil (now : ℤ) : law.decayed [] now = 0 := rfl

@[simp] theorem decayed_cons (obs : R × ℤ) (rest : List (R × ℤ)) (now : ℤ) :
    law.decayed (obs :: rest) now = obs.1 * law.factor (age now obs.2) + law.decayed rest now := by
  simp [decayed]

@[simp] theorem decayed_append (first second : List (R × ℤ)) (now : ℤ) :
    law.decayed (first ++ second) now = law.decayed first now + law.decayed second now := by
  simp [decayed]

theorem decayed_nonneg (nonneg : ∀ obs ∈ allObs, 0 ≤ obs.1) (now : ℤ) :
    0 ≤ law.decayed allObs now := by
  refine List.sum_nonneg ?_
  intro term mem
  obtain ⟨obs, isIn, rfl⟩ := List.mem_map.mp mem
  exact mul_nonneg (nonneg obs isIn) (law.factor_pos _).le

theorem decayed_pos (ne : allObs ≠ []) (pos : ∀ obs ∈ allObs, 0 < obs.1) (now : ℤ) :
    0 < law.decayed allObs now := by
  cases allObs with
  | nil => exact absurd rfl ne
  | cons head rest =>
    rw [decayed_cons]
    have headPos : 0 < head.1 * law.factor (age now head.2) :=
      mul_pos (pos head (by simp)) (law.factor_pos _)
    have restNonneg : 0 ≤ law.decayed rest now :=
      law.decayed_nonneg (fun obs isIn =>
        (pos obs (by simp [isIn])).le) now
    linarith

/-- Carrying a decayed sum from one moment to another never amplifies it,
whatever the order of the stamps and of the two moments. -/
theorem decayed_age_le (nonneg : ∀ obs ∈ allObs, 0 ≤ obs.1) (last now : ℤ) :
    law.decayed allObs last * law.factor (age now last) ≤ law.decayed allObs now := by
  induction allObs with
  | nil => simp
  | cons head rest ih =>
    have carried := ih fun obs isIn => nonneg obs (by simp [isIn])
    have headNonneg : 0 ≤ head.1 := nonneg head (by simp)
    have older : law.factor (age last head.2) * law.factor (age now last) ≤
        law.factor (age now head.2) := by
      rw [← law.factor_add]
      exact law.factor_anti (age_le_add now last head.2)
    have scaled := mul_le_mul_of_nonneg_left older headNonneg
    simp only [decayed_cons, add_mul, mul_assoc]
    exact add_le_add scaled carried

/-- Carrying a decayed sum forward is exact when no stamp is later than the
moment it is carried from. -/
theorem decayed_age_eq {last now : ℤ} (past : ∀ obs ∈ allObs, obs.2 ≤ last) (forward : last ≤ now) :
    law.decayed allObs last * law.factor (age now last) = law.decayed allObs now := by
  induction allObs with
  | nil => simp
  | cons head rest ih =>
    have carried := ih fun obs isIn => past obs (by simp [isIn])
    have headPast : head.2 ≤ last := past head (by simp)
    have ages : age last head.2 + age now last = age now head.2 := by
      rw [age_of_le headPast, age_of_le forward, age_of_le (headPast.trans forward)]
      omega
    simp only [decayed_cons, add_mul, mul_assoc]
    rw [← law.factor_add, ages, carried]

end DecayLaw

end DecayedSum
