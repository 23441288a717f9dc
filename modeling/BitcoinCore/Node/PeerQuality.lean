import BitcoinCore.Lib.DecayedSum

/-!
# Relay quality of a peer

The local, non-persistent observations a node keeps of how well a peer relays
blocks, and the score it derives from them. Every observation is folded into a
`DecayingSignal`, a pair of a decayed sum and a decayed weight with the stamp
of the last update.

The arithmetic of the source is on doubles. Here it is generic in an ordered
field with a power of two (`Exp2`), and the results about decay read it in the
real numbers.

A decaying signal is a constant-space implementation of the exponentially
decayed average of its whole history: its effective weight never exceeds the
batch weight, whatever the order of the stamps, and for ordered stamps weight
and mean are exactly those of the batch (`observeAll_implements_batch`).
-/

namespace BitcoinCore.Node

open DecayedSum List

/-- The power of two, on the numbers a score is computed in. -/
class Exp2 (R : Type*) where
  exp2 : R → R

noncomputable instance : Exp2 ℝ where
  exp2 exponent := 2 ^ exponent

/-- A step approximation, exact at the integers, for evaluating scores. -/
instance : Exp2 ℚ where
  exp2 exponent := 2 ^ ⌊exponent⌋

def qualityHalfLifeSeconds : ℤ := 24 * 60 * 60

def minScoreableConnectionSeconds : ℤ := 2 * 60 * 60

def clamp {R : Type*} [LinearOrder R] (val low high : R) : R :=
  if val < low then low else if high < val then high else val

theorem low_le_clamp {R : Type*} [LinearOrder R] {low high : R} (ordered : low ≤ high)
    (val : R) : low ≤ clamp val low high := by
  unfold clamp
  split_ifs with below above
  · exact le_rfl
  · exact ordered
  · exact not_lt.mp below

/-- A constant-size exponentially decaying aggregate of values in `[0, 1]`. -/
structure DecayingSignal (R : Type*) where
  sum : R
  weight : R
  lastUpdate : ℤ
  deriving DecidableEq

namespace DecayingSignal

variable {R : Type*} [Field R] [LinearOrder R] [Exp2 R] (sig : DecayingSignal R)

def empty : DecayingSignal R := ⟨0, 0, 0⟩

def decayFactor (now : ℤ) : R :=
  -- Old evidence is never amplified if the local clock moves backwards.
  if sig.lastUpdate = 0 ∨ now ≤ sig.lastUpdate then 1
  else Exp2.exp2 (-((now - sig.lastUpdate : ℤ) : R) / (qualityHalfLifeSeconds : R))

def decayTo (now : ℤ) : DecayingSignal R where
  sum := sig.sum * sig.decayFactor now
  weight := sig.weight * sig.decayFactor now
  lastUpdate := now

def observe (val : R) (now : ℤ) : DecayingSignal R :=
  let decayed := sig.decayTo now
  { decayed with
    sum := decayed.sum + clamp val 0 1
    weight := decayed.weight + 1 }

def mean (now : ℤ) (alt : R) : R :=
  let factor := sig.decayFactor now
  let decayedWeight := sig.weight * factor
  if decayedWeight ≤ 0 then alt else sig.sum * factor / decayedWeight

def effectiveWeight (now : ℤ) : R :=
  sig.weight * sig.decayFactor now

/-- The signal after a sequence of observations, each a value and a stamp. -/
def observeAll (allObs : List (R × ℤ)) : DecayingSignal R :=
  allObs.foldl (fun sig obs => sig.observe obs.1 obs.2) empty

end DecayingSignal

inductive CompactBlockOutcome where
  | directReconstruction
  | afterBlocktxn
  | fullBlockFallback
  deriving DecidableEq, Repr

/-- Values that describe the peer at score-decision time, not historical
events. -/
structure RelayScoreContext (R : Type*) where
  chainFreshness : R
  availability : R
  latency : R

/-- The total relay-quality score and every normalized input used to derive
it. -/
structure RelayScoreBreakdown (R : Type*) where
  total : R
  validatedAnnouncements : R
  requestedBlockSuccess : R
  compactBlockQuality : R
  chainFreshness : R
  availability : R
  latency : R
  stallRate : R
  invalidBlockRate : R

/-- Local, non-persistent observations of a peer's recent block-relay
quality. -/
structure RelayQuality (R : Type*) where
  validAnnouncements : DecayingSignal R
  requestedBlockSuccess : DecayingSignal R
  compactQuality : DecayingSignal R
  stallRate : DecayingSignal R
  invalidBlockRate : DecayingSignal R
  evidence : DecayingSignal R
  deriving DecidableEq

/-- One call of an `Observe...` method of a peer's relay quality. -/
inductive RelayObservation where
  | validatedAnnouncement
  | requestedBlockResult (ok : Bool)
  | compactBlockResult (out : CompactBlockOutcome)
  | validFullBlockSource
  | invalidFullBlockSource
  deriving DecidableEq, Repr

namespace RelayQuality

variable {R : Type*} [Field R] [LinearOrder R] [Exp2 R] (qual : RelayQuality R)

def empty : RelayQuality R :=
  ⟨.empty, .empty, .empty, .empty, .empty, .empty⟩

def addEvidence (now : ℤ) : RelayQuality R :=
  { qual with evidence := qual.evidence.observe 1 now }

def observeValidatedAnnouncement (now : ℤ) : RelayQuality R :=
  addEvidence { qual with
    validAnnouncements := qual.validAnnouncements.observe 1 now } now

def observeRequestedBlockResult (ok : Bool) (now : ℤ) : RelayQuality R :=
  addEvidence { qual with
    requestedBlockSuccess :=
      qual.requestedBlockSuccess.observe (if ok then 1 else 0) now
    stallRate := qual.stallRate.observe (if ok then 0 else 1) now } now

def compactScore : CompactBlockOutcome → R
  | .directReconstruction => 1
  | .afterBlocktxn => 1 / 2
  | .fullBlockFallback => 0

def observeCompactBlockResult (out : CompactBlockOutcome) (now : ℤ) : RelayQuality R :=
  addEvidence { qual with
    compactQuality := qual.compactQuality.observe (compactScore out) now } now

def observeValidFullBlockSource (now : ℤ) : RelayQuality R :=
  addEvidence { qual with
    invalidBlockRate := qual.invalidBlockRate.observe 0 now } now

def observeInvalidFullBlockSource (now : ℤ) : RelayQuality R :=
  addEvidence { qual with
    invalidBlockRate := qual.invalidBlockRate.observe 1 now } now

def record (now : ℤ) : RelayObservation → RelayQuality R
  | .validatedAnnouncement => qual.observeValidatedAnnouncement now
  | .requestedBlockResult ok => qual.observeRequestedBlockResult ok now
  | .compactBlockResult out => qual.observeCompactBlockResult out now
  | .validFullBlockSource => qual.observeValidFullBlockSource now
  | .invalidFullBlockSource => qual.observeInvalidFullBlockSource now

def effectiveObservations (now : ℤ) : R := qual.evidence.effectiveWeight now

def hasEnoughEvidence (now connectedSeconds : ℤ) : Bool :=
  decide (minScoreableConnectionSeconds ≤ connectedSeconds) &&
    decide (12 ≤ qual.evidence.effectiveWeight now)

def scoreBreakdown (ctx : RelayScoreContext R) (now : ℤ) : RelayScoreBreakdown R :=
  let validatedAnnouncements := min 1 (qual.validAnnouncements.effectiveWeight now / 8)
  let requestedBlockSuccess := qual.requestedBlockSuccess.mean now (1 / 2)
  let compactBlockQuality := qual.compactQuality.mean now (1 / 2)
  let stallRate := qual.stallRate.mean now 0
  let invalidBlockRate := qual.invalidBlockRate.mean now 0
  { total := clamp (30 / 100 * validatedAnnouncements + 25 / 100 * requestedBlockSuccess +
      15 / 100 * compactBlockQuality + 15 / 100 * ctx.chainFreshness +
      10 / 100 * ctx.availability + 5 / 100 * ctx.latency -
      50 / 100 * stallRate - invalidBlockRate) (-1) 1
    validatedAnnouncements, requestedBlockSuccess, compactBlockQuality
    chainFreshness := ctx.chainFreshness
    availability := ctx.availability
    latency := ctx.latency
    stallRate, invalidBlockRate }

def score (ctx : RelayScoreContext R) (now : ℤ) : R :=
  (qual.scoreBreakdown ctx now).total

end RelayQuality

/-- The weighted sum, of which the total is the clamp. -/
def RelayScoreBreakdown.unclamped {R : Type*} [Field R] (breakdown : RelayScoreBreakdown R) : R :=
  30 / 100 * breakdown.validatedAnnouncements + 25 / 100 * breakdown.requestedBlockSuccess +
    15 / 100 * breakdown.compactBlockQuality + 15 / 100 * breakdown.chainFreshness +
    10 / 100 * breakdown.availability + 5 / 100 * breakdown.latency -
    50 / 100 * breakdown.stallRate - breakdown.invalidBlockRate

/-! ## A decaying signal and the history it summarises -/

/-- The decay of the signals: a factor of two for every half-life. -/
noncomputable def halfLifeLaw : DecayLaw ℝ where
  factor age := 2 ^ (-(age : ℝ) / (qualityHalfLifeSeconds : ℝ))
  factor_zero := by simp
  factor_add first second := by
    rw [← Real.rpow_add two_pos]
    congr 1
    push_cast
    ring
  factor_pos age := Real.rpow_pos_of_pos two_pos _
  factor_le_one age nonneg := by
    refine Real.rpow_le_one_of_one_le_of_nonpos one_le_two ?_
    have ageNonneg : (0 : ℝ) ≤ age := by exact_mod_cast nonneg
    have halfLifePos : (0 : ℝ) < qualityHalfLifeSeconds := by
      simp [qualityHalfLifeSeconds]
    exact div_nonpos_of_nonpos_of_nonneg (by linarith) halfLifePos.le

namespace DecayingSignal

theorem decayFactor_eq_factor {sig : DecayingSignal ℝ} (updated : 0 < sig.lastUpdate)
    (now : ℤ) : sig.decayFactor now = halfLifeLaw.factor (age now sig.lastUpdate) := by
  unfold decayFactor
  split_ifs with unchanged
  · have backwards : now ≤ sig.lastUpdate := by
      rcases unchanged with never | backwards
      · omega
      · exact backwards
    rw [age_of_ge backwards, halfLifeLaw.factor_zero]
  · have forward : sig.lastUpdate ≤ now := by
      rw [not_or] at unchanged
      omega
    rw [age_of_le forward]
    rfl

@[simp] theorem observeAll_nil : observeAll ([] : List (ℝ × ℤ)) = empty := rfl

theorem observeAll_concat (allObs : List (ℝ × ℤ)) (obs : ℝ × ℤ) : observeAll (allObs ++ [obs]) =
      (observeAll allObs).observe obs.1 obs.2 := by
  simp [observeAll]

/-- An accumulator of the signal: `sum`, which adds the clamped value, or
`weight`, which adds one. Between observations both decay by the same factor. -/
structure Accumulator (component : DecayingSignal ℝ → ℝ) (val : ℝ → ℝ) : Prop where
  empty : component empty = 0
  observe : ∀ sig observed now, component (sig.observe observed now) =
    component sig * sig.decayFactor now + val observed
  nonneg : ∀ observed, 0 ≤ val observed

theorem accumulator_weight : Accumulator weight (fun _ => 1) where
  empty := rfl
  observe _ _ _ := rfl
  nonneg _ := zero_le_one

theorem accumulator_sum : Accumulator sum (fun observed => clamp observed 0 1) where
  empty := rfl
  observe _ _ _ := rfl
  nonneg := low_le_clamp zero_le_one

/-- The history of an accumulator: what each observation added, and when. -/
def contributions (val : ℝ → ℝ) (allObs : List (ℝ × ℤ)) : List (ℝ × ℤ) :=
  allObs.map fun obs => (val obs.1, obs.2)

namespace Accumulator

variable {component : DecayingSignal ℝ → ℝ} {val : ℝ → ℝ}

/-- After one more observation, the accumulator holds what it had decayed to
plus the new contribution, and decays on from there. -/
theorem decayed_concat (accumulator : Accumulator component val)
    (allObs : List (ℝ × ℤ)) {obs : ℝ × ℤ} (pos : 0 < obs.2) (now : ℤ) :
    component (observeAll (allObs ++ [obs])) * (observeAll (allObs ++ [obs])).decayFactor now =
      (component (observeAll allObs) * (observeAll allObs).decayFactor obs.2 + val obs.1) *
        halfLifeLaw.factor (age now obs.2) := by
  have updated : 0 < ((observeAll allObs).observe obs.1 obs.2).lastUpdate := pos
  rw [observeAll_concat, accumulator.observe, decayFactor_eq_factor updated]
  rfl

theorem decayed_concat_last (val : ℝ → ℝ) (init : List (ℝ × ℤ)) (last : ℝ × ℤ) :
    halfLifeLaw.decayed (contributions val (init ++ [last])) last.2 =
      halfLifeLaw.decayed (contributions val init) last.2 + val last.1 := by
  simp [contributions, age, halfLifeLaw.factor_zero]

variable (accumulator : Accumulator component val) (allObs : List (ℝ × ℤ))
  (pos : ∀ obs ∈ allObs, 0 < obs.2)
include accumulator allObs pos

/-- The decayed accumulator never exceeds the batch sum of its history, in
whatever order the stamps come. -/
theorem decayed_le_batch
    (now : ℤ) : component (observeAll allObs) * (observeAll allObs).decayFactor now ≤
      halfLifeLaw.decayed (contributions val allObs) now := by
  induction allObs using List.reverseRecOn generalizing now with
  | nil => simp [accumulator.empty, contributions]
  | append_singleton init last ih =>
    have earlierLe := ih (fun obs isIn => pos obs (by simp [isIn]))
      last.2
    have nonneg : ∀ part ∈ contributions val (init ++ [last]), 0 ≤ part.1 :=
      forall_mem_map.mpr fun obs _ => accumulator.nonneg obs.1
    have carried := halfLifeLaw.decayed_age_le nonneg last.2 now
    rw [accumulator.decayed_concat init (pos last (by simp))]
    refine le_trans ?_ carried
    rw [decayed_concat_last]
    exact mul_le_mul_of_nonneg_right (by linarith) (halfLifeLaw.factor_pos _).le

/-- The decayed accumulator is the batch sum of its history when the stamps
are ordered and none is in the future. -/
theorem decayed_eq_batch (ordered : allObs.Pairwise fun init later => init.2 ≤ later.2) (now : ℤ)
    (past : ∀ obs ∈ allObs, obs.2 ≤ now) :
    component (observeAll allObs) * (observeAll allObs).decayFactor now =
      halfLifeLaw.decayed (contributions val allObs) now := by
  induction allObs using List.reverseRecOn generalizing now with
  | nil => simp [accumulator.empty, contributions]
  | append_singleton init last ih =>
    rw [pairwise_append] at ordered
    obtain ⟨earlierOrdered, -, beforeLast⟩ := ordered
    have earlierPast : ∀ obs ∈ init, obs.2 ≤ last.2 :=
      fun obs isIn => beforeLast obs isIn last (by simp)
    have earlierEq := ih (fun obs isIn => pos obs (by simp [isIn]))
      earlierOrdered last.2 earlierPast
    have stampsPast : ∀ contribution ∈ contributions val (init ++ [last]),
        contribution.2 ≤ last.2 := by
      intro contribution mem
      obtain ⟨obs, isIn, rfl⟩ := mem_map.mp mem
      rcases mem_append.mp isIn with early | final
      · exact earlierPast obs early
      · rw [mem_singleton.mp final]
    rw [accumulator.decayed_concat init (pos last (by simp)), earlierEq, ← decayed_concat_last]
    exact halfLifeLaw.decayed_age_eq stampsPast (past last (by simp))

end Accumulator

variable (allObs : List (ℝ × ℤ))

/-- The batch weight of a history: two to minus the age of every observation in
half-lives, summed. -/
noncomputable def batchWeight (now : ℤ) : ℝ :=
  (allObs.map fun obs =>
    (2 : ℝ) ^ (-((max 0 (now - obs.2) : ℤ) : ℝ) / (qualityHalfLifeSeconds : ℝ))).sum

/-- The batch sum of a history: the clamped values with those weights. -/
noncomputable def batchSum (now : ℤ) : ℝ :=
  (allObs.map fun obs => clamp obs.1 0 1 *
    (2 : ℝ) ^ (-((max 0 (now - obs.2) : ℤ) : ℝ) / (qualityHalfLifeSeconds : ℝ))).sum

theorem decayed_contributions_one (now : ℤ) :
    halfLifeLaw.decayed (contributions (fun _ => 1) allObs) now = batchWeight allObs now := by
  simp only [DecayLaw.decayed, contributions, batchWeight, map_map]
  congr 2
  funext obs
  simp [halfLifeLaw, age]

theorem decayed_contributions_clamp (now : ℤ) :
    halfLifeLaw.decayed (contributions (fun observed => clamp observed 0 1) allObs) now =
      batchSum allObs now := by
  simp only [DecayLaw.decayed, contributions, batchSum, map_map]
  rfl

theorem batchWeight_pos {allObs : List (ℝ × ℤ)} (ne : allObs ≠ [])
    (now : ℤ) : 0 < batchWeight allObs now := by
  rw [← decayed_contributions_one]
  refine halfLifeLaw.decayed_pos (by simpa [contributions] using ne) ?_ now
  intro contribution mem
  obtain ⟨_, _, rfl⟩ := mem_map.mp mem
  exact zero_lt_one

/-- A decaying signal implements the batch exponentially decayed average.
Its effective weight is at most the batch weight, whatever the order of the
stamps. When the stamps are ordered and not in the future the weights agree,
and the mean is the weighted average of the clamped values; the fallback is
returned for the empty history only. -/
theorem observeAll_implements_batch (allObs : List (ℝ × ℤ))
    (pos : ∀ obs ∈ allObs, 0 < obs.2) (now : ℤ) (alt : ℝ) :
    (observeAll allObs).effectiveWeight now ≤ batchWeight allObs now ∧
      (allObs.Pairwise (fun init later => init.2 ≤ later.2) → (∀ obs ∈ allObs, obs.2 ≤ now) →
        (observeAll allObs).effectiveWeight now = batchWeight allObs now ∧
          (observeAll allObs).mean now alt =
            if allObs = [] then alt
            else batchSum allObs now / batchWeight allObs now) := by
  constructor
  · rw [← decayed_contributions_one]
    exact accumulator_weight.decayed_le_batch allObs pos now
  intro ordered past
  have weightEq := accumulator_weight.decayed_eq_batch allObs pos ordered now past
  have sumEq := accumulator_sum.decayed_eq_batch allObs pos ordered now past
  rw [decayed_contributions_one] at weightEq
  rw [decayed_contributions_clamp] at sumEq
  refine ⟨weightEq, ?_⟩
  simp only [mean, weightEq, sumEq]
  by_cases isEmpty : allObs = []
  · simp [isEmpty, batchWeight]
  · rw [if_neg isEmpty, if_neg (not_le.mpr (batchWeight_pos isEmpty now))]

/-- Two observations a half-life apart, read at the second one. -/
theorem observeAll_implements_batch_two :
    (observeAll [(1, 86400), (0, 172800)]).effectiveWeight 172800 =
        batchWeight [(1, 86400), (0, 172800)] 172800 ∧
      (observeAll [(1, 86400), (0, 172800)]).mean 172800 (1 / 2) =
        batchSum [(1, 86400), (0, 172800)] 172800 / batchWeight [(1, 86400), (0, 172800)] 172800 :=
  (observeAll_implements_batch [(1, 86400), (0, 172800)] (by simp) 172800 (1 / 2)).2 (by simp)
    (by simp)

end DecayingSignal

/-! ## Observations with a clock that moves backwards -/

namespace DecayingSignal

/-- A signal that observations have led to was never updated, or at a positive time. -/
def Stamped (sig : DecayingSignal ℝ) : Prop := sig = empty ∨ 0 < sig.lastUpdate

theorem Stamped.effectiveWeight_eq {sig : DecayingSignal ℝ} (stamped : sig.Stamped) (now : ℤ) :
    sig.effectiveWeight now = sig.weight * halfLifeLaw.factor (age now sig.lastUpdate) := by
  rcases stamped with rfl | updated
  · simp [effectiveWeight, empty]
  · rw [effectiveWeight, decayFactor_eq_factor updated]

/-- A further observation takes no weight away: the clock has not moved backwards since the
last update, or the weight it adds makes up for what decays twice. -/
def KeepsWeight (sig : DecayingSignal ℝ) (stamp : ℤ) : Prop :=
  sig.lastUpdate ≤ stamp ∨
    sig.weight ≤ (sig.weight + 1) * halfLifeLaw.factor (sig.lastUpdate - stamp)

theorem effectiveWeight_observe (sig : DecayingSignal ℝ) (val : ℝ) {stamp : ℤ}
    (pos : 0 < stamp) (now : ℤ) : (sig.observe val stamp).effectiveWeight now =
      (sig.effectiveWeight stamp + 1) * halfLifeLaw.factor (age now stamp) := by
  have stamped : (sig.observe val stamp).Stamped := .inr pos
  rw [stamped.effectiveWeight_eq]
  rfl

theorem Stamped.effectiveWeight_le_observe_iff {sig : DecayingSignal ℝ} {stamp now : ℤ}
    (stamped : sig.Stamped) (past : sig.lastUpdate ≤ now) (pos : 0 < stamp) (later : stamp ≤ now)
    (val : ℝ) : sig.effectiveWeight now ≤ (sig.observe val stamp).effectiveWeight now ↔
      sig.KeepsWeight stamp := by
  rw [effectiveWeight_observe sig val pos, stamped.effectiveWeight_eq, stamped.effectiveWeight_eq,
    age_of_le past, age_of_le later]
  rcases le_or_gt sig.lastUpdate stamp with forward | backward
  · refine iff_of_true ?_ (Or.inl forward)
    rw [age_of_le forward, add_mul, mul_assoc, ← halfLifeLaw.factor_add, sub_add_sub_cancel',
      one_mul]
    exact le_add_of_nonneg_right (halfLifeLaw.factor_pos _).le
  · have split : halfLifeLaw.factor (now - stamp) = halfLifeLaw.factor (sig.lastUpdate - stamp) *
        halfLifeLaw.factor (now - sig.lastUpdate) := by
      rw [← halfLifeLaw.factor_add, sub_add_sub_cancel']
    rw [age_of_ge backward.le, halfLifeLaw.factor_zero, mul_one, split, ← mul_assoc,
      mul_le_mul_iff_of_pos_right (halfLifeLaw.factor_pos _), KeepsWeight,
      or_iff_right backward.not_ge]

end DecayingSignal

namespace RelayQuality

/-- The quality after a sequence of observations, each with its time. -/
def recordAll {R : Type*} [Field R] [LinearOrder R] [Exp2 R]
    (allObs : List (RelayObservation × ℤ)) : RelayQuality R :=
  allObs.foldl (fun qual obs => qual.record obs.2 obs.1) empty

theorem stamped_recordAll {allObs : List (RelayObservation × ℤ)} {now : ℤ} (started : 0 ≤ now)
    (stamps : ∀ obs ∈ allObs, 0 < obs.2 ∧ obs.2 ≤ now) :
    let qual : RelayQuality ℝ := recordAll allObs
    (qual.evidence.Stamped ∧ qual.evidence.lastUpdate ≤ now) ∧
      qual.validAnnouncements.Stamped ∧ qual.validAnnouncements.lastUpdate ≤ now := by
  induction allObs using List.reverseRecOn with
  | nil => exact ⟨⟨Or.inl rfl, started⟩, ⟨Or.inl rfl, started⟩⟩
  | append_singleton init last ih =>
    obtain ⟨evidence, announcements⟩ := ih fun obs mem =>
      stamps obs (mem_append_left _ mem)
    obtain ⟨pos, past⟩ := stamps last (mem_append_right _ mem_cons_self)
    rw [recordAll, foldl_append, foldl_cons, foldl_nil, ← recordAll]
    obtain ⟨obs, stamp⟩ := last
    cases obs with
    | validatedAnnouncement => exact ⟨⟨Or.inr pos, past⟩, ⟨Or.inr pos, past⟩⟩
    | _ => exact ⟨⟨Or.inr pos, past⟩, announcements⟩

open DecayingSignal in
/-- When recording more evidence destroys none. After any observations, a further one
leaves the effective observations at least as many, read later than all of them, exactly if
the evidence keeps its weight; and one more validated announcement leaves its component of
the score at least as high exactly if its signal does, or has more weight than counts. -/
theorem record_keeps_iff (allObs : List (RelayObservation × ℤ)) {stamp now : ℤ}
    (pos : 0 < stamp) (later : stamp ≤ now) (stamps : ∀ obs ∈ allObs, 0 < obs.2 ∧ obs.2 ≤ now) :
    let qual : RelayQuality ℝ := recordAll allObs
    (∀ obs, qual.effectiveObservations now ≤ (qual.record stamp obs).effectiveObservations now ↔
      qual.evidence.KeepsWeight stamp) ∧
    ∀ ctx, (qual.scoreBreakdown ctx now).validatedAnnouncements ≤
        ((qual.observeValidatedAnnouncement stamp).scoreBreakdown ctx
          now).validatedAnnouncements ↔
      qual.validAnnouncements.KeepsWeight stamp ∨
        8 ≤ (qual.validAnnouncements.weight + 1) * halfLifeLaw.factor (now - stamp) := by
  intro qual
  obtain ⟨⟨evidence, past⟩, announcements, past'⟩ := stamped_recordAll (pos.le.trans later) stamps
  constructor
  · intro obs
    rw [← evidence.effectiveWeight_le_observe_iff past pos later 1]
    cases obs <;> rfl
  · intro ctx
    rw [← announcements.effectiveWeight_le_observe_iff past' pos later 1]
    change min 1 (qual.validAnnouncements.effectiveWeight now / 8) ≤
      min 1 ((qual.validAnnouncements.observe 1 stamp).effectiveWeight now / 8) ↔ _
    rw [le_min_iff, and_iff_right (min_le_left _ _), min_le_iff,
      div_le_div_iff_of_pos_right (by norm_num), one_le_div (by norm_num), or_comm]
    refine or_congr_right' ?_
    intro loses
    rw [announcements.effectiveWeight_le_observe_iff past' pos later 1, KeepsWeight, not_or,
      not_le] at loses
    rw [effectiveWeight_observe _ _ pos, age_of_le later, effectiveWeight, decayFactor,
      if_pos (Or.inr loses.1.le), mul_one]

/-- An announcement half a life after another. -/
theorem record_keeps_forward :
    (recordAll [(.validatedAnnouncement, 43200)] : RelayQuality ℝ).effectiveObservations 86400 ≤
      ((recordAll [(.validatedAnnouncement, 43200)]).record 86400
        .validatedAnnouncement).effectiveObservations 86400 :=
  ((record_keeps_iff [(.validatedAnnouncement, 43200)] (by decide) (le_refl 86400)
    (by simp)).1 .validatedAnnouncement).mpr (Or.inl (by decide))

open DecayingSignal in
/-- Two half-lives backwards: the second announcement halves the evidence. -/
theorem record_backwards_destroys :
    let qual : RelayQuality ℝ := recordAll [(.validatedAnnouncement, 172801)]
    qual.effectiveObservations 172801 = 1 ∧
      (qual.record 1 .validatedAnnouncement).effectiveObservations 172801 = 1 / 2 ∧
      (qual.scoreBreakdown ⟨0, 0, 0⟩ 172801).validatedAnnouncements = 1 / 8 ∧
      ((qual.observeValidatedAnnouncement 1).scoreBreakdown ⟨0, 0, 0⟩
        172801).validatedAnnouncements = 1 / 16 := by
  have quarter : (2 : ℝ) ^ (-2 : ℝ) = 1 / 4 := by
    rw [Real.rpow_neg two_pos.le, Real.rpow_two]
    norm_num
  have once : (DecayingSignal.empty.observe 1 172801 : DecayingSignal ℝ).effectiveWeight
      172801 = 1 := by
    simp [effectiveWeight, observe, decayTo, decayFactor, DecayingSignal.empty]
  have twice : ((DecayingSignal.empty.observe 1 172801 : DecayingSignal ℝ).observe 1
      1).effectiveWeight 172801 = 1 / 2 := by
    norm_num [effectiveWeight, observe, decayTo, decayFactor, DecayingSignal.empty, Exp2.exp2,
      qualityHalfLifeSeconds, quarter]
  refine ⟨once, twice, ?_, ?_⟩
  · change min 1 ((DecayingSignal.empty.observe 1 172801 : DecayingSignal ℝ).effectiveWeight _ /
      8) = _
    rw [once]
    norm_num
  · change min 1 (((DecayingSignal.empty.observe 1 172801 : DecayingSignal ℝ).observe 1
      1).effectiveWeight _ / 8) = _
    rw [twice]
    norm_num

end RelayQuality

end BitcoinCore.Node
