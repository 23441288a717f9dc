import BitcoinCore.NetProcessing.Eviction

/-!
# The relay score over whole histories

The mean of a signal does not depend on when it is read: sum and weight decay by the same
factor. An observation draws the mean towards its value, so more evidence moves the score the
way it should (`score_monotone`). Every component of the score is normalised
(`score_normalised`), and the evidence that is counted is held by the signals that are scored,
which may be updated at other times (`evidence_accounted`).
-/

namespace BitcoinCore.Node

open DecayedSum List DecayingSignal

namespace DecayingSignal

variable {sig : DecayingSignal ℝ}

theorem decayFactor_pos (sig : DecayingSignal ℝ) (now : ℤ) : 0 < sig.decayFactor now := by
  rw [decayFactor]
  split_ifs
  · exact one_pos
  · exact Real.rpow_pos_of_pos two_pos _

theorem mean_eq (sig : DecayingSignal ℝ) (now : ℤ) (alt : ℝ) :
    sig.mean now alt = if sig.weight ≤ 0 then alt else sig.sum / sig.weight := by
  have factor := sig.decayFactor_pos now
  have sign : sig.weight * sig.decayFactor now ≤ 0 ↔ sig.weight ≤ 0 := by
    rw [← not_lt, mul_pos_iff_of_pos_right factor, not_lt]
  simp only [mean, mul_div_mul_right _ _ factor.ne', sign]

/-- The values are in `[0, 1]`, so their sum is at most their weight. -/
structure Balanced (sig : DecayingSignal ℝ) : Prop where
  sum_nonneg : 0 ≤ sig.sum
  sum_le : sig.sum ≤ sig.weight

theorem balanced_empty : (empty : DecayingSignal ℝ).Balanced := ⟨le_rfl, le_rfl⟩

namespace Balanced

variable (bal : sig.Balanced)
include bal

theorem observe (val : ℝ) (now : ℤ) : (sig.observe val now).Balanced := by
  have factor := sig.decayFactor_pos now
  have low : 0 ≤ clamp val 0 1 := low_le_clamp zero_le_one val
  have high : clamp val 0 1 ≤ 1 := by
    unfold clamp
    split_ifs with below above
    · exact zero_le_one
    · exact le_rfl
    · exact not_lt.mp above
  have scaled := mul_le_mul_of_nonneg_right bal.sum_le factor.le
  exact ⟨add_nonneg (mul_nonneg bal.sum_nonneg factor.le) low, add_le_add scaled high⟩

theorem weight_observe_pos (val : ℝ) (now : ℤ) : 0 < (sig.observe val now).weight :=
  add_pos_of_nonneg_of_pos (mul_nonneg (bal.sum_nonneg.trans bal.sum_le)
    (sig.decayFactor_pos now).le) one_pos

variable {alt : ℝ}

theorem mean_mem (now : ℤ) (normal : alt ∈ Set.Icc 0 1) : sig.mean now alt ∈ Set.Icc 0 1 := by
  rw [mean_eq]
  split_ifs with unobserved
  · exact normal
  · exact ⟨div_nonneg bal.sum_nonneg (not_le.mp unobserved).le,
      (div_le_one (not_le.mp unobserved)).mpr bal.sum_le⟩

/-- An observation draws the mean towards its value, by the share of its weight. -/
theorem mean_observe {val : ℝ} (normal : clamp val 0 1 = val) (stamp now : ℤ) (alt : ℝ) :
    (sig.observe val stamp).mean now alt = sig.mean now alt +
      (val - sig.mean now alt) / (sig.observe val stamp).weight := by
  have weight := bal.weight_observe_pos val stamp
  rw [mean_eq, if_neg weight.not_ge, mean_eq]
  split_ifs with unobserved
  · obtain ⟨sum, weight⟩ : sig.sum = 0 ∧ sig.weight = 0 := by
      constructor <;> linarith [bal.sum_nonneg, bal.sum_le]
    simp [DecayingSignal.observe, decayTo, sum, weight, normal]
  · have pos := not_le.mp unobserved
    rw [div_eq_iff weight.ne', add_mul, div_mul_cancel₀ _ weight.ne']
    simp only [DecayingSignal.observe, decayTo, normal]
    field_simp
    ring

theorem mean_le_observe_one (stamp now : ℤ) (normal : alt ∈ Set.Icc 0 1) :
    sig.mean now alt ≤ (sig.observe 1 stamp).mean now alt := by
  rw [bal.mean_observe (by simp [clamp])]
  exact le_add_of_nonneg_right (div_nonneg (sub_nonneg.mpr (bal.mean_mem now normal).2)
    (bal.weight_observe_pos 1 stamp).le)

theorem mean_lt_observe_one (stamp : ℤ) {now : ℤ} (below : sig.mean now alt < 1) :
    sig.mean now alt < (sig.observe 1 stamp).mean now alt := by
  rw [bal.mean_observe (by simp [clamp])]
  exact lt_add_of_pos_right _ (div_pos (sub_pos.mpr below) (bal.weight_observe_pos 1 stamp))

theorem mean_observe_zero_le (stamp now : ℤ) (normal : alt ∈ Set.Icc 0 1) :
    (sig.observe 0 stamp).mean now alt ≤ sig.mean now alt := by
  rw [bal.mean_observe (by simp [clamp])]
  exact add_le_of_nonpos_right (div_nonpos_of_nonpos_of_nonneg
    (sub_nonpos.mpr (bal.mean_mem now normal).1) (bal.weight_observe_pos 0 stamp).le)

end Balanced

/-! ### What a signal still weighs later -/

/-- A signal that positive stamps have led to. -/
structure Held (sig : DecayingSignal ℝ) : Prop where
  stamped : sig.Stamped
  nonneg : 0 ≤ sig.weight

theorem held_empty : (empty : DecayingSignal ℝ).Held := ⟨Or.inl rfl, le_rfl⟩

theorem Held.observe (held : sig.Held) (val : ℝ) {stamp : ℤ} (pos : 0 < stamp) :
    (sig.observe val stamp).Held :=
  ⟨Or.inr pos, add_nonneg (mul_nonneg held.nonneg (sig.decayFactor_pos stamp).le) zero_le_one⟩

end DecayingSignal

namespace RelayScoreContext

/-- The values of a context are normalised. -/
structure Normalised (context : RelayScoreContext ℝ) : Prop where
  chainFreshness : context.chainFreshness ∈ Set.Icc 0 1
  availability : context.availability ∈ Set.Icc 0 1
  latency : context.latency ∈ Set.Icc 0 1

end RelayScoreContext

theorem clamp_mono {lower upper : ℝ} (ordered : lower ≤ upper) :
    clamp lower (-1) 1 ≤ clamp upper (-1) 1 := by
  unfold clamp
  split_ifs <;> linarith

theorem clamp_of_le {val : ℝ} (high : val ≤ 1) : clamp val (-1) 1 = max (-1) val := by
  unfold clamp
  split_ifs with below above
  · exact (max_eq_left below.le).symm
  · exact absurd high above.not_ge
  · exact (max_eq_right (not_lt.mp below)).symm

namespace RelayQuality

/-! ## The invariant of a history -/

/-- Every signal is balanced, and the requests that stalled are those that did not succeed. -/
structure Balanced (qual : RelayQuality ℝ) : Prop where
  validAnnouncements : qual.validAnnouncements.Balanced
  requestedBlockSuccess : qual.requestedBlockSuccess.Balanced
  compactQuality : qual.compactQuality.Balanced
  stallRate : qual.stallRate.Balanced
  invalidBlockRate : qual.invalidBlockRate.Balanced
  stall_lastUpdate : qual.stallRate.lastUpdate = qual.requestedBlockSuccess.lastUpdate
  stall_weight : qual.stallRate.weight = qual.requestedBlockSuccess.weight
  stall_sum : qual.stallRate.sum + qual.requestedBlockSuccess.sum =
    qual.requestedBlockSuccess.weight

theorem balanced_empty : (empty : RelayQuality ℝ).Balanced := by
  constructor
  all_goals first | exact DecayingSignal.balanced_empty | simp [empty, DecayingSignal.empty]

theorem Balanced.record {qual : RelayQuality ℝ} (bal : qual.Balanced) (stamp : ℤ)
    (obs : RelayObservation) : (qual.record stamp obs).Balanced := by
  cases obs with
  | validatedAnnouncement =>
    exact { bal with validAnnouncements := bal.validAnnouncements.observe 1 stamp }
  | requestedBlockResult ok =>
    have factor : qual.stallRate.decayFactor stamp =
        qual.requestedBlockSuccess.decayFactor stamp := by
      rw [decayFactor, decayFactor, bal.stall_lastUpdate]
    refine { bal with
      requestedBlockSuccess := bal.requestedBlockSuccess.observe _ stamp
      stallRate := bal.stallRate.observe _ stamp
      stall_lastUpdate := rfl
      stall_weight := ?_
      stall_sum := ?_ }
    · change qual.stallRate.weight * _ + 1 = qual.requestedBlockSuccess.weight * _ + 1
      rw [factor, bal.stall_weight]
    · change qual.stallRate.sum * _ + clamp _ 0 1 +
        (qual.requestedBlockSuccess.sum * _ + clamp _ 0 1) =
          qual.requestedBlockSuccess.weight * _ + 1
      rw [factor, ← bal.stall_sum]
      cases ok <;> norm_num [clamp] <;> ring
  | compactBlockResult outcome =>
    exact { bal with compactQuality := bal.compactQuality.observe _ stamp }
  | validFullBlockSource =>
    exact { bal with invalidBlockRate := bal.invalidBlockRate.observe 0 stamp }
  | invalidFullBlockSource =>
    exact { bal with invalidBlockRate := bal.invalidBlockRate.observe 1 stamp }

theorem recordAll_concat (init : List (RelayObservation × ℤ)) (last : RelayObservation × ℤ) :
    (recordAll (init ++ [last]) : RelayQuality ℝ) = (recordAll init).record last.2 last.1 := by
  simp [recordAll]

theorem balanced_recordAll (allObs : List (RelayObservation × ℤ)) :
    (recordAll allObs : RelayQuality ℝ).Balanced := by
  induction allObs using reverseRecOn with
  | nil => exact balanced_empty
  | append_singleton init last ih =>
    rw [recordAll_concat]
    exact ih.record last.2 last.1

/-- A requested-block result gives its signals weight, which no later observation takes away. -/
theorem weight_pos_of_requested {allObs : List (RelayObservation × ℤ)}
    (req : ∃ ok stamp, (.requestedBlockResult ok, stamp) ∈ allObs) :
    0 < (recordAll allObs : RelayQuality ℝ).requestedBlockSuccess.weight := by
  obtain ⟨ok, stamp, mem⟩ := req
  induction allObs using reverseRecOn with
  | nil => exact absurd mem not_mem_nil
  | append_singleton init last ih =>
    rw [recordAll_concat]
    obtain ⟨obs, time⟩ := last
    have bal := balanced_recordAll init
    cases obs with
    | requestedBlockResult _ => exact bal.requestedBlockSuccess.weight_observe_pos _ time
    | _ => exact ih (by simpa using mem)

/-! ## Normalisation -/

namespace Balanced

variable {qual : RelayQuality ℝ} (bal : qual.Balanced)
include bal

theorem validatedAnnouncements_mem (context : RelayScoreContext ℝ) (now : ℤ) :
    (qual.scoreBreakdown context now).validatedAnnouncements ∈ Set.Icc 0 1 := by
  have nonneg : 0 ≤ qual.validAnnouncements.effectiveWeight now :=
    mul_nonneg (bal.validAnnouncements.sum_nonneg.trans bal.validAnnouncements.sum_le)
      (qual.validAnnouncements.decayFactor_pos now).le
  exact ⟨le_min zero_le_one (by positivity), min_le_left _ _⟩

theorem means_mem (now : ℤ) :
    qual.requestedBlockSuccess.mean now (1 / 2) ∈ Set.Icc 0 1 ∧
    qual.compactQuality.mean now (1 / 2) ∈ Set.Icc 0 1 ∧
    qual.stallRate.mean now 0 ∈ Set.Icc 0 1 ∧ qual.invalidBlockRate.mean now 0 ∈ Set.Icc 0 1 :=
  ⟨bal.requestedBlockSuccess.mean_mem now (by norm_num),
    bal.compactQuality.mean_mem now (by norm_num), bal.stallRate.mean_mem now (by norm_num),
    bal.invalidBlockRate.mean_mem now (by norm_num)⟩

/-- The positive weights add up to one. -/
theorem unclamped_le {context : RelayScoreContext ℝ} (normal : context.Normalised) (now : ℤ) :
    (qual.scoreBreakdown context now).unclamped ≤ 1 := by
  have announcements := (bal.validatedAnnouncements_mem context now).2
  obtain ⟨⟨_, success⟩, ⟨_, compact⟩, ⟨stalls, _⟩, ⟨invalid, _⟩⟩ := bal.means_mem now
  have freshness := normal.chainFreshness.2
  have availability := normal.availability.2
  have latency := normal.latency.2
  simp only [scoreBreakdown] at announcements
  simp only [RelayScoreBreakdown.unclamped, scoreBreakdown]
  linarith

theorem stallRate_eq (observed : 0 < qual.requestedBlockSuccess.weight) (now : ℤ) :
    qual.stallRate.mean now 0 = 1 - qual.requestedBlockSuccess.mean now (1 / 2) := by
  rw [mean_eq, mean_eq, bal.stall_weight,
    if_neg observed.not_ge, if_neg observed.not_ge, eq_sub_iff_add_eq, ← add_div,
    bal.stall_sum, div_self observed.ne']

end Balanced

/-! ## More evidence -/

theorem score_eq (qual : RelayQuality ℝ) (context : RelayScoreContext ℝ) (now : ℤ) :
    qual.score context now = clamp (qual.scoreBreakdown context now).unclamped (-1) 1 := rfl

/-- More evidence moves the score the way it should, whenever it is observed and whenever the
score is read: an invalid block or a stalled request never raises it, a valid block or a block
delivered on request never lowers it, and an invalid block lowers it strictly as long as there is
room below and the invalid-block rate is not one already. -/
theorem score_monotone (allObs : List (RelayObservation × ℤ)) (context : RelayScoreContext ℝ)
    (stamp now : ℤ) :
    let qual : RelayQuality ℝ := recordAll allObs
    (qual.observeInvalidFullBlockSource stamp).score context now ≤ qual.score context now ∧
    (qual.observeRequestedBlockResult false stamp).score context now ≤ qual.score context now ∧
    qual.score context now ≤ (qual.observeValidFullBlockSource stamp).score context now ∧
    qual.score context now ≤ (qual.observeRequestedBlockResult true stamp).score context now ∧
    (context.Normalised → -1 < qual.score context now → qual.invalidBlockRate.mean now 0 < 1 →
      (qual.observeInvalidFullBlockSource stamp).score context now <
        qual.score context now) := by
  intro qual
  have bal : qual.Balanced := balanced_recordAll allObs
  have half : (1 / 2 : ℝ) ∈ Set.Icc 0 1 := by norm_num
  have zero : (0 : ℝ) ∈ Set.Icc 0 1 := by norm_num
  have invalid := bal.invalidBlockRate.mean_le_observe_one stamp now zero
  have valid := bal.invalidBlockRate.mean_observe_zero_le stamp now zero
  have success := bal.requestedBlockSuccess.mean_le_observe_one stamp now half
  have failure := bal.requestedBlockSuccess.mean_observe_zero_le stamp now half
  have stall := bal.stallRate.mean_le_observe_one stamp now zero
  have progress := bal.stallRate.mean_observe_zero_le stamp now zero
  refine ⟨?_, ?_, ?_, ?_, ?_⟩
  · apply clamp_mono
    exact sub_le_sub_left invalid _
  · apply clamp_mono
    simp only [observeRequestedBlockResult, addEvidence, Bool.false_eq_true, if_false]
    linarith
  · apply clamp_mono
    exact sub_le_sub_left valid _
  · apply clamp_mono
    simp only [observeRequestedBlockResult, addEvidence, if_true]
    linarith
  · intro normal room below
    have lower : ((qual.observeInvalidFullBlockSource stamp).scoreBreakdown context
        now).unclamped < (qual.scoreBreakdown context now).unclamped :=
      sub_lt_sub_left (bal.invalidBlockRate.mean_lt_observe_one stamp below) _
    have high := bal.unclamped_le normal now
    rw [score_eq, clamp_of_le high, lt_max_iff, or_iff_right (lt_irrefl _)] at room
    rw [score_eq, score_eq, clamp_of_le high, clamp_of_le (lower.le.trans high),
      max_eq_right room.le]
    exact max_lt room lower

/-! ## Accounting for the evidence -/

/-- The signals that hold observations of their own: a requested-block result is counted once,
by its success. -/
def scored (qual : RelayQuality ℝ) : List (DecayingSignal ℝ) :=
  [qual.validAnnouncements, qual.requestedBlockSuccess, qual.compactQuality, qual.invalidBlockRate]

/-- What signals weigh together. -/
noncomputable def totalWeight (signals : List (DecayingSignal ℝ)) (now : ℤ) : ℝ :=
  (signals.map (·.effectiveWeight now)).sum

theorem totalWeight_perm {signals others : List (DecayingSignal ℝ)} (perm : signals.Perm others)
    (now : ℤ) : totalWeight signals now = totalWeight others now :=
  (perm.map _).sum_eq

theorem totalWeight_cons (sig : DecayingSignal ℝ) (others : List (DecayingSignal ℝ)) (now : ℤ) :
    totalWeight (sig :: others) now = sig.effectiveWeight now + totalWeight others now := by
  simp [totalWeight]

/-- Every observation is evidence, and is held by one of the scored signals. -/
theorem record_split (qual : RelayQuality ℝ) (stamp : ℤ) (obs : RelayObservation) :
    (qual.record stamp obs).evidence = qual.evidence.observe 1 stamp ∧
      ∃ sig val others, qual.scored.Perm (sig :: others) ∧
        (qual.record stamp obs).scored.Perm (sig.observe val stamp :: others) := by
  refine ⟨by cases obs <;> rfl, ?_⟩
  cases obs with
  | validatedAnnouncement => exact ⟨_, _, _, Perm.refl _, Perm.refl _⟩
  | requestedBlockResult _ =>
    exact ⟨_, _, _, @perm_middle _ _ [_] _, @perm_middle _ _ [_] _⟩
  | compactBlockResult _ =>
    exact ⟨_, _, _, @perm_middle _ _ [_, _] _, @perm_middle _ _ [_, _] _⟩
  | validFullBlockSource =>
    exact ⟨_, _, _, @perm_middle _ _ [_, _, _] _, @perm_middle _ _ [_, _, _] _⟩
  | invalidFullBlockSource =>
    exact ⟨_, _, _, @perm_middle _ _ [_, _, _] _, @perm_middle _ _ [_, _, _] _⟩

/-- Signals weigh what the list of their last updates does, each with the weight it had then. -/
theorem totalWeight_eq {signals : List (DecayingSignal ℝ)} (held : ∀ sig ∈ signals, sig.Held)
    (now : ℤ) : totalWeight signals now =
      halfLifeLaw.decayed (signals.map fun sig => (sig.weight, sig.lastUpdate)) now := by
  rw [totalWeight, DecayLaw.decayed, map_map]
  exact congrArg List.sum (map_congr_left fun sig mem =>
    (held sig mem).stamped.effectiveWeight_eq now)

theorem totalWeight_scored_empty (now : ℤ) :
    totalWeight (empty : RelayQuality ℝ).scored now =
      (empty : RelayQuality ℝ).effectiveObservations now := by
  simp [empty, scored, totalWeight, effectiveObservations, DecayingSignal.effectiveWeight,
    DecayingSignal.empty]

/-- The evidence is at most what the scored signals weigh, whenever it is read, and exactly that
for ordered stamps. -/
theorem effectiveObservations_le (allObs : List (RelayObservation × ℤ))
    (pos : ∀ obs ∈ allObs, 0 < obs.2) :
    let qual : RelayQuality ℝ := recordAll allObs
    ((∀ sig ∈ qual.scored, sig.Held) ∧
      ∀ now, qual.effectiveObservations now ≤ totalWeight qual.scored now) ∧
    (allObs.Pairwise (fun init later => init.2 ≤ later.2) → ∀ now,
      (∀ obs ∈ allObs, obs.2 ≤ now) →
        (∀ sig ∈ qual.scored, sig = .empty ∨ sig.lastUpdate ≤ now) ∧
        qual.effectiveObservations now = totalWeight qual.scored now) := by
  -- Induction from the last observation: what the others weigh at its stamp is compared with
  -- what they weigh later, so the bound is carried for every time at once.
  induction allObs using reverseRecOn with
  | nil =>
    refine ⟨⟨?_, fun now => (totalWeight_scored_empty now).ge⟩, fun _ now _ =>
      ⟨?_, (totalWeight_scored_empty now).symm⟩⟩
    · simp [recordAll, empty, scored, held_empty]
    · simp [recordAll, empty, scored]
  | append_singleton init last ih =>
    obtain ⟨⟨held, bound⟩, equal⟩ := ih fun obs mem => pos obs (mem_append_left _ mem)
    have stamp : 0 < last.2 := pos last (by simp)
    rw [recordAll_concat]
    obtain ⟨counted, sig, val, others, split, recorded⟩ :=
      (recordAll init : RelayQuality ℝ).record_split last.2 last.1
    simp only [split.mem_iff, forall_mem_cons] at held equal
    simp only [recorded.mem_iff, forall_mem_cons]
    simp only [effectiveObservations, counted, totalWeight_perm recorded, totalWeight_cons,
      effectiveWeight_observe _ _ stamp]
    refine ⟨⟨⟨held.1.observe val stamp, held.2⟩, fun now => ?_⟩, fun ordered now past => ?_⟩
    · have carried : totalWeight others last.2 * halfLifeLaw.factor (age now last.2) ≤
          totalWeight others now := by
        rw [totalWeight_eq held.2, totalWeight_eq held.2]
        exact halfLifeLaw.decayed_age_le
          (forall_mem_map.mpr fun other mem => (held.2 other mem).nonneg) last.2 now
      have scaled := mul_le_mul_of_nonneg_right (bound last.2)
        (halfLifeLaw.factor_pos (age now last.2)).le
      rw [effectiveObservations, totalWeight_perm split, totalWeight_cons, add_mul] at scaled
      rw [add_mul, add_mul]
      linarith
    · rw [pairwise_append] at ordered
      obtain ⟨⟨-, pasts⟩, equal⟩ := equal ordered.1 last.2 fun obs mem =>
        ordered.2.2 obs mem last (by simp)
      have later : last.2 ≤ now := past last (by simp)
      refine ⟨⟨Or.inr later, fun other mem => ?_⟩, ?_⟩
      · exact (pasts other mem).imp_right (·.trans later)
      · have carried : totalWeight others last.2 * halfLifeLaw.factor (age now last.2) =
            totalWeight others now := by
          rw [totalWeight_eq held.2, totalWeight_eq held.2]
          refine halfLifeLaw.decayed_age_eq (forall_mem_map.mpr fun other mem => ?_) later
          rcases pasts other mem with rfl | past
          · exact stamp.le
          · exact past
        rw [effectiveObservations, totalWeight_perm split, totalWeight_cons] at equal
        rw [← carried, equal]
        ring

/-- The evidence is accounted for by the scored signals. Whatever the order of the stamps, it
never exceeds what they weigh, so no threshold is met by an observation that none of them holds;
and for ordered stamps, none in the future, it is exactly what they weigh. -/
theorem evidence_accounted (allObs : List (RelayObservation × ℤ))
    (pos : ∀ obs ∈ allObs, 0 < obs.2) (now : ℤ) :
    let qual : RelayQuality ℝ := recordAll allObs
    let held := qual.validAnnouncements.effectiveWeight now +
      qual.requestedBlockSuccess.effectiveWeight now +
      qual.compactQuality.effectiveWeight now + qual.invalidBlockRate.effectiveWeight now
    qual.effectiveObservations now ≤ held ∧
    (allObs.Pairwise (fun init later => init.2 ≤ later.2) → (∀ obs ∈ allObs, obs.2 ≤ now) →
      qual.effectiveObservations now = held) ∧
    ∀ connectedSeconds, qual.hasEnoughEvidence now connectedSeconds → 12 ≤ held := by
  intro qual held
  have total : totalWeight qual.scored now = held := by
    simp only [totalWeight, scored, map_cons, map_nil, sum_cons, sum_nil, held]
    ring
  rw [← total]
  have bound := (effectiveObservations_le allObs pos).1.2 now
  refine ⟨bound, ?_, ?_⟩
  · intro ordered past
    exact ((effectiveObservations_le allObs pos).2 ordered now past).2
  · intro connectedSeconds enough
    rw [hasEnoughEvidence, Bool.and_eq_true, decide_eq_true_iff, decide_eq_true_iff] at enough
    exact enough.2.trans bound

/-- A block delivered on request, and one found invalid an hour earlier by the clock. -/
theorem evidence_accounted_backwards :
    let qual : RelayQuality ℝ :=
      recordAll [(.requestedBlockResult true, 7200), (.invalidFullBlockSource, 3600)]
    qual.effectiveObservations 10800 ≤ qual.validAnnouncements.effectiveWeight 10800 +
      qual.requestedBlockSuccess.effectiveWeight 10800 +
      qual.compactQuality.effectiveWeight 10800 +
      qual.invalidBlockRate.effectiveWeight 10800 :=
  (evidence_accounted [(.requestedBlockResult true, 7200), (.invalidFullBlockSource, 3600)]
    (by simp) 10800).1

end RelayQuality

end BitcoinCore.Node

namespace BitcoinCore.NetProcessing

open Chain Net Node

variable {Block : Type*} (memory : BlockMemory Block) (node : CNode)

theorem normalised_buildRelayScoreContext (state : CNodeState Block ℝ) (tip : Block) (now : ℤ) :
    (buildRelayScoreContext memory node state tip now).Normalised where
  chainFreshness := by
    rw [buildRelayScoreContext]
    cases state.pindexBestKnownBlock with
    | none => exact ⟨le_rfl, zero_le_one⟩
    | some best =>
      simp only [Option.elim_some]
      split_ifs
      · exact ⟨zero_le_one, le_rfl⟩
      · refine ⟨Real.rpow_nonneg two_pos.le _, ?_⟩
        apply Real.rpow_le_one_of_one_le_of_nonpos one_le_two
        have lag : (0 : ℝ) ≤ (max 0 ((memory tip).nHeight - (memory best).nHeight) : ℤ) := by
          exact_mod_cast le_max_left _ _
        apply div_nonpos_of_nonpos_of_nonneg
        · linarith
        · positivity
  availability := by
    have connected : (0 : ℝ) ≤ (max 0 (now - node.connected) : ℤ) := by
      exact_mod_cast le_max_left _ _
    exact ⟨le_min zero_le_one (by positivity), min_le_left _ _⟩
  latency := by
    rw [buildRelayScoreContext]
    dsimp only
    split_ifs with measured
    · have ping : (0 : ℝ) < node.lastPingTime := by exact_mod_cast measured
      refine ⟨by positivity, ?_⟩
      rw [div_le_one (by positivity)]
      have share : (0 : ℝ) ≤ (node.lastPingTime : ℝ) / 1000 / 250 := by positivity
      linarith
    · norm_num

/-- The score is normalised over whole histories. After any observations, at any time and in
any context the node builds, every component is in `[0, 1]`; the weighted sum is at most one, so
only the lower clamp acts; and once a requested-block result is recorded, the stall rate is the
complement of the success rate. -/
theorem score_normalised (allObs : List (RelayObservation × ℤ))
    (state : CNodeState Block ℝ) (tip : Block) (built now : ℤ) :
    let qual : RelayQuality ℝ := .recordAll allObs
    let breakdown := qual.scoreBreakdown (buildRelayScoreContext memory node state tip built) now
    (breakdown.validatedAnnouncements ∈ Set.Icc 0 1 ∧
      breakdown.requestedBlockSuccess ∈ Set.Icc 0 1 ∧ breakdown.compactBlockQuality ∈ Set.Icc 0 1 ∧ breakdown.chainFreshness ∈ Set.Icc 0 1 ∧
      breakdown.availability ∈ Set.Icc 0 1 ∧ breakdown.latency ∈ Set.Icc 0 1 ∧
      breakdown.stallRate ∈ Set.Icc 0 1 ∧ breakdown.invalidBlockRate ∈ Set.Icc 0 1) ∧
    (breakdown.unclamped ≤ 1 ∧ breakdown.total = clamp breakdown.unclamped (-1) 1 ∧
      breakdown.total = max (-1) breakdown.unclamped) ∧
    breakdown.total ∈ Set.Icc (-1) 1 ∧
    ((∃ ok stamp, (.requestedBlockResult ok, stamp) ∈ allObs) →
      breakdown.stallRate = 1 - breakdown.requestedBlockSuccess) := by
  intro qual breakdown
  have bal := RelayQuality.balanced_recordAll allObs
  have normal := normalised_buildRelayScoreContext memory node state tip built
  have high : breakdown.unclamped ≤ 1 := bal.unclamped_le normal now
  have total : breakdown.total = max (-1) breakdown.unclamped := clamp_of_le high
  obtain ⟨success, compact, stalls, invalid⟩ := bal.means_mem now
  refine ⟨⟨bal.validatedAnnouncements_mem _ now, success, compact, normal.chainFreshness,
    normal.availability, normal.latency, stalls, invalid⟩, ⟨high, rfl, total⟩, ?_, ?_⟩
  · rw [total]
    exact ⟨le_max_left _ _, max_le (by norm_num) high⟩
  · intro req
    exact bal.stallRate_eq (RelayQuality.weight_pos_of_requested req) now

end BitcoinCore.NetProcessing
