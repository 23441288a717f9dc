import BitcoinCore.Chain.MedianTime

/-!
# Soft-fork deployment states and their cache

A deployment goes through its states period by period. `GetStateFor` finds the state for
the block after a given one: it goes back over whole periods to one whose state is in the
cache, or whose median time past is below the start time, and from there forward again,
writing into the cache. `GetStateSinceHeightFor` asks for earlier periods until the state
changes.

What the states mean is said without cache or shortcuts (`periodState`): the first period
is `defined`, and the state of every further period follows from the one before and its
last block. Every entry of the cache is such a state (`Truthful`), and so are the answers
(`answerAll_correct`).
-/

namespace BitcoinCore.VersionBits

open Chain Function Option List Nat

/-- The states of a deployment. -/
inductive ThresholdState where
  | defined
  | started
  | lockedIn
  | active
  | failed
  deriving DecidableEq

/-- What a deployment asks for; `condition` tells whether a block signals. -/
structure Deployment (Block : Type*) where
  period : ℕ
  threshold : ℤ
  beginTime : ℤ
  endTime : ℤ
  minActivationHeight : ℤ
  condition : Block → Bool

/-- The start time of a deployment that is active from the genesis block. -/
def alwaysActive : ℤ := -1

/-- The start time of a deployment that never starts. -/
def neverActive : ℤ := -2

/-- The states known for the block after a block, or for the genesis block after the null
pointer. -/
abbrev ThresholdConditionCache (Block : Type*) := Option Block → Option ThresholdState

variable {Block : Type*} [DecidableEq Block]

section

variable (memory : BlockMemory Block) (time : Block → ℤ)
  (dep : Deployment Block)

/-- Count the signalling blocks of a number of blocks, from one back. There is no result
where the code would follow a null pointer. -/
def countSignals : ℕ → Option Block → Option ℕ
  | 0, _ => some 0
  | _ + 1, none => none
  | left + 1, some block =>
    (countSignals left (memory block).pprev).map fun count =>
      if dep.condition block then count + 1 else count

/-- One step forward: the state of a period from the state of the one before, and the last
block of it. -/
def nextState (state : ThresholdState) (pindexPrev : Block) : Option ThresholdState :=
  match state with
  | .defined =>
    if dep.beginTime ≤ getMedianTimePast memory time pindexPrev then some .started
    else some .defined
  | .started =>
    (countSignals memory dep dep.period (some pindexPrev)).map fun (count : ℕ) =>
      if dep.threshold ≤ (count : ℤ) then .lockedIn
      else if dep.endTime ≤ getMedianTimePast memory time pindexPrev then .failed
      else .started
  | .lockedIn =>
    if dep.minActivationHeight ≤ (memory pindexPrev).nHeight + 1 then some .active
    else some .lockedIn
  | .failed => some .failed
  | .active => some .active

/-- The last block of the period before the one that follows a block. -/
def periodParent (pindexPrev : Block) : Option Block :=
  getAncestor memory pindexPrev ((memory pindexPrev).nHeight -
    ((memory pindexPrev).nHeight + 1) % dep.period)

/-- One period further back. -/
def previousPeriodParent (pindexPrev : Block) : Option Block :=
  getAncestor memory pindexPrev ((memory pindexPrev).nHeight - dep.period)

/-- The walk back to a block whose state is known, with a bound on its rounds. The blocks to
compute come last one first. -/
def walkBack : ℕ → ThresholdConditionCache Block → Option Block → List Block →
    Option (ThresholdConditionCache Block × Option Block × List Block)
  | 0, _, _, _ => none
  | rounds + 1, cache, pindexPrev, toCompute =>
    if (cache pindexPrev).isSome then some (cache, pindexPrev, toCompute)
    else
      match pindexPrev with
      | none => some (Function.update cache none (some .defined), none, toCompute)
      | some block =>
        if getMedianTimePast memory time block < dep.beginTime then
          some (Function.update cache (some block) (some .defined), some block, toCompute)
        else walkBack rounds cache (previousPeriodParent memory dep block) (block :: toCompute)

/-- The walk forward over the blocks to compute, which writes their states into the cache. -/
def walkForward : ThresholdConditionCache Block → ThresholdState → List Block →
    Option (ThresholdState × ThresholdConditionCache Block)
  | cache, state, [] => some (state, cache)
  | cache, state, block :: toCompute =>
    (nextState memory time dep state block).bind fun stateNext =>
      walkForward (Function.update cache (some block) (some stateNext)) stateNext toCompute

/-- More rounds than the walk back can make. -/
def rounds (pindexPrev : Option Block) : ℕ :=
  match pindexPrev with
  | none => 1
  | some block => (memory block).nHeight + 2

/-- `GetStateFor`: the state for the block after `pindexPrev`, and the cache. -/
def getStateFor (cache : ThresholdConditionCache Block) (pindexPrev : Option Block) :
    Option (ThresholdState × ThresholdConditionCache Block) :=
  if dep.beginTime = alwaysActive then some (.active, cache)
  else if dep.beginTime = neverActive then some (.failed, cache)
  else
    let start := pindexPrev.bind (periodParent memory dep)
    (walkBack memory time dep (rounds memory pindexPrev) cache start []).bind fun walked =>
      (walked.1 walked.2.1).bind fun state =>
        walkForward memory time dep walked.1 state walked.2.2

/-- The loop of `GetStateSinceHeightFor`, with a bound on its rounds. -/
def sinceLoop (initialState : ThresholdState) :
    ℕ → ThresholdConditionCache Block → Block → Option (Block × ThresholdConditionCache Block)
  | 0, _, _ => none
  | rounds + 1, cache, pindexPrev =>
    match previousPeriodParent memory dep pindexPrev with
    | none => some (pindexPrev, cache)
    | some previous =>
      (getStateFor memory time dep cache (some previous)).bind fun found =>
        if found.1 = initialState then sinceLoop initialState rounds found.2 previous
        else some (pindexPrev, found.2)

/-- `GetStateSinceHeightFor`: the height since which the state holds, and the cache. -/
def getStateSinceHeightFor (cache : ThresholdConditionCache Block) (pindexPrev : Option Block) :
    Option (ℕ × ThresholdConditionCache Block) :=
  if dep.beginTime = alwaysActive ∨ dep.beginTime = neverActive then some (0, cache)
  else
    (getStateFor memory time dep cache pindexPrev).bind fun found =>
      if found.1 = .defined then some (0, found.2)
      else
        pindexPrev.bind fun block =>
          (periodParent memory dep block).bind fun start =>
            (sinceLoop memory time dep found.1 (rounds memory (some start)) found.2
              start).map fun res => ((memory res.1).nHeight + 1, res.2)

/-- The two questions that share the cache. -/
inductive Query (Block : Type*) where
  | stateFor (pindexPrev : Option Block)
  | stateSinceHeightFor (pindexPrev : Option Block)

/-- What they are answered with. -/
inductive Answer where
  | state (state : ThresholdState)
  | height (height : ℕ)
  deriving DecidableEq

/-- Answer a question with the cache as it is. -/
def answer (cache : ThresholdConditionCache Block) :
    Query Block → Option (Answer × ThresholdConditionCache Block)
  | .stateFor pindexPrev =>
    (getStateFor memory time dep cache pindexPrev).map fun found =>
      (.state found.1, found.2)
  | .stateSinceHeightFor pindexPrev =>
    (getStateSinceHeightFor memory time dep cache pindexPrev).map fun found =>
      (.height found.1, found.2)

/-- Answer one question after another. -/
def answerAll (cache : ThresholdConditionCache Block) : List (Query Block) → Option (List Answer)
  | [] => some []
  | query :: queries =>
    (answer memory time dep cache query).bind fun answered =>
      (answerAll answered.2 queries).map (answered.1 :: ·)

end

/-! ## What the states mean -/

section

variable (blocks : BlockTree Block) (time : Block → ℤ)
  (dep : Deployment Block) (tip : Option Block)

/-- The block at a height on the chain of the tip. -/
def chainAt (height : ℕ) : Option Block :=
  tip.bind (blocks.tree.ancestorAt height)

/-- The number of signalling blocks in a period. -/
def signals (idx : ℕ) : ℕ :=
  ((List.range' (idx * dep.period) dep.period).filterMap (chainAt blocks tip)).countP dep.condition

/-- The state of a period, from that of the one before and its last block. -/
def periodState (tip : Option Block) : ℕ → ThresholdState
  | 0 => .defined
  | idx + 1 =>
    match chainAt blocks tip ((idx + 1) * dep.period - 1) with
    | none => periodState tip idx
    | some last =>
      match periodState tip idx with
      | .defined =>
        if dep.beginTime ≤ getMedianTimePast blocks.memory time last then .started
        else .defined
      | .started =>
        if dep.threshold ≤ signals blocks dep tip idx then .lockedIn
        else if dep.endTime ≤ getMedianTimePast blocks.memory time last then .failed
        else .started
      | .lockedIn =>
        if dep.minActivationHeight ≤ (((idx + 1) * dep.period : ℕ) : ℤ) then
          .active
        else .lockedIn
      | .failed => .failed
      | .active => .active

/-- The period of the block after the tip. -/
def nextPeriod : ℕ :=
  match tip with
  | none => 0
  | some block => ((blocks.memory block).nHeight + 1) / dep.period

/-- The state of a period, with the two special start times. -/
def stateInPeriod (idx : ℕ) : ThresholdState :=
  if dep.beginTime = alwaysActive then .active
  else if dep.beginTime = neverActive then .failed
  else periodState blocks time dep tip idx

/-- A height starts the maximal run of periods that have the state of the period after the
block. -/
def StartsRun (height : ℕ) : Prop :=
  ∃ first ≤ nextPeriod blocks dep tip, height = first * dep.period ∧
    (∀ idx, first ≤ idx → idx ≤ nextPeriod blocks dep tip → stateInPeriod blocks time dep tip idx =
        stateInPeriod blocks time dep tip (nextPeriod blocks dep tip)) ∧
    (first = 0 ∨ stateInPeriod blocks time dep tip (first - 1) ≠
      stateInPeriod blocks time dep tip (nextPeriod blocks dep tip))

/-- An answer is right. -/
def Correct : Query Block → Answer → Prop
  | .stateFor tip, .state state =>
    state = stateInPeriod blocks time dep tip (nextPeriod blocks dep tip)
  | .stateSinceHeightFor tip, .height height => StartsRun blocks time dep tip height
  | _, _ => False

end

/-! ## Periods -/

section

variable {blocks : BlockTree Block} {time : Block → ℤ}
  {dep : Deployment Block} {above block : Block}

theorem chainAt_of_isAncestor (anc : blocks.tree.IsAncestor above block)
    {height : ℕ} (le : height ≤ (blocks.memory above).nHeight) :
    chainAt blocks (some above) height = chainAt blocks (some block) height :=
  anc.ancestorAt_eq le

/-- The states of the periods that end at or before an ancestor are those of its chain. -/
theorem periodState_of_isAncestor (pos : 0 < dep.period)
    (anc : blocks.tree.IsAncestor above block) {idx : ℕ}
    (le : idx * dep.period ≤ (blocks.memory above).nHeight + 1) :
    periodState blocks time dep (some above) idx =
      periodState blocks time dep (some block) idx := by
  induction idx with
  | zero => rfl
  | succ idx ih =>
    have pre : idx * dep.period ≤ (blocks.memory above).nHeight + 1 :=
      (mul_le_mul_right _ (le_succ idx)).trans le
    have width : (idx + 1) * dep.period = idx * dep.period + dep.period :=
      succ_mul _ _
    have counted : signals blocks dep (some above) idx =
        signals blocks dep (some block) idx := by
      rw [signals, signals]
      refine congrArg (countP dep.condition) (filterMap_congr ?_)
      intro height mem
      rw [mem_range'_1] at mem
      exact chainAt_of_isAncestor anc (by omega)
    rw [periodState, periodState, ih pre, counted, chainAt_of_isAncestor anc (by omega)]

/-- Below the start time nothing has started. -/
theorem periodState_eq_defined (times : TimesAboveMedian blocks.memory time)
    (early : getMedianTimePast blocks.memory time block < dep.beginTime) (idx : ℕ) :
    periodState blocks time dep (some block) idx = .defined := by
  induction idx with
  | zero => rfl
  | succ idx ih =>
    rw [periodState, ih]
    split
    case h_1 => rfl
    case h_2 last found =>
      have anc := blocks.tree.isAncestor_of_ancestorAt found
      have le := getMedianTimePast_le_of_isAncestor times anc
      exact if_neg (by omega)

theorem periodState_defined_of_le {tip : Option Block} {idx later : ℕ} (le : idx ≤ later)
    (defined : periodState blocks time dep tip later = .defined) :
    periodState blocks time dep tip idx = .defined := by
  induction later with
  | zero => rw [le_zero.mp le, periodState]
  | succ later ih =>
    rcases lt_or_eq_of_le le with pre | rfl
    · refine ih (le_of_lt_succ pre) ?_
      rw [periodState] at defined
      cases state : periodState blocks time dep tip later with
      | defined => rfl
      | started | lockedIn | failed | active =>
        rw [state] at defined
        split at defined
        · cases defined
        · dsimp only at defined
          grind
    · exact defined

/-! ## One step forward -/

theorem countSignals_eq {count : ℕ} (enough : count ≤ (blocks.memory block).nHeight + 1) :
    countSignals blocks.memory dep count (some block) =
      some (((range' ((blocks.memory block).nHeight + 1 - count) count).filterMap
        (chainAt blocks (some block))).countP dep.condition) := by
  induction count generalizing block with
  | zero => rfl
  | succ count ih =>
    have self : chainAt blocks (some block) (blocks.memory block).nHeight = some block :=
      blocks.tree.ancestorAt_height block
    have heights : range' ((blocks.memory block).nHeight + 1 - (count + 1)) (count + 1) =
        range' ((blocks.memory block).nHeight - count) count ++
          [(blocks.memory block).nHeight] := by
      rw [List.range'_concat, Nat.add_sub_add_right, mul_comm, mul_one,
        Nat.sub_add_cancel (by omega)]
    rw [countSignals, heights, filterMap_append, countP_append]
    have here : ([(blocks.memory block).nHeight].filterMap
        (chainAt blocks (some block))).countP dep.condition =
          if dep.condition block then 1 else 0 := by
      rw [filterMap_cons, self, filterMap_nil, countP_singleton]
    rw [here]
    cases count with
    | zero =>
      rw [countSignals, map_some]
      split <;> rfl
    | succ count =>
      obtain ⟨prev, parent⟩ := blocks.tree.exists_parent
        (by rw [HeightTree.tree_height]; omega : 0 < blocks.tree.height block)
      have height := blocks.nHeight_succ parent
      rw [show (blocks.memory block).pprev = some prev from parent, ih (by omega), map_some, height]
      have same : (range' ((blocks.memory prev).nHeight + 1 - (count + 1)) (count + 1)).filterMap
          (chainAt blocks (some prev)) =
        (range' ((blocks.memory prev).nHeight + 1 - (count + 1)) (count + 1)).filterMap
          (chainAt blocks (some block)) := by
        refine filterMap_congr fun low mem => ?_
        rw [mem_range'_1] at mem
        exact chainAt_of_isAncestor (blocks.tree.isAncestor_parent parent) (by omega)
      rw [same]
      split <;> rfl

/-- A block ends a period, or there is none before the first period. -/
def Boundary (dep : Deployment Block) (blocks : BlockTree Block) : Option Block → Prop
  | none => True
  | some block => ∃ idx, (blocks.memory block).nHeight + 1 = (idx + 1) * dep.period

/-- The state of the period that follows a block. -/
def stateAfter (blocks : BlockTree Block) (time : Block → ℤ) (dep : Deployment Block)
    (tip : Option Block) : ThresholdState :=
  periodState blocks time dep tip (nextPeriod blocks dep tip)

/-- The last block before a period, on the chain of a block. -/
def EndsBefore (blocks : BlockTree Block) (dep : Deployment Block) (block : Block) (idx : ℕ) :
    Option Block → Prop
  | none => idx = 0
  | some above => (blocks.memory above).nHeight + 1 = idx * dep.period ∧
    blocks.tree.IsAncestor above block

variable {idx : ℕ} {tip : Option Block}

theorem endsBefore_getAncestor (pos : 0 < dep.period) {height : ℤ}
    (le : idx * dep.period ≤ (blocks.memory block).nHeight + 1)
    (height_eq : height = (idx * dep.period : ℕ) - 1) :
    EndsBefore blocks dep block idx (getAncestor blocks.memory block height) := by
  rcases Nat.eq_zero_or_pos idx with rfl | positive
  · have neg : height < 0 := by omega
    rw [getAncestor, if_pos (Or.inr neg)]
    exact rfl
  · have wide : 0 < idx * dep.period := mul_pos positive pos
    obtain ⟨above, found⟩ := blocks.tree.exists_ancestorAt
      (by rw [HeightTree.tree_height]; omega : idx * dep.period - 1 ≤ blocks.tree.height block)
    have aboveHeight : (blocks.memory above).nHeight = idx * dep.period - 1 :=
      blocks.tree.height_of_ancestorAt found
    have natural : height = ((idx * dep.period - 1 : ℕ) : ℤ) := by omega
    rw [natural, blocks.getAncestor_eq, found]
    exact ⟨by omega, blocks.tree.isAncestor_of_ancestorAt found⟩

theorem EndsBefore.rounds (ends : EndsBefore blocks dep block idx tip) :
    rounds blocks.memory tip = idx * dep.period + 1 := by
  cases tip with
  | none => rw [show idx = 0 from ends, zero_mul, VersionBits.rounds]
  | some above => rw [VersionBits.rounds, ← ends.1]

theorem EndsBefore.boundary (ends : EndsBefore blocks dep block idx tip) :
    Boundary dep blocks tip := by
  cases tip with
  | none => trivial
  | some above =>
    obtain ⟨num, rfl⟩ := exists_eq_succ_of_ne_zero (by
      rintro rfl
      exact absurd ends.1 (by omega) : idx ≠ 0)
    exact ⟨num, ends.1⟩

theorem EndsBefore.stateAfter_eq (time : Block → ℤ) (pos : 0 < dep.period)
    (ends : EndsBefore blocks dep block idx tip) :
    stateAfter blocks time dep tip = periodState blocks time dep (some block) idx := by
  cases tip with
  | none =>
    rw [show idx = 0 from ends]
    rfl
  | some above =>
    rw [stateAfter, nextPeriod, ends.1, Nat.mul_div_cancel _ pos]
    exact periodState_of_isAncestor pos ends.2 ends.1.ge

theorem endsBefore_previousPeriodParent (pos : 0 < dep.period)
    (ends : (blocks.memory block).nHeight + 1 = (idx + 1) * dep.period) :
    EndsBefore blocks dep block idx (previousPeriodParent blocks.memory dep block) := by
  rw [succ_mul] at ends
  exact endsBefore_getAncestor pos (by omega) (by omega)

theorem endsBefore_periodParent (pos : 0 < dep.period) (block : Block) :
    EndsBefore blocks dep block (nextPeriod blocks dep (some block))
      (periodParent blocks.memory dep block) := by
  refine endsBefore_getAncestor pos (div_mul_le_self _ _) ?_
  have split := div_add_mod' ((blocks.memory block).nHeight + 1) dep.period
  have cast : (((blocks.memory block).nHeight + 1) % dep.period : ℤ) =
      ((((blocks.memory block).nHeight + 1) % dep.period : ℕ) : ℤ) := by
    rw [Int.natCast_mod]
    push_cast
    rfl
  rw [nextPeriod]
  omega

/-- One step forward goes from a period to the next. -/
theorem nextState_stateAfter (pos : 0 < dep.period) (boundary : Boundary dep blocks (some block)) :
    nextState blocks.memory time dep
        (stateAfter blocks time dep (previousPeriodParent blocks.memory dep block)) block =
      some (stateAfter blocks time dep (some block)) := by
  obtain ⟨idx, ends⟩ := boundary
  have width : (idx + 1) * dep.period = idx * dep.period + dep.period :=
    succ_mul _ _
  have pre := (endsBefore_previousPeriodParent pos ends).stateAfter_eq time pos
  have last : chainAt blocks (some block) ((idx + 1) * dep.period - 1) = some block := by
    rw [← ends, Nat.add_sub_cancel]
    exact blocks.tree.ancestorAt_height block
  have counted : countSignals blocks.memory dep dep.period (some block) =
      some (signals blocks dep (some block) idx) := by
    rw [countSignals_eq (by omega), signals, ends, width, Nat.add_sub_cancel]
  rw [pre, stateAfter, nextPeriod, ends, Nat.mul_div_cancel _ pos, periodState, last]
  cases periodState blocks time dep (some block) idx with
  | defined =>
    rw [nextState]
    exact (apply_ite some _ _ _).symm
  | started => rw [nextState, counted, map_some]
  | lockedIn =>
    have cast : (((blocks.memory block).nHeight + 1 : ℕ) : ℤ) = (blocks.memory block).nHeight + 1 := by
      omega
    simp only [nextState, ← ends, cast]
    exact (apply_ite some _ _ _).symm
  | failed => rfl
  | active => rfl

/-! ## The walks and the cache -/

/-- Every entry of the cache is the state of the period after a boundary. -/
def Truthful (blocks : BlockTree Block) (time : Block → ℤ) (dep : Deployment Block)
    (cache : ThresholdConditionCache Block) : Prop :=
  ∀ tip state, cache tip = some state →
    Boundary dep blocks tip ∧ state = stateAfter blocks time dep tip

variable {cache : ThresholdConditionCache Block} {state : ThresholdState}

theorem Truthful.update (truthful : Truthful blocks time dep cache)
    (boundary : Boundary dep blocks tip) (is_state : state = stateAfter blocks time dep tip) :
    Truthful blocks time dep (update cache tip (some state)) := by
  intro other found stored
  rcases eq_or_ne other tip with rfl | apart
  · rw [update_self, some_inj] at stored
    exact ⟨boundary, stored ▸ is_state⟩
  · rw [update_of_ne apart] at stored
    exact truthful other found stored

/-- The blocks to compute are the ends of consecutive periods after a boundary. -/
def Follows (blocks : BlockTree Block) (dep : Deployment Block) : Option Block → List Block → Prop
  | _, [] => True
  | tip, block :: toCompute =>
    previousPeriodParent blocks.memory dep block = tip ∧
      Boundary dep blocks (some block) ∧ Follows blocks dep (some block) toCompute

/-- The last one of the blocks to compute. -/
def lastTip : Option Block → List Block → Option Block
  | tip, [] => tip
  | _, block :: toCompute => lastTip (some block) toCompute

variable {toCompute : List Block}

theorem walkBack_spec (times : TimesAboveMedian blocks.memory time) (pos : 0 < dep.period)
    {bound : ℕ} (truthful : Truthful blocks time dep cache)
    (boundary : Boundary dep blocks tip) (enough : rounds blocks.memory tip ≤ bound)
    (follows : Follows blocks dep tip toCompute) : ∃ cache' tip' toCompute',
      walkBack blocks.memory time dep bound cache tip toCompute = some (cache', tip', toCompute') ∧
      Truthful blocks time dep cache' ∧ cache' tip' = some (stateAfter blocks time dep tip') ∧
      Follows blocks dep tip' toCompute' ∧ lastTip tip' toCompute' = lastTip tip toCompute := by
  induction bound generalizing tip toCompute with
  | zero =>
    cases tip with
    | none => exact absurd enough (by rw [rounds]; omega)
    | some block => exact absurd enough (by rw [rounds]; omega)
  | succ bound ih =>
    rw [walkBack.eq_def]
    dsimp only
    cases known : cache tip with
    | some state =>
      rw [if_pos isSome_some]
      refine ⟨cache, tip, toCompute, rfl, truthful, ?_, follows, rfl⟩
      rw [known, (truthful tip state known).2]
    | none =>
      rw [if_neg (by simp)]
      cases tip with
      | none =>
        refine ⟨_, _, _, rfl, truthful.update boundary rfl, update_self _ _ _, follows, rfl⟩
      | some block =>
        dsimp only
        split
        case isTrue early =>
          have defined : ThresholdState.defined = stateAfter blocks time dep
              (some block) := (periodState_eq_defined times early _).symm
          refine ⟨_, _, _, rfl, truthful.update boundary defined, ?_, follows, rfl⟩
          rw [update_self, ← defined]
        case isFalse =>
          obtain ⟨idx, isEnd⟩ := boundary
          have ends := endsBefore_previousPeriodParent pos isEnd
          refine ih ends.boundary ?_ ⟨rfl, ⟨idx, isEnd⟩, follows⟩
          rw [rounds] at enough
          rw [succ_mul] at isEnd
          rw [ends.rounds]
          omega

theorem walkForward_spec (pos : 0 < dep.period)
    (truthful : Truthful blocks time dep cache) (follows : Follows blocks dep tip toCompute) :
    ∃ cache', walkForward blocks.memory time dep cache (stateAfter blocks time dep tip) toCompute =
        some (stateAfter blocks time dep (lastTip tip toCompute), cache') ∧
      Truthful blocks time dep cache' := by
  induction toCompute generalizing tip cache with
  | nil => exact ⟨cache, rfl, truthful⟩
  | cons block toCompute ih =>
    obtain ⟨previous, boundary, rest⟩ := follows
    rw [walkForward, ← previous, nextState_stateAfter pos boundary, bind_some]
    exact ih (truthful.update boundary rfl) rest

theorem periodParent_spec (time : Block → ℤ) (pos : 0 < dep.period) (tip : Option Block) :
    Boundary dep blocks (tip.bind (periodParent blocks.memory dep)) ∧
      stateAfter blocks time dep (tip.bind (periodParent blocks.memory dep)) =
        stateAfter blocks time dep tip ∧
      rounds blocks.memory (tip.bind (periodParent blocks.memory dep)) ≤
        rounds blocks.memory tip := by
  cases tip with
  | none => exact ⟨trivial, rfl, le_rfl⟩
  | some block =>
    have ends := @endsBefore_periodParent _ _ blocks _ pos block
    refine ⟨ends.boundary, ends.stateAfter_eq time pos, ?_⟩
    rw [bind_some, ends.rounds]
    exact Nat.succ_le_succ (div_mul_le_self _ _)

section

variable (times : TimesAboveMedian blocks.memory time) (pos : 0 < dep.period)
include times pos

/-- `GetStateFor` gives the state of the next period, from every truthful cache, and
leaves the cache truthful. -/
theorem getStateFor_spec (truthful : Truthful blocks time dep cache) (tip : Option Block) :
    ∃ cache', getStateFor blocks.memory time dep cache tip =
        some (stateInPeriod blocks time dep tip (nextPeriod blocks dep tip), cache') ∧
      Truthful blocks time dep cache' := by
  rw [getStateFor, stateInPeriod]
  split
  case isTrue => exact ⟨cache, rfl, truthful⟩
  case isFalse =>
    split
    case isTrue => exact ⟨cache, rfl, truthful⟩
    case isFalse =>
      obtain ⟨boundary, same, enough⟩ := periodParent_spec time pos tip
      obtain ⟨cache', tip', toCompute, walked, truthful', known, follows, target⟩ :=
        walkBack_spec times pos truthful boundary enough (show Follows blocks dep _ [] from trivial)
      obtain ⟨cache'', forward, truthful''⟩ := walkForward_spec pos truthful' follows
      refine ⟨cache'', ?_, truthful''⟩
      dsimp only
      rw [walked, bind_some]
      dsimp only
      rw [known, bind_some, forward, target, lastTip, same]
      rfl

theorem sinceLoop_spec (plain : dep.beginTime ≠ alwaysActive)
    (plain' : dep.beginTime ≠ neverActive) {bound : ℕ}
    (notDefined : state ≠ .defined) {tip start : Block} (truthful : Truthful blocks time dep cache)
    (anc : blocks.tree.IsAncestor start tip) {num : ℕ}
    (ends : (blocks.memory start).nHeight + 1 = num * dep.period)
    (here : periodState blocks time dep (some tip) num = state)
    (enough : rounds blocks.memory (some start) ≤ bound) :
    ∃ first cache' res, sinceLoop blocks.memory time dep state bound cache start =
        some (res, cache') ∧ Truthful blocks time dep cache' ∧ 0 < first ∧ first ≤ num ∧
      (blocks.memory res).nHeight + 1 = first * dep.period ∧ (∀ idx, first ≤ idx → idx ≤ num →
        periodState blocks time dep (some tip) idx = state) ∧
      periodState blocks time dep (some tip) (first - 1) ≠ state := by
  induction bound generalizing cache start num with
  | zero => exact absurd enough (by rw [rounds]; omega)
  | succ bound ih =>
    obtain ⟨idx, rfl⟩ : ∃ idx, num = idx + 1 :=
      exists_eq_succ_of_ne_zero (by rintro rfl; omega)
    have previously := endsBefore_previousPeriodParent pos ends
    have only_here : ∀ other, idx + 1 ≤ other → other ≤ idx + 1 →
        periodState blocks time dep (some tip) other = state := by
      intro other low high
      rw [le_antisymm high low, here]
    rw [sinceLoop]
    cases found : previousPeriodParent blocks.memory dep start with
    | none =>
      refine ⟨idx + 1, cache, start, rfl, truthful, succ_pos idx, le_rfl, ends, only_here, ?_⟩
      rw [found] at previously
      rw [show idx = 0 from previously]
      exact notDefined.symm
    | some previous =>
      rw [found] at previously
      obtain ⟨previousEnds, above⟩ := previously
      have above' := above.trans anc
      obtain ⟨cache', answered, truthful'⟩ := getStateFor_spec times pos truthful (some previous)
      have pre : stateInPeriod blocks time dep (some previous)
          (nextPeriod blocks dep (some previous)) =
            periodState blocks time dep (some tip) idx := by
        rw [stateInPeriod, if_neg plain, if_neg plain', nextPeriod, previousEnds,
          Nat.mul_div_cancel _ pos]
        exact periodState_of_isAncestor pos above' (by omega)
      dsimp only
      rw [answered, bind_some, pre]
      split
      case isTrue same =>
        rw [rounds] at enough
        have width := Nat.add_one_mul idx dep.period
        obtain ⟨first, cache'', res, looped, truthful'', positive, le, resultEnds, run, apart⟩ :=
          ih truthful' above' previousEnds same (by rw [rounds]; omega)
        refine ⟨first, cache'', res, looped, truthful'', positive, by omega, resultEnds, ?_, apart⟩
        intro other low high
        rcases lt_or_eq_of_le high with earlier | rfl
        · exact run other low (le_of_lt_succ earlier)
        · exact here
      case isFalse differ =>
        exact ⟨idx + 1, cache', start, rfl, truthful', succ_pos idx, le_rfl, ends, only_here,
          differ⟩

section

variable (truthful : Truthful blocks time dep cache)
include truthful

/-- `GetStateSinceHeightFor` finds the start of the run, and leaves the cache truthful. -/
theorem getStateSinceHeightFor_spec (tip : Option Block) :
    ∃ height cache', getStateSinceHeightFor blocks.memory time dep cache tip =
        some (height, cache') ∧ StartsRun blocks time dep tip height ∧
      Truthful blocks time dep cache' := by
  rw [getStateSinceHeightFor]
  split
  case isTrue special =>
    have constant : ∀ idx index', stateInPeriod blocks time dep tip idx =
        stateInPeriod blocks time dep tip index' := by
      intro idx index'
      rw [stateInPeriod, stateInPeriod]
      rcases special with always | never
      · rw [if_pos always, if_pos always]
      · simp only [never, if_true]
    exact ⟨0, cache, rfl, ⟨0, zero_le _, (zero_mul _).symm, fun _ _ _ => constant _ _,
      Or.inl rfl⟩, truthful⟩
  case isFalse notSpecial =>
    rw [not_or] at notSpecial
    have plain : ∀ idx, stateInPeriod blocks time dep tip idx =
        periodState blocks time dep tip idx := by
      intro idx
      rw [stateInPeriod, if_neg notSpecial.1, if_neg notSpecial.2]
    obtain ⟨cache', answered, truthful'⟩ := getStateFor_spec times pos truthful tip
    rw [answered, bind_some, plain]
    dsimp only
    split
    case isTrue defined =>
      refine ⟨0, cache', rfl, ⟨0, zero_le _, (zero_mul _).symm, ?_, Or.inl rfl⟩, truthful'⟩
      intro idx _ le
      rw [plain, plain, defined]
      exact periodState_defined_of_le le defined
    case isFalse notDefined =>
      cases tip with
      | none => exact absurd rfl notDefined
      | some block =>
        have ends := @endsBefore_periodParent _ _ blocks _ pos block
        obtain ⟨start, found⟩ : ∃ start, periodParent blocks.memory dep block = some start := by
          refine ne_none_iff_exists'.mp fun first => notDefined ?_
          rw [first] at ends
          rw [show nextPeriod blocks dep (some block) = 0 from ends, periodState]
        rw [found] at ends
        obtain ⟨ends, anc⟩ := ends
        obtain ⟨first, cache'', res, looped, truthful'', positive, le, resultEnds, run, apart⟩ :=
          sinceLoop_spec times pos notSpecial.1 notSpecial.2 notDefined truthful' anc ends rfl le_rfl
        refine ⟨first * dep.period, cache'', ?_, ⟨first, le, rfl, ?_, Or.inr ?_⟩, truthful''⟩
        · rw [bind_some, found, bind_some, looped, map_some, resultEnds]
        · intro idx low high
          rw [plain, plain]
          exact run idx low high
        · rw [plain, plain]
          exact apart

theorem answer_spec (query : Query Block) :
    ∃ found cache', answer blocks.memory time dep cache query = some (found, cache') ∧
      Correct blocks time dep query found ∧ Truthful blocks time dep cache' := by
  cases query with
  | stateFor tip =>
    obtain ⟨cache', answered, truthful'⟩ := getStateFor_spec times pos truthful tip
    refine ⟨.state (stateInPeriod blocks time dep tip (nextPeriod blocks dep tip)),
      cache', ?_, rfl, truthful'⟩
    rw [answer, answered, map_some]
  | stateSinceHeightFor tip =>
    obtain ⟨height, cache', answered, starts, truthful'⟩ :=
      getStateSinceHeightFor_spec times pos truthful tip
    refine ⟨.height height, cache', ?_, starts, truthful'⟩
    rw [answer, answered, map_some]

theorem answerAll_spec (queries : List (Query Block)) :
    ∃ answers, answerAll blocks.memory time dep cache queries = some answers ∧
      Forall₂ (Correct blocks time dep) queries answers := by
  induction queries generalizing cache with
  | nil => exact ⟨[], rfl, Forall₂.nil⟩
  | cons query queries ih =>
    obtain ⟨found, cache', answered, correct, truthful'⟩ := answer_spec times pos truthful query
    obtain ⟨answers, rest, all⟩ := ih truthful'
    refine ⟨found :: answers, ?_, Forall₂.cons correct all⟩
    rw [answerAll, answered, bind_some, rest, map_some]

end

end

end

/-! ## The cache is transparent -/

/-- Queries that share a cache are all answered as without it: by the recursion over
whole periods, or, with one of the two special start times, by the constant state. -/
theorem answerAll_correct {Block : Type*} [DecidableEq Block] (blocks : BlockTree Block)
    (time : Block → ℤ) (times : TimesAboveMedian blocks.memory time)
    (dep : Deployment Block) (pos : 1 ≤ dep.period) (queries : List (Query Block)) :
    ∃ answers, answerAll blocks.memory time dep (fun _ => none) queries = some answers ∧
      List.Forall₂ (Correct blocks time dep) queries answers :=
  answerAll_spec times pos (fun _ _ stored => absurd stored (by simp)) queries

/-- The blocks are numbered from 0. -/
local instance blocks_neZero : NeZero 8 := ⟨by decide⟩

/-- A chain of six blocks, and two more blocks that fork off after the second one. -/
def forkedTree : BlockTree (Fin 8) where
  memory block :=
    { hash := block.val
      pprev := [none, some 0, some 1, some 2, some 3, some 4, some 1, some 6].getD block none
      pskip := [none, some 0, some 0, some 1, some 0, some 1, some 0, some 1].getD block none
      nHeight := [0, 1, 2, 3, 4, 5, 2, 3].getD block 0
      nChainWork := 0, nTx := 0, chainTxCount := 0, nStatus := 0 }
  nHeight_genesis := by decide
  nHeight_succ := by decide
  genesis_unique := by decide
  pskip_built := by decide
  nChainWork_le := by decide
  hash_injective := by decide

def forkedTime (block : Fin 8) : ℤ := 10 * (forkedTree.memory block).nHeight

/-- Periods of two blocks. The blocks of the longer chain signal. -/
def longerSignals (beginTime : ℤ) : Deployment (Fin 8) :=
  ⟨2, 2, beginTime, 100, 0, fun block => block < 6⟩

def forkedQueries : List (Query (Fin 8)) :=
  [.stateFor (some 5), .stateSinceHeightFor (some 7), .stateFor (some 7)]

/-- The deployment is active after the longer chain, and only started after the other one. -/
theorem answerAll_correct_forked : TimesAboveMedian forkedTree.memory forkedTime ∧
    List.Forall₂ (Correct forkedTree forkedTime (longerSignals 0)) forkedQueries
      [.state .active, .height 2, .state .started] := by
  have times : TimesAboveMedian forkedTree.memory forkedTime := by
    unfold TimesAboveMedian
    decide
  have answered : answerAll forkedTree.memory forkedTime (longerSignals 0) (fun _ => none)
      forkedQueries = some [.state .active, .height 2, .state .started] := by
    decide
  obtain ⟨answers, same, correct⟩ :=
    answerAll_correct forkedTree forkedTime times (longerSignals 0) (by decide) forkedQueries
  cases same.symm.trans answered
  exact ⟨times, correct⟩

/-- With the start time of an always active deployment no recursion is made: the genesis
block itself is not `defined`. -/
theorem alwaysActive_not_recursive :
    (getStateFor forkedTree.memory forkedTime (longerSignals alwaysActive) (fun _ => none) none).map
        Prod.fst = some .active ∧
      periodState forkedTree forkedTime (longerSignals alwaysActive) none 0 = .defined :=
  ⟨rfl, rfl⟩

end BitcoinCore.VersionBits
