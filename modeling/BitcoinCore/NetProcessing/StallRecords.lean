import BitcoinCore.NetProcessing.Stalling

/-!
# One observation for each stall

A round of `SendMessages` for one peer can start the stall of another. The stall
is observed in the relay quality of that peer, and a flag remembers this until a
request to the peer is removed. The flag and the time of the stall go together,
and only a peer with a block in flight has them. Only a removal clears the flag,
so there is one between two observations (`stall_observed_once`).
-/

namespace BitcoinCore.NetProcessing

open Net Chain Node List Option Function BlockDownloads

variable {Block R : Type*}

/-! ## The source -/

section

variable [Field R] [LinearOrder R] [Exp2 R]

/-- Start a stall, and say whether it is observed. The current time is in
microseconds, and the time of the score in seconds. -/
def CNodeState.startStall (state : CNodeState Block R) (currentTime scoreTime : ℤ) :
    CNodeState Block R × Bool :=
  if state.stallingSince = 0 then
    let state := { state with stallingSince := currentTime }
    if !state.qualityStallRecorded then
      ({ state with
        relayQuality := state.relayQuality.observeRequestedBlockResult false scoreTime
        qualityStallRecorded := true }, true)
    else (state, false)
  else (state, false)

namespace BlockDownloads

variable (dl : BlockDownloads Block R)

/-- Blame the staller if the peer has no block in flight. The result names the
peer with an observation. -/
def detectStall (currentTime scoreTime : ℤ) (id staller : NodeId) :
    Option (BlockDownloads Block R × Option NodeId) :=
  (dl.state id).bind fun state =>
    if state.vBlocksInFlight = [] ∧ staller ≠ -1 then
      (dl.state staller).map fun state =>
        let res := state.startStall currentTime scoreTime
        (dl.setState staller res.1, if res.2 then some staller else none)
    else some (dl, none)

/-- An operation, and the peer whose stall it observes. Blocks are requested where
the callers leave room, and the clock is positive. -/
inductive StallStep [DecidableEq Block] : Option NodeId → BlockDownloads Block R → Prop where
  | blockRequested {now : ℤ} {id : NodeId} {hash : Uint256} {pit isNew : Bool} {it : ℕ}
      {dl' : BlockDownloads Block R}
      (free : (∃ entry ∈ dl.mapBlocksInFlight, entry.hash = hash ∧ entry.nodeId = id) ∨
        (dl.equalRange hash).length < maxCmpctblocksInflightPerBlock)
      (requested : dl.blockRequested now id hash pit = some (dl', isNew, it)) :
      StallStep none dl'
  | removeBlockRequest {now : ℤ} {hash : Uint256} {fromPeer : Option NodeId}
      {dl' : BlockDownloads Block R}
      (removed : dl.removeBlockRequest now hash fromPeer = some dl') : StallStep none dl'
  -- `SendMessages` searches, asks for blocks that are not in flight, and then blames.
  | sendMessages {query : BlockQuery Block R} {start : Block} {search : BlockSearch Block}
      {hashes : List Uint256} {now currentTime scoreTime : ℤ}
      {requests dl' : BlockDownloads Block R} {observed : Option NodeId}
      (isQuery : query.downloads = dl)
      (searched : query.findNextBlocks start (.fresh start) = some search)
      (unrequested : ∀ hash ∈ hashes, dl.isBlockRequested hash = false)
      (requested : dl.requestBlocks now query.peer.id hashes = some requests)
      (positive : 0 < currentTime)
      (detected : requests.detectStall currentTime scoreTime query.peer.id search.nodeStaller =
        some (dl', observed)) : StallStep observed dl'

end BlockDownloads

end

/-- A run of a number of operations, for any peers in any order, from a consistent state
without stalls. -/
structure StallRun (Block R : Type*) [DecidableEq Block] [Field R] [LinearOrder R] [Exp2 R] where
  length : ℕ
  downloads : ℕ → BlockDownloads Block R
  observed : ℕ → Option NodeId
  consistent : (downloads 0).Consistent
  unstalled : ∀ id, ∀ state ∈ (downloads 0).state id,
    state.stallingSince = 0 ∧ state.qualityStallRecorded = false
  step : ∀ n < length, (downloads n).StallStep (observed n) (downloads (n + 1))

/-! ## Who is blamed -/

namespace BlockQuery

variable [DecidableEq Block] (query : BlockQuery Block R)

theorem exists_request_of_awaited {waitingfor : NodeId} (pre : List Block)
    (waits : waitingfor ≠ -1 →
      ∃ request ∈ query.downloads.mapBlocksInFlight, request.nodeId = waitingfor)
    (awaits : pre.foldl query.awaited waitingfor ≠ -1) :
    ∃ request ∈ query.downloads.mapBlocksInFlight,
      request.nodeId = pre.foldl query.awaited waitingfor := by
  induction pre generalizing waitingfor with
  | nil => exact waits awaits
  | cons pindex rest ih =>
    refine ih ?_ awaits
    rw [awaited]
    split_ifs with isFirst
    · obtain ⟨request, mem, -, same⟩ := query.exists_request isFirst.2.2
      exact fun _ => ⟨request, mem, same⟩
    · exact waits

theorem exists_request_of_blames {start : Block} {search : BlockSearch Block}
    (searched : query.findNextBlocks start (.fresh start) = some search)
    (blames : search.nodeStaller ≠ -1) :
    ∃ request ∈ query.downloads.mapBlocksInFlight, request.nodeId = search.nodeStaller := by
  rw [query.findNextBlocks_eq] at searched
  cases searched
  obtain ⟨-, -, pre, _, _, -, -, -, isAwaited, -⟩ := (query.walks _ _).blames.resolve_left blames
  rw [isAwaited] at blames ⊢
  exact query.exists_request_of_awaited pre (absurd rfl) blames

end BlockQuery

namespace BlockDownloads

/-! ## The flag and the time -/

def stall (dl : BlockDownloads Block R) (id : NodeId) : Option (ℤ × Bool) :=
  (dl.state id).map fun state => (state.stallingSince, state.qualityStallRecorded)

def recorded (dl : BlockDownloads Block R) (id : NodeId) : Bool := (dl.stall id).any Prod.snd

def StallSound (dl : BlockDownloads Block R) : Prop :=
  ∀ id, ∀ stall ∈ dl.stall id, (stall.1 ≠ 0 ↔ stall.2) ∧ (stall.2 → dl.vBlocksInFlight id ≠ [])

/-- Only requests have been made in between. -/
structure Extends (dl dl' : BlockDownloads Block R) : Prop where
  stall : dl'.stall = dl.stall
  inFlight : ∀ id, dl.vBlocksInFlight id ≠ [] → dl'.vBlocksInFlight id ≠ []

/-- A call of `RemoveBlockRequest` removes a request to the peer. -/
def Removes (dl : BlockDownloads Block R) (id : NodeId) (dl' : BlockDownloads Block R) : Prop :=
  (∃ now hash fromPeer, dl.removeBlockRequest now hash fromPeer = some dl') ∧
    ∃ entry ∈ dl.mapBlocksInFlight, entry.nodeId = id ∧ entry ∉ dl'.mapBlocksInFlight

/-- What a step does to the flags: an observation sets one, and only a removal
clears one. -/
structure Lawful (dl : BlockDownloads Block R) (observed : Option NodeId)
    (dl' : BlockDownloads Block R) : Prop where
  consistent : Consistent dl'
  sound : dl'.StallSound
  starts : ∀ id ∈ observed, dl.recorded id = false ∧ dl'.recorded id
  ends : ∀ id, dl.recorded id → dl'.recorded id ∨ dl.Removes id dl'

variable {dl dl' requests : BlockDownloads Block R} {state state' : CNodeState Block R}
  {now : ℤ} {id : NodeId} {hash : Uint256} {pit isNew : Bool} {it : ℕ}

theorem stall_setState : (dl.setState id state).stall =
    update dl.stall id (some (state.stallingSince, state.qualityStallRecorded)) := by
  funext other
  by_cases same : other = id
  · subst same
    simp [stall, BlockDownloads.state, setState]
  · simp [same, stall, BlockDownloads.state, setState]

theorem vBlocksInFlight_setState : (dl.setState id state).vBlocksInFlight =
    update dl.vBlocksInFlight id state.vBlocksInFlight := by
  funext other
  by_cases same : other = id
  · subst same
    simp [vBlocksInFlight, BlockDownloads.state, setState]
  · simp [same, vBlocksInFlight, BlockDownloads.state, setState]

theorem Extends.sound (further : dl.Extends dl') (sound : dl.StallSound) : dl'.StallSound := by
  intro id stall isStall
  rw [further.stall] at isStall
  obtain ⟨together, busy⟩ := sound id stall isStall
  exact ⟨together, fun isRecorded => further.inFlight id (busy isRecorded)⟩

theorem Extends.lawful (further : dl.Extends dl') (sound : dl.StallSound)
    (consistent : Consistent dl') : Lawful dl none dl' := by
  refine ⟨consistent, further.sound sound, by simp, fun id isRecorded => .inl ?_⟩
  rwa [recorded, further.stall]

/-! ## Requests -/

theorem extends_addRequest (added : dl.addRequest now id hash pit = some dl') : dl.Extends dl' := by
  obtain ⟨state, found, rfl⟩ := map_eq_some_iff.mp added
  refine ⟨stall_setState.trans ?_, fun other busy => ?_⟩
  · exact update_eq_self_iff.mpr (by simp [stall, found, CNodeState.pushInFlight])
  · change (setState _ _ _).vBlocksInFlight other ≠ []
    rw [vBlocksInFlight_setState]
    by_cases same : other = id
    · simp [same, CNodeState.pushInFlight]
    · rwa [update_of_ne same]

theorem extends_blockRequested
    (requested : dl.blockRequested now id hash pit = some (dl', isNew, it)) : dl.Extends dl' := by
  rcases blockRequested_cases requested with rfl | ⟨-, isAdded⟩
  · exact ⟨rfl, fun _ busy => busy⟩
  · exact extends_addRequest isAdded

theorem extends_requestBlocks {hashes : List Uint256}
    (requested : dl.requestBlocks now id hashes = some dl') : dl.Extends dl' := by
  induction hashes generalizing dl with
  | nil =>
    cases requested
    exact ⟨rfl, fun _ busy => busy⟩
  | cons hash rest ih =>
    obtain ⟨next, first, later⟩ := bind_eq_some_iff.mp requested
    obtain ⟨⟨_, _, _⟩, isNext, rfl⟩ := map_eq_some_iff.mp first
    have toNext := extends_blockRequested isNext
    have toLast := ih later
    exact ⟨toLast.stall.trans toNext.stall,
      fun id busy => toLast.inFlight id (toNext.inFlight id busy)⟩

/-! ## Removals -/

theorem state_removeEntries {entries : List InFlight}
    (removed : entries.foldlM (removeEntry now) dl = some dl') (id : NodeId) :
    dl'.state id = dl.state id ∨
      dl'.stall id = some (0, false) ∧ ∃ entry ∈ entries, entry.nodeId = id := by
  induction entries generalizing dl with
  | nil =>
    cases removed
    exact .inl rfl
  | cons entry rest ih =>
    obtain ⟨next, first, later⟩ := bind_eq_some_iff.mp removed
    rcases ih later with same | ⟨cleared, other, mem, isFrom⟩
    · obtain ⟨state, found, rfl⟩ := map_eq_some_iff.mp first
      by_cases isFrom : id = entry.nodeId
      · subst isFrom
        refine .inr ⟨?_, entry, mem_cons_self, rfl⟩
        rw [stall, same]
        simp [BlockDownloads.state, setState, CNodeState.eraseInFlight]
      · refine .inl (same.trans ?_)
        simp [isFrom, BlockDownloads.state, setState]
    · exact .inr ⟨cleared, other, mem_cons_of_mem _ mem, isFrom⟩

theorem Consistent.lawful_removeBlockRequest (consistent : Consistent dl) (sound : dl.StallSound)
    {fromPeer : Option NodeId} (removed : dl.removeBlockRequest now hash fromPeer = some dl') :
    Lawful dl none dl' := by
  obtain ⟨consistent', map', -⟩ := consistent.removeBlockRequest removed
  refine ⟨consistent', fun id stall isStall => ?_, by simp, fun id isRecorded => ?_⟩
  · rcases state_removeEntries removed id with same | ⟨cleared, -⟩
    · rw [BlockDownloads.stall, same] at isStall
      rw [vBlocksInFlight, same]
      exact sound id stall isStall
    · rw [cleared] at isStall
      cases isStall
      simp
  · rcases state_removeEntries removed id with same | ⟨-, entry, mem, isFrom⟩
    · left
      rwa [recorded, stall, same]
    · refine .inr ⟨⟨now, hash, fromPeer, removed⟩, entry,
        mem_of_mem_filter (mem_of_mem_filter mem), isFrom, ?_⟩
      simp only [requestsFrom, equalRange, List.mem_filter] at mem
      simp [map', mem]

/-! ## Observations -/

theorem Consistent.setState (consistent : Consistent dl) (found : dl.state id = some state)
    (same : state'.vBlocksInFlight = state.vBlocksInFlight) :
    Consistent (dl.setState id state') := by
  have queues : (dl.setState id state').queueOf = dl.queueOf := by
    rw [queueOf_setState, same, ← queueOf_of_state found, update_eq_self]
  refine ⟨?_, consistent.its_nodup, consistent.its_lt, consistent.once, consistent.few, ?_⟩
  · rw [queues]
    exact consistent.split
  · rw [queues, keys_setState _ found]
    exact consistent.counted

theorem StallSound.setState (sound : dl.StallSound) (since : state.stallingSince ≠ 0)
    (isRecorded : state.qualityStallRecorded) (busy : state.vBlocksInFlight ≠ []) :
    (dl.setState id state).StallSound := by
  intro other stall isStall
  rw [stall_setState] at isStall
  rw [vBlocksInFlight_setState]
  by_cases same : other = id
  · subst same
    rw [update_self] at isStall ⊢
    cases isStall
    simp [since, isRecorded, busy]
  · rw [update_of_ne same] at isStall ⊢
    exact sound other stall isStall

variable [Field R] [LinearOrder R] [Exp2 R] {currentTime scoreTime : ℤ} {observed : Option NodeId}

theorem startStall_spec (positive : 0 < currentTime) (scoreTime : ℤ)
    (together : state.stallingSince ≠ 0 ↔ state.qualityStallRecorded) :
    let res := state.startStall currentTime scoreTime
    res.1.stallingSince ≠ 0 ∧ res.1.qualityStallRecorded ∧
      res.1.vBlocksInFlight = state.vBlocksInFlight ∧
      (res.2 → state.qualityStallRecorded = false) := by
  intro res
  by_cases since : state.stallingSince = 0
  · have unrecorded : state.qualityStallRecorded = false := by simpa [since] using together
    simp [res, CNodeState.startStall, since, unrecorded, positive.ne']
  · simp [res, CNodeState.startStall, since, together.mp since]

/-- A staller with a block in flight has its stall recorded afterwards, and an
observation only if it was not recorded before. -/
theorem Extends.lawful_detectStall (further : dl.Extends requests)
    (consistent : Consistent requests) (sound : dl.StallSound) {staller : NodeId}
    (positive : 0 < currentTime) (busy : staller ≠ -1 → requests.vBlocksInFlight staller ≠ [])
    (detected : requests.detectStall currentTime scoreTime id staller = some (dl', observed)) :
    Lawful dl observed dl' := by
  obtain ⟨_, -, result⟩ := bind_eq_some_iff.mp detected
  split_ifs at result with blamed
  · obtain ⟨state, found, same⟩ := map_eq_some_iff.mp result
    obtain ⟨rfl, rfl⟩ := Prod.mk.inj same
    have isStall : requests.stall staller =
        some (state.stallingSince, state.qualityStallRecorded) := by
      simp [BlockDownloads.stall, found]
    have isBusy : state.vBlocksInFlight ≠ [] := by
      simpa [vBlocksInFlight, found] using busy blamed.2
    have sound' := further.sound sound
    obtain ⟨since, isRecorded, queue, first⟩ :=
      startStall_spec positive scoreTime (sound' staller _ isStall).1
    refine ⟨consistent.setState found queue, sound'.setState since isRecorded (queue ▸ isBusy),
      ?_, ?_⟩
    · intro other isObserved
      obtain ⟨observes, isStaller⟩ := ite_none_right_eq_some.mp isObserved
      cases isStaller
      simp [recorded, stall_setState, ← further.stall, isStall, first observes, isRecorded]
    · intro other wasRecorded
      rw [recorded, ← further.stall] at wasRecorded
      rw [recorded, stall_setState]
      by_cases same : other = staller
      · simp [same, isRecorded]
      · simp [same, wasRecorded]
  · cases result
    exact further.lawful sound consistent

theorem StallStep.lawful [DecidableEq Block] (step : dl.StallStep observed dl')
    (consistent : Consistent dl) (sound : dl.StallSound) : Lawful dl observed dl' := by
  cases step with
  | blockRequested free requested =>
    exact (extends_blockRequested requested).lawful sound
      (consistent.blockRequested free requested).1
  | removeBlockRequest removed => exact consistent.lawful_removeBlockRequest sound removed
  | sendMessages isQuery searched unrequested requested positive detected =>
    have consistent' := (Step.sendMessages _ _ _ unrequested requested).consistent consistent
    have further := extends_requestBlocks requested
    refine further.lawful_detectStall consistent' sound positive ?_ detected
    intro blames
    subst isQuery
    obtain ⟨request, mem, isStaller⟩ := BlockQuery.exists_request_of_blames _ searched blames
    obtain ⟨state, found, busy⟩ := consistent.exists_state mem
    rw [← isStaller]
    exact further.inFlight _ (by simpa [vBlocksInFlight, found] using busy)

end BlockDownloads

/-! ## Runs -/

variable [DecidableEq Block] [Field R] [LinearOrder R] [Exp2 R] (run : StallRun Block R)

namespace StallRun

theorem sound {n : ℕ} (within : n ≤ run.length) :
    (run.downloads n).Consistent ∧ (run.downloads n).StallSound := by
  induction n with
  | zero =>
    refine ⟨run.consistent, fun id stall isStall => ?_⟩
    obtain ⟨state, found, rfl⟩ := map_eq_some_iff.mp isStall
    simp [run.unstalled id state found]
  | succ n ih =>
    have before := ih (Nat.le_of_succ_le within)
    have lawful := (run.step n within).lawful before.1 before.2
    exact ⟨lawful.consistent, lawful.sound⟩

theorem lawful {n : ℕ} (within : n < run.length) :
    (run.downloads n).Lawful (run.observed n) (run.downloads (n + 1)) :=
  (run.step n within).lawful (run.sound within.le).1 (run.sound within.le).2

theorem recorded_until {first last : ℕ} {id : NodeId} (pre : first ≤ last)
    (within : last ≤ run.length) (isRecorded : (run.downloads first).recorded id) :
    (run.downloads last).recorded id ∨
      ∃ n, first ≤ n ∧ n < last ∧ (run.downloads n).Removes id (run.downloads (n + 1)) := by
  induction last, pre using Nat.le_induction with
  | base => exact .inl isRecorded
  | succ last le ih =>
    rcases ih (Nat.le_of_succ_le within) with still | ⟨n, after, lt, removes⟩
    · rcases (run.lawful within).ends id still with kept | removes
      · exact .inl kept
      · exact .inr ⟨last, le, last.lt_succ_self, removes⟩
    · exact .inr ⟨n, after, lt.trans last.lt_succ_self, removes⟩

end StallRun

/-- At every point of a run, the time of a peer's stall is set exactly while the
stall is recorded, and then a block is in flight from the peer. Between two
observations of stalls of a peer, a request to the peer is removed. -/
theorem stall_observed_once :
    (∀ n ≤ run.length, ∀ id state, (run.downloads n).state id = some state →
      (state.stallingSince ≠ 0 ↔ state.qualityStallRecorded) ∧
      (state.qualityStallRecorded → state.vBlocksInFlight ≠ [])) ∧
    ∀ first second id, first < second → second < run.length →
      run.observed first = some id → run.observed second = some id →
      ∃ n, first < n ∧ n < second ∧ (run.downloads n).Removes id (run.downloads (n + 1)) := by
  refine ⟨fun n within id state found => ?_, fun first second id pre within isFirst isSecond => ?_⟩
  · have sound := (run.sound within).2 id (state.stallingSince, state.qualityStallRecorded)
      (by simp [stall, found])
    simpa [vBlocksInFlight, found] using sound
  · have started := ((run.lawful (pre.trans within)).starts id isFirst).2
    have unrecorded := ((run.lawful within).starts id isSecond).1
    rcases run.recorded_until pre within.le started with isRecorded | removed
    · rw [unrecorded] at isRecorded
      cases isRecorded
    · exact removed

/-- A round that asks for nothing. -/
theorem BlockDownloads.stallStep_of_blames (query : BlockQuery Block R) (start : Block)
    {staller : NodeId} {currentTime scoreTime : ℤ} {dl' : BlockDownloads Block R}
    {observed : Option NodeId}
    (blames : (query.findNextBlocks start (.fresh start)).map (·.nodeStaller) = some staller)
    (positive : 0 < currentTime)
    (detected : query.downloads.detectStall currentTime scoreTime query.peer.id staller =
      some (dl', observed)) : query.downloads.StallStep observed dl' := by
  obtain ⟨search, searched, rfl⟩ := map_eq_some_iff.mp blames
  have nothing : query.downloads.requestBlocks 0 query.peer.id [] = some query.downloads := rfl
  exact .sendMessages rfl searched (by simp) nothing positive detected

/-- Peer 1 holds up peer 0 with a block in flight. The request is removed and made again. -/
def stalledTwice : ℕ → BlockDownloads (Fin 3) ℚ
  | 0 => (initial.initializeNode 0).initializeNode 1
  | 2 => ((stalledTwice 1).detectStall 1 1 0 1).elim .initial Prod.fst
  | 3 => ((stalledTwice 2).removeBlockRequest 2 1 none).getD .initial
  | 5 => ((stalledTwice 4).detectStall 3 3 0 1).elim .initial Prod.fst
  | n + 1 => ((stalledTwice n).blockRequested 1 1 1 false).elim .initial Prod.fst

def stalledTwiceRun : StallRun (Fin 3) ℚ where
  length := 5
  downloads := stalledTwice
  observed n := if n = 1 ∨ n = 4 then some 1 else none
  consistent := (consistent_initial.initializeNode 0).initializeNode 1
  unstalled id state found := by
    have isStart : stalledTwice 0 = (initial.setState 0 .initial).setState 1 .initial :=
      rfl
    simp only [isStart, BlockDownloads.state, BlockDownloads.setState] at found
    obtain rfl : CNodeState.initial = state := by
      by_cases isOne : id = 1
      · subst isOne
        simpa using found
      · by_cases isZero : id = 0
        · subst isZero
          simpa using found
        · simp [isOne, isZero, BlockDownloads.initial] at found
    exact ⟨rfl, rfl⟩
  step n within := by
    have requests : (stalledTwice 0).blockRequested 1 1 1 false = some (stalledTwice 1, true, 0) := rfl
    have observes : (stalledTwice 1).detectStall 1 1 0 1 = some (stalledTwice 2, some 1) := rfl
    have removes : (stalledTwice 2).removeBlockRequest 2 1 none = some (stalledTwice 3) := rfl
    have again : (stalledTwice 3).blockRequested 1 1 1 false = some (stalledTwice 4, true, 1) := rfl
    have observesAgain : (stalledTwice 4).detectStall 3 3 0 1 = some (stalledTwice 5, some 1) := rfl
    match n, within with
    | 0, _ => exact .blockRequested (.inr (by decide)) requests
    | 1, _ =>
      exact stallStep_of_blames
        (downloadQuery threeBlocks (stalledTwice 1) fullNodePeer 1 16 2 0) 0 (by decide) (by decide)
        observes
    | 2, _ => exact .removeBlockRequest removes
    | 3, _ => exact .blockRequested (.inr (by decide)) again
    | 4, _ =>
      exact stallStep_of_blames
        (downloadQuery threeBlocks (stalledTwice 4) fullNodePeer 1 16 2 0) 0 (by decide) (by decide)
        observesAgain

theorem stall_observed_once_removed :
    ∃ n, 1 < n ∧ n < 4 ∧ (stalledTwice n).Removes 1 (stalledTwice (n + 1)) :=
  (stall_observed_once stalledTwiceRun).2 1 4 1 (by decide) (by decide) rfl rfl

end BitcoinCore.NetProcessing
