import BitcoinCore.NetProcessing.NodeState

/-!
# Disconnecting peers on a bad chain

`considerEviction` runs a timer for every outbound peer that is not protected.
When the peer's best known block falls behind our tip, the timer is armed with
the tip as the benchmark. When it runs out, the peer gets one getheaders message
and a shorter time to respond. When that runs out as well, the peer is
disconnected. The timer is cleared when the peer reaches our tip, and armed
anew when it reaches the benchmark only.

A peer is visited again and again while the tip, its best known block and its
protection change (`SyncCall`). One visit can do six things to the timer
(`VisitCase`). From these follow what a timer says about the visits before
(`History`), hence what a disconnection is justified by
(`disconnect_evidence`), and that a silent peer is disconnected in time
(`disconnects_silent`).
-/

namespace BitcoinCore.NetProcessing

open Net Chain Node List Option

/-! ## The source -/

section

variable {Block R : Type*} (memory : BlockMemory Block)

/-- The best known block is known and has at least the work of a benchmark. -/
def reachesWork (best : Option Block) (bench : Block) : Bool :=
  match best with
  | none => false
  | some block => decide ((memory bench).nChainWork ≤ (memory block).nChainWork)

/-- What a call of `considerEviction` does: the peer's state after it, whether
it set `fDisconnect`, and the block whose locator an attempted getheaders
starts from. -/
structure SyncOutcome (Block R : Type*) where
  state : CNodeState Block R
  disconnect : Bool
  getheaders : Option (Option Block)

/-- `none` stands for the failing assertion on the benchmark. -/
def considerEviction (node : CNode) (state : CNodeState Block R) (tip : Block) (time : ℤ) :
    Option (SyncOutcome Block R) :=
  let sync := state.chainSync
  if !sync.protect && node.isOutboundOrBlockRelayConn && state.fSyncStarted then
    if reachesWork memory state.pindexBestKnownBlock tip then
      -- The peer has sent us a block with at least as much work as our tip.
      if sync.timeout ≠ 0 then
        let cleared := { sync with timeout := 0, workHeader := none, sentGetheaders := false }
        some ⟨{ state with chainSync := cleared }, false, none⟩
      else some ⟨state, false, none⟩
    else if sync.timeout = 0 ∨
        sync.workHeader.any (reachesWork memory state.pindexBestKnownBlock) then
      -- First noticed, or caught up with our tip at the time the timer was set.
      let armed :=
        { sync with
          timeout := time + chainSyncTimeout, workHeader := some tip, sentGetheaders := false }
      some ⟨{ state with chainSync := armed }, false, none⟩
    else if 0 < sync.timeout ∧ sync.timeout < time then
      if sync.sentGetheaders then some ⟨state, true, none⟩
      else
        sync.workHeader.map fun hdr =>
          let warned :=
            { sync with timeout := time + headersResponseTime, sentGetheaders := true }
          ⟨{ state with chainSync := warned }, false, some (memory hdr).pprev⟩
    else some ⟨state, false, none⟩
  else some ⟨state, false, none⟩

/-- The circumstances of one call: the time, our tip, and what the peer's state
has become since the call before. -/
structure SyncCall (Block : Type*) where
  time : ℤ
  tip : Block
  bestKnownBlock : Option Block
  fSyncStarted : Bool
  protect : Bool

def visit (node : CNode) (state : CNodeState Block R) (call : SyncCall Block) :
    Option (SyncOutcome Block R) :=
  considerEviction memory node
    { state with
      pindexBestKnownBlock := call.bestKnownBlock
      fSyncStarted := call.fSyncStarted
      chainSync := { state.chainSync with protect := call.protect } }
    call.tip call.time

variable [Field R] [LinearOrder R] [Exp2 R]

/-- The peer's state after a sequence of calls, from the moment it connected. -/
def stateAfter (node : CNode) (calls : List (SyncCall Block)) : Option (CNodeState Block R) :=
  calls.foldlM (fun state call => (visit memory node state call).map SyncOutcome.state) .initial

def outcomeAfter (node : CNode) (init : List (SyncCall Block)) (call : SyncCall Block) :
    Option (SyncOutcome Block R) :=
  (stateAfter memory node init).bind fun state => visit memory node state call

end

/-! ## What one visit can do -/

section

variable {Block R : Type*} {memory : BlockMemory Block} {node : CNode}

def SyncCall.IsActive (node : CNode) (call : SyncCall Block) : Prop :=
  call.protect = false ∧ node.isOutboundOrBlockRelayConn ∧ call.fSyncStarted

instance (node : CNode) (call : SyncCall Block) : Decidable (call.IsActive node) :=
  inferInstanceAs (Decidable (_ ∧ _ ∧ _))

def SyncCall.Behind (memory : BlockMemory Block) (call : SyncCall Block) (bench : Block) :
    Prop :=
  ∀ block ∈ call.bestKnownBlock, (memory block).nChainWork < (memory bench).nChainWork

variable {call : SyncCall Block}

theorem behind_iff {bench : Block} :
    call.Behind memory bench ↔ reachesWork memory call.bestKnownBlock bench = false := by
  unfold SyncCall.Behind reachesWork
  cases call.bestKnownBlock with
  | none => simp
  | some block => simp

/-- What a call can do to the timer: the timer before and after it, whether it
disconnects, and whether it attempts a getheaders. -/
inductive VisitCase (memory : BlockMemory Block) (node : CNode) (call : SyncCall Block) :
    ChainSyncTimeoutState Block → ChainSyncTimeoutState Block → Bool → Bool → Prop where
  | inactive {timer : ChainSyncTimeoutState Block} (skipped : ¬call.IsActive node) :
      VisitCase memory node call timer { timer with protect := call.protect } false false
  | caughtUp {timer timer' : ChainSyncTimeoutState Block} (cleared : timer'.timeout = 0)
      (active : call.IsActive node) (caught : ¬call.Behind memory call.tip) :
      VisitCase memory node call timer timer' false false
  | armed {timer : ChainSyncTimeoutState Block} (active : call.IsActive node)
      (behind : call.Behind memory call.tip)
      (rearm : timer.timeout = 0 ∨ ∃ hdr ∈ timer.workHeader, ¬call.Behind memory hdr) :
      VisitCase memory node call timer
        ⟨call.time + chainSyncTimeout, some call.tip, false, call.protect⟩ false false
  | waiting {timer : ChainSyncTimeoutState Block} {hdr : Block}
      (bench : timer.workHeader = some hdr) (behind : call.Behind memory call.tip)
      (behindHeader : call.Behind memory hdr) (running : 0 < timer.timeout)
      (early : call.time ≤ timer.timeout) :
      VisitCase memory node call timer
        ⟨timer.timeout, some hdr, timer.sentGetheaders, call.protect⟩ false false
  | disconnected {timer : ChainSyncTimeoutState Block} {hdr : Block}
      (bench : timer.workHeader = some hdr) (active : call.IsActive node)
      (behind : call.Behind memory call.tip) (behindHeader : call.Behind memory hdr)
      (running : 0 < timer.timeout) (late : timer.timeout < call.time) (sent : timer.sentGetheaders) :
      VisitCase memory node call timer
        ⟨timer.timeout, some hdr, timer.sentGetheaders, call.protect⟩ true false
  | warned {timer : ChainSyncTimeoutState Block} {hdr : Block}
      (bench : timer.workHeader = some hdr) (active : call.IsActive node)
      (behind : call.Behind memory call.tip) (behindHeader : call.Behind memory hdr)
      (running : 0 < timer.timeout) (late : timer.timeout < call.time)
      (unsent : timer.sentGetheaders = false) :
      VisitCase memory node call timer
        ⟨call.time + headersResponseTime, some hdr, true, call.protect⟩ false true

def HasBenchmark (timer : ChainSyncTimeoutState Block) : Prop :=
  timer.timeout = 0 ∨ (0 < timer.timeout ∧ ∃ hdr, timer.workHeader = some hdr)

/-- A visit does one of the six things, and the assertion on the benchmark
holds, provided a running timer has a benchmark. -/
theorem visit_spec {state : CNodeState Block R}
    (running : HasBenchmark state.chainSync) : ∃ out, visit memory node state call = some out ∧
      VisitCase memory node call state.chainSync out.state.chainSync out.disconnect
        out.getheaders.isSome := by
  have isActive_iff : (!call.protect && node.isOutboundOrBlockRelayConn && call.fSyncStarted) = true ↔
      call.IsActive node := by
    simp [SyncCall.IsActive, and_assoc]
  unfold visit considerEviction
  dsimp only
  by_cases active : call.IsActive node
  · rw [if_pos (isActive_iff.mpr active)]
    by_cases behind : call.Behind memory call.tip
    · rw [if_neg (by rw [behind_iff.mp behind]; simp)]
      rcases running with stopped | ⟨pos, hdr, bench⟩
      · rw [if_pos (Or.inl stopped)]
        exact ⟨_, rfl, .armed active behind (.inl stopped)⟩
      · simp only [bench, any_some, pos.ne', false_or, pos, true_and]
        by_cases behindHeader : call.Behind memory hdr
        · rw [if_neg (by rw [behind_iff.mp behindHeader]; simp)]
          split_ifs with late sent
          · exact ⟨_, rfl, .disconnected bench active behind behindHeader pos late sent⟩
          · exact ⟨_, rfl, .warned bench active behind behindHeader pos late (by simpa using sent)⟩
          · exact ⟨_, rfl, .waiting bench behind behindHeader pos (not_lt.mp late)⟩
        · rw [if_pos (by simpa [behind_iff] using behindHeader)]
          exact ⟨_, rfl, .armed active behind (.inr ⟨hdr, bench, behindHeader⟩)⟩
    · rw [if_pos (by simpa [behind_iff] using behind)]
      split_ifs with stopped
      · exact ⟨_, rfl, .caughtUp rfl active behind⟩
      · exact ⟨_, rfl, .caughtUp (not_not.mp stopped) active behind⟩
  · rw [if_neg (fun holds => active (isActive_iff.mp holds))]
    exact ⟨_, rfl, .inactive active⟩

end

/-! ## What a timer says about the visits before -/

section

variable {Block : Type*} (R : Type*) [Field R] [LinearOrder R] [Exp2 R]
  (memory : BlockMemory Block) (node : CNode) (init : List (SyncCall Block))

def Disconnects (call : SyncCall Block) : Prop :=
  ∃ out : SyncOutcome Block R, outcomeAfter memory node init call = some out ∧ out.disconnect

def AttemptsGetheaders (call : SyncCall Block) : Prop :=
  ∃ out : SyncOutcome Block R, outcomeAfter memory node init call = some out ∧ out.getheaders.isSome

/-- At every call subject to the timer, the peer was behind our tip and behind
the tip of the call that started the timer. -/
def BehindSince (start : SyncCall Block) (calls : List (SyncCall Block)) : Prop :=
  ∀ call ∈ calls, call.IsActive node → call.Behind memory call.tip ∧ call.Behind memory start.tip

/-- What a timer says about the calls before it. A stopped timer says nothing. A
running timer was started by a call since which the peer has been behind; if
the getheaders has been sent, that was at a call after the deadline. -/
inductive History (calls : List (SyncCall Block)) (timer : ChainSyncTimeoutState Block) : Prop where
  | stopped (stopped : timer.timeout = 0)
  | armed (pre after : List (SyncCall Block)) (start : SyncCall Block)
      (split : calls = pre ++ start :: after) (active : start.IsActive node)
      (behind : start.Behind memory start.tip) (since : BehindSince memory node start after)
      (deadline : timer.timeout = start.time + chainSyncTimeout)
      (bench : timer.workHeader = some start.tip) (unsent : timer.sentGetheaders = false)
  | warned (pre middle after : List (SyncCall Block)) (start warned : SyncCall Block)
      (split : calls = pre ++ start :: middle ++ warned :: after)
      (active : start.IsActive node) (behind : start.Behind memory start.tip)
      (since : BehindSince memory node start (middle ++ warned :: after))
      (late : start.time + chainSyncTimeout < warned.time)
      (warnedActive : warned.IsActive node)
      (attempt : AttemptsGetheaders R memory node (pre ++ start :: middle) warned)
      (deadline : timer.timeout = warned.time + headersResponseTime)
      (bench : timer.workHeader = some start.tip) (sent : timer.sentGetheaders)

variable {R memory node} {calls : List (SyncCall Block)}

theorem BehindSince.concat {start call : SyncCall Block}
    (since : BehindSince memory node start calls)
    (last : call.IsActive node → call.Behind memory call.tip ∧ call.Behind memory start.tip) :
    BehindSince memory node start (calls ++ [call]) := by
  intro other mem
  rcases mem_append.mp mem with old | new
  · exact since other old
  · rw [mem_singleton.mp new]
    exact last

variable {timer timer' : ChainSyncTimeoutState Block} {call : SyncCall Block}
  {disconnect tries : Bool} {state : CNodeState Block R}

theorem History.hasBenchmark (hist : History R memory node calls timer)
    (pos : ∀ call ∈ calls, 0 < call.time) : HasBenchmark timer := by
  cases hist with
  | stopped stopped => exact .inl stopped
  | armed _ _ start split _ _ _ deadline bench _ =>
    have started := pos start (by rw [split]; simp)
    rw [chainSyncTimeout] at deadline
    exact .inr ⟨by omega, _, bench⟩
  | warned _ _ _ _ warned split _ _ _ _ _ _ deadline bench _ =>
    have started := pos warned (by rw [split]; simp)
    rw [headersResponseTime] at deadline
    exact .inr ⟨by omega, _, bench⟩

/-- A call at which the peer is behind, or that is not subject to the timer,
extends the history of a timer that it leaves alone. -/
theorem History.extend (hist : History R memory node calls timer)
    (timeout : timer'.timeout = timer.timeout) (hdr : timer'.workHeader = timer.workHeader)
    (sentSame : timer'.sentGetheaders = timer.sentGetheaders)
    (last : ∀ bench, timer.workHeader = some bench → call.IsActive node →
      call.Behind memory call.tip ∧ call.Behind memory bench) :
    History R memory node (calls ++ [call]) timer' := by
  cases hist with
  | stopped stopped => exact .stopped (timeout.trans stopped)
  | armed pre after start split active behind since deadline bench unsent =>
    exact .armed pre (after ++ [call]) start (by simp [split]) active behind
      (since.concat (last _ bench)) (timeout.trans deadline) (hdr.trans bench)
      (sentSame.trans unsent)
  | warned pre middle after start warned split active behind since late warnedActive attempt
      deadline bench sent =>
      refine .warned pre middle (after ++ [call]) start warned (by simp [split]) active behind
        ?_ late warnedActive attempt (timeout.trans deadline) (hdr.trans bench)
        (sentSame.trans sent)
      simpa using since.concat (last _ bench)

/-- One call extends the history of the timer. -/
theorem History.step (hist : History R memory node calls timer)
    (case : VisitCase memory node call timer timer' disconnect tries)
    (attempt : tries → AttemptsGetheaders R memory node calls call) :
    History R memory node (calls ++ [call]) timer' := by
  cases case with
  | inactive skipped =>
    exact hist.extend rfl rfl rfl fun _ _ active => absurd active skipped
  | caughtUp cleared => exact .stopped cleared
  | armed active behind =>
    exact .armed calls [] call rfl active behind (by simp [BehindSince]) rfl rfl rfl
  | waiting bench behind behindHeader =>
    refine hist.extend rfl bench.symm rfl fun hdr isHeader _ => ⟨behind, ?_⟩
    rwa [some_inj.mp (isHeader.symm.trans bench)]
  | disconnected bench _ behind behindHeader =>
    refine hist.extend rfl bench.symm rfl fun hdr isHeader _ => ⟨behind, ?_⟩
    rwa [some_inj.mp (isHeader.symm.trans bench)]
  | warned bench active behind behindHeader running late unsent =>
    cases hist with
    | stopped stopped => exact absurd running (by omega)
    | armed pre middle start split startActive startBehind since deadline hdr _ =>
      have sameHeader := some_inj.mp (hdr.symm.trans bench)
      refine .warned pre middle [] start call (by simp [split]) startActive startBehind ?_
        (deadline ▸ late) active (split ▸ attempt rfl) rfl (congrArg some sameHeader.symm) rfl
      exact since.concat fun _ => ⟨behind, sameHeader ▸ behindHeader⟩
    | warned _ _ _ _ _ _ _ _ _ _ _ _ _ _ sent =>
      exact absurd (sent.symm.trans unsent) (by simp)

theorem stateAfter_concat (init : List (SyncCall Block)) (call : SyncCall Block) :
    stateAfter (R := R) memory node (init ++ [call]) =
      (outcomeAfter memory node init call).map SyncOutcome.state := by
  rw [stateAfter, foldlM_append]
  simp only [foldlM_cons, foldlM_nil, bind_pure]
  change (stateAfter memory node init).bind _ = _
  rw [outcomeAfter]
  cases stateAfter (R := R) memory node init <;> rfl

theorem outcomeAfter_spec {init : List (SyncCall Block)}
    (reached : stateAfter memory node init = some state)
    (running : HasBenchmark state.chainSync) (call : SyncCall Block) :
    ∃ out : SyncOutcome Block R, outcomeAfter memory node init call = some out ∧
      stateAfter memory node (init ++ [call]) = some out.state ∧
      VisitCase memory node call state.chainSync out.state.chainSync out.disconnect
        out.getheaders.isSome := by
  obtain ⟨out, visited, case⟩ : ∃ out, visit memory node state call = some out ∧
        VisitCase memory node call state.chainSync out.state.chainSync out.disconnect
          out.getheaders.isSome := visit_spec running
  have isOutcome : outcomeAfter memory node init call = some out := by
    rw [outcomeAfter, reached]
    exact visited
  exact ⟨out, isOutcome, by rw [stateAfter_concat, isOutcome, map_some], case⟩

/-- The timer tells its history after every run of calls, and no run fails
the assertion on the benchmark. -/
theorem history_stateAfter (calls : List (SyncCall Block)) (pos : ∀ call ∈ calls, 0 < call.time) :
    ∃ state : CNodeState Block R, stateAfter memory node calls = some state ∧
      History R memory node calls state.chainSync := by
  induction calls using List.reverseRecOn with
  | nil => exact ⟨.initial, rfl, .stopped rfl⟩
  | append_singleton init call ih =>
    have earlierPositive : ∀ other ∈ init, 0 < other.time :=
      fun other mem => pos other (mem_append_left _ mem)
    obtain ⟨state, reached, hist⟩ := ih earlierPositive
    obtain ⟨out, isOutcome, reached', case⟩ :=
      outcomeAfter_spec reached (hist.hasBenchmark earlierPositive) call
    exact ⟨out.state, reached', hist.step case fun tries =>
      ⟨out, isOutcome, tries⟩⟩

variable (R memory node) (init : List (SyncCall Block))

/-- The evidence for a disconnection: a call that started the timer and a call
that attempted the getheaders, in time, such that at all three the peer was
subject to the timer, and at every call in between that was subject to it the
peer was behind our tip and, after the start, behind the tip of the start. -/
def DisconnectEvidence (call : SyncCall Block) : Prop :=
  ∃ (pre : List (SyncCall Block)) (start : SyncCall Block) (middle : List (SyncCall Block))
      (warned : SyncCall Block) (after : List (SyncCall Block)),
    init = pre ++ start :: middle ++ warned :: after ∧
    start.time + chainSyncTimeout < warned.time ∧
    warned.time + headersResponseTime < call.time ∧
    AttemptsGetheaders R memory node (pre ++ start :: middle) warned ∧
    start.IsActive node ∧ warned.IsActive node ∧ call.IsActive node ∧
    start.Behind memory start.tip ∧
    BehindSince memory node start (middle ++ warned :: after ++ [call])

/-- The evidence with a stronger demand: at every call from the start on that
was made while sync was started, the peer was subject to the timer. -/
def UninterruptedEvidence (call : SyncCall Block) : Prop :=
  ∃ (pre : List (SyncCall Block)) (start : SyncCall Block) (middle : List (SyncCall Block))
      (warned : SyncCall Block) (after : List (SyncCall Block)),
    init = pre ++ start :: middle ++ warned :: after ∧
    start.time + chainSyncTimeout < warned.time ∧
    warned.time + headersResponseTime < call.time ∧
    AttemptsGetheaders R memory node (pre ++ start :: middle) warned ∧
    (∀ other ∈ start :: middle ++ warned :: after ++ [call], other.fSyncStarted →
      other.protect = false ∧ node.isOutboundOrBlockRelayConn ∧ other.Behind memory other.tip) ∧
    ∀ other ∈ middle ++ warned :: after ++ [call], other.fSyncStarted →
      other.Behind memory start.tip

variable {R memory node} {init : List (SyncCall Block)}

theorem disconnect_evidence (pos : ∀ other ∈ init, 0 < other.time)
    (disconnects : Disconnects R memory node init call) :
    DisconnectEvidence R memory node init call := by
  obtain ⟨state, reached, hist⟩ := history_stateAfter (R := R) init pos
  obtain ⟨out, isOutcome, -, case⟩ :=
    outcomeAfter_spec reached (hist.hasBenchmark pos) call
  obtain ⟨outcome', isOutcome', disconnect⟩ := disconnects
  rw [← some_inj.mp (isOutcome.symm.trans isOutcome')] at disconnect
  rw [disconnect] at case
  generalize out.state.chainSync = timer' at case
  generalize out.getheaders.isSome = tries at case
  cases case with
  | disconnected bench active behind behindHeader running late sent =>
    cases hist with
    | stopped stopped => exact absurd running (by omega)
    | armed _ _ _ _ _ _ _ _ _ unsent => exact absurd (sent.symm.trans unsent) (by simp)
    | warned pre middle after start warned split startActive startBehind since startLate
        warnedActive attempt deadline hdr _ =>
        have sameHeader := some_inj.mp (hdr.symm.trans bench)
        refine ⟨pre, start, middle, warned, after, split, startLate, deadline ▸ late, attempt,
          startActive, warnedActive, active, startBehind, ?_⟩
        exact since.concat fun _ => ⟨behind, sameHeader ▸ behindHeader⟩

/-- If protection is never withdrawn, the peer was subject to the timer at every
call made while sync was started. -/
theorem DisconnectEvidence.uninterrupted (evidence : DisconnectEvidence R memory node init call)
    (kept : (init ++ [call]).Pairwise fun first second =>
      first.protect → second.protect) : UninterruptedEvidence R memory node init call := by
  obtain ⟨pre, start, middle, warned, after, split, startLate, late, attempt, startActive,
    warnedActive, active, startBehind, since⟩ := evidence
  rw [pairwise_append] at kept
  have unprotected : ∀ other ∈ init, other.protect = false := by
    intro other mem
    have keeps := kept.2.2 other mem call mem_cons_self
    rw [active.1] at keeps
    simpa using keeps
  have isActive : ∀ other ∈ start :: middle ++ warned :: after ++ [call],
      other.fSyncStarted → other.IsActive node := by
    intro other mem started
    rcases mem_append.mp mem with old | new
    · refine ⟨unprotected other ?_, active.2.1, started⟩
      rw [split, append_assoc]
      exact mem_append_right _ old
    · rw [mem_singleton.mp new]
      exact active
  refine ⟨pre, start, middle, warned, after, split, startLate, late, attempt, ?_, ?_⟩
  · intro other mem started
    obtain ⟨open_, outbound, _⟩ := isActive other mem started
    refine ⟨open_, outbound, ?_⟩
    rcases mem_cons.mp mem with rfl | later
    · exact startBehind
    · exact (since other later ⟨open_, outbound, started⟩).1
  · intro other mem started
    exact (since other mem (isActive other (mem_cons_of_mem _ mem) started)).2

/-! ## Silent peers -/

theorem behind_of_silent (silent : call.bestKnownBlock = none)
    (bench : Block) : call.Behind memory bench := by
  simp [SyncCall.Behind, silent]

/-- A visit to a silent peer whose timer is running waits, warns or
disconnects; it keeps the benchmark. -/
theorem VisitCase.of_silent (case : VisitCase memory node call timer timer' disconnect tries)
    (silent : call.bestKnownBlock = none) (running : 0 < timer.timeout) : disconnect ∨
      timer'.workHeader = timer.workHeader ∧
        ((timer'.timeout = timer.timeout ∧ timer'.sentGetheaders = timer.sentGetheaders ∧
            (call.IsActive node → call.time ≤ timer.timeout)) ∨
          (timer.sentGetheaders = false ∧ timer'.timeout = call.time + headersResponseTime ∧
            timer'.sentGetheaders)) := by
  cases case with
  | inactive skipped => exact .inr ⟨rfl, .inl ⟨rfl, rfl, fun active => absurd active skipped⟩⟩
  | caughtUp _ _ caught => exact absurd (behind_of_silent silent _) caught
  | armed _ _ rearm =>
    rcases rearm with stopped | ⟨bench, _, caught⟩
    · omega
    · exact absurd (behind_of_silent silent bench) caught
  | waiting bench _ _ _ early => exact .inr ⟨bench.symm, .inl ⟨rfl, rfl, fun _ => early⟩⟩
  | disconnected => exact .inl rfl
  | warned bench _ _ _ _ _ unsent => exact .inr ⟨bench.symm, .inr ⟨unsent, rfl, rfl⟩⟩

/-- The timer is running and will have disconnected a silent peer in time: the
first deadline is not after `first`, the second one not after `second`. -/
def Pending (first second : ℤ) (timer : ChainSyncTimeoutState Block) : Prop :=
  0 < timer.timeout ∧ (∃ hdr, timer.workHeader = some hdr) ∧
    ((timer.sentGetheaders = false ∧ timer.timeout ≤ first) ∨
      (timer.sentGetheaders ∧ timer.timeout ≤ second))

theorem Pending.hasBenchmark {first second : ℤ}
    (pending : Pending first second timer) : HasBenchmark timer :=
  .inr ⟨pending.1, pending.2.1⟩

theorem Pending.sent {second : ℤ} (pending : Pending 0 second timer) : timer.sentGetheaders := by
  obtain ⟨running, _, ⟨_, stopped⟩ | ⟨sent, _⟩⟩ := pending
  · omega
  · exact sent

section

variable {first second : ℤ}

section

variable (pending : Pending first second timer)
  (case : VisitCase memory node call timer timer' disconnect tries)
  (silent : call.bestKnownBlock = none)
include pending case silent

theorem Pending.step (pos : 0 < call.time)
    (inTime : timer.sentGetheaders = false → call.time + headersResponseTime ≤ second) :
    disconnect ∨ Pending first second timer' := by
  obtain ⟨running, hdr, deadlines⟩ := pending
  have responseTime : 0 < headersResponseTime := by decide
  rcases case.of_silent silent running with
    done | ⟨sameHeader, ⟨sameTimeout, sameSent, _⟩ | ⟨unsent, timeout, sent⟩⟩
  · exact .inl done
  · exact .inr ⟨sameTimeout ▸ running, sameHeader ▸ hdr, by rwa [sameTimeout, sameSent]⟩
  · exact .inr ⟨by omega, sameHeader ▸ hdr, .inr ⟨sent, timeout ▸ inTime unsent⟩⟩

/-- Past the first deadline, a visit to a silent peer that is subject to the
timer leaves only the second deadline. -/
theorem Pending.warn (active : call.IsActive node)
    (late : first < call.time) (inTime : call.time + headersResponseTime ≤ second)
    (pos : 0 < call.time) : disconnect ∨ Pending 0 second timer' := by
  obtain ⟨running, hdr, deadlines⟩ := pending
  have responseTime : 0 < headersResponseTime := by decide
  rcases case.of_silent silent running with
    done | ⟨sameHeader, ⟨sameTimeout, sameSent, early⟩ | ⟨_, timeout, sent⟩⟩
  · exact .inl done
  · rcases deadlines with ⟨_, soon⟩ | ⟨sent, soon⟩
    · exact absurd (early active) (by omega)
    · exact .inr ⟨by omega, sameHeader ▸ hdr, .inr ⟨sameSent.trans sent, by omega⟩⟩
  · exact .inr ⟨by omega, sameHeader ▸ hdr, .inr ⟨sent, by omega⟩⟩

end

theorem Pending.expire (pending : Pending 0 second timer)
    (case : VisitCase memory node call timer timer' disconnect tries)
    (silent : call.bestKnownBlock = none) (active : call.IsActive node)
    (late : second < call.time) : disconnect := by
  rcases case.of_silent silent pending.1 with done | ⟨_, ⟨_, _, early⟩ | ⟨unsent, _⟩⟩
  · exact done
  · obtain ⟨running, _, deadlines⟩ := pending
    exact absurd (early active) (by omega)
  · exact absurd (pending.sent.symm.trans unsent) (by simp)

/-- After a visit to a silent peer that is subject to the timer, the timer is
pending, whatever the calls before it. -/
theorem History.pending (hist : History R memory node calls timer)
    (case : VisitCase memory node call timer timer' disconnect tries)
    (silent : call.bestKnownBlock = none) (active : call.IsActive node)
    (pos : ∀ other ∈ calls ++ [call], 0 < other.time)
    (ordered : ∀ other ∈ calls, other.time ≤ call.time)
    (inTime : call.time + headersResponseTime ≤ second) :
    disconnect ∨ Pending (call.time + chainSyncTimeout) second timer' := by
  have callPositive : 0 < call.time := pos call (by simp)
  have syncTimeout : 0 < chainSyncTimeout := by decide
  have responseTime : 0 < headersResponseTime := by decide
  cases hist with
  | stopped stopped =>
    cases case with
    | inactive skipped => exact absurd active skipped
    | caughtUp _ _ caught => exact absurd (behind_of_silent silent _) caught
    | armed => exact .inr ⟨by dsimp only; omega, ⟨_, rfl⟩, .inl ⟨rfl, Int.le_refl _⟩⟩
    | waiting _ _ _ running => omega
    | disconnected _ _ _ _ running => omega
    | warned _ _ _ _ running => omega
  | armed _ _ start split _ _ _ deadline bench unsent =>
    have started := pos start (by simp [split])
    have startedBefore := ordered start (by simp [split])
    exact Pending.step ⟨by omega, ⟨_, bench⟩, .inl ⟨unsent, by omega⟩⟩ case silent
      callPositive fun _ => inTime
  | warned _ _ _ _ warned split _ _ _ _ _ _ deadline bench sent =>
    have warnedAt := pos warned (by simp [split])
    have warnedBefore := ordered warned (by simp [split])
    exact Pending.step ⟨by omega, ⟨_, bench⟩, .inr ⟨sent, by omega⟩⟩ case silent
      callPositive fun _ => inTime

end

variable (R memory node)

/-- Some call of a segment, after the calls before the segment, disconnects. -/
def DisconnectsWithin (pre seg : List (SyncCall Block)) : Prop :=
  ∃ init call rest, seg = init ++ call :: rest ∧ Disconnects R memory node (pre ++ init) call

variable {R memory node} {pre seg more : List (SyncCall Block)}

theorem DisconnectsWithin.append (within : DisconnectsWithin R memory node pre seg)
    (more : List (SyncCall Block)) :
    DisconnectsWithin R memory node pre (seg ++ more) := by
  obtain ⟨init, call, rest, rfl, disconnects⟩ := within
  exact ⟨init, call, rest ++ more, by simp, disconnects⟩

theorem DisconnectsWithin.later (within : DisconnectsWithin R memory node (pre ++ seg) more) :
    DisconnectsWithin R memory node pre (seg ++ more) := by
  obtain ⟨init, call, rest, rfl, disconnects⟩ := within
  exact ⟨seg ++ init, call, rest, by simp, by simpa using disconnects⟩

variable (R memory node)

/-- Some call of a segment disconnects, or the segment ends with such a timer. -/
def DisconnectsOr (pre seg : List (SyncCall Block))
    (ending : ChainSyncTimeoutState Block → Prop) : Prop :=
  DisconnectsWithin R memory node pre seg ∨
    ∃ state : CNodeState Block R, stateAfter memory node (pre ++ seg) = some state ∧
      ending state.chainSync

variable {R memory node}

theorem DisconnectsOr.one {ending : ChainSyncTimeoutState Block → Prop}
    (reached : stateAfter memory node pre = some state) (running : HasBenchmark state.chainSync)
    (step : ∀ timer' disconnect tries,
      VisitCase memory node call state.chainSync timer' disconnect tries →
        disconnect ∨ ending timer') : DisconnectsOr R memory node pre [call] ending := by
  obtain ⟨out, isOutcome, reached', case⟩ := outcomeAfter_spec reached running call
  rcases step _ _ _ case with disconnect | ends
  · exact .inl ⟨[], call, [], rfl, out, by simpa using isOutcome, disconnect⟩
  · exact .inr ⟨out.state, reached', ends⟩

theorem DisconnectsOr.append {middle ending : ChainSyncTimeoutState Block → Prop}
    (first : DisconnectsOr R memory node pre seg middle)
    (second : ∀ state : CNodeState Block R, stateAfter memory node (pre ++ seg) = some state →
      middle state.chainSync → DisconnectsOr R memory node (pre ++ seg) more ending) :
    DisconnectsOr R memory node pre (seg ++ more) ending := by
  rcases first with within | ⟨state, reached, holds⟩
  · exact .inl (within.append more)
  · rcases second state reached holds with within | ⟨state', reached', ends⟩
    · exact .inl within.later
    · exact .inr ⟨state', by simpa using reached', ends⟩

/-- The rule for a segment each of whose calls keeps an invariant. -/
theorem DisconnectsOr.segment {invariant : ChainSyncTimeoutState Block → Prop}
    (reached : stateAfter memory node pre = some state) (holds : invariant state.chainSync)
    (running : ∀ timer, invariant timer → HasBenchmark timer)
    (step : ∀ call ∈ seg, ∀ timer timer' disconnect tries, invariant timer →
      VisitCase memory node call timer timer' disconnect tries → disconnect ∨ invariant timer') :
    DisconnectsOr R memory node pre seg invariant := by
  induction seg generalizing pre state with
  | nil => exact .inr ⟨state, by simpa using reached, holds⟩
  | cons call rest ih =>
    have one : DisconnectsOr R memory node pre [call] invariant :=
      .one reached (running _ holds) fun timer' disconnect tries =>
        step call mem_cons_self _ timer' disconnect tries holds
    exact one.append fun state' reached' holds' => ih reached' holds' fun other mem =>
      step other (mem_cons_of_mem _ mem)

/-- A silent peer is disconnected in time. -/
theorem disconnects_silent {middle after : List (SyncCall Block)}
    {start warned last : SyncCall Block}
    (pos : ∀ call ∈ pre ++ ([start] ++ middle ++ [warned] ++ after ++ [last]), 0 < call.time)
    (ordered : (pre ++ ([start] ++ middle ++ [warned] ++ after ++ [last])).Pairwise
      fun first second => first.time ≤ second.time)
    (silent : ∀ call ∈ [start] ++ middle ++ [warned] ++ after ++ [last], call.bestKnownBlock = none)
    (startActive : start.IsActive node) (warnedActive : warned.IsActive node)
    (lastActive : last.IsActive node) (startLate : start.time + chainSyncTimeout < warned.time)
    (late : warned.time + headersResponseTime < last.time) :
    DisconnectsWithin R memory node pre ([start] ++ middle ++ [warned] ++ after ++ [last]) := by
  simp only [pairwise_append, mem_append, mem_singleton] at ordered
  obtain ⟨-, ⟨⟨⟨⟨-, -, -⟩, -, toWarned⟩, -, -⟩, -, -⟩, fromBefore⟩ := ordered
  have beforeStart : ∀ call ∈ pre, call.time ≤ start.time :=
    fun call mem => fromBefore call mem start (by simp)
  have upToWarned : ∀ call ∈ [start] ++ middle, call.time ≤ warned.time :=
    fun call mem => toWarned call (by simpa using mem) warned rfl
  obtain ⟨state, reached, hist⟩ : ∃ state : CNodeState Block R,
      stateAfter memory node pre = some state ∧
        History R memory node pre state.chainSync :=
    history_stateAfter pre fun call mem => pos call (mem_append_left _ mem)
  have running := hist.hasBenchmark fun call mem =>
    pos call (mem_append_left _ mem)
  let second := warned.time + headersResponseTime
  have started : DisconnectsOr R memory node pre [start]
      (Pending (start.time + chainSyncTimeout) second) :=
    .one reached running fun timer' disconnect tries case =>
      hist.pending case (silent start (by simp)) startActive
        (fun call mem => pos call (by simp at mem ⊢; tauto)) beforeStart
        (Int.add_le_add_right (upToWarned start (by simp)) _)
  have waited : DisconnectsOr R memory node pre ([start] ++ middle)
      (Pending (start.time + chainSyncTimeout) second) :=
    started.append fun state' reached' pending =>
      .segment reached' pending (fun _ => Pending.hasBenchmark) fun call mem _ _ _ _ pending case =>
        pending.step case (silent call (by simp [mem])) (pos call (by simp [mem]))
          fun _ => Int.add_le_add_right (upToWarned call (by simp [mem])) _
  have reminded : DisconnectsOr R memory node pre ([start] ++ middle ++ [warned])
      (Pending 0 second) :=
    waited.append fun state' reached' pending =>
      .one reached' pending.hasBenchmark fun _ _ _ case =>
        pending.warn case (silent warned (by simp)) warnedActive startLate (Int.le_refl _)
          (pos warned (by simp))
  have waitedAgain : DisconnectsOr R memory node pre ([start] ++ middle ++ [warned] ++ after)
      (Pending 0 second) :=
    reminded.append fun state' reached' pending =>
      .segment reached' pending (fun _ => Pending.hasBenchmark) fun call mem _ _ _ _ pending case =>
        pending.step case (silent call (by simp [mem])) (pos call (by simp [mem]))
          fun unsent => absurd (pending.sent.symm.trans unsent) (by simp)
  have expired : DisconnectsOr R memory node pre
      ([start] ++ middle ++ [warned] ++ after ++ [last]) fun _ => False :=
    waitedAgain.append fun state' reached' pending =>
      .one reached' pending.hasBenchmark fun _ _ _ case =>
        .inl (pending.expire case (silent last (by simp)) lastActive late)
  rcases expired with within | ⟨_, _, impossible⟩
  · exact within
  · exact impossible.elim

variable (R memory node)

/-- Disconnections for a bad chain are fair and bounded. In every run of
calls at ordered positive times, a call disconnects only on the evidence of a
start and a getheaders in time, since which the peer was behind at every call
subject to the timer; if protection is never withdrawn, at every call made while
sync was started. Conversely a silent peer is disconnected once both times have
run out. -/
theorem considerEviction_fair_and_bounded (calls : List (SyncCall Block))
    (pos : ∀ call ∈ calls, 0 < call.time)
    (ordered : calls.Pairwise fun first second => first.time ≤ second.time) :
    (∀ init call rest, calls = init ++ call :: rest → Disconnects R memory node init call →
        DisconnectEvidence R memory node init call ∧
          ((init ++ [call]).Pairwise (fun first second =>
              first.protect → second.protect) → UninterruptedEvidence R memory node init call)) ∧
      ∀ (pre middle after rest : List (SyncCall Block)) (start warned last : SyncCall Block),
        calls = pre ++ ([start] ++ middle ++ [warned] ++ after ++ [last]) ++ rest →
        start.IsActive node → warned.IsActive node → last.IsActive node →
        (∀ call ∈ [start] ++ middle ++ [warned] ++ after ++ [last], call.bestKnownBlock = none) →
        start.time + chainSyncTimeout < warned.time →
        warned.time + headersResponseTime < last.time → DisconnectsWithin R memory node pre
            ([start] ++ middle ++ [warned] ++ after ++ [last]) := by
  constructor
  · rintro init call rest rfl disconnects
    have evidence := disconnect_evidence
      (fun other mem => pos other (mem_append_left _ mem)) disconnects
    exact ⟨evidence, evidence.uninterrupted⟩
  · rintro pre middle after rest start warned last rfl startActive warnedActive lastActive
      silent startLate late
    exact disconnects_silent (fun call mem => pos call (mem_append_left _ mem))
      (pairwise_append.mp ordered).1 silent startActive warnedActive lastActive startLate late

end

section

def oneBlock : BlockMemory Unit := fun _ => ⟨0, none, none, 0, 1, 1, 1, 0⟩

def fullRelayNode : CNode := ⟨0, .outboundFullRelay, .ipv4, true, false, 0, 0, 0⟩

def silentCall (time : ℤ) (protect : Bool) : SyncCall Unit :=
  ⟨time, (), none, true, protect⟩

/-- A silent peer is disconnected at the third of three calls. -/
theorem considerEviction_fair_and_bounded_silent : DisconnectsWithin ℚ oneBlock fullRelayNode []
        [silentCall 1 false, silentCall 1202 false, silentCall 1323 false] ∧
      DisconnectEvidence ℚ oneBlock fullRelayNode [silentCall 1 false, silentCall 1202 false]
        (silentCall 1323 false) := by
  have run := considerEviction_fair_and_bounded ℚ oneBlock fullRelayNode
    [silentCall 1 false, silentCall 1202 false, silentCall 1323 false]
    (by decide) (by decide)
  refine ⟨run.2 [] [] [] [] _ _ _ rfl ?_ ?_ ?_ ?_ ?_ ?_, (run.1 _ _ [] rfl ⟨_, rfl, rfl⟩).1⟩
  all_goals decide

/-- The calls for a silent peer that is protected at one of them only. -/
def interruptedCalls : List (SyncCall Unit) :=
  [silentCall 1 false, silentCall 1202 false, silentCall 1203 true]

/-- A peer that was protected for one call in between is disconnected all the
same. -/
theorem disconnects_without_uninterruptedEvidence :
    (∀ call ∈ interruptedCalls ++ [silentCall 1323 false], 0 < call.time) ∧
      (interruptedCalls ++ [silentCall 1323 false]).Pairwise
        (fun first second => first.time ≤ second.time) ∧
      Disconnects ℚ oneBlock fullRelayNode interruptedCalls (silentCall 1323 false) ∧
      ¬UninterruptedEvidence ℚ oneBlock fullRelayNode interruptedCalls (silentCall 1323 false) := by
  refine ⟨by decide, by decide, ⟨_, rfl, rfl⟩, ?_⟩
  rintro ⟨pre, start, middle, warned, after, split, -, -, -, subject, -⟩
  have mem : silentCall 1203 true ∈ warned :: after := by
    have isLast : some (silentCall 1203 true) = (warned :: after).getLast? := by
      have same := congrArg List.getLast? split
      rwa [List.getLast?_append, or_of_isSome (by simp)] at same
    exact mem_of_getLast? isLast.symm
  have unprotected := (subject (silentCall 1203 true) (by simp at mem ⊢; tauto) rfl).1
  exact absurd unprotected (by decide)

end

end BitcoinCore.NetProcessing
