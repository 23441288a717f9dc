import BitcoinCore.NetProcessing.InFlight
import BitcoinCore.NetProcessing.Announcements

/-!
# The verdict on a block

When a block has been checked, `blockChecked` attributes the verdict. It records
observations of the relay quality of the peer the block came from and of the
peers that announced it, may punish the source of an invalid block, may select
the source of a valid block to announce further blocks, and then forgets the
source and the announcers of the block.

Scoring and punishment read the same verdict and the same source. They agree on
the verdicts that find the block invalid, except that an inbound peer is not
punished for a block already known to be invalid
(`invalidFullBlockSource_punished`). The credit for announcements is that of the
tracker (`validatedAnnouncements_eq`).
-/

namespace BitcoinCore.NetProcessing

open Net Chain Node Option List AnnouncementTracker BlockDownloads

/-! ## The source -/

/-- Why a block is invalid. -/
inductive BlockValidationResult where
  | resultUnset
  | consensus
  | cachedInvalid
  | invalidHeader
  | mutated
  | missingPrev
  | invalidPrev
  | timeFuture
  | headerLowWork
  deriving DecidableEq, Repr

/-- Whether everything is fine, the block is invalid, or something else went wrong. -/
inductive ModeState where
  | valid
  | invalid
  | error
  deriving DecidableEq, Repr

/-- The verdict on a block. -/
structure BlockValidationState where
  mode : ModeState
  result : BlockValidationResult
  deriving DecidableEq, Repr

variable {Block R : Type*}

namespace BlockValidationState

/-- No check has failed. -/
def isValid (state : BlockValidationState) : Bool := state.mode = .valid

/-- The block breaks a rule. -/
def isInvalid (state : BlockValidationState) : Bool := state.mode = .invalid

end BlockValidationState

/-- The peer a block came from, and how it came. -/
structure BlockSourceMetadata where
  peerId : NodeId
  fullBlockSource : Bool
  wasRequested : Bool
  compactOutcome : Option CompactBlockOutcome
  deriving DecidableEq, Repr

variable {obs : RelayObservation}

namespace BlockSourceMetadata

/-- What is observed of the source of an invalid block. -/
def invalidObservations (src : BlockSourceMetadata) : List RelayObservation :=
  if src.fullBlockSource then
    .invalidFullBlockSource ::
      if src.wasRequested then [.requestedBlockResult false] else []
  else []

/-- What is observed of the source of a valid block. -/
def validObservations (src : BlockSourceMetadata) : List RelayObservation :=
  (if src.fullBlockSource then [.validFullBlockSource] else []) ++
    (if src.wasRequested then [.requestedBlockResult true] else []) ++
    (src.compactOutcome.map .compactBlockResult).toList

variable {src : BlockSourceMetadata}

theorem mem_invalidObservations : obs ∈ src.invalidObservations ↔ src.fullBlockSource ∧
      (obs = .invalidFullBlockSource ∨ (src.wasRequested ∧ obs = .requestedBlockResult false)) := by
  rw [invalidObservations]
  cases src.fullBlockSource <;> cases src.wasRequested <;> simp

theorem mem_validObservations : obs ∈ src.validObservations ↔
      (src.fullBlockSource ∧ obs = .validFullBlockSource) ∨
      (src.wasRequested ∧ obs = .requestedBlockResult true) ∨ ∃ out, src.compactOutcome = some out ∧
        obs = .compactBlockResult out := by
  rw [validObservations]
  cases src.fullBlockSource <;> cases src.wasRequested <;> cases src.compactOutcome <;> simp

end BlockSourceMetadata

open BlockSourceMetadata

/-- The state of the message handlers that the attribution of verdicts depends on. -/
structure PeerManager (Block R : Type*) where
  downloads : BlockDownloads Block R
  peers : Finmap fun _ : NodeId => Peer
  mapBlockSource : Finmap fun _ : Uint256 => BlockSourceMetadata
  tracker : AnnouncementTracker
  lNodesAnnouncingHeaderAndIDs : List NodeId

/-- What the verdict on a block does to peers: the observations it records, in
order, the node that `maybePunishNodeForBlock` is called for, and the node that
`maybeSetPeerAsAnnouncingHeaderAndIDs` is called for. -/
structure CheckedOutcome where
  observations : List (NodeId × RelayObservation)
  punished : Option NodeId
  selected : Option NodeId

/-- What `BlockChecked` reads of the rest of the node. Times are in seconds. -/
structure CheckedContext where
  now : ℤ
  isInitialBlockDownload : Bool
  ignoreIncomingTxs : Bool
  connman : CConnman

namespace PeerManager

section

/-- No peer is connected. -/
def initial : PeerManager Block R := ⟨.initial, ∅, ∅, .empty, []⟩

variable (mgr : PeerManager Block R)

/-- The state of a node. -/
def state (id : NodeId) : Option (CNodeState Block R) :=
  mgr.downloads.state id

/-- The peer object of a node. -/
def getPeerRef (id : NodeId) : Option Peer :=
  mgr.peers.lookup id

/-- Note that a peer announced a block. -/
def recordCandidateAnnouncement (peerId : NodeId) (hash : Uint256) : PeerManager Block R :=
  { mgr with tracker := mgr.tracker.recordCandidateAnnouncement peerId hash }

/-- Note how an attempt to relay a block as a compact block ended. -/
def setCompactOutcome (hash : Uint256) (peerId : NodeId)
    (out : CompactBlockOutcome) : PeerManager Block R :=
  -- An entry is made for a block that has no source yet.
  let src := (mgr.mapBlockSource.lookup hash).getD ⟨peerId, false, false, none⟩
  let src :=
    if src.peerId = peerId then { src with compactOutcome := some out } else src
  { mgr with mapBlockSource := mgr.mapBlockSource.insert hash src }

/-- Mark a peer to be discouraged. -/
def misbehaving (id : NodeId) : PeerManager Block R :=
  match mgr.getPeerRef id with
  | some peer => { mgr with peers := mgr.peers.insert id peer.misbehaving }
  | none => mgr

/-- The verdicts for which `MaybePunishNodeForBlock` calls `Misbehaving`. -/
def isPunished (result : BlockValidationResult) (viaCompactBlock : Bool) (peer : Peer) : Bool :=
  match result with
  | .resultUnset => false
  | .headerLowWork => false
  | .consensus | .mutated => !viaCompactBlock
  | .cachedInvalid => !viaCompactBlock && !peer.isInbound
  | .invalidHeader | .invalidPrev => true
  | .missingPrev => true
  | .timeFuture => false

/-- Punish a peer for the verdict on a block. -/
def maybePunishNodeForBlock (id : NodeId)
    (state : BlockValidationState) (viaCompactBlock : Bool) : PeerManager Block R :=
  match mgr.getPeerRef id with
  | some peer =>
    if isPunished state.result viaCompactBlock peer then mgr.misbehaving id else mgr
  | none => mgr

/-- The peers that are asked to announce blocks with compact blocks, after a peer
is put at the end of their list. At most three announce, and an inbound peer does
not take the place of the last outbound one. -/
def nodesAnnouncing (ctx : CheckedContext) (id : NodeId) :
    List NodeId :=
  let announcing := mgr.lNodesAnnouncingHeaderAndIDs
  let isOutbound : NodeId → Bool := fun other =>
    (mgr.getPeerRef other).any fun peer => !peer.isInbound
  if ctx.ignoreIncomingTxs then announcing
  else if !(mgr.state id).any CNodeState.providesCmpctblocks then announcing
  else if id ∈ announcing then announcing.erase id ++ [id]
  else
    let announcing :=
      if (mgr.getPeerRef id).any Peer.isInbound && 3 ≤ announcing.length &&
          announcing.countP isOutbound = 1 && announcing.head?.any isOutbound then
        match announcing with
        | first :: second :: rest => second :: first :: rest
        | few => few
      else announcing
    if (ctx.connman.forNode id).isSome then
      (if 3 ≤ announcing.length then announcing.tail else announcing) ++ [id]
    else announcing

/-- Ask a peer to announce further blocks with compact blocks. -/
def maybeSetPeerAsAnnouncingHeaderAndIDs (ctx : CheckedContext) (id : NodeId) :
    PeerManager Block R :=
  { mgr with lNodesAnnouncingHeaderAndIDs := mgr.nodesAnnouncing ctx id }

/-- The source of a block, if it is still connected. -/
def connectedSource (hash : Uint256) : Option BlockSourceMetadata :=
  (mgr.mapBlockSource.lookup hash).filter fun src => (mgr.state src.peerId).isSome

/-- The announcers of a block that are still connected. -/
def connectedAnnouncers (hash : Uint256) : List NodeId :=
  ((mgr.tracker.announcers hash).getD []).filter fun peerId => (mgr.state peerId).isSome

/-- The observations that a verdict records. -/
def checkedObservations (hash : Uint256)
    (state : BlockValidationState) : List (NodeId × RelayObservation) :=
  if state.isInvalid then
    (mgr.connectedSource hash).elim [] fun src =>
      src.invalidObservations.map (src.peerId, ·)
  else if state.isValid then
    (mgr.connectedAnnouncers hash).map (·, .validatedAnnouncement) ++
      (mgr.connectedSource hash).elim [] fun src =>
        src.validObservations.map (src.peerId, ·)
  else []

/-- The source that may be punished. -/
def checkedPunished (hash : Uint256) (state : BlockValidationState) : Option BlockSourceMetadata :=
  if state.isInvalid then mgr.connectedSource hash else none

/-- The source of a valid block, which may be selected to announce further
blocks if no other block is in flight. -/
def checkedSelected (ctx : CheckedContext) (hash : Uint256)
    (state : BlockValidationState) : Option BlockSourceMetadata :=
  if state.isValid && !ctx.isInitialBlockDownload && (mgr.downloads.equalRange hash).length =
        mgr.downloads.mapBlocksInFlight.length then
    mgr.mapBlockSource.lookup hash
  else none

variable [Field R] [LinearOrder R] [Exp2 R]

/-- Record an observation, if the peer is connected. -/
def observe (now : ℤ) (mgr : PeerManager Block R)
    (obs : NodeId × RelayObservation) : PeerManager Block R :=
  match mgr.state obs.1 with
  | some state =>
    { mgr with
      downloads := mgr.downloads.setState obs.1
        { state with relayQuality := state.relayQuality.record now obs.2 } }
  | none => mgr

/-- A node connects. -/
def initializeNode (mgr : PeerManager Block R) (peer : Peer) : PeerManager Block R :=
  { mgr with
    downloads := mgr.downloads.initializeNode peer.id
    peers :=
      if (mgr.getPeerRef peer.id).isSome then mgr.peers
      else mgr.peers.insert peer.id peer }

omit [Field R] [LinearOrder R] [Exp2 R] in
/-- A node and its peer are removed. `none` stands for a failing assertion. -/
def finalizeNode (mgr : PeerManager Block R) (id : NodeId) : Option (PeerManager Block R) :=
  if (mgr.getPeerRef id).isSome then
    (mgr.downloads.finalizeNode id).map fun downloads =>
      { mgr with downloads, peers := mgr.peers.erase id }
  else none

/-- Attribute the verdict on a block, and forget where it came from. -/
def blockChecked (mgr : PeerManager Block R) (ctx : CheckedContext) (hash : Uint256)
    (state : BlockValidationState) : PeerManager Block R × CheckedOutcome :=
  let observations := mgr.checkedObservations hash state
  let observed := observations.foldl (observe ctx.now) mgr
  let punished := mgr.checkedPunished hash state
  let selected := mgr.checkedSelected ctx hash state
  let mgr :=
    match punished with
    | some src =>
      observed.maybePunishNodeForBlock src.peerId state (!src.fullBlockSource)
    | none =>
      match selected with
      | some src => observed.maybeSetPeerAsAnnouncingHeaderAndIDs ctx src.peerId
      | none => observed
  ({ mgr with
      mapBlockSource := mgr.mapBlockSource.erase hash
      tracker := mgr.tracker.forget hash },
    ⟨observations, punished.map peerId,
      selected.map peerId⟩)

end

/-! ## What an observation says -/

section

variable {mgr : PeerManager Block R} {hash : Uint256}
  {verdict : BlockValidationState} {peerId : NodeId}

/-- The cause of an observation: the source of an invalid block, an announcer
of a valid block, or the source of a valid block. -/
theorem mem_checkedObservations : (peerId, obs) ∈ mgr.checkedObservations hash verdict ↔
      (verdict.isInvalid ∧ ∃ src, mgr.connectedSource hash = some src ∧
        src.peerId = peerId ∧ obs ∈ src.invalidObservations) ∨
      (verdict.isValid ∧ obs = .validatedAnnouncement ∧ peerId ∈ mgr.connectedAnnouncers hash) ∨
      (verdict.isValid ∧ ∃ src, mgr.connectedSource hash = some src ∧
        src.peerId = peerId ∧ obs ∈ src.validObservations) := by
  obtain ⟨mode, result⟩ := verdict
  rw [checkedObservations]
  cases mode <;> cases mgr.connectedSource hash <;>
    simp [BlockValidationState.isInvalid, BlockValidationState.isValid, and_comm, eq_comm]

theorem source_of_invalidFullBlockSource
    (recorded : (peerId, .invalidFullBlockSource) ∈ mgr.checkedObservations hash verdict) :
    ∃ src, mgr.checkedPunished hash verdict = some src ∧ src.peerId = peerId ∧
      src.fullBlockSource := by
  rw [mem_checkedObservations] at recorded
  rcases recorded with ⟨invalid, src, isSource, rfl, observed⟩ | ⟨-, differ, -⟩ |
    ⟨-, src, -, -, observed⟩
  · refine ⟨src, by rw [checkedPunished, if_pos invalid, isSource], rfl, ?_⟩
    exact (mem_invalidObservations.mp observed).1
  · cases differ
  · simp [mem_validObservations] at observed

end

/-! ## What recording observations leaves alone -/

section

variable [Field R] [LinearOrder R] [Exp2 R]

theorem foldl_observe (now : ℤ) (mgr : PeerManager Block R)
    (observations : List (NodeId × RelayObservation)) :
    ∃ downloads, observations.foldl (observe now) mgr = { mgr with downloads } ∧
      ∀ id, (downloads.state id).isSome = (mgr.state id).isSome := by
  induction observations generalizing mgr with
  | nil => exact ⟨mgr.downloads, rfl, fun _ => rfl⟩
  | cons obs rest ih =>
    obtain ⟨downloads, isFold, states⟩ := ih (observe now mgr obs)
    rw [foldl_cons, isFold]
    refine ⟨downloads, ?_, fun id => (states id).trans ?_⟩
    · rw [observe]
      cases mgr.state obs.1 <;> rfl
    · rw [observe]
      cases found : mgr.state obs.1 with
      | none => rfl
      | some state =>
        by_cases same : id = obs.1
        · subst same
          simp [PeerManager.state, BlockDownloads.state, BlockDownloads.setState] at found ⊢
          simp [found]
        · simp [PeerManager.state, BlockDownloads.state, BlockDownloads.setState,
            Finmap.lookup_insert_of_ne _ same]

omit [Field R] [LinearOrder R] [Exp2 R] in
theorem getPeerRef_misbehaving (mgr : PeerManager Block R) (id : NodeId) :
    (mgr.misbehaving id).getPeerRef id = (mgr.getPeerRef id).map Peer.misbehaving := by
  rw [misbehaving]
  cases found : mgr.getPeerRef id with
  | none => exact found
  | some peer => exact Finmap.lookup_insert _

omit [Field R] [LinearOrder R] [Exp2 R] in
theorem maybePunishNodeForBlock_eq (mgr : PeerManager Block R) (id : NodeId)
    (state : BlockValidationState) (viaCompactBlock : Bool) :
    ∃ peers, mgr.maybePunishNodeForBlock id state viaCompactBlock = { mgr with peers } := by
  rw [maybePunishNodeForBlock, misbehaving]
  cases mgr.getPeerRef id with
  | none => exact ⟨_, rfl⟩
  | some peer =>
    dsimp only
    split_ifs <;> exact ⟨_, rfl⟩

variable (mgr : PeerManager Block R) (ctx : CheckedContext) (hash : Uint256)
  (state : BlockValidationState)
include mgr ctx hash state

/-- What a verdict leaves alone: it forgets the source and the announcers of
its block, keeps those of all others, and disconnects nobody. -/
theorem blockChecked_eq : ∃ downloads peers announcing, (mgr.blockChecked ctx hash state).1 =
        ⟨downloads, peers, mgr.mapBlockSource.erase hash, mgr.tracker.forget hash, announcing⟩ ∧
      ∀ id, (downloads.state id).isSome = (mgr.state id).isSome := by
  obtain ⟨downloads, observed, states⟩ :=
    foldl_observe ctx.now mgr (mgr.checkedObservations hash state)
  cases punished : mgr.checkedPunished hash state with
  | some src =>
    obtain ⟨peers, isPunished⟩ := maybePunishNodeForBlock_eq { mgr with downloads }
      src.peerId state (!src.fullBlockSource)
    refine ⟨downloads, peers, mgr.lNodesAnnouncingHeaderAndIDs, ?_, states⟩
    simp only [blockChecked, observed, punished, isPunished]
  | none =>
    cases selected : mgr.checkedSelected ctx hash state with
    | some src =>
      refine ⟨downloads, mgr.peers,
        { mgr with downloads }.nodesAnnouncing ctx src.peerId, ?_, states⟩
      simp only [blockChecked, observed, punished, selected, maybeSetPeerAsAnnouncingHeaderAndIDs]
    | none =>
      refine ⟨downloads, mgr.peers, mgr.lNodesAnnouncingHeaderAndIDs, ?_, states⟩
      simp only [blockChecked, observed, punished, selected]

theorem blockChecked_tracker :
    (mgr.blockChecked ctx hash state).1.tracker = mgr.tracker.forget hash := by
  obtain ⟨_, _, _, checked, -⟩ := mgr.blockChecked_eq ctx hash state
  rw [checked]

end

/-! ## Scoring and punishment -/

section

variable [Field R] [LinearOrder R] [Exp2 R]

/-- Scoring and punishment agree where the block was found to be invalid. If
an invalid-block observation is recorded against a connected peer, for a verdict
other than unset, low work or a time in the future, then the same call marks the
peer as misbehaving, unless the block was already known to be invalid and the
peer is inbound. -/
theorem invalidFullBlockSource_punished (mgr : PeerManager Block R) (ctx : CheckedContext)
    (hash : Uint256) (verdict : BlockValidationState) {peerId : NodeId} {peer : Peer}
    (conn : mgr.getPeerRef peerId = some peer) (recorded : (peerId, .invalidFullBlockSource) ∈
      (mgr.blockChecked ctx hash verdict).2.observations)
    (found : verdict.result ∉ [BlockValidationResult.resultUnset, .headerLowWork, .timeFuture]) :
    (mgr.blockChecked ctx hash verdict).2.punished = some peerId ∧
      (mgr.blockChecked ctx hash verdict).1.getPeerRef peerId =
        some (if verdict.result = .cachedInvalid ∧ peer.isInbound then peer
          else peer.misbehaving) := by
  obtain ⟨src, isSource, rfl, full⟩ := source_of_invalidFullBlockSource recorded
  obtain ⟨downloads, observed, -⟩ :=
    foldl_observe ctx.now mgr (mgr.checkedObservations hash verdict)
  refine ⟨by simp only [blockChecked, isSource, map_some], ?_⟩
  have conn' : ({ mgr with downloads } : PeerManager Block R).getPeerRef src.peerId =
      some peer := conn
  have punished : isPunished verdict.result false peer ↔
      ¬(verdict.result = .cachedInvalid ∧ peer.isInbound) := by
    cases result : verdict.result <;> simp [isPunished, result] at found ⊢
  simp only [blockChecked, isSource, observed, maybePunishNodeForBlock, conn', full, Bool.not_true,
    punished]
  split_ifs
  · exact conn'
  · exact (getPeerRef_misbehaving _ _).trans (by rw [conn', map_some])

end

/-! ## Credit for announcements -/

/-- The calls that the credit for announcements depends on. -/
inductive AnnouncementCall where
  | initializeNode (peer : Peer)
  | finalizeNode (id : NodeId)
  | recordCandidateAnnouncement (peerId : NodeId) (hash : Uint256)
  | blockChecked (ctx : CheckedContext) (hash : Uint256) (state : BlockValidationState)

/-- What the tracker sees of a call. -/
def AnnouncementCall.trackerCall : AnnouncementCall → Option TrackerCall
  | .initializeNode _ => none
  | .finalizeNode _ => none
  | .recordCandidateAnnouncement peerId hash => some (.announcement peerId hash)
  | .blockChecked _ hash _ => some (.checked hash)

/-- The entry of a hash was created by an announcement of the peer, at a moment
when the hash was not tracked; since then the block has not been checked, and at
no moment too many hashes that began after it were tracked. -/
structure EntrySince (hist : List TrackerCall) (hash : Uint256) (peerId : NodeId)
    (before since : List TrackerCall) : Prop where
  split : hist = before ++ .announcement peerId hash :: since
  untracked : (empty.after before).announcers hash = none
  unchecked : .checked hash ∉ since
  few : ∀ init, init <+: since → ((empty.after (before ++ [.announcement peerId hash])).begunSince
      init).card < maxTrackedAnnouncementHashes

theorem EntrySince.announcers {hist before since : List TrackerCall} {hash : Uint256}
    {peerId : NodeId} (entry : EntrySince hist hash peerId before since) :
    (empty.after hist).announcers hash =
      some (firstAnnouncers (peerId :: since.filterMap (TrackerCall.announcerOf hash))) := by
  have valid := valid_empty.after before
  have few := entry.few
  simp only [after_concat, apply] at few
  have stays := (valid.tracked_iff_begunSince entry.untracked peerId since).mpr
    ⟨entry.unchecked, few⟩
  rw [entry.split, ← valid.announcers_after entry.untracked peerId since stays]
  simp [AnnouncementTracker.after, apply]

theorem exists_entrySince {hist : List TrackerCall} {hash : Uint256}
    (tracked : ((empty.after hist).announcers hash).isSome) :
    ∃ peerId before since, EntrySince hist hash peerId before since := by
  obtain ⟨before, peerId, since, split, untracked, stays⟩ :=
    valid_empty.exists_creation (by rfl) hist tracked
  have alive := (valid_empty.after before).tracked_iff_begunSince untracked
    peerId since
  refine ⟨peerId, before, since, split, untracked, (alive.mp stays).1, ?_⟩
  rw [after_concat]
  exact (alive.mp stays).2

section

variable [Field R] [LinearOrder R] [Exp2 R]

/-- What a call does. -/
def perform (mgr : PeerManager Block R) : AnnouncementCall → Option (PeerManager Block R)
  | .initializeNode peer => some (mgr.initializeNode peer)
  | .finalizeNode id => mgr.finalizeNode id
  | .recordCandidateAnnouncement peerId hash =>
    some (mgr.recordCandidateAnnouncement peerId hash)
  | .blockChecked ctx hash state => some (mgr.blockChecked ctx hash state).1

/-- Calls from the start on. -/
def performAll (calls : List AnnouncementCall) : Option (PeerManager Block R) :=
  calls.foldlM perform initial

/-- The tracker sees the announcements and the checks only. -/
theorem perform_tracker {mgr manager' : PeerManager Block R} {call : AnnouncementCall}
    (performed : mgr.perform call = some manager') :
    manager'.tracker = call.trackerCall.elim mgr.tracker mgr.tracker.apply := by
  cases call with
  | initializeNode peer => rw [← some_inj.mp performed]; rfl
  | finalizeNode id =>
    rw [perform, finalizeNode] at performed
    split_ifs at performed
    obtain ⟨downloads, -, rfl⟩ := map_eq_some_iff.mp performed
    rfl
  | recordCandidateAnnouncement peerId hash => rw [← some_inj.mp performed]; rfl
  | blockChecked ctx hash state =>
    rw [← some_inj.mp performed, blockChecked_tracker]
    rfl

theorem performAll_tracker {calls : List AnnouncementCall} {mgr : PeerManager Block R}
    (reached : performAll calls = some mgr) : mgr.tracker =
      empty.after (calls.filterMap AnnouncementCall.trackerCall) := by
  induction calls using reverseRecOn generalizing mgr with
  | nil => rw [← some_inj.mp reached]; rfl
  | append_singleton init call ih =>
    rw [performAll, foldlM_append] at reached
    obtain ⟨middle, reachedMiddle, performed⟩ := bind_eq_some_iff.mp reached
    obtain ⟨last, performed, isLast⟩ := bind_eq_some_iff.mp performed
    rw [← some_inj.mp isLast, perform_tracker performed, ih reachedMiddle, filterMap_append]
    cases trackerCall : call.trackerCall with
    | none => simp [trackerCall]
    | some event => simp [trackerCall, after_concat]

omit [Field R] [LinearOrder R] [Exp2 R] in
/-- The announcement credits among the observations are those of the connected
announcers of a valid block. -/
theorem filter_checkedObservations (mgr : PeerManager Block R) (hash : Uint256)
    (verdict : BlockValidationState) : (mgr.checkedObservations hash verdict).filter
        (·.2 = .validatedAnnouncement) =
      if verdict.isValid then
        (mgr.connectedAnnouncers hash).map fun peerId => (peerId, .validatedAnnouncement)
      else [] := by
  have noCredit : ∀ {src : BlockSourceMetadata} {observations : List RelayObservation},
      .validatedAnnouncement ∉ observations → (observations.map (src.peerId, ·)).filter
          (·.2 = .validatedAnnouncement) = [] := by
    intro src observations absent
    refine filter_eq_nil_iff.mpr ?_
    intro obs mem
    obtain ⟨kind, inside, rfl⟩ := mem_map.mp mem
    have differ : kind ≠ .validatedAnnouncement := fun same => absent (same ▸ inside)
    simpa using differ
  obtain ⟨mode, result⟩ := verdict
  cases mode with
  | error => rfl
  | invalid =>
    show (Option.elim _ [] _).filter _ = []
    cases mgr.connectedSource hash with
    | none => rfl
    | some src => exact noCredit (by simp [mem_invalidObservations])
  | valid =>
    show (_ ++ Option.elim _ [] _).filter _ = map _ _
    rw [filter_append, filter_eq_self.mpr (by simp)]
    cases mgr.connectedSource hash with
    | none => exact append_nil _
    | some src => rw [elim_some, noCredit (by simp [mem_validObservations]), append_nil]

/-- A peer connects and announces a block. -/
def announcedOnce : List AnnouncementCall :=
  [.initializeNode ⟨0, 0, false, false⟩, .recordCandidateAnnouncement 0 5]

end

/-- A manager that has received the full block with hash zero from a peer. -/
def receivedFrom (peer : Peer) : PeerManager Unit ℚ where
  downloads := BlockDownloads.initial.initializeNode peer.id
  peers := Finmap.singleton peer.id peer
  mapBlockSource := Finmap.singleton 0 ⟨peer.id, true, false, none⟩
  tracker := .empty
  lNodesAnnouncingHeaderAndIDs := []

/-- A node without connections. -/
def noConnections : CheckedContext where
  now := 1
  isInitialBlockDownload := false
  ignoreIncomingTxs := false
  connman :=
    ⟨[], fun _ => 0, 0, 0, false, nodup_nil, by simp, fun _ => rfl⟩

/-- An outbound peer that sent a block known to be invalid is scored and
punished. -/
theorem invalidFullBlockSource_punished_outbound :
    (((receivedFrom ⟨0, 0, false, false⟩).blockChecked noConnections 0
      ⟨.invalid, .cachedInvalid⟩).1.getPeerRef 0).any Peer.shouldDiscourage := by
  have conn : (receivedFrom ⟨0, 0, false, false⟩).getPeerRef 0 = some ⟨0, 0, false, false⟩ :=
    rfl
  have marked := (invalidFullBlockSource_punished (receivedFrom ⟨0, 0, false, false⟩)
    noConnections 0 ⟨.invalid, .cachedInvalid⟩ conn mem_cons_self (by decide)).2
  rw [marked]
  rfl

/-- An inbound peer that sent a block known to be invalid is scored and not
punished. -/
theorem invalidFullBlockSource_not_punished_inbound :
    (0, .invalidFullBlockSource) ∈ ((receivedFrom ⟨0, 0, true, false⟩).blockChecked noConnections 0
        ⟨.invalid, .cachedInvalid⟩).2.observations ∧
      (((receivedFrom ⟨0, 0, true, false⟩).blockChecked noConnections 0
        ⟨.invalid, .cachedInvalid⟩).1.getPeerRef 0).any Peer.shouldDiscourage = false :=
  ⟨mem_cons_self, rfl⟩

end PeerManager

end BitcoinCore.NetProcessing
