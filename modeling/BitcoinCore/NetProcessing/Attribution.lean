import BitcoinCore.NetProcessing.Messages

/-!
# Who is credited or blamed for a block

The verdict on a block is attributed through metadata that the message handlers
leave behind: the source of the block, overwritten by every delivery and merged
by failed reconstructions, and the peers that announced it. Several peers may
race for one block, and a verdict may come at any moment.

`PeerAction` says what a peer did with a block, as its messages and the requests
in flight show it. Whatever the metadata attribute to a peer was caused by an
action of that peer on that block since the block was last checked, in every
interleaving. So every observation recorded with a verdict is justified
(`observations_justified`).

The source is not always a deliverer: a failed reconstruction leaves an entry for
a block that was not received. A source that is recorded as having delivered the
block did deliver it (`checkedPeer_delivered`).
-/

namespace BitcoinCore.NetProcessing

open Net Chain Node Provenance List Option PeerManager AnnouncementTracker BlockDownloads Prod
open Finmap BlockSourceMetadata
open Option (some_inj map_eq_some_iff bind_eq_some_iff ite_none_right_eq_some)

/-! ## What peers do -/

/-- What a peer does with a block: it sends the block in full and not mutated, its attempt to
relay it as a compact block ends, or it announces the header. `inFlight` says
whether the block was in flight from the peer at that moment. -/
inductive PeerAction where
  | sentBlock (peer : NodeId) (hash : Uint256) (inFlight : Bool)
  | compactAttempt (peer : NodeId) (hash : Uint256) (out : CompactBlockOutcome) (inFlight : Bool)
  | announced (peer : NodeId) (hash : Uint256)
  deriving DecidableEq, Repr

namespace PeerAction

/-- The action of a peer on a block that an observation of it calls for. -/
def Justifies (hash : Uint256) (peer : NodeId) (action : PeerAction) : RelayObservation → Prop
  | .validatedAnnouncement => action = .announced peer hash
  | .requestedBlockResult _ => action = .sentBlock peer hash true ∨
      ∃ out, out ≠ .fullBlockFallback ∧ action = .compactAttempt peer hash out true
  | .compactBlockResult out => ∃ inFlight, action = .compactAttempt peer hash out inFlight
  | .validFullBlockSource => ∃ inFlight, action = .sentBlock peer hash inFlight
  | .invalidFullBlockSource => ∃ inFlight, action = .sentBlock peer hash inFlight

/-- The peer hands the block over, in full or by a successful reconstruction. -/
def delivers (hash : Uint256) (peer : NodeId) : PeerAction → Bool
  | .sentBlock sender sent _ => sender = peer && sent = hash
  | .compactAttempt sender sent out _ =>
    sender = peer && sent = hash && out ≠ .fullBlockFallback
  | .announced _ _ => false

variable {Block R : Type*} (dl : BlockDownloads Block R)

/-- What a compact block shows: its sender announces the header, and if the
reconstruction fails at once, the attempt ends if the sender is then asked for
the full block. -/
def ofCompactBlock [DecidableEq Block] (ctx : MessageContext Block)
    (msg : CompactBlock Block) : List PeerAction :=
  let id := msg.pfrom.id
  let hash := (ctx.chainman.entry msg.pindex).hash
  .announced id hash ::
    if PeerManager.compactBlockBranch dl ctx msg = .request ∧
        msg.initData = .failed ∧ dl.firstInFlight hash id then
      [.compactAttempt id hash .fullBlockFallback (dl.requestedFrom hash id)]
    else []

/-- What the transactions for a compact block show: if the block is being
reconstructed from the peer, the attempt ends with the block, or with a request
of the full block. -/
def ofCompactBlockTxns (pfrom : NodeId) (hash : Uint256) (out : CompactBlockOutcome)
    (fillBlock : ReadStatus) : List PeerAction :=
  if (dl.reconstruction hash pfrom).any fun found => !found.2.headerIsNull then
    match fillBlock with
    | .invalid => []
    | .failed =>
      if dl.firstInFlight hash pfrom then
        [.compactAttempt pfrom hash .fullBlockFallback (dl.requestedFrom hash pfrom)]
      else []
    | .ok => [.compactAttempt pfrom hash out (dl.requestedFrom hash pfrom)]
  else []

end PeerAction

open PeerAction

/-- The actions that an event shows. They do not depend on the metadata. -/
def MessageProcessor.actions {Block R : Type*} [DecidableEq Block]
    (proc : MessageProcessor Block R) (event : Event Block) : List PeerAction :=
  let dl := proc.manager.downloads
  match event, proc.handler with
  | .compactBlock ctx msg, .idle => ofCompactBlock dl ctx msg
  | .block _ pfrom hash mutated, .idle =>
    if mutated then [] else [.sentBlock pfrom hash (dl.requestedFrom hash pfrom)]
  | .processHeaders ctx (.accepted lastHeader _), .processHeaders pfrom _ =>
    [.announced pfrom (ctx.chainman.entry lastHeader).hash]
  | .processCompactBlockTxns _ fillBlock, .processCompactBlockTxns pfrom hash out =>
    ofCompactBlockTxns dl pfrom hash out.val fillBlock
  | .blockReconstructed, .blockReconstructed pfrom hash _ =>
    [.compactAttempt pfrom hash .directReconstruction (dl.requestedFrom hash pfrom)]
  | _, _ => []

/-! ## What the metadata attribute -/

/-- An observation that the source gives rise to. -/
def BlockSourceMetadata.Supports (src : BlockSourceMetadata) : RelayObservation → Prop
  | .validatedAnnouncement => False
  | .requestedBlockResult _ => src.wasRequested
  | .compactBlockResult out => src.compactOutcome = some out
  | .validFullBlockSource => src.fullBlockSource
  | .invalidFullBlockSource => src.fullBlockSource

theorem BlockSourceMetadata.supports_compactOutcome {peer : NodeId} {out : CompactBlockOutcome}
    {obs : RelayObservation}
    (supports : (⟨peer, false, false, some out⟩ : BlockSourceMetadata).Supports obs) :
    obs = .compactBlockResult out := by
  cases obs <;> simp_all [Supports]

/-- The source is recorded as having delivered the block, in full or by a
successful reconstruction. -/
def BlockSourceMetadata.isDelivered (src : BlockSourceMetadata) : Bool :=
  src.fullBlockSource || src.wasRequested ||
    src.compactOutcome.any fun out => out ≠ .fullBlockFallback

namespace PeerManager

variable {Block R : Type*}

/-- The metadata attribute an observation to a peer, for a block. -/
def Attributes (mgr : PeerManager Block R) (hash : Uint256) (peer : NodeId)
    (obs : RelayObservation) : Prop :=
  (obs = .validatedAnnouncement ∧ peer ∈ (mgr.tracker.announcers hash).getD []) ∨
  ∃ src, mgr.mapBlockSource.lookup hash = some src ∧ src.peerId = peer ∧ src.Supports obs

variable {mgr mgr' : PeerManager Block R} {handler : Handler Block} {hash other : Uint256}
  {peer pfrom : NodeId} {obs : RelayObservation} {now : ℤ}
  {rest : PeerManager Block R → PeerManager Block R × Handler Block} {fromPeer : Option NodeId}
  {actions : List PeerAction}

theorem not_attributes_initial : ¬(initial : PeerManager Block R).Attributes hash peer obs := by
  rintro (⟨-, mem⟩ | ⟨src, found, -⟩)
  · simp [initial, empty, announcers] at mem
  · simp [initial] at found

variable {verdict : BlockValidationState}

theorem attributes_of_checkedObservations
    (recorded : (peer, obs) ∈ mgr.checkedObservations hash verdict) :
    mgr.Attributes hash peer obs := by
  rcases mem_checkedObservations.mp recorded with ⟨-, src, found, isPeer, observed⟩ |
    ⟨-, isAnnouncement, mem⟩ | ⟨-, src, found, isPeer, observed⟩
  · refine .inr ⟨src, (filter_eq_some_iff.mp found).1, isPeer, ?_⟩
    obtain ⟨full, rfl | ⟨req, rfl⟩⟩ :=
      mem_invalidObservations.mp observed
    · exact full
    · exact req
  · exact .inl ⟨isAnnouncement, mem_of_mem_filter mem⟩
  · refine .inr ⟨src, (filter_eq_some_iff.mp found).1, isPeer, ?_⟩
    rcases mem_validObservations.mp observed with ⟨full, rfl⟩ |
      ⟨req, rfl⟩ | ⟨out, isOutcome, rfl⟩
    · exact full
    · exact req
    · exact isOutcome

/-! ### Operations on the metadata -/

/-- What is attributed after a step and was not attributed before is shown by these actions. -/
def AddsOnly (actions : List PeerAction) (mgr mgr' : PeerManager Block R) : Prop :=
  ∀ ⦃hash peer obs⦄, mgr'.Attributes hash peer obs →
    (∃ action ∈ actions, action.Justifies hash peer obs) ∨ mgr.Attributes hash peer obs

theorem addsOnly_of_same (sources : mgr'.mapBlockSource = mgr.mapBlockSource)
    (trackers : mgr'.tracker = mgr.tracker) : AddsOnly actions mgr mgr' := by
  intro hash peer obs attributes
  rw [Attributes, sources, trackers] at attributes
  exact .inr attributes

theorem AddsOnly.trans {middle : PeerManager Block R} (first : AddsOnly actions mgr middle)
    (second : AddsOnly actions middle mgr') : AddsOnly actions mgr mgr' :=
  fun _ _ _ attributes => (second attributes).elim .inl fun before => first before

theorem AddsOnly.of_mem {action : PeerAction} (adds : AddsOnly [action] mgr mgr')
    (mem : action ∈ actions) : AddsOnly actions mgr mgr' :=
  fun _ _ _ attributes => (adds attributes).imp_left
    fun ⟨_, isAction, justifies⟩ => ⟨action, mem, mem_singleton.mp isAction ▸ justifies⟩

theorem addsOnly_recordCandidateAnnouncement (id : NodeId) :
    AddsOnly [.announced id hash] mgr (mgr.recordCandidateAnnouncement id hash) := by
  rintro other peer obs (⟨rfl, mem⟩ | isSource)
  · rcases mem_announcers_of_record mem with ⟨rfl, rfl⟩ | old
    · exact .inl ⟨_, mem_singleton_self _, rfl⟩
    · exact .inr (.inl ⟨rfl, old⟩)
  · exact .inr (.inr isSource)

theorem addsOnly_insertSource {src : BlockSourceMetadata}
    (shown : ∀ ⦃obs⦄, src.Supports obs →
      (∃ action ∈ actions, action.Justifies hash src.peerId obs) ∨
        mgr.Attributes hash src.peerId obs) : AddsOnly actions mgr (mgr.insertSource hash src) := by
  rintro other peer obs (announced | ⟨found, isFound, rfl, supports⟩)
  · exact .inr (.inl announced)
  · by_cases same : other = hash
    · rw [insertSource, same, lookup_insert, some_inj] at isFound
      subst isFound same
      exact shown supports
    · rw [insertSource, lookup_insert_of_ne _ same] at isFound
      exact .inr (.inr ⟨found, isFound, rfl, supports⟩)

theorem addsOnly_setCompactOutcome {id : NodeId} {out : CompactBlockOutcome} (inFlight : Bool) :
    AddsOnly [.compactAttempt id hash out inFlight] mgr (mgr.setCompactOutcome hash id out) := by
  refine addsOnly_insertSource fun obs supports => ?_
  cases found : mgr.mapBlockSource.lookup hash with
  | none =>
    rw [found, getD_none, if_pos rfl] at supports
    obtain rfl := supports_compactOutcome supports
    rw [getD_none, if_pos rfl]
    exact .inl ⟨_, mem_singleton_self _, inFlight, rfl⟩
  | some src =>
    rw [found, getD_some] at supports
    rw [getD_some]
    by_cases same : src.peerId = id
    · rw [if_pos same] at supports ⊢
      have kept : src.Supports obs → mgr.Attributes hash src.peerId obs :=
        fun old => .inr ⟨src, found, rfl, old⟩
      cases obs with
      | compactBlockResult res =>
        obtain rfl := some_inj.mp supports
        exact .inl ⟨_, mem_singleton_self _, inFlight, by rw [same]⟩
      | validatedAnnouncement => exact supports.elim
      | requestedBlockResult _ => exact .inr (kept supports)
      | validFullBlockSource => exact .inr (kept supports)
      | invalidFullBlockSource => exact .inr (kept supports)
    · rw [if_neg same] at supports ⊢
      exact .inr (.inr ⟨src, found, rfl, supports⟩)

theorem addsOnly_misbehaving (mgr : PeerManager Block R) (id : NodeId) :
    AddsOnly actions mgr (mgr.misbehaving id) := by
  rw [misbehaving]
  cases mgr.getPeerRef id <;> exact addsOnly_of_same rfl rfl

theorem addsOnly_maybePunishNodeForBlock (mgr : PeerManager Block R) (id : NodeId)
    (state : BlockValidationState) (viaCompactBlock : Bool) :
    AddsOnly actions mgr (mgr.maybePunishNodeForBlock id state viaCompactBlock) := by
  obtain ⟨peers, punished⟩ := mgr.maybePunishNodeForBlock_eq id state viaCompactBlock
  rw [punished]
  exact addsOnly_of_same rfl rfl

theorem addsOnly_of_removeBlockRequest
    (removed : mgr.removeBlockRequest now hash fromPeer = some mgr') :
    AddsOnly actions mgr mgr' := by
  obtain ⟨dl, -, rfl⟩ := map_eq_some_iff.mp removed
  exact addsOnly_of_same rfl rfl

theorem addsOnly_afterRemoval (taken : (do
      let removed ← mgr.removeBlockRequest now hash fromPeer
      return rest removed) = some (mgr', handler))
    (adds : ∀ removed, AddsOnly actions removed (rest removed).1) : AddsOnly actions mgr mgr' := by
  obtain ⟨removed, isRemoved, same⟩ := bind_eq_some_iff.mp taken
  obtain rfl := congrArg fst (some_inj.mp same)
  exact (addsOnly_of_removeBlockRequest isRemoved).trans (adds removed)

theorem attributes_of_blockChecked [Field R] [LinearOrder R] [Exp2 R] {ctx : CheckedContext}
    (attributes : (mgr.blockChecked ctx hash verdict).1.Attributes other peer obs) :
    other ≠ hash ∧ mgr.Attributes other peer obs := by
  obtain ⟨dl, peers, announcing, checked, -⟩ :=
    mgr.blockChecked_eq ctx hash verdict
  rw [checked] at attributes
  by_cases same : other = hash
  · subst same
    rcases attributes with ⟨-, mem⟩ | ⟨src, found, -⟩
    · simp [announcers, forget] at mem
    · simp at found
  · refine ⟨same, ?_⟩
    simpa [Attributes, announcers, forget, lookup_erase_ne same] using attributes

/-! ### Sections -/

theorem addsOnly_of_processBlock {newBlock : Bool}
    (taken : mgr.processBlock now hash newBlock = some mgr') : AddsOnly actions mgr mgr' := by
  cases newBlock with
  | true => exact addsOnly_of_removeBlockRequest taken
  | false =>
    cases taken
    rintro other peer obs (announced | ⟨src, found, isPeer, supports⟩)
    · exact .inr (.inl announced)
    · by_cases same : other = hash
      · rw [same, lookup_erase] at found
        cases found
      · rw [lookup_erase_ne same] at found
        exact .inr (.inr ⟨src, found, isPeer, supports⟩)

/-- The handler of a full block notes the sender as the source. It keeps only what
was attributed to the same peer. -/
theorem addsOnly_of_block {mutated : Bool}
    (taken : mgr.block now pfrom hash mutated = some (mgr', handler)) :
    AddsOnly (if mutated then []
      else [.sentBlock pfrom hash (mgr.downloads.requestedFrom hash pfrom)]) mgr mgr' := by
  cases mutated with
  | true =>
    exact (addsOnly_misbehaving mgr pfrom).trans
      (addsOnly_afterRemoval taken fun _ => addsOnly_of_same rfl rfl)
  | false =>
    refine addsOnly_afterRemoval taken fun removed => addsOnly_insertSource fun obs supports => ?_
    cases obs with
    | validatedAnnouncement => exact supports.elim
    | requestedBlockResult _ =>
      exact .inl ⟨_, mem_singleton_self _, .inl (congrArg _ supports)⟩
    | validFullBlockSource => exact .inl ⟨_, mem_singleton_self _, _, rfl⟩
    | invalidFullBlockSource => exact .inl ⟨_, mem_singleton_self _, _, rfl⟩
    | compactBlockResult out =>
      -- The outcome was kept from an entry of the same peer.
      obtain ⟨src, found, isOutcome⟩ := bind_eq_some_iff.mp supports
      obtain ⟨isSource, isPeer⟩ := filter_eq_some_iff.mp found
      exact .inr (.inr ⟨src, isSource, of_decide_eq_true isPeer, isOutcome⟩)

theorem addsOnly_of_processCompactBlockTxns {out : CompactBlockOutcome}
    {status : ReadStatus} (succeeds : out ≠ .fullBlockFallback)
    (taken : mgr.processCompactBlockTxns now pfrom hash out status = some (mgr', handler)) :
    AddsOnly (ofCompactBlockTxns mgr.downloads pfrom hash out status) mgr mgr' := by
  unfold processCompactBlockTxns at taken
  cases found : mgr.downloads.reconstruction hash pfrom with
  | none =>
    simp only [found] at taken
    cases taken
    exact addsOnly_of_same rfl rfl
  | some reconstruction =>
    obtain ⟨entry, ⟨headerIsNull⟩⟩ := reconstruction
    simp only [found] at taken
    cases headerIsNull with
    | true => exact addsOnly_afterRemoval taken fun removed => addsOnly_misbehaving removed pfrom
    | false =>
      rw [if_neg Bool.false_ne_true] at taken
      cases status with
      | invalid =>
        exact addsOnly_afterRemoval taken fun removed => addsOnly_misbehaving removed pfrom
      | failed =>
        by_cases first : mgr.downloads.firstInFlight hash pfrom
        · obtain ⟨rfl, -⟩ := Prod.mk.inj (some_inj.mp ((if_pos first).symm.trans taken))
          refine (addsOnly_setCompactOutcome true).of_mem ?_
          simp [ofCompactBlockTxns, found, first, requestedFrom_of_reconstruction found]
        · exact addsOnly_afterRemoval ((if_neg first).symm.trans taken)
            fun _ => addsOnly_of_same rfl rfl
      | ok =>
        refine addsOnly_afterRemoval taken fun removed =>
          addsOnly_insertSource fun obs supports => .inl ⟨.compactAttempt pfrom hash out true, ?_, ?_⟩
        · simp [ofCompactBlockTxns, found, requestedFrom_of_reconstruction found]
        cases obs with
        | validatedAnnouncement => exact supports.elim
        | requestedBlockResult _ => exact .inr ⟨out, succeeds, rfl⟩
        | validFullBlockSource => cases supports
        | invalidFullBlockSource => cases supports
        | compactBlockResult res =>
          cases supports
          exact ⟨true, rfl⟩

variable [DecidableEq Block] {ctx : MessageContext Block} {pindex : Block}
  {receivedNewHeader : Bool} {msg : CompactBlock Block}

theorem headerReceived_spec
    (taken : mgr.headerReceived ctx pfrom pindex receivedNewHeader = some mgr') :
    mgr'.downloads.mapBlocksInFlight = mgr.downloads.mapBlocksInFlight ∧
      mgr'.downloads.vBlocksInFlight = mgr.downloads.vBlocksInFlight ∧
      AddsOnly [.announced pfrom (ctx.chainman.entry pindex).hash] mgr mgr' := by
  obtain ⟨state, found, rfl⟩ := map_eq_some_iff.mp taken
  refine ⟨rfl, vBlocksInFlight_setState_of_eq found ?_, addsOnly_recordCandidateAnnouncement _⟩
  split_ifs <;> simp

omit [DecidableEq Block] in
/-- The request of a compact block is attributed only if its reconstruction fails
and the sender is first in line. -/
theorem addsOnly_of_requestCompactBlock
    (taken : mgr.requestCompactBlock now hash msg = some (mgr', handler))
    (shown : msg.initData = .failed → mgr.downloads.firstInFlight hash msg.pfrom.id →
      ∃ inFlight, .compactAttempt msg.pfrom.id hash .fullBlockFallback inFlight ∈ actions) :
    AddsOnly actions mgr mgr' := by
  obtain ⟨⟨dl, isNew, it⟩, -, rest⟩ := bind_eq_some_iff.mp taken
  dsimp only at rest
  have requested (dl) : AddsOnly actions mgr { mgr with downloads := dl } :=
    addsOnly_of_same rfl rfl
  cases status : msg.initData with
  | invalid =>
    simp only [status] at rest
    exact (requested _).trans
      (addsOnly_afterRemoval rest (by exact fun removed => addsOnly_misbehaving removed _))
  | failed =>
    simp only [status] at rest
    by_cases first : mgr.downloads.firstInFlight hash msg.pfrom.id
    · obtain ⟨rfl, -⟩ := Prod.mk.inj (some_inj.mp ((if_pos first).symm.trans rest))
      obtain ⟨inFlight, mem⟩ := shown status first
      exact (requested _).trans ((addsOnly_setCompactOutcome inFlight).of_mem mem)
    · exact (requested _).trans (addsOnly_afterRemoval ((if_neg first).symm.trans rest)
        (by exact fun _ => addsOnly_of_same rfl rfl))
  | ok =>
    simp only [status] at rest
    split_ifs at rest
    · cases rest
      exact addsOnly_of_same rfl rfl
    · cases rest
      exact addsOnly_of_same rfl rfl
    · exact (requested _).trans
        (addsOnly_afterRemoval rest (by exact fun _ => addsOnly_of_same rfl rfl))

theorem addsOnly_of_compactBlock (taken : mgr.compactBlock ctx msg = some (mgr', handler)) :
    AddsOnly (ofCompactBlock mgr.downloads ctx msg) mgr mgr' := by
  obtain ⟨recv, isReceived, rest⟩ := bind_eq_some_iff.mp taken
  obtain ⟨requests, queues, announced⟩ := headerReceived_spec isReceived
  have received : AddsOnly (ofCompactBlock mgr.downloads ctx msg) mgr recv :=
    announced.of_mem mem_cons_self
  refine received.trans ?_
  rw [compactBlockBranch_congr requests queues] at rest
  cases branch : compactBlockBranch mgr.downloads ctx msg with
  | nothing =>
    simp only [branch] at rest
    cases rest
    exact addsOnly_of_same rfl rfl
  | request =>
    simp only [branch] at rest
    refine addsOnly_of_requestCompactBlock rest fun failed first => ?_
    have first' : mgr.downloads.firstInFlight (ctx.chainman.entry msg.pindex).hash msg.pfrom.id := by
      rwa [firstInFlight, equalRange, ← requests]
    rw [ofCompactBlock, if_pos ⟨branch, failed, first'⟩]
    exact ⟨_, mem_cons_of_mem _ mem_cons_self⟩
  | optimistic =>
    simp only [branch] at rest
    split_ifs at rest <;>
    · cases rest
      exact addsOnly_of_same rfl rfl
  | revertToHeaderProcessing =>
    simp only [branch] at rest
    cases rest
    exact addsOnly_of_same rfl rfl

theorem addsOnly_of_processHeadersMessage {viaCompactBlock : Bool} {res : HeadersResult Block}
    (taken : mgr.processHeadersMessage ctx pfrom viaCompactBlock res = some (mgr', handler))
    (shown : ∀ lastHeader isNew, res = .accepted lastHeader isNew →
      .announced pfrom (ctx.chainman.entry lastHeader).hash ∈ actions) :
    AddsOnly actions mgr mgr' := by
  cases res with
  | dropped =>
    cases taken
    exact addsOnly_of_same rfl rfl
  | misbehaving =>
    cases taken
    exact addsOnly_misbehaving mgr pfrom
  | invalid state =>
    cases taken
    exact addsOnly_maybePunishNodeForBlock mgr pfrom state _
  | accepted lastHeader isNew =>
    obtain ⟨recv, isReceived, same⟩ := bind_eq_some_iff.mp taken
    cases same
    exact (headerReceived_spec isReceived).2.2.of_mem (shown lastHeader isNew rfl)

end PeerManager

/-! ## Runs -/

namespace MessageProcessor

variable {Block R : Type*} [DecidableEq Block] [Field R] [LinearOrder R] [Exp2 R]
  {proc processor' : MessageProcessor Block R} {event : Event Block}
  {hash : Uint256} {peer : NodeId} {obs : RelayObservation}
  {trace : List (MessageProcessor Block R × Event Block)}

/-- The event is a verdict on the block. -/
def checks (hash : Uint256) : Event Block → Bool
  | .blockChecked _ checked _ => checked = hash
  | _ => false

theorem addsOnly_of_step (taken : proc.step event = some processor') :
    AddsOnly (proc.actions event) proc.manager processor'.manager := by
  obtain ⟨mgr, handler⟩ := proc
  cases event with
  | initializeNode peer =>
    cases taken
    exact addsOnly_of_same rfl rfl
  | finalizeNode id =>
    obtain ⟨-, finalized⟩ := ite_none_left_eq_some.mp taken
    obtain ⟨mgr', isFinal, rfl⟩ := map_eq_some_iff.mp finalized
    obtain ⟨-, isFinal⟩ := ite_none_right_eq_some.mp isFinal
    obtain ⟨dl, -, rfl⟩ := map_eq_some_iff.mp isFinal
    exact addsOnly_of_same rfl rfl
  | blockChecked ctx checked verdict =>
    cases taken
    exact fun _ _ _ attributes => .inr (attributes_of_blockChecked attributes).2
  | sendMessages now id hashes =>
    obtain ⟨-, req⟩ := ite_none_right_eq_some.mp taken
    obtain ⟨dl, -, rfl⟩ := map_eq_some_iff.mp req
    exact addsOnly_of_same rfl rfl
  | fetchBlock now id fetched =>
    obtain ⟨dl, -, rfl⟩ := map_eq_some_iff.mp taken
    exact addsOnly_of_same rfl rfl
  | compactBlockRefused pfrom state =>
    cases handler <;> cases taken
    exact addsOnly_maybePunishNodeForBlock mgr pfrom state true
  | compactBlock ctx msg =>
    cases handler <;> try cases taken
    obtain ⟨res, isRes, rfl⟩ := map_eq_some_iff.mp taken
    exact addsOnly_of_compactBlock isRes
  | blocktxn pfrom blockhash =>
    cases handler <;> cases taken
    exact addsOnly_of_same rfl rfl
  | headers pfrom =>
    cases handler <;> cases taken
    exact addsOnly_of_same rfl rfl
  | block now pfrom recv mutated =>
    cases handler <;> try cases taken
    obtain ⟨res, isRes, rfl⟩ := map_eq_some_iff.mp taken
    exact addsOnly_of_block isRes
  | processHeaders ctx res =>
    cases handler <;> try cases taken
    obtain ⟨res, isRes, rfl⟩ := map_eq_some_iff.mp taken
    refine addsOnly_of_processHeadersMessage isRes fun lastHeader isNew isAccepted => ?_
    subst isAccepted
    exact mem_singleton_self _
  | headersDirectFetch ctx =>
    cases handler <;> try cases taken
    obtain ⟨mgr', fetched, rfl⟩ := map_eq_some_iff.mp taken
    obtain ⟨peer, -, fetched⟩ := bind_eq_some_iff.mp fetched
    obtain ⟨dl, -, rfl⟩ := map_eq_some_iff.mp fetched
    exact addsOnly_of_same rfl rfl
  | processCompactBlockTxns now fillBlock =>
    cases handler with
    | processCompactBlockTxns pfrom blockhash out =>
      obtain ⟨res, isRes, rfl⟩ := map_eq_some_iff.mp taken
      exact addsOnly_of_processCompactBlockTxns out.property isRes
    | _ => cases taken
  | blockReconstructed =>
    cases handler <;> cases taken
    refine addsOnly_insertSource fun obs supports => ?_
    obtain rfl := supports_compactOutcome supports
    exact .inl ⟨_, mem_singleton_self _, _, rfl⟩
  | processBlock now newBlock =>
    cases handler <;> try cases taken
    obtain ⟨mgr', processed, rfl⟩ := map_eq_some_iff.mp taken
    exact addsOnly_of_processBlock processed
  | clearReconstructed ctx =>
    cases handler <;> try cases taken
    simp only [step] at taken
    split_ifs at taken
    · obtain ⟨mgr', removed, rfl⟩ := map_eq_some_iff.mp taken
      exact addsOnly_of_removeBlockRequest removed
    · cases taken
      exact addsOnly_of_same rfl rfl

/-- What a step attributes: nothing is attributed for a block that the step
checks; otherwise what is attributed after a step was shown by the step, or was
attributed before. -/
theorem attributes_of_step (taken : proc.step event = some processor')
    (attributes : processor'.manager.Attributes hash peer obs) : checks hash event = false ∧
      ((∃ action ∈ proc.actions event, action.Justifies hash peer obs) ∨
        proc.manager.Attributes hash peer obs) := by
  refine ⟨?_, addsOnly_of_step taken attributes⟩
  cases event with
  | blockChecked ctx checked verdict =>
    cases taken
    exact decide_eq_false (attributes_of_blockChecked attributes).1.symm
  | _ => rfl

/-- What the metadata attribute is accounted for by the actions of peers, and
forgotten with the verdict. -/
theorem attributes_accountable : Accountable step (initial : MessageProcessor Block R)
      (fun proc (fact : Uint256 × NodeId × RelayObservation) =>
        proc.manager.Attributes fact.1 fact.2.1 fact.2.2)
      (fun proc event fact =>
        ∃ action ∈ proc.actions event, action.Justifies fact.1 fact.2.1 fact.2.2)
      fun fact => checks fact.1 where
  initially _ := not_attributes_initial
  taken := attributes_of_step

/-- Every observation recorded with a verdict is justified. In every run, the
observations that a verdict on a block records of a peer are justified by actions
of that peer on that block since the last verdict on it. A peer that has not sent
the block since then is not observed as the source of an invalid block. -/
theorem observations_justified (run : Run step (initial : MessageProcessor Block R) trace proc)
    (ctx : CheckedContext) (hash : Uint256) (verdict : BlockValidationState) :
    (∀ peer obs, (peer, obs) ∈ (proc.manager.blockChecked ctx hash verdict).2.observations →
      ∃ taken ∈ since (checks hash) trace, ∃ action ∈ taken.1.actions taken.2,
        action.Justifies hash peer obs) ∧ ∀ peer, (∀ taken ∈ since (checks hash) trace, ∀ inFlight,
        .sentBlock peer hash inFlight ∉ taken.1.actions taken.2) → (peer, .invalidFullBlockSource) ∉
        (proc.manager.blockChecked ctx hash verdict).2.observations := by
  have justified : ∀ peer obs, (peer, obs) ∈
        (proc.manager.blockChecked ctx hash verdict).2.observations →
      ∃ taken ∈ since (checks hash) trace, ∃ action ∈ taken.1.actions taken.2,
        action.Justifies hash peer obs := fun peer obs recorded =>
    attributes_accountable.exists_cause run (hash, peer, obs)
      (PeerManager.attributes_of_checkedObservations recorded)
  refine ⟨justified, ?_⟩
  intro peer unsent recorded
  obtain ⟨taken, mem, action, shown, inFlight, rfl⟩ := justified _ _ recorded
  exact unsent taken mem inFlight shown

/-- One peer has connected. -/
def connected (Block : Type*) [DecidableEq Block] : MessageProcessor Block ℚ :=
  initial.withManager (PeerManager.initial.initializeNode ⟨0, 0, false, false⟩)

/-- The peer sends a block, which turns out to be valid. -/
theorem exists_run_oneBlock : ∃ proc : MessageProcessor Unit ℚ,
    Run step initial [(connected Unit, .block 1 0 5 false),
      (initial, .initializeNode ⟨0, 0, false, false⟩)] proc ∧
      (proc.manager.mapBlockSource.lookup 5).all isDelivered ∧
      (proc.manager.blockChecked noConnections 5 ⟨.valid, .resultUnset⟩).2.selected = some 0 ∧
      (0, .validFullBlockSource) ∈
        (proc.manager.blockChecked noConnections 5 ⟨.valid, .resultUnset⟩).2.observations :=
  ⟨_, (Run.refl.step rfl).step rfl, rfl, rfl, mem_cons_self⟩

theorem observations_justified_oneBlock :
    ∃ trace, ∃ proc : MessageProcessor Unit ℚ, Run step initial trace proc ∧
      (0, .validFullBlockSource) ∈ (proc.manager.blockChecked noConnections 5
          ⟨.valid, .resultUnset⟩).2.observations ∧
      ∃ taken ∈ since (checks 5) trace, ∃ action ∈ taken.1.actions taken.2,
        ∃ inFlight, action = .sentBlock 0 5 inFlight := by
  obtain ⟨proc, run, -, -, recorded⟩ := exists_run_oneBlock
  exact ⟨_, proc, run, recorded,
    (observations_justified run noConnections 5 ⟨.valid, .resultUnset⟩).1 _ _ recorded⟩

/-! ## Sources and deliverers -/

theorem exists_delivery (run : Run step (initial : MessageProcessor Block R) trace proc)
    {src : BlockSourceMetadata} (found : proc.manager.mapBlockSource.lookup hash = some src)
    (delivered : src.isDelivered) :
    ∃ taken ∈ since (checks hash) trace, ∃ action ∈ taken.1.actions taken.2,
      action.delivers hash src.peerId := by
  have shown : ∀ obs, src.Supports obs →
      ∃ taken ∈ since (checks hash) trace, ∃ action ∈ taken.1.actions taken.2,
        action.Justifies hash src.peerId obs := fun obs supports =>
    attributes_accountable.exists_cause run (hash, src.peerId, obs)
      (.inr ⟨src, found, rfl, supports⟩)
  simp only [isDelivered, Bool.or_eq_true, Option.any_eq_true,
    decide_eq_true_eq] at delivered
  rcases delivered with (full | req) | ⟨out, isOutcome, succeeds⟩
  · obtain ⟨taken, mem, action, isIn, inFlight, rfl⟩ := shown .validFullBlockSource full
    exact ⟨taken, mem, _, isIn, by simp [delivers]⟩
  · obtain ⟨taken, mem, action, isIn, rfl | ⟨out, succeeds, rfl⟩⟩ :=
      shown (.requestedBlockResult true) req
    · exact ⟨taken, mem, _, isIn, by simp [delivers]⟩
    · exact ⟨taken, mem, _, isIn, by simp [delivers, succeeds]⟩
  · obtain ⟨taken, mem, action, isIn, inFlight, rfl⟩ :=
      shown (.compactBlockResult out) isOutcome
    exact ⟨taken, mem, _, isIn, by simp [delivers, succeeds]⟩

/-- A source that is recorded as having delivered the block is the one called.
In every run, if the source of a block is recorded as having delivered it when
the block is checked, then a peer that is called to be punished or to be selected
for announcements has delivered the block. -/
theorem checkedPeer_delivered (run : Run step (initial : MessageProcessor Block R) trace proc)
    (ctx : CheckedContext) (hash : Uint256) (verdict : BlockValidationState)
    (delivered : (proc.manager.mapBlockSource.lookup hash).all isDelivered)
    {peer : NodeId} (called : (proc.manager.blockChecked ctx hash verdict).2.punished = some peer ∨
      (proc.manager.blockChecked ctx hash verdict).2.selected = some peer) :
    ∃ taken ∈ since (checks hash) trace, ∃ action ∈ taken.1.actions taken.2,
      action.delivers hash peer := by
  obtain ⟨src, found, rfl⟩ : ∃ src,
      proc.manager.mapBlockSource.lookup hash = some src ∧ src.peerId = peer := by
    rcases called with punished | sel
    · obtain ⟨src, isPunished, isPeer⟩ := map_eq_some_iff.mp punished
      obtain ⟨-, conn⟩ := ite_none_right_eq_some.mp isPunished
      exact ⟨src, (filter_eq_some_iff.mp conn).1, isPeer⟩
    · obtain ⟨src, isSelected, isPeer⟩ := map_eq_some_iff.mp sel
      exact ⟨src, (ite_none_right_eq_some.mp isSelected).2, isPeer⟩
  rw [found] at delivered
  exact exists_delivery run found delivered

/-- Two blocks, of which the first is the tip and the second is not held. -/
def nextBlockContext : MessageContext (Fin 2) where
  chainman := .linear (fun block => 1 - block.val) (fun block => 1 - block.val)
    (fun block => if block = 0 then blockValidScripts ||| blockHaveData else blockValidTree)
    (by decide) 0
  now := 1
  canDirectFetch := true

/-- The next block as a compact block that cannot be reconstructed. -/
def unusableCompactBlock : CompactBlock (Fin 2) where
  pfrom := ⟨0, .outboundFullRelay, .ipv4, true, false, 0, 0, 0⟩
  bip152HighbandwidthTo := false
  pindex := 1
  receivedNewHeader := true
  initData := .failed
  allAvailable := false
  fillBlock := .failed

/-- A full block from one peer. -/
theorem checkedPeer_delivered_oneBlock :
    ∃ trace, ∃ proc : MessageProcessor Unit ℚ, Run step initial trace proc ∧
      (proc.manager.blockChecked noConnections 5 ⟨.valid, .resultUnset⟩).2.selected = some 0 ∧
      ∃ taken ∈ since (checks 5) trace, ∃ action ∈ taken.1.actions taken.2,
        action.delivers 5 0 := by
  obtain ⟨proc, run, delivered, sel, -⟩ := exists_run_oneBlock
  exact ⟨_, proc, run, sel,
    checkedPeer_delivered run noConnections 5 ⟨.valid, .resultUnset⟩ delivered (.inr sel)⟩

/-- A peer whose compact block could not be reconstructed, and which has sent
nothing else, is called to be punished or selected when the block is submitted
locally. -/
theorem failedReconstruction_called :
    ∃ trace, ∃ proc : MessageProcessor (Fin 2) ℚ, Run step initial trace proc ∧
      (proc.manager.blockChecked noConnections 1 ⟨.valid, .resultUnset⟩).2.selected = some 0 ∧
      (proc.manager.blockChecked noConnections 1 ⟨.invalid, .consensus⟩).2.punished = some 0 ∧
      ∀ taken ∈ trace, ∀ action ∈ taken.1.actions taken.2, action.delivers 1 0 = false := by
  obtain ⟨proc, taken, sel, punished⟩ : ∃ proc,
      (connected (Fin 2)).step (.compactBlock nextBlockContext unusableCompactBlock) = some proc ∧
        (proc.manager.blockChecked noConnections 1 ⟨.valid, .resultUnset⟩).2.selected = some 0 ∧
        (proc.manager.blockChecked noConnections 1
          ⟨.invalid, .consensus⟩).2.punished = some 0 := ⟨_, rfl, rfl, rfl⟩
  have run : Run step initial
      [(connected (Fin 2), .compactBlock nextBlockContext unusableCompactBlock),
        (initial, .initializeNode ⟨0, 0, false, false⟩)] proc :=
    (Run.refl.step rfl).step taken
  refine ⟨_, proc, run, sel, punished, ?_⟩
  rintro ⟨before, event⟩ mem
  simp only [mem_cons, not_mem_nil, or_false] at mem
  rcases mem with ⟨rfl, rfl⟩ | ⟨rfl, rfl⟩
  · have shown : (connected (Fin 2)).actions (.compactBlock nextBlockContext unusableCompactBlock) =
        [.announced 0 1, .compactAttempt 0 1 .fullBlockFallback false] := rfl
    rw [shown]
    decide
  · intro action shown
    cases shown

end MessageProcessor

end BitcoinCore.NetProcessing
