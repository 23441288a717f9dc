import BitcoinCore.TxDownload.Manager

/-!
# Download state and connections

No announcement outlives the connection of its peer. Announcements are added on behalf of
other peers than the one of the call: for the peers that announced an orphan, and for the
announcers of a known one. Each of these is looked up among the connected peers first.

The invariant (`Inv`) relates the tracker, the orphanage and the connected peers, and bounds
what the filters and the orphanage contain. Every call keeps it (`call_outcome`), and fails
only if there are more connected peers than the orphanage has room for. Thus after any run
only connected peers have announcements (`run_connected`).
-/

namespace BitcoinCore.TxDownload

open CheckedAccess Net List Orphanage AList TxRequest

/-! ## The peers of the tracker -/

/-- Announcements come from `ReceivedInv`. -/
theorem specify_forall {P : NodeId → Prop} {entries : List Entry}
    (all : ∀ entry ∈ entries, P entry.peer) (op : Operation)
    (new : ∀ peer gtxid pref reqtime, op = .receivedInv peer gtxid pref reqtime → P peer) :
    ∀ entry ∈ op.specify entries, P entry.peer := by
  have mapped : ∀ {change : Entry → Entry}, (∀ entry, (change entry).peer = entry.peer) →
      ∀ entry ∈ entries.map change, P entry.peer := by
    intro change same entry mem
    obtain ⟨old, isOld, rfl⟩ := mem_map.mp mem
    exact same old ▸ all old isOld
  intro entry mem
  cases op with
  | receivedInv peer gtxid pref reqtime =>
    rw [Operation.specify, Specification.receivedInv] at mem
    split at mem
    · exact all entry mem
    · rcases mem_append.mp mem with old | added
      · exact all entry old
      · rw [mem_singleton.mp added]
        exact new _ _ _ _ rfl
  | requestedTx peer txhash expiry =>
    rw [Operation.specify, Specification.requestedTx] at mem
    split at mem
    · refine mapped (fun old => ?_) entry mem
      rw [Specification.requestEntry]
      split_ifs <;> rfl
    · exact all entry mem
  | receivedResponse peer txhash =>
    refine mapped (fun old => ?_) entry (Specification.mem_prune.mp mem).1
    split_ifs <;> rfl
  | forgetTxHash txhash => exact all entry (mem_of_mem_filter mem)
  | disconnectedPeer peer =>
    exact all entry (mem_of_mem_filter (Specification.mem_prune.mp mem).1)
  | getRequestable peer now =>
    refine mapped (fun old => ?_) entry (Specification.mem_prune.mp mem).1
    rw [Entry.settle]
    split <;> rfl

/-! ## Connections -/

abbrev Peers := AList fun _ : NodeId => TxDownloadConnectionInfo

def connect (peers : Peers) : Call → Peers
  | .connectedPeer nodeid info =>
    if (peers.lookup nodeid).isSome then peers else peers.insert nodeid info
  | .disconnectedPeer nodeid => peers.erase nodeid
  | _ => peers

def connectAll (peers : Peers) (calls : List (World × Call)) : Peers :=
  calls.foldl (fun peers next => connect peers next.2) peers

def connections (calls : List (World × Call)) : Peers := connectAll ∅ calls

def wtxidRelayPeers (peers : Peers) : ℕ := peers.entries.countP (·.2.wtxidRelay)

variable {nodeid : NodeId}

theorem wtxidRelayPeers_insert {peers : Peers} (new : nodeid ∉ peers)
    (info : TxDownloadConnectionInfo) :
    wtxidRelayPeers (peers.insert nodeid info) = wtxidRelayPeers peers + info.wtxidRelay.toNat := by
  rw [wtxidRelayPeers, entries_insert_of_notMem new, countP_cons]
  cases info.wtxidRelay <;> rfl

theorem wtxidRelayPeers_erase {peers : Peers} {info : TxDownloadConnectionInfo}
    (found : peers.lookup nodeid = some info) :
    wtxidRelayPeers peers = wtxidRelayPeers (peers.erase nodeid) + info.wtxidRelay.toNat := by
  have isKey : nodeid ∈ peers.entries.keys := lookup_isSome.mp (found ▸ rfl)
  obtain ⟨other, pre, after, -, split, erased⟩ := exists_of_kerase isKey
  have same : other = info := by
    have mem : (⟨nodeid, other⟩ : Σ _ : NodeId, TxDownloadConnectionInfo) ∈ peers.entries := by
      rw [split]
      exact mem_append_right _ mem_cons_self
    exact Option.some_inj.mp ((mem_lookup_iff.mpr mem).symm.trans found)
  have entries : (peers.erase nodeid).entries = pre ++ after := erased
  rw [wtxidRelayPeers, wtxidRelayPeers, split, entries, countP_append, countP_append,
    countP_cons, same]
  cases info.wtxidRelay
  · rfl
  · exact (Nat.add_assoc _ _ _).symm

/-! ## The invariant -/

/-- Which hashes may be in the filters, and which transactions in the orphanage. -/
structure Bounds where
  hash : Uint256 → Prop
  tx : Uint256 → Prop

/-- The invariant of the manager while the given peers are connected. -/
structure Inv (prio : TxRequest.PriorityComputer) (txs : Txs) (bounds : Bounds) (peers : Peers)
    (mgr : TxDownloadManager) : Prop where
  peerInfo : mgr.peerInfo = peers
  wtxidPeers : mgr.numWtxidPeers = wtxidRelayPeers peers
  index : TxRequest.IndexInv prio mgr.txrequest.index
  accounted : TxRequest.Accounted mgr.txrequest
  tracked : ∀ entry ∈ mgr.txrequest.entries, entry.peer ∈ peers
  consistent : Orphanage.Consistent txs.toTxData mgr.orphanage
  announced : ∀ ann ∈ mgr.orphanage.orphans, bounds.tx ann.wtxid ∧ ann.announcer ∈ peers
  rejects : ∀ hash ∈ mgr.recentRejects, bounds.hash hash
  rejectsReconsiderable : ∀ hash ∈ mgr.recentRejectsReconsiderable, bounds.hash hash
  confirmed : ∀ hash ∈ mgr.recentConfirmed, bounds.hash hash

/-- The only failure: the orphanage asserts that its limits can be shared among the peers. -/
def TooManyPeers (limits : Orphanage.Limits) (peers : Peers) (fault : Fault) : Prop :=
  fault = .orphanage .assertion ∧ limits.maxGlobalLatencyScore < peers.keys.length

variable {prio : PriorityComputer} {ord : Orders prio} {txs : Txs} {limits : Orphanage.Limits}
  {world : World} {bounds : Bounds} {peers : Peers} {mgr : TxDownloadManager}

section

theorem inv_new : Inv prio txs bounds ∅ TxDownloadManager.new := by
  obtain ⟨tracker, isRun, refines⟩ := run_refines (insertionOrders prio) []
  cases isRun
  exact ⟨rfl, rfl, refines.inv, refines.accounted, fun _ mem => absurd mem not_mem_nil,
    consistent_empty, fun _ mem => absurd mem not_mem_nil,
    fun _ mem => absurd mem not_mem_nil, fun _ mem => absurd mem not_mem_nil,
    fun _ mem => absurd mem not_mem_nil⟩

theorem onTracker_spec (ord : Orders prio) (inv : Inv prio txs bounds peers mgr) (op : Operation)
    (known : ∀ peer gtxid pref reqtime, op = .receivedInv peer gtxid pref reqtime → peer ∈ peers) :
    ∃ later, onTracker ord op mgr = .ok later ∧ Inv prio txs bounds peers later ∧
      later.txrequest.entries = op.specify mgr.txrequest.entries ∧
      later.orphanage = mgr.orphanage := by
  obtain ⟨txrequest, applied, index, accounted, entries, -⟩ :=
    apply_spec ord inv.index inv.accounted op
  refine ⟨{ mgr with txrequest := txrequest }, ?_, { inv with index, accounted, tracked := ?_ },
    entries, rfl⟩
  · rw [onTracker, applied]
  · rw [entries]
    exact specify_forall inv.tracked op known

theorem onTracker_outcome (inv : Inv prio txs bounds peers mgr)
    (op : Operation) (known : ∀ peer gtxid pref reqtime,
      op = .receivedInv peer gtxid pref reqtime → peer ∈ peers) :
    Outcome (TooManyPeers limits peers) (Inv prio txs bounds peers) (onTracker ord op mgr) := by
  obtain ⟨later, applied, kept, -⟩ := onTracker_spec ord inv op known
  rw [applied]
  exact kept

theorem forgetTxHash_outcome (inv : Inv prio txs bounds peers mgr) (txhash : Uint256) :
    Outcome (TooManyPeers limits peers) (Inv prio txs bounds peers)
      (onTracker ord (.forgetTxHash txhash) mgr) :=
  onTracker_outcome inv _ nofun

theorem forget_outcome (inv : Inv prio txs bounds peers mgr) (wtxid : Uint256) :
    Outcome (TooManyPeers limits peers) (Inv prio txs bounds peers) (forget ord txs wtxid mgr) :=
  (forgetTxHash_outcome inv _).bind fun _ kept => forgetTxHash_outcome kept _

variable (fitsLat : Orphanage.Fits limits.maxGlobalLatencyScore)
  (fitsMem : Orphanage.Fits limits.reservedUsagePerPeer)

include fitsLat fitsMem

variable {wtxid : Uint256}

section

variable (inv : Inv prio txs bounds peers mgr) (op : Orphanage.Operation Uint256 COutPoint)
  (addTx : ∀ wtxid peer, op = .addTx wtxid peer → bounds.tx wtxid ∧ peer ∈ peers)
  (addAnnouncer : ∀ wtxid peer, op = .addAnnouncer wtxid peer → peer ∈ peers)
include inv addTx addAnnouncer

theorem onOrphanage_spec : Outcome (TooManyPeers limits peers)
      (fun later => Inv prio txs bounds peers later ∧ later.txrequest = mgr.txrequest ∧
        later.orphanage.orphans ⊆ (change txs.toTxData mgr.orphanage op).1.orphans)
      (onOrphanage txs limits op mgr) := by
  have changed := change_forall (P := fun wtxid peer => bounds.tx wtxid ∧ peer ∈ peers)
    inv.announced inv.consistent op addTx fun wtxid peer isOp have_ => by
      obtain ⟨ann, mem, same⟩ := any_eq_true.mp have_
      exact ⟨of_decide_eq_true same ▸ (inv.announced ann mem).1, addAnnouncer wtxid peer isOp⟩
  rw [onOrphanage]
  rcases step_cases fitsLat fitsMem inv.consistent op with ⟨next, isStep⟩ | ⟨fails, many⟩
  · rw [isStep]
    refine ⟨{ inv with
      consistent := step_consistent inv.consistent isStep
      announced := fun ann mem => changed ann (step_subset isStep mem) }, rfl,
      step_subset isStep⟩
  · rw [fails]
    refine ⟨rfl, many.trans_le ?_⟩
    rw [(inv.consistent.change op).countPeers_eq, ← toFinset_card_of_nodup peers.keys_nodup]
    refine Finset.card_le_card fun peer mem => ?_
    obtain ⟨ann, isAnn, rfl⟩ := mem_peersOf.mp mem
    exact mem_toFinset.mpr (changed ann isAnn).2

theorem onOrphanage_outcome : Outcome (TooManyPeers limits peers) (Inv prio txs bounds peers)
      (onOrphanage txs limits op mgr) :=
  (onOrphanage_spec fitsLat fitsMem inv op addTx addAnnouncer).mono fun _ kept => kept.1

end

section

variable (inv : Inv prio txs bounds peers mgr)
include inv

theorem eraseTx_outcome (wtxid : Uint256) :
    Outcome (TooManyPeers limits peers) (Inv prio txs bounds peers)
      (onOrphanage txs limits (.eraseTx wtxid) mgr) :=
  onOrphanage_outcome fitsLat fitsMem inv _ nofun nofun

omit fitsLat fitsMem in
theorem maybeAdd_outcome (uniqueParents : List Uint256)
    (wtxid : Uint256) (nodeid : NodeId) (now : ℤ) : Outcome (TooManyPeers limits peers)
      (fun answer => Inv prio txs bounds peers answer.1 ∧ (answer.2 = true → nodeid ∈ peers))
      (maybeAddOrphanResolutionCandidate ord uniqueParents wtxid nodeid now mgr) := by
  have refused : Outcome (TooManyPeers limits peers)
      (fun answer : TxDownloadManager × Bool =>
        Inv prio txs bounds peers answer.1 ∧ (answer.2 → nodeid ∈ peers))
      (.ok (mgr, false)) := ⟨inv, fun added => (by cases added)⟩
  rw [maybeAddOrphanResolutionCandidate]
  cases found : mgr.peerInfo.lookup nodeid with
  | none => exact refused
  | some info =>
    have known : nodeid ∈ peers := by
      rw [← inv.peerInfo, ← lookup_isSome, found]
      rfl
    dsimp only
    split_ifs
    · exact refused
    · exact refused
    · refine (outcome_foldlM (fun parent _ state kept => ?_) inv).bind fun later kept =>
        ⟨kept, fun _ => known⟩
      refine onTracker_outcome kept _ fun peer _ _ _ isInv => ?_
      cases isInv
      exact known

theorem addTxAnnouncement_outcome (peer : NodeId) (gtxid : GenTxid) (now : ℤ) :
    Outcome (TooManyPeers limits peers) (fun answer => Inv prio txs bounds peers answer.1)
      (addTxAnnouncement ord txs limits world peer gtxid now mgr) := by
  rw [addTxAnnouncement]
  split
  case isTrue =>
    dsimp only
    split
    · exact inv
    · refine (maybeAdd_outcome inv _ _ peer now).bind fun answer kept => ?_
      obtain ⟨later, added⟩ := answer
      cases added with
      | false => exact kept.1
      | true =>
        refine (onOrphanage_outcome fitsLat fitsMem kept.1 _ (by rintro _ _ ⟨⟩)
          fun wtxid other isAdd => ?_).bind fun final kept => kept
        cases isAdd
        exact kept.2 rfl
  case isFalse =>
    split
    · exact inv
    · cases found : mgr.peerInfo.lookup peer with
      | none => exact inv
      | some info =>
        dsimp only
        split
        · exact inv
        · refine (onTracker_outcome inv _ fun other _ _ _ isInv => ?_).bind fun later kept => kept
          cases isInv
          rw [← inv.peerInfo, ← lookup_isSome, found]
          rfl

omit fitsLat fitsMem in
theorem sendRequests_outcome (nodeid : NodeId) (now : ℤ) (gtxids : List GenTxid) :
    Outcome (TooManyPeers limits peers) (fun answer => Inv prio txs bounds peers answer.1)
      (sendRequests ord world nodeid now gtxids mgr) := by
  induction gtxids generalizing mgr with
  | nil => exact inv
  | cons gtxid gtxids ih =>
    rw [sendRequests]
    split_ifs
    · exact (forgetTxHash_outcome inv _).bind fun later kept => ih kept
    · refine (onTracker_outcome inv _ (by nofun)).bind fun later kept => ?_
      exact (ih kept).bind fun answer kept => kept

omit fitsLat fitsMem in
theorem receivedResponse_outcome (nodeid : NodeId)
    (txhash : Uint256) : Outcome (TooManyPeers limits peers) (Inv prio txs bounds peers)
      (onTracker ord (.receivedResponse nodeid txhash) mgr) :=
  onTracker_outcome inv _ nofun

omit fitsLat fitsMem in
theorem receivedTx_outcome (nodeid : NodeId) (wtxid : Uint256) :
    Outcome (TooManyPeers limits peers) (fun answer => Inv prio txs bounds peers answer.1)
      (receivedTx ord txs world nodeid wtxid mgr) := by
  refine (receivedResponse_outcome inv nodeid _).bind fun later kept => ?_
  split_ifs
  · exact (receivedResponse_outcome kept nodeid wtxid).bind fun final kept => kept
  · exact kept

theorem mempoolAcceptedTx_outcome (wtxid : Uint256)
    (pick : Uint256 → NodeId) : Outcome (TooManyPeers limits peers) (Inv prio txs bounds peers)
      (mempoolAcceptedTx ord txs limits wtxid pick mgr) := by
  refine (forget_outcome inv wtxid).bind fun later kept => ?_
  refine (outcome_foldlM (fun child _ state holds => ?_) kept).bind fun final kept =>
    eraseTx_outcome fitsLat fitsMem kept wtxid
  exact onOrphanage_outcome fitsLat fitsMem holds _ nofun nofun

theorem addOrphan_outcome (uniqueParents : List Uint256) (allowed : bounds.tx wtxid) (now : ℤ)
    (nodeids : List NodeId) : Outcome (TooManyPeers limits peers) (Inv prio txs bounds peers)
      (addOrphan ord txs limits uniqueParents wtxid now nodeids mgr) := by
  induction nodeids generalizing mgr with
  | nil => exact inv
  | cons nodeid nodeids ih =>
    refine (maybeAdd_outcome inv uniqueParents wtxid nodeid now).bind fun answer kept => ?_
    obtain ⟨later, added⟩ := answer
    cases added with
    | false => exact ih kept.1
    | true =>
      refine (onOrphanage_outcome fitsLat fitsMem kept.1 _ (fun other peer isAdd => ?_)
        (by nofun)).bind fun final kept => ih kept
      cases isAdd
      exact ⟨allowed, kept.2 rfl⟩

end

/-! ### What may be rejected -/

/-- The verdict lets only allowed hashes into the filters, and only allowed transactions into
the orphanage. -/
def AllowedVerdict (txs : Txs) (world : World) (bounds : Bounds) (mgr : TxDownloadManager)
    (wtxid : Uint256) (firstTimeFailure : Bool) : TxValidationResult → Prop
  | .missingInputs => firstTimeFailure →
      bounds.tx wtxid ∧ (rejectedParents world mgr (getUniqueParents txs wtxid) false →
        bounds.hash wtxid ∧ bounds.hash (txs.txid wtxid))
  | .witnessStripped => True
  | .reconsiderable => bounds.hash wtxid
  | .inputsNotStandard => bounds.hash wtxid ∧ (txs.hasWitness wtxid → bounds.hash (txs.txid wtxid))
  | .other => bounds.hash wtxid

/-- What a call puts into the filters and the orphanage is allowed. -/
def Allowed (txs : Txs) (bounds : Bounds) (world : World) (mgr : TxDownloadManager) : Call → Prop
  | .blockConnected vtx => ∀ wtxid ∈ vtx, bounds.hash wtxid ∧ bounds.hash (txs.txid wtxid)
  | .mempoolRejectedTx wtxid result _ firstTimeFailure _ =>
    AllowedVerdict txs world bounds mgr wtxid firstTimeFailure result
  | .mempoolRejectedPackage packageHash => bounds.hash packageHash
  | _ => True

section

variable (inv : Inv prio txs bounds peers mgr)
include inv

omit fitsLat fitsMem in
theorem Inv.reject {hash : Uint256} (allowed : bounds.hash hash) :
    Inv prio txs bounds peers { mgr with recentRejects := hash :: mgr.recentRejects } :=
  { inv with rejects := forall_mem_cons.mpr ⟨allowed, inv.rejects⟩ }

omit fitsLat fitsMem in
theorem Inv.rejectReconsiderable {hash : Uint256}
    (allowed : bounds.hash hash) : Inv prio txs bounds peers
      { mgr with recentRejectsReconsiderable := hash :: mgr.recentRejectsReconsiderable } :=
  { inv with rejectsReconsiderable := forall_mem_cons.mpr ⟨allowed, inv.rejectsReconsiderable⟩ }

omit fitsLat fitsMem in
theorem Inv.confirm {hashes : List Uint256} (allowed : ∀ hash ∈ hashes, bounds.hash hash) :
    Inv prio txs bounds peers { mgr with recentConfirmed := hashes } :=
  { inv with confirmed := allowed }

theorem rejectedMissingInputs_outcome (allowed : bounds.tx wtxid)
    (allowedHash : rejectedParents world mgr (getUniqueParents txs wtxid) false →
      bounds.hash wtxid ∧ bounds.hash (txs.txid wtxid)) (nodeid : NodeId) (now : ℤ) :
    Outcome (TooManyPeers limits peers) (Inv prio txs bounds peers)
      (rejectedMissingInputs ord txs limits world wtxid nodeid now mgr) := by
  rw [rejectedMissingInputs]
  dsimp only
  split
  case isTrue rejected =>
    obtain ⟨hash, txid⟩ := allowedHash rejected
    exact forget_outcome ((inv.reject txid).reject hash) wtxid
  case isFalse =>
    exact (addOrphan_outcome fitsLat fitsMem inv _ allowed now _).bind fun later kept =>
      forget_outcome kept wtxid

theorem mempoolRejectedTx_outcome {result : TxValidationResult} {firstTimeFailure : Bool}
    (allowed : AllowedVerdict txs world bounds mgr wtxid firstTimeFailure result) (nodeid : NodeId)
    (now : ℤ) : Outcome (TooManyPeers limits peers) (Inv prio txs bounds peers)
      (mempoolRejectedTx ord txs limits world wtxid result nodeid firstTimeFailure now mgr) := by
  cases result with
  | missingInputs =>
    rw [mempoolRejectedTx]
    split_ifs with first
    · obtain ⟨tx, hash⟩ := allowed (Bool.and_eq_true_iff.mp first).1
      exact rejectedMissingInputs_outcome fitsLat fitsMem inv tx hash nodeid now
    · exact inv
  | witnessStripped => exact eraseTx_outcome fitsLat fitsMem inv wtxid
  | reconsiderable =>
    exact (forgetTxHash_outcome (inv.rejectReconsiderable allowed) wtxid).bind fun later kept =>
      eraseTx_outcome fitsLat fitsMem kept wtxid
  | inputsNotStandard =>
    refine (forgetTxHash_outcome (inv.reject allowed.1) wtxid).bind fun later kept => ?_
    split_ifs with witness
    · exact (forgetTxHash_outcome (kept.reject (allowed.2 witness)) _).bind fun final kept =>
        eraseTx_outcome fitsLat fitsMem kept wtxid
    · exact eraseTx_outcome fitsLat fitsMem kept wtxid
  | other =>
    exact (forgetTxHash_outcome (inv.reject allowed) wtxid).bind fun later kept =>
      eraseTx_outcome fitsLat fitsMem kept wtxid

omit fitsLat fitsMem in
theorem confirmAll_outcome {vtx : List Uint256}
    (allowed : ∀ wtxid ∈ vtx, bounds.hash wtxid ∧ bounds.hash (txs.txid wtxid)) :
    Outcome (TooManyPeers limits peers) (Inv prio txs bounds peers)
      (confirmAll ord txs vtx mgr) := by
  induction vtx generalizing mgr with
  | nil => exact inv
  | cons wtxid vtx ih =>
    obtain ⟨first, rest⟩ := forall_mem_cons.mp allowed
    have confirmed := forall_mem_cons.mpr ⟨first.2, inv.confirmed⟩
    rw [confirmAll]
    split_ifs
    · exact (forget_outcome (inv.confirm (forall_mem_cons.mpr ⟨first.1, confirmed⟩))
        wtxid).bind fun later kept => ih kept rest
    · exact (forget_outcome (inv.confirm confirmed) wtxid).bind fun later kept => ih kept rest

/-! ### Connections -/

omit fitsLat fitsMem in
theorem connectedPeer_inv (nodeid : NodeId) (info : TxDownloadConnectionInfo) :
    Inv prio txs bounds (connect peers (.connectedPeer nodeid info))
      (connectedPeer nodeid info mgr) := by
  rw [connectedPeer, connect, inv.peerInfo]
  split_ifs with known wtxid
  · exact inv
  all_goals
    have new : nodeid ∉ peers := fun mem => known (lookup_isSome.mpr mem)
    have counted := wtxidRelayPeers_insert new info
    refine { inv with
      peerInfo := rfl
      wtxidPeers := ?_
      tracked := fun entry mem => (mem_insert _).mpr (.inr (inv.tracked entry mem))
      announced := fun ann mem =>
        ⟨(inv.announced ann mem).1, (mem_insert _).mpr (.inr (inv.announced ann mem).2)⟩ }
    rw [counted, ← inv.wtxidPeers]
    simp [wtxid]

/-- A peer that disconnects leaves nothing behind. -/
theorem disconnectedPeer_outcome (nodeid : NodeId) : Outcome (TooManyPeers limits peers)
      (Inv prio txs bounds (connect peers (.disconnectedPeer nodeid)))
      (disconnectedPeer ord txs limits nodeid mgr) := by
  refine (onOrphanage_spec fitsLat fitsMem inv _ (by nofun) (by nofun)).bind fun middle kept => ?_
  obtain ⟨inv', -, subset⟩ := kept
  have silent : ∀ ann ∈ middle.orphanage.orphans, ann.announcer ≠ nodeid := fun ann mem =>
    change_eraseForPeer inv.consistent nodeid ann (subset mem)
  obtain ⟨later, applied, inv'', entries, same⟩ := onTracker_spec ord inv'
    (.disconnectedPeer nodeid) nofun
  have untracked : ∀ entry ∈ later.txrequest.entries, entry.peer ≠ nodeid := by
    intro entry mem
    rw [entries] at mem
    exact of_decide_eq_true (mem_filter.mp (Specification.mem_prune.mp mem).1).2
  have tracked : ∀ entry ∈ later.txrequest.entries, entry.peer ∈ peers.erase nodeid :=
    fun entry mem => mem_erase.mpr ⟨untracked entry mem, inv''.tracked entry mem⟩
  have announced : ∀ ann ∈ later.orphanage.orphans,
      bounds.tx ann.wtxid ∧ ann.announcer ∈ peers.erase nodeid := by
    intro ann mem
    obtain ⟨allowed, isPeer⟩ := inv''.announced ann mem
    exact ⟨allowed, mem_erase.mpr ⟨silent ann (same ▸ mem), isPeer⟩⟩
  rw [applied, ok_bind]
  cases found : later.peerInfo.lookup nodeid with
  | none =>
    have absent : nodeid ∉ peers := fun mem => by
      rw [← inv''.peerInfo, ← lookup_isSome, found] at mem
      cases mem
    have unchanged : peers.erase nodeid = peers := ext (kerase_of_notMem_keys absent)
    rw [connect, unchanged]
    exact inv''
  | some info =>
    have counted := wtxidRelayPeers_erase (inv''.peerInfo ▸ found)
    refine { inv'' with peerInfo := ?_, wtxidPeers := ?_, tracked, announced }
    · rw [inv''.peerInfo]
      rfl
    · dsimp only [connect]
      rw [inv''.wtxidPeers, counted]
      cases info.wtxidRelay <;> rfl

end

/-- Every call keeps the invariant, or finds too many peers. -/
theorem call_outcome (ord : TxRequest.Orders prio)
    (inv : Inv prio txs bounds peers mgr) {next : Call}
    (allowed : Allowed txs bounds world mgr next) :
    Outcome (TooManyPeers limits peers) (Inv prio txs bounds (connect peers next))
      (call ord txs limits world mgr next) := by
  cases next with
  | activeTipChange =>
    exact { inv with
      rejects := fun _ mem => absurd mem not_mem_nil
      rejectsReconsiderable := fun _ mem => absurd mem not_mem_nil }
  | blockConnected vtx =>
    exact (onOrphanage_outcome fitsLat fitsMem inv _ (by nofun) (by nofun)).bind fun later kept => confirmAll_outcome kept allowed
  | blockDisconnected =>
    exact { inv with confirmed := fun _ mem => absurd mem not_mem_nil }
  | connectedPeer nodeid info => exact connectedPeer_inv inv nodeid info
  | disconnectedPeer nodeid => exact disconnectedPeer_outcome fitsLat fitsMem inv nodeid
  | addTxAnnouncement peer gtxid now =>
    exact (addTxAnnouncement_outcome fitsLat fitsMem inv peer gtxid now).map
  | getRequestsToSend nodeid now =>
    exact ((onTracker_outcome inv _ (by nofun)).bind fun _ kept =>
      sendRequests_outcome kept nodeid now _).map
  | receivedNotFound nodeid gtxids =>
    exact outcome_foldlM (fun gtxid _ state holds => receivedResponse_outcome holds nodeid _) inv
  | mempoolAcceptedTx wtxid pick => exact mempoolAcceptedTx_outcome fitsLat fitsMem inv wtxid pick
  | mempoolRejectedTx wtxid result nodeid firstTimeFailure now =>
    exact mempoolRejectedTx_outcome fitsLat fitsMem inv allowed nodeid now
  | mempoolRejectedPackage packageHash => exact inv.rejectReconsiderable allowed
  | receivedTx nodeid wtxid => exact (receivedTx_outcome inv nodeid wtxid).map
  | getTxToReconsider nodeid =>
    exact onOrphanage_outcome fitsLat fitsMem inv _ nofun nofun

def AllowedRun (ord : TxRequest.Orders prio) (txs : Txs) (limits : Orphanage.Limits)
    (bounds : Bounds) : List (World × Call) → TxDownloadManager → Prop
  | [], _ => True
  | (world, first) :: calls, mgr => Allowed txs bounds world mgr first ∧
      ∀ later, call ord txs limits world mgr first = .ok later →
        AllowedRun ord txs limits bounds calls later

/-- Every run keeps the invariant, or finds too many peers. -/
theorem run_outcome (inv : Inv prio txs bounds peers mgr) {calls : List (World × Call)}
    (allowed : AllowedRun ord txs limits bounds calls mgr) :
    Outcome (fun fault => ∃ pre, pre <+: calls ∧ TooManyPeers limits (connectAll peers pre) fault)
      (Inv prio txs bounds (connectAll peers calls)) (run ord txs limits calls mgr) := by
  induction calls generalizing peers mgr with
  | nil => exact inv
  | cons next calls ih =>
    obtain ⟨world, first⟩ := next
    have out := call_outcome fitsLat fitsMem ord inv allowed.1
    rw [run]
    cases result : call ord txs limits world mgr first with
    | error fault => exact ⟨[], nil_prefix, out.of_error result⟩
    | ok later =>
      have rest := ih (out.of_ok result) (allowed.2 later result)
      rw [ok_bind]
      cases final : run ord txs limits calls later with
      | ok reached => exact rest.of_ok final
      | error fault =>
        obtain ⟨pre, isPrefix, many⟩ := rest.of_error final
        exact ⟨(world, first) :: pre, cons_prefix_cons.mpr ⟨rfl, isPrefix⟩, many⟩

end

/-! ## What disconnected peers leave -/

theorem Inv.checkIsEmptyPeer (inv : Inv prio txs bounds peers mgr)
    (gone : nodeid ∉ peers) : checkIsEmptyPeer nodeid mgr := by
  have tracked : mgr.txrequest.count nodeid = 0 := by
    rw [count_eq inv.accounted, Specification.count, countP_eq_zero]
    intro entry mem own
    exact gone (of_decide_eq_true own ▸ inv.tracked entry mem)
  have announced : mgr.orphanage.peerOrphanageInfo.lookup nodeid = none := by
    rw [inv.consistent.info, Option.eq_none_iff_forall_ne_some]
    intro info isInfo
    obtain ⟨⟨ann, mem, own⟩, -⟩ := infoAt_eq_some_iff.mp isInfo
    exact gone (own ▸ (inv.announced ann mem).2)
  rw [TxDownload.checkIsEmptyPeer, tracked, announced]
  rfl

theorem Inv.checkIsEmpty (inv : Inv prio txs bounds ∅ mgr) : checkIsEmpty mgr := by
  have tracked : mgr.txrequest.index = [] := by
    refine eq_nil_iff_forall_not_mem.mpr fun ann mem => ?_
    exact notMem_empty _ (inv.tracked _ (mem_map_of_mem mem))
  have announced : mgr.orphanage.orphans = [] :=
    eq_nil_iff_forall_not_mem.mpr fun ann mem =>
      notMem_empty _ (inv.announced ann mem).2
  rw [TxDownload.checkIsEmpty, inv.consistent.usage, inv.consistent.unique, tracked, announced,
    inv.wtxidPeers]
  rfl

def Bounds.all : Bounds := ⟨fun _ => True, fun _ => True⟩

theorem allowed_all (next : Call) : Allowed txs .all world mgr next := by
  cases next with
  | blockConnected vtx => exact fun _ _ => ⟨trivial, trivial⟩
  | mempoolRejectedTx wtxid result nodeid firstTimeFailure now =>
    cases result with
    | missingInputs => exact fun _ => ⟨trivial, fun _ => ⟨trivial, trivial⟩⟩
    | witnessStripped => trivial
    | reconsiderable => trivial
    | inputsNotStandard => exact ⟨trivial, fun _ => trivial⟩
    | other => trivial
  | _ => trivial

theorem allowedRun_all (calls : List (World × Call)) (mgr : TxDownloadManager) :
    AllowedRun ord txs limits .all calls mgr := by
  induction calls generalizing mgr with
  | nil => trivial
  | cons next calls ih => exact ⟨allowed_all _, fun later _ => ih later⟩

/-- Download state never outlives the connection of its peer. After every run, with any
answers of the mempool and the filters, only connected peers have announcements in the
tracker or the orphanage, and the connected peers that relay by wtxid are counted. Thus the
checks succeed, for a peer that is not connected and for the whole manager if no peer is.

A run only fails if at some point more peers are connected than the orphanage has a global
latency score for. -/
theorem run_connected (ord : TxRequest.Orders prio) (txs : Txs)
    (fitsLat : Orphanage.Fits limits.maxGlobalLatencyScore)
    (fitsMem : Orphanage.Fits limits.reservedUsagePerPeer) (calls : List (World × Call)) :
    (∃ mgr, run ord txs limits calls .new = .ok mgr ∧
      (∀ entry ∈ mgr.txrequest.entries, entry.peer ∈ connections calls) ∧
      (∀ ann ∈ mgr.orphanage.orphans, ann.announcer ∈ connections calls) ∧
      mgr.numWtxidPeers = wtxidRelayPeers (connections calls) ∧
      (∀ nodeid ∉ connections calls, checkIsEmptyPeer nodeid mgr) ∧
      (connections calls = ∅ → checkIsEmpty mgr)) ∨
    (run ord txs limits calls .new = .error (.orphanage .assertion) ∧ ∃ pre, pre <+: calls ∧
        limits.maxGlobalLatencyScore < (connections pre).keys.length) := by
  have allowed : AllowedRun ord txs limits .all calls .new := allowedRun_all calls .new
  have out := run_outcome fitsLat fitsMem inv_new allowed
  cases result : run ord txs limits calls .new with
  | error fault =>
    obtain ⟨pre, isPrefix, rfl, many⟩ := out.of_error result
    exact .inr ⟨rfl, pre, isPrefix, many⟩
  | ok mgr =>
    have inv : Inv prio txs .all (connections calls) mgr := out.of_ok result
    refine .inl ⟨mgr, rfl, inv.tracked, fun ann mem => (inv.announced ann mem).2,
      inv.wtxidPeers, fun nodeid gone => inv.checkIsEmptyPeer gone, fun none => ?_⟩
    rw [none] at inv
    exact inv.checkIsEmpty

/-- A transaction with two witnesses (5 and 6) and its copy without a witness (4); all other
transactions have no witness. All of them spend one output of another transaction. -/
def twoWitnesses : Txs where
  weight := fun _ => 400
  prevouts := fun _ => [⟨16, 0⟩]
  hasWitness := fun wtxid => wtxid == 5 || wtxid == 6
  txid := fun wtxid => if wtxid == 5 || wtxid == 6 then 4 else wtxid
  voutSize := fun _ => 1
  txid_eq := fun wtxid legacy => by rw [legacy, if_neg Bool.false_ne_true]
  stripped := fun wtxid => by
    cases witness : wtxid == 5 || wtxid == 6 with
    | true => rfl
    | false => exact witness

def World.idle : World := ⟨fun _ => false, fun _ _ isMember => isMember⟩

def shortConnection : List (World × Call) :=
  [(.idle, .connectedPeer 1 ⟨true, false, true⟩), (.idle, .addTxAnnouncement 1 ⟨true, 5⟩ 0),
    (.idle, .disconnectedPeer 1)]

/-- The hypotheses hold for the limits of the code, with which this run succeeds. -/
theorem run_connected_short : ∃ mgr, run (insertionOrders peerPriority) twoWitnesses ⟨3000, 404000⟩
      shortConnection .new = .ok mgr ∧ checkIsEmpty mgr := by
  have fitsLat : Orphanage.Fits (⟨3000, 404000⟩ : Orphanage.Limits).maxGlobalLatencyScore :=
    ⟨by decide, by decide⟩
  have fitsMem : Orphanage.Fits (⟨3000, 404000⟩ : Orphanage.Limits).reservedUsagePerPeer :=
    ⟨by decide, by decide⟩
  have few : ∀ pre ∈ shortConnection.inits, (connections pre).keys.length ≤ 1 := by
    simp only [shortConnection, List.inits, map_cons, map_nil, forall_mem_cons]
    exact ⟨Nat.zero_le 1, Nat.le_refl 1, Nat.le_refl 1, Nat.zero_le 1, forall_mem_nil _⟩
  rcases run_connected (insertionOrders peerPriority) twoWitnesses fitsLat fitsMem
      shortConnection with ⟨mgr, isRun, -, -, -, -, empty⟩ | ⟨-, pre, isPrefix, many⟩
  · exact ⟨mgr, isRun, empty rfl⟩
  · have atMost := few pre ((mem_inits _ _).mpr isPrefix)
    dsimp only at many
    omega

end BitcoinCore.TxDownload
