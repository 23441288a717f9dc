import BitcoinCore.TxRequest.Operations

/-!
# The request tracker refines its specification

After every run of calls the tracker holds the announcements of the specification
(`run_refines`). If the priorities of the announcements of a hash are different, the best
announcements are those that the specification finds without any state
(`isBest_iff`), so that the answers of the tracker are those of the specification
(`txRequestTracker_refines`). Announcements are sorted by sequence numbers of 59 bits: the
answers are in the order of announcement as long as the numbers have not been used
up, and may be in another order then (`getRequestable_order_wraps`).
-/

namespace BitcoinCore.TxRequest

open CheckedAccess ElementUpdate SortedList TxRequestTracker List Bool Function Announcement
open Net (NodeId)

variable {prio : PriorityComputer} {trk : TxRequestTracker}

/-! ## What to request -/

section

variable {now : ℤ}

namespace Announcement

theorem isReady_entry (ann : Announcement) :
    ann.entry.isReady now = (ann.state.rank ≤ 2 && ann.time ≤ now : Bool) := by
  rcases ann with ⟨_, _, _, _, _, state⟩
  cases state <;> simp [entry, Entry.isReady, State.rank]

theorem isOutstanding_entry (ann : Announcement) :
    ann.entry.isOutstanding now = (ann.state = .requested && now < ann.time : Bool) := by
  rcases ann with ⟨_, _, _, _, _, state⟩
  cases state <;> simp [entry, Entry.isOutstanding]

end Announcement

/-- A best announcement of a peer. -/
abbrev Announcement.isBestFrom (peer : NodeId) (ann : Announcement) : Bool :=
  ann.peer = peer && (ann.state = .candidateBest : Bool)

/-- When time has been moved, the best announcements are those of the specification. -/
theorem isBest_iff (injective : ∀ txhash peer pref peer' preferred',
      prio txhash peer pref = prio txhash peer' preferred' → peer = peer')
    (inv : IndexInv prio trk.index) (noneDue : trk.index.countP (isDue now) = 0)
    (noneEarly : trk.index.countP (isEarly now) = 0) {ann : Announcement} (mem : ann ∈ trk.index) :
    Specification.isBest prio now trk.entries ann.entry ↔ ann.state = .candidateBest := by
  have due : ∀ other ∈ trk.index,
      ¬ ((other.state = .requested ∨ other.state = .candidateDelayed) ∧ other.time ≤ now) := by
    intro other isIn isDue
    refine countP_eq_zero.mp noneDue other isIn ?_
    simpa [Announcement.isDue, isWaiting] using isDue
  have early : ∀ other ∈ trk.index,
      ¬ ((other.state = .candidateReady ∨ other.state = .candidateBest) ∧ now < other.time) := by
    intro other isIn isEarly
    refine countP_eq_zero.mp noneEarly other isIn ?_
    simpa [Announcement.isEarly, isSelectable] using isEarly
  obtain ⟨selected, sel⟩ := inv.selection ann.txHash
  simp only [Specification.isBest, and_eq_true, all_eq_true, decide_eq_true_iff,
    isReady_entry]
  constructor
  · rintro ⟨⟨candidate, past⟩, all⟩
    by_contra notBest
    have ready : ann.state = .candidateReady := by
      rcases State.eq_of_rank_le candidate with delayed | ready | best
      · exact absurd ⟨.inr delayed, past⟩ (due ann mem)
      · exact ready
      · exact absurd best notBest
    cases selected with
    | none => exact sel.notReady rfl ann mem rfl ready
    | some best =>
      obtain ⟨isIn, here⟩ := sel.mem best rfl
      obtain ⟨notOutstanding, order⟩ := all best.entry (mem_map_of_mem isIn) here
      have isSel := (sel.iff best isIn here).mpr rfl
      rw [isSelected, or_eq_true, decide_eq_true_iff, decide_eq_true_iff]
        at isSel
      rcases isSel with isBest | req
      · have time : best.time ≤ now := not_lt.mp fun later =>
          early best isIn ⟨.inr isBest, later⟩
        have lower := order (by simp [isReady_entry, isBest, time, State.rank])
        have upper := sel.best best rfl isBest ann mem rfl ready
        have priority := le_antisymm upper lower
        rw [Announcement.priority, Announcement.priority, here] at priority
        have same := eq_of_identity_eq inv.unique mem isIn
          (injective _ _ _ _ _ priority) here.symm
        exact notBest (same ▸ isBest)
      · have time : now < best.time := not_le.mp fun past =>
          due best isIn ⟨.inl req, past⟩
        simp [isOutstanding_entry, req, time] at notOutstanding
  · intro best
    obtain rfl := (sel.iff ann mem rfl).mp (by simp [isSelected, best])
    have only : ∀ other ∈ trk.index, other.txHash = ann.txHash → other.isSelected →
        other = ann := fun other isIn here isSel =>
      (Option.some.inj ((sel.iff other isIn here).mp isSel)).symm
    have time : ann.time ≤ now := not_lt.mp fun later => early ann mem ⟨.inr best, later⟩
    refine ⟨⟨by rw [best]; decide, time⟩, fun entry mem' here => ?_⟩
    obtain ⟨other, isIn, rfl⟩ := mem_map.mp mem'
    refine ⟨?_, fun ready => ?_⟩
    · rw [isOutstanding_entry, and_eq_false_iff, decide_eq_false_iff_not]
      left
      intro req
      have same := only other isIn here (by simp [isSelected, req])
      rw [same, best] at req
      cases req
    · rw [isReady_entry, and_eq_true, decide_eq_true_iff, decide_eq_true_iff]
        at ready
      rcases State.eq_of_rank_le ready.1 with delayed | isReady | isBest
      · exact absurd ⟨.inr delayed, ready.2⟩ (due other isIn)
      · exact sel.best ann rfl best other isIn here isReady
      · rw [only other isIn here (by simp [isSelected, isBest])]

end

theorem getRequestable_of_setTimePoint {ord : Orders prio} {now : ℤ} {later : TxRequestTracker}
    {expired : List Expired} (moves : setTimePoint ord now trk = .ok (later, expired))
    (peer : NodeId) : trk.getRequestable ord peer now =
      .ok ((ord.bySequence.view later.changes ((later.byPeer ord).filter (isBestFrom peer))).map gtxid,
        expired, later) := by
  have walk : ((fromBound peerKey (toLex (peer, toLex (1, 0)))
      (later.byPeer ord)).takeWhile (isBestFrom peer)) =
      (later.byPeer ord).filter (isBestFrom peer) := by
    refine takeWhile_from_eq_filter (ord.byPeer.sorted _ _) (fun ann _ holds => ?_)
      fun a _ b _ lower upper holds => ?_
    · simp only [and_eq_true, decide_eq_true_iff] at holds
      refine bound_le_peerKey_iff.mpr (.inr ⟨holds.1.symm, ?_⟩)
      simp [holds.2]
    · simp only [and_eq_true, decide_eq_true_iff] at holds ⊢
      have same : a.peer = peer := le_antisymm ((peer_le_of_peerKey_le upper).trans holds.1.le)
        (peer_le_of_bound lower)
      refine ⟨same, ?_⟩
      by_contra notBest
      rw [bound_le_peerKey_iff, same, decide_eq_false notBest] at lower
      simp at lower
  rw [getRequestable, moves, ok_bind]
  simp only
  rw [walk]

theorem getRequestable_spec (ord : Orders prio) (inv : IndexInv prio trk.index)
    (accounted : Accounted trk) (peer : NodeId) (now : ℤ) :
    ∃ expired later, trk.getRequestable ord peer now =
        .ok ((ord.bySequence.view later.changes ((later.byPeer ord).filter (isBestFrom peer))).map
          gtxid, expired, later) ∧ Kept prio trk later ∧
      later.entries = Specification.expire now trk.entries ∧
      expired.Perm (Specification.expired now trk.entries) ∧
      later.index.countP (Announcement.isDue now) = 0 ∧
      later.index.countP (Announcement.isEarly now) = 0 := by
  obtain ⟨later, expired, moves, kept, entries, perm, noneDue, noneEarly⟩ :=
    setTimePoint_spec ord inv accounted now
  exact ⟨expired, later, getRequestable_of_setTimePoint moves peer, kept, entries, perm, noneDue,
    noneEarly⟩

/-! ## Statistics -/

section

theorem countP_partition (idx : List Announcement) (peer : NodeId) : (idx.countP (·.peer = peer)) =
      (idx.countP fun ann => ann.peer = peer && (ann.state = .requested : Bool)) +
        (idx.countP fun ann => ann.peer = peer && (ann.state = .completed : Bool)) +
        idx.countP fun ann => ann.peer = peer && decide (ann.state.rank ≤ 2) := by
  induction idx with
  | nil => rfl
  | cons ann rest ih =>
    simp only [countP_cons, ih]
    by_cases here : ann.peer = peer
    · cases state : ann.state <;> simp [here, State.rank] <;> omega
    · simp [here]

variable (accounted : Accounted trk) (peer : NodeId)

include accounted

theorem peerInfo_getD : (trk.peerInfo peer).getD {} = counted trk.index peer := by
  rw [accounted peer, statistics_getD]

theorem countInFlight_eq : trk.countInFlight peer =
    Specification.countInFlight peer trk.entries := by
  have reads : trk.countInFlight peer = ((trk.peerInfo peer).getD {}).requested := by
    rw [countInFlight]
    cases trk.peerInfo peer <;> rfl
  rw [reads, peerInfo_getD accounted, Specification.countInFlight, entries, countP_map]
  refine countP_congr fun ann _ => ?_
  rw [comp_apply, isRequested_entry]
  rfl

theorem countCandidates_eq : trk.countCandidates peer =
    Specification.countCandidates peer trk.entries := by
  have reads : trk.countCandidates peer = ((trk.peerInfo peer).getD {}).total -
      ((trk.peerInfo peer).getD {}).requested - ((trk.peerInfo peer).getD {}).completed := by
    rw [countCandidates]
    cases trk.peerInfo peer <;> rfl
  have partition := countP_partition trk.index peer
  have candidates : Specification.countCandidates peer trk.entries =
      trk.index.countP fun ann => ann.peer = peer && decide (ann.state.rank ≤ 2) := by
    rw [Specification.countCandidates, entries, countP_map]
    refine countP_congr fun ann _ => ?_
    rw [comp_apply, isCandidate_entry]
    rfl
  rw [reads, peerInfo_getD accounted, candidates]
  dsimp only [counted]
  omega

theorem count_eq : trk.count peer = Specification.count peer trk.entries := by
  have reads : trk.count peer = ((trk.peerInfo peer).getD {}).total := by
    rw [TxRequestTracker.count]
    cases trk.peerInfo peer <;> rfl
  rw [reads, peerInfo_getD accounted, Specification.count, entries, countP_map]
  rfl

end

/-! ## Sequence numbers -/

/-- The announcements stand in the order of their sequence numbers, as long as no more
have been added than there are numbers. -/
def Sequenced (added : ℕ) (trk : TxRequestTracker) : Prop :=
  added ≤ 2 ^ 59 → (trk.index.map Announcement.sequence).Pairwise (· < ·) ∧
    (∀ num ∈ trk.index.map Announcement.sequence, num < trk.currentSequence) ∧
    trk.currentSequence ≤ added

theorem Kept.sequenced {later : TxRequestTracker} (kept : Kept prio trk later) {added : ℕ}
    (sequenced : Sequenced added trk) : Sequenced added later := by
  intro few
  obtain ⟨increasing, below, bound⟩ := sequenced few
  rw [← kept.sequence] at below bound
  exact ⟨increasing.sublist kept.sequences, fun num mem =>
    below num (kept.sequences.subset mem), bound⟩

theorem Sequenced.receivedInv {added : ℕ} (sequenced : Sequenced added trk) (peer : NodeId)
    (gtxid : GenTxid) (pref : Bool) (reqtime : ℤ) :
    Sequenced (added + 1) (trk.receivedInv peer gtxid pref reqtime) := by
  intro few
  obtain ⟨increasing, below, bound⟩ := sequenced (by omega)
  rcases receivedInv_cases trk peer gtxid pref reqtime with ⟨-, same⟩ | ⟨-, same⟩
  · rw [same]
    exact ⟨increasing, below, by omega⟩
  · have num : trk.currentSequence % 2 ^ 59 = trk.currentSequence :=
      Nat.mod_eq_of_lt (by omega)
    have next : (trk.currentSequence + 1) % 2 ^ 64 = trk.currentSequence + 1 :=
      Nat.mod_eq_of_lt (by omega)
    rw [same, num, next]
    simp only [map_append, map_singleton]
    refine ⟨pairwise_append.mpr ⟨increasing, pairwise_singleton _ _, ?_⟩, ?_, by omega⟩
    · intro init mem last isLast
      rw [mem_singleton.mp isLast]
      exact below init mem
    · intro other mem
      rcases mem_append.mp mem with init | isLast
      · exact (below other init).trans (Nat.lt_succ_self _)
      · rw [mem_singleton.mp isLast]
        exact Nat.lt_succ_self _

/-! ## Runs -/

structure Refines (prio : PriorityComputer) (ops : List Operation)
    (trk : TxRequestTracker) : Prop where
  inv : IndexInv prio trk.index
  accounted : Accounted trk
  entries : trk.entries = runSpecification ops []
  sequenced : Sequenced (ops.countP Operation.isReceivedInv) trk

section

variable (ord : Orders prio) (ops : List Operation)

/-- A call. It does not fail, and does what the specification says. -/
theorem apply_spec (inv : IndexInv prio trk.index) (accounted : Accounted trk) (op : Operation) :
    ∃ later, op.apply ord trk = .ok later ∧ IndexInv prio later.index ∧
      Accounted later ∧ later.entries = op.specify trk.entries ∧ ∀ added, Sequenced added trk →
        Sequenced (added + op.isReceivedInv.toNat) later := by
  have of_kept : op.isReceivedInv = false → (∃ later, op.apply ord trk = .ok later ∧
        Kept prio trk later ∧ later.entries = op.specify trk.entries) →
      ∃ later, op.apply ord trk = .ok later ∧ IndexInv prio later.index ∧
        Accounted later ∧ later.entries = op.specify trk.entries ∧ ∀ added, Sequenced added trk →
          Sequenced (added + op.isReceivedInv.toNat) later := by
    rintro other ⟨later, applies, kept, entries⟩
    rw [other]
    exact ⟨later, applies, kept.inv, kept.accounted, entries, fun _ => kept.sequenced⟩
  cases op with
  | receivedInv peer gtxid pref reqtime =>
    obtain ⟨inv', accounted', entries⟩ :=
      receivedInv_spec inv accounted peer gtxid pref reqtime
    exact ⟨_, rfl, inv', accounted', entries, fun added sequenced =>
      sequenced.receivedInv peer gtxid pref reqtime⟩
  | requestedTx peer txhash expiry =>
    exact of_kept rfl (requestedTx_spec ord inv accounted peer txhash expiry)
  | receivedResponse peer txhash =>
    exact of_kept rfl (receivedResponse_spec ord inv accounted peer txhash)
  | forgetTxHash txhash => exact of_kept rfl (forgetTxHash_spec ord inv accounted txhash)
  | disconnectedPeer peer => exact of_kept rfl (disconnectedPeer_spec ord inv accounted peer)
  | getRequestable peer now =>
    obtain ⟨expired, later, answers, kept, entries, -⟩ :=
      getRequestable_spec ord inv accounted peer now
    refine of_kept rfl ⟨later, ?_, kept, entries⟩
    rw [Operation.apply, answers, ok_bind]

theorem runTracker_append (op : Operation) : runTracker ord (ops ++ [op]) trk =
      runTracker ord ops trk >>= op.apply ord := by
  rw [runTracker, foldlM_append]
  simp only [foldlM_cons, foldlM_nil, bind_pure]
  rfl

theorem runSpecification_append (op : Operation) (entries : List Entry) :
    runSpecification (ops ++ [op]) entries = op.specify (runSpecification ops entries) := by
  rw [runSpecification, foldl_append]
  rfl

theorem run_refines : ∃ trk, runTracker ord ops {} = .ok trk ∧ Refines prio ops trk := by
  induction ops using reverseRecOn with
  | nil =>
    refine ⟨{}, rfl, ⟨nodup_nil, ?_, nofun⟩, ?_, rfl, ?_⟩
    · exact fun txhash => ⟨none, nofun, nofun, nofun, nofun⟩
    · exact fun peer => rfl
    · exact fun _ => ⟨Pairwise.nil, nofun, le_rfl⟩
  | append_singleton ops op ih =>
    obtain ⟨trk, runs, refines⟩ := ih
    obtain ⟨later, applies, inv, accounted, entries, sequenced⟩ :=
      apply_spec ord refines.inv refines.accounted op
    refine ⟨later, ?_, inv, accounted, ?_, ?_⟩
    · rw [runTracker_append, runs, ok_bind, applies]
    · rw [entries, refines.entries, runSpecification_append]
    · rw [countP_append, countP_singleton]
      have same : (if op.isReceivedInv = true then 1 else 0) =
          op.isReceivedInv.toNat := by
        cases op.isReceivedInv <;> rfl
      rw [same]
      exact sequenced _ refines.sequenced

end

/-! ## Answers -/

/-- The orders in which announcements with equal keys stand as they were added. -/
def insertionOrders (prio : PriorityComputer) : Orders prio where
  byPeer := .ofInsertion _
  byTxHash := .ofInsertion _
  byTime := .ofInsertion _
  bySequence := .ofInsertion _

/-- Priorities that tell all peers apart. -/
def peerPriority : PriorityComputer := fun _ peer _ => Equiv.intEquivNat peer

theorem peerPriority_injective (txhash : Uint256) (peer : NodeId) (pref : Bool)
    (peer' : NodeId) (preferred' : Bool)
    (same : peerPriority txhash peer pref = peerPriority txhash peer' preferred') : peer = peer' :=
  Equiv.intEquivNat.injective same

section

variable {now : ℤ} {peer : NodeId}

section

variable (injective : ∀ txhash peer pref peer' preferred',
  prio txhash peer pref = prio txhash peer' preferred' → peer = peer')
include injective

theorem map_gtxid_best (inv : IndexInv prio trk.index) (noneDue : trk.index.countP (isDue now) = 0)
    (noneEarly : trk.index.countP (isEarly now) = 0) :
    (trk.index.filter (isBestFrom peer)).map gtxid =
      Specification.requestable prio peer now trk.entries := by
  have same : ∀ ann ∈ trk.index, ann.isBestFrom peer =
      ((fun entry : Entry => entry.peer = peer &&
        Specification.isBest prio now trk.entries entry : Entry → Bool) ∘
          entry) ann := by
    intro ann mem
    have best := isBest_iff injective inv noneDue noneEarly mem
    rw [comp_apply, Bool.eq_iff_iff, and_eq_true, and_eq_true, best,
      decide_eq_true_iff, decide_eq_true_iff, decide_eq_true_iff]
    rfl
  rw [filter_congr same, Specification.requestable]
  conv_rhs => rw [entries, filter_map, map_map]
  rfl

/-- The tracker refines its specification. The answers are in the order of announcement
as long as no more announcements have been received than there are sequence numbers. -/
theorem txRequestTracker_refines (ord : Orders prio) (ops : List Operation) :
    ∃ trk, runTracker ord ops {} = .ok trk ∧ (∀ peer, trk.countInFlight peer =
          Specification.countInFlight peer (runSpecification ops []) ∧ trk.countCandidates peer =
          Specification.countCandidates peer (runSpecification ops []) ∧
        trk.count peer = Specification.count peer (runSpecification ops [])) ∧
      ∀ peer now, ∃ requestable expired later,
        trk.getRequestable ord peer now = .ok (requestable, expired, later) ∧ requestable.Perm
          (Specification.requestable prio peer now (runSpecification ops [])) ∧
        (ops.countP Operation.isReceivedInv ≤ 2 ^ 59 → requestable =
          Specification.requestable prio peer now (runSpecification ops [])) ∧
        expired.Perm (Specification.expired now (runSpecification ops [])) := by
  obtain ⟨trk, runs, refines⟩ := run_refines ord ops
  refine ⟨trk, runs, fun peer => ?_, fun peer now => ?_⟩
  · rw [← refines.entries]
    exact ⟨countInFlight_eq refines.accounted peer, countCandidates_eq refines.accounted peer,
      count_eq refines.accounted peer⟩
  · obtain ⟨expired, later, answers, kept, entries, perm, noneDue, noneEarly⟩ :=
      getRequestable_spec ord refines.inv refines.accounted peer now
    have best : (later.index.filter (isBestFrom peer)).map gtxid =
        Specification.requestable prio peer now (runSpecification ops []) := by
      rw [map_gtxid_best injective kept.inv noneDue noneEarly, entries,
        Specification.requestable_expire, refines.entries]
    have members : ((later.byPeer ord).filter (isBestFrom peer)).Perm
        (later.index.filter (isBestFrom peer)) :=
      (ord.byPeer.perm _ _).filter _
    refine ⟨_, expired, later, answers, ?_, fun few => ?_, refines.entries ▸ perm⟩
    · rw [← best]
      exact ((ord.bySequence.perm _ _).trans members).map _
    · obtain ⟨increasing, -⟩ := kept.sequenced refines.sequenced few
      have strict := (pairwise_map.mp increasing).sublist
        (filter_sublist (p := isBestFrom peer))
      rw [ord.bySequence.view_eq_of_perm _ members strict, best]

end

theorem txRequestTracker_refines_announced : ∃ trk,
    runTracker (insertionOrders peerPriority) [.receivedInv 7 ⟨true, 1⟩ true 5] {} = .ok trk ∧
      ∃ expired later, trk.getRequestable (insertionOrders peerPriority) 7 5 =
        .ok ([⟨true, 1⟩], expired, later) := by
  obtain ⟨trk, runs, -, answers⟩ := txRequestTracker_refines peerPriority_injective
    (insertionOrders peerPriority) [.receivedInv 7 ⟨true, 1⟩ true 5]
  obtain ⟨requestable, expired, later, answer, -, order, -⟩ := answers 7 5
  refine ⟨trk, runs, expired, later, ?_⟩
  rw [answer, order (by simp [Operation.isReceivedInv])]
  rfl

end

/-! ## Sequence numbers that are used up -/

/-- A transaction is announced and forgotten, again and again. -/
def announceAndForget (rounds : ℕ) : List Operation :=
  (List.replicate rounds [.receivedInv 0 ⟨false, 0⟩ true 0, .forgetTxHash 0]).flatten

theorem run_announceAndForget (rounds seq changes : ℕ) (fits : seq + rounds < 2 ^ 64) :
    runTracker (insertionOrders peerPriority) (announceAndForget rounds)
        { currentSequence := seq, changes := changes } =
      .ok { currentSequence := seq + rounds, changes := changes + 2 * rounds } := by
  induction rounds generalizing seq changes with
  | zero => rfl
  | succ rounds ih =>
    have erased : ∀ ann : Announcement, [] = removeElem ann [ann] := by
      intro ann
      simp [removeElem]
    have forgotten : (fun _ => none : NodeId → Option PeerInfo) = update
        (update (fun _ => none) 0 (some { total := 1 })) 0 none := by
      rw [update_idem, eq_comm, update_eq_self_iff]
    have step : runTracker (insertionOrders peerPriority)
        [.receivedInv 0 ⟨false, 0⟩ true 0, .forgetTxHash 0]
        { currentSequence := seq, changes := changes } =
        .ok { currentSequence := (seq + 1) % 2 ^ 64, changes := changes + 1 + 1 } := by
      conv_rhs => rw [forgotten, erased { gtxid := ⟨false, 0⟩, peer := 0, preferred := true,
                                          time := 0, sequence := seq % 2 ^ 59 }]
      rfl
    rw [announceAndForget, replicate_succ, flatten_cons, runTracker, foldlM_append,
      ← runTracker, step, Nat.mod_eq_of_lt (by omega), ← announceAndForget]
    exact (ih (seq + 1) (changes + 1 + 1) (by omega)).trans (by congr 2 <;> omega)

/-- The first announcement gets the last sequence number, and the second one the first. -/
def wrappingRun : List Operation :=
  announceAndForget (2 ^ 59 - 1) ++ [.receivedInv 0 ⟨false, 1⟩ true 0] ++
    [.receivedInv 0 ⟨false, 2⟩ true 0]

/-- Two transactions are announced one after the other, and are to be requested the other
way round. -/
theorem getRequestable_order_wraps : ∃ trk expired later,
    runTracker (insertionOrders peerPriority) wrappingRun {} = .ok trk ∧
      trk.getRequestable (insertionOrders peerPriority) 0 0 =
        .ok ([⟨false, 2⟩, ⟨false, 1⟩], expired, later) ∧
      Specification.requestable peerPriority 0 0 (runSpecification wrappingRun []) =
        [⟨false, 1⟩, ⟨false, 2⟩] := by
  have runs := run_announceAndForget (2 ^ 59 - 1) 0 0 (by omega)
  obtain ⟨trk, runs', refines⟩ := run_refines (insertionOrders peerPriority)
    (announceAndForget (2 ^ 59 - 1))
  have announced : runTracker (insertionOrders peerPriority) wrappingRun {} = .ok
      ((({ currentSequence := 0 + (2 ^ 59 - 1), changes := 0 + 2 * (2 ^ 59 - 1) } :
        TxRequestTracker).receivedInv 0 ⟨false, 1⟩ true 0).receivedInv 0 ⟨false, 2⟩ true 0) := by
    rw [wrappingRun, runTracker_append, runTracker_append, runs, ok_bind]
    rfl
  obtain rfl := Except.ok.inj (runs.symm.trans runs')
  refine ⟨_, _, _, announced, rfl, ?_⟩
  rw [wrappingRun, runSpecification_append, runSpecification_append, ← refines.entries]
  rfl

end BitcoinCore.TxRequest
