import BitcoinCore.TxRequest.Refinement

/-!
# The sanity checks of the request tracker

The source checks the tracker against statistics that are recomputed from the index. After every
run of calls both checks pass: the one of every moment and the one of the moments when time has
just been moved (`txRequestTracker_sane`).
-/

namespace BitcoinCore.TxRequest

open TxRequestTracker List Announcement
open Net (NodeId)

variable {prio : PriorityComputer} {trk : TxRequestTracker}

/-! ## The source -/

structure TxHashInfo where
  candidateDelayed : ℕ
  candidateReady : ℕ
  candidateBest : ℕ
  requested : ℕ
  priorityCandidateBest : ℕ
  priorityBestCandidateReady : ℕ
  peers : List NodeId

def computeTxHashInfo (prio : PriorityComputer) (idx : List Announcement) (txhash : Uint256) :
    TxHashInfo :=
  let group := idx.filter (·.txHash = txhash)
  { candidateDelayed := group.countP (·.state = .candidateDelayed)
    candidateReady := group.countP (·.state = .candidateReady)
    candidateBest := group.countP (·.state = .candidateBest)
    requested := group.countP (·.state = .requested)
    -- Later announcements overwrite the priority of earlier ones.
    priorityCandidateBest := group.foldl (fun priority ann =>
      if ann.state = .candidateBest then ann.priority prio else priority) (2 ^ 64 - 1)
    priorityBestCandidateReady := group.foldl (fun priority ann =>
      if ann.state = .candidateReady then max priority (ann.priority prio) else priority) 0
    peers := group.map peer }

/-- The assertions about a hash. -/
structure TxHashInfo.Checked (info : TxHashInfo) : Prop where
  notOnlyCompleted :
    0 < info.candidateDelayed + info.candidateReady + info.candidateBest + info.requested
  selected_le : info.candidateBest + info.requested ≤ 1
  selected_of_ready : 0 < info.candidateReady → info.candidateBest + info.requested = 1
  priority_le : 0 < info.candidateReady → 0 < info.candidateBest →
    info.priorityBestCandidateReady ≤ info.priorityCandidateBest
  peers_nodup : info.peers.Nodup

/-- The assertions about a tracker, with the statistics of the peers recomputed. -/
structure SanityCheck (prio : PriorityComputer) (trk : TxRequestTracker) : Prop where
  peerInfo : trk.peerInfo = statistics trk.index
  txHashInfo : ∀ ann ∈ trk.index, (computeTxHashInfo prio trk.index ann.txHash).Checked

def postGetRequestableSanityCheck (now : ℤ) (trk : TxRequestTracker) : Bool :=
  trk.index.all fun ann =>
    if ann.isWaiting then now < ann.time else if ann.isSelectable then ann.time ≤ now else true

/-! ## The checks pass -/

variable {group : List Announcement}

theorem foldl_best_ge {bound start : ℕ}
    (some : start < bound → ∃ ann ∈ group, ann.state = .candidateBest)
    (all : ∀ ann ∈ group, ann.state = .candidateBest → bound ≤ ann.priority prio) :
    bound ≤ group.foldl (fun priority ann =>
      if ann.state = .candidateBest then ann.priority prio else priority) start := by
  induction group generalizing start with
  | nil => exact not_lt.mp fun less => by simpa using some less
  | cons ann rest ih =>
    rw [foldl_cons]
    apply ih _ fun other mem => all other (mem_cons_of_mem _ mem)
    split_ifs with isBest
    · exact fun less => absurd less (all ann mem_cons_self isBest).not_gt
    · intro less
      obtain ⟨other, mem, best⟩ := some less
      refine ⟨other, (mem_cons.mp mem).resolve_left ?_, best⟩
      rintro rfl
      exact isBest best

theorem foldl_ready_le {bound start : ℕ} (low : start ≤ bound)
    (all : ∀ ann ∈ group, ann.state = .candidateReady → ann.priority prio ≤ bound) :
    group.foldl (fun priority ann =>
      if ann.state = .candidateReady then max priority (ann.priority prio) else priority)
        start ≤ bound := by
  induction group generalizing start with
  | nil => exact low
  | cons ann rest ih =>
    rw [foldl_cons]
    apply ih _ fun other mem => all other (mem_cons_of_mem _ mem)
    split_ifs with ready
    · exact max_le low (all ann mem_cons_self ready)
    · exact low

theorem countP_isSelected (group : List Announcement) : group.countP isSelected =
    group.countP (·.state = .candidateBest) + group.countP (·.state = .requested) := by
  induction group with
  | nil => rfl
  | cons ann rest ih =>
    obtain ⟨_, _, _, _, _, state⟩ := ann
    simp only [countP_cons, ih, isSelected]
    cases state <;> simp <;> omega

variable {idx : List Announcement}

theorem Selection.countP_group {txhash : Uint256}
    {sel : Option Announcement} (chosen : Selection prio idx txhash sel) (nodup : idx.Nodup) :
    (idx.filter (·.txHash = txhash)).countP isSelected = sel.isSome.toNat := by
  have same : (idx.filter (·.txHash = txhash)).countP isSelected =
      (idx.filter (·.txHash = txhash)).countP fun ann => sel = some ann := by
    apply countP_congr
    intro ann mem
    obtain ⟨mem, here⟩ := mem_filter.mp mem
    rw [chosen.iff ann mem (of_decide_eq_true here), decide_eq_true_iff]
  rw [same]
  cases sel with
  | none => simp
  | some ann =>
    obtain ⟨mem, here⟩ := chosen.mem ann rfl
    have once := count_eq_one_of_mem (nodup.filter fun ann => decide (ann.txHash = txhash))
      (mem_filter.mpr ⟨mem, decide_eq_true here⟩)
    rw [Option.isSome_some, Bool.toNat_true, ← once, List.count]
    apply countP_congr
    intro other _
    rw [decide_eq_true_iff, beq_iff_eq, Option.some_inj, eq_comm]

theorem IndexInv.checked (inv : IndexInv prio idx) {ann : Announcement} (mem : ann ∈ idx) :
    (computeTxHashInfo prio idx ann.txHash).Checked := by
  obtain ⟨sel, chosen⟩ := inv.selection ann.txHash
  have count := chosen.countP_group inv.nodup
  rw [countP_isSelected] at count
  have group : ∀ other, other ∈ idx.filter (·.txHash = ann.txHash) ↔
      other ∈ idx ∧ other.txHash = ann.txHash := by simp
  constructor
  · obtain ⟨other, member', same, notCompleted⟩ := inv.tracked ann mem
    have counted : 0 < (idx.filter (·.txHash = ann.txHash)).countP
        (·.state = other.state) :=
      countP_pos_iff.mpr ⟨other, (group other).mpr ⟨member', same⟩, decide_eq_true rfl⟩
    simp only [computeTxHashInfo]
    cases state : other.state with
    | completed => exact absurd state notCompleted
    | _ =>
      rw [state] at counted
      omega
  · exact count.trans_le (Bool.toNat_le _)
  · intro ready
    obtain ⟨other, member', ready⟩ := countP_pos_iff.mp ready
    obtain ⟨member', same⟩ := (group other).mp member'
    refine count.trans ?_
    cases sel with
    | none => exact absurd (of_decide_eq_true ready) (chosen.notReady rfl other member' same)
    | some _ => rfl
  · intro _ isBest
    obtain ⟨best, bestMember, isBest⟩ := countP_pos_iff.mp isBest
    apply foldl_best_ge
    · exact fun _ => ⟨best, bestMember, of_decide_eq_true isBest⟩
    · intro other member' isBest
      obtain ⟨member', here⟩ := (group other).mp member'
      have isSelected := (chosen.iff other member' here).mp (by simp [isSelected, isBest])
      apply foldl_ready_le (Nat.zero_le _)
      intro ready readyMember isReady
      obtain ⟨readyMember, same⟩ := (group ready).mp readyMember
      exact chosen.best other isSelected isBest ready readyMember same isReady
  · refine (inv.nodup.filter _).map_on fun first firstMember second secondMember same => ?_
    obtain ⟨firstMember, firstHere⟩ := (group first).mp firstMember
    obtain ⟨secondMember, secondHere⟩ := (group second).mp secondMember
    exact eq_of_identity_eq inv.unique firstMember secondMember same
      (firstHere.trans secondHere.symm)

theorem IndexInv.sanityCheck (inv : IndexInv prio trk.index) (accounted : Accounted trk) :
    SanityCheck prio trk :=
  ⟨funext accounted, fun _ => inv.checked⟩

/-- The sanity checks pass after every run of calls. No assertion fails and no loop runs on
in any call; afterwards the tracker passes its check, and after a further `getRequestable`, at
whatever time, it also passes the check that goes with it. -/
theorem txRequestTracker_sane (ord : Orders prio) (operations : List Operation) :
    ∃ trk, runTracker ord operations {} = .ok trk ∧ SanityCheck prio trk ∧
      ∀ peer now, ∃ requestable expired later,
        trk.getRequestable ord peer now = .ok (requestable, expired, later) ∧
        SanityCheck prio later ∧ postGetRequestableSanityCheck now later := by
  obtain ⟨trk, runs, refines⟩ := run_refines ord operations
  refine ⟨trk, runs, refines.inv.sanityCheck refines.accounted, fun peer now => ?_⟩
  obtain ⟨expired, later, answers, kept, -, -, noneDue, noneEarly⟩ :=
    getRequestable_spec ord refines.inv refines.accounted peer now
  refine ⟨_, expired, later, answers, kept.inv.sanityCheck kept.accounted, ?_⟩
  rw [postGetRequestableSanityCheck, all_eq_true]
  intro ann mem
  have due := countP_eq_zero.mp noneDue ann mem
  have early := countP_eq_zero.mp noneEarly ann mem
  simp only [isDue, isEarly, Bool.and_eq_true, decide_eq_true_iff,
    not_and, not_le, not_lt] at due early
  split_ifs with waiting selectable
  · exact decide_eq_true (due waiting)
  · exact decide_eq_true (early selectable)
  · rfl

end BitcoinCore.TxRequest
