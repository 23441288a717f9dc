import BitcoinCore.TxRequest.Specification

/-!
# Invariants of the request tracker

At most one announcement of a hash is selected, one is if any is ready, and a best
announcement has at least the priority of the ready ones (`Selection`). Every hash
has an announcement that is not completed. The statistics of the peers are those of
the index (`Accounted`): a change of an announcement succeeds and keeps them
(`Accounted.modify`, `Accounted.erase`).
-/

namespace BitcoinCore.TxRequest

open CheckedAccess ElementUpdate SortedList Function
open Net (NodeId)

/-! ## Announcements -/

namespace Announcement

section

variable (state : State) (ann : Announcement)

@[simp, grind =] theorem setState_state : (ann.setState state).state = state := rfl

@[simp, grind =] theorem setState_gtxid : (ann.setState state).gtxid = ann.gtxid := rfl

@[simp, grind =] theorem setState_txHash : (ann.setState state).txHash = ann.txHash := rfl

@[simp, grind =] theorem setState_peer : (ann.setState state).peer = ann.peer := rfl

@[simp, grind =] theorem setState_time : (ann.setState state).time = ann.time := rfl

@[simp, grind =] theorem setState_sequence : (ann.setState state).sequence = ann.sequence := rfl

@[simp, grind =] theorem setState_priority (prio : PriorityComputer) :
    (ann.setState state).priority prio = ann.priority prio := rfl

end

def identity (ann : Announcement) : NodeId × Uint256 := (ann.peer, ann.txHash)

def entry (ann : Announcement) : Entry where
  gtxid := ann.gtxid
  peer := ann.peer
  preferred := ann.preferred
  status :=
    match ann.state with
    | .candidateDelayed | .candidateReady | .candidateBest => .candidate ann.time
    | .requested => .requested ann.time
    | .completed => .completed

section

variable (ann : Announcement)

@[simp] theorem entry_peer : ann.entry.peer = ann.peer := rfl

@[simp] theorem entry_gtxid : ann.entry.gtxid = ann.gtxid := rfl

@[simp] theorem entry_txHash : ann.entry.txHash = ann.txHash := rfl

@[simp] theorem isRequested_entry : ann.entry.isRequested = (ann.state = .requested : Bool) := by
  rcases ann with ⟨_, _, _, _, _, state⟩
  cases state <;> rfl

@[simp] theorem isCandidate_entry : ann.entry.isCandidate = decide (ann.state.rank ≤ 2) := by
  rcases ann with ⟨_, _, _, _, _, state⟩
  cases state <;> rfl

end

/-- Candidates are not told apart by the specification. -/
theorem entry_setState {ann : Announcement} {state : State}
    (before : ann.state.rank ≤ 2) (after : state.rank ≤ 2) :
    (ann.setState state).entry = ann.entry := by
  rcases ann with ⟨gtxid, time, peer, sequence, preferred, old⟩
  cases old <;> cases state <;> first | rfl | simp [State.rank] at before after

end Announcement

def TxRequestTracker.entries (trk : TxRequestTracker) : List Entry :=
  trk.index.map Announcement.entry

/-! ## Selection -/

structure Selection (prio : PriorityComputer) (index : List Announcement) (txhash : Uint256)
    (sel : Option Announcement) : Prop where
  mem : ∀ ann, sel = some ann → ann ∈ index ∧ ann.txHash = txhash
  iff : ∀ ann ∈ index, ann.txHash = txhash → (ann.isSelected ↔ sel = some ann)
  notReady : sel = none → ∀ ann ∈ index, ann.txHash = txhash → ann.state ≠ .candidateReady
  best : ∀ best, sel = some best → best.state = .candidateBest →
    ∀ ann ∈ index, ann.txHash = txhash → ann.state = .candidateReady →
      ann.priority prio ≤ best.priority prio

structure IndexInv (prio : PriorityComputer) (index : List Announcement) : Prop where
  unique : (index.map Announcement.identity).Nodup
  selection : ∀ txhash, ∃ sel, Selection prio index txhash sel
  tracked : ∀ ann ∈ index, ∃ other ∈ index, other.txHash = ann.txHash ∧ other.state ≠ .completed

variable {prio : PriorityComputer} {index : List Announcement}

theorem IndexInv.nodup (inv : IndexInv prio index) : index.Nodup :=
  inv.unique.of_map _

section

variable (unique : (index.map Announcement.identity).Nodup)
include unique

theorem eq_of_identity_eq {ann other : Announcement} (member : ann ∈ index) (mem' : other ∈ index)
    (peer : ann.peer = other.peer) (txHash : ann.txHash = other.txHash) : ann = other :=
  List.inj_on_of_nodup_map unique member mem' (Prod.ext peer txHash)

theorem setState_not_mem {ann : Announcement}
    (member : ann ∈ index) {state : State} (other : state ≠ ann.state) :
    ann.setState state ∉ index := by
  intro mem'
  have same := eq_of_identity_eq unique mem' member rfl rfl
  exact other (congrArg Announcement.state same)

theorem unique_replaceElem (ann new : Announcement) (peer : new.peer = ann.peer)
    (txHash : new.txHash = ann.txHash) :
    ((replaceElem ann new index).map Announcement.identity).Nodup := by
  rw [map_replaceElem (Prod.ext peer txHash)]
  exact unique

theorem unique_filter (condition : Announcement → Bool) :
    ((index.filter condition).map Announcement.identity).Nodup :=
  (List.filter_sublist.map Announcement.identity).nodup unique

end

/-- The invariant is a matter of each hash alone. -/
theorem IndexInv.of_hash {later : List Announcement} (inv : IndexInv prio index) (txhash : Uint256)
    (unique : (later.map Announcement.identity).Nodup)
    (others : ∀ ann, ann.txHash ≠ txhash → (ann ∈ later ↔ ann ∈ index))
    (selection : ∃ sel, Selection prio later txhash sel)
    (tracked : ∀ ann ∈ later, ann.txHash = txhash →
      ∃ other ∈ later, other.txHash = txhash ∧ other.state ≠ .completed) : IndexInv prio later := by
  refine ⟨unique, fun hash => ?_, fun ann member => ?_⟩
  · rcases eq_or_ne hash txhash with rfl | apart
    · exact selection
    · obtain ⟨sel, mem, iff, notReady, best⟩ := inv.selection hash
      refine ⟨sel, ⟨fun ann is => ?_, fun ann member here => ?_, fun none ann member here => ?_,
        fun best' is isBest ann member here => ?_⟩⟩
      · obtain ⟨member, here⟩ := mem ann is
        exact ⟨(others ann (here ▸ apart)).mpr member, here⟩
      · exact iff ann ((others ann (here ▸ apart)).mp member) here
      · exact notReady none ann ((others ann (here ▸ apart)).mp member) here
      · exact best best' is isBest ann ((others ann (here ▸ apart)).mp member) here
  · rcases eq_or_ne ann.txHash txhash with here | apart
    · rw [here]
      exact tracked ann member here
    · obtain ⟨other, mem', same, open'⟩ := inv.tracked ann ((others ann apart).mp member)
      exact ⟨other, (others other (same ▸ apart)).mpr mem', same, open'⟩

/-! ## Statistics -/

/-- The counts of a peer's announcements. -/
def counted (index : List Announcement) (peer : NodeId) : PeerInfo where
  total := index.countP (·.peer = peer)
  completed := index.countP fun ann => ann.peer = peer && ann.state = .completed
  requested := index.countP fun ann => ann.peer = peer && ann.state = .requested

/-- The statistics of a peer, if it has announcements. -/
def statistics (index : List Announcement) (peer : NodeId) : Option PeerInfo :=
  if (counted index peer).total = 0 then none else some (counted index peer)

def Accounted (trk : TxRequestTracker) : Prop :=
  ∀ peer, trk.peerInfo peer = statistics trk.index peer

/-- The tracker has a new index, and its statistics are up to date. -/
structure Became (trk later : TxRequestTracker) (index : List Announcement) : Prop where
  index : later.index = index
  sequence : later.currentSequence = trk.currentSequence
  accounted : Accounted later

theorem statistics_perm {later : List Announcement} (perm : later.Perm index) :
    statistics later = statistics index := by
  have same : counted later = counted index := funext fun peer => by
    simp only [counted, perm.countP_eq]
  funext peer
  rw [statistics, statistics, same]

theorem statistics_getD (index : List Announcement) (peer : NodeId) :
    (statistics index peer).getD {} = counted index peer := by
  rw [statistics]
  split
  case isTrue none =>
    have nobody (condition : Announcement → Bool) :
        index.countP (fun ann => ann.peer = peer && condition ann) = 0 :=
      List.countP_eq_zero.mpr fun ann mem both =>
        List.countP_eq_zero.mp none ann mem (Bool.and_eq_true_iff.mp both).1
    have total : index.countP (·.peer = peer) = 0 := none
    simp only [Option.getD_none, counted, nobody, total]
  case isFalse => rfl

section

variable (ann : Announcement) (rest : List Announcement)

theorem statistics_cons_self : statistics (ann :: rest) ann.peer = some
    ({ counted rest ann.peer with total := (counted rest ann.peer).total + 1 }.record ann) := by
  simp [statistics, counted, PeerInfo.record, List.countP_cons, Bool.toNat, Bool.cond_eq_ite]

theorem statistics_cons_of_ne {peer : NodeId} (apart : ann.peer ≠ peer) :
    statistics (ann :: rest) peer = statistics rest peer := by
  simp [statistics, counted, apart]

end

section

variable {trk : TxRequestTracker} {it : Announcement} (accounted : Accounted trk)
  (nodup : trk.index.Nodup) (member : it ∈ trk.index)
include accounted nodup member

theorem Accounted.modify (modifier : Announcement → Announcement)
    (peer : (modifier it).peer = it.peer) : ∃ later, trk.modify it modifier = .ok later ∧
      Became trk later (replaceElem it (modifier it) trk.index) := by
  have before := statistics_perm (perm_cons_removeElem nodup member)
  have info := (accounted it.peer).trans ((congrFun before _).trans (statistics_cons_self it _))
  rw [TxRequestTracker.modify, info]
  refine ⟨_, rfl, rfl, rfl, fun other => ?_⟩
  show update trk.peerInfo it.peer _ other = statistics (replaceElem it (modifier it) trk.index) other
  rw [statistics_perm (perm_replaceElem (modifier it) nodup member)]
  rcases eq_or_ne other it.peer with rfl | apart
  · rw [update_self, ← peer, statistics_cons_self, peer]
    simp [PeerInfo.record, PeerInfo.discount]
  · rw [update_of_ne apart, accounted other, before, statistics_cons_of_ne _ _ apart.symm,
      statistics_cons_of_ne _ _ (peer.trans_ne apart.symm)]

theorem Accounted.erase : ∃ later, trk.erase it = .ok later ∧
      Became trk later (removeElem it trk.index) := by
  have before := statistics_perm (perm_cons_removeElem nodup member)
  have info := (accounted it.peer).trans ((congrFun before _).trans (statistics_cons_self it _))
  rw [TxRequestTracker.erase, info]
  refine ⟨_, rfl, rfl, rfl, fun other => ?_⟩
  show update trk.peerInfo it.peer _ other = statistics (removeElem it trk.index) other
  rcases eq_or_ne other it.peer with rfl | apart
  · rw [update_self]
    simp [statistics, PeerInfo.record, PeerInfo.discount]
  · rw [update_of_ne apart, accounted other, before, statistics_cons_of_ne _ _ apart.symm]

end

end BitcoinCore.TxRequest
