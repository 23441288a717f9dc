import BitcoinCore.TxRequest.Invariant

/-!
# Selecting the next best announcement

The index by hash is sorted by hash, state and, for ready announcements, priority. So
what follows a ready announcement tells whether another one of its hash is selected,
and what precedes a selected one is the best of the ready ones. The transitions
that rely on this keep the invariant of the index.
-/

namespace BitcoinCore.TxRequest

open CheckedAccess ElementUpdate SortedList Announcement
open Net (NodeId)

variable {prio : PriorityComputer}

/-! ## The order of the index by hash -/

namespace Announcement

variable {a b c : Announcement}

theorem txHashKey_le_iff : a.txHashKey prio ≤ b.txHashKey prio ↔
    a.txHash.toNat < b.txHash.toNat ∨ a.txHash = b.txHash ∧
      (a.state.rank < b.state.rank ∨ a.state.rank = b.state.rank ∧
        (if a.state = .candidateReady then a.priority prio else 0) ≤
          if b.state = .candidateReady then b.priority prio else 0) := by
  rw [txHashKey, txHashKey, Prod.Lex.toLex_le_toLex, Prod.Lex.toLex_le_toLex, BitVec.toNat_inj]

theorem bound_le_txHashKey_iff {txhash : Uint256} {rank : ℕ} :
    toLex (txhash.toNat, toLex (rank, 0)) ≤ a.txHashKey prio ↔
      txhash.toNat < a.txHash.toNat ∨ txhash = a.txHash ∧ rank ≤ a.state.rank := by
  rw [txHashKey, Prod.Lex.toLex_le_toLex, Prod.Lex.toLex_le_toLex, BitVec.toNat_inj,
    le_iff_lt_or_eq (a := rank), and_iff_left (Nat.zero_le _)]

theorem txHash_between (lower : a.txHashKey prio ≤ b.txHashKey prio)
    (upper : b.txHashKey prio ≤ c.txHashKey prio) (same : a.txHash = c.txHash) :
    b.txHash = a.txHash ∧ a.state.rank ≤ b.state.rank ∧ b.state.rank ≤ c.state.rank := by
  rw [txHashKey_le_iff] at lower upper
  rcases lower with less | ⟨here, order⟩
  · rcases upper with less' | ⟨here', -⟩
    · rw [same] at less
      omega
    · rw [same, here'] at less
      omega
  · rcases upper with less' | ⟨-, order'⟩
    · rw [← here, same] at less'
      omega
    · exact ⟨here.symm, by omega, by omega⟩

theorem txHash_of_bound {txhash : Uint256} {rank : ℕ}
    (lower : toLex (txhash.toNat, toLex (rank, 0)) ≤ a.txHashKey prio)
    (upper : a.txHashKey prio ≤ b.txHashKey prio) (here : b.txHash = txhash) :
    a.txHash = txhash ∧ rank ≤ a.state.rank ∧ a.state.rank ≤ b.state.rank := by
  rw [bound_le_txHashKey_iff] at lower
  rw [txHashKey_le_iff, here] at upper
  rcases lower with less | ⟨same, bound⟩
  · rcases upper with less' | ⟨same, -⟩
    · omega
    · rw [same] at less
      omega
  · rcases upper with less' | ⟨-, order⟩
    · rw [← same] at less'
      omega
    · exact ⟨same.symm, bound, by omega⟩

theorem rank_le_of_txHashKey_le (lower : a.txHashKey prio ≤ b.txHashKey prio)
    (same : a.txHash = b.txHash) : a.state.rank ≤ b.state.rank :=
  (txHash_between lower le_rfl same).2.1

theorem priority_le_of_txHashKey_le (lower : a.txHashKey prio ≤ b.txHashKey prio)
    (same : a.txHash = b.txHash) (ready : a.state = .candidateReady)
    (ready' : b.state = .candidateReady) : a.priority prio ≤ b.priority prio := by
  rw [txHashKey_le_iff, same, ready, ready'] at lower
  rcases lower with less | ⟨-, less | ⟨-, order⟩⟩
  · exact absurd less (lt_irrefl _)
  · exact absurd less (lt_irrefl _)
  · exact order

theorem isSelected_iff_rank : a.isSelected ↔ a.state.rank = 2 ∨ a.state.rank = 3 := by
  rcases a with ⟨_, _, _, _, _, state⟩
  cases state <;> simp [isSelected, State.rank]

end Announcement

theorem State.eq_of_rank_eq {state state' : State} (same : state.rank = state'.rank) :
    state = state' := by
  cases state <;> cases state' <;> first | rfl | cases same

variable {state : State}

theorem State.eq_of_rank_le (candidate : state.rank ≤ 2) :
    state = .candidateDelayed ∨ state = .candidateReady ∨ state = .candidateBest := by
  cases state <;> simp [rank] at candidate ⊢

theorem State.eq_completed_of_rank_le
    (last : State.completed.rank ≤ state.rank) : state = .completed := by
  cases state <;> first | rfl | simp [rank] at last

/-! ## Outlines -/

namespace Announcement

/-- An announcement, without telling ready ones and best ones apart. -/
def outline (ann : Announcement) : Announcement :=
  if ann.state = .candidateBest then ann.setState .candidateReady else ann

section

variable (ann : Announcement)

@[simp] theorem identity_outline : ann.outline.identity = ann.identity := by
  rw [outline]
  split <;> rfl

@[simp] theorem sequence_outline : ann.outline.sequence = ann.sequence := by
  rw [outline]
  split <;> rfl

@[simp] theorem entry_outline : ann.outline.entry = ann.entry := by
  rw [outline]
  split
  case isTrue best => exact entry_setState (by rw [best]; decide) (by decide)
  case isFalse => rfl

end

theorem outline_setState_candidateBest (ann : Announcement) :
    (ann.setState .candidateBest).outline = (ann.setState .candidateReady).outline := rfl

theorem outline_select {ann : Announcement} (ready : ann.state = .candidateReady) :
    (ann.setState .candidateBest).outline = ann.outline := by
  rcases ann with ⟨_, _, _, _, _, state⟩
  cases ready
  rfl

theorem outline_unselect {ann : Announcement} (best : ann.state = .candidateBest) :
    (ann.setState .candidateReady).outline = ann.outline := by
  rcases ann with ⟨_, _, _, _, _, state⟩
  cases best
  rfl

end Announcement

theorem map_eq_of_outline {β : Type*} {later idx : List Announcement}
    (same : later.map outline = idx.map outline)
    {f : Announcement → β} (shown : ∀ ann, f ann.outline = f ann) : later.map f = idx.map f := by
  have maps : ∀ list : List Announcement, (list.map outline).map f = list.map f := by
    intro list
    rw [List.map_map]
    exact List.map_congr_left fun ann _ => shown ann
  rw [← maps, same, maps]

theorem eq_of_outline {ann settled : Announcement} (outline : ann.outline = settled.outline)
    (isSettled : settled.isSelectable = false) : ann = settled := by
  simp only [Announcement.isSelectable, Bool.or_eq_false_iff, decide_eq_false_iff_not] at isSettled
  have self : settled.outline = settled := if_neg isSettled.2
  rw [self, Announcement.outline] at outline
  split at outline
  case isTrue =>
    rw [← outline] at isSettled
    exact absurd rfl isSettled.1
  case isFalse => exact outline

/-- The tracker has the index, up to which of the ready announcements are the best. Only
announcements of one hash have changed. -/
structure Reselected (prio : PriorityComputer) (txhash : Uint256)
    (trk later : TxRequestTracker) (idx : List Announcement) : Prop where
  others : ∀ ann, ann.txHash ≠ txhash → (ann ∈ later.index ↔ ann ∈ trk.index)
  outline : later.index.map Announcement.outline = idx.map Announcement.outline
  sequence : later.currentSequence = trk.currentSequence
  inv : IndexInv prio later.index
  accounted : Accounted later

/-! ## Changing the selection -/

section

attribute [local grind =] Announcement.isSelected

variable {idx : List Announcement} {it : Announcement}
  {sel : Announcement}

theorem Selection.ready_behind
    (chosen : Selection prio idx it.txHash (some sel)) (member : it ∈ idx)
    (delayed : it.state = .candidateDelayed) (behind : sel.state = .candidateBest →
      it.priority prio ≤ sel.priority prio) :
    Selection prio (replaceElem it (it.setState .candidateReady) idx) it.txHash (some sel) := by
  obtain ⟨mem, iff, notReady, best⟩ := chosen
  have apart : sel ≠ it := by
    rintro rfl
    have := (iff sel member rfl).mpr rfl
    simp [isSelected, delayed] at this
  constructor <;> grind

theorem Selection.best_of_none (chosen : Selection prio idx it.txHash none) (member : it ∈ idx) :
    Selection prio (replaceElem it (it.setState .candidateBest) idx) it.txHash
      (some (it.setState .candidateBest)) := by
  obtain ⟨mem, iff, notReady, best⟩ := chosen
  constructor <;> grind

/-- A delayed announcement becomes ready, and the best in the place of another one. -/
theorem Selection.best_over (chosen : Selection prio idx it.txHash (some sel)) (member : it ∈ idx)
    (absent : it.setState .candidateReady ∉ idx) (isBest : sel.state = .candidateBest)
    (higher : sel.priority prio < it.priority prio) : Selection prio
      (replaceElem (it.setState .candidateReady) (it.setState .candidateBest)
        (replaceElem sel (sel.setState .candidateReady)
          (replaceElem it (it.setState .candidateReady) idx)))
      it.txHash (some (it.setState .candidateBest)) := by
  obtain ⟨mem, iff, notReady, best⟩ := chosen
  constructor <;> grind

theorem Selection.reselect (chosen : Selection prio idx it.txHash (some it))
    {ready : Announcement} (member : ready ∈ idx) (here : ready.txHash = it.txHash)
    (absent : ready.setState .candidateBest ∉ idx)
    (highest : ∀ ann ∈ idx, ann.txHash = it.txHash → ann.state = .candidateReady →
      ann.priority prio ≤ ready.priority prio) (released : (it.setState state).isSelected = false)
    (notReady : state ≠ .candidateReady) : Selection prio (replaceElem it (it.setState state)
        (replaceElem ready (ready.setState .candidateBest) idx))
      it.txHash (some (ready.setState .candidateBest)) := by
  obtain ⟨mem, iff, -, best⟩ := chosen
  have apart : ready.setState .candidateBest ≠ it := fun same => absent (same ▸ (mem it rfl).1)
  constructor <;> grind

theorem Selection.release (chosen : Selection prio idx it.txHash (some it))
    (noneReady : ∀ ann ∈ idx, ann.txHash = it.txHash → ann.state ≠ .candidateReady) (released : (it.setState state).isSelected = false)
    (notReady : state ≠ .candidateReady) :
    Selection prio (replaceElem it (it.setState state) idx) it.txHash none := by
  obtain ⟨mem, iff, -, best⟩ := chosen
  constructor <;> grind

theorem Selection.retain {sel : Option Announcement}
    (chosen : Selection prio idx it.txHash sel) (apart : sel ≠ some it) (released : (it.setState state).isSelected = false)
    (notReady : state ≠ .candidateReady) :
    Selection prio (replaceElem it (it.setState state) idx) it.txHash sel := by
  obtain ⟨mem, iff, noneReady, best⟩ := chosen
  constructor <;> grind

end

/-! ## Neighbours in the index by hash -/

section

variable (ord : Orders prio) {trk : TxRequestTracker}
  {it : Announcement} (nodup : trk.index.Nodup) (member : it ∈ trk.index)

include nodup member

variable {itNext : Announcement}

theorem next_byTxHash_spec (found : next (trk.byTxHash ord) it = some itNext) :
    itNext ∈ trk.index ∧ itNext ≠ it ∧ it.txHashKey prio ≤ itNext.txHashKey prio := by
  have spec := next_spec (ord.byTxHash.sorted _ _) (ord.byTxHash.nodup_view nodup)
    (ord.byTxHash.mem_view.mpr member) found
  exact ⟨ord.byTxHash.mem_view.mp spec.1, spec.2⟩

theorem prev_byTxHash_spec {itPrev : Announcement}
    (found : prev (trk.byTxHash ord) it = some itPrev) :
    itPrev ∈ trk.index ∧ itPrev ≠ it ∧ itPrev.txHashKey prio ≤ it.txHashKey prio := by
  have spec := prev_spec (ord.byTxHash.sorted _ _) (ord.byTxHash.nodup_view nodup)
    (ord.byTxHash.mem_view.mpr member) found
  exact ⟨ord.byTxHash.mem_view.mp spec.1, spec.2⟩

/-- Another announcement of the hash stands before the one that precedes, or behind
the one that follows, which is then one of the hash too. -/
theorem byTxHash_bounds {other : Announcement} (mem' : other ∈ trk.index)
    (apart : other ≠ it) (here : other.txHash = it.txHash) :
    (∃ itPrev, prev (trk.byTxHash ord) it = some itPrev ∧ itPrev.txHash = it.txHash ∧
      other.txHashKey prio ≤ itPrev.txHashKey prio ∧
      other.state.rank ≤ itPrev.state.rank ∧ itPrev.state.rank ≤ it.state.rank) ∨
    ∃ itNext, next (trk.byTxHash ord) it = some itNext ∧ itNext.txHash = it.txHash ∧
      it.state.rank ≤ itNext.state.rank ∧ itNext.state.rank ≤ other.state.rank := by
  rcases neighbour_bounds (ord.byTxHash.sorted _ _) (ord.byTxHash.nodup_view nodup)
    (ord.byTxHash.mem_view.mpr member) (ord.byTxHash.mem_view.mpr mem') apart with
    ⟨itPrev, found, lower⟩ | ⟨itNext, found, upper⟩
  · left
    obtain ⟨-, -, upper⟩ := prev_byTxHash_spec ord nodup member found
    obtain ⟨same, ranks⟩ := txHash_between lower upper here
    exact ⟨itPrev, found, same.trans here, lower, ranks⟩
  · right
    obtain ⟨-, -, lower⟩ := next_byTxHash_spec ord nodup member found
    exact ⟨itNext, found, txHash_between lower upper here.symm⟩

theorem next_of_selected {sel : Announcement} (ready : it.state = .candidateReady)
    (mem' : sel ∈ trk.index) (here : sel.txHash = it.txHash) (isSelected : sel.isSelected) :
    ∃ itNext ∈ trk.index, itNext ≠ it ∧ next (trk.byTxHash ord) it = some itNext ∧
      itNext.txHash = it.txHash ∧ (itNext.isSelected ∨ itNext.state = .candidateReady ∧
        it.priority prio ≤ itNext.priority prio) := by
  rw [isSelected_iff_rank] at isSelected
  have apart : sel ≠ it := by
    rintro rfl
    rw [ready] at isSelected
    simp [State.rank] at isSelected
  have rank : it.state.rank = 1 := by rw [ready]; rfl
  rcases byTxHash_bounds ord nodup member mem' apart here with
    ⟨_, _, _, _, ranks⟩ | ⟨itNext, found, same, ranks⟩
  · omega
  · obtain ⟨isIn, other, lower⟩ := next_byTxHash_spec ord nodup member found
    refine ⟨itNext, isIn, other, found, same, ?_⟩
    rw [isSelected_iff_rank]
    by_cases isReady : itNext.state = .candidateReady
    · exact .inr ⟨isReady, priority_le_of_txHashKey_le lower same.symm ready isReady⟩
    · have : itNext.state.rank ≠ 1 := fun same => isReady (State.eq_of_rank_eq same)
      omega

/-- If none of the hash is selected and no other one is ready, what follows a ready one
is of another hash or completed. -/
theorem next_of_unselected (ready : it.state = .candidateReady)
    (found : next (trk.byTxHash ord) it = some itNext)
    (unselected : ∀ ann ∈ trk.index, ann.txHash = it.txHash → ann.isSelected = false)
    (noneReady : ∀ ann ∈ trk.index, ann.txHash = it.txHash → ann ≠ it →
      ann.state ≠ .candidateReady) : itNext.txHash ≠ it.txHash ∨ itNext.state = .completed := by
  obtain ⟨isIn, apart, lower⟩ := next_byTxHash_spec ord nodup member found
  rw [or_iff_not_imp_left, not_not]
  intro here
  have rank := rank_le_of_txHashKey_le lower here.symm
  have notReady := noneReady itNext isIn here apart
  have notSelected := unselected itNext isIn here
  rw [ready] at rank
  simp only [isSelected, Bool.or_eq_false_iff, decide_eq_false_iff_not] at notSelected
  cases state : itNext.state <;> simp_all [State.rank]

theorem prev_of_selected {ready : Announcement}
    (chosen : Selection prio trk.index it.txHash (some it))
    (mem' : ready ∈ trk.index) (here : ready.txHash = it.txHash)
    (isReady : ready.state = .candidateReady) :
    ∃ itPrev, prev (trk.byTxHash ord) it = some itPrev ∧ itPrev.txHash = it.txHash ∧
      itPrev.state = .candidateReady ∧ ready.priority prio ≤ itPrev.priority prio := by
  have isSelected := (chosen.iff it member rfl).mpr rfl
  have rank : ready.state.rank = 1 := by rw [isReady]; rfl
  have apart : ready ≠ it := by
    rintro rfl
    simp [Announcement.isSelected, isReady] at isSelected
  rw [isSelected_iff_rank] at isSelected
  rcases byTxHash_bounds ord nodup member mem' apart here with
    ⟨itPrev, found, same, lower, ranks⟩ | ⟨_, _, _, ranks⟩
  · obtain ⟨isIn, other, -⟩ := prev_byTxHash_spec ord nodup member found
    have notSelected : ¬ itPrev.isSelected = true := fun isSelected' =>
      other (Option.some.inj ((chosen.iff itPrev isIn same).mp isSelected')).symm
    rw [isSelected_iff_rank] at notSelected
    have isReady' : itPrev.state = .candidateReady := State.eq_of_rank_eq (by
      show itPrev.state.rank = 1
      omega)
    exact ⟨itPrev, found, same, isReady', priority_le_of_txHashKey_le lower
      (here.trans same.symm) isReady isReady'⟩
  · omega

end

end BitcoinCore.TxRequest
