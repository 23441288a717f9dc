import BitcoinCore.TxRequest.Selection

/-!
# The transitions of the request tracker

None of the transitions fails, and each keeps the invariant and the statistics. Up to
which of the ready announcements are the best, promotion makes one announcement ready
(`promoteCandidateReady_spec`), reselection changes one announcement
(`changeAndReselect_spec`), and completion completes one and forgets its hash if no
other announcement is left (`makeCompleted_spec`).
-/

namespace BitcoinCore.TxRequest

open CheckedAccess ElementUpdate SortedList TxRequestTracker List Function Announcement
open Reselected Specification

variable {prio : PriorityComputer} {ord : Orders prio} {trk later : TxRequestTracker}
  {it : Announcement}

/-! ## Keeping the invariant -/

section

variable {state : State} {sel : Option Announcement}

theorem Reselected.of_selection (inv : IndexInv prio trk.index)
    (outline : later.index.map Announcement.outline =
      (replaceElem it (it.setState state) trk.index).map Announcement.outline)
    (sequence : later.currentSequence = trk.currentSequence) (acct : Accounted later)
    (others : ∀ ann, ann.txHash ≠ it.txHash → (ann ∈ later.index ↔ ann ∈ trk.index))
    (selection : Selection prio later.index it.txHash sel)
    (tracked : sel = none →
      ∃ other ∈ later.index, other.txHash = it.txHash ∧ other.state ≠ .completed) :
    Reselected prio it.txHash trk later (replaceElem it (it.setState state) trk.index) := by
  refine ⟨others, outline, sequence, inv.of_hash _ ?_ others ⟨sel, selection⟩ fun _ _ _ => ?_, acct⟩
  · rw [map_eq_of_outline outline identity_outline]
    exact unique_replaceElem inv.unique it (it.setState state) rfl rfl
  · cases sel with
    | none => exact tracked rfl
    | some sel =>
      obtain ⟨isIn, here⟩ := selection.mem sel rfl
      refine ⟨sel, isIn, here, fun done => ?_⟩
      have isSelected := (selection.iff sel isIn here).mpr rfl
      rw [Announcement.isSelected, done] at isSelected
      cases isSelected

theorem Reselected.of_became (inv : IndexInv prio trk.index)
    (became : Became trk later (replaceElem it (it.setState state) trk.index))
    (selection : Selection prio (replaceElem it (it.setState state) trk.index) it.txHash sel)
    (tracked : sel = none → ∃ other ∈ replaceElem it (it.setState state) trk.index,
      other.txHash = it.txHash ∧ other.state ≠ .completed) :
    Reselected prio it.txHash trk later (replaceElem it (it.setState state) trk.index) := by
  rw [← became.index] at selection tracked
  refine of_selection inv (congrArg _ became.index) became.sequence became.accounted
    (fun ann apart => ?_) selection tracked
  rw [became.index]
  grind

theorem Became.unique (became : Became trk later (replaceElem it (it.setState state) trk.index))
    (unique : (trk.index.map identity).Nodup) : (later.index.map identity).Nodup := by
  rw [became.index]
  exact unique_replaceElem unique it (it.setState state) rfl rfl

end

/-! ## Promotion -/

section

variable {ready : TxRequestTracker} (inv : IndexInv prio trk.index)
  (became : Became trk ready (replaceElem it (it.setState .candidateReady) trk.index))

include inv became

theorem promoted_best (mem : it ∈ trk.index) (absent : it.setState .candidateReady ∉ trk.index)
    (selection : Selection prio trk.index it.txHash none)
    (became' : Became ready later (replaceElem (it.setState .candidateReady)
      (it.setState .candidateBest) ready.index)) : Reselected prio it.txHash trk later
      (replaceElem it (it.setState .candidateReady) trk.index) := by
  have outline : later.index.map outline =
      (replaceElem it (it.setState .candidateReady) trk.index).map outline := by
    rw [became'.index, became.index, map_replaceElem it.outline_setState_candidateBest]
  have idx : later.index = replaceElem it (it.setState .candidateBest) trk.index := by
    rw [became'.index, became.index, replaceElem_replaceElem absent]
  have selection' := selection.best_of_none mem
  rw [← idx] at selection'
  refine Reselected.of_selection inv outline (became'.sequence.trans became.sequence)
    became'.accounted (fun ann apart => ?_) selection' nofun
  rw [idx]
  grind

variable {sel : Announcement}

theorem promoted_over (mem : it ∈ trk.index)
    (absent : it.setState .candidateReady ∉ trk.index)
    (selection : Selection prio trk.index it.txHash (some sel))
    (isBest : sel.state = .candidateBest)
    (higher : sel.priority prio < it.priority prio) {swapped : TxRequestTracker}
    (became' : Became ready swapped (replaceElem sel (sel.setState .candidateReady) ready.index))
    (became'' : Became swapped later (replaceElem (it.setState .candidateReady)
      (it.setState .candidateBest) swapped.index)) : Reselected prio it.txHash trk later
      (replaceElem it (it.setState .candidateReady) trk.index) := by
  have outline : later.index.map outline =
      (replaceElem it (it.setState .candidateReady) trk.index).map outline := by
    rw [became''.index, became'.index, became.index,
      map_replaceElem it.outline_setState_candidateBest,
      map_replaceElem (outline_unselect isBest)]
  have here := (selection.mem sel rfl).2
  have selection' := selection.best_over mem absent isBest higher
  rw [← became.index, ← became'.index, ← became''.index] at selection'
  refine Reselected.of_selection inv outline
    (became''.sequence.trans (became'.sequence.trans became.sequence))
    became''.accounted (fun ann apart => ?_) selection' nofun
  rw [became''.index, became'.index, became.index]
  grind

end

section

variable (ord) (inv : IndexInv prio trk.index) (acct : Accounted trk) (mem : it ∈ trk.index)
include ord inv acct mem

theorem promoteCandidateReady_spec (delayed : it.state = .candidateDelayed) :
    ∃ later, promoteCandidateReady ord it trk = .ok later ∧ Reselected prio it.txHash trk later
        (replaceElem it (it.setState .candidateReady) trk.index) := by
  have absent : it.setState .candidateReady ∉ trk.index :=
    setState_not_mem inv.unique mem (by rw [delayed]; decide)
  obtain ⟨ready, modified, became⟩ :=
    acct.modify inv.nodup mem (.setState .candidateReady) rfl
  have nodup := (became.unique inv.unique).of_map _
  have member' : it.setState .candidateReady ∈ ready.index := by
    rw [became.index, mem_replaceElem]
    exact .inl ⟨rfl, mem⟩
  have old : ∀ ann ∈ ready.index, ann ≠ it.setState .candidateReady → ann ∈ trk.index := by
    rw [became.index]
    grind
  obtain ⟨sel, selection⟩ := inv.selection it.txHash
  rw [promoteCandidateReady, if_neg (not_not.mpr delayed), modified, ok_bind]
  cases sel with
  | none =>
    -- whatever follows, the announcement becomes the best one
    obtain ⟨later, modified', became'⟩ :=
      became.accounted.modify nodup member' (.setState .candidateBest) rfl
    refine ⟨later, ?_, promoted_best inv became mem absent selection became'⟩
    cases found : SortedList.next (ready.byTxHash ord) (it.setState .candidateReady) with
    | none => simp only [found, modified']
    | some itNext =>
      have follows : itNext.txHash ≠ (it.setState .candidateReady).txHash ∨
          itNext.state = .completed := by
        refine next_of_unselected ord nodup member' rfl found (fun ann isIn here => ?_)
          fun ann isIn here apart => selection.notReady rfl ann (old ann isIn apart) here
        by_cases same : ann = it.setState .candidateReady
        · rw [same]
          rfl
        · simpa using selection.iff ann (old ann isIn same) here
      simp only [found]
      rw [if_pos follows, modified']
  | some sel =>
    obtain ⟨isIn, here⟩ := selection.mem sel rfl
    have isSelected := (selection.iff sel isIn here).mpr rfl
    have isIn' : sel ∈ ready.index := by
      rw [became.index, mem_replaceElem]
      refine .inr ⟨isIn, ?_⟩
      rintro rfl
      rw [Announcement.isSelected, delayed] at isSelected
      cases isSelected
    obtain ⟨itNext, memNext, apart, found, hereNext, next⟩ :=
      next_of_selected ord nodup member' rfl isIn' here isSelected
    have known : itNext.isSelected = true → itNext = sel := fun isSelected' =>
      (Option.some.inj ((selection.iff itNext (old itNext memNext apart) hereNext).mp
        isSelected')).symm
    have follows : ¬ (itNext.txHash ≠ (it.setState .candidateReady).txHash ∨
        itNext.state = .completed) := by
      rintro (other | done)
      · exact other hereNext
      · rcases next with isSelected' | ⟨isReady, -⟩
        · rw [Announcement.isSelected, done] at isSelected'
          cases isSelected'
        · rw [done] at isReady
          cases isReady
    simp only [found]
    rw [if_neg follows]
    split
    case isTrue swap =>
      have same : itNext = sel := known (by simp [Announcement.isSelected, swap.1])
      subst same
      obtain ⟨swapped, modified', became'⟩ :=
        became.accounted.modify nodup memNext (.setState .candidateReady) rfl
      have nodup' := (became'.unique (became.unique inv.unique)).of_map _
      have member'' : it.setState .candidateReady ∈ swapped.index := by
        rw [became'.index, mem_replaceElem]
        exact .inr ⟨member', apart.symm⟩
      obtain ⟨later, modified'', became''⟩ :=
        became'.accounted.modify nodup' member'' (.setState .candidateBest) rfl
      rw [modified', ok_bind]
      exact ⟨later, modified'', promoted_over inv became mem absent selection swap.1 swap.2
        became' became''⟩
    case isFalse stays =>
      refine ⟨ready, rfl, of_became inv became
        (selection.ready_behind mem delayed fun isBest => ?_) nofun⟩
      rcases next with isSelected' | ⟨isReady, order⟩
      · rw [known isSelected'] at stays
        exact not_lt.mp fun higher => stays ⟨isBest, higher⟩
      · exact order.trans (selection.best sel rfl isBest itNext
          (old itNext memNext apart) hereNext isReady)

/-! ## Reselection -/

omit ord in
/-- The best of the ready announcements takes the place of the selected one. -/
theorem replaceSelected_spec {newState : State} {ready : Announcement}
    (selection : Selection prio trk.index it.txHash (some it))
    (isIn : ready ∈ trk.index) (apart : ready ≠ it) (here : ready.txHash = it.txHash)
    (isReady : ready.state = .candidateReady)
    (highest : ∀ ann ∈ trk.index, ann.txHash = it.txHash → ann.state = .candidateReady →
      ann.priority prio ≤ ready.priority prio)
    (unselected : (it.setState newState).isSelected = false)
    (notReady : newState ≠ .candidateReady) :
    ∃ chosen later, trk.modify ready (.setState .candidateBest) = .ok chosen ∧
      chosen.modify it (.setState newState) = .ok later ∧ Reselected prio it.txHash trk later
        (replaceElem it (it.setState newState) trk.index) := by
  have absent : ready.setState .candidateBest ∉ trk.index :=
    setState_not_mem inv.unique isIn (by rw [isReady]; decide)
  obtain ⟨chosen, modified, became⟩ :=
    acct.modify inv.nodup isIn (.setState .candidateBest) rfl
  have nodup := (became.unique inv.unique).of_map _
  have member' : it ∈ chosen.index := by
    rw [became.index, mem_replaceElem]
    exact .inr ⟨mem, apart.symm⟩
  obtain ⟨later, modified', became'⟩ :=
    became.accounted.modify nodup member' (.setState newState) rfl
  have selection' := selection.reselect isIn here absent highest unselected notReady
  rw [← became.index, ← became'.index] at selection'
  refine ⟨chosen, later, modified, modified', Reselected.of_selection inv ?_
    (became'.sequence.trans became.sequence) became'.accounted (fun ann other => ?_)
    selection' nofun⟩
  · have clear : it.setState newState ≠ ready := fun same =>
      notReady ((congrArg state same).trans isReady)
    have clear' : ready.setState .candidateBest ≠ it := fun same => absent (same ▸ mem)
    rw [became'.index, became.index, replaceElem_comm apart.symm clear clear',
      map_replaceElem (outline_select isReady)]
  · rw [became'.index, became.index]
    grind

theorem changeAndReselect_spec {newState : State}
    (released : newState = .completed ∨ newState = .candidateDelayed)
    (tracked : newState = .completed → ∃ other ∈ trk.index, other ≠ it ∧
      other.txHash = it.txHash ∧ other.state ≠ .completed) :
    ∃ later, changeAndReselect ord it newState trk = .ok later ∧
      Reselected prio it.txHash trk later
        (replaceElem it (it.setState newState) trk.index) := by
  have unselected : (it.setState newState).isSelected = false := by
    rcases released with rfl | rfl <;> rfl
  have notReady : newState ≠ .candidateReady := by
    rcases released with rfl | rfl <;> decide
  have tracked' : ∃ other ∈ replaceElem it (it.setState newState) trk.index,
      other.txHash = it.txHash ∧ other.state ≠ .completed := by
    rcases released with rfl | rfl
    · obtain ⟨other, isIn, apart, isOpen⟩ := tracked rfl
      exact ⟨other, mem_replaceElem.mpr (.inr ⟨isIn, apart⟩), isOpen⟩
    · exact ⟨_, mem_replaceElem.mpr (.inl ⟨rfl, mem⟩), rfl, State.noConfusion⟩
  rw [changeAndReselect, if_neg (by grind)]
  obtain ⟨sel, selection⟩ := inv.selection it.txHash
  by_cases isSelected : it.isSelected
  · rw [if_pos isSelected]
    obtain rfl := (selection.iff it mem rfl).mp isSelected
    by_cases someReady : ∃ ready ∈ trk.index, ready.txHash = it.txHash ∧
        ready.state = .candidateReady
    · -- the best of the ready announcements is selected
      obtain ⟨ready, isIn, here, isReady⟩ := someReady
      obtain ⟨itPrev, found, herePrev, readyPrev, -⟩ :=
        prev_of_selected ord inv.nodup mem selection isIn here isReady
      obtain ⟨presentPrev, apart, -⟩ := prev_byTxHash_spec ord inv.nodup mem found
      have highest : ∀ ann ∈ trk.index, ann.txHash = it.txHash →
          ann.state = .candidateReady → ann.priority prio ≤ itPrev.priority prio := by
        intro ann isIn here isReady
        obtain ⟨itPrev', found', -, -, order⟩ :=
          prev_of_selected ord inv.nodup mem selection isIn here isReady
        obtain rfl : itPrev' = itPrev := Option.some.inj (found'.symm.trans found)
        exact order
      obtain ⟨chosen, later, modified, modified', resel⟩ := replaceSelected_spec inv acct
        mem selection presentPrev apart herePrev readyPrev highest unselected notReady
      simp only [found]
      rw [if_pos ⟨herePrev, readyPrev⟩, modified, ok_bind]
      exact ⟨later, modified', resel⟩
    · -- none is ready
      obtain ⟨later, modified, became⟩ := acct.modify inv.nodup mem (.setState newState) rfl
      have noneReady : ∀ ann ∈ trk.index, ann.txHash = it.txHash →
          ann.state ≠ .candidateReady := fun ann isIn here isReady =>
        someReady ⟨ann, isIn, here, isReady⟩
      refine ⟨later, ?_, of_became inv became
        (selection.release noneReady unselected notReady) fun _ => tracked'⟩
      cases found : SortedList.prev (trk.byTxHash ord) it with
      | none => simp only [ok_bind, modified]
      | some itPrev =>
        obtain ⟨isIn, -⟩ := prev_byTxHash_spec ord inv.nodup mem found
        simp only
        rw [if_neg fun ready => noneReady itPrev isIn ready.1 ready.2, ok_bind, modified]
  · have other : sel ≠ some it := fun same =>
      isSelected ((selection.iff it mem rfl).mpr same)
    obtain ⟨later, modified, became⟩ := acct.modify inv.nodup mem (.setState newState) rfl
    rw [if_neg isSelected, ok_bind]
    exact ⟨later, modified, of_became inv became
      (selection.retain other unselected notReady) fun _ => tracked'⟩

end

/-! ## Completion -/

section

variable (ord) in
theorem isOnlyNonCompleted_spec (nodup : trk.index.Nodup) (mem : it ∈ trk.index)
    (isOpen : it.state ≠ .completed) : ∃ only, isOnlyNonCompleted ord it trk = .ok only ∧
      (only ↔ ∀ other ∈ trk.index, other.txHash = it.txHash → other ≠ it →
        other.state = .completed) := by
  rw [isOnlyNonCompleted, if_neg isOpen]
  split
  case isTrue pre =>
    refine ⟨false, rfl, iff_of_false Bool.false_ne_true fun done => ?_⟩
    obtain ⟨itPrev, found, here⟩ := (Option.any_eq_true _ _).mp pre
    obtain ⟨isIn, apart, order⟩ := prev_byTxHash_spec ord nodup mem found
    have here' := of_decide_eq_true here
    have order' := rank_le_of_txHashKey_le order here'
    rw [done itPrev isIn here' apart] at order'
    exact isOpen (State.eq_completed_of_rank_le order')
  case isFalse notBefore =>
    split
    case isTrue behind =>
      refine ⟨false, rfl, iff_of_false Bool.false_ne_true fun done => ?_⟩
      obtain ⟨itNext, found, here⟩ := (Option.any_eq_true _ _).mp behind
      obtain ⟨isIn, apart, -⟩ := next_byTxHash_spec ord nodup mem found
      have here' := of_decide_eq_true here
      exact here'.2 (done itNext isIn here'.1 apart)
    case isFalse notBehind =>
      refine ⟨true, rfl, iff_of_true rfl fun other isIn here apart => ?_⟩
      rcases byTxHash_bounds ord nodup mem isIn apart here with
        ⟨itPrev, found, same, -⟩ | ⟨itNext, found, same, -, order⟩
      · refine absurd ((Option.any_eq_true _ _).mpr ⟨itPrev, found, ?_⟩) notBefore
        exact decide_eq_true same
      · by_cases done : itNext.state = .completed
        · rw [done] at order
          exact State.eq_completed_of_rank_le order
        · refine absurd ((Option.any_eq_true _ _).mpr ⟨itNext, found, ?_⟩) notBehind
          exact decide_eq_true ⟨same, done⟩

/-! ### Forgetting a hash -/

variable {list : List Announcement}

theorem eraseWhile_spec (txhash : Uint256) (nodup : list.Nodup)
    (isIn : ∀ ann ∈ list, ann ∈ trk.index) (nodup' : trk.index.Nodup) (acct : Accounted trk) :
    ∃ later, eraseWhile txhash list trk = .ok later ∧
      Became trk later (trk.index.filter fun ann =>
        ann ∉ list.takeWhile (·.txHash = txhash)) := by
  induction list generalizing trk with
  | nil => exact ⟨trk, rfl, by simp, rfl, acct⟩
  | cons it rest ih =>
    rw [eraseWhile]
    split
    case isTrue here =>
      rw [nodup_cons] at nodup
      obtain ⟨erased, erases, became⟩ := acct.erase nodup' (isIn it mem_cons_self)
      have isIn' : ∀ ann ∈ rest, ann ∈ erased.index := by
        intro ann mem
        rw [became.index, mem_removeElem]
        refine ⟨isIn ann (mem_cons_of_mem _ mem), ?_⟩
        rintro rfl
        exact nodup.1 mem
      have nodup'' : erased.index.Nodup := by
        rw [became.index]
        exact nodup'.filter _
      obtain ⟨later, erases', became'⟩ := ih nodup.2 isIn' nodup'' became.accounted
      rw [erases, ok_bind]
      refine ⟨later, erases', ?_, became'.sequence.trans became.sequence, became'.accounted⟩
      rw [became'.index, became.index, removeElem, filter_filter,
        takeWhile_cons_of_pos (by simpa using here)]
      refine filter_congr fun ann _ => ?_
      simp [Bool.and_comm]
    case isFalse other =>
      rw [takeWhile_cons_of_neg (by simpa using other)]
      exact ⟨trk, rfl, by simp, rfl, acct⟩

theorem takeWhile_dropWhile_byTxHash (nodup : trk.index.Nodup) (mem : it ∈ trk.index)
    (isOpen : it.state ≠ .completed)
    (done : ∀ other ∈ trk.index, other.txHash = it.txHash → other ≠ it → other.state = .completed) :
    (((trk.byTxHash ord).dropWhile (· ≠ it)).takeWhile (·.txHash = it.txHash)) =
      (trk.byTxHash ord).filter fun other => other.txHash = it.txHash := by
  have members : ∀ ann, ann ∈ trk.byTxHash ord ↔ ann ∈ trk.index := fun ann =>
    ord.byTxHash.mem_view
  have sorted : (trk.byTxHash ord).Pairwise _ := ord.byTxHash.sorted _ _
  obtain ⟨pre, after, split, absent, absent'⟩ :=
    split_of_mem (ord.byTxHash.nodup_view nodup) ((members it).mpr mem)
  rw [← byTxHash] at split
  rw [split] at members sorted ⊢
  rw [pairwise_append, pairwise_cons] at sorted
  have dropped : (pre ++ it :: after).dropWhile (· ≠ it) = it :: after := by
    have passed : ∀ ann ∈ pre, decide (ann ≠ it) = true := by
      intro ann isIn
      rw [decide_eq_true_iff]
      rintro rfl
      exact absent isIn
    rw [dropWhile_append_of_pos passed, dropWhile_cons_of_neg (by simp)]
  have none : pre.filter (·.txHash = it.txHash) = [] := by
    rw [filter_eq_nil_iff]
    intro ann isIn here
    have apart : ann ≠ it := fun same => absent (same ▸ isIn)
    have here' := of_decide_eq_true here
    have order := rank_le_of_txHashKey_le (sorted.2.2 ann isIn it mem_cons_self) here'
    rw [done ann ((members ann).mp (mem_append_left _ isIn)) here' apart] at order
    exact isOpen (State.eq_completed_of_rank_le order)
  rw [dropped, filter_append, none, nil_append]
  refine takeWhile_eq_filter (pairwise_cons.mpr sorted.2.1) fun a isIn b _ order here => ?_
  have least : it.txHashKey prio ≤ a.txHashKey prio := by
    rcases mem_cons.mp isIn with rfl | later
    · exact le_rfl
    · exact sorted.2.1.1 a later
  exact decide_eq_true (txHash_between least order (of_decide_eq_true here).symm).1

theorem eraseWhile_forgets {txhash : Uint256} (inv : IndexInv prio trk.index) (acct : Accounted trk)
    (part : list.Sublist (trk.byTxHash ord)) (walk : (list.takeWhile (·.txHash = txhash)) =
      (trk.byTxHash ord).filter (·.txHash = txhash)) :
    ∃ later, eraseWhile txhash list trk = .ok later ∧
      Became trk later (trk.index.filter (·.txHash ≠ txhash)) := by
  have nodup : (trk.byTxHash ord).Nodup := ord.byTxHash.nodup_view inv.nodup
  have members : ∀ ann, ann ∈ trk.byTxHash ord ↔ ann ∈ trk.index := fun ann =>
    ord.byTxHash.mem_view
  obtain ⟨later, erases, became⟩ := eraseWhile_spec txhash (part.nodup nodup)
    (fun ann isIn => (members ann).mp (part.subset isIn)) inv.nodup acct
  refine ⟨later, erases, ?_, became.sequence, became.accounted⟩
  rw [became.index, walk]
  refine filter_congr fun ann isIn => ?_
  rw [decide_eq_decide, mem_filter, members, decide_eq_true_iff]
  exact ⟨fun absent here => absent ⟨isIn, here⟩, fun other here => other here.2⟩

end

variable {idx : List Announcement}

/-- A hash without announcements is no matter of the invariant. -/
theorem IndexInv.forget (inv : IndexInv prio idx) (txhash : Uint256) :
    IndexInv prio (idx.filter (·.txHash ≠ txhash)) := by
  have absent : ∀ ann ∈ idx.filter (·.txHash ≠ txhash), ann.txHash ≠ txhash :=
    fun ann mem => of_decide_eq_true (mem_filter.mp mem).2
  refine inv.of_hash txhash (unique_filter inv.unique _) (fun ann apart => ?_) ⟨none, ?_⟩
    fun ann mem here => absurd here (absent ann mem)
  · simp [apart]
  · exact ⟨nofun, fun ann mem here => absurd here (absent ann mem),
      fun _ ann mem here => absurd here (absent ann mem), nofun⟩

/-! ### Completing an announcement -/

/-- The announcements of the hashes for which one is not completed. -/
def pruned (idx : List Announcement) : List Announcement :=
  idx.filter fun ann => idx.any fun other =>
    other.txHash = ann.txHash ∧ other.state ≠ .completed

section

variable {ann : Announcement}

theorem pruned_sublist : (pruned idx).Sublist idx := filter_sublist

theorem pruned_eq_self (tracked : ∀ ann ∈ idx, ∃ other ∈ idx,
    other.txHash = ann.txHash ∧ other.state ≠ .completed) : pruned idx = idx := by
  rw [pruned, filter_eq_self]
  intro ann mem
  simpa using tracked ann mem

theorem entry_status_eq_completed : ann.entry.status = .completed ↔ ann.state = .completed := by
  rcases ann with ⟨_, _, _, _, _, state⟩
  cases state <;> simp [entry]

theorem map_entry_pruned : (pruned idx).map entry = prune (idx.map entry) := by
  rw [pruned, prune, filter_map]
  congr 1
  refine filter_congr fun ann _ => ?_
  rw [comp_apply, any_map]
  congr 1
  funext other
  simp only [comp_apply, ne_eq, entry_status_eq_completed]
  rfl

end

theorem entry_complete (ann : Announcement) :
    (ann.setState .completed).entry = ann.entry.complete := rfl

theorem map_entry_complete (unique : (idx.map identity).Nodup) (mem : it ∈ idx) :
    (pruned (replaceElem it (it.setState .completed) idx)).map entry =
      Specification.receivedResponse it.peer it.txHash (idx.map entry) := by
  rw [map_entry_pruned, Specification.receivedResponse, replaceElem, map_map, map_map]
  congr 1
  refine map_congr_left fun ann isIn => ?_
  rw [comp_apply, comp_apply]
  by_cases same : ann = it
  · rw [if_pos same, if_pos ⟨by rw [same]; rfl, by rw [same]; rfl⟩, entry_complete, same]
  · have apart : ¬ (ann.entry.peer = it.peer ∧ ann.entry.txHash = it.txHash) := fun here =>
      same (eq_of_identity_eq unique isIn mem here.1 here.2)
    rw [if_neg same, if_neg apart]

theorem pruned_of_only (inv : IndexInv prio trk.index)
    (done : ∀ other ∈ trk.index, other.txHash = it.txHash → other ≠ it → other.state = .completed) :
    pruned (replaceElem it (it.setState .completed) trk.index) =
      trk.index.filter fun ann => ann.txHash ≠ it.txHash := by
  have same : (replaceElem it (it.setState .completed) trk.index).filter
      (·.txHash ≠ it.txHash) = trk.index.filter fun ann => ann.txHash ≠ it.txHash :=
    filter_replaceElem (by simp) (by simp)
  rw [← same, pruned]
  refine filter_congr fun ann mem => ?_
  rw [Bool.eq_iff_iff, any_eq_true, decide_eq_true_iff]
  constructor
  · rintro ⟨other, isIn, isOpen⟩ here
    grind
  · intro apart
    obtain ⟨other, isIn, here, isOpen⟩ := inv.tracked ann (by grind)
    exact ⟨other, by grind, decide_eq_true ⟨here, isOpen⟩⟩

theorem pruned_of_other (inv : IndexInv prio trk.index) {other : Announcement}
    (isIn : other ∈ trk.index) (here : other.txHash = it.txHash) (apart : other ≠ it)
    (isOpen : other.state ≠ .completed) :
    pruned (replaceElem it (it.setState .completed) trk.index) =
      replaceElem it (it.setState .completed) trk.index := by
  refine pruned_eq_self fun ann mem => ?_
  rcases eq_or_ne ann.txHash it.txHash with same | elsewhere
  · exact ⟨other, mem_replaceElem.mpr (.inr ⟨isIn, apart⟩), here.trans same.symm, isOpen⟩
  · obtain ⟨other', isIn', here', isOpen'⟩ := inv.tracked ann (by grind)
    exact ⟨other', by grind, here', isOpen'⟩

variable (ord) in
theorem makeCompleted_spec (inv : IndexInv prio trk.index) (acct : Accounted trk)
    (mem : it ∈ trk.index) : ∃ remains later, makeCompleted ord it trk = .ok (remains, later) ∧
      Reselected prio it.txHash trk later
        (pruned (replaceElem it (it.setState .completed) trk.index)) ∧
      (remains ↔ it.setState .completed ∈ later.index) := by
  rw [makeCompleted]
  split
  case isTrue done =>
    have same : it.setState .completed = it := by
      rw [← done]
      rfl
    refine ⟨true, trk, rfl, ⟨fun _ _ => Iff.rfl, ?_, rfl, inv, acct⟩, iff_of_true rfl (same ▸ mem)⟩
    rw [same, replaceElem_self, pruned_eq_self inv.tracked]
  case isFalse isOpen =>
    obtain ⟨only, asked, iff⟩ := isOnlyNonCompleted_spec ord inv.nodup mem isOpen
    rw [asked, ok_bind]
    cases only with
    | true =>
      have done := iff.mp rfl
      obtain ⟨later, erases, became⟩ := eraseWhile_forgets inv acct
        (dropWhile_sublist _) (takeWhile_dropWhile_byTxHash inv.nodup mem isOpen done)
      rw [if_pos rfl, erases, ok_bind]
      refine ⟨false, later, rfl, ⟨?_, ?_, became.sequence, ?_, became.accounted⟩, ?_⟩
      · rw [became.index]
        intro ann apart
        simp [apart]
      · rw [became.index, pruned_of_only inv done]
      · rw [became.index]
        exact inv.forget it.txHash
      · rw [became.index]
        simp
    | false =>
      have others : ∃ other ∈ trk.index, other ≠ it ∧ other.txHash = it.txHash ∧
          other.state ≠ .completed := by
        by_contra none
        push Not at none
        exact Bool.false_ne_true (iff.mpr fun other isIn here apart =>
          none other isIn apart here)
      obtain ⟨later, changes, resel⟩ :=
        changeAndReselect_spec ord inv acct mem (.inl rfl) fun _ => others
      obtain ⟨other, isIn, apart, here, isOpen'⟩ := others
      rw [if_neg Bool.false_ne_true, changes, ok_bind, pruned_of_other inv isIn here apart isOpen']
      refine ⟨true, later, rfl, resel, iff_of_true rfl ?_⟩
      have shown : (it.setState .completed).outline ∈ later.index.map outline := by
        rw [resel.outline]
        exact mem_map_of_mem (mem_replaceElem.mpr (.inl ⟨rfl, mem⟩))
      obtain ⟨source, isIn, same⟩ := mem_map.mp shown
      rwa [← eq_of_outline same rfl]

end BitcoinCore.TxRequest
