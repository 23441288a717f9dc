import BitcoinCore.TxRequest.Transitions

/-!
# Moving the time of the request tracker

When time moves, delayed announcements whose time has come are promoted, requests that
have expired are completed, and ready announcements whose time lies ahead are delayed.
Both loops end within as many rounds as there are announcements. What is left is
what the specification leaves when requests expire (`setTimePoint_spec`), and whether
an announcement is delayed follows from the time alone.
-/

namespace BitcoinCore.TxRequest

open CheckedAccess ElementUpdate SortedList TxRequestTracker List Announcement Bool Specification
open Net (NodeId)

/-! ## What is kept -/

/-- The tracker is consistent, and no announcement has a new sequence number. -/
structure Kept (prio : PriorityComputer) (trk later : TxRequestTracker) : Prop where
  inv : IndexInv prio later.index
  accounted : Accounted later
  sequence : later.currentSequence = trk.currentSequence
  sequences : (later.index.map Announcement.sequence).Sublist (trk.index.map Announcement.sequence)

theorem Kept.trans {prio : PriorityComputer} {trk later last : TxRequestTracker}
    (first : Kept prio trk later) (second : Kept prio later last) : Kept prio trk last :=
  ⟨second.inv, second.accounted, second.sequence.trans first.sequence,
    second.sequences.trans first.sequences⟩

section

variable {prio : PriorityComputer} {txhash : Uint256} {trk later : TxRequestTracker}
  {idx : List Announcement}

section

variable (resel : Reselected prio txhash trk later idx)
include resel

theorem Reselected.kept (part : (idx.map Announcement.sequence).Sublist
      (trk.index.map Announcement.sequence)) : Kept prio trk later := by
  refine ⟨resel.inv, resel.accounted, resel.sequence, ?_⟩
  rw [map_eq_of_outline resel.outline sequence_outline]
  exact part

theorem Reselected.entries : later.entries = idx.map entry :=
  map_eq_of_outline resel.outline entry_outline

theorem Reselected.countP
    {cond : Announcement → Bool} (shown : ∀ ann, cond ann.outline = cond ann) :
    later.index.countP cond = idx.countP cond := by
  have counts : ∀ list : List Announcement,
      list.countP cond = (list.map cond).countP id := by
    intro list
    rw [countP_map]
    rfl
  rw [counts, counts, map_eq_of_outline resel.outline shown]

end

theorem sequences_pruned (it : Announcement) (state : State) (idx : List Announcement) :
    ((pruned (replaceElem it (it.setState state) idx)).map Announcement.sequence).Sublist
      (idx.map Announcement.sequence) := by
  rw [← map_replaceElem (it.setState_sequence state) idx]
  exact pruned_sublist.map _

end

/-! ## Due announcements -/

namespace Announcement

def isDue (now : ℤ) (ann : Announcement) : Bool := ann.isWaiting && ann.time ≤ now

def isEarly (now : ℤ) (ann : Announcement) : Bool := ann.isSelectable && now < ann.time

section

variable {now : ℤ} (ann : Announcement) {a b : Announcement}

theorem isDue_outline : ann.outline.isDue now = ann.isDue now := by
  rcases ann with ⟨_, _, _, _, _, state⟩
  cases state <;> rfl

theorem isEarly_outline : ann.outline.isEarly now = ann.isEarly now := by
  rcases ann with ⟨_, _, _, _, _, state⟩
  cases state <;> rfl

theorem timeKey_le_iff : a.timeKey ≤ b.timeKey ↔
    a.waitState < b.waitState ∨ a.waitState = b.waitState ∧ a.time ≤ b.time := by
  rw [timeKey, timeKey, Prod.Lex.toLex_le_toLex]

theorem isWaiting_iff {ann : Announcement} : ann.isWaiting ↔ ann.waitState = 0 := by
  rcases ann with ⟨_, _, _, _, _, state⟩
  cases state <;> simp [isWaiting, waitState, isSelectable]

theorem isSelectable_iff {ann : Announcement} : ann.isSelectable ↔ ann.waitState = 2 := by
  rcases ann with ⟨_, _, _, _, _, state⟩
  cases state <;> simp [isWaiting, waitState, isSelectable]

theorem waitState_le : ann.waitState ≤ 2 := by
  rw [waitState]
  split
  · decide
  · split <;> decide

theorem isDue_of_le (order : a.timeKey ≤ b.timeKey) (due : b.isDue now) : a.isDue now := by
  rw [isDue, and_eq_true, decide_eq_true_iff, isWaiting_iff] at due ⊢
  rw [timeKey_le_iff] at order
  omega

theorem isEarly_of_le (order : a.timeKey ≤ b.timeKey) (early : a.isEarly now) : b.isEarly now := by
  rw [isEarly, and_eq_true, decide_eq_true_iff, isSelectable_iff] at early ⊢
  rw [timeKey_le_iff] at order
  have := b.waitState_le
  omega

theorem isExpired_entry :
    ann.entry.isExpired now = (ann.state = .requested && ann.time ≤ now : Bool) := by
  rcases ann with ⟨_, _, _, _, _, state⟩
  cases state <;> simp [entry, Entry.isExpired]

end

end Announcement

section

variable {prio : PriorityComputer} (ord : Orders prio) {now : ℤ}
  {trk : TxRequestTracker} {it : Announcement}

theorem countP_isDue_eq_zero
    (first : ∀ it, (trk.byTime ord).head? = some it → it.isDue now = false) :
    trk.index.countP (isDue now) = 0 := by
  rw [countP_eq_zero]
  intro ann mem due
  have member' : ann ∈ trk.byTime ord := ord.byTime.mem_view.mpr mem
  have head := head?_eq_some_head (ne_nil_of_mem member')
  have order := head?_le (ord.byTime.sorted _ _) head member'
  exact false_ne_true ((first _ head).symm.trans (isDue_of_le order due))

theorem countP_isEarly_eq_zero
    (last : ∀ it, (trk.byTime ord).getLast? = some it → it.isEarly now = false) :
    trk.index.countP (isEarly now) = 0 := by
  rw [countP_eq_zero]
  intro ann mem early
  have member' : ann ∈ trk.byTime ord := ord.byTime.mem_view.mpr mem
  have tail := getLast?_eq_some_getLast (ne_nil_of_mem member')
  have order := le_getLast? (ord.byTime.sorted _ _) tail member'
  exact false_ne_true ((last _ tail).symm.trans (isEarly_of_le order early))

/-! ## The loops -/

/-- A consistent tracker has no completed hashes to forget. -/
theorem IndexInv.prune_entries (inv : IndexInv prio trk.index) :
    prune trk.entries = trk.entries := by
  rw [entries, ← map_entry_pruned, pruned_eq_self inv.tracked]

theorem isExpired_eq_false (none : trk.index.countP (isDue now) = 0)
    {entry : Entry} (mem : entry ∈ trk.entries) : entry.isExpired now = false := by
  obtain ⟨ann, isIn, rfl⟩ := mem_map.mp mem
  have notDue := countP_eq_zero.mp none ann isIn
  rw [isExpired_entry]
  simp only [isDue, isWaiting] at notDue
  grind

theorem expire_of_none_due (inv : IndexInv prio trk.index)
    (none : trk.index.countP (isDue now) = 0) :
    expire now trk.entries = trk.entries := by
  have same : trk.entries.map (Entry.settle now) = trk.entries := by
    refine (map_congr_left fun entry mem => ?_).trans (map_id _)
    rw [Entry.settle, isExpired_eq_false none mem]
    rfl
  rw [expire, same, inv.prune_entries]

theorem expired_of_none_due (none : trk.index.countP (isDue now) = 0) :
    expired now trk.entries = [] := by
  rw [expired, map_eq_nil_iff, filter_eq_nil_iff]
  intro entry mem
  rw [isExpired_eq_false none mem]
  exact false_ne_true

theorem expired_complete (inv : IndexInv prio trk.index)
    (mem : it ∈ trk.index) (req : it.state = .requested) (due : it.time ≤ now) :
    (expired now trk.entries).Perm ((it.peer, it.gtxid) :: expired now
        (receivedResponse it.peer it.txHash trk.entries)) := by
  rw [entries, ← map_entry_complete inv.unique mem, map_entry_pruned]
  have kept : ∀ entry : Entry, entry.isExpired now → entry.status ≠ .completed := by
    intro entry expired completed
    rw [Entry.isExpired, completed] at expired
    cases expired
  have shown : (fun ann : Announcement => ann.entry.isExpired now) it = true := by
    simp [isExpired_entry, req, due]
  have hidden : (fun ann : Announcement => ann.entry.isExpired now)
      (it.setState .completed) = false := rfl
  simp only [expired]
  rw [filter_prune kept, filter_map, map_map, filter_map, map_map]
  exact (perm_filter_replaceElem inv.nodup mem shown hidden).map _

variable (inv : IndexInv prio trk.index) (accounted : Accounted trk)
include inv accounted

theorem promote_due (mem : it ∈ trk.index)
    (delayed : it.state = .candidateDelayed) (due : it.time ≤ now) :
    ∃ later, promoteCandidateReady ord it trk = .ok later ∧ Kept prio trk later ∧
      later.entries = trk.entries ∧ later.index.countP (Announcement.isDue now) <
        trk.index.countP (Announcement.isDue now) := by
  obtain ⟨later, promotes, resel⟩ :=
    promoteCandidateReady_spec ord inv accounted mem delayed
  refine ⟨later, promotes, resel.kept (by rw [map_replaceElem (it.setState_sequence _)]), ?_, ?_⟩
  · rw [resel.entries]
    exact map_replaceElem (entry_setState (by rw [delayed]; decide) (by decide)) _
  · have fewer := countP_replaceElem (it.setState .candidateReady) inv.nodup mem
      (Announcement.isDue now)
    have isDue : it.isDue now := by
      simp [Announcement.isDue, Announcement.isWaiting, delayed, due]
    have notDue : (it.setState .candidateReady).isDue now = false := rfl
    rw [isDue, notDue, toNat_true, toNat_false] at fewer
    rw [resel.countP isDue_outline]
    omega

theorem complete_due (mem : it ∈ trk.index) (req : it.state = .requested) (due : it.time ≤ now) :
    ∃ remains later, makeCompleted ord it trk = .ok (remains, later) ∧ Kept prio trk later ∧
      later.entries = receivedResponse it.peer it.txHash trk.entries ∧
      later.index.countP (Announcement.isDue now) < trk.index.countP (Announcement.isDue now) := by
  obtain ⟨remains, later, completes, resel, -⟩ := makeCompleted_spec ord inv accounted mem
  refine ⟨remains, later, completes, resel.kept (sequences_pruned ..),
    resel.entries.trans (map_entry_complete inv.unique mem), ?_⟩
  have fewer := countP_replaceElem (it.setState .completed) inv.nodup mem (Announcement.isDue now)
  have isDue : it.isDue now := by
    simp [Announcement.isDue, Announcement.isWaiting, req, due]
  have notDue : (it.setState .completed).isDue now = false := rfl
  rw [isDue, notDue, toNat_true, toNat_false] at fewer
  have part : (pruned (replaceElem it (it.setState .completed) trk.index)).countP
      (Announcement.isDue now) ≤ _ := pruned_sublist.countP_le
  rw [resel.countP isDue_outline]
  omega

/-- Promotion and expiry. The requests that have expired are completed one after another,
in any order. -/
theorem passWaiting_spec {rounds : ℕ} (expired : List Expired)
    (enough : trk.index.countP (isDue now) < rounds) :
    ∃ later all, passWaiting ord now rounds trk expired = .ok (later, all) ∧ Kept prio trk later ∧
      expire now later.entries = expire now trk.entries ∧
      all.Perm (expired ++ Specification.expired now trk.entries) ∧
      later.index.countP (isDue now) = 0 := by
  induction rounds generalizing trk expired with
  | zero => exact absurd enough (Nat.not_lt_zero _)
  | succ rounds ih =>
    have stop : trk.index.countP (isDue now) = 0 →
        ∃ later all, (Except.ok (trk, expired) : Except Failure _) = .ok (later, all) ∧
          Kept prio trk later ∧
          expire now later.entries = expire now trk.entries ∧
          all.Perm (expired ++ Specification.expired now trk.entries) ∧
          later.index.countP (isDue now) = 0 := fun none =>
      ⟨trk, expired, rfl, ⟨inv, accounted, rfl, Sublist.refl _⟩, rfl,
        by rw [expired_of_none_due none, append_nil], none⟩
    rw [passWaiting]
    cases head : (trk.byTime ord).head? with
    | none => exact stop (countP_isDue_eq_zero ord (by rw [head]; nofun))
    | some it =>
      have mem : it ∈ trk.index :=
        ord.byTime.mem_view.mp (mem_of_mem_head? head)
      simp only
      split
      case isTrue delayed =>
        obtain ⟨ready, promotes, kept, same, fewer⟩ :=
          promote_due ord inv accounted mem delayed.1 delayed.2
        obtain ⟨later, all, passes, kept', expires, perm, none⟩ :=
          ih kept.inv kept.accounted expired (by omega)
        rw [same] at expires perm
        rw [promotes, ok_bind]
        exact ⟨later, all, passes, kept.trans kept', expires, perm, none⟩
      case isFalse notDelayed =>
        split
        case isTrue req =>
          obtain ⟨remains, rest, completes, kept, same, fewer⟩ :=
            complete_due ord inv accounted mem req.1 req.2
          obtain ⟨later, all, passes, kept', expires, perm, none⟩ :=
            ih kept.inv kept.accounted (expired ++ [(it.peer, it.gtxid)]) (by omega)
          have onlyExpired : ∀ entry ∈ trk.entries, entry.peer = it.peer →
              entry.txHash = it.txHash → entry.isExpired now := by
            intro entry isIn peer here
            obtain ⟨ann, isIn', rfl⟩ := mem_map.mp isIn
            obtain rfl := eq_of_identity_eq inv.unique isIn' mem peer here
            simp [isExpired_entry, req]
          rw [same] at expires perm
          rw [completes, ok_bind]
          refine ⟨later, all, passes, kept.trans kept',
            expires.trans (expire_receivedResponse onlyExpired), perm.trans ?_, none⟩
          rw [append_assoc]
          exact (expired_complete inv mem req.1 req.2).symm.append_left expired
        case isFalse notRequested =>
          refine stop (countP_isDue_eq_zero ord fun first is => ?_)
          obtain rfl := Option.some.inj (is.symm.trans head)
          simp only [isDue, isWaiting]
          grind

theorem delay_early (mem : it ∈ trk.index) (early : it.isEarly now) :
    ∃ later, changeAndReselect ord it .candidateDelayed trk = .ok later ∧
      Kept prio trk later ∧ later.entries = trk.entries ∧
      later.index.countP (Announcement.isDue now) = trk.index.countP (Announcement.isDue now) ∧
      later.index.countP (Announcement.isEarly now) <
        trk.index.countP (Announcement.isEarly now) := by
  obtain ⟨later, changes, resel⟩ :=
    changeAndReselect_spec ord inv accounted mem (.inr rfl) nofun
  have early' := early
  rw [Announcement.isEarly, and_eq_true, decide_eq_true_iff, Announcement.isSelectable,
    or_eq_true, decide_eq_true_iff, decide_eq_true_iff] at early'
  have rank : it.state.rank ≤ 2 := by
    rcases early'.1 with state | state <;> rw [state] <;> decide
  refine ⟨later, changes, resel.kept (by rw [map_replaceElem (it.setState_sequence _)]), ?_, ?_, ?_⟩
  · rw [resel.entries]
    exact map_replaceElem (entry_setState rank (by decide)) _
  · have same := countP_replaceElem (it.setState .candidateDelayed) inv.nodup mem
      (Announcement.isDue now)
    have notDue : it.isDue now = false := by
      rcases early'.1 with state | state <;> simp [Announcement.isDue, Announcement.isWaiting, state]
    have notDue' : (it.setState .candidateDelayed).isDue now = false := by
      rw [Announcement.isDue, setState_time, decide_eq_false (not_le.mpr early'.2), Bool.and_false]
    rw [resel.countP isDue_outline]
    rw [notDue, notDue'] at same
    exact same
  · have fewer := countP_replaceElem (it.setState .candidateDelayed) inv.nodup mem
      (Announcement.isEarly now)
    have notEarly : (it.setState .candidateDelayed).isEarly now = false := rfl
    rw [early, notEarly, toNat_true, toNat_false] at fewer
    rw [resel.countP isEarly_outline]
    omega

/-- Going back in time. The specification does not see it. -/
theorem delaySelectable_spec {rounds : ℕ} (enough : trk.index.countP (isEarly now) < rounds) :
    ∃ later, delaySelectable ord now rounds trk = .ok later ∧
      Kept prio trk later ∧ later.entries = trk.entries ∧
      later.index.countP (isDue now) = trk.index.countP (isDue now) ∧
      later.index.countP (isEarly now) = 0 := by
  induction rounds generalizing trk with
  | zero => exact absurd enough (Nat.not_lt_zero _)
  | succ rounds ih =>
    have kept : Kept prio trk trk := ⟨inv, accounted, rfl, Sublist.refl _⟩
    rw [delaySelectable]
    cases tail : (trk.byTime ord).getLast? with
    | none =>
      exact ⟨trk, rfl, kept, rfl, rfl, countP_isEarly_eq_zero ord (by rw [tail]; nofun)⟩
    | some it =>
      have mem : it ∈ trk.index :=
        ord.byTime.mem_view.mp (mem_of_mem_getLast? tail)
      simp only
      split
      case isTrue early =>
        obtain ⟨rest, changes, kept, same, due, fewer⟩ := delay_early ord inv accounted mem
          (by rw [isEarly, early.1, decide_eq_true early.2]; rfl)
        obtain ⟨later, delays, kept', same', due', none⟩ :=
          ih kept.inv kept.accounted (by omega)
        rw [changes, ok_bind]
        exact ⟨later, delays, kept.trans kept', same'.trans same, due'.trans due, none⟩
      case isFalse notEarly =>
        refine ⟨trk, rfl, kept, rfl, rfl, countP_isEarly_eq_zero ord fun last is => ?_⟩
        obtain rfl := Option.some.inj (is.symm.trans tail)
        rw [isEarly]
        grind

theorem setTimePoint_spec (now : ℤ) :
    ∃ later expired, setTimePoint ord now trk = .ok (later, expired) ∧ Kept prio trk later ∧
      later.entries = expire now trk.entries ∧
      expired.Perm (Specification.expired now trk.entries) ∧
      later.index.countP (isDue now) = 0 ∧
      later.index.countP (isEarly now) = 0 := by
  obtain ⟨passed, expired, passes, kept, expires, perm, none⟩ :=
    passWaiting_spec ord inv accounted [] (Nat.lt_succ_of_le countP_le_length)
  obtain ⟨later, delays, kept', same, due, early⟩ :=
    delaySelectable_spec ord kept.inv kept.accounted (Nat.lt_succ_of_le countP_le_length)
  rw [setTimePoint, passes, ok_bind]
  simp only
  rw [delays, ok_bind]
  refine ⟨later, expired, rfl, kept.trans kept', ?_, perm, due.trans none, early⟩
  rw [same, ← expire_of_none_due kept.inv none, expires]

end

end BitcoinCore.TxRequest
