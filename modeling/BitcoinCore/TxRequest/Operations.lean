import BitcoinCore.TxRequest.TimePoint

/-!
# The operations of the request tracker

No operation of the tracker fails on a consistent tracker, each leaves it consistent,
and each does to the announcements what the specification says. The selection in
`requestedTx` is found by a lower bound in the index by hash, and `disconnectedPeer`
walks through the index by peer while announcements are erased from it.
-/

namespace BitcoinCore.TxRequest

open CheckedAccess ElementUpdate SortedList TxRequestTracker List Function Announcement
open Net (NodeId)

variable {prio : PriorityComputer} {trk : TxRequestTracker}

/-! ## Announcements of a peer -/

section

variable {peer : NodeId} {txhash : Uint256} {best : Bool}

theorem find_spec {it : Announcement} (found : trk.find peer best txhash = some it) :
    it ∈ trk.index ∧ it.peer = peer ∧ it.txHash = txhash ∧
      (it.state = .candidateBest ↔ best) := by
  have holds := find?_some found
  refine ⟨mem_of_find?_eq_some found, ?_⟩
  grind

theorem find_none (absent : trk.find peer true txhash = none)
    (absent' : trk.find peer false txhash = none) {ann : Announcement}
    (member : ann ∈ trk.index) (here : ann.peer = peer) : ann.txHash ≠ txhash := by
  have lacks := find?_eq_none.mp absent ann member
  have lacks' := find?_eq_none.mp absent' ann member
  grind

end

/-! ## Announcing -/

variable {ann : Announcement}

theorem Accounted.append (acct : Accounted trk)
    (isNew : ann.state = .candidateDelayed) (sequence changes : ℕ) : Accounted {
      index := trk.index ++ [ann]
      peerInfo := update trk.peerInfo ann.peer (some
        { (trk.peerInfo ann.peer).getD {} with
          total := ((trk.peerInfo ann.peer).getD {}).total + 1 })
      currentSequence := sequence
      changes := changes } := by
  intro other
  show update trk.peerInfo ann.peer _ other = statistics (trk.index ++ [ann]) other
  rw [statistics_perm (perm_append_singleton ann trk.index)]
  rcases eq_or_ne other ann.peer with rfl | apart
  · rw [update_self, statistics_cons_self, acct ann.peer, statistics_getD]
    simp [PeerInfo.record, isNew]
  · rw [update_of_ne apart, acct other, statistics_cons_of_ne _ _ apart.symm]

theorem IndexInv.append (inv : IndexInv prio trk.index) (isNew : ann.state = .candidateDelayed)
    (absent : ∀ other ∈ trk.index, other.peer = ann.peer → other.txHash ≠ ann.txHash) :
    IndexInv prio (trk.index ++ [ann]) := by
  have unique : ((trk.index ++ [ann]).map identity).Nodup := by
    rw [map_append, map_singleton, nodup_append]
    refine ⟨inv.unique, nodup_singleton _, ?_⟩
    intro identity member identity' member' same
    rw [mem_singleton.mp member'] at same
    subst same
    obtain ⟨other, isIn, same⟩ := mem_map.mp member
    exact absent other isIn (congrArg Prod.fst same) (congrArg Prod.snd same)
  have others : ∀ other, other.txHash ≠ ann.txHash →
      (other ∈ trk.index ++ [ann] ↔ other ∈ trk.index) := by
    intro other apart
    have : other ≠ ann := fun same => apart (same ▸ rfl)
    simp [this]
  refine inv.of_hash ann.txHash unique others ?_ fun _ _ _ => ?_
  · obtain ⟨sel, mem, iff, notReady, best⟩ := inv.selection ann.txHash
    refine ⟨sel, ?_⟩
    constructor <;> grind [isSelected]
  · exact ⟨ann, by simp, rfl, by simp [isNew]⟩

theorem receivedInv_cases (trk : TxRequestTracker) (peer : NodeId) (gtxid : GenTxid)
    (pref : Bool) (reqtime : ℤ) :
    (∃ ann ∈ trk.index, ann.peer = peer ∧ ann.txHash = gtxid.hash) ∧
        trk.receivedInv peer gtxid pref reqtime = trk ∨
      (∀ ann ∈ trk.index, ann.peer = peer → ann.txHash ≠ gtxid.hash) ∧
        trk.receivedInv peer gtxid pref reqtime =
          { index := trk.index ++ [{
              gtxid, peer, preferred := pref, time := reqtime,
              sequence := trk.currentSequence % 2 ^ 59 }]
            peerInfo := update trk.peerInfo peer (some
              { (trk.peerInfo peer).getD {} with
                total := ((trk.peerInfo peer).getD {}).total + 1 })
            currentSequence := (trk.currentSequence + 1) % 2 ^ 64
            changes := trk.changes + 1 } := by
  have known : ∀ best, (trk.find peer best gtxid.hash).isSome →
      ∃ ann ∈ trk.index, ann.peer = peer ∧ ann.txHash = gtxid.hash := by
    intro best isSome
    obtain ⟨it, found⟩ := Option.isSome_iff_exists.mp isSome
    obtain ⟨member, here, same, -⟩ := find_spec found
    exact ⟨it, member, here, same⟩
  rw [receivedInv]
  split
  case isTrue isSome => exact .inl ⟨known true isSome, rfl⟩
  case isFalse isNone =>
    split
    case isTrue isSome => exact .inl ⟨known false isSome, rfl⟩
    case isFalse isNone' =>
      refine .inr ⟨fun ann member here => ?_, rfl⟩
      exact find_none (Option.not_isSome_iff_eq_none.mp isNone)
        (Option.not_isSome_iff_eq_none.mp isNone') member here

theorem receivedInv_spec (inv : IndexInv prio trk.index) (acct : Accounted trk)
    (peer : NodeId) (gtxid : GenTxid) (pref : Bool) (reqtime : ℤ) :
    IndexInv prio (trk.receivedInv peer gtxid pref reqtime).index ∧
      Accounted (trk.receivedInv peer gtxid pref reqtime) ∧
      (trk.receivedInv peer gtxid pref reqtime).entries =
        Specification.receivedInv peer gtxid pref reqtime trk.entries := by
  rw [Specification.receivedInv]
  rcases receivedInv_cases trk peer gtxid pref reqtime with
    ⟨⟨ann, member, here⟩, same⟩ | ⟨absent, same⟩
  · have known : (trk.entries.any fun entry =>
        entry.peer = peer ∧ entry.txHash = gtxid.hash) :=
      any_eq_true.mpr ⟨ann.entry, mem_map_of_mem member, decide_eq_true here⟩
    rw [same, if_pos known]
    exact ⟨inv, acct, rfl⟩
  · have fresh : ¬ (trk.entries.any fun entry =>
        entry.peer = peer ∧ entry.txHash = gtxid.hash) := by
      rw [any_eq_true]
      rintro ⟨entry, member, here⟩
      obtain ⟨ann, isIn, rfl⟩ := mem_map.mp member
      exact absent ann isIn (of_decide_eq_true here).1 (of_decide_eq_true here).2
    rw [same, if_neg fresh]
    refine ⟨inv.append rfl absent, acct.append rfl _ _, ?_⟩
    rw [entries, map_append]
    rfl

/-! ## Responses -/

variable (ord : Orders prio)

theorem receivedResponse_spec (inv : IndexInv prio trk.index)
    (acct : Accounted trk) (peer : NodeId) (txhash : Uint256) :
    ∃ later, trk.receivedResponse ord peer txhash = .ok later ∧ Kept prio trk later ∧
      later.entries = Specification.receivedResponse peer txhash trk.entries := by
  rw [receivedResponse]
  cases found : (trk.find peer false txhash).or (trk.find peer true txhash) with
  | none =>
    rw [Option.or_eq_none_iff] at found
    have unchanged : (trk.entries.map fun entry =>
        if entry.peer = peer ∧ entry.txHash = txhash then entry.complete else entry) =
        trk.entries := by
      refine (map_congr_left fun entry member => ?_).trans (map_id _)
      obtain ⟨ann, isIn, rfl⟩ := mem_map.mp member
      exact if_neg fun here => find_none found.2 found.1 isIn here.1 here.2
    refine ⟨trk, rfl, ⟨inv, acct, rfl, Sublist.refl _⟩, ?_⟩
    rw [Specification.receivedResponse, unchanged, inv.prune_entries]
  | some it =>
    have spec : it ∈ trk.index ∧ it.peer = peer ∧ it.txHash = txhash := by
      rcases Option.or_eq_some_iff.mp found with found' | ⟨-, found'⟩
      · obtain ⟨member, here, same, -⟩ := find_spec found'
        exact ⟨member, here, same⟩
      · obtain ⟨member, here, same, -⟩ := find_spec found'
        exact ⟨member, here, same⟩
    obtain ⟨member, rfl, rfl⟩ := spec
    obtain ⟨remains, later, completes, resel, -⟩ := makeCompleted_spec ord inv acct member
    simp only
    rw [completes, ok_bind]
    exact ⟨later, rfl, resel.kept (sequences_pruned ..),
      resel.entries.trans (map_entry_complete inv.unique member)⟩

/-! ## Forgetting -/

theorem forgetTxHash_spec (inv : IndexInv prio trk.index) (acct : Accounted trk)
    (txhash : Uint256) :
    ∃ later, trk.forgetTxHash ord txhash = .ok later ∧ Kept prio trk later ∧
      later.entries = Specification.forgetTxHash txhash trk.entries := by
  have walk : ((fromBound (txHashKey prio)
      (toLex (txhash.toNat, toLex (State.candidateDelayed.rank, 0)))
      (trk.byTxHash ord)).takeWhile fun other => other.txHash = txhash) =
      (trk.byTxHash ord).filter fun other => other.txHash = txhash := by
    refine takeWhile_from_eq_filter (ord.byTxHash.sorted _ _) (fun ann _ here => ?_)
      fun a _ b _ lower upper here => ?_
    · rw [bound_le_txHashKey_iff]
      exact .inr ⟨(of_decide_eq_true here).symm, Nat.zero_le _⟩
    · exact decide_eq_true (txHash_of_bound lower upper (of_decide_eq_true here)).1
  obtain ⟨later, erases, became⟩ := eraseWhile_forgets inv acct (dropWhile_sublist _) walk
  refine ⟨later, erases, ⟨?_, became.accounted, became.sequence, ?_⟩, ?_⟩
  · rw [became.index]
    exact inv.forget txhash
  · rw [became.index]
    exact filter_sublist.map _
  · rw [entries, became.index, Specification.forgetTxHash, entries, filter_map]
    rfl

/-! ## Requesting -/

namespace Announcement

def request (expiry : ℤ) (ann : Announcement) : Announcement :=
  { ann with state := .requested, time := expiry }

/-- What a request for another announcement of its hash makes of a selected one. -/
def release (ann : Announcement) : Announcement :=
  ann.setState (if ann.state = .candidateBest then .candidateReady else .completed)

theorem isSelected_release (ann : Announcement) : ann.release.isSelected = false := by
  rw [release]
  split <;> rfl

theorem entry_release (isSel : ann.isSelected) :
    ann.release.entry = if ann.state = .requested then ann.entry.complete else ann.entry := by
  rcases ann with ⟨_, _, _, _, _, state⟩
  cases state <;> first | rfl | cases isSel

end Announcement

variable {sel : Option Announcement} {it : Announcement}

/-- The index after the selected announcement of a hash has been released. -/
def released (sel : Option Announcement) (idx : List Announcement) : List Announcement :=
  idx.map fun ann => if sel = some ann then ann.release else ann

theorem released_none (idx : List Announcement) : released none idx = idx := by
  simp [released]

theorem released_some (old : Announcement) (idx : List Announcement) :
    released (some old) idx = replaceElem old old.release idx := by
  refine map_congr_left fun ann _ => ?_
  by_cases same : ann = old
  · rw [if_pos same, if_pos (congrArg some same.symm), same]
  · rw [if_neg same, if_neg fun same' => same (Option.some.inj same').symm]

/-- The selected announcement is the first one of its hash from the best state on. -/
theorem releaseSelected_spec (inv : IndexInv prio trk.index)
    (acct : Accounted trk) {txhash : Uint256} (chosen : Selection prio trk.index txhash sel) :
    ∃ later, releaseSelected ord txhash trk = .ok later ∧
      Became trk later (released sel trk.index) := by
  rw [releaseSelected]
  cases sel with
  | none =>
    refine ⟨trk, ?_, (released_none _).symm, rfl, acct⟩
    split
    case h_1 => rfl
    case h_2 itOld head =>
      have member : itOld ∈ trk.index := ord.byTxHash.mem_view.mp
        ((dropWhile_sublist _).subset (mem_of_mem_head? head))
      split
      case isFalse => rfl
      case isTrue here =>
        have unselected := chosen.iff itOld member here
        simp only [isSelected, Bool.or_eq_true, decide_eq_true_iff, reduceCtorEq,
          iff_false, not_or] at unselected
        rw [if_neg unselected.1, if_neg unselected.2]
  | some old =>
    obtain ⟨member, here⟩ := chosen.mem old rfl
    have isSel := (chosen.iff old member here).mpr rfl
    have rank := isSelected_iff_rank.mp isSel
    have above : toLex (txhash.toNat, toLex (State.candidateBest.rank, 0)) ≤
        old.txHashKey prio :=
      bound_le_txHashKey_iff.mpr (.inr ⟨here.symm, by rw [State.rank]; omega⟩)
    obtain ⟨first, head, isIn, lower, upper⟩ := head?_fromBound_spec
      (ord.byTxHash.sorted _ _) (ord.byTxHash.mem_view.mpr member) above
    obtain ⟨here', rank', rank''⟩ := txHash_of_bound lower upper here
    have isSelected' : first.isSelected := by
      rw [isSelected_iff_rank]
      rw [State.rank] at rank'
      omega
    obtain rfl := Option.some.inj
      ((chosen.iff first (ord.byTxHash.mem_view.mp isIn) here').mp isSelected')
    rw [← byTxHash] at head
    simp only [head]
    rw [if_pos here, released_some, release]
    split
    case isTrue best => exact acct.modify inv.nodup member (.setState .candidateReady) rfl
    case isFalse notBest =>
      have requested : old.state = .requested := by
        rw [isSelected, Bool.or_eq_true, decide_eq_true_iff, decide_eq_true_iff]
          at isSel
        exact isSel.resolve_left notBest
      rw [if_pos requested]
      exact acct.modify inv.nodup member (.setState .completed) rfl

variable {idx : List Announcement}

theorem mem_released : ann ∈ released sel idx ↔
      (∃ old ∈ idx, sel = some old ∧ ann = old.release) ∨
        ann ∈ idx ∧ sel ≠ some ann := by
  rw [released, mem_map]
  constructor
  · rintro ⟨src, member, rfl⟩
    split
    case isTrue same => exact .inl ⟨src, member, same, rfl⟩
    case isFalse apart => exact .inr ⟨member, apart⟩
  · rintro (⟨old, member, same, rfl⟩ | ⟨member, apart⟩)
    · exact ⟨old, member, if_pos same⟩
    · exact ⟨ann, member, if_neg apart⟩

theorem IndexInv.request {later : List Announcement} (expiry : ℤ)
    (inv : IndexInv prio idx) (unique : (later.map identity).Nodup)
    (member : it ∈ later) (others : ∀ ann, ann.txHash ≠ it.txHash → (ann ∈ later ↔ ann ∈ idx))
    (unselected : ∀ ann ∈ later, ann.txHash = it.txHash → ann ≠ it → ann.isSelected = false) :
    IndexInv prio (replaceElem it (it.request expiry) later) := by
  have requested : (it.request expiry).state = .requested := rfl
  have here : (it.request expiry).txHash = it.txHash := rfl
  refine inv.of_hash it.txHash (unique_replaceElem unique it (it.request expiry) rfl rfl)
    (fun ann apart => ?_) ⟨some (it.request expiry), ?_⟩ fun _ _ _ => ?_
  · rw [← others ann apart]
    grind
  · constructor <;> grind [isSelected]
  · exact ⟨it.request expiry, mem_replaceElem.mpr (.inl ⟨rfl, member⟩), rfl, State.noConfusion⟩

theorem map_entry_request {expiry : ℤ} (unique : (idx.map identity).Nodup) (member : it ∈ idx)
    (cand : it.entry.isCandidate) (other : sel ≠ some it)
    (requests : ∀ ann ∈ idx, ann ≠ it → ann.txHash = it.txHash →
      (if sel = some ann then ann.release else ann).entry =
        if ann.state = .requested then ann.entry.complete else ann.entry)
    (selectedHere : ∀ ann, sel = some ann → ann.txHash = it.txHash) :
    (replaceElem it (it.request expiry) (released sel idx)).map entry =
      Specification.requestedTx it.peer it.txHash expiry (idx.map entry) := by
  have known : ((idx.map entry).any fun entry => entry.peer = it.peer ∧
      entry.txHash = it.txHash ∧ entry.isCandidate) :=
    any_eq_true.mpr ⟨it.entry, mem_map_of_mem member, decide_eq_true ⟨rfl, rfl, cand⟩⟩
  rw [Specification.requestedTx, if_pos known, released, replaceElem, map_map, map_map, map_map]
  refine map_congr_left fun ann isIn => ?_
  simp only [comp_apply, Specification.requestEntry, entry_peer, entry_txHash, isRequested_entry,
    decide_eq_true_iff]
  by_cases same : ann = it
  · subst same
    rw [if_neg other, if_pos rfl, if_pos rfl, if_pos rfl]
    rfl
  · have moved : (if sel = some ann then ann.release else ann) ≠ it := by
      rintro rfl
      refine same (eq_of_identity_eq unique isIn member ?_ ?_)
      · split <;> rfl
      · split <;> rfl
    rw [if_neg moved]
    by_cases here : ann.txHash = it.txHash
    · have apart : ann.peer ≠ it.peer := fun peer =>
        same (eq_of_identity_eq unique isIn member peer here)
      rw [requests ann isIn same here, if_pos here, if_neg apart]
    · rw [if_neg fun isSel => here (selectedHere ann isSel), if_neg here]

theorem map_released {β : Type*} {f : Announcement → β} (same : ∀ ann, f ann.release = f ann)
    (sel : Option Announcement) (idx : List Announcement) :
    (released sel idx).map f = idx.map f := by
  rw [released, map_map]
  refine map_congr_left fun ann _ => ?_
  rw [comp_apply]
  split
  case isTrue => exact same ann
  case isFalse => rfl

/-- A candidate is requested after the selected announcement of its hash has been
released, unless it is that one. -/
theorem modify_request {base : TxRequestTracker} (expiry : ℤ) (inv : IndexInv prio trk.index)
    (became : Became trk base (released sel trk.index))
    (member : it ∈ trk.index) (cand : it.state.rank ≤ 2) (other : sel ≠ some it)
    (isSel : ∀ ann, sel = some ann → ann.txHash = it.txHash ∧ ann.isSelected)
    (unselected : ∀ ann ∈ trk.index, ann.txHash = it.txHash → ann ≠ it →
      sel ≠ some ann → ann.isSelected = false) :
    ∃ later, base.modify it (request expiry) = .ok later ∧
      Kept prio trk later ∧
      later.entries = Specification.requestedTx it.peer it.txHash expiry trk.entries := by
  have member' : it ∈ base.index := by
    rw [became.index, mem_released]
    exact .inr ⟨member, other⟩
  have unique : (base.index.map identity).Nodup := by
    rw [became.index, map_released (fun _ => rfl)]
    exact inv.unique
  obtain ⟨later, modified, became'⟩ :=
    became.accounted.modify (unique.of_map _) member' (request expiry) rfl
  refine ⟨later, modified, ⟨?_, became'.accounted, became'.sequence.trans became.sequence, ?_⟩, ?_⟩
  · rw [became'.index]
    refine inv.request expiry unique member' (fun ann apart => ?_) fun ann isIn here apart => ?_
    · rw [became.index, mem_released]
      constructor
      · rintro (⟨old, -, same, rfl⟩ | ⟨isIn, -⟩)
        · exact absurd (isSel old same).1 apart
        · exact isIn
      · exact fun isIn => .inr ⟨isIn, fun same => apart (isSel ann same).1⟩
    · rw [became.index, mem_released] at isIn
      rcases isIn with ⟨old, -, -, rfl⟩ | ⟨isIn, notSelected⟩
      · exact old.isSelected_release
      · exact unselected ann isIn here apart notSelected
  · have same : (it.request expiry).sequence = it.sequence := rfl
    rw [became'.index, map_replaceElem same, became.index, map_released (fun _ => rfl)]
  · rw [entries, became'.index, became.index]
    refine map_entry_request inv.unique member (by simpa using cand) other
      (fun ann isIn apart here => ?_) fun ann same => (isSel ann same).1
    split
    case isTrue same => exact entry_release (isSel ann same).2
    case isFalse notSelected =>
      have notRequested := unselected ann isIn here apart notSelected
      rw [isSelected, Bool.or_eq_false_iff, decide_eq_false_iff_not,
        decide_eq_false_iff_not] at notRequested
      rw [if_neg notRequested.2]

theorem requestedTx_unchanged {peer : NodeId} {txhash : Uint256} (expiry : ℤ)
    (settled : ∀ ann ∈ trk.index, ann.peer = peer → ann.txHash = txhash → 2 < ann.state.rank) :
    Specification.requestedTx peer txhash expiry trk.entries = trk.entries := by
  refine if_neg fun cand => ?_
  obtain ⟨entry, member, holds⟩ := any_eq_true.mp cand
  obtain ⟨ann, isIn, rfl⟩ := mem_map.mp member
  obtain ⟨here, same, isCandidate⟩ := of_decide_eq_true holds
  rw [isCandidate_entry, decide_eq_true_iff] at isCandidate
  exact absurd (settled ann isIn here same) (not_lt.mpr isCandidate)

theorem requestedTx_spec (inv : IndexInv prio trk.index) (acct : Accounted trk)
    (peer : NodeId) (txhash : Uint256) (expiry : ℤ) :
    ∃ later, trk.requestedTx ord peer txhash expiry = .ok later ∧
      Kept prio trk later ∧
      later.entries = Specification.requestedTx peer txhash expiry trk.entries := by
  have kept : Kept prio trk trk := ⟨inv, acct, rfl, Sublist.refl _⟩
  rw [requestedTx]
  cases found : trk.find peer true txhash with
  | some it =>
    obtain ⟨member, rfl, rfl, isBest⟩ := find_spec found
    have best := isBest.mpr rfl
    obtain ⟨sel, chosen⟩ := inv.selection it.txHash
    obtain rfl := (chosen.iff it member rfl).mp (by simp [isSelected, best])
    have unselected : ∀ ann ∈ trk.index, ann.txHash = it.txHash → ann ≠ it →
        ann.isSelected = false := by
      intro ann isIn here apart
      rw [Bool.eq_false_iff]
      exact fun isSel => apart
        (Option.some.inj ((chosen.iff ann isIn here).mp isSel)).symm
    exact modify_request expiry inv ⟨(released_none _).symm, rfl, acct⟩ member
      (by rw [best]; decide) nofun nofun fun ann isIn here apart _ =>
        unselected ann isIn here apart
  | none =>
    cases found' : trk.find peer false txhash with
    | none =>
      exact ⟨trk, rfl, kept, (requestedTx_unchanged expiry fun ann isIn here same =>
        absurd same (find_none found found' isIn here)).symm⟩
    | some it =>
      obtain ⟨member, rfl, rfl, isBest⟩ := find_spec found'
      have notBest : it.state ≠ .candidateBest := fun best => Bool.false_ne_true (isBest.mp best)
      simp only
      split
      case isTrue settled =>
        refine ⟨trk, rfl, kept, (requestedTx_unchanged expiry fun ann isIn here same =>
          ?_).symm⟩
        obtain rfl := eq_of_identity_eq inv.unique isIn member here same
        cases state : ann.state <;> simp_all [State.rank]
      case isFalse cand =>
        obtain ⟨sel, chosen⟩ := inv.selection it.txHash
        obtain ⟨base, releases, became⟩ := releaseSelected_spec ord inv acct chosen
        have state : it.state = .candidateDelayed ∨ it.state = .candidateReady := by
          grind
        have other : sel ≠ some it := by
          rintro rfl
          have isSel := (chosen.iff it member rfl).mpr rfl
          rcases state with state | state <;> simp [isSelected, state] at isSel
        rw [releases, ok_bind]
        refine modify_request expiry inv became member
          (by rcases state with state | state <;> rw [state] <;> decide) other
          (fun ann same => ?_) fun ann isIn here _ notSelected => ?_
        · obtain ⟨isIn, here⟩ := chosen.mem ann same
          exact ⟨here, (chosen.iff ann isIn here).mpr same⟩
        · rw [Bool.eq_false_iff]
          exact fun isSel => notSelected ((chosen.iff ann isIn here).mp isSel)

/-! ## Disconnecting -/

namespace Announcement

variable {a b c : Announcement}

theorem bound_le_peerKey_iff {peer : NodeId} {best : ℕ} :
    toLex (peer, toLex (best, 0)) ≤ a.peerKey ↔
      peer < a.peer ∨ peer = a.peer ∧ best ≤ (a.state = .candidateBest : Bool).toNat := by
  rw [peerKey, Prod.Lex.toLex_le_toLex, Prod.Lex.toLex_le_toLex, le_iff_lt_or_eq (a := best),
    and_iff_left (Nat.zero_le _)]

theorem peer_le_of_bound {peer : NodeId} {best : ℕ}
    (lower : toLex (peer, toLex (best, 0)) ≤ a.peerKey) : peer ≤ a.peer := by
  rcases bound_le_peerKey_iff.mp lower with less | ⟨same, -⟩
  · exact less.le
  · exact same.le

theorem peer_le_of_peerKey_le (order : a.peerKey ≤ b.peerKey) : a.peer ≤ b.peer :=
  Prod.Lex.monotone_fst _ _ order

theorem txHash_eq_of_peerKey_eq (same : a.peerKey = b.peerKey) : a.txHash = b.txHash := by
  have keys := toLex_inj.mp (Prod.ext_iff.mp (toLex_inj.mp same)).2
  exact BitVec.toNat_inj.mp (Prod.ext_iff.mp keys).2

end Announcement

theorem IndexInv.removeElem_completed (inv : IndexInv prio idx) (done : ann.state = .completed) :
    IndexInv prio (removeElem ann idx) := by
  have unselected : ann.isSelected = false := by simp [isSelected, done]
  refine inv.of_hash ann.txHash (unique_filter inv.unique _) (fun other apart => ?_) ?_
    fun other member here => ?_
  · grind
  · obtain ⟨sel, mem, iff, notReady, best⟩ := inv.selection ann.txHash
    refine ⟨sel, ?_⟩
    constructor <;> grind
  · obtain ⟨open', isIn, same, isOpen⟩ := inv.tracked other (mem_removeElem.mp member).1
    refine ⟨open', mem_removeElem.mpr ⟨isIn, ?_⟩, same.trans here, isOpen⟩
    rintro rfl
    exact isOpen done

theorem complete_and_erase (inv : IndexInv prio trk.index)
    (acct : Accounted trk) (member : it ∈ trk.index) :
    ∃ remains done later, makeCompleted ord it trk = .ok (remains, done) ∧
      (if remains then done.erase (it.setState .completed) else .ok done) = .ok later ∧
      Kept prio trk later ∧
      (∀ ann, ann.txHash ≠ it.txHash → (ann ∈ later.index ↔ ann ∈ trk.index)) ∧
      later.entries = Specification.prune (trk.entries.filter fun entry =>
        ¬ (entry.peer = it.peer ∧ entry.txHash = it.txHash)) := by
  obtain ⟨remains, done, completes, resel, iff⟩ :=
    makeCompleted_spec ord inv acct member
  have erases : ∃ later,
      (if remains then done.erase (it.setState .completed) else .ok done) = .ok later ∧
        Became done later (removeElem (it.setState .completed) done.index) := by
    cases remains with
    | true => exact resel.accounted.erase resel.inv.nodup (iff.mp rfl)
    | false =>
      have absent : it.setState .completed ∉ done.index := fun isIn =>
        Bool.false_ne_true (iff.mpr isIn)
      exact ⟨done, rfl, (removeElem_of_not_mem absent).symm, rfl, resel.accounted⟩
  obtain ⟨later, erases, became⟩ := erases
  have inv' : IndexInv prio later.index := by
    rw [became.index]
    exact resel.inv.removeElem_completed rfl
  refine ⟨remains, done, later, completes, erases, ⟨inv', became.accounted,
    became.sequence.trans resel.sequence, ?_⟩, fun ann apart => ?_, ?_⟩
  · rw [became.index]
    exact (filter_sublist.map _).trans (resel.kept (sequences_pruned ..)).sequences
  · rw [became.index, ← resel.others ann apart]
    grind
  · have only : ∀ ann ∈ done.index, ann.peer = it.peer → ann.txHash = it.txHash →
        ann = it.setState .completed := by
      intro ann isIn peer here
      have shown : ann.outline ∈ done.index.map outline :=
        mem_map_of_mem isIn
      rw [resel.outline] at shown
      obtain ⟨src, isIn', outline⟩ := mem_map.mp shown
      have identity : src.identity = (it.setState .completed).identity := by
        rw [← identity_outline, outline, identity_outline]
        exact Prod.ext peer here
      have same : src = it.setState .completed := inj_on_of_nodup_map
        (unique_replaceElem inv.unique it (it.setState .completed) rfl rfl)
        (by simpa [pruned] using isIn' : _ ∧ _).1 (mem_replaceElem.mpr (.inl ⟨rfl, member⟩)) identity
      exact eq_of_outline (outline.symm.trans (congrArg _ same)) rfl
    have dropped : later.entries =
        (Specification.receivedResponse it.peer it.txHash trk.entries).filter fun entry =>
          ¬ (entry.peer = it.peer ∧ entry.txHash = it.txHash) := by
      have completes : done.entries = _ :=
        resel.entries.trans (map_entry_complete inv.unique member)
      rw [entries, entries, ← completes, entries, became.index, removeElem, filter_map]
      congr 1
      refine filter_congr fun ann isIn => ?_
      rw [comp_apply, decide_eq_decide, not_iff_not]
      constructor
      · rintro rfl
        exact ⟨rfl, rfl⟩
      · exact fun here => only ann isIn here.1 here.2
    rw [← inv'.prune_entries, dropped, Specification.prune_filter_receivedResponse]

section

variable {peer : NodeId}

theorem disconnectedPeer_absent (inv : IndexInv prio trk.index)
    (absent : ∀ ann ∈ trk.index, ann.peer ≠ peer) :
    Specification.disconnectedPeer peer trk.entries = trk.entries := by
  have same : (trk.entries.filter fun entry => entry.peer ≠ peer) = trk.entries := by
    rw [filter_eq_self]
    intro entry member
    obtain ⟨ann, isIn, rfl⟩ := mem_map.mp member
    exact decide_eq_true (absent ann isIn)
  rw [Specification.disconnectedPeer, same, inv.prune_entries]

theorem next_byPeer_spec (inv : IndexInv prio trk.index)
    (member : it ∈ trk.index) (here : it.peer = peer) (isIn : ann ∈ trk.index)
    (peer' : ann.peer = peer) (apart : ann ≠ it) (order : it.peerKey ≤ ann.peerKey) :
    ∃ itNext, ((SortedList.next (trk.byPeer ord) it).filter fun other => other.peer = peer) =
      some itNext ∧ itNext.peer = peer ∧ itNext.peerKey ≤ ann.peerKey := by
  have sorted : (trk.byPeer ord).Pairwise _ := ord.byPeer.sorted _ _
  have nodup : (trk.byPeer ord).Nodup := ord.byPeer.nodup_view inv.nodup
  have member' : it ∈ trk.byPeer ord := ord.byPeer.mem_view.mpr member
  rcases neighbour_bounds sorted nodup member' (ord.byPeer.mem_view.mpr isIn) apart with
    ⟨itPrev, found, order'⟩ | ⟨itNext, found, order'⟩
  · -- the keys of the announcements of a peer are different
    have before := (prev_spec sorted nodup member' found).2.2
    have same := txHash_eq_of_peerKey_eq (le_antisymm (order'.trans before) order)
    exact absurd (eq_of_identity_eq inv.unique isIn member (peer'.trans here.symm) same) apart
  · have behind := (next_spec sorted nodup member' found).2.2
    have between : itNext.peer = peer := le_antisymm
      ((peer_le_of_peerKey_le order').trans peer'.le)
      (here.ge.trans (peer_le_of_peerKey_le behind))
    exact ⟨itNext, by simp [found, between], between, order'⟩

theorem disconnectFrom_spec {rounds : ℕ} {cur : Option Announcement}
    (inv : IndexInv prio trk.index) (acct : Accounted trk) (enough : trk.index.length < rounds)
    (valid : ∀ it, cur = some it → it.peer = peer → it ∈ trk.index)
    (ahead : ∀ ann ∈ trk.index, ann.peer = peer →
      ∃ it, cur = some it ∧ it.peer = peer ∧ it.peerKey ≤ ann.peerKey) :
    ∃ later, disconnectFrom ord peer rounds cur trk = .ok later ∧
      Kept prio trk later ∧
      later.entries = Specification.disconnectedPeer peer trk.entries := by
  induction rounds generalizing trk cur with
  | zero => exact absurd enough (Nat.not_lt_zero _)
  | succ rounds ih =>
    have kept : Kept prio trk trk := ⟨inv, acct, rfl, Sublist.refl _⟩
    cases cur with
    | none =>
      refine ⟨trk, rfl, kept, (disconnectedPeer_absent inv fun ann isIn here => ?_).symm⟩
      obtain ⟨it, isNone, -⟩ := ahead ann isIn here
      cases isNone
    | some it =>
      rw [disconnectFrom]
      split
      case isFalse other =>
        refine ⟨trk, rfl, kept, (disconnectedPeer_absent inv fun ann isIn here => ?_).symm⟩
        obtain ⟨it', same, here', -⟩ := ahead ann isIn here
        cases same
        exact other here'
      case isTrue here =>
        have member := valid it rfl here
        obtain ⟨remains, done, rest, completes, erases, kept', others, entries⟩ :=
          complete_and_erase ord inv acct member
        have gone : ∀ ann ∈ rest.index, ann.peer = peer → ann.txHash ≠ it.txHash := by
          intro ann isIn peer' same
          have shown : ann.entry ∈ rest.entries := mem_map_of_mem isIn
          rw [entries] at shown
          exact of_decide_eq_true (mem_filter.mp (Specification.mem_prune.mp shown).1).2
            ⟨peer'.trans here.symm, same⟩
        have fewer : rest.index.length < trk.index.length := by
          have lengths : ∀ trk : TxRequestTracker,
              trk.entries.length = trk.index.length := fun _ => length_map _
          rw [← lengths, ← lengths, entries]
          refine (length_filter_le _ _).trans_lt
            (length_filter_lt_length_iff_exists.mpr
              ⟨it.entry, mem_map_of_mem member, by simp⟩)
        have valid' : ∀ itNext,
            ((SortedList.next (trk.byPeer ord) it).filter fun other => other.peer = peer) =
              some itNext → itNext.peer = peer → itNext ∈ rest.index := by
          intro itNext found peer'
          have spec := next_spec (ord.byPeer.sorted _ _) (ord.byPeer.nodup_view inv.nodup)
            (ord.byPeer.mem_view.mpr member) (Option.filter_eq_some_iff.mp found).1
          have isIn := ord.byPeer.mem_view.mp spec.1
          refine (others itNext fun same => spec.2.1 ?_).mpr isIn
          exact eq_of_identity_eq inv.unique isIn member (peer'.trans here.symm) same
        have ahead' : ∀ ann ∈ rest.index, ann.peer = peer → ∃ itNext,
            ((SortedList.next (trk.byPeer ord) it).filter fun other => other.peer = peer) =
              some itNext ∧ itNext.peer = peer ∧ itNext.peerKey ≤ ann.peerKey := by
          intro ann isIn peer'
          have elsewhere := gone ann isIn peer'
          obtain ⟨it', same, -, order⟩ := ahead ann ((others ann elsewhere).mp isIn) peer'
          cases same
          exact next_byPeer_spec ord inv member here ((others ann elsewhere).mp isIn) peer'
            (fun same => elsewhere (congrArg Announcement.txHash same)) order
        obtain ⟨later, disconnects, kept'', entries'⟩ :=
          ih kept'.inv kept'.accounted (by omega) valid' ahead'
        refine ⟨later, ?_, kept'.trans kept'', ?_⟩
        · rw [completes, ok_bind]
          cases remains with
          | true =>
            simp only [if_pos] at erases ⊢
            rw [erases, ok_bind, disconnects]
          | false =>
            obtain rfl : done = rest := Except.ok.inj erases
            simp only [Bool.false_eq_true, if_false, ok_bind, disconnects]
        · rw [entries', entries]
          rw [Specification.disconnectedPeer, Specification.prune_filter_prune, filter_filter,
            Specification.disconnectedPeer]
          congr 1
          refine filter_congr fun entry mem => ?_
          by_cases same : entry.peer = peer
          · simp [same]
          · simp [same, here]

theorem disconnectedPeer_spec (inv : IndexInv prio trk.index)
    (acct : Accounted trk) (peer : NodeId) :
    ∃ later, trk.disconnectedPeer ord peer = .ok later ∧ Kept prio trk later ∧
      later.entries = Specification.disconnectedPeer peer trk.entries := by
  refine disconnectFrom_spec ord inv acct (Nat.lt_succ_self _) (fun it found _ => ?_)
    fun ann isIn here => ?_
  · exact ord.byPeer.mem_view.mp
      ((dropWhile_sublist _).subset (mem_of_mem_head? found))
  · have above : toLex (peer, toLex (0, 0)) ≤ ann.peerKey :=
      bound_le_peerKey_iff.mpr (.inr ⟨here.symm, Nat.zero_le _⟩)
    obtain ⟨it, head, -, lower, order⟩ := head?_fromBound_spec (ord.byPeer.sorted _ _)
      (ord.byPeer.mem_view.mpr isIn) above
    exact ⟨it, head, le_antisymm ((peer_le_of_peerKey_le order).trans here.le)
      (peer_le_of_bound lower), order⟩

end

end BitcoinCore.TxRequest
