import BitcoinCore.TxRequest.Refinement

/-!
# No transaction is requested twice from a peer

A node requests a transaction from a peer only when `getRequestable` has returned it for that
peer. An announcement that has been requested is never a candidate again: it stays,
requested or completed, as long as the tracker knows its hash and its peer, and meanwhile
the peer cannot announce the hash again. So each request uses up a candidate
(`no_repeated_request`).
-/

namespace BitcoinCore.TxRequest

open CheckedAccess TxRequestTracker List Specification Entry Operation
open Net (NodeId)

/-! ## Calls that concern an announcement -/

namespace Operation

/-- The call may end that the announcement is a candidate. -/
def settles (peer : NodeId) (txhash : Uint256) : Operation → Bool
  | .requestedTx peer' txhash' _ => peer' = peer && txhash' = txhash
  | .receivedResponse peer' txhash' => peer' = peer && txhash' = txhash
  | .forgetTxHash txhash' => txhash' = txhash
  | .disconnectedPeer peer' => peer' = peer
  | _ => false

/-- The call announces the hash. -/
def announces (txhash : Uint256) : Operation → Bool
  | .receivedInv _ gtxid _ _ => gtxid.hash = txhash
  | _ => false

/-- The call requests the hash. -/
def requests (txhash : Uint256) : Operation → Bool
  | .requestedTx _ txhash' _ => txhash' = txhash
  | _ => false

end Operation

/-- The peer's announcement of the hash can still be requested. -/
def Candidate (peer : NodeId) (txhash : Uint256) (entries : List Entry) : Prop :=
  ∃ entry ∈ entries, entry.peer = peer ∧ entry.txHash = txhash ∧ entry.isCandidate

/-- The peer's announcement of the hash has been requested or completed. -/
def Settled (peer : NodeId) (txhash : Uint256) (entries : List Entry) : Prop :=
  ∃ entry ∈ entries, entry.peer = peer ∧ entry.txHash = txhash ∧ entry.isCandidate = false

/-- The number of announcements of the hash that can still be requested. -/
def candidates (txhash : Uint256) (entries : List Entry) : ℕ :=
  entries.countP fun entry => entry.txHash = txhash && entry.isCandidate

section

variable {peer : NodeId} {txhash : Uint256} {entries : List Entry} {op : Operation}

theorem Entry.settle_isCandidate (now : ℤ) (entry : Entry) :
    (entry.settle now).isCandidate = entry.isCandidate := by
  rw [settle]
  split
  case isTrue expired =>
    rcases entry with ⟨_, _, _, status⟩
    cases status with
    | candidate => cases expired
    | requested => rfl
    | completed => rfl
  case isFalse => rfl

/-- What becomes of an announcement: it never becomes a candidate, and it stays one unless the
call settles it. -/
structure Follows (op : Operation) (entry next : Entry) : Prop where
  peer : next.peer = entry.peer
  txHash : next.txHash = entry.txHash
  isCandidate : next.isCandidate = entry.isCandidate ∨
    next.isCandidate = false ∧ op.settles entry.peer entry.txHash

/-- The hash is known no more, as no announcement of it was a candidate. -/
def Forgotten (op : Operation) (entry : Entry) (later : List Entry) : Prop :=
  (∀ other ∈ later, other.txHash ≠ entry.txHash) ∧
    (entry.isCandidate → op.settles entry.peer entry.txHash)

variable {entry next : Entry}

theorem Follows.refl (op : Operation) (entry : Entry) : Follows op entry entry :=
  ⟨rfl, rfl, .inl rfl⟩

theorem follows_requestEntry (peer : NodeId) (txhash : Uint256) (expiry : ℤ) (entry : Entry) :
    Follows (.requestedTx peer txhash expiry) entry (requestEntry peer txhash expiry entry) := by
  rw [requestEntry]
  split
  case isFalse => exact .refl ..
  case isTrue hash =>
    split
    case isTrue here => exact ⟨rfl, rfl, .inr ⟨rfl, by simp [settles, hash, here]⟩⟩
    case isFalse =>
      split
      case isFalse => exact .refl ..
      case isTrue isReq =>
        refine ⟨rfl, rfl, .inl ?_⟩
        show false = entry.isCandidate
        rw [isRequested] at isReq
        rw [isCandidate]
        grind

theorem follows_complete (peer : NodeId) (txhash : Uint256) (entry : Entry) :
    Follows (.receivedResponse peer txhash) entry
      (if entry.peer = peer ∧ entry.txHash = txhash then entry.complete else entry) := by
  split
  case isTrue here => exact ⟨rfl, rfl, .inr ⟨rfl, by simp [settles, here]⟩⟩
  case isFalse => exact .refl ..

theorem follows_settle (op : Operation) (now : ℤ) (entry : Entry) :
    Follows op entry (entry.settle now) :=
  ⟨entry.settle_peer, entry.settle_txHash, .inl (settle_isCandidate now entry)⟩

theorem Follows.prune (follows : Follows op entry next) (mem : next ∈ entries) :
    (∃ next ∈ prune entries, Follows op entry next) ∨ Forgotten op entry (prune entries) := by
  by_cases tracked : ∃ other ∈ entries, other.txHash = next.txHash ∧ other.status ≠ .completed
  · exact .inl ⟨next, mem_prune.mpr ⟨mem, tracked⟩, follows⟩
  · refine .inr ⟨fun other mem' same => ?_, fun cand => ?_⟩
    · obtain ⟨-, isOpen, isIn, same', notCompleted⟩ := mem_prune.mp mem'
      exact tracked ⟨isOpen, isIn, same'.trans (same.trans follows.txHash.symm), notCompleted⟩
    · rcases follows.isCandidate with same | ⟨-, settles⟩
      · refine absurd ⟨next, mem, rfl, fun completed => ?_⟩ tracked
        rw [← same, Entry.isCandidate, completed] at cand
        cases cand
      · exact settles

theorem prune_map {change : Entry → Entry} (follows : ∀ entry, Follows op entry (change entry))
    (mem : entry ∈ entries) : (∃ next ∈ prune (entries.map change), Follows op entry next) ∨
      Forgotten op entry (prune (entries.map change)) :=
  (follows entry).prune (mem_map_of_mem mem)

/-- All that can become of an announcement in a call. -/
theorem specify_follows (op : Operation) (mem : entry ∈ entries) :
    (∃ next ∈ op.specify entries, Follows op entry next) ∨
      Forgotten op entry (op.specify entries) ∨ op = .disconnectedPeer entry.peer := by
  cases op with
  | receivedInv peer gtxid preferred reqtime =>
    refine .inl ⟨entry, ?_, .refl ..⟩
    rw [specify, Specification.receivedInv]
    split
    · exact mem
    · exact mem_append_left _ mem
  | requestedTx peer txhash expiry =>
    left
    rw [specify, Specification.requestedTx]
    split
    · exact ⟨_, mem_map_of_mem mem, follows_requestEntry ..⟩
    · exact ⟨entry, mem, .refl ..⟩
  | receivedResponse peer txhash =>
    exact (prune_map (follows_complete peer txhash) mem).imp_right .inl
  | forgetTxHash txhash =>
    by_cases hash : entry.txHash = txhash
    · refine .inr (.inl ⟨fun other mem' => ?_, fun _ => by simp [settles, hash]⟩)
      rw [hash]
      exact of_decide_eq_true (mem_filter.mp mem').2
    · exact .inl ⟨entry, mem_filter.mpr ⟨mem, decide_eq_true hash⟩, .refl ..⟩
  | disconnectedPeer peer =>
    by_cases here : entry.peer = peer
    · exact .inr (.inr (congrArg _ here.symm))
    · exact ((Follows.refl _ entry).prune
        (mem_filter.mpr ⟨mem, decide_eq_true here⟩)).imp_right .inl
  | getRequestable peer now =>
    exact (prune_map (follows_settle _ now) mem).imp_right .inl

/-- A candidate stays one until a call concerns it. -/
theorem Candidate.specify (cand : Candidate peer txhash entries)
    (other : op.settles peer txhash = false) : Candidate peer txhash (op.specify entries) := by
  obtain ⟨entry, mem, rfl, rfl, isCand⟩ := cand
  have notSettled := Bool.eq_false_iff.mp other
  obtain ⟨next, isIn, follows⟩ | forgotten | rfl := specify_follows op mem
  · have same := follows.isCandidate.resolve_right fun settled => notSettled settled.2
    exact ⟨next, isIn, follows.peer, follows.txHash, same.trans isCand⟩
  · exact absurd (forgotten.2 isCand) notSettled
  · simp [settles] at other

/-- A settled announcement stays one until its hash is forgotten or its peer goes. -/
theorem Settled.specify (settled : Settled peer txhash entries)
    (stays : op ≠ .disconnectedPeer peer) : Settled peer txhash (op.specify entries) ∨
      ∀ entry ∈ op.specify entries, entry.txHash ≠ txhash := by
  obtain ⟨entry, mem, rfl, rfl, notCandidate⟩ := settled
  obtain ⟨next, isIn, follows⟩ | forgotten | gone := specify_follows op mem
  · refine .inl ⟨next, isIn, follows.peer, follows.txHash, ?_⟩
    exact follows.isCandidate.elim (·.trans notCandidate) And.left
  · exact .inr forgotten.1
  · exact absurd gone stays

theorem Candidate.requestedTx (cand : Candidate peer txhash entries) (expiry : ℤ) :
    Settled peer txhash (requestedTx peer txhash expiry entries) := by
  obtain ⟨entry, mem, here, same, isCand⟩ := cand
  have known : (entries.any fun entry => entry.peer = peer ∧ entry.txHash = txhash ∧
      entry.isCandidate) :=
    any_eq_true.mpr ⟨entry, mem, decide_eq_true ⟨here, same, isCand⟩⟩
  rw [Specification.requestedTx, if_pos known]
  refine ⟨_, mem_map_of_mem mem, ?_⟩
  rw [requestEntry, if_pos same, if_pos here]
  exact ⟨here, same, rfl⟩

/-! ## Counting candidates -/

theorem candidates_le_of_sublist {later : List Entry} {change : Entry → Entry}
    (part : later.Sublist (entries.map change)) (follows : ∀ entry, Follows op entry (change entry)) :
    candidates txhash later ≤ candidates txhash entries := by
  refine part.countP_le.trans ?_
  rw [countP_map]
  refine countP_mono_left fun entry _ isCand => ?_
  rw [Function.comp_apply, (follows entry).txHash, Bool.and_eq_true] at isCand
  rw [Bool.and_eq_true]
  rcases (follows entry).isCandidate with same | ⟨settled, -⟩
  · exact ⟨isCand.1, same.symm.trans isCand.2⟩
  · exact absurd isCand.2 (Bool.eq_false_iff.mp settled)

theorem candidates_specify (silent : op.announces txhash = false) :
    candidates txhash (op.specify entries) ≤ candidates txhash entries := by
  cases op with
  | receivedInv peer gtxid preferred reqtime =>
    rw [specify, Specification.receivedInv]
    split
    case isTrue => exact le_rfl
    case isFalse =>
      have other : gtxid.hash ≠ txhash := of_decide_eq_false silent
      rw [candidates, countP_append, countP_singleton]
      simp [txHash, other, candidates]
  | requestedTx peer txhash' expiry =>
    rw [specify, Specification.requestedTx]
    split
    case isFalse => exact le_rfl
    case isTrue =>
      exact candidates_le_of_sublist (Sublist.refl _) (follows_requestEntry peer txhash' expiry)
  | receivedResponse peer txhash' =>
    exact candidates_le_of_sublist filter_sublist (follows_complete peer txhash')
  | forgetTxHash txhash' => exact filter_sublist.countP_le
  | disconnectedPeer peer =>
    exact (filter_sublist.trans filter_sublist).countP_le
  | getRequestable peer now =>
    exact candidates_le_of_sublist filter_sublist (follows_settle (.getRequestable peer now) now)

/-- A request uses up a candidate. -/
theorem candidates_requestedTx (cand : Candidate peer txhash entries) (expiry : ℤ) :
    candidates txhash (requestedTx peer txhash expiry entries) < candidates txhash entries := by
  obtain ⟨entry, mem, here, same, isCand⟩ := cand
  have known : (entries.any fun entry => entry.peer = peer ∧ entry.txHash = txhash ∧
      entry.isCandidate) :=
    any_eq_true.mpr ⟨entry, mem, decide_eq_true ⟨here, same, isCand⟩⟩
  have fewer : ∀ part : List Entry, candidates txhash (part.map (requestEntry peer txhash expiry)) ≤
      candidates txhash part := fun part =>
    candidates_le_of_sublist (Sublist.refl _) (follows_requestEntry peer txhash expiry)
  have used : (requestEntry peer txhash expiry entry).isCandidate = false := by
    rw [requestEntry, if_pos same, if_pos here]
    rfl
  rw [Specification.requestedTx, if_pos known]
  obtain ⟨pre, after, rfl⟩ := append_of_mem mem
  have pre' := fewer pre
  have after' := fewer after
  simp only [candidates, map_append, map_cons, countP_append, countP_cons, used,
    isCand, same, Bool.and_false, Bool.false_eq_true, if_false, decide_true, Bool.and_true,
    if_true] at pre' after' ⊢
  omega

end

/-! ## Runs -/

section

variable {prio : PriorityComputer} (ord : Orders prio)

/-- The transaction has been returned for the peer, and no call has concerned it since. -/
def Granted (pre : List Operation) (peer : NodeId) (txhash : Uint256) : Prop :=
  ∃ init now since trk requestable expired later, pre = init ++ .getRequestable peer now :: since ∧
      (∀ op ∈ since, op.settles peer txhash = false) ∧
      runTracker ord init {} = .ok trk ∧
      trk.getRequestable ord peer now = .ok (requestable, expired, later) ∧
      ∃ gtxid ∈ requestable, gtxid.hash = txhash

/-- Only transactions that have just been returned for a peer are requested from it. -/
def Disciplined (ops : List Operation) : Prop :=
  ∀ pre peer txhash expiry after, ops = pre ++ .requestedTx peer txhash expiry :: after →
      Granted ord pre peer txhash

variable {ord} {trk : TxRequestTracker} {peer : NodeId} {txhash : Uint256}

theorem candidate_of_requestable (inv : IndexInv prio trk.index)
    (accounted : Accounted trk) {now : ℤ} {requestable : List GenTxid} {expired : List Expired}
    {later : TxRequestTracker}
    (answers : trk.getRequestable ord peer now = .ok (requestable, expired, later))
    {gtxid : GenTxid} (mem : gtxid ∈ requestable) (hash : gtxid.hash = txhash) :
    Candidate peer txhash trk.entries := by
  obtain ⟨expired', later', answers', -, entries, -⟩ :=
    getRequestable_spec ord inv accounted peer now
  rw [answers, Except.ok.injEq, Prod.mk.injEq, Prod.mk.injEq] at answers'
  obtain ⟨rfl, -, rfl⟩ := answers'
  obtain ⟨ann, viewed, rfl⟩ := mem_map.mp mem
  obtain ⟨walked, holds⟩ := mem_filter.mp (ord.bySequence.mem_view.mp viewed)
  rw [Bool.and_eq_true, decide_eq_true_iff, decide_eq_true_iff] at holds
  have shown : ann.entry ∈ later.entries :=
    mem_map_of_mem (ord.byPeer.mem_view.mp walked)
  rw [entries] at shown
  obtain ⟨entry, isIn, settled⟩ := mem_map.mp (mem_prune.mp shown).1
  refine ⟨entry, isIn, ?_, ?_, ?_⟩
  · rw [← entry.settle_peer, settled]
    exact holds.1
  · rw [← entry.settle_txHash, settled]
    exact hash
  · rw [← entry.settle_isCandidate, settled, Announcement.isCandidate_entry, holds.2]
    rfl

theorem Candidate.not_settled (cand : Candidate peer txhash trk.entries)
    (inv : IndexInv prio trk.index) : ¬ Settled peer txhash trk.entries := by
  rintro ⟨entry', mem', here', same', notCandidate⟩
  obtain ⟨entry, mem, here, same, isCand⟩ := cand
  obtain ⟨ann, isIn, rfl⟩ := mem_map.mp mem
  obtain ⟨ann', isIn', rfl⟩ := mem_map.mp mem'
  obtain rfl := eq_of_identity_eq inv.unique isIn isIn' (here.trans here'.symm)
    (same.trans same'.symm)
  exact Bool.false_ne_true (notCandidate.symm.trans isCand)

variable {ops : List Operation} {entries : List Entry}

theorem Candidate.run (cand : Candidate peer txhash entries)
    (others : ∀ op ∈ ops, op.settles peer txhash = false) :
    Candidate peer txhash (runSpecification ops entries) := by
  induction ops generalizing entries with
  | nil => exact cand
  | cons op ops ih =>
    exact ih (cand.specify (others op mem_cons_self)) fun later mem =>
      others later (mem_cons_of_mem _ mem)

theorem Settled.run (settled : Settled peer txhash entries) (stays : .disconnectedPeer peer ∉ ops)
    (known : ∀ past, past <+: ops →
      ∃ entry ∈ runSpecification past entries, entry.txHash = txhash) :
    Settled peer txhash (runSpecification ops entries) := by
  induction ops generalizing entries with
  | nil => exact settled
  | cons op ops ih =>
    rw [mem_cons, not_or] at stays
    rcases settled.specify (Ne.symm stays.1) with settled' | gone
    · refine ih settled' stays.2 fun past first => ?_
      exact known (op :: past) (prefix_cons_inj op |>.mpr first)
    · obtain ⟨entry, mem, here⟩ := known [op] (by simp)
      exact absurd here (gone entry mem)

theorem Granted.candidate {pre : List Operation} (granted : Granted ord pre peer txhash) :
    Candidate peer txhash (runSpecification pre []) := by
  obtain ⟨init, now, since, trk, requestable, expired, later, rfl, others, runs, answers,
    gtxid, mem, hash⟩ := granted
  obtain ⟨tracker', runs', refines⟩ := run_refines ord init
  obtain rfl := Except.ok.inj (runs.symm.trans runs')
  have cand := candidate_of_requestable refines.inv refines.accounted answers mem hash
  rw [refines.entries] at cand
  rw [runSpecification, foldl_append, foldl_cons]
  refine Candidate.run (cand.specify ?_) others
  rfl

theorem requests_le_candidates {pre after : List Operation}
    (disciplined : Disciplined ord ops) (parts : ops = pre ++ after)
    (silent : ∀ op ∈ after, op.announces txhash = false) :
    after.countP (requests txhash) ≤ candidates txhash (runSpecification pre []) := by
  induction after generalizing pre with
  | nil => exact Nat.zero_le _
  | cons op after ih =>
    have parts' : ops = pre ++ [op] ++ after := by
      rw [parts, append_assoc, singleton_append]
    have rest := ih parts' fun later mem => silent later (mem_cons_of_mem _ mem)
    have fewer : candidates txhash (runSpecification (pre ++ [op]) []) +
        (op.requests txhash).toNat ≤ candidates txhash (runSpecification pre []) := by
      rw [runSpecification_append]
      cases requests : op.requests txhash with
      | false => exact candidates_specify (silent op mem_cons_self)
      | true =>
        cases op with
        | requestedTx peer txhash' expiry =>
          obtain rfl : txhash' = txhash := of_decide_eq_true requests
          exact candidates_requestedTx
            (disciplined pre peer txhash' expiry after parts).candidate expiry
        | _ => cases requests
    rw [countP_cons]
    cases requests : op.requests txhash <;> rw [requests] at fewer <;> simp at fewer ⊢ <;> omega

/-- No transaction is requested twice from a peer, at most one peer is being asked for a
transaction, and announcements without further ones yield at most one request each. -/
theorem no_repeated_request {ops : List Operation}
    (disciplined : Disciplined ord ops) : (∀ pre peer txhash expiry between after,
      ops = pre ++ .requestedTx peer txhash expiry :: between ++ after →
      .disconnectedPeer peer ∉ between → (∀ past, past <+: between → ∃ trk,
        runTracker ord (pre ++ .requestedTx peer txhash expiry :: past) {} = .ok trk ∧
          ∃ ann ∈ trk.index, ann.txHash = txhash) → ∀ now, ∃ trk requestable expired later,
        runTracker ord (pre ++ .requestedTx peer txhash expiry :: between) {} = .ok trk ∧
          trk.getRequestable ord peer now = .ok (requestable, expired, later) ∧
          ∀ gtxid ∈ requestable, gtxid.hash ≠ txhash) ∧
    (∀ pre, pre <+: ops → ∃ trk, runTracker ord pre {} = .ok trk ∧
      ∀ ann ∈ trk.index, ∀ other ∈ trk.index, ann.state = .requested →
        other.state = .requested → ann.txHash = other.txHash → ann.peer = other.peer) ∧
    ∀ pre after txhash, ops = pre ++ after → (∀ op ∈ after, op.announces txhash = false) →
      ∃ trk, runTracker ord pre {} = .ok trk ∧ after.countP (requests txhash) ≤
          trk.index.countP fun ann => ann.txHash = txhash := by
  refine ⟨?_, ?_, ?_⟩
  · intro pre peer txhash expiry between after parts stays known now
    obtain ⟨trk, runs, refines⟩ :=
      run_refines ord (pre ++ .requestedTx peer txhash expiry :: between)
    obtain ⟨expired, later, answers, -⟩ :=
      getRequestable_spec ord refines.inv refines.accounted peer now
    refine ⟨trk, _, expired, later, runs, answers, fun gtxid mem hash => ?_⟩
    have cand := candidate_of_requestable refines.inv refines.accounted answers mem hash
    have later : ∀ past, runSpecification (pre ++ .requestedTx peer txhash expiry :: past) [] =
        runSpecification past (requestedTx peer txhash expiry
          (runSpecification pre [])) := fun past => foldl_append
    have settled : Settled peer txhash trk.entries := by
      rw [refines.entries, later]
      have granted := disciplined pre peer txhash expiry (between ++ after)
        (by rw [parts, append_assoc, cons_append])
      refine (granted.candidate.requestedTx expiry).run stays fun past first => ?_
      obtain ⟨tracker', runs', ann, isIn, here⟩ := known past first
      obtain ⟨tracker'', runs'', refines''⟩ :=
        run_refines ord (pre ++ .requestedTx peer txhash expiry :: past)
      obtain rfl := Except.ok.inj (runs'.symm.trans runs'')
      rw [← later, ← refines''.entries]
      exact ⟨ann.entry, mem_map_of_mem isIn, here⟩
    exact cand.not_settled refines.inv settled
  · intro pre _
    obtain ⟨trk, runs, refines⟩ := run_refines ord pre
    refine ⟨trk, runs, fun ann mem other mem' requested requested' same => ?_⟩
    obtain ⟨selected, selection⟩ := refines.inv.selection ann.txHash
    have is := (selection.iff ann mem rfl).mp (by simp [Announcement.isSelected, requested])
    have is' := (selection.iff other mem' same.symm).mp
      (by simp [Announcement.isSelected, requested'])
    rw [Option.some.inj (is.symm.trans is')]
  · intro pre after txhash parts silent
    obtain ⟨trk, runs, refines⟩ := run_refines ord pre
    refine ⟨trk, runs, (requests_le_candidates disciplined parts silent).trans ?_⟩
    rw [← refines.entries, candidates, entries, countP_map]
    refine countP_mono_left fun ann _ holds => ?_
    rw [Function.comp_apply, Bool.and_eq_true] at holds
    exact holds.1

theorem no_repeated_request_announced :
    Disciplined (insertionOrders peerPriority) [.receivedInv 7 ⟨true, 1⟩ true 5,
        .getRequestable 7 5, .requestedTx 7 1 10] ∧
      ∃ trk, runTracker (insertionOrders peerPriority) [.receivedInv 7 ⟨true, 1⟩ true 5,
          .getRequestable 7 5] {} = .ok trk ∧
        [Operation.requestedTx 7 1 10].countP (Operation.requests 1) ≤
          trk.index.countP fun ann => ann.txHash = 1 := by
  have disciplined : Disciplined (insertionOrders peerPriority) [.receivedInv 7 ⟨true, 1⟩ true 5,
      .getRequestable 7 5, .requestedTx 7 1 10] := by
    intro pre peer txhash expiry after parts
    rcases pre with _ | ⟨first, _ | ⟨second, _ | ⟨third, pre⟩⟩⟩ <;> simp at parts
    obtain ⟨rfl, rfl, ⟨rfl, rfl, rfl⟩, rfl⟩ := parts
    exact ⟨[.receivedInv 7 ⟨true, 1⟩ true 5], 5, [], _, _, _, _, rfl, nofun, rfl, rfl, ⟨true, 1⟩,
      by decide, rfl⟩
  exact ⟨disciplined, (no_repeated_request disciplined).2.2 _ _ 1 rfl (by decide)⟩

end

end BitcoinCore.TxRequest
