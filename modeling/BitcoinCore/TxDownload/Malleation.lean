import BitcoinCore.TxDownload.Connections

/-!
# Copies with another witness

A transaction with a witness has copies with the same txid that anybody can make: with
another witness, or without one. A node must not take such a copy for the transaction, or
the transaction could be kept from it.

The filters never contain an identifier of the transaction only because of its copies, and
the orphanage never contains the transaction. The orphanage is asked for txids as well,
read as wtxids, and the txid is the wtxid of the copy without a witness. Thus announcements
of the transaction are not dropped exactly as long as the orphanage does not contain this
copy (`alreadyHaveTx_malleated`).
-/

namespace BitcoinCore.TxDownload

open CheckedAccess Net Bool TxValidationResult TxRequest

/-! ## Runs with copies -/

section

variable (txs : Txs) (target : Uint256)

def World.Exact (world : World) : Prop := ∀ filter hash isMember, world.read filter hash isMember = isMember

/-- The transaction itself is not validated, and its copies are rejected in ways that say
nothing about it. -/
structure AdmissibleVerdict (world : World) (mgr : TxDownloadManager) (wtxid : Uint256)
    (res : TxValidationResult) : Prop where
  other : wtxid ≠ target
  standard : txs.txid wtxid = txs.txid target → res ≠ .inputsNotStandard
  stripped : txs.txid wtxid = txs.txid target → txs.hasWitness wtxid = false →
    res = .witnessStripped ∨ res = .missingInputs
  parents : txs.txid wtxid = txs.txid target →
    rejectedParents world mgr (getUniqueParents txs wtxid) false = false

/-- Only copies of the transaction are received, and none is accepted or confirmed. -/
def Admissible (world : World) (mgr : TxDownloadManager) : Call → Prop
  | .blockConnected vtx => ∀ wtxid ∈ vtx, txs.txid wtxid ≠ txs.txid target
  | .mempoolAcceptedTx wtxid _ => txs.txid wtxid ≠ txs.txid target
  | .mempoolRejectedTx wtxid res _ _ _ => AdmissibleVerdict txs target world mgr wtxid res
  | .mempoolRejectedPackage packageHash => packageHash ≠ target ∧ packageHash ≠ txs.txid target
  | .receivedTx _ wtxid => wtxid ≠ target
  | _ => True

/-- A run with exact filters in which every call is admissible where it is made. -/
def AdmissibleRun {prio : TxRequest.PriorityComputer} (ord : TxRequest.Orders prio)
    (limits : Orphanage.Limits) : List (World × Call) → TxDownloadManager → Prop
  | [], _ => True
  | (world, first) :: calls, mgr => world.Exact ∧ Admissible txs target world mgr first ∧
      ∀ later, call ord txs limits world mgr first = .ok later →
        AdmissibleRun ord limits calls later

/-- The call takes the copy without a witness for an orphan. -/
def Call.keepsStripped : Call → Bool
  | .mempoolRejectedTx wtxid .missingInputs _ _ _ => decide (wtxid = txs.txid target)
  | _ => false

/-- The filters contain no identifier of the transaction, and the orphanage not the
transaction nor, if this is asked for, the copy without a witness. -/
def unnamed (noStripped : Prop) : Bounds where
  hash := fun hash => hash ≠ target ∧ hash ≠ txs.txid target
  tx := fun wtxid => wtxid ≠ target ∧ (noStripped → wtxid ≠ txs.txid target)

variable {txs} {target} (witness : txs.hasWitness target)

theorem txid_txid (wtxid : Uint256) : txs.txid (txs.txid wtxid) = txs.txid wtxid :=
  txs.txid_eq _ (txs.stripped wtxid)

include witness

theorem txid_ne (wtxid : Uint256) : txs.txid wtxid ≠ target := fun same => by
  have legacy := txs.stripped wtxid
  rw [same, witness] at legacy
  cases legacy

theorem unnamed_of_txid_ne {wtxid : Uint256} (foreign : txs.txid wtxid ≠ txs.txid target)
    (noStripped : Prop) : (unnamed txs target noStripped).hash wtxid ∧
      (unnamed txs target noStripped).hash (txs.txid wtxid) := by
  refine ⟨⟨fun same => foreign (same ▸ rfl), fun same => foreign ?_⟩, txid_ne witness wtxid, foreign⟩
  rw [same, txid_txid]

omit witness in
variable {mgr : TxDownloadManager}

/-- An admissible call names the transaction nowhere, apart from the copy without a
witness in the orphanage. -/
theorem Admissible.allowed {world : World} {next : Call}
    {noStripped : Prop} (admissible : Admissible txs target world mgr next)
    (kept : noStripped → next.keepsStripped txs target = false) :
    Allowed txs (unnamed txs target noStripped) world mgr next := by
  cases next with
  | blockConnected vtx =>
    exact fun wtxid mem => unnamed_of_txid_ne witness (admissible wtxid mem) _
  | mempoolRejectedPackage packageHash => exact admissible
  | mempoolRejectedTx wtxid res nodeid firstTimeFailure now =>
    obtain ⟨other, standard, stripped, parents⟩ := admissible
    have hash : res ≠ .witnessStripped → res ≠ .missingInputs →
        (unnamed txs target noStripped).hash wtxid := by
      intro notStripped notMissing
      by_cases copy : txs.txid wtxid = txs.txid target
      · cases hasWitness : txs.hasWitness wtxid with
        | true =>
          refine ⟨other, fun same => ?_⟩
          have legacy := txs.stripped target
          rw [← same, hasWitness] at legacy
          cases legacy
        | false => exact ((stripped copy hasWitness).elim notStripped notMissing).elim
      · exact (unnamed_of_txid_ne witness copy _).1
    cases res with
    | missingInputs =>
      refine fun _ => ⟨⟨other, fun asked => of_decide_eq_false (kept asked)⟩, fun rejected => ?_⟩
      refine unnamed_of_txid_ne witness (fun copy => ?_) _
      rw [parents copy] at rejected
      cases rejected
    | witnessStripped => trivial
    | reconsiderable => exact hash noConfusion noConfusion
    | inputsNotStandard =>
      exact ⟨hash noConfusion noConfusion, fun _ =>
        (unnamed_of_txid_ne witness (fun copy => standard copy rfl) _).2⟩
    | other => exact hash noConfusion noConfusion
  | _ => trivial

theorem AdmissibleRun.allowed {prio : PriorityComputer}
    {ord : Orders prio} {limits : Orphanage.Limits} {calls : List (World × Call)} {noStripped : Prop}
    (admissible : AdmissibleRun txs target ord limits calls mgr)
    (kept : noStripped → ∀ next ∈ calls, next.2.keepsStripped txs target = false) :
    AllowedRun ord txs limits (unnamed txs target noStripped) calls mgr := by
  induction calls generalizing mgr with
  | nil => trivial
  | cons next calls ih =>
    obtain ⟨-, first, rest⟩ := admissible
    refine ⟨first.allowed witness fun asked => kept asked _ List.mem_cons_self, fun later isCall => ?_⟩
    exact ih (rest later isCall) fun asked other mem => kept asked other (List.mem_cons_of_mem _ mem)

end

/-! ## Announcements of the transaction -/

section

variable {prio : PriorityComputer} {ord : Orders prio} {txs : Txs} {limits : Orphanage.Limits}
  {world : World} {bounds : Bounds} {peers : Peers} {mgr : TxDownloadManager} {gtxid : GenTxid}

theorem alreadyHaveTx_eq_false (inv : Inv prio txs bounds peers mgr) (exact_ : world.Exact)
    (unfiltered : ¬ bounds.hash gtxid.hash) (unknown : mgr.orphanage.haveTx gtxid.hash = false)
    (absent : world.mempoolExists gtxid = false) (includeReconsiderable : Bool) :
    alreadyHaveTx world mgr gtxid includeReconsiderable = false := by
  have reads : ∀ filter, mgr.contains world filter gtxid.hash = false := by
    have notMem : ∀ {hashes : List Uint256}, (∀ hash ∈ hashes, bounds.hash hash) →
        hashes.contains gtxid.hash = false := fun allowed =>
      eq_false_iff.mpr fun mem => unfiltered (allowed _ (List.contains_iff_mem.mp mem))
    intro filter
    refine (exact_ filter _ _).trans ?_
    cases filter with
    | rejects => exact notMem inv.rejects
    | rejectsReconsiderable => exact notMem inv.rejectsReconsiderable
    | confirmed => exact notMem inv.confirmed
  rw [alreadyHaveTx, unknown, reads, reads, reads, absent, Bool.and_false]
  rfl

theorem addTxAnnouncement_unknown (inv : Inv prio txs bounds peers mgr)
    (unknown : alreadyHaveTx world mgr gtxid true = false) (peer : NodeId) (now : ℤ) :
    ∃ later, addTxAnnouncement ord txs limits world peer gtxid now mgr = .ok (later, false) := by
  have notOrphan : mgr.orphanage.haveTx gtxid.hash = false := by
    rw [alreadyHaveTx, or_eq_false_iff, or_eq_false_iff, or_eq_false_iff,
      or_eq_false_iff] at unknown
    exact unknown.1.1.1.1
  rw [addTxAnnouncement, notOrphan, Bool.and_false, if_neg Bool.false_ne_true, unknown,
    if_neg Bool.false_ne_true]
  cases found : mgr.peerInfo.lookup peer with
  | none => exact ⟨mgr, rfl⟩
  | some info =>
    dsimp only
    split
    · exact ⟨mgr, rfl⟩
    · have known : peer ∈ peers := by
        rw [← inv.peerInfo, ← AList.lookup_isSome, found]
        rfl
      obtain ⟨later, applied, -⟩ := onTracker_spec ord inv
        (.receivedInv peer gtxid info.preferred (now + requestDelay mgr peer info (!gtxid.isWtxid)))
        fun other _ _ _ isInv => by
          cases isInv
          exact known
      rw [applied]
      exact ⟨later, rfl⟩

def NotIgnored (ord : TxRequest.Orders prio) (txs : Txs) (limits : Orphanage.Limits)
    (world : World) (mgr : TxDownloadManager) (gtxid : TxRequest.GenTxid) : Prop :=
  (∀ includeReconsiderable, alreadyHaveTx world mgr gtxid includeReconsiderable = false) ∧
    ∀ peer now, ∃ later,
      addTxAnnouncement ord txs limits world peer gtxid now mgr = .ok (later, false)

/-- Announcements of a transaction are not ignored because of its copies, exactly if the
orphanage does not contain the copy without a witness. It contains this copy only if the
copy was rejected because of missing inputs. -/
theorem alreadyHaveTx_malleated (fitsLat : Orphanage.Fits limits.maxGlobalLatencyScore)
    (fitsMem : Orphanage.Fits limits.reservedUsagePerPeer) {target : Uint256}
    (witness : txs.hasWitness target) {calls : List (World × Call)}
    (admissible : AdmissibleRun txs target ord limits calls .new)
    (isRun : run ord txs limits calls .new = .ok mgr) (exact_ : world.Exact)
    (absent : world.mempoolExists ⟨true, target⟩ = false)
    (absentTxid : world.mempoolExists ⟨false, txs.txid target⟩ = false) :
    (NotIgnored ord txs limits world mgr ⟨true, target⟩ ∧
        NotIgnored ord txs limits world mgr ⟨false, txs.txid target⟩ ↔
      mgr.orphanage.haveTx (txs.txid target) = false) ∧
    ((∀ next ∈ calls, next.2.keepsStripped txs target = false) →
      mgr.orphanage.haveTx (txs.txid target) = false) := by
  have reached : ∀ {noStripped : Prop},
      (noStripped → ∀ next ∈ calls, next.2.keepsStripped txs target = false) →
      Inv prio txs (unnamed txs target noStripped) (connections calls) mgr := fun kept =>
    (run_outcome fitsLat fitsMem inv_new (admissible.allowed witness kept)).of_ok isRun
  have inv := @reached False (·.elim)
  have notOrphan : mgr.orphanage.haveTx target = false :=
    List.any_eq_false.mpr fun ann mem isTarget =>
      (inv.announced ann mem).1.1 (of_decide_eq_true isTarget)
  have notIgnored : ∀ gtxid : TxRequest.GenTxid, gtxid.hash = target ∨ gtxid.hash = txs.txid target →
      mgr.orphanage.haveTx gtxid.hash = false → world.mempoolExists gtxid = false →
      NotIgnored ord txs limits world mgr gtxid := by
    intro gtxid named unknown absent
    have unfiltered : ¬ (unnamed txs target False).hash gtxid.hash := fun allowed =>
      named.elim allowed.1 allowed.2
    have unknown' := alreadyHaveTx_eq_false inv exact_ unfiltered unknown absent
    exact ⟨unknown', addTxAnnouncement_unknown inv (unknown' true)⟩
  refine ⟨⟨fun both => ?_, fun noCopy => ⟨?_, ?_⟩⟩, fun kept => ?_⟩
  · have unknown := both.2.1 true
    rw [alreadyHaveTx, or_eq_false_iff, or_eq_false_iff, or_eq_false_iff,
      or_eq_false_iff] at unknown
    exact unknown.1.1.1.1
  · exact notIgnored _ (Or.inl rfl) notOrphan absent
  · exact notIgnored _ (Or.inr rfl) noCopy absentTxid
  · have inv' := @reached True fun _ => kept
    exact List.any_eq_false.mpr fun ann mem isCopy =>
      (inv'.announced ann mem).1.2 trivial (of_decide_eq_true isCopy)

/-- A copy with another witness is rejected, and a copy without a witness as well. -/
def rejectedCopies : List (World × Call) :=
  [(.idle, .connectedPeer 1 ⟨true, false, true⟩), (.idle, .receivedTx 1 6),
    (.idle, .mempoolRejectedTx 6 .other 1 true 0), (.idle, .receivedTx 1 4),
    (.idle, .mempoolRejectedTx 4 .witnessStripped 1 true 0)]

/-- These copies are harmless. -/
theorem alreadyHaveTx_malleated_rejected :
    ∃ mgr, run (insertionOrders peerPriority) twoWitnesses ⟨3000, 404000⟩
        rejectedCopies .new = .ok mgr ∧
      NotIgnored (insertionOrders peerPriority) twoWitnesses ⟨3000, 404000⟩ .idle mgr ⟨true, 5⟩ ∧
      NotIgnored (insertionOrders peerPriority) twoWitnesses ⟨3000, 404000⟩ .idle
        mgr ⟨false, twoWitnesses.txid 5⟩ := by
  have admissible : AdmissibleRun twoWitnesses 5 (insertionOrders peerPriority)
      ⟨3000, 404000⟩ rejectedCopies .new := by
    refine ⟨fun _ _ _ => rfl, trivial, fun later isCall => ?_⟩
    cases isCall
    refine ⟨fun _ _ _ => rfl, (by decide : (6 : Uint256) ≠ 5), fun later isCall => ?_⟩
    cases isCall
    refine ⟨fun _ _ _ => rfl, ⟨by decide, fun _ => by decide, fun _ legacy => (by cases legacy),
      fun _ => rfl⟩, fun later isCall => ?_⟩
    cases isCall
    refine ⟨fun _ _ _ => rfl, (by decide : (4 : Uint256) ≠ 5), fun later isCall => ?_⟩
    cases isCall
    exact ⟨fun _ _ _ => rfl, ⟨by decide, fun _ => by decide, fun _ _ => Or.inl rfl, fun _ => rfl⟩,
      fun _ _ => trivial⟩
  have isRun : run (insertionOrders peerPriority) twoWitnesses ⟨3000, 404000⟩
      rejectedCopies .new = .ok _ := rfl
  have exact_ : World.idle.Exact := fun _ _ _ => rfl
  have harmless := alreadyHaveTx_malleated ⟨by decide, by decide⟩ ⟨by decide, by decide⟩ rfl admissible
    isRun exact_ rfl rfl
  exact ⟨_, isRun, harmless.1.mpr (harmless.2 (by simp [rejectedCopies, Call.keepsStripped]))⟩

/-- A peer sends the copy without a witness. It has a missing parent, so that nothing else is
checked. -/
def strippedOrphan : List (World × Call) :=
  [(.idle, .connectedPeer 1 ⟨true, false, true⟩), (.idle, .receivedTx 1 4),
    (.idle, .mempoolRejectedTx 4 .missingInputs 1 true 0)]

/-- The copy without a witness makes the node ignore the transaction when it is announced
by its txid. -/
theorem alreadyHaveTx_stripped_orphan :
    AdmissibleRun twoWitnesses 5 (insertionOrders peerPriority) ⟨3000, 404000⟩ strippedOrphan .new ∧
      ∃ mgr, run (insertionOrders peerPriority) twoWitnesses ⟨3000, 404000⟩
          strippedOrphan .new = .ok mgr ∧
        alreadyHaveTx .idle mgr ⟨false, twoWitnesses.txid 5⟩ true ∧
        addTxAnnouncement (insertionOrders peerPriority) twoWitnesses ⟨3000, 404000⟩
          .idle 1 ⟨false, twoWitnesses.txid 5⟩ 0 mgr = .ok (mgr, true) := by
  refine ⟨⟨fun _ _ _ => rfl, trivial, fun later isCall => ?_⟩, _, rfl, rfl, rfl⟩
  cases isCall
  refine ⟨fun _ _ _ => rfl, (by decide : (4 : Uint256) ≠ 5), fun later isCall => ?_⟩
  cases isCall
  refine ⟨fun _ _ _ => rfl, ⟨by decide, fun _ => by decide, fun _ _ => Or.inr rfl, fun _ => rfl⟩,
    fun _ _ => trivial⟩

end

end BitcoinCore.TxDownload
