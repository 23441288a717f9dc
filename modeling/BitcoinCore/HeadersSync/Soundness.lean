import BitcoinCore.HeadersSync.Phases

/-!
# No header is handed out unverified

A run of a synchronisation is a list of messages from a peer that may send
anything. With the run goes a history, which the code does not keep: the headers
accepted in each phase and the headers returned. The state is at all times the one
that the history determines (`run_consistent`).

From that, a header is returned only in the second phase, after enough headers that
were compared with the bits of the first phase, or when the redownloaded chain has
the required work (`powValidatedHeaders_verified`).
-/

namespace BitcoinCore.HeadersSync

open EarlyExit NumberedList List

structure Message where
  headers : List CBlockHeader
  full : Bool

/-- The headers accepted in the first and in the second phase, and those
returned. -/
structure History where
  presynced : List CBlockHeader
  accepted : List CBlockHeader
  returned : List CBlockHeader

namespace Setup

variable (sync : Setup)

/-! ## Runs -/

/-- The headers of a message that are accepted in the first phase. -/
def acceptedPresync (state : State) (recv : List CBlockHeader) : List CBlockHeader :=
  match recv with
  | [] => []
  | first :: _ =>
    if first.hashPrevBlock ≠ sync.getHash state.lastHeaderReceived then []
    else accepted sync.validateAndProcessSingleHeader state recv

def record (state : State) (hist : History) (msg : Message) : History :=
  let returned := hist.returned ++
    (sync.processNextHeaders state msg.headers msg.full).2.powValidatedHeaders
  match state.downloadState with
  | .presync =>
    { hist with
      presynced := hist.presynced ++ sync.acceptedPresync state msg.headers
      returned := returned }
  | .redownload =>
    { hist with
      accepted := hist.accepted ++
        accepted sync.validateAndStoreRedownloadedHeader state msg.headers
      returned := returned }
  | .final => { hist with returned := returned }

def receive (node : State × History) (msg : Message) : State × History :=
  ((sync.processNextHeaders node.1 msg.headers msg.full).1,
    sync.record node.1 node.2 msg)

def run (msgs : List Message) : State × History :=
  msgs.foldl sync.receive (sync.newState, { presynced := [], accepted := [], returned := [] })

theorem run_concat (msgs : List Message) (msg : Message) :
    sync.run (msgs ++ [msg]) = sync.receive (sync.run msgs) msg := by
  rw [run, foldl_append]
  rfl

/-! ## One message -/

variable {released : ℕ} {state : State} {hist : History} {msg : Message}

section

variable {sync} {presynced init recv : List CBlockHeader} {left : List Bool}
  {releaseAll full : Bool} (proc : State × ProcessingResult)

theorem processNextHeaders_nil : (sync.processNextHeaders state [] full).1 = state ∧
    (sync.processNextHeaders state [] full).2.powValidatedHeaders = [] := ⟨rfl, rfl⟩

theorem processNextHeaders_presync (ne : recv ≠ [])
    (inPhase : state.downloadState = .presync) : sync.processNextHeaders state recv full =
      finalizeUnlessContinued (sync.processPresync state recv full) := by
  simp only [processNextHeaders, List.isEmpty_iff, if_neg ne, inPhase]

theorem processNextHeaders_redownload (ne : recv ≠ [])
    (inPhase : state.downloadState = .redownload) : sync.processNextHeaders state recv full =
      finalizeUnlessContinued (sync.processRedownload state recv full) := by
  simp only [processNextHeaders, List.isEmpty_iff, if_neg ne, inPhase]

theorem processNextHeaders_final (isFinal : state.downloadState = .final) :
    (sync.processNextHeaders state recv full).1 = state ∧
      (sync.processNextHeaders state recv full).2.powValidatedHeaders = [] := by
  simp only [processNextHeaders, isFinal]
  split <;> exact ⟨rfl, rfl⟩

theorem finalizeUnlessContinued_snd : (finalizeUnlessContinued proc).2 = proc.2 := by
  rw [finalizeUnlessContinued]
  split <;> rfl

/-- After a message the synchronisation goes on, or its state is dropped. -/
theorem finalizeUnlessContinued_cases :
    (proc.2.success ∧ proc.2.requestMore ∧
        (finalizeUnlessContinued proc).1 = proc.1) ∨
      (finalizeUnlessContinued proc).1 = finalize proc.1 := by
  rw [finalizeUnlessContinued]
  split
  case isTrue continues =>
    rw [Bool.and_eq_true] at continues
    exact .inl ⟨continues.1, continues.2, rfl⟩
  case isFalse _ => exact .inr rfl

theorem storedCommitments_presyncState (presyncing : sync.Presyncing presynced state)
    (ne : recv ≠ []) (success : (sync.validateAndStoreHeadersCommitments state recv).2) :
    (sync.validateAndStoreHeadersCommitments state recv).1 =
        sync.startRedownload (sync.presyncState (presynced ++ recv)) ∧
      (sync.bits (presynced ++ recv)).length ≤ sync.maxCommitments ∧
      sync.acceptedPresync state recv = recv := by
  cases recv with
  | nil => exact absurd rfl ne
  | cons first rest =>
    simp only [validateAndStoreHeadersCommitments, acceptedPresync] at success ⊢
    split at success
    case isTrue _ => simp at success
    case isFalse inPhase =>
      split at success
      case isTrue _ => simp at success
      case isFalse connects =>
        split at success
        case isFalse refused => exact absurd success refused
        case isTrue proc =>
          obtain ⟨after, fits⟩ :=
            acceptAll_invariant processed_presyncState presyncing proc
          rw [if_neg inPhase, if_neg connects, if_pos proc, after, if_neg connects]
          exact ⟨rfl, fits, accepted_of_acceptAll proc⟩

theorem Redownloading.release (holds : sync.Redownloading presynced init released left releaseAll) :
    sync.Redownloading presynced init
      (released + sync.readyCount (init.length - released) releaseAll) left releaseAll where
  linked := holds.linked
  released_le := by
    have le : sync.readyCount (init.length - released) releaseAll ≤ init.length - released := by
      rw [readyCount]
      split
      · exact le_refl _
      · exact Nat.sub_le _ _
    have := holds.released_le
    omega
  work_of_releaseAll := holds.work_of_releaseAll
  releaseAll_of_work := holds.releaseAll_of_work
  bits_eq := holds.bits_eq

theorem processRedownload_redownloadState
    (redownloaded : sync.RedownloadedTo presynced released init state)
    (success : (sync.processRedownload state recv full).2.success) :
    ∃ left releaseAll,
      sync.Redownloading presynced (init ++ recv) released left releaseAll ∧
      accepted sync.validateAndStoreRedownloadedHeader state recv = recv ∧
      sync.processRedownload state recv full =
        (sync.redownloadState presynced (init ++ recv)
            (released + sync.readyCount ((init ++ recv).length - released) releaseAll)
            left releaseAll,
          { powValidatedHeaders := ((init ++ recv).drop released).take
              (sync.readyCount ((init ++ recv).length - released) releaseAll)
            success := true
            requestMore := !releaseAll && full }) := by
  simp only [processRedownload] at success ⊢
  split at success
  case isFalse _ => simp at success
  case isTrue stored =>
    obtain ⟨left, releaseAll, after, holds⟩ :=
      acceptAll_invariant stored_redownloadState redownloaded stored
    refine ⟨left, releaseAll, holds, accepted_of_acceptAll stored, ?_⟩
    rw [if_pos stored, after, popHeadersReadyForAcceptance_redownloadState holds.linked]
    -- If all headers are released, none is left in the buffer.
    have complete : ((((init ++ recv).drop (released +
        sync.readyCount ((init ++ recv).length - released) releaseAll)).map
          CompressedHeader.ofHeader).isEmpty && releaseAll) = releaseAll := by
      cases releaseAll with
      | false => rw [Bool.and_false]
      | true =>
        have := holds.released_le
        rw [Bool.and_true, List.isEmpty_iff, map_eq_nil_iff, drop_eq_nil_iff,
          readyCount, if_pos rfl]
        omega
    simp only [redownloadState, complete]

end

/-! ## The state follows the history -/

/-- The states that belong to a history. -/
inductive Consistent : State → History → Prop
  | presync {state : State} {presynced : List CBlockHeader}
      (presyncing : sync.Presyncing presynced state) :
      Consistent state { presynced := presynced, accepted := [], returned := [] }
  | redownload {presynced accepted : List CBlockHeader} {released : ℕ} {left : List Bool}
      (fits : (sync.bits presynced).length ≤ sync.maxCommitments)
      (holds : sync.Redownloading presynced accepted released left false) :
      Consistent (sync.redownloadState presynced accepted released left false)
        { presynced := presynced, accepted := accepted, returned := accepted.take released }
  | final {state : State} {hist : History} (isFinal : state.downloadState = .final)
      (noBits : state.headerCommitments = []) (linked : sync.Linked hist.accepted)
      (released : hist.returned <+: hist.accepted) : Consistent state hist

section

variable {sync} {presynced init : List CBlockHeader}

theorem returned_append {recv : List CBlockHeader}
    {full : Bool} (redownloaded : sync.RedownloadedTo presynced released init state)
    (released_le : released ≤ init.length) :
    init.take released ++ (sync.processRedownload state recv full).2.powValidatedHeaders <+:
      init ++ accepted sync.validateAndStoreRedownloadedHeader state recv := by
  by_cases success : (sync.processRedownload state recv full).2.success
  · obtain ⟨left, releaseAll, -, allAccepted, proc⟩ :=
      processRedownload_redownloadState redownloaded success
    rw [proc, allAccepted, ← take_append_of_le_length released_le, ← take_add]
    exact take_prefix _ _
  · have nothing : (sync.processRedownload state recv full).2.powValidatedHeaders = [] := by
      simp only [processRedownload] at success ⊢
      split at success
      case isTrue _ => exact absurd rfl success
      case isFalse refused => rw [if_neg refused]
    rw [nothing, append_nil]
    exact (List.take_prefix _ _).trans (prefix_append _ _)

theorem receive_presync (presyncing : sync.Presyncing presynced state) (ne : msg.headers ≠ []) :
    let after := sync.receive (state, { presynced := presynced, accepted := [], returned := [] })
      msg
    sync.Consistent after.1 after.2 := by
  have inPhase : state.downloadState = .presync := by rw [presyncing.1]; rfl
  simp only [receive, record, inPhase, processNextHeaders_presync ne inPhase,
    finalizeUnlessContinued_snd]
  rcases finalizeUnlessContinued_cases (sync.processPresync state msg.headers msg.full) with
    ⟨success, -, continued⟩ | finished
  · obtain ⟨stored, fits, allAccepted⟩ :=
      storedCommitments_presyncState presyncing ne success
    rw [continued, allAccepted]
    simp only [processPresync, stored, startRedownload_presyncState, append_nil]
    split
    · exact .redownload fits (sync.redownloading_start _)
    · exact .presync ⟨rfl, fits⟩
  · rw [finished]
    exact .final rfl rfl trivial (prefix_refl [])

theorem receive_redownload {left : List Bool}
    (fits : (sync.bits presynced).length ≤ sync.maxCommitments)
    (holds : sync.Redownloading presynced init released left false) (ne : msg.headers ≠ []) :
    let after := sync.receive (sync.redownloadState presynced init released left false,
      { presynced := presynced, accepted := init, returned := init.take released }) msg
    sync.Consistent after.1 after.2 := by
  have redownloaded : sync.RedownloadedTo presynced released init
      (sync.redownloadState presynced init released left false) := ⟨_, _, rfl, holds⟩
  have inPhase : (sync.redownloadState presynced init released left false).downloadState =
      .redownload := rfl
  simp only [receive, record, inPhase, processNextHeaders_redownload ne inPhase,
    finalizeUnlessContinued_snd]
  rcases finalizeUnlessContinued_cases (sync.processRedownload
      (sync.redownloadState presynced init released left false) msg.headers
      msg.full) with ⟨success, requestsMore, continued⟩ | finished
  · obtain ⟨left, releaseAll, after, allAccepted, proc⟩ :=
      processRedownload_redownloadState redownloaded success
    rw [proc] at requestsMore
    obtain rfl : releaseAll = false := by
      cases releaseAll with
      | false => rfl
      | true => simp at requestsMore
    rw [continued, proc, allAccepted, ← take_append_of_le_length holds.released_le,
      ← take_add]
    exact .redownload fits after.release
  · obtain ⟨after, left, releaseAll, -, accepts⟩ :=
      accepted_invariant stored_redownloadState redownloaded msg.headers
    rw [finished]
    exact .final rfl rfl accepts.linked (returned_append redownloaded holds.released_le)

theorem receive_consistent (inv : sync.Consistent state hist) (msg : Message) :
    sync.Consistent (sync.receive (state, hist) msg).1
      (sync.receive (state, hist) msg).2 := by
  by_cases empty : msg.headers = []
  · have unchanged : sync.receive (state, hist) msg = (state, hist) := by
      simp only [receive, record, empty, processNextHeaders_nil.1, processNextHeaders_nil.2,
        acceptedPresync, accepted, append_nil]
      cases state.downloadState <;> rfl
    rw [unchanged]
    exact inv
  · cases inv with
    | presync presyncing => exact receive_presync presyncing empty
    | redownload fits holds => exact receive_redownload fits holds empty
    | final isFinal noBits linked released =>
      simp only [receive, record, isFinal, (processNextHeaders_final isFinal).1,
        (processNextHeaders_final isFinal).2, append_nil]
      exact .final isFinal noBits linked released

theorem Consistent.returned_isPrefix (inv : sync.Consistent state hist) :
    hist.returned <+: hist.accepted ∧ sync.Linked hist.accepted := by
  cases inv with
  | presync presyncing => exact ⟨prefix_refl [], trivial⟩
  | redownload fits holds => exact ⟨List.take_prefix _ _, holds.linked⟩
  | final isFinal noBits linked released => exact ⟨released, linked⟩

end

theorem run_consistent (msgs : List Message) :
    sync.Consistent (sync.run msgs).1 (sync.run msgs).2 := by
  induction msgs using List.reverseRecOn with
  | nil => exact .presync ⟨rfl, Nat.zero_le _⟩
  | append_singleton msgs msg ih =>
    rw [run_concat]
    exact receive_consistent ih msg

/-! ## Stored bits -/

section

variable {sync}

theorem checkCommitment_headerCommitments_le (height : ℕ) (hdr : CBlockHeader) :
    (sync.checkCommitment state height hdr).1.headerCommitments.length ≤
      state.headerCommitments.length := by
  rw [checkCommitment]
  split
  · split
    · exact le_refl _
    · rename_i stored
      rw [stored]
      exact Nat.le_succ _
  · exact le_refl _

theorem stored_headerCommitments_le (hdr : CBlockHeader) :
    (sync.validateAndStoreRedownloadedHeader state hdr).1.headerCommitments.length ≤
      state.headerCommitments.length := by
  have checked : (sync.checkCommitment (sync.trackWork state hdr)
      (state.redownloadBufferLastHeight + 1) hdr).1.headerCommitments.length ≤
      state.headerCommitments.length := checkCommitment_headerCommitments_le _ hdr
  simp only [validateAndStoreRedownloadedHeader]
  split_ifs
  · exact le_refl _
  · exact le_refl _
  · exact le_refl _
  · exact checked
  · exact checked

theorem Consistent.headerCommitments_le (inv : sync.Consistent state hist) :
    state.headerCommitments.length ≤ sync.maxCommitments := by
  cases inv with
  | presync presyncing =>
    rw [presyncing.1]
    exact presyncing.2
  | redownload fits holds =>
    rw [← holds.bits_eq rfl, length_append] at fits
    exact (Nat.le_add_left _ _).trans fits
  | final isFinal noBits linked released =>
    rw [noBits]
    exact Nat.zero_le _

theorem validateAndStoreHeadersCommitments_le
    (inv : sync.Consistent state hist) (recv : List CBlockHeader) :
    (sync.validateAndStoreHeadersCommitments state recv).1.headerCommitments.length ≤
      sync.maxCommitments + 1 := by
  have pre := inv.headerCommitments_le.trans (Nat.le_succ _)
  cases recv with
  | nil => exact pre
  | cons first rest =>
    simp only [validateAndStoreHeadersCommitments]
    split
    case isTrue _ => exact pre
    case isFalse inPhase =>
      split
      case isTrue _ => exact pre
      case isFalse _ =>
        have proc : (acceptAll sync.validateAndProcessSingleHeader state
            (first :: rest)).1.headerCommitments.length ≤ sync.maxCommitments + 1 := by
          cases inv with
          | presync presyncing =>
            refine acceptAll_outcome sync.Presyncing
              (·.headerCommitments.length ≤ sync.maxCommitments + 1)
              processed_presyncState ?_ processed_headerCommitments_le presyncing (first :: rest)
            intro headers state presyncing
            rw [presyncing.1]
            exact presyncing.2.trans (Nat.le_succ _)
          | redownload fits holds => exact absurd (by simp [redownloadState]) inPhase
          | final isFinal noBits linked released => exact absurd (by simp [isFinal]) inPhase
        split
        · rw [startRedownload]
          split <;> exact proc
        · exact proc

theorem acceptAll_headerCommitments_le {bound : ℕ}
    (pre : state.headerCommitments.length ≤ bound) (recv : List CBlockHeader) :
    (acceptAll sync.validateAndStoreRedownloadedHeader state
      recv).1.headerCommitments.length ≤ bound := by
  have step : ∀ {state : State} {hdr : CBlockHeader},
      state.headerCommitments.length ≤ bound →
        (sync.validateAndStoreRedownloadedHeader state hdr).1.headerCommitments.length ≤
          bound := by
    intro state hdr pre
    exact (stored_headerCommitments_le hdr).trans pre
  exact acceptAll_preserves (fun state : State => state.headerCommitments.length ≤ bound) step
    pre recv

end

/-! ## Returned headers -/

/-- At every height with a bit, the headers accepted in the second phase have the
bits of those of the first phase. -/
def BitsMatch (presynced accepted : List CBlockHeader) : Prop :=
  ∀ idx hdr, accepted[idx]? = some hdr →
    sync.isCommitHeight (sync.chainStart.nHeight + 1 + idx) →
      ∃ other, presynced[idx]? = some other ∧ sync.commitment hdr = sync.commitment other

section

variable {sync}

theorem powValidatedHeaders_presync (inPhase : state.downloadState = .presync)
    (recv : List CBlockHeader) (full : Bool) :
    (sync.processNextHeaders state recv full).2.powValidatedHeaders = [] := by
  by_cases empty : recv = []
  · rw [empty]
    exact processNextHeaders_nil.2
  · rw [processNextHeaders_presync empty inPhase, finalizeUnlessContinued_snd]
    rfl

variable {hdr : CBlockHeader}

theorem processRedownload_verified {presynced init recv : List CBlockHeader}
    {full : Bool} (redownloaded : sync.RedownloadedTo presynced released init state) {idx : ℕ}
    (found : (sync.processRedownload state recv full).2.powValidatedHeaders[idx]? = some hdr) :
    let accepted := init ++ accepted sync.validateAndStoreRedownloadedHeader state recv
    accepted[released + idx]? = some hdr ∧
      (released + idx + sync.redownloadBufferSize < accepted.length ∧
          sync.BitsMatch presynced accepted ∨
        sync.minimumRequiredWork ≤ sync.chainWork accepted) := by
  have success : (sync.processRedownload state recv full).2.success := by
    simp only [processRedownload] at found ⊢
    split at found
    case isTrue stored => rw [if_pos stored]
    case isFalse _ => simp at found
  obtain ⟨left, releaseAll, holds, allAccepted, proc⟩ :=
    processRedownload_redownloadState redownloaded success
  rw [proc] at found
  rw [allAccepted]
  simp only [getElem?_take, getElem?_drop] at found
  split at found
  case isFalse _ => simp at found
  case isTrue ready =>
    refine ⟨found, ?_⟩
    cases releaseAll with
    | true => exact .inr (holds.work_of_releaseAll rfl)
    | false =>
      refine .inl ⟨?_, fun idx hdr isAt commits =>
        eq_of_sample_prefix _ _ ⟨left, holds.bits_eq rfl⟩ isAt commits⟩
      rw [readyCount, if_neg (by simp)] at ready
      omega

theorem Consistent.verified (inv : sync.Consistent state hist)
    {idx : ℕ} (found : (sync.processNextHeaders state msg.headers
      msg.full).2.powValidatedHeaders[idx]? = some hdr) :
    let after := sync.record state hist msg
    after.accepted[hist.returned.length + idx]? = some hdr ∧
      (hist.returned.length + idx + sync.redownloadBufferSize < after.accepted.length ∧
          sync.BitsMatch after.presynced after.accepted ∨
        sync.minimumRequiredWork ≤ sync.chainWork after.accepted) := by
  cases inv with
  | presync presyncing =>
    have inPhase : state.downloadState = .presync := by rw [presyncing.1]; rfl
    rw [powValidatedHeaders_presync inPhase] at found
    simp at found
  | redownload fits holds =>
    by_cases empty : msg.headers = []
    · rw [empty, processNextHeaders_nil.2] at found
      simp at found
    · rw [processNextHeaders_redownload empty rfl, finalizeUnlessContinued_snd] at found
      rw [length_take, Nat.min_eq_left holds.released_le]
      exact processRedownload_verified ⟨_, _, rfl, holds⟩ found
  | final isFinal noBits linked released =>
    rw [(processNextHeaders_final isFinal).2] at found
    simp at found

end

/-- A header is handed out only with verified headers after it or with enough
work. While in the first phase, no header is returned. Each returned header was
accepted in the second phase, and either as many headers as the buffer holds were
accepted after it, all with the bits of the first phase, or the work of the accepted
headers reaches the required one. At no time is more than one bit above the bound
stored. -/
theorem powValidatedHeaders_verified (msgs : List Message) (msg : Message) :
    let pre := sync.run msgs
    let after := sync.receive pre msg
    let result := (sync.processNextHeaders pre.1 msg.headers msg.full).2
    (pre.1.downloadState = .presync → result.powValidatedHeaders = []) ∧
      (∀ idx hdr, result.powValidatedHeaders[idx]? = some hdr →
        after.2.accepted[pre.2.returned.length + idx]? = some hdr ∧
          (pre.2.returned.length + idx + sync.redownloadBufferSize <
                after.2.accepted.length ∧
              sync.BitsMatch after.2.presynced after.2.accepted ∨
            sync.minimumRequiredWork ≤ sync.chainWork after.2.accepted)) ∧
      ∀ recv,
        (sync.validateAndStoreHeadersCommitments pre.1 recv).1.headerCommitments.length ≤
            sync.maxCommitments + 1 ∧
          (acceptAll sync.validateAndStoreRedownloadedHeader pre.1
              recv).1.headerCommitments.length ≤ sync.maxCommitments + 1 := by
  have inv := sync.run_consistent msgs
  refine ⟨?_, ?_, ?_⟩
  · intro inPhase
    exact powValidatedHeaders_presync inPhase msg.headers msg.full
  · intro idx hdr found
    exact inv.verified found
  · intro recv
    exact ⟨validateAndStoreHeadersCommitments_le inv recv,
      acceptAll_headerCommitments_le
        (inv.headerCommitments_le.trans (Nat.le_succ _)) recv⟩

end Setup

end BitcoinCore.HeadersSync
