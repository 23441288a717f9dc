import BitcoinCore.HeadersSync.Soundness

/-!
# An honest peer is synchronised with

A peer that serves one chain with enough work, cut into messages in any way, is
never refused. The first phase ends with the message in which the chain reaches the
required work, and the second phase, in which the chain may be cut otherwise, ends
with the message in which it does so again. The headers returned are then all the
headers up to the end of that message (`honest_synchronised`).
-/

namespace BitcoinCore.HeadersSync

open EarlyExit NumberedList List Message ProcessingResult

/-- A chain cut into messages: only the last may be short. -/
structure Splitting (chain : List CBlockHeader) (msgs : List Message) : Prop where
  headers_eq : msgs.flatMap headers = chain
  nonempty : ∀ msg ∈ msgs, msg.headers ≠ []
  full : ∀ msg ∈ msgs.dropLast, msg.full

theorem Splitting.cons {chain : List CBlockHeader} {msg : Message} {msgs : List Message}
    (splitting : Splitting chain (msg :: msgs)) : msg.headers ≠ [] ∧ (msgs ≠ [] → msg.full) ∧
      ∃ rest, chain = msg.headers ++ rest ∧ Splitting rest msgs := by
  obtain ⟨rfl, nonempty, full⟩ := splitting
  refine ⟨nonempty msg mem_cons_self, ?_, msgs.flatMap headers,
    flatMap_cons, rfl, fun other mem => nonempty other (mem_cons_of_mem _ mem), ?_⟩
  · intro more
    rw [dropLast_cons_of_ne_nil more] at full
    exact full msg mem_cons_self
  · intro other mem
    refine full other ?_
    rw [dropLast_cons_of_ne_nil (by rintro rfl; simp at mem)]
    exact mem_cons_of_mem _ mem

namespace Setup

variable (sync : Setup)

def processMessages : State → List Message → State × List ProcessingResult
  | state, [] => (state, [])
  | state, msg :: msgs =>
    let proc := sync.processNextHeaders state msg.headers msg.full
    let rest := processMessages proc.1 msgs
    (rest.1, proc.2 :: rest.2)

theorem foldl_receive (msgs : List Message) (state : State) (hist : History) :
    (msgs.foldl sync.receive (state, hist)).2.returned = hist.returned ++
        (sync.processMessages state msgs).2.flatMap powValidatedHeaders := by
  induction msgs generalizing state hist with
  | nil => simp [processMessages]
  | cons msg msgs ih =>
    have returned : (sync.record state hist msg).returned = hist.returned ++
        (sync.processNextHeaders state msg.headers msg.full).2.powValidatedHeaders := by
      simp only [record]
      split <;> rfl
    rw [foldl_cons, receive, ih, returned, processMessages, flatMap_cons, append_assoc]

structure HonestChain (chain : List CBlockHeader) : Prop where
  nonempty : chain ≠ []
  linked : sync.Linked chain
  permitted : sync.Permitted chain
  enoughWork : sync.minimumRequiredWork ≤ sync.chainWork chain
  bits_le : (sync.bits chain).length ≤ sync.maxCommitments

section

variable {sync} {chain pre seen recv : List CBlockHeader} {msg : Message}
  {msgs : List Message} {released : ℕ} {left : List Bool}

/-- The second phase after some headers, the last of which is still in the buffer. -/
def BufferedTo (sync : Setup) (pre : List CBlockHeader) (released : ℕ)
    (hdrs : List CBlockHeader) (state : State) : Prop :=
  sync.RedownloadedTo pre released hdrs state ∧ (released < hdrs.length ∨ hdrs = [])

theorem stored_bufferedTo {state : State} {hdr : CBlockHeader}
    (buffered : sync.BufferedTo pre released seen state)
    (success : (sync.validateAndStoreRedownloadedHeader state hdr).2) :
    sync.BufferedTo pre released (seen ++ [hdr])
      (sync.validateAndStoreRedownloadedHeader state hdr).1 := by
  obtain ⟨redownloaded, -⟩ := buffered
  have released_le : released ≤ seen.length := by
    obtain ⟨_, _, -, holds⟩ := redownloaded
    exact holds.released_le
  refine ⟨stored_redownloadState redownloaded success, .inl ?_⟩
  rw [length_append, length_singleton]
  exact Nat.lt_succ_of_le released_le

/-- The second phase ends with the message in which the work suffices: `state` is the
state after the headers `seen`, of which `returned` were returned. -/
structure CompletesWith (sync : Setup) (seen returned : List CBlockHeader) (state : State)
    (msgs : List Message) (count : ℕ) : Prop where
  count_pos : 0 < count
  count_le : count ≤ msgs.length
  final : (sync.processMessages state (msgs.take count)).1.downloadState = .final
  success : ∀ res ∈ (sync.processMessages state (msgs.take count)).2, res.success
  requestMore : ∀ res ∈ (sync.processMessages state (msgs.take count)).2.dropLast, res.requestMore
  returned_eq : returned ++ (sync.processMessages state (msgs.take count)).2.flatMap
      powValidatedHeaders =
    seen ++ (msgs.take count).flatMap headers
  reached : sync.minimumRequiredWork ≤ sync.chainWork (seen ++ (msgs.take count).flatMap headers)
  below : ∀ fewer, 0 < fewer → fewer < count →
    sync.chainWork (seen ++ (msgs.take fewer).flatMap headers) < sync.minimumRequiredWork

variable {returned popped : List CBlockHeader} {state next : State}

theorem CompletesWith.last (proc : sync.processNextHeaders state msg.headers msg.full =
      (next, { powValidatedHeaders := popped, success := true, requestMore := false }))
    (final : next.downloadState = .final) (returned_eq : returned ++ popped = seen ++ msg.headers)
    (reached : sync.minimumRequiredWork ≤ sync.chainWork (seen ++ msg.headers)) :
    sync.CompletesWith seen returned state (msg :: msgs) 1 where
  count_pos := Nat.one_pos
  count_le := by simp
  final := by simpa [processMessages, proc] using final
  success := by simp [processMessages, proc]
  requestMore := by simp [processMessages]
  returned_eq := by simpa [processMessages, proc] using returned_eq
  reached := by simpa using reached
  below := by
    intro fewer pos less
    omega

theorem CompletesWith.cons {count : ℕ} (proc : sync.processNextHeaders state msg.headers msg.full =
      (next, { powValidatedHeaders := popped, success := true, requestMore := true }))
    (less : sync.chainWork (seen ++ msg.headers) < sync.minimumRequiredWork)
    (completes : sync.CompletesWith (seen ++ msg.headers) (returned ++ popped) next msgs count) :
    sync.CompletesWith seen returned state (msg :: msgs) (count + 1) where
  count_pos := Nat.succ_pos count
  count_le := Nat.succ_le_succ completes.count_le
  final := by simpa [processMessages, proc] using completes.final
  success := by simpa [processMessages, proc] using completes.success
  requestMore := by
    intro res mem
    simp only [take_succ_cons, processMessages, proc] at mem
    cases answers : (sync.processMessages next (msgs.take count)).2 with
    | nil => simp [answers] at mem
    | cons answer others =>
      have later := completes.requestMore res
      rw [answers] at mem later
      rw [dropLast_cons_of_ne_nil (by simp)] at mem
      rcases mem_cons.mp mem with rfl | mem
      · rfl
      · exact later mem
  returned_eq := by simpa [processMessages, proc] using completes.returned_eq
  reached := by simpa using completes.reached
  below := by
    intro fewer pos fewer_lt
    cases fewer with
    | zero => omega
    | succ fewer =>
      rw [take_succ_cons, flatMap_cons, ← append_assoc]
      rcases Nat.eq_zero_or_pos fewer with rfl | pos
      · simpa using less
      · exact completes.below fewer pos (Nat.lt_of_succ_lt_succ fewer_lt)

namespace HonestChain

variable (honest : sync.HonestChain chain)

include honest

variable {hdrs : List CBlockHeader}

theorem linked_prefix (initial : hdrs <+: chain) : sync.Linked hdrs := by
  obtain ⟨rest, rfl⟩ := initial
  exact (successive_append.mp honest.linked).1

theorem permitted_prefix (initial : hdrs <+: chain) : sync.Permitted hdrs := by
  obtain ⟨rest, rfl⟩ := initial
  exact (successive_append.mp honest.permitted).1

theorem bits_prefix_le (initial : hdrs <+: chain) : (sync.bits hdrs).length ≤ sync.maxCommitments :=
  (bits_isPrefix initial).length_le.trans honest.bits_le

theorem unfinished_of_less {later : List CBlockHeader} (whole : hdrs ++ later = chain)
    (less : sync.chainWork hdrs < sync.minimumRequiredWork) : later ≠ [] := by
  rintro rfl
  rw [append_nil] at whole
  rw [whole] at less
  exact absurd honest.enoughWork (Nat.not_le.mpr less)

theorem full_of_less {later : List CBlockHeader} (whole : hdrs ++ later = chain)
    (less : sync.chainWork hdrs < sync.minimumRequiredWork) (full : msgs ≠ [] → msg.full)
    (splitting : Splitting later msgs) : msg.full := by
  refine full ?_
  rintro rfl
  exact honest.unfinished_of_less whole less splitting.headers_eq.symm

/-! ## The first phase -/

theorem storedCommitments (nonempty : recv ≠ []) (initial : seen ++ recv <+: chain) :
    sync.validateAndStoreHeadersCommitments (sync.presyncState seen) recv =
      (sync.startRedownload (sync.presyncState (seen ++ recv)), true) := by
  have presyncing : sync.Presyncing seen (sync.presyncState seen) :=
    ⟨rfl, honest.bits_prefix_le ((prefix_append _ _).trans initial)⟩
  have success : (sync.validateAndStoreHeadersCommitments (sync.presyncState seen) recv).2 =
      true := by
    cases recv with
    | nil => exact absurd rfl nonempty
    | cons first rest =>
      have connects : first.hashPrevBlock = sync.getHash (sync.lastHeader seen) := by
        have linked := honest.linked_prefix initial
        exact (successive_append.mp linked).2.1
      have proc : (acceptAll sync.validateAndProcessSingleHeader (sync.presyncState seen)
          (first :: rest)).2 := by
        refine acceptAll_success sync.Presyncing (· <+: chain) (fun {items more} longer =>
          (prefix_append items more).trans longer) ?_ processed_presyncState presyncing initial
        rintro hdrs state hdr ⟨rfl, -⟩ allowed
        rw [validateAndProcessSingleHeader_presyncState,
          (permitted_concat.mp (honest.permitted_prefix allowed)).2,
          decide_eq_false (Nat.not_lt.mpr (honest.bits_prefix_le allowed))]
        simp
      simp only [validateAndStoreHeadersCommitments]
      rw [if_neg (by simp [presyncState]), if_neg (not_not.mpr (by exact connects)), if_pos proc]
  exact Prod.ext (storedCommitments_presyncState presyncing nonempty success).1 success

/-- A message of the chain in the first phase: the second phase begins, or the next
message is requested. -/
theorem processNextHeaders_presyncState (nonempty : msg.headers ≠ [])
    (initial : seen ++ msg.headers <+: chain)
    (goesOn : sync.chainWork (seen ++ msg.headers) < sync.minimumRequiredWork → msg.full) :
    sync.processNextHeaders (sync.presyncState seen) msg.headers msg.full =
      (sync.startRedownload (sync.presyncState (seen ++ msg.headers)),
        { powValidatedHeaders := [], success := true, requestMore := true }) := by
  have requested : (msg.full || decide ((sync.startRedownload
      (sync.presyncState (seen ++ msg.headers))).downloadState = .redownload)) := by
    rw [startRedownload_presyncState]
    split
    case isTrue _ => simp [redownloadState]
    case isFalse missing => simp [goesOn (Nat.lt_of_not_le missing)]
  rw [processNextHeaders_presync nonempty rfl, processPresync,
    honest.storedCommitments nonempty initial]
  simp only [requested, finalizeUnlessContinued, Bool.and_self, if_true]

variable {rest : List CBlockHeader}

theorem presync_completes (splitting : Splitting rest msgs)
    (whole : seen ++ rest = chain) (unfinished : rest ≠ []) :
    ∃ count pre, pre <+: chain ∧ sync.minimumRequiredWork ≤ sync.chainWork pre ∧
      (sync.processMessages (sync.presyncState seen) (msgs.take count)).1 =
        sync.redownloadState pre [] 0 (sync.bits pre) false ∧
      ∀ res ∈ (sync.processMessages (sync.presyncState seen) (msgs.take count)).2,
        res.success ∧ res.requestMore ∧ res.powValidatedHeaders = [] := by
  -- Induction on the messages still to come; `seen` are the headers before them.
  induction msgs generalizing seen rest with
  | nil => exact absurd splitting.headers_eq.symm unfinished
  | cons msg msgs ih =>
    obtain ⟨nonempty, full, later, rfl, splittingLater⟩ := splitting.cons
    rw [← append_assoc] at whole
    have initial : seen ++ msg.headers <+: chain := ⟨later, whole⟩
    have proc := honest.processNextHeaders_presyncState nonempty initial fun less =>
      honest.full_of_less whole less full splittingLater
    rw [startRedownload_presyncState] at proc
    split at proc
    case isTrue enough =>
      refine ⟨1, seen ++ msg.headers, initial, enough, ?_, ?_⟩
      · simp only [take_succ_cons, take_zero, processMessages, proc]
      · simp [processMessages, proc]
    case isFalse less =>
      obtain ⟨count, pre, presyncedInitial, enough, after, answers⟩ :=
        ih splittingLater whole (honest.unfinished_of_less whole (Nat.lt_of_not_le less))
      refine ⟨count + 1, pre, presyncedInitial, enough, ?_, ?_⟩
      · rw [take_succ_cons, processMessages, proc]
        exact after
      · intro res mem
        rw [take_succ_cons, processMessages, proc] at mem
        rcases mem_cons.mp mem with rfl | mem
        · exact ⟨rfl, rfl, rfl⟩
        · exact answers res mem

/-! ## The second phase -/

theorem processRedownload_success (presyncedInitial : pre <+: chain)
    (enough : sync.minimumRequiredWork ≤ sync.chainWork pre)
    (holds : sync.Redownloading pre seen released left false)
    (buffered : released < seen.length ∨ seen = [])
    (initial : seen ++ recv <+: chain) (full : Bool) :
    (sync.processRedownload (sync.redownloadState pre seen released left false)
      recv full).2.success := by
  have stored : (acceptAll sync.validateAndStoreRedownloadedHeader
      (sync.redownloadState pre seen released left false) recv).2 := by
    refine acceptAll_success (sync.BufferedTo pre released) (· <+: chain)
      (fun {items more} longer => (prefix_append items more).trans longer) ?_
      stored_bufferedTo ⟨⟨_, _, rfl, holds⟩, buffered⟩ initial
    rintro hdrs state hdr ⟨redownloaded, buffered⟩ allowed
    refine stored_of_permitted redownloaded buffered (honest.linked_prefix allowed)
      (honest.permitted_prefix allowed) fun less => ?_
    -- Below the required work the second phase repeats the first.
    rcases prefix_or_prefix_of_prefix allowed presyncedInitial with shorter | longer
    · exact shorter
    · exact absurd (enough.trans (chainWork_mono longer)) (Nat.not_le.mpr less)
  simp only [processRedownload, if_pos stored]

theorem redownload_completes
    (bufferSize : 0 < sync.redownloadBufferSize) (presyncedInitial : pre <+: chain)
    (enough : sync.minimumRequiredWork ≤ sync.chainWork pre)
    (holds : sync.Redownloading pre seen released left false)
    (buffered : released < seen.length ∨ seen = []) (splitting : Splitting rest msgs)
    (whole : seen ++ rest = chain) (unfinished : rest ≠ []) :
    ∃ count, sync.CompletesWith seen (seen.take released)
      (sync.redownloadState pre seen released left false) msgs count := by
  -- Induction on the messages still to come; `seen` are the headers before them.
  induction msgs generalizing seen released left rest with
  | nil => exact absurd splitting.headers_eq.symm unfinished
  | cons msg msgs ih =>
    obtain ⟨nonempty, full, later, rfl, splittingLater⟩ := splitting.cons
    rw [← append_assoc] at whole
    have success := honest.processRedownload_success presyncedInitial enough holds buffered
      ⟨later, whole⟩ msg.full
    obtain ⟨remaining', releaseAll, after, -, proc⟩ :=
      processRedownload_redownloadState ⟨_, _, rfl, holds⟩ success
    have step : sync.processNextHeaders
        (sync.redownloadState pre seen released left false) msg.headers
        msg.full = _ :=
      (processNextHeaders_redownload nonempty rfl).trans (congrArg finalizeUnlessContinued proc)
    have released_le := holds.released_le
    have taken : (seen ++ msg.headers).take released = seen.take released :=
      take_append_of_le_length released_le
    cases releaseAll with
    | true =>
      -- All headers leave the buffer, and the synchronisation is complete.
      refine ⟨1, .last step rfl ?_ (after.work_of_releaseAll rfl)⟩
      rw [readyCount, if_pos rfl, ← taken, ← take_add, take_of_length_le]
      omega
    | false =>
      have less : sync.chainWork (seen ++ msg.headers) < sync.minimumRequiredWork := by
        refine Nat.lt_of_not_le ?_
        intro reached
        exact absurd (after.releaseAll_of_work (by simp [nonempty]) reached) (by simp)
      have unfinishedLater := honest.unfinished_of_less whole less
      have isFull := honest.full_of_less whole less full splittingLater
      have bufferedAfter : released + sync.readyCount
          ((seen ++ msg.headers).length - released) false <
            (seen ++ msg.headers).length := by
        have longer : seen.length < (seen ++ msg.headers).length := by
          simpa [length_pos_iff] using nonempty
        rw [readyCount, if_neg (by simp)]
        omega
      obtain ⟨count, completes⟩ :=
        ih after.release (.inl bufferedAfter) splittingLater whole unfinishedLater
      rw [take_add, taken] at completes
      exact ⟨count + 1, .cons (step.trans (by rw [isFull]; rfl)) less completes⟩

end HonestChain

/-- The synchronisation is lossless and complete. The headers returned in any
run are the first ones of those accepted in the second phase, which follow the start
of the chain one after the other. If the peer serves a chain with enough work, cut
into messages in one way in the first phase and in another in the second, then no
message is refused, the next one is requested until the end, and the headers returned
are those up to the end of the message in which the second phase reaches the
required work. -/
theorem honest_synchronised (sync : Setup) (bufferSize : 0 < sync.redownloadBufferSize) :
    (∀ msgs, (sync.processMessages sync.newState msgs).2.flatMap
            powValidatedHeaders <+: (sync.run msgs).2.accepted ∧
        sync.Linked (sync.run msgs).2.accepted) ∧
      ∀ chain first second, sync.HonestChain chain → Splitting chain first →
        Splitting chain second → ∃ count crossing, 0 < crossing ∧ crossing ≤ second.length ∧
          let presync := sync.processMessages sync.newState (first.take count)
          let redownload := sync.processMessages presync.1 (second.take crossing)
          presync.1.downloadState = .redownload ∧ redownload.1.downloadState = .final ∧
          (∀ res ∈ presync.2 ++ redownload.2, res.success) ∧
          (∀ res ∈ (presync.2 ++ redownload.2).dropLast, res.requestMore) ∧
          (presync.2 ++ redownload.2).flatMap powValidatedHeaders =
            (second.take crossing).flatMap headers ∧
          sync.minimumRequiredWork ≤ sync.chainWork ((second.take crossing).flatMap headers) ∧
          ∀ fewer, 0 < fewer → fewer < crossing →
            sync.chainWork ((second.take fewer).flatMap headers) <
              sync.minimumRequiredWork := by
  refine ⟨?_, ?_⟩
  · intro msgs
    have returned := sync.foldl_receive msgs sync.newState
      { presynced := [], accepted := [], returned := [] }
    rw [nil_append] at returned
    rw [← returned]
    exact (sync.run_consistent msgs).returned_isPrefix
  · intro chain first second honest splittingFirst splittingSecond
    obtain ⟨count, pre, presyncedInitial, enough, after, answers⟩ :=
      honest.presync_completes splittingFirst (nil_append chain) honest.nonempty
    obtain ⟨crossing, completes⟩ :=
      honest.redownload_completes bufferSize presyncedInitial enough
        (sync.redownloading_start pre) (.inr rfl) splittingSecond (nil_append chain)
        honest.nonempty
    rw [← newState_eq] at after answers
    refine ⟨count, crossing, completes.count_pos, completes.count_le, ?_⟩
    simp only [after]
    refine ⟨rfl, completes.final, ?_, ?_, ?_, completes.reached, completes.below⟩
    · intro res mem
      rcases mem_append.mp mem with inPresync | inRedownload
      · exact (answers res inPresync).1
      · exact completes.success res inRedownload
    · intro res mem
      rw [dropLast_append] at mem
      split at mem
      case isTrue _ => exact (answers res (mem_of_mem_dropLast mem)).2.1
      case isFalse _ =>
        rcases mem_append.mp mem with inPresync | inRedownload
        · exact (answers res inPresync).2.1
        · exact completes.requestMore res inRedownload
    · have nothing : (sync.processMessages sync.newState (first.take count)).2.flatMap
          powValidatedHeaders = [] :=
        flatMap_eq_nil_iff.mpr fun res mem => (answers res mem).2.2
      rw [flatMap_append, nothing]
      exact completes.returned_eq

end

/-! ## A chain of two headers -/

/-- A header with the hash of its predecessor and a nonce; the nonce is its hash
below. -/
def nonceHeader (hashPrevBlock : Uint256) (nNonce : BitVec 32) : CBlockHeader :=
  { CBlockHeader.null with hashPrevBlock := hashPrevBlock, nBits := 0x207fffff, nNonce := nNonce }

/-- A synchronisation that asks for the work of two headers, keeps a bit of each and
holds one header back. -/
def twoHeaderSync : Setup where
  consensusParams :=
    { powLimit := 0
      fPowAllowMinDifficultyBlocks := true
      enforceBIP94 := false
      fPowNoRetargeting := true
      nPowTargetSpacing := 600
      nPowTargetTimespan := 1209600
      spacing_pos := by decide
      spacing_le_timespan := by decide }
  commitmentPeriod := 1
  redownloadBufferSize := 1
  commitOffset := 0
  chainStart := { getBlockHeader := nonceHeader 0 0, nHeight := 0, nChainWork := 2 }
  minimumRequiredWork := 6
  maxCommitments := 2
  getHash := (·.nNonce.setWidth 256)
  hasher := (·.setWidth 64)
  commitmentPeriod_pos := by decide

def twoHeaders : List CBlockHeader := [nonceHeader 0 1, nonceHeader 1 2]

theorem honest_synchronised_twoHeaders : twoHeaderSync.HonestChain twoHeaders ∧ ∃ count crossing,
        let presync := twoHeaderSync.processMessages twoHeaderSync.newState
          ([⟨twoHeaders, false⟩].take count)
        let redownload := twoHeaderSync.processMessages presync.1
          ((twoHeaders.map fun hdr => ⟨[hdr], true⟩).take crossing)
        redownload.1.downloadState = .final := by
  have honest : twoHeaderSync.HonestChain twoHeaders :=
    { nonempty := by decide
      linked := by simp [Linked, Successive, twoHeaders, twoHeaderSync, nonceHeader]
      permitted := by simp [Permitted, Successive, twoHeaders, twoHeaderSync,
        permittedDifficultyTransition]
      enoughWork := by decide +kernel
      bits_le := by decide }
  refine ⟨honest, ?_⟩
  obtain ⟨count, crossing, -, -, -, final, -⟩ :=
    (honest_synchronised twoHeaderSync (by decide)).2 twoHeaders [⟨twoHeaders, false⟩]
      (twoHeaders.map fun hdr => ⟨[hdr], true⟩) honest
      ⟨rfl, by simp [twoHeaders], by simp⟩ ⟨rfl, by simp, by simp [twoHeaders]⟩
  exact ⟨count, crossing, final⟩

end Setup

end BitcoinCore.HeadersSync
