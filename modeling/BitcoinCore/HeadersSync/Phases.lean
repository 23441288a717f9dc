import BitcoinCore.HeadersSync.State
import BitcoinCore.Lib.NumberedList

/-!
# The two phases as functions of the accepted headers

The fields of the state are caches of what they say about the headers accepted so
far: their number, their last one, their work, their bits. `presyncState` and
`redownloadState` give the state of each phase from those headers. One accepted
header leads from the state of a list to the state of the list with that header
(`processed_presyncState`, `stored_redownloadState`), and taking headers out of the
buffer only moves the boundary between returned and buffered headers
(`popHeadersReadyForAcceptance_redownloadState`).
-/

namespace BitcoinCore.HeadersSync

open EarlyExit NumberedList List

namespace Setup

variable (sync : Setup)

/-! ## What the state remembers of a list of headers -/

def chainWork (hdrs : List CBlockHeader) : ℕ :=
  sync.chainStart.nChainWork + (hdrs.map getBlockProof).sum

def lastHeader (hdrs : List CBlockHeader) : CBlockHeader :=
  hdrs.getLastD sync.chainStart.getBlockHeader

def bits (hdrs : List CBlockHeader) : List Bool :=
  sample sync.isCommitHeight sync.commitment (sync.chainStart.nHeight + 1) hdrs

/-- Each header names the one before it, the first one the start of the chain. -/
def Linked (hdrs : List CBlockHeader) : Prop :=
  Successive (fun _ prev hdr => hdr.hashPrevBlock = sync.getHash prev)
    (sync.chainStart.nHeight + 1) sync.chainStart.getBlockHeader hdrs

def Permitted (hdrs : List CBlockHeader) : Prop :=
  Successive (fun height prev hdr =>
      permittedDifficultyTransition sync.consensusParams height prev.nBits hdr.nBits)
    (sync.chainStart.nHeight + 1) sync.chainStart.getBlockHeader hdrs

variable {hdr : CBlockHeader}

section

variable {sync} {hdrs more : List CBlockHeader}

theorem chainWork_concat :
    sync.chainWork (hdrs ++ [hdr]) = sync.chainWork hdrs + getBlockProof hdr := by
  simp [chainWork, Nat.add_assoc]

theorem chainWork_mono (initial : hdrs <+: more) : sync.chainWork hdrs ≤ sync.chainWork more := by
  obtain ⟨rest, rfl⟩ := initial
  simp [chainWork]

theorem lastHeader_concat : sync.lastHeader (hdrs ++ [hdr]) = hdr := by
  simp [lastHeader]

theorem bits_concat : sync.bits (hdrs ++ [hdr]) =
      if sync.isCommitHeight (sync.chainStart.nHeight + hdrs.length + 1) then
        sync.bits hdrs ++ [sync.commitment hdr]
      else sync.bits hdrs := by
  rw [bits, sample_append, sample, sample, Nat.add_right_comm]
  split
  · rfl
  · rw [append_nil, bits]

theorem bits_isPrefix (initial : hdrs <+: more) : sync.bits hdrs <+: sync.bits more := by
  obtain ⟨rest, rfl⟩ := initial
  rw [bits, bits, sample_append]
  exact prefix_append _ _

theorem linked_concat : sync.Linked (hdrs ++ [hdr]) ↔
      sync.Linked hdrs ∧ hdr.hashPrevBlock = sync.getHash (sync.lastHeader hdrs) :=
  successive_concat

theorem permitted_concat : sync.Permitted (hdrs ++ [hdr]) ↔ sync.Permitted hdrs ∧
        permittedDifficultyTransition sync.consensusParams
          (sync.chainStart.nHeight + hdrs.length + 1) (sync.lastHeader hdrs).nBits hdr.nBits := by
  rw [Permitted, successive_concat, Nat.add_right_comm]
  rfl

end

/-! ## The first phase -/

def presyncState (hdrs : List CBlockHeader) : State where
  currentChainWork := sync.chainWork hdrs
  headerCommitments := sync.bits hdrs
  lastHeaderReceived := sync.lastHeader hdrs
  currentHeight := sync.chainStart.nHeight + hdrs.length
  redownloadedHeaders := []
  redownloadBufferLastHeight := 0
  redownloadBufferLastHash := 0
  redownloadBufferFirstPrevHash := 0
  redownloadChainWork := 0
  processAllRemainingHeaders := false
  downloadState := .presync

theorem newState_eq : sync.newState = sync.presyncState [] := rfl

/-- The headers can be taken in the first phase without exceeding the bound on the
stored bits. -/
def Presyncing (hdrs : List CBlockHeader) (state : State) : Prop :=
  state = sync.presyncState hdrs ∧ (sync.bits hdrs).length ≤ sync.maxCommitments

variable {state : State}

section

variable {sync} {hdrs : List CBlockHeader} {cur : CBlockHeader}

theorem validateAndProcessSingleHeader_presyncState :
    sync.validateAndProcessSingleHeader (sync.presyncState hdrs) cur =
      if !permittedDifficultyTransition sync.consensusParams
          (sync.chainStart.nHeight + hdrs.length + 1)
          (sync.lastHeader hdrs).nBits cur.nBits then (sync.presyncState hdrs, false)
      else if sync.isCommitHeight (sync.chainStart.nHeight + hdrs.length + 1) &&
          sync.maxCommitments < (sync.bits (hdrs ++ [cur])).length then
        ({ sync.presyncState hdrs with
            headerCommitments := sync.bits (hdrs ++ [cur]) }, false)
      else (sync.presyncState (hdrs ++ [cur]), true) := by
  rw [validateAndProcessSingleHeader, bits_concat]
  by_cases commits : sync.isCommitHeight (sync.chainStart.nHeight + hdrs.length + 1)
  · simp [presyncState, commits, chainWork_concat, lastHeader_concat, bits_concat, ← Nat.add_assoc]
  · simp [presyncState, commits, chainWork_concat, lastHeader_concat, bits_concat, ← Nat.add_assoc]

variable (presync : sync.Presyncing hdrs state)
include presync

theorem processed_presyncState (success : (sync.validateAndProcessSingleHeader state cur).2) :
    sync.Presyncing (hdrs ++ [cur]) (sync.validateAndProcessSingleHeader state cur).1 := by
  obtain ⟨rfl, fits⟩ := presync
  rw [validateAndProcessSingleHeader_presyncState] at success ⊢
  split at success
  case isTrue _ => simp at success
  case isFalse permitted =>
    split at success
    case isTrue _ => simp at success
    case isFalse withinBound =>
      rw [if_neg permitted, if_neg withinBound]
      refine ⟨rfl, ?_⟩
      rw [bits_concat] at withinBound ⊢
      split
      case isTrue commits => simpa [commits] using withinBound
      case isFalse _ => exact fits

theorem processed_headerCommitments_le :
    (sync.validateAndProcessSingleHeader state cur).1.headerCommitments.length ≤
      sync.maxCommitments + 1 := by
  obtain ⟨rfl, fits⟩ := presync
  have oneMore : (sync.bits (hdrs ++ [cur])).length ≤ sync.maxCommitments + 1 := by
    rw [bits_concat]
    split
    · simpa using fits
    · exact fits.trans (Nat.le_succ _)
  rw [validateAndProcessSingleHeader_presyncState]
  split_ifs
  · exact fits.trans (Nat.le_succ _)
  · exact oneMore
  · exact oneMore

end

/-! ## The second phase -/

/-- The state of the second phase: the headers of the first phase, those accepted
in the second one, the number of them that were returned, the bits that were not
yet compared, and whether all headers are released. -/
def redownloadState (pre acc : List CBlockHeader) (released : ℕ)
    (rem : List Bool) (releaseAll : Bool) : State where
  currentChainWork := sync.chainWork pre
  headerCommitments := rem
  lastHeaderReceived := sync.lastHeader pre
  currentHeight := sync.chainStart.nHeight + pre.length
  redownloadedHeaders := (acc.drop released).map .ofHeader
  redownloadBufferLastHeight := sync.chainStart.nHeight + acc.length
  redownloadBufferLastHash := sync.getHash (sync.lastHeader acc)
  redownloadBufferFirstPrevHash := sync.getHash (sync.lastHeader (acc.take released))
  redownloadChainWork := sync.chainWork acc
  processAllRemainingHeaders := releaseAll
  downloadState := .redownload

theorem startRedownload_presyncState (hdrs : List CBlockHeader) :
    sync.startRedownload (sync.presyncState hdrs) =
      if sync.minimumRequiredWork ≤ sync.chainWork hdrs then
        sync.redownloadState hdrs [] 0 (sync.bits hdrs) false
      else sync.presyncState hdrs := rfl

/-- What holds of the headers of the second phase: they are linked; headers are
released from the moment the work suffices; until then their bits were compared
with those of the first phase. -/
structure Redownloading (pre acc : List CBlockHeader) (released : ℕ)
    (rem : List Bool) (releaseAll : Bool) : Prop where
  linked : sync.Linked acc
  released_le : released ≤ acc.length
  work_of_releaseAll : releaseAll → sync.minimumRequiredWork ≤ sync.chainWork acc
  releaseAll_of_work : acc ≠ [] → sync.minimumRequiredWork ≤ sync.chainWork acc → releaseAll
  bits_eq : releaseAll = false → sync.bits acc ++ rem = sync.bits pre

/-- The second phase after some headers. -/
def RedownloadedTo (pre : List CBlockHeader) (released : ℕ) (acc : List CBlockHeader)
    (state : State) : Prop :=
  ∃ rem releaseAll, state = sync.redownloadState pre acc released rem releaseAll ∧
      sync.Redownloading pre acc released rem releaseAll

theorem redownloading_start (pre : List CBlockHeader) :
    sync.Redownloading pre [] 0 (sync.bits pre) false where
  linked := trivial
  released_le := le_refl _
  work_of_releaseAll := by simp
  releaseAll_of_work := by simp
  bits_eq := fun _ => rfl

variable {sync} {pre acc : List CBlockHeader} {released : ℕ} {rem : List Bool} {releaseAll : Bool}
  {height : ℕ}

theorem checkCommitment_cases (success : (sync.checkCommitment state height hdr).2) :
    ((state.processAllRemainingHeaders ∨ sync.isCommitHeight height = false) ∧
        (sync.checkCommitment state height hdr).1 = state) ∨
      (state.processAllRemainingHeaders = false ∧ sync.isCommitHeight height ∧
        ∃ rest, state.headerCommitments = sync.commitment hdr :: rest ∧
          (sync.checkCommitment state height hdr).1 =
            { state with headerCommitments := rest }) := by
  rw [checkCommitment] at success ⊢
  split at success
  case isTrue compares =>
    right
    rw [Bool.and_eq_true, Bool.not_eq_true'] at compares
    rw [if_pos (by simp [compares])]
    refine ⟨compares.1, compares.2, ?_⟩
    cases stored : state.headerCommitments with
    | nil => simp [stored] at success
    | cons expected rest =>
      simp only [stored, beq_iff_eq] at success
      exact ⟨rest, by rw [success], rfl⟩
  case isFalse skips =>
    left
    rw [if_neg skips]
    refine ⟨?_, rfl⟩
    rw [Bool.and_eq_true, Bool.not_eq_true', not_and_or, Bool.not_eq_false, Bool.not_eq_true]
      at skips
    exact skips

def releasesAfter (sync : Setup) (acc : List CBlockHeader) (releaseAll : Bool) : Bool :=
  sync.minimumRequiredWork ≤ sync.chainWork acc || releaseAll

theorem storeRedownloadedHeader_trackWork (released_le : released ≤ acc.length)
    (rest : List Bool) : sync.storeRedownloadedHeader { sync.trackWork
            (sync.redownloadState pre acc released rem releaseAll) hdr with
          headerCommitments := rest }
        (sync.chainStart.nHeight + acc.length + 1) hdr =
      sync.redownloadState pre (acc ++ [hdr]) released rest
        (sync.releasesAfter (acc ++ [hdr]) releaseAll) := by
  rw [releasesAfter, chainWork_concat]
  simp only [storeRedownloadedHeader, trackWork, redownloadState, chainWork_concat,
    lastHeader_concat, drop_append_of_le_length released_le,
    take_append_of_le_length released_le, map_append, map_singleton,
    length_append, length_singleton, Nat.add_assoc]
  rfl

theorem stored_cases (released_le : released ≤ acc.length)
    (success : (sync.validateAndStoreRedownloadedHeader
      (sync.redownloadState pre acc released rem releaseAll) hdr).2) :
    hdr.hashPrevBlock = sync.getHash (sync.lastHeader acc) ∧ ∃ rest,
        (sync.validateAndStoreRedownloadedHeader
          (sync.redownloadState pre acc released rem releaseAll) hdr).1 =
          sync.redownloadState pre (acc ++ [hdr]) released rest
            (sync.releasesAfter (acc ++ [hdr]) releaseAll) ∧
        (sync.releasesAfter (acc ++ [hdr]) releaseAll = false → rem =
            if sync.isCommitHeight (sync.chainStart.nHeight + acc.length + 1) then
              sync.commitment hdr :: rest
            else rest) := by
  simp only [validateAndStoreRedownloadedHeader] at success ⊢
  split at success
  case isTrue _ => simp at success
  case isFalse inPhase =>
    split at success
    case isTrue _ => simp at success
    case isFalse connects =>
      split at success
      case isTrue _ => simp at success
      case isFalse permitted =>
        split at success
        case isFalse refused => exact absurd success refused
        case isTrue checked =>
          rw [if_neg inPhase, if_neg connects, if_neg permitted, if_pos checked]
          refine ⟨not_not.mp connects, ?_⟩
          have flag : (sync.trackWork (sync.redownloadState pre acc released rem
              releaseAll) hdr).processAllRemainingHeaders =
              sync.releasesAfter (acc ++ [hdr]) releaseAll := by
            rw [releasesAfter, chainWork_concat]
            rfl
          rcases checkCommitment_cases checked with
            ⟨skips, unchanged⟩ | ⟨_, commits, rest, stored, popped⟩
          · rw [unchanged]
            refine ⟨rem, storeRedownloadedHeader_trackWork released_le rem, ?_⟩
            intro notReleased
            rw [flag, notReleased] at skips
            have noCommitment := skips.resolve_left (by simp)
            rw [if_neg (by exact ne_true_of_eq_false noCommitment)]
          · rw [popped]
            refine ⟨rest, storeRedownloadedHeader_trackWork released_le rest, ?_⟩
            intro _
            rw [if_pos (by exact commits)]
            exact stored

theorem stored_redownloadState (redownloaded : sync.RedownloadedTo pre released acc state)
    (success : (sync.validateAndStoreRedownloadedHeader state hdr).2) :
    sync.RedownloadedTo pre released (acc ++ [hdr])
      (sync.validateAndStoreRedownloadedHeader state hdr).1 := by
  obtain ⟨rem, releaseAll, rfl, holds⟩ := redownloaded
  obtain ⟨connects, rest, result, compared⟩ := stored_cases holds.released_le success
  refine ⟨rest, _, result, ?_⟩
  constructor
  case linked => exact linked_concat.mpr ⟨holds.linked, connects⟩
  case released_le =>
    rw [length_append]
    exact holds.released_le.trans (Nat.le_add_right _ _)
  case work_of_releaseAll =>
    intro releases
    rw [releasesAfter, Bool.or_eq_true, decide_eq_true_iff] at releases
    rcases releases with enough | earlier
    · exact enough
    · exact (holds.work_of_releaseAll earlier).trans (chainWork_mono (prefix_append _ _))
  case releaseAll_of_work =>
    intro _ enough
    simp [releasesAfter, enough]
  case bits_eq =>
    intro notReleased
    have before : releaseAll = false := by
      rw [releasesAfter, Bool.or_eq_false_iff] at notReleased
      exact notReleased.2
    rw [← holds.bits_eq before, compared notReleased, bits_concat]
    split
    · rw [append_assoc, singleton_append]
    · rfl

/-- The difficulty before the next header is that of the last header, which is still
in the buffer. -/
theorem previousNBits_redownloadState (buffered : released < acc.length ∨ acc = []) :
    sync.previousNBits (sync.redownloadState pre acc released rem releaseAll) =
      (sync.lastHeader acc).nBits := by
  rcases buffered with buffered | rfl
  · have last : ((acc.drop released).map CompressedHeader.ofHeader).getLast? =
        some (.ofHeader (sync.lastHeader acc)) := by
      have ne : acc ≠ [] := ne_nil_of_length_pos (Nat.zero_lt_of_lt buffered)
      rw [getLast?_map, getLast?_drop, if_neg (Nat.not_le.mpr buffered), lastHeader,
        getLastD_eq_getLast?, getLast?_eq_getLast_of_ne_nil ne]
      rfl
    rw [previousNBits, redownloadState, last]
    rfl
  · simp [previousNBits, redownloadState, lastHeader]

theorem checkCommitment_success
    (next : state.processAllRemainingHeaders = false → sync.isCommitHeight height →
      ∃ rest, state.headerCommitments = sync.commitment hdr :: rest) :
    (sync.checkCommitment state height hdr).2 := by
  rw [checkCommitment]
  split
  case isTrue compares =>
    rw [Bool.and_eq_true, Bool.not_eq_true'] at compares
    obtain ⟨rest, stored⟩ := next compares.1 compares.2
    simp [stored]
  case isFalse _ => rfl

theorem stored_of_permitted (redownloaded : sync.RedownloadedTo pre released acc state)
    (buffered : released < acc.length ∨ acc = [])
    (linked : sync.Linked (acc ++ [hdr])) (permitted : sync.Permitted (acc ++ [hdr]))
    (presyncedBefore : sync.chainWork (acc ++ [hdr]) < sync.minimumRequiredWork →
      acc ++ [hdr] <+: pre) : (sync.validateAndStoreRedownloadedHeader state hdr).2 := by
  obtain ⟨rem, releaseAll, rfl, holds⟩ := redownloaded
  have connects := (linked_concat.mp linked).2
  have difficulty := (permitted_concat.mp permitted).2
  have checked : (sync.checkCommitment
      (sync.trackWork (sync.redownloadState pre acc released rem releaseAll) hdr)
      (sync.chainStart.nHeight + acc.length + 1) hdr).2 := by
    refine checkCommitment_success ?_
    intro notReleased commits
    simp only [trackWork, redownloadState, Bool.or_eq_false_iff, decide_eq_false_iff_not,
      Nat.not_le, ← chainWork_concat] at notReleased
    -- The stored bits are those of the first phase that follow the accepted headers.
    have initial : sync.bits (acc ++ [hdr]) <+: sync.bits pre :=
      bits_isPrefix (presyncedBefore notReleased.1)
    obtain ⟨rest, same⟩ := initial
    rw [← holds.bits_eq notReleased.2, bits_concat, if_pos commits, append_assoc,
      append_cancel_left_eq] at same
    exact ⟨rest, same.symm⟩
  rw [← previousNBits_redownloadState buffered] at difficulty
  rw [validateAndStoreRedownloadedHeader, if_neg (by simp [redownloadState]),
    if_neg (not_not.mpr (by exact connects)), 
    if_neg (by rw [Bool.not_eq_true', Bool.not_eq_false]; exact difficulty), if_pos (by exact checked)]

/-! ## The buffer -/

def readyCount (sync : Setup) (buffered : ℕ) (releaseAll : Bool) : ℕ :=
  if releaseAll then buffered else buffered - sync.redownloadBufferSize

theorem popReady_map {prev : CBlockHeader} {buffer : List CBlockHeader}
    (linked : Successive (fun _ prev hdr => hdr.hashPrevBlock = sync.getHash prev)
      height prev buffer) : sync.popReady releaseAll (sync.getHash prev) (buffer.map .ofHeader) =
      (buffer.take (sync.readyCount buffer.length releaseAll),
        (buffer.drop (sync.readyCount buffer.length releaseAll)).map .ofHeader, sync.getHash
          ((buffer.take (sync.readyCount buffer.length releaseAll)).getLastD prev)) := by
  induction buffer generalizing prev height with
  | nil => simp [popReady]
  | cons front buffer ih =>
    obtain ⟨connects, linked⟩ := linked
    rw [map_cons, popReady]
    split
    case isTrue ready =>
      have count : sync.readyCount (front :: buffer).length releaseAll =
          sync.readyCount buffer.length releaseAll + 1 := by
        simp only [readyCount, length_cons, length_map, Bool.or_eq_true,
          decide_eq_true_iff] at ready ⊢
        split
        · rfl
        · rename_i keeps
          have := ready.resolve_right keeps
          omega
      simp only
      rw [← connects, CompressedHeader.getFullHeader_ofHeader, ih linked, count,
        take_succ_cons, drop_succ_cons, getLastD_cons]
    case isFalse waits =>
      have count : sync.readyCount (front :: buffer).length releaseAll = 0 := by
        simp only [readyCount, length_cons, length_map, Bool.or_eq_true,
          decide_eq_true_iff, not_or] at waits ⊢
        rw [if_neg waits.2]
        omega
      rw [count]
      rfl

theorem popHeadersReadyForAcceptance_redownloadState (linked : sync.Linked acc) :
    sync.popHeadersReadyForAcceptance (sync.redownloadState pre acc released rem releaseAll) =
      (sync.redownloadState pre acc
          (released + sync.readyCount (acc.length - released) releaseAll) rem releaseAll,
        (acc.drop released).take (sync.readyCount (acc.length - released) releaseAll)) := by
  have last : ∀ count, sync.lastHeader (acc.take (released + count)) =
      ((acc.drop released).take count).getLastD (sync.lastHeader (acc.take released)) := by
    intro count
    rw [take_add, lastHeader, getLastD_append]
    rfl
  have linkedBuffer : Successive (fun _ prev hdr => hdr.hashPrevBlock = sync.getHash prev)
      (sync.chainStart.nHeight + 1 + (acc.take released).length)
      (sync.lastHeader (acc.take released)) (acc.drop released) := by
    rw [← take_append_drop released acc, Linked, successive_append] at linked
    exact linked.2
  rw [popHeadersReadyForAcceptance, if_neg (by simp [redownloadState])]
  simp only [redownloadState, popReady_map linkedBuffer, last, drop_drop, length_drop]

end Setup

end BitcoinCore.HeadersSync
