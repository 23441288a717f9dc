import BitcoinCore.NetProcessing.NodeState
import BitcoinCore.Lib.SplitQueue

/-!
# Blocks in flight

A block request is kept twice: in the queue `vBlocksInFlight` of the peer it was
sent to, and in the multimap `mapBlocksInFlight` from hashes to peers, whose
elements hold an iterator into that queue. A counter keeps the number of peers
with a non-empty queue.

The multimap alone determines the rest: its elements for a peer, in their
order, are the peer's queue, and the counter counts the peers that occur in it.
`Consistent` says so, every operation under the guards of its callers keeps it,
and it holds in every reachable state (`Reachable.consistent`). So the
assertions of `finalizeNode` never fail.
-/

namespace BitcoinCore.NetProcessing

open Net Chain Node SplitQueue List Finmap Function
open Option (isSome_iff_exists some_inj bind_eq_some_iff)

variable {Block R : Type*}

/-! ## The source -/

section

/-- Take an entry off the queue. Times are in microseconds. -/
def CNodeState.eraseInFlight (state : CNodeState Block R) (now : ℤ) (it : ℕ) : CNodeState Block R :=
  { state with
    downloadingSince :=
      if state.vBlocksInFlight.head?.any (·.it = it) then
        max state.downloadingSince now
      else state.downloadingSince
    vBlocksInFlight := state.vBlocksInFlight.eraseP (·.it = it)
    stallingSince := 0
    qualityStallRecorded := false }

/-- Put an entry at the end of the queue. -/
def CNodeState.pushInFlight (state : CNodeState Block R) (now : ℤ) (queued : QueuedBlock) :
    CNodeState Block R :=
  let queue := state.vBlocksInFlight ++ [queued]
  { state with
    vBlocksInFlight := queue
    downloadingSince := if queue.length = 1 then now else state.downloadingSince }

end

/-- An element of the multimap: the hash, the peer, and the iterator to the
entry of the peer's queue. -/
structure InFlight where
  hash : Uint256
  nodeId : NodeId
  it : ℕ
  deriving DecidableEq, Repr

/-- The per-node states, and the block requests over all of them. The multimap
is a list in the order of insertion, and `nextIt` is the iterator that the next
queue entry will have. -/
structure BlockDownloads (Block R : Type*) where
  nodeStates : Finmap fun _ : NodeId => CNodeState Block R
  mapBlocksInFlight : List InFlight
  peersDownloadingFrom : ℤ
  nextIt : ℕ

namespace BlockDownloads

section

variable (dl : BlockDownloads Block R)

/-- The state of a node that is connected. -/
def state (id : NodeId) : Option (CNodeState Block R) :=
  dl.nodeStates.lookup id

/-- The requests for a block, in the order in which they were made. -/
def equalRange (hash : Uint256) : List InFlight :=
  dl.mapBlocksInFlight.filter (·.hash = hash)

/-- Some peer has been asked for the block. -/
def isBlockRequested (hash : Uint256) : Bool :=
  dl.mapBlocksInFlight.any (·.hash = hash)

/-- The queue entry that the iterator of an element points to. -/
def queuedBlock (entry : InFlight) : Option QueuedBlock :=
  (dl.state entry.nodeId).bind fun state =>
    state.vBlocksInFlight.find? (·.it = entry.it)

/-- Replace the state of a node. -/
def setState (id : NodeId) (state : CNodeState Block R) :
    BlockDownloads Block R :=
  { dl with nodeStates := dl.nodeStates.insert id state }

/-- The round of the loop of `RemoveBlockRequest` that erases an element. -/
def removeEntry (now : ℤ) (dl : BlockDownloads Block R) (entry : InFlight) :
    Option (BlockDownloads Block R) :=
  (dl.state entry.nodeId).map fun state =>
    let state := state.eraseInFlight now entry.it
    { dl.setState entry.nodeId state with
      mapBlocksInFlight := dl.mapBlocksInFlight.erase entry
      peersDownloadingFrom :=
        if state.vBlocksInFlight.isEmpty then dl.peersDownloadingFrom - 1
        else dl.peersDownloadingFrom }

/-- The requests for a block to one peer, or to all. -/
def requestsFrom (hash : Uint256) (fromPeer : Option NodeId) : List InFlight :=
  (dl.equalRange hash).filter fun entry => fromPeer.all fun peer => peer = entry.nodeId

/-- Forget the requests for a block to one peer, or to all. -/
def removeBlockRequest (now : ℤ) (hash : Uint256)
    (fromPeer : Option NodeId) : Option (BlockDownloads Block R) :=
  (dl.requestsFrom hash fromPeer).foldlM (removeEntry now) dl

/-- The end of `BlockRequested`, for a request that is new. -/
def addRequest (now : ℤ) (id : NodeId) (hash : Uint256)
    (pit : Bool) : Option (BlockDownloads Block R) :=
  (dl.state id).map fun state =>
    let state := state.pushInFlight now ⟨dl.nextIt, hash, if pit then some ⟨true⟩ else none⟩
    { dl.setState id state with
      mapBlocksInFlight := dl.mapBlocksInFlight ++ [⟨hash, id, dl.nextIt⟩]
      peersDownloadingFrom :=
        if state.vBlocksInFlight.length = 1 then dl.peersDownloadingFrom + 1
        else dl.peersDownloadingFrom
      nextIt := dl.nextIt + 1 }

/-- Mark a block as in flight from a peer. `pit` says whether the caller wants
the iterator, for a compact block. The result says whether the request is new,
and gives the iterator. `none` stands for the failing assertion on the state. -/
def blockRequested (now : ℤ) (id : NodeId)
    (hash : Uint256) (pit : Bool) : Option (BlockDownloads Block R × Bool × ℕ) :=
  if (dl.state id).isNone then none
  else
    match (dl.equalRange hash).find? (·.nodeId = id) with
    | some entry => some (dl, false, entry.it)
    | none => do
      let dl ← dl.removeBlockRequest now hash (some id)
      let dl' ← dl.addRequest now id hash pit
      return (dl', true, dl.nextIt)

/-- Request one block after another from a peer, as `SendMessages` does. -/
def requestBlocks (now : ℤ) (id : NodeId)
    (hashes : List Uint256) : Option (BlockDownloads Block R) :=
  hashes.foldlM (fun dl hash =>
    (dl.blockRequested now id hash false).map Prod.fst) dl

/-- Request one block after another until the peer has too many, as
`HeadersDirectFetchBlocks` does. -/
def directFetch (dl : BlockDownloads Block R) (now : ℤ) (id : NodeId) :
    List Uint256 → Option (BlockDownloads Block R)
  | [] => some dl
  | hash :: rest => do
    let state ← dl.state id
    if maxBlocksInTransitPerPeer ≤ state.vBlocksInFlight.length then return dl
    let (dl, _) ← dl.blockRequested now id hash false
    directFetch dl now id rest

/-- The part of `FetchBlock` under `cs_main`. -/
def fetchBlock (now : ℤ) (id : NodeId) (hash : Uint256) :
    Option (BlockDownloads Block R) := do
  let dl ← dl.removeBlockRequest now hash none
  let (dl, _) ← dl.blockRequested now id hash false
  return dl

/-- Forget a node. `none` stands for a failing assertion. -/
def finalizeNode (id : NodeId) :
    Option (BlockDownloads Block R) :=
  (dl.state id).bind fun state =>
    let mapBlocksInFlight := state.vBlocksInFlight.foldl (fun requests queued =>
      requests.filter fun entry => !(entry.hash = queued.hash && entry.nodeId = id))
      dl.mapBlocksInFlight
    let peersDownloadingFrom :=
      dl.peersDownloadingFrom - if state.vBlocksInFlight.isEmpty then 0 else 1
    let nodeStates := dl.nodeStates.erase id
    -- The consistency check after the last peer is removed.
    let checked := nodeStates.keys = ∅ → mapBlocksInFlight = [] ∧ peersDownloadingFrom = 0
    if 0 ≤ peersDownloadingFrom ∧ checked then
      some { dl with nodeStates, mapBlocksInFlight, peersDownloadingFrom }
    else none

/-- No node is connected. -/
def initial : BlockDownloads Block R := ⟨∅, [], 0, 0⟩

variable [Field R] [LinearOrder R] [Exp2 R]

/-- Add a state for a node, unless it has one. -/
def initializeNode (dl : BlockDownloads Block R) (id : NodeId) : BlockDownloads Block R :=
  if (dl.state id).isSome then dl else dl.setState id .initial

end

/-! ## Consistency -/

/-- The multimap as a queue of hashes and iterators that the peers own. -/
def requests (dl : BlockDownloads Block R) : List (NodeId × (Uint256 × ℕ)) :=
  dl.mapBlocksInFlight.map fun entry => (entry.nodeId, entry.hash, entry.it)

/-- The queue of a peer, empty for one without a state. -/
def vBlocksInFlight (dl : BlockDownloads Block R) (id : NodeId) : List QueuedBlock :=
  ((dl.state id).map CNodeState.vBlocksInFlight).getD []

/-- The hashes and iterators in the queue of a peer. -/
def queueOf (dl : BlockDownloads Block R) (id : NodeId) : List (Uint256 × ℕ) :=
  (dl.vBlocksInFlight id).map fun queued => (queued.hash, queued.it)

/-- The bookkeeping is consistent: the multimap determines the queues and the
counter, iterators are unique, and no request is made twice or too often. -/
structure Consistent (dl : BlockDownloads Block R) : Prop where
  split : IsSplit dl.requests dl.queueOf
  its_nodup : (dl.mapBlocksInFlight.map InFlight.it).Nodup
  its_lt : ∀ entry ∈ dl.mapBlocksInFlight, entry.it < dl.nextIt
  once : (dl.mapBlocksInFlight.map fun entry => (entry.hash, entry.nodeId)).Nodup
  few : ∀ hash, (dl.equalRange hash).length ≤ maxCmpctblocksInflightPerBlock
  counted : dl.peersDownloadingFrom = (busy dl.nodeStates.keys dl.queueOf : ℤ)

theorem consistent_initial : Consistent (initial : BlockDownloads Block R) where
  split _ := rfl
  its_nodup := nodup_nil
  its_lt _ mem := absurd mem not_mem_nil
  once := nodup_nil
  few _ := Nat.zero_le _
  counted := rfl

variable {dl : BlockDownloads Block R}
  {state : CNodeState Block R} {id : NodeId} {dl' : BlockDownloads Block R}

theorem queueOf_setState (id : NodeId) (state : CNodeState Block R) :
    (dl.setState id state).queueOf = update dl.queueOf id
      (state.vBlocksInFlight.map fun queued => (queued.hash, queued.it)) := by
  funext other
  by_cases same : other = id
  · subst same
    simp [queueOf, vBlocksInFlight, BlockDownloads.state, setState]
  · simp [queueOf, vBlocksInFlight, BlockDownloads.state, setState, update_of_ne same,
      lookup_insert_of_ne _ same]

theorem queueOf_of_state (found : dl.state id = some state) : dl.queueOf id =
      state.vBlocksInFlight.map fun queued => (queued.hash, queued.it) := by
  simp [queueOf, vBlocksInFlight, found]

theorem mem_keys_of_state (found : dl.state id = some state) : id ∈ dl.nodeStates.keys :=
  mem_keys.mpr (mem_of_lookup_eq_some found)

theorem keys_setState (state' : CNodeState Block R) (found : dl.state id = some state) :
    (dl.setState id state').nodeStates.keys = dl.nodeStates.keys := by
  have present := mem_keys.mp (mem_keys_of_state found)
  ext other
  simp only [setState, Finmap.mem_keys, Finmap.mem_insert]
  constructor
  · rintro (rfl | mem)
    · exact present
    · exact mem
  · exact Or.inr

theorem busy_setState (state' : CNodeState Block R) (found : dl.state id = some state) :
    busy (dl.setState id state').nodeStates.keys (dl.setState id state').queueOf +
        load state.vBlocksInFlight =
      busy dl.nodeStates.keys dl.queueOf + load state'.vBlocksInFlight := by
  have changed := busy_update (mem_keys_of_state found) dl.queueOf
    (state'.vBlocksInFlight.map fun queued => (queued.hash, queued.it))
  rw [queueOf_of_state found] at changed
  rw [keys_setState state' found, queueOf_setState]
  simpa [load] using changed

/-- No other peer has been asked for the block. -/
def OnlyFrom (dl : BlockDownloads Block R) (id : NodeId) (hash : Uint256) : Prop :=
  ∀ entry ∈ dl.mapBlocksInFlight, entry.hash = hash → entry.nodeId = id

variable {hash : Uint256}

theorem OnlyFrom.free (only : OnlyFrom dl id hash) :
    (∃ entry ∈ dl.mapBlocksInFlight, entry.hash = hash ∧ entry.nodeId = id) ∨
      (dl.equalRange hash).length < maxCmpctblocksInflightPerBlock := by
  cases range : dl.equalRange hash with
  | nil => exact .inr (by simp [maxCmpctblocksInflightPerBlock])
  | cons entry rest =>
    have mem : entry ∈ dl.equalRange hash := range ▸ mem_cons_self
    obtain ⟨inMap, sameHash⟩ := mem_filter.mp mem
    have sameHash : entry.hash = hash := by simpa using sameHash
    exact .inl ⟨entry, inMap, sameHash, only entry inMap sameHash⟩

theorem onlyFrom_of_not_requested (id : NodeId)
    (unrequested : dl.isBlockRequested hash = false) : OnlyFrom dl id hash := by
  intro entry mem sameHash
  have req : dl.isBlockRequested hash :=
    any_eq_true.mpr ⟨entry, mem, by simpa using sameHash⟩
  exact absurd (req.symm.trans unrequested) (by simp)

theorem OnlyFrom.mono {other : Uint256} (only : OnlyFrom dl id other)
    (added : ∀ entry ∈ dl'.mapBlocksInFlight, entry ∈ dl.mapBlocksInFlight ∨ entry.nodeId = id) :
    OnlyFrom dl' id other := by
  intro entry mem sameHash
  exact (added entry mem).elim (only entry · sameHash) fun isFrom => isFrom

/-- A request has been made before, or is added now. -/
theorem blockRequested_cases {now : ℤ} {pit isNew : Bool} {it : ℕ}
    (req : dl.blockRequested now id hash pit = some (dl', isNew, it)) :
    dl' = dl ∨ (∀ entry ∈ dl.mapBlocksInFlight, entry.hash = hash → entry.nodeId ≠ id) ∧
      dl.addRequest now id hash pit = some dl' := by
  rw [blockRequested] at req
  split_ifs at req
  split at req
  case h_1 =>
    cases req
    exact .inl rfl
  case h_2 unrequested =>
    have isNew := find?_eq_none.mp unrequested
    have noneFrom : dl.requestsFrom hash (some id) = [] := by
      refine filter_eq_nil_iff.mpr ?_
      intro entry mem
      simpa [eq_comm] using isNew entry mem
    rw [removeBlockRequest, noneFrom] at req
    obtain ⟨_, unchanged, later⟩ := bind_eq_some_iff.mp req
    cases unchanged
    obtain ⟨_, isAdded, same⟩ := bind_eq_some_iff.mp later
    cases same
    refine .inr ⟨?_, isAdded⟩
    intro entry mem sameHash
    simpa using isNew entry (by simpa [equalRange] using ⟨mem, sameHash⟩)

namespace Consistent

variable (inv : Consistent dl)
include inv

variable {entry : InFlight} {now : ℤ}

theorem exists_state (mem : entry ∈ dl.mapBlocksInFlight) :
    ∃ state, dl.state entry.nodeId = some state ∧ state.vBlocksInFlight ≠ [] := by
  have queued : (entry.hash, entry.it) ∈ dl.queueOf entry.nodeId := by
    rw [inv.split.mem_iff]
    exact mem_map_of_mem mem
  cases found : dl.state entry.nodeId with
  | none => simp [queueOf, vBlocksInFlight, found] at queued
  | some state =>
    refine ⟨state, rfl, ?_⟩
    rintro isEmpty
    simp [queueOf_of_state found, isEmpty] at queued

variable {first second : InFlight}

theorem eq_of_it_eq (inFirst : first ∈ dl.mapBlocksInFlight)
    (inSecond : second ∈ dl.mapBlocksInFlight) (same : first.it = second.it) : first = second :=
  inj_on_of_nodup_map inv.its_nodup inFirst inSecond same

theorem eq_of_hash_eq (inFirst : first ∈ dl.mapBlocksInFlight)
    (inSecond : second ∈ dl.mapBlocksInFlight) (sameHash : first.hash = second.hash)
    (sameId : first.nodeId = second.nodeId) : first = second :=
  inj_on_of_nodup_map inv.once inFirst inSecond (Prod.ext sameHash sameId)

theorem nodup : dl.mapBlocksInFlight.Nodup :=
  inv.its_nodup.of_map _

theorem queue_its_nodup (id : NodeId) : ((dl.queueOf id).map Prod.snd).Nodup := by
  rw [inv.split id]
  refine inv.its_nodup.sublist ?_
  have inRequests := (part_sublist dl.requests id).map Prod.snd
  simpa [requests, comp_def] using inRequests

theorem requests_erase (mem : entry ∈ dl.mapBlocksInFlight) : (dl.mapBlocksInFlight.erase entry).map
        (fun entry => (entry.nodeId, entry.hash, entry.it)) =
      dl.requests.filter fun request => request.2.2 ≠ entry.it := by
  rw [inv.nodup.erase_eq_filter, requests, filter_map]
  congr 1
  apply filter_congr
  intro other isIn
  by_cases same : other = entry
  · simp [same]
  · have differ : other.it ≠ entry.it := fun sameIt => same (inv.eq_of_it_eq isIn mem sameIt)
    simp [same, differ]

theorem queueOf_erase (found : dl.state id = some state) (it : ℕ) :
    (state.vBlocksInFlight.eraseP (·.it = it)).map (fun queued => (queued.hash, queued.it)) =
      (dl.queueOf id).filter fun key => key.2 ≠ it := by
  have distinct : (state.vBlocksInFlight.map QueuedBlock.it).Nodup := by
    simpa [queueOf_of_state found, comp_def] using inv.queue_its_nodup id
  rw [eraseP_eq_filter distinct, queueOf_of_state found, filter_map]
  rfl

/-- Erasing an element keeps the bookkeeping consistent. -/
theorem removeEntry (mem : entry ∈ dl.mapBlocksInFlight)
    (removed : BlockDownloads.removeEntry now dl entry = some dl') :
    Consistent dl' ∧ dl'.mapBlocksInFlight = dl.mapBlocksInFlight.erase entry ∧
      dl'.nodeStates.keys = dl.nodeStates.keys := by
  obtain ⟨state, found, ne⟩ := inv.exists_state mem
  rw [BlockDownloads.removeEntry, found, Option.map_some] at removed
  cases removed
  refine ⟨⟨?_, ?_, ?_, ?_, ?_, ?_⟩, rfl, keys_setState _ found⟩
  · have split := inv.split.remove entry.nodeId (·.2 ≠ entry.it) (by
      rintro request isIn isRemoved
      obtain ⟨other, inMap, rfl⟩ := mem_map.mp isIn
      rw [inv.eq_of_it_eq inMap mem (by simpa using isRemoved)])
    rw [← inv.requests_erase mem, ← inv.queueOf_erase found] at split
    change IsSplit _ (setState _ _ _).queueOf
    rw [queueOf_setState]
    exact split
  · exact inv.its_nodup.sublist (erase_sublist.map _)
  · exact fun other isIn => inv.its_lt other (mem_of_mem_erase isIn)
  · exact inv.once.sublist (erase_sublist.map _)
  · intro hash
    exact ((erase_sublist.filter _).length_le).trans (inv.few hash)
  · have changed := busy_setState (state.eraseInFlight now entry.it) found
    have counted := inv.counted
    simp only [load, isEmpty_eq_false_iff.mpr ne, Bool.false_eq_true, if_false]
      at changed
    change ite _ _ _ = ((busy (setState _ _ _).nodeStates.keys (setState _ _ _).queueOf : ℕ) : ℤ)
    split_ifs at changed ⊢ <;> omega

/-- Adding a request that is new keeps the bookkeeping consistent. -/
theorem addRequest {pit : Bool}
    (isNew : ∀ entry ∈ dl.mapBlocksInFlight, entry.hash = hash → entry.nodeId ≠ id)
    (free : (dl.equalRange hash).length < maxCmpctblocksInflightPerBlock)
    (added : dl.addRequest now id hash pit = some dl') :
    Consistent dl' ∧ dl'.mapBlocksInFlight = dl.mapBlocksInFlight ++ [⟨hash, id, dl.nextIt⟩] ∧
      dl'.nodeStates.keys = dl.nodeStates.keys := by
  obtain ⟨state, found, rfl⟩ := Option.map_eq_some_iff.mp added
  refine ⟨⟨?_, ?_, ?_, ?_, ?_, ?_⟩, rfl, keys_setState _ found⟩
  · have split := inv.split.push id (hash, dl.nextIt)
    rw [queueOf_of_state found] at split
    change IsSplit _ (setState _ _ _).queueOf
    rw [queueOf_setState]
    simpa [requests, CNodeState.pushInFlight] using split
  · rw [map_append, map_singleton, ← concat_eq_append]
    refine inv.its_nodup.concat ?_
    rintro mem
    obtain ⟨entry, isIn, same⟩ := mem_map.mp mem
    exact absurd (inv.its_lt entry isIn) (by simp [same])
  · intro entry mem
    rcases mem_append.mp mem with old | new
    · exact Nat.lt_succ_of_lt (inv.its_lt entry old)
    · rw [mem_singleton.mp new]
      exact Nat.lt_succ_self _
  · rw [map_append, map_singleton, ← concat_eq_append]
    refine inv.once.concat ?_
    rintro mem
    obtain ⟨entry, isIn, same⟩ := mem_map.mp mem
    rw [Prod.mk.injEq] at same
    exact isNew entry isIn same.1 same.2
  · intro other
    change (filter _ (_ ++ _)).length ≤ _
    rw [filter_append, length_append]
    by_cases same : hash = other
    · subst same
      simpa [equalRange] using Nat.succ_le_of_lt free
    · simpa [same, equalRange] using inv.few other
  · have changed := busy_setState (state.pushInFlight now
      ⟨dl.nextIt, hash, if pit then some ⟨true⟩ else none⟩) found
    have counted := inv.counted
    change ite _ _ _ = ((busy (setState _ _ _).nodeStates.keys (setState _ _ _).queueOf : ℕ) : ℤ)
    cases queue : state.vBlocksInFlight with
    | nil =>
      simp only [CNodeState.pushInFlight, load, queue, nil_append, length_singleton,
        isEmpty_nil, isEmpty_cons, Bool.false_eq_true, if_true, if_false] at changed ⊢
      omega
    | cons first rest =>
      simp only [CNodeState.pushInFlight, load, queue, cons_append, length_cons,
        length_append, length_nil, isEmpty_cons, Bool.false_eq_true, if_false,
        Nat.add_eq_right, Nat.add_eq_zero_iff, one_ne_zero, and_false] at changed ⊢
      omega

theorem removeEntries {entries : List InFlight} (distinct : entries.Nodup)
    (isIn : ∀ entry ∈ entries, entry ∈ dl.mapBlocksInFlight)
    (removed : entries.foldlM (BlockDownloads.removeEntry now) dl = some dl') :
    Consistent dl' ∧
      dl'.mapBlocksInFlight = dl.mapBlocksInFlight.filter (fun entry => entry ∉ entries) ∧
      dl'.nodeStates.keys = dl.nodeStates.keys := by
  induction entries generalizing dl with
  | nil =>
    cases removed
    exact ⟨inv, by simp, rfl⟩
  | cons entry rest ih =>
    rw [nodup_cons] at distinct
    obtain ⟨next, first, later⟩ := bind_eq_some_iff.mp removed
    obtain ⟨consistent, nextMap, nextKeys⟩ := inv.removeEntry (isIn entry mem_cons_self) first
    have restInside : ∀ other ∈ rest, other ∈ next.mapBlocksInFlight := by
      intro other mem
      rw [nextMap, inv.nodup.mem_erase_iff]
      exact ⟨fun same => distinct.1 (same ▸ mem), isIn other (mem_cons_of_mem _ mem)⟩
    obtain ⟨consistent', lastMap, lastKeys⟩ := ih consistent distinct.2 restInside later
    refine ⟨consistent', ?_, lastKeys.trans nextKeys⟩
    rw [lastMap, nextMap, inv.nodup.erase_eq_filter, filter_filter]
    apply filter_congr
    intro other _
    by_cases same : other = entry <;> simp [same]

/-- Removing requests keeps the bookkeeping consistent, and removes exactly
the requests for the block from the peer, or from all peers. -/
theorem removeBlockRequest {fromPeer : Option NodeId}
    (removed : dl.removeBlockRequest now hash fromPeer = some dl') :
    Consistent dl' ∧
      dl'.mapBlocksInFlight = dl.mapBlocksInFlight.filter (fun entry =>
        !(entry.hash = hash && fromPeer.all fun peer => peer = entry.nodeId)) ∧
      dl'.nodeStates.keys = dl.nodeStates.keys := by
  obtain ⟨consistent', map', keys'⟩ := inv.removeEntries ((inv.nodup.filter _).filter _)
    (fun entry mem => mem_of_mem_filter (mem_of_mem_filter mem)) removed
  refine ⟨consistent', ?_, keys'⟩
  rw [map']
  apply filter_congr
  intro entry mem
  simp [mem, Bool.or_comm]

/-- A request for a block that is new, or already made to the peer, where there
is room for one more. -/
theorem blockRequested {pit isNew : Bool} {it : ℕ}
    (free : (∃ entry ∈ dl.mapBlocksInFlight, entry.hash = hash ∧ entry.nodeId = id) ∨
      (dl.equalRange hash).length < maxCmpctblocksInflightPerBlock)
    (req : dl.blockRequested now id hash pit = some (dl', isNew, it)) :
    Consistent dl' ∧ dl'.nodeStates.keys = dl.nodeStates.keys ∧
      ∀ entry ∈ dl'.mapBlocksInFlight, entry ∈ dl.mapBlocksInFlight ∨ entry.nodeId = id := by
  rcases blockRequested_cases req with rfl | ⟨isNew, added⟩
  · exact ⟨inv, rfl, fun _ => .inl⟩
  · have room := free.resolve_left fun ⟨entry, mem, sameHash, sameId⟩ =>
      isNew entry mem sameHash sameId
    obtain ⟨consistent', map', keys'⟩ := inv.addRequest isNew room added
    refine ⟨consistent', keys', ?_⟩
    rw [map']
    intro entry mem
    exact (mem_append.mp mem).imp_right fun new => by rw [mem_singleton.mp new]

theorem requestBlocks {hashes : List Uint256} (only : ∀ hash ∈ hashes, OnlyFrom dl id hash)
    (req : dl.requestBlocks now id hashes = some dl') :
    Consistent dl' ∧ dl'.nodeStates.keys = dl.nodeStates.keys := by
  induction hashes generalizing dl with
  | nil =>
    cases req
    exact ⟨inv, rfl⟩
  | cons hash rest ih =>
    obtain ⟨next, first, later⟩ := bind_eq_some_iff.mp req
    obtain ⟨_, isNext, rfl⟩ := Option.map_eq_some_iff.mp first
    obtain ⟨consistent, nextKeys, added⟩ := inv.blockRequested (only hash mem_cons_self).free isNext
    obtain ⟨consistent', lastKeys⟩ := ih consistent
      (fun other mem => (only other (mem_cons_of_mem _ mem)).mono added) later
    exact ⟨consistent', lastKeys.trans nextKeys⟩

theorem fetchBlock (fetched : dl.fetchBlock now id hash = some dl') : Consistent dl' := by
  obtain ⟨cleared, removed, later⟩ := bind_eq_some_iff.mp fetched
  obtain ⟨_, req, same⟩ := bind_eq_some_iff.mp later
  cases same
  obtain ⟨consistent, map', -⟩ := inv.removeBlockRequest removed
  have only : OnlyFrom cleared id hash := by
    intro entry mem sameHash
    rw [map'] at mem
    simp [sameHash] at mem
  exact (consistent.blockRequested only.free req).1

theorem initializeNode [Field R] [LinearOrder R] [Exp2 R]
    (id : NodeId) : Consistent (dl.initializeNode id) := by
  rw [BlockDownloads.initializeNode]
  split_ifs with present
  · exact inv
  have absent : dl.state id = none := by simpa using present
  have idle : dl.queueOf id = [] := by simp [queueOf, vBlocksInFlight, absent]
  have sameQueues : (dl.setState id .initial).queueOf = dl.queueOf := by
    rw [queueOf_setState]
    exact update_eq_self_iff.mpr (by simp [CNodeState.initial, idle])
  refine ⟨?_, inv.its_nodup, inv.its_lt, inv.once, inv.few, ?_⟩
  · rw [sameQueues]
    exact inv.split
  · have keys : (dl.setState id .initial).nodeStates.keys =
        insert id dl.nodeStates.keys := by
      ext other
      simp [setState, Finmap.mem_keys, Finmap.mem_insert]
    have notKey : id ∉ dl.nodeStates.keys := by
      rwa [Finmap.mem_keys, ← Finmap.lookup_eq_none]
    rw [sameQueues, keys, busy_insert_idle notKey idle]
    exact inv.counted

theorem finalized_requests (found : dl.state id = some state) :
    state.vBlocksInFlight.foldl (fun requests queued =>
        requests.filter fun entry => !(entry.hash = queued.hash && entry.nodeId = id))
        dl.mapBlocksInFlight = dl.mapBlocksInFlight.filter fun entry => entry.nodeId ≠ id := by
  rw [SplitQueue.foldl_filter]
  apply filter_congr
  intro entry mem
  by_cases same : entry.nodeId = id
  · have queued : (entry.hash, entry.it) ∈ dl.queueOf id := by
      rw [inv.split.mem_iff, ← same]
      exact mem_map_of_mem mem
    rw [queueOf_of_state found] at queued
    obtain ⟨block, inQueue, sameKey⟩ := List.mem_map.mp queued
    rw [Prod.mk.injEq] at sameKey
    simpa [same] using ⟨block, inQueue, sameKey.1.symm⟩
  · simp [same]

/-- Finalizing a node fails no assertion and keeps the bookkeeping
consistent. -/
theorem finalizeNode (conn : (dl.state id).isSome) :
    ∃ dl', dl.finalizeNode id = some dl' ∧ Consistent dl' := by
  obtain ⟨state, found⟩ := isSome_iff_exists.mp conn
  let finalized : BlockDownloads Block R :=
    { dl with
      nodeStates := dl.nodeStates.erase id
      mapBlocksInFlight := dl.mapBlocksInFlight.filter (·.nodeId ≠ id)
      peersDownloadingFrom :=
        dl.peersDownloadingFrom - if state.vBlocksInFlight.isEmpty then 0 else 1 }
  have queues : finalized.queueOf = update dl.queueOf id [] := by
    funext other
    by_cases same : other = id
    · subst same
      simp [finalized, queueOf, vBlocksInFlight, BlockDownloads.state]
    · simp [finalized, queueOf, vBlocksInFlight, BlockDownloads.state,
        update_of_ne same, lookup_erase_ne same]
  have consistent' : Consistent finalized := by
    refine ⟨?_, ?_, ?_, ?_, ?_, ?_⟩
    · rw [queues]
      have split := inv.split.drop id
      rwa [requests, filter_map] at split
    · exact inv.its_nodup.sublist (filter_sublist.map _)
    · exact fun entry mem => inv.its_lt entry (mem_of_mem_filter mem)
    · exact inv.once.sublist (filter_sublist.map _)
    · intro hash
      exact ((filter_sublist.filter _).length_le).trans (inv.few hash)
    · have others : busy (dl.nodeStates.keys.erase id) finalized.queueOf =
          busy (dl.nodeStates.keys.erase id) dl.queueOf := by
        refine busy_congr ?_
        intro other mem
        rw [queues, update_of_ne (Finset.ne_of_mem_erase mem)]
      have whole := busy_eq_erase_add (mem_keys_of_state found) dl.queueOf
      have counted := inv.counted
      rw [queueOf_of_state found, load, isEmpty_map] at whole
      change dl.peersDownloadingFrom - _ =
        ((busy (dl.nodeStates.erase id).keys finalized.queueOf : ℕ) : ℤ)
      rw [keys_erase, others]
      split_ifs at whole ⊢ <;> omega
  refine ⟨finalized, ?_, consistent'⟩
  have counted := consistent'.counted
  rw [BlockDownloads.finalizeNode, found, Option.bind_some, inv.finalized_requests found]
  refine if_pos ⟨?_, fun noNodes => ?_⟩
  · change 0 ≤ finalized.peersDownloadingFrom
    rw [counted]
    exact Int.natCast_nonneg _
  · constructor
    · refine eq_nil_iff_forall_not_mem.mpr ?_
      intro entry mem
      obtain ⟨state, present, -⟩ := consistent'.exists_state mem
      have inKeys : entry.nodeId ∈ (dl.nodeStates.erase id).keys := mem_keys_of_state present
      simp [noNodes] at inKeys
    · have idle : busy finalized.nodeStates.keys finalized.queueOf = 0 := by
        change busy (dl.nodeStates.erase id).keys _ = 0
        rw [noNodes]
        rfl
      rw [idle] at counted
      exact counted

end Consistent

/-! ## Runs -/

/-- One operation, as guarded by its callers. Operations whose assertion fails
have no step. -/
inductive Step [Field R] [LinearOrder R] [Exp2 R] (dl : BlockDownloads Block R) :
    BlockDownloads Block R → Prop where
  | initializeNode (id : NodeId) : Step dl (dl.initializeNode id)
  | finalizeNode (id : NodeId) {dl' : BlockDownloads Block R}
      (finalized : dl.finalizeNode id = some dl') : Step dl dl'
  -- `SendMessages` asks only for blocks that are not in flight.
  | sendMessages (now : ℤ) (id : NodeId) (hashes : List Uint256) {dl' : BlockDownloads Block R}
      (unrequested : ∀ hash ∈ hashes, dl.isBlockRequested hash = false)
      (req : dl.requestBlocks now id hashes = some dl') :
      Step dl dl'
  | headersDirectFetch (now : ℤ) (id : NodeId) (hashes : List Uint256)
      {dl' : BlockDownloads Block R}
      (unrequested : ∀ hash ∈ hashes, dl.isBlockRequested hash = false)
      (req : dl.directFetch now id hashes = some dl') :
      Step dl dl'
  -- The CMPCTBLOCK handler leaves room for parallel downloads of a block.
  | compactBlock (now : ℤ) (id : NodeId) (hash : Uint256) {state : CNodeState Block R}
      {dl' : BlockDownloads Block R} {isNew : Bool} {it : ℕ}
      (found : dl.state id = some state)
      (guarded : ((dl.equalRange hash).length < maxCmpctblocksInflightPerBlock ∧
          state.vBlocksInFlight.length < maxBlocksInTransitPerPeer) ∨
        ∃ entry ∈ dl.equalRange hash, entry.nodeId = id)
      (req : dl.blockRequested now id hash true = some (dl', isNew, it)) :
      Step dl dl'
  | fetchBlock (now : ℤ) (id : NodeId) (hash : Uint256) {dl' : BlockDownloads Block R}
      (fetched : dl.fetchBlock now id hash = some dl') : Step dl dl'
  | removeBlockRequest (now : ℤ) (hash : Uint256) (fromPeer : Option NodeId)
      {dl' : BlockDownloads Block R}
      (removed : dl.removeBlockRequest now hash fromPeer = some dl') :
      Step dl dl'

/-- The states that operations lead to from the start. -/
def Reachable [Field R] [LinearOrder R] [Exp2 R] (dl : BlockDownloads Block R) : Prop :=
  Relation.ReflTransGen Step initial dl

/-- The loop of `HeadersDirectFetchBlocks` makes some of the requests. -/
theorem requestBlocks_of_directFetch {now : ℤ} {hashes : List Uint256}
    (req : dl.directFetch now id hashes = some dl') :
    ∃ taken ⊆ hashes, dl.requestBlocks now id taken = some dl' := by
  induction hashes generalizing dl with
  | nil => exact ⟨[], nil_subset _, req⟩
  | cons hash rest ih =>
    obtain ⟨state, -, later⟩ := bind_eq_some_iff.mp req
    split_ifs at later
    · exact ⟨[], nil_subset _, later⟩
    · obtain ⟨next, isNext, later⟩ := bind_eq_some_iff.mp later
      obtain ⟨taken, subset, isTaken⟩ := ih later
      refine ⟨hash :: taken, cons_subset_cons _ subset, ?_⟩
      rw [requestBlocks, foldlM_cons, isNext]
      exact isTaken

/-- Every operation keeps the bookkeeping consistent. -/
theorem Step.consistent [Field R] [LinearOrder R] [Exp2 R]
    (step : Step dl dl') (inv : Consistent dl) : Consistent dl' := by
  cases step with
  | initializeNode id => exact inv.initializeNode id
  | finalizeNode id finalized =>
    have conn : (dl.state id).isSome := by
      cases found : dl.state id with
      | none => simp [BlockDownloads.finalizeNode, found] at finalized
      | some state => rfl
    obtain ⟨res, isRes, consistent'⟩ := inv.finalizeNode conn
    rwa [← some_inj.mp (isRes.symm.trans finalized)]
  | sendMessages now id hashes unrequested req =>
    exact (inv.requestBlocks (fun hash mem =>
      onlyFrom_of_not_requested id (unrequested hash mem)) req).1
  | headersDirectFetch now id hashes unrequested req =>
    obtain ⟨taken, subset, isTaken⟩ := requestBlocks_of_directFetch req
    exact (inv.requestBlocks (fun hash mem =>
      onlyFrom_of_not_requested id (unrequested hash (subset mem))) isTaken).1
  | compactBlock now id hash found guarded req =>
    refine (inv.blockRequested ?_ req).1
    rcases guarded with ⟨room, -⟩ | ⟨entry, mem, sameId⟩
    · exact .inr room
    · obtain ⟨inMap, sameHash⟩ := mem_filter.mp mem
      exact .inl ⟨entry, inMap, by simpa using sameHash, sameId⟩
  | fetchBlock now id hash fetched => exact inv.fetchBlock fetched
  | removeBlockRequest now hash fromPeer removed => exact (inv.removeBlockRequest removed).1

theorem Reachable.consistent [Field R] [LinearOrder R] [Exp2 R] (reach : Reachable dl) :
    Consistent dl := by
  induction reach with
  | refl => exact consistent_initial
  | tail _ step ih => exact step.consistent ih

/-- The first peer in line for a block still has a state after further requests
of the same round of `SendMessages`. -/
theorem Consistent.isSome_state_of_staller (inv : Consistent dl) {now : ℤ} {hashes : List Uint256}
    (unrequested : ∀ hash ∈ hashes, dl.isBlockRequested hash = false)
    (req : dl.requestBlocks now id hashes = some dl') {staller : InFlight}
    (first : (dl.equalRange hash).head? = some staller) : (dl'.state staller.nodeId).isSome := by
  have mem : staller ∈ dl.mapBlocksInFlight :=
    mem_of_mem_filter (mem_of_mem_head? first)
  obtain ⟨state, found, -⟩ := inv.exists_state mem
  have keys := (inv.requestBlocks (fun other isIn =>
    onlyFrom_of_not_requested id (unrequested other isIn)) req).2
  rw [BlockDownloads.state, Finmap.lookup_isSome, ← Finmap.mem_keys, keys]
  exact mem_keys_of_state found

/-- In-flight bookkeeping is consistent in every reachable state. The
elements of the multimap for a peer are the entries of its queue, one by one;
no peer has a hash twice; every peer of an element has a state; no hash is in
flight from too many peers; the counter is the number of peers with a non-empty
queue. Hence no assertion of `finalizeNode` fails, and the state of a staller
is never null. -/
theorem inFlight_consistent [Field R] [LinearOrder R] [Exp2 R] (reach : Reachable dl) :
    (∀ id, (dl.mapBlocksInFlight.filter (·.nodeId = id)).map (fun entry => (entry.hash, entry.it)) =
      (dl.vBlocksInFlight id).map fun queued => (queued.hash, queued.it)) ∧
    (∀ id, ((dl.vBlocksInFlight id).map QueuedBlock.hash).Nodup) ∧
    (∀ entry ∈ dl.mapBlocksInFlight, (dl.state entry.nodeId).isSome) ∧
    (∀ hash, ((dl.equalRange hash).map InFlight.nodeId).Nodup ∧
      (dl.equalRange hash).length ≤ maxCmpctblocksInflightPerBlock) ∧ (dl.peersDownloadingFrom =
      ((dl.nodeStates.keys.filter fun id => dl.vBlocksInFlight id ≠ []).card : ℤ)) ∧
    (∀ id, (dl.state id).isSome → (dl.finalizeNode id).isSome) ∧
    ∀ now id hashes dl', (dl.state id).isSome →
      (∀ hash ∈ hashes, dl.isBlockRequested hash = false) →
      dl.requestBlocks now id hashes = some dl' →
      ∀ hash staller, (dl.equalRange hash).head? = some staller →
        (dl'.state staller.nodeId).isSome := by
  have inv := reach.consistent
  have queues : ∀ id, (dl.mapBlocksInFlight.filter (·.nodeId = id)).map
      (fun entry => (entry.hash, entry.it)) =
        (dl.vBlocksInFlight id).map fun queued => (queued.hash, queued.it) := by
    intro id
    have split := inv.split id
    simp only [queueOf, part, requests, filter_map, map_map] at split
    exact split.symm
  refine ⟨queues, ?_, ?_, ?_, ?_, ?_, ?_⟩
  · intro id
    have hashes : (dl.vBlocksInFlight id).map QueuedBlock.hash =
        (dl.mapBlocksInFlight.filter (·.nodeId = id)).map InFlight.hash := by
      simpa [comp_def] using congrArg (List.map Prod.fst) (queues id).symm
    rw [hashes]
    refine (inv.nodup.filter _).map_on ?_
    intro first inFirst second inSecond sameHash
    simp only [mem_filter, decide_eq_true_eq] at inFirst inSecond
    exact inv.eq_of_hash_eq inFirst.1 inSecond.1 sameHash (inFirst.2.trans inSecond.2.symm)
  · intro entry mem
    obtain ⟨state, found, -⟩ := inv.exists_state mem
    exact isSome_iff_exists.mpr ⟨state, found⟩
  · intro hash
    refine ⟨?_, inv.few hash⟩
    refine (inv.nodup.filter _).map_on ?_
    intro first inFirst second inSecond sameId
    rw [mem_filter, decide_eq_true_eq] at inFirst inSecond
    exact inv.eq_of_hash_eq inFirst.1 inSecond.1 (inFirst.2.trans inSecond.2.symm) sameId
  · rw [inv.counted, busy]
    congr 2
    refine Finset.filter_congr ?_
    intro id _
    simp [queueOf]
  · intro id conn
    obtain ⟨res, isRes, -⟩ := inv.finalizeNode conn
    exact isSome_iff_exists.mpr ⟨res, isRes⟩
  · intro now id hashes dl' _ unrequested req hash staller first
    exact inv.isSome_state_of_staller unrequested req first

/-- One peer, asked for one block. -/
theorem inFlight_consistent_oneRequest : ∃ dl : BlockDownloads Unit ℚ, Reachable dl ∧
      dl.mapBlocksInFlight = [⟨5, 0, 0⟩] ∧ (dl.finalizeNode 0).isSome := by
  let conn : BlockDownloads Unit ℚ := initial.initializeNode 0
  obtain ⟨dl, req, isSingle⟩ : ∃ dl, conn.requestBlocks 1 0 [5] = some dl ∧
        dl.mapBlocksInFlight = [⟨5, 0, 0⟩] := ⟨_, rfl, rfl⟩
  have reach : Reachable dl :=
    (Relation.ReflTransGen.refl.tail (.initializeNode 0)).tail
      (.sendMessages 1 0 [5] (fun _ _ => rfl) req)
  refine ⟨dl, reach, isSingle, ?_⟩
  obtain ⟨-, -, states, -, -, finalizes, -⟩ := inFlight_consistent reach
  exact finalizes 0 (states ⟨5, 0, 0⟩ (by rw [isSingle]; exact mem_cons_self))

end BlockDownloads

end BitcoinCore.NetProcessing
