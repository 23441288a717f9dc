import BitcoinCore.TxRequest.Tracker

/-!
# What the request tracker is for

The specification keeps the announcements in a list, in the order in which they were
made, and for each the time from which on it can be requested, the time at which its
request expires, or that it is completed. When the last announcement of a hash that
is not completed goes, the hash is forgotten (`prune`). What to request is defined from
the announcements and the time alone (`requestable`).
-/

namespace BitcoinCore.TxRequest

open List
open Net (NodeId)

/-! ## Announcements -/

inductive Status where
  | candidate (reqtime : ℤ)
  | requested (expiry : ℤ)
  | completed
  deriving DecidableEq

structure Entry where
  gtxid : GenTxid
  peer : NodeId
  preferred : Bool
  status : Status
  deriving DecidableEq

namespace Entry

def txHash (entry : Entry) : Uint256 := entry.gtxid.hash

def priority (prio : PriorityComputer) (entry : Entry) : ℕ :=
  prio entry.txHash entry.peer entry.preferred

/-- The announcement can be requested at a time. -/
def isReady (now : ℤ) (entry : Entry) : Bool :=
  match entry.status with
  | .candidate reqtime => reqtime ≤ now
  | _ => false

def isExpired (now : ℤ) (entry : Entry) : Bool :=
  match entry.status with
  | .requested expiry => expiry ≤ now
  | _ => false

def isOutstanding (now : ℤ) (entry : Entry) : Bool :=
  match entry.status with
  | .requested expiry => now < expiry
  | _ => false

def isCandidate (entry : Entry) : Bool :=
  match entry.status with
  | .candidate _ => true
  | _ => false

def isRequested (entry : Entry) : Bool :=
  match entry.status with
  | .requested _ => true
  | _ => false

def complete (entry : Entry) : Entry := { entry with status := .completed }

def settle (now : ℤ) (entry : Entry) : Entry :=
  if entry.isExpired now then entry.complete else entry

section

variable {now : ℤ} (entry : Entry)

@[simp] theorem settle_peer : (entry.settle now).peer = entry.peer := by
  rw [settle]
  split <;> rfl

@[simp] theorem settle_gtxid : (entry.settle now).gtxid = entry.gtxid := by
  rw [settle]
  split <;> rfl

@[simp] theorem settle_txHash : (entry.settle now).txHash = entry.txHash := by
  rw [txHash, settle_gtxid, txHash]

@[simp] theorem settle_priority (prio : PriorityComputer) :
    (entry.settle now).priority prio = entry.priority prio := by
  rw [settle]
  split <;> rfl

@[simp] theorem settle_isReady : (entry.settle now).isReady now = entry.isReady now := by
  rw [settle]
  split
  case isTrue expired =>
    rcases entry with ⟨_, _, _, status⟩
    cases status with
    | candidate => cases expired
    | requested => rfl
    | completed => rfl
  case isFalse => rfl

@[simp] theorem settle_isOutstanding :
    (entry.settle now).isOutstanding now = entry.isOutstanding now := by
  rw [settle]
  split
  case isTrue expired =>
    rcases entry with ⟨_, _, _, status⟩
    cases status with
    | candidate => cases expired
    | requested expiry =>
      have past : expiry ≤ now := of_decide_eq_true expired
      exact (decide_eq_false (not_lt.mpr past)).symm
    | completed => rfl
  case isFalse => rfl

end

end Entry

namespace Specification

variable (peer : NodeId)

/-! ## Operations -/

def prune (entries : List Entry) : List Entry :=
  entries.filter fun entry => entries.any fun other =>
    other.txHash = entry.txHash ∧ other.status ≠ .completed

def receivedInv (gtxid : GenTxid) (preferred : Bool) (reqtime : ℤ)
    (entries : List Entry) : List Entry :=
  if entries.any fun entry => entry.peer = peer ∧ entry.txHash = gtxid.hash then entries
  else entries ++ [{ gtxid, peer, preferred, status := .candidate reqtime }]

/-- What a request does to an announcement. -/
def requestEntry (txhash : Uint256) (expiry : ℤ) (entry : Entry) : Entry :=
  if entry.txHash = txhash then
    if entry.peer = peer then { entry with status := .requested expiry }
    else if entry.isRequested then entry.complete
    else entry
  else entry

/-- A candidate becomes requested, and another request for its hash is given up. -/
def requestedTx (txhash : Uint256) (expiry : ℤ) (entries : List Entry) : List Entry :=
  if entries.any fun entry => entry.peer = peer ∧ entry.txHash = txhash ∧ entry.isCandidate then
    entries.map (requestEntry peer txhash expiry)
  else entries

def receivedResponse (txhash : Uint256) (entries : List Entry) : List Entry :=
  prune (entries.map fun entry =>
    if entry.peer = peer ∧ entry.txHash = txhash then entry.complete else entry)

def forgetTxHash (txhash : Uint256) (entries : List Entry) : List Entry :=
  entries.filter (·.txHash ≠ txhash)

def disconnectedPeer (entries : List Entry) : List Entry :=
  prune (entries.filter (·.peer ≠ peer))

def expire (now : ℤ) (entries : List Entry) : List Entry :=
  prune (entries.map (Entry.settle now))

/-! ## Answers -/

def expired (now : ℤ) (entries : List Entry) : List (NodeId × GenTxid) :=
  (entries.filter (·.isExpired now)).map fun entry => (entry.peer, entry.gtxid)

/-- The announcement has the highest priority among those of its hash that can be
requested, and no request for its hash is outstanding. -/
def isBest (prio : PriorityComputer) (now : ℤ) (entries : List Entry) (entry : Entry) : Bool :=
  entry.isReady now && entries.all fun other => decide (other.txHash = entry.txHash →
    other.isOutstanding now = false ∧
      (other.isReady now → other.priority prio ≤ entry.priority prio))

/-- The transactions to request from a peer, in the order of their announcement. -/
def requestable (prio : PriorityComputer) (peer : NodeId) (now : ℤ) (entries : List Entry) :
    List GenTxid :=
  (entries.filter fun entry => entry.peer = peer && isBest prio now entries entry).map Entry.gtxid

def countInFlight (entries : List Entry) : ℕ :=
  entries.countP fun entry => entry.peer = peer && entry.isRequested

def countCandidates (entries : List Entry) : ℕ :=
  entries.countP fun entry => entry.peer = peer && entry.isCandidate

def count (entries : List Entry) : ℕ :=
  entries.countP (·.peer = peer)

/-! ## Forgetting hashes -/

section

variable {entries : List Entry}

theorem mem_prune {entry : Entry} : entry ∈ prune entries ↔ entry ∈ entries ∧
    ∃ other ∈ entries, other.txHash = entry.txHash ∧ other.status ≠ .completed := by
  simp [prune]

variable {cond : Entry → Bool}

theorem filter_prune (isOpen : ∀ entry, cond entry → entry.status ≠ .completed) :
    (prune entries).filter cond = entries.filter cond := by
  rw [prune, filter_filter]
  refine filter_congr fun entry mem => ?_
  cases holds : cond entry with
  | false => rw [Bool.false_and]
  | true =>
    rw [Bool.true_and, any_eq_true]
    exact ⟨entry, mem, decide_eq_true ⟨rfl, isOpen entry holds⟩⟩

/-- What is forgotten may be forgotten before entries are changed or dropped, unless
a completed one is opened again. -/
theorem prune_filterMap_prune {change : Entry → Option Entry}
    (keeps : ∀ entry new, change entry = some new → new.txHash = entry.txHash ∧
      (entry.status = .completed → new.status = .completed)) :
    prune ((prune entries).filterMap change) = prune (entries.filterMap change) := by
  have opens : ∀ txhash, (∃ other ∈ entries.filterMap change,
      other.txHash = txhash ∧ other.status ≠ .completed) →
      ∃ other ∈ entries, other.txHash = txhash ∧ other.status ≠ .completed := by
    rintro txhash ⟨other, mem, here, isOpen⟩
    obtain ⟨src, mem', changes⟩ := mem_filterMap.mp mem
    obtain ⟨same, completed⟩ := keeps src other changes
    exact ⟨src, mem', same.symm.trans here, fun done => isOpen (completed done)⟩
  have same : ∀ txhash, (((prune entries).filterMap change).any fun other =>
      decide (other.txHash = txhash ∧ other.status ≠ .completed)) =
      (entries.filterMap change).any fun other =>
        decide (other.txHash = txhash ∧ other.status ≠ .completed) := by
    intro txhash
    rw [Bool.eq_iff_iff, any_eq_true, any_eq_true]
    constructor
    · rintro ⟨other, mem, here⟩
      obtain ⟨src, mem', changes⟩ := mem_filterMap.mp mem
      exact ⟨other, mem_filterMap.mpr ⟨src, (mem_prune.mp mem').1, changes⟩, here⟩
    · rintro ⟨other, mem, here⟩
      obtain ⟨src, mem', changes⟩ := mem_filterMap.mp mem
      have tracked := opens src.txHash
        ⟨other, mem, (keeps src other changes).1, (of_decide_eq_true here).2⟩
      exact ⟨other, mem_filterMap.mpr ⟨src, mem_prune.mpr ⟨mem', tracked⟩, changes⟩, here⟩
  have first : prune ((prune entries).filterMap change) =
      ((prune entries).filterMap change).filter fun entry => (entries.filterMap change).any fun other =>
        other.txHash = entry.txHash ∧ other.status ≠ .completed :=
    filter_congr fun entry _ => same entry.txHash
  rw [first]
  simp only [prune, filterMap_filter, filter_filterMap]
  refine filterMap_congr fun entry mem => ?_
  split
  case isTrue => rfl
  case isFalse forgotten =>
    cases changes : change entry with
    | none => rfl
    | some new =>
      rw [Option.filter_none, eq_comm, Option.filter_eq_none_iff]
      intro found is tracked
      cases is
      simp only [any_eq_true, decide_eq_true_iff] at tracked forgotten
      rw [(keeps entry new changes).1] at tracked
      exact forgotten (opens entry.txHash tracked)

theorem prune_map_prune {change : Entry → Entry} (keeps : ∀ entry,
    (change entry).txHash = entry.txHash ∧
      (entry.status = .completed → (change entry).status = .completed)) :
    prune ((prune entries).map change) = prune (entries.map change) := by
  rw [← filterMap_eq_map]
  refine prune_filterMap_prune fun entry new changes => ?_
  cases changes
  exact keeps entry

theorem prune_filter_prune (cond : Entry → Bool) :
    prune ((prune entries).filter cond) = prune (entries.filter cond) := by
  rw [← filterMap_eq_filter]
  refine prune_filterMap_prune fun entry new changes => ?_
  obtain rfl := (Option.guard_eq_some_iff.mp changes).1
  exact ⟨rfl, id⟩

theorem expire_receivedResponse {now : ℤ} {peer : NodeId} {txhash : Uint256}
    (expired : ∀ entry ∈ entries, entry.peer = peer → entry.txHash = txhash → entry.isExpired now) :
    expire now (receivedResponse peer txhash entries) = expire now entries := by
  rw [expire, receivedResponse, prune_map_prune fun entry => ?_, map_map, expire]
  · congr 1
    refine map_congr_left fun entry mem => ?_
    rw [Function.comp_apply]
    by_cases here : entry.peer = peer ∧ entry.txHash = txhash
    · rw [if_pos here, Entry.settle, Entry.settle, if_pos (expired entry mem here.1 here.2)]
      exact ite_self _
    · rw [if_neg here]
  · rw [Entry.settle]
    split
    · exact ⟨rfl, fun _ => rfl⟩
    · exact ⟨rfl, id⟩

/-- An announcement that is dropped need not be completed before. -/
theorem prune_filter_receivedResponse {peer : NodeId} {txhash : Uint256} :
    prune ((receivedResponse peer txhash entries).filter fun entry =>
        ¬ (entry.peer = peer ∧ entry.txHash = txhash)) =
      prune (entries.filter fun entry => ¬ (entry.peer = peer ∧ entry.txHash = txhash)) := by
  rw [receivedResponse, prune_filter_prune, filter_map]
  congr 1
  have same : ∀ entry : Entry, ((fun entry : Entry =>
      decide (¬ (entry.peer = peer ∧ entry.txHash = txhash))) ∘ fun entry =>
        if entry.peer = peer ∧ entry.txHash = txhash then entry.complete else entry) entry =
      decide (¬ (entry.peer = peer ∧ entry.txHash = txhash)) := by
    intro entry
    rw [Function.comp_apply]
    split <;> rfl
  rw [filter_congr fun entry _ => same entry]
  refine (map_congr_left fun entry mem => ?_).trans (map_id _)
  exact if_neg (of_decide_eq_true (mem_filter.mp mem).2)

end

/-! ## Expiry does not change what to request -/

section

variable {prio : PriorityComputer} {now : ℤ} {entries : List Entry}

theorem isOpen_of_isReady {entry : Entry} (ready : entry.isReady now) :
    entry.status ≠ .completed := by
  intro completed
  rw [Entry.isReady, completed] at ready
  cases ready

theorem isBest_expire {entry : Entry} (mem : entry ∈ entries) :
    isBest prio now (expire now entries) (entry.settle now) = isBest prio now entries entry := by
  rw [isBest, isBest, Entry.settle_isReady]
  cases ready : entry.isReady now with
  | false => rw [Bool.false_and, Bool.false_and]
  | true =>
    have isOpen : (entry.settle now).status ≠ .completed :=
      isOpen_of_isReady (entry.settle_isReady.trans ready)
    rw [Bool.true_and, Bool.true_and, Bool.eq_iff_iff, all_eq_true, all_eq_true]
    constructor
    · intro all other mem'
      rw [decide_eq_true_iff]
      intro here
      have isIn : other.settle now ∈ expire now entries :=
        mem_prune.mpr ⟨mem_map_of_mem mem', entry.settle now, mem_map_of_mem mem,
          by simp [here], isOpen⟩
      have bounds := of_decide_eq_true (all _ isIn)
      simp only [Entry.settle_txHash, Entry.settle_isOutstanding, Entry.settle_isReady,
        Entry.settle_priority] at bounds
      exact bounds here
    · intro all settled mem'
      obtain ⟨other, isIn, rfl⟩ := mem_map.mp (mem_prune.mp mem').1
      simpa using all other isIn

theorem requestable_expire (peer : NodeId) : requestable prio peer now (expire now entries) =
      requestable prio peer now entries := by
  have isOpen : ∀ entry : Entry,
      (entry.peer = peer && isBest prio now (expire now entries) entry) = true →
        entry.status ≠ .completed := by
    intro entry holds
    simp only [isBest, Bool.and_eq_true] at holds
    exact isOpen_of_isReady holds.2.1
  have pruned : (expire now entries).filter (fun entry =>
      entry.peer = peer && isBest prio now (expire now entries) entry) =
      (entries.map (Entry.settle now)).filter fun entry =>
        entry.peer = peer && isBest prio now (expire now entries) entry := filter_prune isOpen
  rw [requestable, pruned, filter_map, map_map, requestable]
  have same : ∀ entry ∈ entries, ((fun entry : Entry =>
      entry.peer = peer && isBest prio now (expire now entries) entry) ∘ Entry.settle now) entry =
      (entry.peer = peer && isBest prio now entries entry : Bool) := by
    intro entry mem
    rw [Function.comp_apply, isBest_expire mem, Entry.settle_peer]
  rw [filter_congr same]
  exact map_congr_left fun entry _ => entry.settle_gtxid

end

end Specification

/-! ## Runs -/

inductive Operation where
  | receivedInv (peer : NodeId) (gtxid : GenTxid) (preferred : Bool) (reqtime : ℤ)
  | requestedTx (peer : NodeId) (txhash : Uint256) (expiry : ℤ)
  | receivedResponse (peer : NodeId) (txhash : Uint256)
  | forgetTxHash (txhash : Uint256)
  | disconnectedPeer (peer : NodeId)
  | getRequestable (peer : NodeId) (now : ℤ)

namespace Operation

def isReceivedInv : Operation → Bool
  | .receivedInv .. => true
  | _ => false

def apply {prio : PriorityComputer} (ord : Orders prio) :
    Operation → TxRequestTracker → Except Failure TxRequestTracker
  | .receivedInv peer gtxid preferred reqtime, trk =>
    .ok (trk.receivedInv peer gtxid preferred reqtime)
  | .requestedTx peer txhash expiry, trk => trk.requestedTx ord peer txhash expiry
  | .receivedResponse peer txhash, trk => trk.receivedResponse ord peer txhash
  | .forgetTxHash txhash, trk => trk.forgetTxHash ord txhash
  | .disconnectedPeer peer, trk => trk.disconnectedPeer ord peer
  | .getRequestable peer now, trk => do
    let (_, _, trk) ← trk.getRequestable ord peer now
    .ok trk

def specify : Operation → List Entry → List Entry
  | .receivedInv peer gtxid preferred reqtime =>
    Specification.receivedInv peer gtxid preferred reqtime
  | .requestedTx peer txhash expiry => Specification.requestedTx peer txhash expiry
  | .receivedResponse peer txhash => Specification.receivedResponse peer txhash
  | .forgetTxHash txhash => Specification.forgetTxHash txhash
  | .disconnectedPeer peer => Specification.disconnectedPeer peer
  | .getRequestable _ now => Specification.expire now

end Operation

def runTracker {prio : PriorityComputer} (ord : Orders prio)
    (ops : List Operation) (trk : TxRequestTracker) : Except Failure TxRequestTracker :=
  ops.foldlM (fun trk op => op.apply ord trk) trk

def runSpecification (ops : List Operation) (entries : List Entry) : List Entry :=
  ops.foldl (fun entries op => op.specify entries) entries

end BitcoinCore.TxRequest
