import BitcoinCore.Chain.BlockIndex
import BitcoinCore.Lib.CheckedAccess
import BitcoinCore.Lib.ElementUpdate
import BitcoinCore.Lib.SortedView
import BitcoinCore.Net.Connman

/-!
# The transaction request tracker

The tracker decides which transactions to request from which peer. It keeps one
announcement for each peer and hash in a container with three ordered indexes. A
candidate announcement is in one of three states: delayed until its time, ready, or
the best of its hash. Which announcement is the next best is found by looking at
the neighbours in the index by hash.

An iterator is the announcement that it points to. Assertions of the source and
dereferences of iterators that may be invalid are checked: they end a computation
with a `Failure`. The loops that move time are bounded, and running out of the bound
is a failure too.
-/

namespace BitcoinCore.TxRequest

open CheckedAccess ElementUpdate SortedList
open Net (NodeId)

/-! ## Announcements -/

inductive State where
  | candidateDelayed
  | candidateReady
  | candidateBest
  | requested
  | completed
  deriving DecidableEq, Repr

def State.rank : State → ℕ
  | .candidateDelayed => 0
  | .candidateReady => 1
  | .candidateBest => 2
  | .requested => 3
  | .completed => 4

structure GenTxid where
  isWtxid : Bool
  hash : Uint256
  deriving DecidableEq

/-- An announcement. The time is the time from which on it can be requested, or the
time at which its request expires. -/
structure Announcement where
  gtxid : GenTxid
  time : ℤ
  peer : NodeId
  sequence : ℕ
  preferred : Bool
  state : State := .candidateDelayed
  deriving DecidableEq

namespace Announcement

variable (ann : Announcement)

def txHash : Uint256 := ann.gtxid.hash

def setState (state : State) (ann : Announcement) : Announcement := { ann with state }

/-- There is at most one selected announcement for each hash. -/
def isSelected : Bool :=
  ann.state = .candidateBest || ann.state = .requested

def isWaiting : Bool :=
  ann.state = .requested || ann.state = .candidateDelayed

/-- The announcement could be selected in place of the one that is. -/
def isSelectable : Bool :=
  ann.state = .candidateReady || ann.state = .candidateBest

end Announcement

/-- The priority of an announcement, from its hash, its peer and whether it is
preferred. -/
abbrev PriorityComputer := Uint256 → NodeId → Bool → ℕ

namespace Announcement

variable (prio : PriorityComputer) (ann : Announcement)

def priority : ℕ := prio ann.txHash ann.peer ann.preferred

/-! ## Indexes -/

def peerKey : NodeId ×ₗ ℕ ×ₗ ℕ :=
  toLex (ann.peer, toLex ((ann.state = .candidateBest : Bool).toNat, ann.txHash.toNat))

/-- The key of the index by hash. Only ready announcements are sorted by priority. -/
def txHashKey : ℕ ×ₗ ℕ ×ₗ ℕ :=
  toLex (ann.txHash.toNat, toLex (ann.state.rank,
    if ann.state = .candidateReady then ann.priority prio else 0))

/-- Announcements that wait come first in the index by time, those that could be
selected come last. -/
def waitState : ℕ :=
  if ann.isWaiting then 0 else if ann.isSelectable then 2 else 1

def timeKey : ℕ ×ₗ ℤ := toLex (ann.waitState, ann.time)

end Announcement

/-- The order of the indexes, and the sorting by sequence number. Announcements with
equal keys stand in any order. -/
structure Orders (prio : PriorityComputer) where
  byPeer : SortedView Announcement.peerKey
  byTxHash : SortedView (Announcement.txHashKey prio)
  byTime : SortedView Announcement.timeKey
  bySequence : SortedView Announcement.sequence

structure PeerInfo where
  total : ℕ := 0
  completed : ℕ := 0
  requested : ℕ := 0
  deriving DecidableEq

/-- The statistics when the state of an announcement no longer counts. -/
def PeerInfo.discount (info : PeerInfo) (ann : Announcement) : PeerInfo :=
  { info with
    completed := info.completed - (ann.state = .completed : Bool).toNat
    requested := info.requested - (ann.state = .requested : Bool).toNat }

def PeerInfo.record (info : PeerInfo) (ann : Announcement) : PeerInfo :=
  { info with
    completed := info.completed + (ann.state = .completed : Bool).toNat
    requested := info.requested + (ann.state = .requested : Bool).toNat }

/-- The tracker. The number of changes to the index stands for its history, on which
the order of announcements with equal keys may depend. -/
structure TxRequestTracker where
  currentSequence : ℕ := 0
  index : List Announcement := []
  peerInfo : NodeId → Option PeerInfo := fun _ => none
  changes : ℕ := 0

/-- What must not happen. -/
inductive Failure where
  /-- An announcement that is promoted is delayed. -/
  | notDelayed
  /-- An announcement that is reselected does not stay selected. -/
  | staysSelected
  /-- A completed announcement is not asked whether it is the last one. -/
  | alreadyCompleted
  /-- The peer of an announcement has statistics. -/
  | noPeerInfo
  /-- A loop ends. -/
  | unfinished
  deriving DecidableEq, Repr

namespace TxRequestTracker

def erase (it : Announcement) (trk : TxRequestTracker) : Except Failure TxRequestTracker :=
  match trk.peerInfo it.peer with
  | none => .error .noPeerInfo
  | some info =>
    let info := { info.discount it with total := info.total - 1 }
    .ok { trk with
          index := removeElem it trk.index
          peerInfo := Function.update trk.peerInfo it.peer
            (if info.total = 0 then none else some info)
          changes := trk.changes + 1 }

/-- Change an announcement and keep the statistics up to date. -/
def modify (it : Announcement) (modifier : Announcement → Announcement)
    (trk : TxRequestTracker) : Except Failure TxRequestTracker :=
  match trk.peerInfo it.peer with
  | none => .error .noPeerInfo
  | some info =>
    .ok { trk with
          index := replaceElem it (modifier it) trk.index
          peerInfo := Function.update trk.peerInfo it.peer
            (some ((info.discount it).record (modifier it)))
          changes := trk.changes + 1 }

section

variable {prio : PriorityComputer} (ord : Orders prio) (it : Announcement) (peer : NodeId)

def byPeer (trk : TxRequestTracker) : List Announcement :=
  ord.byPeer.view trk.changes trk.index

def byTxHash (trk : TxRequestTracker) : List Announcement :=
  ord.byTxHash.view trk.changes trk.index

def byTime (trk : TxRequestTracker) : List Announcement :=
  ord.byTime.view trk.changes trk.index

/-! ## State transitions -/

/-- Make a delayed announcement ready, and the best if it is. A best announcement that
it may be preferred over follows it in the index by hash. -/
def promoteCandidateReady (trk : TxRequestTracker) : Except Failure TxRequestTracker :=
  if it.state ≠ .candidateDelayed then .error .notDelayed
  else do
    let trk ← trk.modify it (.setState .candidateReady)
    let it := it.setState .candidateReady
    match next (trk.byTxHash ord) it with
    | none => trk.modify it (.setState .candidateBest)
    | some itNext =>
      if itNext.txHash ≠ it.txHash ∨ itNext.state = .completed then
        trk.modify it (.setState .candidateBest)
      else if itNext.state = .candidateBest ∧ itNext.priority prio < it.priority prio then
        do
          let trk ← trk.modify itNext (.setState .candidateReady)
          trk.modify it (.setState .candidateBest)
      else .ok trk

/-- Change the state of an announcement to one that is not selected. If it was
selected, the next best one is selected: it precedes it in the index by hash. -/
def changeAndReselect (newState : State) (trk : TxRequestTracker) :
    Except Failure TxRequestTracker :=
  if newState ≠ .completed ∧ newState ≠ .candidateDelayed then .error .staysSelected
  else do
    let trk ←
      if it.isSelected then
        match prev (trk.byTxHash ord) it with
        | none => .ok trk
        | some itPrev =>
          if itPrev.txHash = it.txHash ∧ itPrev.state = .candidateReady then
            trk.modify itPrev (.setState .candidateBest)
          else .ok trk
      else .ok trk
    trk.modify it (.setState newState)

def isOnlyNonCompleted (trk : TxRequestTracker) : Except Failure Bool :=
  if it.state = .completed then .error .alreadyCompleted
  else if (prev (trk.byTxHash ord) it).any (·.txHash = it.txHash) then
    .ok false
  else if (next (trk.byTxHash ord) it).any fun other =>
      other.txHash = it.txHash ∧ other.state ≠ .completed then .ok false
  else .ok true

def eraseWhile (txhash : Uint256) : List Announcement → TxRequestTracker →
    Except Failure TxRequestTracker
  | [], trk => .ok trk
  | it :: rest, trk =>
    if it.txHash = txhash then do
      let trk ← trk.erase it
      eraseWhile txhash rest trk
    else .ok trk

/-- Complete an announcement. If no other announcement of its hash is left that is not
completed, all are deleted. The answer is whether the announcement still exists. -/
def makeCompleted (trk : TxRequestTracker) : Except Failure (Bool × TxRequestTracker) :=
  if it.state = .completed then .ok (true, trk)
  else do
    if ← isOnlyNonCompleted ord it trk then
      let trk ← eraseWhile it.txHash ((trk.byTxHash ord).dropWhile (· ≠ it)) trk
      .ok (false, trk)
    else
      let trk ← changeAndReselect ord it .completed trk
      .ok (true, trk)

/-! ## Moving time -/

abbrev Expired := NodeId × GenTxid

/-- Promote the delayed announcements whose time has come and complete the requests that
have expired, the oldest first. -/
def passWaiting (now : ℤ) : ℕ → TxRequestTracker → List Expired →
    Except Failure (TxRequestTracker × List Expired)
  | 0, _, _ => .error .unfinished
  | rounds + 1, trk, expired =>
    match (trk.byTime ord).head? with
    | none => .ok (trk, expired)
    | some it =>
      if it.state = .candidateDelayed ∧ it.time ≤ now then do
        let trk ← promoteCandidateReady ord it trk
        passWaiting now rounds trk expired
      else if it.state = .requested ∧ it.time ≤ now then do
        let (_, trk) ← makeCompleted ord it trk
        passWaiting now rounds trk (expired ++ [(it.peer, it.gtxid)])
      else .ok (trk, expired)

/-- Delay the announcements whose time has not come: time may go backwards. -/
def delaySelectable (now : ℤ) : ℕ → TxRequestTracker → Except Failure TxRequestTracker
  | 0, _ => .error .unfinished
  | rounds + 1, trk =>
    match (trk.byTime ord).getLast? with
    | none => .ok trk
    | some it =>
      if it.isSelectable ∧ now < it.time then do
        let trk ← changeAndReselect ord it .candidateDelayed trk
        delaySelectable now rounds trk
      else .ok trk

def setTimePoint (now : ℤ) (trk : TxRequestTracker) :
    Except Failure (TxRequestTracker × List Expired) := do
  let (trk, expired) ← passWaiting ord now (trk.index.length + 1) trk []
  let trk ← delaySelectable ord now (trk.index.length + 1) trk
  .ok (trk, expired)

/-! ## Operations -/

def find (peer : NodeId) (best : Bool) (txhash : Uint256) (trk : TxRequestTracker) :
    Option Announcement :=
  trk.index.find? fun ann =>
    ann.peer = peer && (ann.state = .candidateBest : Bool) == best && ann.txHash = txhash

/-- The loop of `disconnectedPeer`. What follows in the index by peer is decided before
the announcement is completed; it is an announcement of the peer for another hash,
which is not changed meanwhile. -/
def disconnectFrom (peer : NodeId) : ℕ → Option Announcement → TxRequestTracker →
    Except Failure TxRequestTracker
  | 0, _, _ => .error .unfinished
  | _ + 1, none, trk => .ok trk
  | rounds + 1, some it, trk =>
    if it.peer = peer then do
      let itNext := (next (trk.byPeer ord) it).filter (·.peer = peer)
      let (remains, trk) ← makeCompleted ord it trk
      let trk ← if remains then trk.erase (it.setState .completed) else .ok trk
      disconnectFrom peer rounds itNext trk
    else .ok trk

def disconnectedPeer (trk : TxRequestTracker) : Except Failure TxRequestTracker :=
  disconnectFrom ord peer (trk.index.length + 1)
    (fromBound Announcement.peerKey (toLex (peer, toLex (0, 0))) (trk.byPeer ord)).head?
    trk

def forgetTxHash (txhash : Uint256) (trk : TxRequestTracker) :
    Except Failure TxRequestTracker :=
  eraseWhile txhash (fromBound (Announcement.txHashKey prio)
      (toLex (txhash.toNat, toLex (State.candidateDelayed.rank, 0))) (trk.byTxHash ord))
    trk

/-- Sequence numbers have 59 bits, and are counted in 64. -/
def receivedInv (gtxid : GenTxid) (preferred : Bool) (reqtime : ℤ)
    (trk : TxRequestTracker) : TxRequestTracker :=
  if (trk.find peer true gtxid.hash).isSome then trk
  else if (trk.find peer false gtxid.hash).isSome then trk
  else
    { index := trk.index ++ [{
        gtxid, peer, preferred, time := reqtime, sequence := trk.currentSequence % 2 ^ 59 }]
      peerInfo := Function.update trk.peerInfo peer (some
        { (trk.peerInfo peer).getD {} with
          total := ((trk.peerInfo peer).getD {}).total + 1 })
      currentSequence := (trk.currentSequence + 1) % 2 ^ 64
      changes := trk.changes + 1 }

/-- The transactions to request from a peer now, in the order of their announcement, and
the requests that have expired. -/
def getRequestable (now : ℤ) (trk : TxRequestTracker) :
    Except Failure (List GenTxid × List Expired × TxRequestTracker) := do
  let (trk, expired) ← setTimePoint ord now trk
  let selected := (fromBound Announcement.peerKey (toLex (peer, toLex (1, 0)))
    (trk.byPeer ord)).takeWhile fun ann =>
      ann.peer = peer && (ann.state = .candidateBest : Bool)
  .ok ((ord.bySequence.view trk.changes selected).map Announcement.gtxid, expired, trk)

/-- What `requestedTx` does to another announcement of the hash that is selected. -/
def releaseSelected (txhash : Uint256) (trk : TxRequestTracker) :
    Except Failure TxRequestTracker :=
  match (fromBound (Announcement.txHashKey prio)
      (toLex (txhash.toNat, toLex (State.candidateBest.rank, 0))) (trk.byTxHash ord)).head?
    with
  | none => .ok trk
  | some itOld =>
    if itOld.txHash = txhash then
      if itOld.state = .candidateBest then trk.modify itOld (.setState .candidateReady)
      else if itOld.state = .requested then trk.modify itOld (.setState .completed)
      else .ok trk
    else .ok trk

def requestedTx (txhash : Uint256) (expiry : ℤ) (trk : TxRequestTracker) :
    Except Failure TxRequestTracker :=
  match trk.find peer true txhash with
  | some it => trk.modify it fun ann => { ann with state := .requested, time := expiry }
  | none =>
    match trk.find peer false txhash with
    | none => .ok trk
    | some it =>
      if it.state ≠ .candidateDelayed ∧ it.state ≠ .candidateReady then .ok trk
      else do
        let trk ← releaseSelected ord txhash trk
        trk.modify it fun ann => { ann with state := .requested, time := expiry }

def receivedResponse (txhash : Uint256) (trk : TxRequestTracker) :
    Except Failure TxRequestTracker :=
  match (trk.find peer false txhash).or (trk.find peer true txhash) with
  | none => .ok trk
  | some it => do
    let (_, trk) ← makeCompleted ord it trk
    .ok trk

end

def countInFlight (peer : NodeId) (trk : TxRequestTracker) : ℕ :=
  match trk.peerInfo peer with
  | some info => info.requested
  | none => 0

def countCandidates (peer : NodeId) (trk : TxRequestTracker) : ℕ :=
  match trk.peerInfo peer with
  | some info => info.total - info.requested - info.completed
  | none => 0

def count (peer : NodeId) (trk : TxRequestTracker) : ℕ :=
  match trk.peerInfo peer with
  | some info => info.total
  | none => 0

end TxRequestTracker

end BitcoinCore.TxRequest
