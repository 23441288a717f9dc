import BitcoinCore.Lib.MinElement
import BitcoinCore.Net.Connman
import BitcoinCore.Util.FeeFrac

/-!
# The orphanage

Transactions whose inputs are missing are kept, once for every peer that announced them.
Each peer has counters of its announcements, and the orphanage has totals in which every
transaction counts once. The limits depend on the number of peers.

A transaction is given by its wtxid; `TxData` says what the wtxid commits to. The index of
the spent outputs and the set of reconsiderable transactions are determined by the
announcements and are read off them. The counters, however, are kept next to the
announcements, and every operation keeps them right (`Consistent`).
-/

namespace BitcoinCore.Orphanage

open Net List MinElement

/-- What a wtxid commits to. -/
structure TxData (Wtxid OutPoint : Type*) where
  weight : Wtxid → ℕ
  prevouts : Wtxid → List OutPoint

/-- How limiting the orphanage can fail: an assertion, a pop of an empty heap or of a peer
within its limits, or a loop that does not end. -/
inductive Fault where
  | assertion
  | emptyHeap
  | withinLimits
  | outOfRounds
  deriving DecidableEq

/-- A transaction that a peer announced. -/
structure Announcement (Wtxid : Type*) where
  wtxid : Wtxid
  announcer : NodeId
  entrySequence : ℕ
  reconsider : Bool
  deriving DecidableEq

/-- The counters of a peer. -/
@[ext]
structure PeerDoSInfo where
  totalUsage : ℕ
  countAnnouncements : ℕ
  totalLatencyScore : ℕ
  deriving DecidableEq

/-- The limits of the orphanage. -/
structure Limits where
  maxGlobalLatencyScore : ℕ
  reservedUsagePerPeer : ℕ

/-- The announcements with the counters that are kept next to them. -/
structure TxOrphanage (Wtxid : Type*) where
  orphans : List (Announcement Wtxid)
  currentSequence : ℕ
  uniqueOrphans : ℕ
  uniqueOrphanUsage : ℕ
  uniqueRoundedInputScores : ℕ
  peerOrphanageInfo : AList fun _ : NodeId => PeerDoSInfo

/-! ## The code -/

section

variable {Wtxid OutPoint : Type} [DecidableEq Wtxid] (txs : TxData Wtxid OutPoint) (limits : Limits)

/-- The part of the latency score that comes from the inputs. -/
def TxData.inputScore (wtxid : Wtxid) : ℕ := (txs.prevouts wtxid).length / 10

/-- What an announcement of the transaction counts. -/
def TxData.latencyScore (wtxid : Wtxid) : ℕ := 1 + txs.inputScore wtxid

namespace PeerDoSInfo

/-- The counters with one more announcement. -/
def add (info : PeerDoSInfo) (wtxid : Wtxid) : PeerDoSInfo :=
  ⟨info.totalUsage + txs.weight wtxid, info.countAnnouncements + 1,
    info.totalLatencyScore + txs.latencyScore wtxid⟩

/-- The counters with one announcement less. -/
def subtract (info : PeerDoSInfo) (wtxid : Wtxid) : PeerDoSInfo :=
  ⟨info.totalUsage - txs.weight wtxid, info.countAnnouncements - 1,
    info.totalLatencyScore - txs.latencyScore wtxid⟩

end PeerDoSInfo

/-- The conversion to the size of a `FeeFrac`. -/
def narrow (size : ℕ) : ℤ := (BitVec.ofNat 32 size).toInt

/-- `operator<` of `FeeFrac`: a lower ratio, or the same one with a larger size. -/
def less (a b : FeeFrac) : Bool :=
  if FeeFrac.mul a.fee b.size = FeeFrac.mul b.fee a.size then b.size < a.size
  else FeeFrac.mul a.fee b.size < FeeFrac.mul b.fee a.size

/-- The larger one of the ratios by which a peer uses its shares. -/
def dosScore (maxPeerLatencyScore maxPeerMemory : ℕ) (info : PeerDoSInfo) : FeeFrac :=
  let latencyScore : FeeFrac := ⟨info.totalLatencyScore, narrow maxPeerLatencyScore⟩
  let memScore : FeeFrac := ⟨info.totalUsage, narrow maxPeerMemory⟩
  if less latencyScore memScore then memScore else latencyScore

/-- `GetDosScore`, with its assertions on the shares. -/
def getDosScore (maxPeerLatencyScore maxPeerMemory : ℕ) (info : PeerDoSInfo) :
    Except Fault FeeFrac :=
  if maxPeerLatencyScore = 0 then .error .assertion
  else if maxPeerMemory = 0 then .error .assertion
  else .ok (dosScore maxPeerLatencyScore maxPeerMemory info)

namespace TxOrphanage

/-- The orphanage at the start. -/
def empty (Wtxid : Type*) : TxOrphanage Wtxid := ⟨[], 0, 0, 0, 0, ∅⟩

variable (orph : TxOrphanage Wtxid)

/-- The number of announcing peers. -/
def countPeers : ℕ := orph.peerOrphanageInfo.keys.length

/-- The score of the whole orphanage. -/
def totalLatencyScore : ℕ := orph.uniqueRoundedInputScores + orph.orphans.length

/-- The share of a peer in the score. -/
def maxPeerLatencyScore : ℕ := limits.maxGlobalLatencyScore / max orph.countPeers 1

/-- The limit on the memory grows with the number of peers. -/
def maxGlobalUsage : ℕ := limits.reservedUsagePerPeer * max orph.countPeers 1

/-- A global limit is exceeded. -/
def needsTrim : Bool :=
  decide (limits.maxGlobalLatencyScore < orph.totalLatencyScore) ||
    decide (orph.maxGlobalUsage limits < orph.uniqueOrphanUsage)

/-- Some peer announced the transaction. -/
def haveTx (wtxid : Wtxid) : Bool := orph.orphans.any (·.wtxid = wtxid)

/-- The peer announced the transaction. -/
def haveTxFromPeer (wtxid : Wtxid) (peer : NodeId) : Bool :=
  orph.orphans.any fun ann => decide (ann.wtxid = wtxid) && decide (ann.announcer = peer)

/-- Erase an announcement, and the counters of a peer without any. -/
def erase (ann : Announcement Wtxid) : TxOrphanage Wtxid :=
  let info := ((orph.peerOrphanageInfo.lookup ann.announcer).getD ⟨0, 0, 0⟩).subtract txs ann.wtxid
  let others := orph.orphans.erase ann
  let unique := !others.any (·.wtxid = ann.wtxid)
  { orph with
    orphans := others
    uniqueOrphans := if unique then orph.uniqueOrphans - 1 else orph.uniqueOrphans
    uniqueOrphanUsage :=
      if unique then orph.uniqueOrphanUsage - txs.weight ann.wtxid else orph.uniqueOrphanUsage
    uniqueRoundedInputScores :=
      if unique then orph.uniqueRoundedInputScores - (txs.latencyScore ann.wtxid - 1)
      else orph.uniqueRoundedInputScores
    peerOrphanageInfo :=
      if info.countAnnouncements = 0 then orph.peerOrphanageInfo.erase ann.announcer
      else orph.peerOrphanageInfo.insert ann.announcer info }

/-- Erase some announcements, one after the other. -/
def eraseAll (anns : List (Announcement Wtxid)) : TxOrphanage Wtxid :=
  anns.foldl (fun orph ann => orph.erase txs ann) orph

/-- Add an announcement; the totals count the transaction if it is new. -/
def insert (wtxid : Wtxid) (peer : NodeId) : TxOrphanage Wtxid :=
  let brandNew := !orph.haveTx wtxid
  { orphans := ⟨wtxid, peer, orph.currentSequence, false⟩ :: orph.orphans
    currentSequence := orph.currentSequence + 1
    uniqueOrphans := if brandNew then orph.uniqueOrphans + 1 else orph.uniqueOrphans
    uniqueOrphanUsage :=
      if brandNew then orph.uniqueOrphanUsage + txs.weight wtxid else orph.uniqueOrphanUsage
    uniqueRoundedInputScores :=
      if brandNew then orph.uniqueRoundedInputScores + (txs.latencyScore wtxid - 1)
      else orph.uniqueRoundedInputScores
    peerOrphanageInfo := orph.peerOrphanageInfo.insert peer
      (((orph.peerOrphanageInfo.lookup peer).getD ⟨0, 0, 0⟩).add txs wtxid) }

/-- The order by peer: those that are not reconsiderable first, then by age. -/
def older (ann best : Announcement Wtxid) : Bool :=
  (!ann.reconsider && best.reconsider) ||
    (ann.reconsider == best.reconsider && decide (ann.entrySequence < best.entrySequence))

/-- The first announcement of a peer. -/
def oldest (peer : NodeId) : Option (Announcement Wtxid) :=
  match orph.orphans.filter (·.announcer = peer) with
  | [] => none
  | first :: own => some (minElement older first own)

end TxOrphanage

/-! ### Trimming -/

section

/-- A peer with its score. -/
abbrev PeerDos := NodeId × FeeFrac

/-- The order of the heap: among equal scores the more recent peer is worse. -/
def compareScore (left right : PeerDos) : Bool :=
  if left.2 ≠ right.2 then less left.2 right.2 else left.1 < right.1

/-- The top of the heap. -/
def worstOf (first : PeerDos) (heap : List PeerDos) : PeerDos :=
  minElement (fun other worst => compareScore worst other) first heap

/-- The top of the heap and the others. -/
def popHeap : List PeerDos → Option (PeerDos × List PeerDos)
  | [] => none
  | first :: heap => some (worstOf first heap, (first :: heap).erase (worstOf first heap))

/-- The score that the popped peer is trimmed to: that of the next one. -/
def threshold : List PeerDos → FeeFrac
  | [] => ⟨1, 1⟩
  | first :: heap => (worstOf first heap).2

variable (maxLat maxMem : ℕ)

/-- The inner loop of `LimitOrphans`, for a number of rounds, with the announcements it
erases. -/
def trimPeer (worstPeer : NodeId) (dosThreshold : FeeFrac) :
    ℕ → TxOrphanage Wtxid → Except Fault (TxOrphanage Wtxid × List (Announcement Wtxid))
  | 0, _ => .error .outOfRounds
  | rounds + 1, orph =>
    if orph.needsTrim limits then
      match orph.oldest worstPeer with
      | none => .ok (orph, [])
      | some ann =>
        let orph := orph.erase txs ann
        match orph.peerOrphanageInfo.lookup worstPeer with
        | none => .ok (orph, [ann])
        | some info => do
          let score ← getDosScore maxLat maxMem info
          if less dosThreshold score then do
            let (orph, erased) ← trimPeer worstPeer dosThreshold rounds orph
            return (orph, ann :: erased)
          else return (orph, [ann])
    else .ok (orph, [])

/-- The popped peer goes back if it still announces something. -/
def pushBack (worstPeer : NodeId) (orph : TxOrphanage Wtxid) (heap : List PeerDos) :
    Except Fault (List PeerDos) :=
  match orph.peerOrphanageInfo.lookup worstPeer with
  | none => .ok heap
  | some info =>
    if 0 < info.countAnnouncements then do
      let score ← getDosScore maxLat maxMem info
      return (worstPeer, score) :: heap
    else .ok heap

/-- The outer loop of `LimitOrphans`, for a number of rounds. -/
def limitLoop : ℕ → List PeerDos → TxOrphanage Wtxid →
      Except Fault (TxOrphanage Wtxid × List (Announcement Wtxid))
  | 0, _, _ => .error .outOfRounds
  | rounds + 1, heap, orph =>
    match popHeap heap with
    | none => .error .emptyHeap
    | some ((worstPeer, score), heap) =>
      if score.higher ⟨1, 1⟩ then do
        let (orph, erased) ← trimPeer txs limits maxLat maxMem worstPeer (threshold heap)
          (orph.orphans.length + 1) orph
        if orph.needsTrim limits then do
          let heap ← pushBack maxLat maxMem worstPeer orph heap
          let (orph, more) ← limitLoop rounds heap orph
          return (orph, erased ++ more)
        else return (orph, erased)
      else .error .withinLimits

/-- The peers above their share, with their scores. -/
def buildHeap : List (Σ _ : NodeId, PeerDoSInfo) → Except Fault (List PeerDos)
  | [] => .ok []
  | ⟨nodeid, entry⟩ :: entries => do
    let score ← getDosScore maxLat maxMem entry
    let heap ← buildHeap entries
    return if score.higher ⟨1, 1⟩ then (nodeid, score) :: heap else heap

end

/-- `LimitOrphans`, with the announcements it erases. -/
def limitOrphans (orph : TxOrphanage Wtxid) :
    Except Fault (TxOrphanage Wtxid × List (Announcement Wtxid)) :=
  if orph.needsTrim limits then do
    let maxLat := orph.maxPeerLatencyScore limits
    let maxMem := limits.reservedUsagePerPeer
    let heap ← buildHeap maxLat maxMem orph.peerOrphanageInfo.entries
    limitLoop txs limits maxLat maxMem (orph.orphans.length + 1) heap orph
  else .ok (orph, [])

end

/-! ## Operations -/

section

variable {Wtxid OutPoint : Type} [DecidableEq Wtxid] [DecidableEq OutPoint]
  (txs : TxData Wtxid OutPoint) (limits : Limits)

/-- The operations that can change the orphanage. -/
inductive Operation (Wtxid OutPoint : Type) where
  | addTx (wtxid : Wtxid) (peer : NodeId)
  | addAnnouncer (wtxid : Wtxid) (peer : NodeId)
  | eraseTx (wtxid : Wtxid)
  | eraseForPeer (peer : NodeId)
  | eraseForBlock (spent : List OutPoint)
  | addToWorkSet (wtxid : Wtxid) (peer : NodeId)
  | getTxToReconsider (peer : NodeId)

/-- The largest weight of a standard transaction. -/
def maxStandardTxWeight : ℕ := 400000

/-- Whether an announcement is in the work set. -/
def TxOrphanage.setReconsider (orph : TxOrphanage Wtxid) (wtxid : Wtxid) (peer : NodeId)
    (reconsider : Bool) : TxOrphanage Wtxid :=
  { orph with
    orphans := orph.orphans.map fun ann =>
      if ann.wtxid = wtxid ∧ ann.announcer = peer then { ann with reconsider := reconsider }
      else ann }

/-- The first announcement in the work set of a peer. -/
def TxOrphanage.toReconsider (orph : TxOrphanage Wtxid) (peer : NodeId) :
    Option (Announcement Wtxid) :=
  { orph with orphans := orph.orphans.filter fun ann => ann.reconsider }.oldest peer

/-- What an operation does before the orphanage is limited, and whether it is limited then.
`addToWorkSet` is one step of `AddChildrenToWorkSet`, with the announcer that was picked. -/
def change (orph : TxOrphanage Wtxid) : Operation Wtxid OutPoint → TxOrphanage Wtxid × Bool
  | .addTx wtxid peer =>
    if maxStandardTxWeight < txs.weight wtxid then (orph, false)
    else if orph.haveTxFromPeer wtxid peer then (orph, false)
    else (orph.insert txs wtxid peer, true)
  | .addAnnouncer wtxid peer =>
    if !orph.haveTx wtxid then (orph, false)
    else if orph.haveTxFromPeer wtxid peer then (orph, false)
    else (orph.insert txs wtxid peer, true)
  | .eraseTx wtxid =>
    (orph.eraseAll txs (orph.orphans.filter (·.wtxid = wtxid)), true)
  | .eraseForPeer peer =>
    let own := orph.orphans.filter (·.announcer = peer)
    if own.isEmpty then (orph, false) else (orph.eraseAll txs own, true)
  | .eraseForBlock spent =>
    if orph.orphans.isEmpty then (orph, false)
    else
      (orph.eraseAll txs (orph.orphans.filter fun ann =>
        (txs.prevouts ann.wtxid).any fun prevout => spent.contains prevout), true)
  | .addToWorkSet wtxid peer =>
    if orph.orphans.any fun ann => decide (ann.wtxid = wtxid) && ann.reconsider then
      (orph, false)
    else (orph.setReconsider wtxid peer true, false)
  | .getTxToReconsider peer =>
    match orph.toReconsider peer with
    | none => (orph, false)
    | some ann => (orph.setReconsider ann.wtxid peer false, false)

/-- An operation. -/
def step (orph : TxOrphanage Wtxid) (op : Operation Wtxid OutPoint) :
    Except Fault (TxOrphanage Wtxid) :=
  let changed := change txs orph op
  if changed.2 then (limitOrphans txs limits changed.1).map Prod.fst else .ok changed.1

/-- Some operations, one after the other. -/
def run : TxOrphanage Wtxid → List (Operation Wtxid OutPoint) → Except Fault (TxOrphanage Wtxid)
  | orph, [] => .ok orph
  | orph, op :: ops => do
    let orph ← step txs limits orph op
    run orph ops

end

/-! ## The counters -/

section

variable {Wtxid OutPoint : Type} (txs : TxData Wtxid OutPoint)

/-- The counters that a peer should have. -/
def infoOf (orphans : List (Announcement Wtxid)) (peer : NodeId) : PeerDoSInfo :=
  let own := orphans.filter (·.announcer = peer)
  ⟨(own.map fun ann => txs.weight ann.wtxid).sum, own.length,
    (own.map fun ann => txs.latencyScore ann.wtxid).sum⟩

/-- A peer without announcements has no counters. -/
def infoAt (orphans : List (Announcement Wtxid)) (peer : NodeId) : Option PeerDoSInfo :=
  if (infoOf txs orphans peer).countAnnouncements = 0 then none else some (infoOf txs orphans peer)

variable {txs} {orphans : List (Announcement Wtxid)}

theorem infoOf_cons (ann : Announcement Wtxid) (peer : NodeId) : infoOf txs (ann :: orphans) peer =
      if ann.announcer = peer then (infoOf txs orphans peer).add txs ann.wtxid
      else infoOf txs orphans peer := by
  rw [infoOf, filter_cons]
  by_cases own : ann.announcer = peer
  · rw [if_pos (decide_eq_true own), if_pos own]
    ext <;> simp only [infoOf, PeerDoSInfo.add, map_cons, sum_cons, length_cons] <;> omega
  · rw [if_neg (by simp [own]), if_neg own]
    rfl

theorem infoOf_perm {others : List (Announcement Wtxid)} (perm : orphans.Perm others)
    (peer : NodeId) : infoOf txs orphans peer = infoOf txs others peer := by
  have own := perm.filter fun ann => decide (ann.announcer = peer)
  rw [infoOf, infoOf, (own.map _).sum_eq, (own.map _).sum_eq, own.length_eq]

theorem infoOf_eq_zero {peer : NodeId} (none : (infoOf txs orphans peer).countAnnouncements = 0) :
    infoOf txs orphans peer = ⟨0, 0, 0⟩ := by
  have own := eq_nil_of_length_eq_zero none
  rw [infoOf, own]
  rfl

theorem getD_infoAt (peer : NodeId) :
    (infoAt txs orphans peer).getD ⟨0, 0, 0⟩ = infoOf txs orphans peer := by
  rw [infoAt]
  split
  case isTrue none => exact (infoOf_eq_zero none).symm
  case isFalse => rfl

theorem add_subtract (info : PeerDoSInfo) (wtxid : Wtxid) :
    (info.add txs wtxid).subtract txs wtxid = info := by
  ext <;> simp only [PeerDoSInfo.add, PeerDoSInfo.subtract] <;> omega

theorem latencyScore_sub_one (wtxid : Wtxid) : txs.latencyScore wtxid - 1 = txs.inputScore wtxid :=
  Nat.add_sub_cancel_left 1 _

theorem infoAt_eq_some_iff {peer : NodeId} {info : PeerDoSInfo} :
    infoAt txs orphans peer = some info ↔
      (∃ ann ∈ orphans, ann.announcer = peer) ∧ info = infoOf txs orphans peer := by
  have count : (infoOf txs orphans peer).countAnnouncements = 0 ↔
      ¬ ∃ ann ∈ orphans, ann.announcer = peer := by
    simp [infoOf]
  rw [infoAt]
  split
  case isTrue none =>
    exact ⟨fun isSome => (by cases isSome), fun both => absurd both.1 (count.mp none)⟩
  case isFalse some =>
    rw [Option.some_inj, eq_comm (a := infoOf txs orphans peer)]
    exact (and_iff_right (not_not.mp fun absent => some (count.mpr absent))).symm

end

section

variable {Wtxid OutPoint : Type} [DecidableEq Wtxid] (txs : TxData Wtxid OutPoint)

/-- The transactions that are announced. -/
def uniqueTxs (orphans : List (Announcement Wtxid)) : Finset Wtxid :=
  (orphans.map Announcement.wtxid).toFinset

/-- The counters are right, and no peer announced a transaction twice. -/
structure Consistent (orph : TxOrphanage Wtxid) : Prop where
  nodup : (orph.orphans.map fun ann => (ann.wtxid, ann.announcer)).Nodup
  unique : orph.uniqueOrphans = (uniqueTxs orph.orphans).card
  usage : orph.uniqueOrphanUsage = ∑ wtxid ∈ uniqueTxs orph.orphans, txs.weight wtxid
  scores : orph.uniqueRoundedInputScores = ∑ wtxid ∈ uniqueTxs orph.orphans, txs.inputScore wtxid
  info : ∀ peer, orph.peerOrphanageInfo.lookup peer = infoAt txs orph.orphans peer

variable {txs} {orph : TxOrphanage Wtxid}
  {P : Wtxid → NodeId → Prop} {anns : List (Announcement Wtxid)}

theorem consistent_empty : Consistent txs (TxOrphanage.empty Wtxid) :=
  ⟨nodup_nil, rfl, rfl, rfl, fun _ => rfl⟩

section

variable (inv : Consistent txs orph)
include inv

theorem Consistent.insert {wtxid : Wtxid} {peer : NodeId}
    (fresh : orph.haveTxFromPeer wtxid peer = false) :
    Consistent txs (orph.insert txs wtxid peer) := by
  have all : uniqueTxs (orph.insert txs wtxid peer).orphans =
      Insert.insert wtxid (uniqueTxs orph.orphans) := toFinset_cons
  have known : orph.haveTx wtxid ↔ wtxid ∈ uniqueTxs orph.orphans := by
    simp [TxOrphanage.haveTx, uniqueTxs]
  have keys : ((orph.insert txs wtxid peer).orphans.map
      fun ann => (ann.wtxid, ann.announcer)).Nodup := by
    refine nodup_cons.mpr ⟨fun mem => ?_, inv.nodup⟩
    obtain ⟨ann, isAnn, same⟩ := mem_map.mp mem
    rw [TxOrphanage.haveTxFromPeer, any_eq_false] at fresh
    refine fresh ann isAnn ?_
    rw [(Prod.mk.inj same).1, (Prod.mk.inj same).2]
    simp
  have infos : ∀ other, (orph.insert txs wtxid peer).peerOrphanageInfo.lookup other =
      infoAt txs (orph.insert txs wtxid peer).orphans other := by
    intro other
    rw [TxOrphanage.insert, infoAt, infoOf_cons, inv.info, getD_infoAt]
    dsimp only
    by_cases same : peer = other
    · subst same
      rw [AList.lookup_insert, if_pos rfl]
      exact (if_neg (Nat.succ_ne_zero _)).symm
    · rw [AList.lookup_insert_ne (Ne.symm same), if_neg same, inv.info]
      rfl
  refine ⟨keys, ?_, ?_, ?_, infos⟩ <;> rw [all, TxOrphanage.insert]
  all_goals
    cases have_ : orph.haveTx wtxid with
    | true =>
      rw [Finset.insert_eq_of_mem (known.mp have_)]
      first
        | exact inv.unique
        | exact inv.usage
        | exact inv.scores
    | false =>
      have new : wtxid ∉ uniqueTxs orph.orphans := fun mem => by
        rw [known.mpr mem] at have_
        cases have_
      first
        | exact inv.unique ▸ (Finset.card_insert_of_notMem new).symm
        | rw [Finset.sum_insert new, ← inv.usage]; exact Nat.add_comm _ _
        | rw [Finset.sum_insert new, ← inv.scores, latencyScore_sub_one]; exact Nat.add_comm _ _

theorem Consistent.erase {ann : Announcement Wtxid}
    (mem : ann ∈ orph.orphans) : Consistent txs (orph.erase txs ann) := by
  have perm := perm_cons_erase mem
  have all : uniqueTxs orph.orphans =
      Insert.insert ann.wtxid (uniqueTxs (orph.orphans.erase ann)) := by
    rw [uniqueTxs, toFinset_eq_of_perm _ _ (perm.map Announcement.wtxid), map_cons, toFinset_cons]
    rfl
  have other_iff : ((orph.orphans.erase ann).any (·.wtxid = ann.wtxid)) = true ↔
      ann.wtxid ∈ uniqueTxs (orph.orphans.erase ann) := by
    simp [uniqueTxs]
  have infos : ∀ peer, (orph.erase txs ann).peerOrphanageInfo.lookup peer =
      infoAt txs (orph.orphans.erase ann) peer := by
    intro peer
    rw [TxOrphanage.erase, inv.info, getD_infoAt, infoOf_perm perm, infoOf_cons, if_pos rfl,
      add_subtract]
    dsimp only
    by_cases same : ann.announcer = peer
    · subst same
      rw [infoAt]
      split
      case isTrue => exact AList.lookup_erase _ _
      case isFalse => exact AList.lookup_insert _
    · have unchanged : orph.peerOrphanageInfo.lookup peer =
          infoAt txs (orph.orphans.erase ann) peer := by
        rw [inv.info, infoAt, infoOf_perm perm, infoOf_cons, if_neg same]
        rfl
      split
      case isTrue => rw [AList.lookup_erase_ne (Ne.symm same), unchanged]
      case isFalse => rw [AList.lookup_insert_ne (Ne.symm same), unchanged]
  refine ⟨inv.nodup.sublist (erase_sublist.map _), ?_, ?_, ?_, infos⟩ <;>
    rw [TxOrphanage.erase] <;> dsimp only
  all_goals
    cases others : (orph.orphans.erase ann).any (·.wtxid = ann.wtxid) with
    | true =>
      have same := Finset.insert_eq_of_mem (other_iff.mp others)
      first
        | exact inv.unique.trans (congrArg Finset.card (all.trans same))
        | exact inv.usage.trans (by rw [all, same])
        | exact inv.scores.trans (by rw [all, same])
    | false =>
      have gone : ann.wtxid ∉ uniqueTxs (orph.orphans.erase ann) := fun isMem => by
        rw [other_iff.mpr isMem] at others
        cases others
      first
        | rw [inv.unique, all, Finset.card_insert_of_notMem gone]; rfl
        | rw [inv.usage, all, Finset.sum_insert gone]; exact Nat.add_sub_cancel_left _ _
        | rw [inv.scores, all, Finset.sum_insert gone, latencyScore_sub_one]
          exact Nat.add_sub_cancel_left _ _

theorem Consistent.of_keys {others : List (Announcement Wtxid)}
    (keys : others.map (fun ann => (ann.wtxid, ann.announcer)) =
      orph.orphans.map fun ann => (ann.wtxid, ann.announcer)) :
    Consistent txs { orph with orphans := others } := by
  have wtxids : others.map Announcement.wtxid = orph.orphans.map Announcement.wtxid := by
    have first := congrArg (List.map Prod.fst) keys
    rwa [map_map, map_map] at first
  have infos : ∀ peer, infoOf txs others peer = infoOf txs orph.orphans peer := by
    intro peer
    clear wtxids
    generalize orph.orphans = orphans at keys
    induction others generalizing orphans with
    | nil =>
      rw [map_eq_nil_iff.mp keys.symm]
    | cons ann others ih =>
      obtain ⟨first, rest, rfl, same, more⟩ := map_eq_cons_iff.mp keys.symm
      rw [infoOf_cons, infoOf_cons, ih rest more.symm, ← (Prod.mk.inj same).1,
        ← (Prod.mk.inj same).2]
  refine ⟨keys ▸ inv.nodup, ?_, ?_, ?_, fun peer => ?_⟩
  · rw [uniqueTxs, wtxids]
    exact inv.unique
  · rw [uniqueTxs, wtxids]
    exact inv.usage
  · rw [uniqueTxs, wtxids]
    exact inv.scores
  · rw [infoAt, infos]
    exact inv.info peer

theorem Consistent.eraseAll (nodup : anns.Nodup) (members : ∀ ann ∈ anns, ann ∈ orph.orphans) :
    Consistent txs (orph.eraseAll txs anns) := by
  induction anns generalizing orph with
  | nil => exact inv
  | cons ann anns ih =>
    obtain ⟨notMem, rest⟩ := nodup_cons.mp nodup
    refine ih (inv.erase (members ann mem_cons_self)) rest fun other isOther => ?_
    have ne : other ≠ ann := fun same => notMem (same ▸ isOther)
    exact (mem_erase_of_ne ne).mpr (members other (mem_cons_of_mem _ isOther))

theorem Consistent.eraseFiltered (cond : Announcement Wtxid → Bool) :
    Consistent txs (orph.eraseAll txs (orph.orphans.filter cond)) :=
  inv.eraseAll (inv.nodup.of_map.filter _) fun _ mem => mem_of_mem_filter mem

theorem Consistent.setReconsider (wtxid : Wtxid) (peer : NodeId) (reconsider : Bool) :
    Consistent txs (orph.setReconsider wtxid peer reconsider) := by
  refine inv.of_keys ?_
  rw [map_map]
  refine map_congr_left fun ann _ => ?_
  rw [Function.comp_apply]
  split <;> rfl

end

/-- All that an operation can do before the orphanage is limited. -/
theorem change_cases [DecidableEq OutPoint] (txs : TxData Wtxid OutPoint) (orph : TxOrphanage Wtxid)
    (op : Operation Wtxid OutPoint) : (change txs orph op).1 = orph ∨
    (∃ wtxid peer, (op = .addTx wtxid peer ∨ op = .addAnnouncer wtxid peer ∧ orph.haveTx wtxid) ∧
      orph.haveTxFromPeer wtxid peer = false ∧
      (change txs orph op).1 = orph.insert txs wtxid peer) ∨
    (∃ cond, (change txs orph op).1 = orph.eraseAll txs (orph.orphans.filter cond)) ∨
    ∃ wtxid peer reconsider,
      (change txs orph op).1 = orph.setReconsider wtxid peer reconsider := by
  cases op with
  | addTx wtxid peer =>
    rw [change]
    split_ifs with large known
    · exact .inl rfl
    · exact .inl rfl
    · exact .inr (.inl ⟨wtxid, peer, .inl rfl, Bool.of_not_eq_true known, rfl⟩)
  | addAnnouncer wtxid peer =>
    rw [change]
    split_ifs with missing known
    · exact .inl rfl
    · exact .inl rfl
    · rw [Bool.not_eq_true, Bool.not_eq_false'] at missing
      exact .inr (.inl ⟨wtxid, peer, .inr ⟨rfl, missing⟩, Bool.of_not_eq_true known, rfl⟩)
  | eraseTx wtxid => exact .inr (.inr (.inl ⟨_, rfl⟩))
  | eraseForPeer peer =>
    rw [change]
    split_ifs
    · exact .inl rfl
    · exact .inr (.inr (.inl ⟨_, rfl⟩))
  | eraseForBlock spent =>
    rw [change]
    split_ifs
    · exact .inl rfl
    · exact .inr (.inr (.inl ⟨_, rfl⟩))
  | addToWorkSet wtxid peer =>
    rw [change]
    split_ifs
    · exact .inl rfl
    · exact .inr (.inr (.inr ⟨_, _, _, rfl⟩))
  | getTxToReconsider peer =>
    rw [change]
    split
    · exact .inl rfl
    · exact .inr (.inr (.inr ⟨_, _, _, rfl⟩))

/-- The operations keep the counters right. -/
theorem Consistent.change [DecidableEq OutPoint] (inv : Consistent txs orph)
    (op : Operation Wtxid OutPoint) : Consistent txs (change txs orph op).1 := by
  rcases change_cases txs orph op with same | ⟨wtxid, peer, -, fresh, same⟩ | ⟨cond, same⟩ |
    ⟨wtxid, peer, reconsider, same⟩ <;> rw [same]
  · exact inv
  · exact inv.insert fresh
  · exact inv.eraseFiltered cond
  · exact inv.setReconsider wtxid peer reconsider

theorem mem_eraseAll {ann : Announcement Wtxid}
    (nodup : orph.orphans.Nodup) (mem : ann ∈ (orph.eraseAll txs anns).orphans) :
    ann ∈ orph.orphans ∧ ann ∉ anns := by
  induction anns generalizing orph with
  | nil => exact ⟨mem, not_mem_nil⟩
  | cons first anns ih =>
    obtain ⟨kept, other⟩ := ih (nodup.erase first) mem
    obtain ⟨ne, isMem⟩ := (nodup.mem_erase_iff).mp kept
    exact ⟨isMem, fun erased => (mem_cons.mp erased).elim ne other⟩

/-- Announcements come from the operations that add them. What holds of all
announcements keeps holding if it holds of an added one. -/
theorem change_forall [DecidableEq OutPoint]
    (all : ∀ ann ∈ orph.orphans, P ann.wtxid ann.announcer) (inv : Consistent txs orph)
    (op : Operation Wtxid OutPoint) (addTx : ∀ wtxid peer, op = .addTx wtxid peer → P wtxid peer)
    (addAnnouncer : ∀ wtxid peer, op = .addAnnouncer wtxid peer →
      orph.haveTx wtxid → P wtxid peer) :
    ∀ ann ∈ (change txs orph op).1.orphans, P ann.wtxid ann.announcer := by
  intro ann mem
  rcases change_cases txs orph op with same | ⟨wtxid, peer, isOp, -, same⟩ | ⟨cond, same⟩ |
    ⟨wtxid, peer, reconsider, same⟩ <;> rw [same] at mem
  · exact all ann mem
  · rcases mem_cons.mp mem with rfl | old
    · rcases isOp with isOp | ⟨isOp, known⟩
      · exact addTx _ _ isOp
      · exact addAnnouncer _ _ isOp known
    · exact all ann old
  · exact all ann (mem_eraseAll inv.nodup.of_map mem).1
  · obtain ⟨old, isOld, rfl⟩ := mem_map.mp mem
    split <;> exact all old isOld

theorem change_eraseForPeer [DecidableEq OutPoint] (inv : Consistent txs orph) (peer : NodeId) :
    ∀ ann ∈ (change txs orph (.eraseForPeer peer)).1.orphans, ann.announcer ≠ peer := by
  intro ann mem own
  rw [Orphanage.change] at mem
  split_ifs at mem with empty
  · rw [List.isEmpty_iff, filter_eq_nil_iff] at empty
    exact empty ann mem (decide_eq_true own)
  · obtain ⟨isMem, kept⟩ := mem_eraseAll inv.nodup.of_map mem
    exact kept (mem_filter.mpr ⟨isMem, decide_eq_true own⟩)

end

/-! ## The oldest announcement -/

section

variable {Wtxid : Type} {orph : TxOrphanage Wtxid} {peer : NodeId} {ann : Announcement Wtxid}

theorem oldest_mem (found : orph.oldest peer = some ann) :
    ann ∈ orph.orphans ∧ ann.announcer = peer := by
  rw [TxOrphanage.oldest] at found
  split at found
  case h_1 => cases found
  case h_2 first own isOwn =>
    cases found
    have mem := minElement_mem TxOrphanage.older first own
    rw [← isOwn, mem_filter] at mem
    exact ⟨mem.1, of_decide_eq_true mem.2⟩

theorem exists_oldest (announced : ∃ ann ∈ orph.orphans, ann.announcer = peer) :
    ∃ ann, orph.oldest peer = some ann := by
  obtain ⟨ann, mem, own⟩ := announced
  have inOwn : ann ∈ orph.orphans.filter fun ann => ann.announcer = peer :=
    mem_filter.mpr ⟨mem, decide_eq_true own⟩
  obtain ⟨first, rest, isCons⟩ := exists_cons_of_ne_nil (ne_nil_of_mem inOwn)
  exact ⟨_, by rw [TxOrphanage.oldest, isCons]⟩

end

end BitcoinCore.Orphanage
