import BitcoinCore.Lib.CheckedAccess
import BitcoinCore.Node.TxOrphanage

/-!
# Limiting the orphanage

`LimitOrphans` takes the worst peer from a heap of scores and erases its oldest
announcements until it is no longer the worst one or the limits are kept.

While a limit is exceeded, some peer uses more than its share (`exists_above`): the totals
count every transaction once, and so are at most the sums over the peers. Hence the heap is
never popped while it is empty, only announcements of peers above their share are erased,
and the limits are kept in the end (`limitOrphans_fair`).

The share of the latency score is a quotient of integers. With more announcing peers than
the global score allows it is zero, and the assertion on it fails
(`run_assertion_iff`).
-/

namespace BitcoinCore.Orphanage

open Net List TxOrphanage CheckedAccess MinElement

/-! ## Scores -/

section

/-- A peer with such a score uses more than its share. -/
def AboveOne (score : FeeFrac) : Prop := score.size < score.fee

theorem higher_one_iff (score : FeeFrac) : score.higher ⟨1, 1⟩ = true ↔ AboveOne score := by
  simp [FeeFrac.higher, FeeFrac.mul, AboveOne]

section

variable {a b : FeeFrac} (a_pos : 0 < a.size) (b_pos : 0 < b.size)
include a_pos b_pos

theorem aboveOne_of_le (order : less a b ∨ less b a = false) (above : AboveOne a) :
    AboveOne b := by
  have cross : a.fee * b.size ≤ b.fee * a.size := by
    rw [less, less] at order
    rcases order with lower | notLower
    · split at lower
      case isTrue equal => exact equal.le
      case isFalse => exact (of_decide_eq_true lower).le
    · split at notLower
      case isTrue equal => exact equal.ge
      case isFalse => exact not_lt.mp (of_decide_eq_false notLower)
  rw [AboveOne] at above ⊢
  by_contra notAbove
  have first : b.fee * a.size ≤ b.size * a.size :=
    mul_le_mul_of_nonneg_right (not_lt.mp notAbove) a_pos.le
  have second : a.size * b.size < a.fee * b.size := mul_lt_mul_of_pos_right above b_pos
  linarith [mul_comm a.size b.size]

end

/-- Limits that are positive and fit into a 32-bit size. -/
def Fits (limit : ℕ) : Prop := 0 < limit ∧ limit < 2 ^ 31

theorem narrow_eq {limit : ℕ} (fits : Fits limit) : narrow limit = limit := by
  have bound := fits.2
  rw [narrow, BitVec.toInt_eq_toNat_of_lt] <;> rw [BitVec.toNat_ofNat, Nat.mod_eq_of_lt] <;> omega

variable {maxLat maxMem : ℕ}

theorem dosScore_size_pos (fitsLat : Fits maxLat) (fitsMem : Fits maxMem) (info : PeerDoSInfo) :
    0 < (dosScore maxLat maxMem info).size := by
  have lat := narrow_eq fitsLat
  have mem := narrow_eq fitsMem
  have lat_pos := fitsLat.1
  have mem_pos := fitsMem.1
  rw [dosScore]
  split <;> dsimp only <;> omega

/-- A score above one means that the peer uses more than its share. -/
theorem aboveOne_dosScore_iff (fitsLat : Fits maxLat) (fitsMem : Fits maxMem) (info : PeerDoSInfo) :
    AboveOne (dosScore maxLat maxMem info) ↔
      maxLat < info.totalLatencyScore ∨ maxMem < info.totalUsage := by
  have latency : AboveOne ⟨info.totalLatencyScore, narrow maxLat⟩ ↔
      maxLat < info.totalLatencyScore := by
    rw [AboveOne, narrow_eq fitsLat, Nat.cast_lt]
  have memory : AboveOne ⟨info.totalUsage, narrow maxMem⟩ ↔ maxMem < info.totalUsage := by
    rw [AboveOne, narrow_eq fitsMem, Nat.cast_lt]
  have lat_pos : 0 < narrow maxLat := by rw [narrow_eq fitsLat]; exact_mod_cast fitsLat.1
  have mem_pos : 0 < narrow maxMem := by rw [narrow_eq fitsMem]; exact_mod_cast fitsMem.1
  rw [dosScore]
  split
  case isTrue lower =>
    rw [memory]
    exact ⟨Or.inr, fun either => either.elim
      (fun high => memory.mp (aboveOne_of_le lat_pos mem_pos (.inl lower) (latency.mpr high))) id⟩
  case isFalse notLower =>
    rw [latency]
    exact ⟨Or.inl, fun either => either.elim id fun high => latency.mp
      (aboveOne_of_le mem_pos lat_pos (.inr (Bool.of_not_eq_true notLower)) (memory.mpr high))⟩

theorem getDosScore_eq (lat_pos : 0 < maxLat) (mem_pos : 0 < maxMem) (info : PeerDoSInfo) :
    getDosScore maxLat maxMem info = .ok (dosScore maxLat maxMem info) := by
  rw [getDosScore, if_neg lat_pos.ne', if_neg mem_pos.ne']

end

/-! ## The heap -/

section

variable {heap : List PeerDos}

theorem aboveOne_worstOf {first : PeerDos} (pos : ∀ peer ∈ first :: heap, 0 < peer.2.size)
    (above : ∃ peer ∈ first :: heap, AboveOne peer.2) : AboveOne (worstOf first heap).2 := by
  obtain ⟨peer, member, high⟩ := above
  refine minElement_of_mem (P := fun peer => AboveOne peer.2)
    (fun other isOther worst isWorst => ?_) member high
  by_cases same : worst.2 = other.2
  · rw [same]
    split_ifs <;> exact id
  · rw [compareScore, if_pos same]
    split_ifs with lower
    · exact aboveOne_of_le (pos worst isWorst) (pos other isOther) (.inl lower)
    · exact aboveOne_of_le (pos other isOther) (pos worst isWorst)
        (.inr (Bool.of_not_eq_true lower))

theorem aboveOne_threshold (pos : ∀ peer ∈ heap, 0 < peer.2.size)
    (above : ∃ peer ∈ heap, AboveOne peer.2) : AboveOne (threshold heap) := by
  cases heap with
  | nil =>
    obtain ⟨peer, member, -⟩ := above
    exact absurd member not_mem_nil
  | cons first heap => exact aboveOne_worstOf pos above

theorem threshold_size_pos (pos : ∀ peer ∈ heap, 0 < peer.2.size) :
    0 < (threshold heap).size := by
  cases heap with
  | nil => exact Int.one_pos
  | cons first heap => exact pos _ (minElement_mem _ first heap)

end

/-! ## Sums over the peers -/

section

variable {Wtxid OutPoint : Type} {orphans : List (Announcement Wtxid)}

/-- The peers that announce something. -/
def peersOf (orphans : List (Announcement Wtxid)) : Finset NodeId :=
  (orphans.map Announcement.announcer).toFinset

theorem mem_peersOf {peer : NodeId} :
    peer ∈ peersOf orphans ↔ ∃ ann ∈ orphans, ann.announcer = peer := by
  simp [peersOf]

theorem sum_filter_announcer (score : Wtxid → ℕ) {peers : Finset NodeId}
    (all : ∀ ann ∈ orphans, ann.announcer ∈ peers) :
    ∑ peer ∈ peers, ((orphans.filter fun ann => ann.announcer = peer).map
        fun ann => score ann.wtxid).sum = (orphans.map fun ann => score ann.wtxid).sum := by
  induction orphans with
  | nil => simp
  | cons ann orphans ih =>
    obtain ⟨here, rest⟩ := forall_mem_cons.mp all
    rw [map_cons, sum_cons, ← ih rest]
    have split : ∀ peer, (((ann :: orphans).filter fun ann => ann.announcer = peer).map
        fun ann => score ann.wtxid).sum = (if ann.announcer = peer then score ann.wtxid else 0) +
          ((orphans.filter fun ann => ann.announcer = peer).map
            fun ann => score ann.wtxid).sum := by
      intro peer
      rw [filter_cons]
      by_cases own : ann.announcer = peer <;> simp [own]
    rw [Finset.sum_congr rfl fun peer _ => split peer, Finset.sum_add_distrib,
      Finset.sum_ite_eq, if_pos here]

/-- A transaction counts once in the totals. -/
theorem sum_uniqueTxs_le [DecidableEq Wtxid] (score : Wtxid → ℕ) :
    ∑ wtxid ∈ uniqueTxs orphans, score wtxid ≤ (orphans.map fun ann => score ann.wtxid).sum := by
  induction orphans with
  | nil => exact le_rfl
  | cons ann orphans ih =>
    have unique : uniqueTxs (ann :: orphans) = Insert.insert ann.wtxid (uniqueTxs orphans) :=
      toFinset_cons
    rw [unique, map_cons, sum_cons]
    by_cases known : ann.wtxid ∈ uniqueTxs orphans
    · rw [Finset.insert_eq_of_mem known]
      omega
    · rw [Finset.sum_insert known]
      omega

variable [DecidableEq Wtxid] {txs : TxData Wtxid OutPoint} {orph : TxOrphanage Wtxid}

theorem Consistent.countPeers_eq (consistent : Consistent txs orph) :
    orph.countPeers = (peersOf orph.orphans).card := by
  have keys : orph.peerOrphanageInfo.keys.toFinset = peersOf orph.orphans := by
    ext peer
    rw [mem_toFinset, ← AList.mem_keys, ← AList.lookup_isSome, consistent.info, mem_peersOf]
    constructor
    · intro some_
      obtain ⟨info, isInfo⟩ := Option.isSome_iff_exists.mp some_
      exact (infoAt_eq_some_iff.mp isInfo).1
    · intro announced
      exact Option.isSome_iff_exists.mpr ⟨_, infoAt_eq_some_iff.mpr ⟨announced, rfl⟩⟩
  rw [countPeers, ← keys, toFinset_card_of_nodup orph.peerOrphanageInfo.keys_nodup]

theorem Consistent.totalLatencyScore_le (consistent : Consistent txs orph) :
    orph.totalLatencyScore ≤
      ∑ peer ∈ peersOf orph.orphans, (infoOf txs orph.orphans peer).totalLatencyScore := by
  have sums := sum_filter_announcer txs.latencyScore
    (fun ann (member : ann ∈ orph.orphans) => mem_peersOf.mpr ⟨ann, member, rfl⟩)
  have unique := @sum_uniqueTxs_le _ orph.orphans _ txs.inputScore
  have each : (orph.orphans.map fun ann => txs.latencyScore ann.wtxid).sum =
      orph.orphans.length + (orph.orphans.map fun ann => txs.inputScore ann.wtxid).sum := by
    simp [TxData.latencyScore, sum_map_add]
  rw [totalLatencyScore, consistent.scores]
  simp only [infoOf]
  rw [sums, each]
  omega

theorem Consistent.uniqueOrphanUsage_le (consistent : Consistent txs orph) :
    orph.uniqueOrphanUsage ≤
      ∑ peer ∈ peersOf orph.orphans, (infoOf txs orph.orphans peer).totalUsage := by
  have sums := sum_filter_announcer txs.weight
    (fun ann (member : ann ∈ orph.orphans) => mem_peersOf.mpr ⟨ann, member, rfl⟩)
  rw [consistent.usage]
  simp only [infoOf]
  rw [sums]
  exact sum_uniqueTxs_le txs.weight

/-- While a limit is exceeded, some peer uses more than its share. -/
theorem exists_above {limits : Limits} {maxLat : ℕ} (consistent : Consistent txs orph)
    (shares : maxLat * orph.countPeers ≤ limits.maxGlobalLatencyScore)
    (trim : orph.needsTrim limits) : ∃ peer info, orph.peerOrphanageInfo.lookup peer = some info ∧
      (maxLat < info.totalLatencyScore ∨ limits.reservedUsagePerPeer < info.totalUsage) := by
  by_contra none
  push Not at none
  have within : ∀ peer ∈ peersOf orph.orphans,
      (infoOf txs orph.orphans peer).totalLatencyScore ≤ maxLat ∧
        (infoOf txs orph.orphans peer).totalUsage ≤ limits.reservedUsagePerPeer := by
    intro peer member
    refine none peer _ ?_
    rw [consistent.info]
    exact infoAt_eq_some_iff.mpr ⟨mem_peersOf.mp member, rfl⟩
  have latency := consistent.totalLatencyScore_le.trans
    (Finset.sum_le_card_nsmul _ _ _ fun peer member => (within peer member).1)
  have usage := consistent.uniqueOrphanUsage_le.trans
    (Finset.sum_le_card_nsmul _ _ _ fun peer member => (within peer member).2)
  rw [smul_eq_mul, ← consistent.countPeers_eq] at latency usage
  rw [needsTrim, Bool.or_eq_true, decide_eq_true_iff, decide_eq_true_iff, maxGlobalUsage] at trim
  have enough : orph.countPeers * limits.reservedUsagePerPeer ≤
      limits.reservedUsagePerPeer * max orph.countPeers 1 := by
    rw [Nat.mul_comm]
    exact Nat.mul_le_mul_left _ (le_max_left _ _)
  rw [Nat.mul_comm] at shares
  omega

end

/-! ## Fair erasures -/

section

variable {Wtxid OutPoint : Type} [DecidableEq Wtxid] {txs : TxData Wtxid OutPoint} {limits : Limits}
  {orph middle final : TxOrphanage Wtxid} {maxLat maxMem : ℕ}

/-- Announcements are erased one after the other, each while the score of its peer is above
one. -/
inductive Fair (txs : TxData Wtxid OutPoint) (maxLat maxMem : ℕ) :
    TxOrphanage Wtxid → List (Announcement Wtxid) → TxOrphanage Wtxid → Prop where
  | nil (orph : TxOrphanage Wtxid) : Fair txs maxLat maxMem orph [] orph
  | cons {orph final : TxOrphanage Wtxid} {ann : Announcement Wtxid} {info : PeerDoSInfo}
      {erased : List (Announcement Wtxid)} (member : ann ∈ orph.orphans)
      (found : orph.peerOrphanageInfo.lookup ann.announcer = some info)
      (above : (dosScore maxLat maxMem info).higher ⟨1, 1⟩ = true)
      (rest : Fair txs maxLat maxMem (orph.erase txs ann) erased final) :
      Fair txs maxLat maxMem orph (ann :: erased) final

theorem Fair.append {first second : List (Announcement Wtxid)}
    (fair : Fair txs maxLat maxMem orph first middle)
    (fair' : Fair txs maxLat maxMem middle second final) :
    Fair txs maxLat maxMem orph (first ++ second) final := by
  induction fair with
  | nil => exact fair'
  | cons member found above _ ih => exact .cons member found above (ih fair')

theorem lookup_erase_of_ne {ann : Announcement Wtxid} {peer : NodeId} (ne : peer ≠ ann.announcer) :
    (orph.erase txs ann).peerOrphanageInfo.lookup peer = orph.peerOrphanageInfo.lookup peer := by
  rw [erase]
  dsimp only
  split
  · exact AList.lookup_erase_ne ne
  · exact AList.lookup_insert_ne ne

theorem Fair.kept {erased : List (Announcement Wtxid)}
    (fair : Fair txs maxLat maxMem orph erased final) {peer : NodeId}
    (within : ∀ info, orph.peerOrphanageInfo.lookup peer = some info →
      (dosScore maxLat maxMem info).higher ⟨1, 1⟩ = false) :
    ∀ ann ∈ orph.orphans, ann.announcer = peer → ann ∈ final.orphans := by
  induction fair with
  | nil => exact fun ann member _ => member
  | @cons orph final first info erased member found above rest ih =>
    have ne : peer ≠ first.announcer := by
      rintro rfl
      rw [within info found] at above
      cases above
    intro ann isAnn own
    refine ih (by rw [lookup_erase_of_ne ne]; exact within) ann ?_ own
    refine (mem_erase_of_ne ?_).mpr isAnn
    rintro rfl
    exact ne own.symm

/-! ## The loops -/

section

/-- What the loops keep: the counters are right, and the shares add up to the limit. -/
structure Trimmable (txs : TxData Wtxid OutPoint) (limits : Limits) (maxLat : ℕ)
    (orph : TxOrphanage Wtxid) : Prop where
  consistent : Consistent txs orph
  shares : maxLat * orph.countPeers ≤ limits.maxGlobalLatencyScore

variable {ann : Announcement Wtxid}

theorem Trimmable.erase (trimmable : Trimmable txs limits maxLat orph)
    (member : ann ∈ orph.orphans) :
    Trimmable txs limits maxLat (orph.erase txs ann) := by
  have consistent := trimmable.consistent.erase member
  refine ⟨consistent, le_trans (Nat.mul_le_mul_left maxLat ?_) trimmable.shares⟩
  rw [consistent.countPeers_eq, trimmable.consistent.countPeers_eq]
  refine Finset.card_le_card fun peer isPeer => ?_
  obtain ⟨other, isOther, own⟩ := mem_peersOf.mp isPeer
  exact mem_peersOf.mpr ⟨other, mem_of_mem_erase isOther, own⟩

/-- The heap, also while a peer is popped from it: the scores are current, and all other peers
above one are there. -/
structure HeapFor (limits : Limits) (maxLat : ℕ) (orph : TxOrphanage Wtxid) (popped : Option NodeId)
    (heap : List PeerDos) : Prop where
  current : ∀ peer ∈ heap, ∃ info, orph.peerOrphanageInfo.lookup peer.1 = some info ∧
    peer.2 = dosScore maxLat limits.reservedUsagePerPeer info
  complete : ∀ peer info, some peer ≠ popped → orph.peerOrphanageInfo.lookup peer = some info →
    AboveOne (dosScore maxLat limits.reservedUsagePerPeer info) →
      (peer, dosScore maxLat limits.reservedUsagePerPeer info) ∈ heap
  nodup : (popped.toList ++ heap.map Prod.fst).Nodup

variable {worst : NodeId} {popped : Option NodeId} {heap : List PeerDos}

theorem HeapFor.erase (rest : HeapFor limits maxLat orph (some worst) heap)
    (own : ann.announcer = worst) :
    HeapFor limits maxLat (orph.erase txs ann) (some worst) heap := by
  refine ⟨fun peer member => ?_, fun peer info ne => ?_, rest.nodup⟩
  · rw [lookup_erase_of_ne]
    · exact rest.current peer member
    · rintro same
      exact (nodup_cons.mp rest.nodup).1 (mem_map.mpr ⟨peer, member, same.trans own⟩)
  · rw [lookup_erase_of_ne (own.symm ▸ fun same => ne (congrArg some same))]
    exact rest.complete peer info ne

section

variable (fitsLat : Fits maxLat) (fitsMem : Fits limits.reservedUsagePerPeer)
include fitsLat fitsMem

omit [DecidableEq Wtxid] in
theorem HeapFor.size_pos (heapFor : HeapFor limits maxLat orph popped heap) :
    ∀ peer ∈ heap, 0 < peer.2.size := by
  intro peer member
  obtain ⟨info, -, score⟩ := heapFor.current peer member
  rw [score]
  exact dosScore_size_pos fitsLat fitsMem info

theorem aboveOne_of_continue (trimmable : Trimmable txs limits maxLat orph)
    (rest : HeapFor limits maxLat orph (some worst) heap) {info : PeerDoSInfo}
    (found : orph.peerOrphanageInfo.lookup worst = some info)
    (goesOn : less (threshold heap) (dosScore maxLat limits.reservedUsagePerPeer info))
    (trim : orph.needsTrim limits) :
    AboveOne (dosScore maxLat limits.reservedUsagePerPeer info) := by
  have pos := rest.size_pos fitsLat fitsMem
  obtain ⟨peer, other, isOther, uses⟩ := exists_above trimmable.consistent trimmable.shares trim
  rw [← aboveOne_dosScore_iff fitsLat fitsMem] at uses
  by_cases same : peer = worst
  · subst same
    rw [found] at isOther
    cases isOther
    exact uses
  · -- another peer above one is in the heap, so the threshold is above one
    have ne : some peer ≠ some worst := fun eq => same (Option.some.inj eq)
    have above := aboveOne_threshold pos ⟨_, rest.complete peer other ne isOther uses, uses⟩
    exact aboveOne_of_le (threshold_size_pos pos) (dosScore_size_pos fitsLat fitsMem info)
      (.inl goesOn) above

/-- The inner loop ends, erases only announcements of a peer above one, and erases
some. -/
theorem trimPeer_spec {rounds : ℕ} (trimmable : Trimmable txs limits maxLat orph)
    (rest : HeapFor limits maxLat orph (some worst) heap)
    (above : orph.needsTrim limits → ∃ info, orph.peerOrphanageInfo.lookup worst = some info ∧
        AboveOne (dosScore maxLat limits.reservedUsagePerPeer info))
    (enough : orph.orphans.length < rounds) : ∃ trimmed erased,
      trimPeer txs limits maxLat limits.reservedUsagePerPeer worst (threshold heap) rounds orph =
        .ok (trimmed, erased) ∧ Fair txs maxLat limits.reservedUsagePerPeer orph erased trimmed ∧
      Trimmable txs limits maxLat trimmed ∧
      HeapFor limits maxLat trimmed (some worst) heap ∧
      trimmed.orphans.length ≤ orph.orphans.length ∧
      (orph.needsTrim limits → trimmed.orphans.length < orph.orphans.length) := by
  induction rounds generalizing orph with
  | zero => omega
  | succ rounds ih =>
    rw [trimPeer]
    split
    case isFalse notTrim =>
      exact ⟨orph, [], rfl, .nil _, trimmable, rest, le_rfl, fun trim => absurd trim notTrim⟩
    case isTrue trim =>
      obtain ⟨info, found, high⟩ := above trim
      have isInfo := found
      rw [trimmable.consistent.info] at isInfo
      obtain ⟨ann, isOldest⟩ := exists_oldest (infoAt_eq_some_iff.mp isInfo).1
      obtain ⟨member, own⟩ := oldest_mem isOldest
      have length_eq : (orph.erase txs ann).orphans.length = orph.orphans.length - 1 :=
        length_erase_of_mem member
      have pos := length_pos_of_mem member
      have trimmable' := trimmable.erase member
      have rest' : HeapFor limits maxLat (orph.erase txs ann) (some worst) heap := rest.erase own
      have first : ∀ {erased final},
          Fair txs maxLat limits.reservedUsagePerPeer (orph.erase txs ann) erased final →
            Fair txs maxLat limits.reservedUsagePerPeer orph (ann :: erased) final := fun fair =>
        .cons member (own.symm ▸ found) ((higher_one_iff _).mpr high) fair
      rw [isOldest]
      dsimp only
      cases found' : (orph.erase txs ann).peerOrphanageInfo.lookup worst with
      | none =>
        exact ⟨_, _, rfl, first (.nil _), trimmable', rest', by omega, fun _ => by omega⟩
      | some info' =>
        dsimp only
        rw [getDosScore_eq fitsLat.1 fitsMem.1]
        simp only [bind, Except.bind]
        split
        case isTrue goesOn =>
          obtain ⟨trimmed, erased, isTrimmed, fair, trimmable'', rest'', le, -⟩ :=
            ih trimmable' rest' (fun trim' => ⟨info', found', aboveOne_of_continue fitsLat fitsMem
              trimmable' rest' found' goesOn trim'⟩) (by omega)
          rw [isTrimmed]
          exact ⟨trimmed, ann :: erased, rfl, first fair, trimmable'', rest'', by omega,
            fun _ => by omega⟩
        case isFalse =>
          exact ⟨_, _, rfl, first (.nil _), trimmable', rest', by omega, fun _ => by omega⟩

/-- While a limit is exceeded, a peer above one can be popped. -/
theorem HeapFor.pop (trimmable : Trimmable txs limits maxLat orph) (trim : orph.needsTrim limits)
    (heapFor : HeapFor limits maxLat orph none heap) :
    ∃ worst info rest, popHeap heap =
        some ((worst, dosScore maxLat limits.reservedUsagePerPeer info), rest) ∧
      orph.peerOrphanageInfo.lookup worst = some info ∧
      AboveOne (dosScore maxLat limits.reservedUsagePerPeer info) ∧
      HeapFor limits maxLat orph (some worst) rest := by
  obtain ⟨peer, other, isOther, uses⟩ := exists_above trimmable.consistent trimmable.shares trim
  rw [← aboveOne_dosScore_iff fitsLat fitsMem] at uses
  have inHeap := heapFor.complete peer other nofun isOther uses
  cases heap with
  | nil => exact absurd inHeap not_mem_nil
  | cons first heap =>
    have isMem : worstOf first heap ∈ first :: heap := minElement_mem _ first heap
    have above := aboveOne_worstOf (heapFor.size_pos fitsLat fitsMem) ⟨_, inHeap, uses⟩
    rw [popHeap]
    generalize worstOf first heap = worst at *
    obtain ⟨peer', score⟩ := worst
    obtain ⟨info, found, isScore⟩ := heapFor.current _ isMem
    dsimp only at found isScore above
    subst isScore
    refine ⟨peer', info, _, rfl, found, above, fun other member => ?_,
      fun other info' ne found' high => ?_,
      ((perm_cons_erase isMem).map Prod.fst).nodup_iff.mp heapFor.nodup⟩
    · exact heapFor.current other (mem_of_mem_erase member)
    · refine (mem_erase_of_ne ?_).mpr (heapFor.complete other info' nofun found' high)
      exact fun same => ne (congrArg (some ·.1) same)

theorem pushBack_spec (trimmable : Trimmable txs limits maxLat orph)
    (rest : HeapFor limits maxLat orph (some worst) heap) :
    ∃ pushed, pushBack maxLat limits.reservedUsagePerPeer worst orph heap = .ok pushed ∧
      HeapFor limits maxLat orph none pushed := by
  rw [pushBack]
  cases found : orph.peerOrphanageInfo.lookup worst with
  | none =>
    refine ⟨heap, rfl, rest.current, fun peer info _ found' high => ?_, rest.nodup.of_cons⟩
    refine rest.complete peer info ?_ found' high
    rintro ⟨⟩
    rw [found] at found'
    cases found'
  | some info =>
    have isInfo := found
    rw [trimmable.consistent.info, infoAt] at isInfo
    have count : 0 < info.countAnnouncements := by
      split at isInfo
      case isTrue => cases isInfo
      case isFalse nonzero =>
        cases isInfo
        exact Nat.pos_of_ne_zero nonzero
    dsimp only
    rw [if_pos count, getDosScore_eq fitsLat.1 fitsMem.1]
    refine ⟨_, rfl, ?_, fun peer info' _ found' high => ?_, rest.nodup⟩
    · exact forall_mem_cons.mpr ⟨⟨info, found, rfl⟩, rest.current⟩
    · by_cases same : some peer = some worst
      · cases same
        rw [found] at found'
        cases found'
        exact mem_cons_self
      · exact mem_cons_of_mem _ (rest.complete peer info' same found' high)

/-- The outer loop ends with the limits kept, and erases only announcements of peers
above one. -/
theorem limitLoop_spec {rounds : ℕ} (trimmable : Trimmable txs limits maxLat orph)
    (trim : orph.needsTrim limits) (heapFor : HeapFor limits maxLat orph none heap)
    (enough : orph.orphans.length < rounds) : ∃ limited erased,
      limitLoop txs limits maxLat limits.reservedUsagePerPeer rounds heap orph =
        .ok (limited, erased) ∧ Fair txs maxLat limits.reservedUsagePerPeer orph erased limited ∧
      limited.needsTrim limits = false := by
  induction rounds generalizing orph heap with
  | zero => omega
  | succ rounds ih =>
    obtain ⟨worst, info, rest, popped, found, high, restFor⟩ :=
      heapFor.pop fitsLat fitsMem trimmable trim
    obtain ⟨trimmed, erased, isTrimmed, fair, trimmable', restFor', -, fewer⟩ :=
      trimPeer_spec fitsLat fitsMem trimmable restFor (fun _ => ⟨info, found, high⟩)
        (Nat.lt_succ_self orph.orphans.length)
    rw [limitLoop, popped]
    dsimp only
    rw [if_pos ((higher_one_iff _).mpr high), isTrimmed]
    simp only [bind, Except.bind]
    cases trim' : trimmed.needsTrim limits with
    | false => exact ⟨trimmed, erased, rfl, fair, trim'⟩
    | true =>
      obtain ⟨pushed, isPushed, heapFor'⟩ := pushBack_spec fitsLat fitsMem trimmable' restFor'
      obtain ⟨limited, more, isLimited, fair', kept⟩ :=
        ih trimmable' trim' heapFor' (by have := fewer trim; omega)
      rw [if_pos rfl, isPushed]
      dsimp only
      rw [isLimited]
      exact ⟨limited, erased ++ more, rfl, fair.append fair', kept⟩

end

end

/-! ## The whole call -/

section

theorem buildHeap_eq (lat_pos : 0 < maxLat) (mem_pos : 0 < maxMem)
    (entries : List (Σ _ : NodeId, PeerDoSInfo)) :
    buildHeap maxLat maxMem entries =
      .ok ((entries.filter fun entry => (dosScore maxLat maxMem entry.2).higher ⟨1, 1⟩).map
        fun entry => (entry.1, dosScore maxLat maxMem entry.2)) := by
  induction entries with
  | nil => rfl
  | cons entry entries ih =>
    obtain ⟨nodeid, info⟩ := entry
    rw [buildHeap, getDosScore_eq lat_pos mem_pos, filter_cons]
    simp only [bind, Except.bind, ih]
    split <;> rfl

omit [DecidableEq Wtxid] in
theorem buildHeap_heapFor (lat_pos : 0 < maxLat) (mem_pos : 0 < limits.reservedUsagePerPeer)
    (orph : TxOrphanage Wtxid) : ∃ heap, buildHeap maxLat limits.reservedUsagePerPeer
        orph.peerOrphanageInfo.entries = .ok heap ∧ HeapFor limits maxLat orph none heap := by
  refine ⟨_, buildHeap_eq lat_pos mem_pos _, fun peer member => ?_,
    fun peer info _ found high => ?_, ?_⟩
  · obtain ⟨⟨nodeid, info⟩, isEntry, rfl⟩ := mem_map.mp member
    exact ⟨info, AList.mem_lookup_iff.mpr (mem_of_mem_filter isEntry), rfl⟩
  · exact mem_map.mpr ⟨⟨peer, info⟩, mem_filter.mpr
      ⟨AList.mem_lookup_iff.mp found, (higher_one_iff _).mpr high⟩, rfl⟩
  · refine orph.peerOrphanageInfo.keys_nodup.sublist ?_
    rw [Option.toList_none, nil_append, map_map]
    exact filter_sublist.map Sigma.fst

omit [DecidableEq Wtxid] in
theorem fits_maxPeerLatencyScore (fitsLat : Fits limits.maxGlobalLatencyScore)
    (few : orph.countPeers ≤ limits.maxGlobalLatencyScore) :
    Fits (orph.maxPeerLatencyScore limits) :=
  ⟨Nat.div_pos (max_le few fitsLat.1) (lt_max_of_lt_right Nat.one_pos),
    (Nat.div_le_self _ _).trans_lt fitsLat.2⟩

/-- Limiting the orphanage with few enough peers. -/
theorem limitOrphans_spec (fitsLat : Fits limits.maxGlobalLatencyScore)
    (fitsMem : Fits limits.reservedUsagePerPeer) (consistent : Consistent txs orph)
    (few : orph.countPeers ≤ limits.maxGlobalLatencyScore) :
    ∃ limited erased, limitOrphans txs limits orph = .ok (limited, erased) ∧
      Fair txs (orph.maxPeerLatencyScore limits) limits.reservedUsagePerPeer orph erased
        limited ∧ limited.needsTrim limits = false := by
  have fits := fits_maxPeerLatencyScore fitsLat few
  have shares : orph.maxPeerLatencyScore limits * orph.countPeers ≤
      limits.maxGlobalLatencyScore :=
    (Nat.mul_le_mul_left _ (le_max_left _ 1)).trans (Nat.div_mul_le_self _ _)
  rw [limitOrphans]
  cases trim : orph.needsTrim limits with
  | false => exact ⟨orph, [], rfl, .nil _, trim⟩
  | true =>
    obtain ⟨heap, isHeap, heapFor⟩ := buildHeap_heapFor fits.1 fitsMem.1 orph
    rw [if_pos rfl]
    dsimp only
    rw [isHeap]
    exact limitLoop_spec fits fitsMem ⟨consistent, shares⟩ trim heapFor (Nat.lt_succ_self _)

/-- With positive shares no assertion fails. -/
def NoAssertion (maxLat maxMem : ℕ) (fault : Fault) : Prop :=
  0 < maxLat → 0 < maxMem → fault ≠ .assertion

omit [DecidableEq Wtxid] in
theorem getDosScore_outcome (info : PeerDoSInfo) :
    Outcome (NoAssertion maxLat maxMem) (fun _ => True) (getDosScore maxLat maxMem info) := by
  rw [getDosScore]
  split
  case isTrue zero => exact fun lat_pos => absurd zero lat_pos.ne'
  case isFalse =>
    split
    case isTrue zero => exact fun _ mem_pos => absurd zero mem_pos.ne'
    case isFalse => trivial

omit [DecidableEq Wtxid] in
theorem pushBack_outcome (worst : NodeId) (heap : List PeerDos) :
    Outcome (NoAssertion maxLat maxMem) (fun _ => True)
      (pushBack maxLat maxMem worst orph heap) := by
  rw [pushBack]
  split
  case h_1 => trivial
  case h_2 info _ =>
    split
    case isTrue => exact (getDosScore_outcome info).bind fun _ _ => trivial
    case isFalse => trivial

omit [DecidableEq Wtxid] in
theorem buildHeap_outcome (entries : List (Σ _ : NodeId, PeerDoSInfo)) :
    Outcome (NoAssertion maxLat maxMem) (fun _ => True) (buildHeap maxLat maxMem entries) := by
  induction entries with
  | nil => trivial
  | cons entry entries ih =>
    exact (getDosScore_outcome entry.2).bind fun _ _ => ih.bind fun _ _ => trivial

section

variable {P : TxOrphanage Wtxid → Prop}
  (closed : ∀ {orph ann}, ann ∈ orph.orphans → P orph → P (orph.erase txs ann))
include closed

/-- The loops keep what each erasure keeps. -/
theorem trimPeer_outcome (worst : NodeId) (dosThreshold : FeeFrac) (rounds : ℕ) (holds : P orph) :
    Outcome (NoAssertion maxLat maxMem) (fun trimmed => P trimmed.1)
      (trimPeer txs limits maxLat maxMem worst dosThreshold rounds orph) := by
  induction rounds generalizing orph with
  | zero => exact fun _ _ => nofun
  | succ rounds ih =>
    rw [trimPeer]
    split
    case isFalse => exact holds
    case isTrue =>
      split
      case h_1 => exact holds
      case h_2 ann isOldest =>
        have erased := closed (oldest_mem isOldest).1 holds
        dsimp only
        split
        case h_1 => exact erased
        case h_2 info _ =>
          refine (getDosScore_outcome info).bind fun score _ => ?_
          split
          case isTrue => exact (ih erased).bind fun _ kept => kept
          case isFalse => exact erased

theorem limitLoop_outcome (rounds : ℕ) (heap : List PeerDos) (holds : P orph) :
    Outcome (NoAssertion maxLat maxMem) (fun limited => P limited.1)
      (limitLoop txs limits maxLat maxMem rounds heap orph) := by
  induction rounds generalizing orph heap with
  | zero => exact fun _ _ => nofun
  | succ rounds ih =>
    rw [limitLoop]
    split
    case h_1 => exact fun _ _ => nofun
    case h_2 worst score rest _ =>
      split
      case isFalse => exact fun _ _ => nofun
      case isTrue =>
        refine (trimPeer_outcome closed worst _ _ holds).bind fun trimmed kept => ?_
        dsimp only
        split
        case isFalse => exact kept
        case isTrue =>
          exact (pushBack_outcome worst rest).bind fun heap _ =>
            (ih heap kept).bind fun _ kept => kept

theorem limitOrphans_outcome (holds : P orph) :
    Outcome (NoAssertion (orph.maxPeerLatencyScore limits) limits.reservedUsagePerPeer)
      (fun limited => P limited.1) (limitOrphans txs limits orph) := by
  rw [limitOrphans]
  split
  case isFalse => exact holds
  case isTrue =>
    exact (buildHeap_outcome _).bind fun heap _ => limitLoop_outcome closed _ heap holds

theorem step_keeps [DecidableEq OutPoint] {next : TxOrphanage Wtxid}
    {op : Operation Wtxid OutPoint} (holds : P (change txs orph op).1)
    (isStep : step txs limits orph op = .ok next) : P next := by
  rw [step] at isStep
  split at isStep
  case isFalse => exact Except.ok.inj isStep ▸ holds
  case isTrue => exact (limitOrphans_outcome closed holds).map.of_ok isStep

end

variable [DecidableEq OutPoint] {next reached : TxOrphanage Wtxid}
  {op : Operation Wtxid OutPoint} {ops : List (Operation Wtxid OutPoint)}

theorem step_consistent (consistent : Consistent txs orph)
    (isStep : step txs limits orph op = .ok next) : Consistent txs next :=
  step_keeps (fun member holds => holds.erase member) (consistent.change op) isStep

/-- The counters are right after every run. -/
theorem run_consistent (consistent : Consistent txs orph)
    (isRun : run txs limits orph ops = .ok reached) : Consistent txs reached := by
  induction ops generalizing orph with
  | nil => exact Except.ok.inj isRun ▸ consistent
  | cons op ops ih =>
    obtain ⟨next, isStep, isRun⟩ := of_bind_eq_ok isRun
    exact ih (step_consistent consistent isStep) isRun

/-- Eviction is fair and sufficient. After any run, let an operation change the
orphanage such that it has at most as many announcing peers as the global score allows,
with positive limits that fit into 32 bits. Then limiting it succeeds: the heap is never
popped while it is empty or for a peer within its limits, both global limits are kept in the
end, announcements are only erased while their peer is above one, and a peer within its
limits keeps all its announcements. -/
theorem limitOrphans_fair (fitsLat : Fits limits.maxGlobalLatencyScore)
    (fitsMem : Fits limits.reservedUsagePerPeer) {ops : List (Operation Wtxid OutPoint)}
    {reached : TxOrphanage Wtxid} (isRun : run txs limits (.empty Wtxid) ops = .ok reached)
    (op : Operation Wtxid OutPoint)
    (few : (change txs reached op).1.countPeers ≤ limits.maxGlobalLatencyScore) :
    ∃ limited erased, limitOrphans txs limits (change txs reached op).1 = .ok (limited, erased) ∧
      limited.totalLatencyScore ≤ limits.maxGlobalLatencyScore ∧
      limited.uniqueOrphanUsage ≤ limited.maxGlobalUsage limits ∧
      Fair txs ((change txs reached op).1.maxPeerLatencyScore limits)
        limits.reservedUsagePerPeer (change txs reached op).1 erased limited ∧
      ∀ peer, (∀ info, (change txs reached op).1.peerOrphanageInfo.lookup peer = some info →
          info.totalLatencyScore ≤ (change txs reached op).1.maxPeerLatencyScore limits ∧
            info.totalUsage ≤ limits.reservedUsagePerPeer) →
        ∀ ann ∈ (change txs reached op).1.orphans, ann.announcer = peer →
          ann ∈ limited.orphans := by
  have consistent := (run_consistent consistent_empty isRun).change op
  generalize (change txs reached op).1 = entry at *
  obtain ⟨limited, erased, isLimited, fair, kept⟩ :=
    limitOrphans_spec fitsLat fitsMem consistent few
  rw [needsTrim, Bool.or_eq_false_iff, decide_eq_false_iff_not, decide_eq_false_iff_not,
    not_lt, not_lt] at kept
  refine ⟨limited, erased, isLimited, kept.1, kept.2, fair,
    fun peer within => fair.kept fun info found => ?_⟩
  rw [← Bool.not_eq_true, higher_one_iff,
    aboveOne_dosScore_iff (fits_maxPeerLatencyScore fitsLat few) fitsMem, not_or, not_lt, not_lt]
  exact within info found

end

/-! ### Example: transactions without inputs -/

/-- Transactions of one size. -/
def smallTxs : TxData ℕ ℕ := ⟨fun _ => 100, fun _ => []⟩

/-- Two peers announce one transaction each. -/
def twoAnnouncements : List (Operation ℕ ℕ) := [.addTx 0 0, .addTx 1 1]

theorem limitOrphans_fair_three :
    ∃ reached, run smallTxs ⟨2, 1000⟩ (.empty ℕ) twoAnnouncements = .ok reached ∧
      ∃ limited erased, limitOrphans smallTxs ⟨2, 1000⟩ (change smallTxs reached (.addTx 2 0)).1 =
          .ok (limited, erased) ∧ limited.totalLatencyScore ≤ 2 := by
  refine ⟨_, rfl, ?_⟩
  obtain ⟨limited, erased, isLimited, kept, -⟩ := @limitOrphans_fair ℕ ℕ _ smallTxs ⟨2, 1000⟩ _
    ⟨by decide, by decide⟩ ⟨by decide, by decide⟩ twoAnnouncements _ rfl (.addTx 2 0) (by decide)
  exact ⟨limited, erased, isLimited, kept⟩

/-- A reserved usage of 2^31 becomes negative as a 32-bit size. Peer 1 then loses its only
announcement, although it uses no more than its share. -/
theorem limitOrphans_narrowed :
    ∃ reached limited, run smallTxs ⟨2, 2 ^ 31⟩ (.empty ℕ) [.addTx 0 0, .addTx 1 0] = .ok reached ∧
      (change smallTxs reached (.addTx 2 1)).1.countPeers ≤ 2 ∧
      (change smallTxs reached (.addTx 2 1)).1.maxPeerLatencyScore ⟨2, 2 ^ 31⟩ = 1 ∧
      (change smallTxs reached (.addTx 2 1)).1.peerOrphanageInfo.lookup 1 = some ⟨100, 1, 1⟩ ∧
      limitOrphans smallTxs ⟨2, 2 ^ 31⟩ (change smallTxs reached (.addTx 2 1)).1 =
        .ok (limited, [⟨2, 1, 2, false⟩]) :=
  ⟨_, _, rfl, by decide, rfl, rfl, rfl⟩

/-! ## The assertions -/

section

theorem needsTrim_of_many (consistent : Consistent txs orph)
    (many : limits.maxGlobalLatencyScore < orph.countPeers) : orph.needsTrim limits := by
  have peers : orph.countPeers ≤ orph.orphans.length := by
    rw [consistent.countPeers_eq, peersOf]
    exact (toFinset_card_le _).trans (length_map _).le
  rw [needsTrim, Bool.or_eq_true, decide_eq_true_iff, totalLatencyScore]
  exact Or.inl (by omega)

/-- The assertion fails exactly if there are more announcing peers than the global score
allows. -/
theorem limitOrphans_assertion_iff (lat_pos : 0 < limits.maxGlobalLatencyScore)
    (mem_pos : 0 < limits.reservedUsagePerPeer) (consistent : Consistent txs orph) :
    limitOrphans txs limits orph = .error .assertion ↔
      limits.maxGlobalLatencyScore < orph.countPeers := by
  constructor
  · intro fails
    by_contra few
    have share_pos : 0 < orph.maxPeerLatencyScore limits :=
      Nat.div_pos (max_le (not_lt.mp few) lat_pos) (lt_max_of_lt_right Nat.one_pos)
    exact (limitOrphans_outcome (P := fun _ => True) (fun _ => id) trivial).of_error fails
      share_pos mem_pos rfl
  · intro many
    have share : orph.maxPeerLatencyScore limits = 0 :=
      Nat.div_eq_of_lt (many.trans_le (le_max_left _ _))
    rw [limitOrphans, if_pos (needsTrim_of_many consistent many)]
    dsimp only
    rw [share]
    cases entries : orph.peerOrphanageInfo.entries with
    | nil =>
      rw [countPeers, AList.keys, entries] at many
      exact absurd many (Nat.not_lt_zero _)
    | cons entry rest =>
      rw [buildHeap, getDosScore, if_pos rfl]
      rfl

variable [DecidableEq OutPoint]

/-- Whenever the orphanage is limited, it has at most as many announcing peers as the global
score allows. -/
def PeersBounded (txs : TxData Wtxid OutPoint) (limits : Limits) :
    TxOrphanage Wtxid → List (Operation Wtxid OutPoint) → Prop
  | _, [] => True
  | orph, op :: ops =>
    ((change txs orph op).2 = true →
      (change txs orph op).1.countPeers ≤ limits.maxGlobalLatencyScore) ∧
    ∀ next, step txs limits orph op = .ok next → PeersBounded txs limits next ops

theorem step_assertion_iff (lat_pos : 0 < limits.maxGlobalLatencyScore)
    (mem_pos : 0 < limits.reservedUsagePerPeer) (consistent : Consistent txs orph)
    (op : Operation Wtxid OutPoint) : step txs limits orph op = .error .assertion ↔
      (change txs orph op).2 = true ∧
        limits.maxGlobalLatencyScore < (change txs orph op).1.countPeers := by
  rw [step, ← limitOrphans_assertion_iff lat_pos mem_pos (consistent.change op)]
  split
  case isFalse notLimited =>
    exact ⟨fun isError => (by cases isError), fun both => absurd both.1 notLimited⟩
  case isTrue limited =>
    rw [and_iff_right limited]
    cases limitOrphans txs limits (change txs orph op).1 with
    | error fault => simp [Except.map]
    | ok pair => simp [Except.map]

theorem step_subset {next : TxOrphanage Wtxid} {op : Operation Wtxid OutPoint}
    (isStep : step txs limits orph op = .ok next) : next.orphans ⊆ (change txs orph op).1.orphans :=
  @step_keeps _ _ _ txs limits orph (·.orphans ⊆ (change txs orph op).1.orphans)
    (fun _ subset => Subset.trans erase_subset subset) _ _ _ (Subset.refl _) isStep

/-- An operation either succeeds, or finds more announcing peers than the global score
allows. -/
theorem step_cases (fitsLat : Fits limits.maxGlobalLatencyScore)
    (fitsMem : Fits limits.reservedUsagePerPeer) (consistent : Consistent txs orph)
    (op : Operation Wtxid OutPoint) : (∃ next, step txs limits orph op = .ok next) ∨
      step txs limits orph op = .error .assertion ∧
        limits.maxGlobalLatencyScore < (change txs orph op).1.countPeers := by
  cases isLimited : (change txs orph op).2 with
  | false =>
    left
    rw [step, isLimited]
    exact ⟨_, rfl⟩
  | true =>
    rcases le_or_gt (change txs orph op).1.countPeers limits.maxGlobalLatencyScore with
      few | many
    · obtain ⟨limited, erased, res, -⟩ :=
        limitOrphans_spec fitsLat fitsMem (consistent.change op) few
      left
      rw [step, isLimited, res]
      exact ⟨_, rfl⟩
    · right
      exact ⟨(step_assertion_iff fitsLat.1 fitsMem.1 consistent op).mpr ⟨isLimited, many⟩, many⟩

/-- No run violates the assertions on the shares, exactly if the number of announcing
peers stays within the global score whenever the orphanage is limited. -/
theorem run_assertion_iff (lat_pos : 0 < limits.maxGlobalLatencyScore)
    (mem_pos : 0 < limits.reservedUsagePerPeer) (ops : List (Operation Wtxid OutPoint)) :
    run txs limits (.empty Wtxid) ops ≠ .error .assertion ↔
      PeersBounded txs limits (.empty Wtxid) ops := by
  suffices general : ∀ orph, Consistent txs orph → (run txs limits orph ops ≠ .error .assertion ↔
        PeersBounded txs limits orph ops) from general _ consistent_empty
  induction ops with
  | nil => exact fun orph _ => iff_of_true (by simp [run]) trivial
  | cons op ops ih =>
    intro orph consistent
    have fails := step_assertion_iff lat_pos mem_pos consistent op
    rw [PeersBounded, run]
    cases res : step txs limits orph op with
    | error fault =>
      rw [res] at fails
      have vacuous : ∀ next, (.error fault : Except Fault (TxOrphanage Wtxid)) = .ok next →
          PeersBounded txs limits next ops := fun _ isOk => by cases isOk
      rw [and_iff_left vacuous, ← not_lt, ← not_and, ← fails]
      rfl
    | ok next =>
      rw [res] at fails
      have bounded : (change txs orph op).2 = true →
          (change txs orph op).1.countPeers ≤ limits.maxGlobalLatencyScore := by
        intro limited
        by_contra many
        cases fails.mpr ⟨limited, not_le.mp many⟩
      rw [and_iff_right bounded]
      refine (ih next (step_consistent consistent res)).trans ⟨fun inner other isOther => ?_,
        fun inner => inner next rfl⟩
      cases isOther
      exact inner

end

end

/-- The second announcement of one peer exceeds a global score of one. The orphanage is
trimmed, and no assertion fails. -/
theorem run_assertion_one :
    (∃ reached, run smallTxs ⟨1, 1000⟩ (.empty ℕ) [.addTx 0 0, .addTx 1 0] = .ok reached ∧
      reached.orphans.length = 1) ∧
    run smallTxs ⟨1, 1000⟩ (.empty ℕ) [.addTx 0 0, .addTx 1 0] ≠ .error .assertion := by
  refine ⟨⟨_, rfl, rfl⟩, (run_assertion_iff (by decide) (by decide) _).mpr ?_⟩
  refine ⟨fun _ => by decide, fun next isNext => ⟨fun _ => ?_, fun _ _ => trivial⟩⟩
  cases isNext
  decide

/-- Two peers that announce the same transaction are more than a global score of one
allows: the share of each is zero, and the assertion fails. -/
theorem run_assertion_two :
    run smallTxs ⟨1, 1000⟩ (.empty ℕ) [.addTx 0 0, .addAnnouncer 0 1] = .error .assertion :=
  rfl

end BitcoinCore.Orphanage
