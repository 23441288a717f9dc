import BitcoinCore.Lib.ErasePass
import BitcoinCore.Net.Connman

/-!
# Selecting an inbound peer to evict

`SelectNodeToEvict` protects candidates in passes that sort the list and erase its last
elements, then half of the rest by their network and the length of their connection, and
evicts from the largest network group that is left the youngest connection.

The order of equal candidates in `std::sort` is left open. The guarantees hold jointly
(`selectNodeToEvict_guarantees`): only inbound peers without special permissions are
evicted, none that is better than nearly all others by one of the criteria, and some peer
whenever there are enough candidates; the protection by ratio takes exactly half of its
input, whatever the networks of the candidates are (`protectEvictionCandidatesByRatio_spec`).
-/

namespace BitcoinCore.Eviction

open Net ErasePass List StrictWeak

/-! ## Candidates and their orders -/

/-- What the eviction logic knows of a peer. -/
structure NodeEvictionCandidate where
  id : NodeId
  connected : ℤ
  minPingTime : ℤ
  lastBlockTime : ℤ
  lastTxTime : ℤ
  fRelevantServices : Bool
  relayTxs : Bool
  fBloomFilter : Bool
  nKeyedNetGroup : BitVec 64
  preferEvict : Bool
  isLocal : Bool
  network : Network
  noban : Bool
  connType : ConnectionType
  deriving DecidableEq

section

variable (a b : NodeEvictionCandidate)

/-- Peers with lower pings come later. -/
def reverseCompareNodeMinPingTime : Bool := a.minPingTime > b.minPingTime

/-- Peers that connected earlier come later. -/
def reverseCompareNodeTimeConnected : Bool := a.connected > b.connected

/-- Peers are ordered by a key of their network group that only the node knows. -/
def compareNetGroupKeyed : Bool := a.nKeyedNetGroup.toNat < b.nKeyedNetGroup.toNat

/-- Peers that sent blocks more recently come later. -/
def compareNodeBlockTime : Bool :=
  if a.lastBlockTime ≠ b.lastBlockTime then a.lastBlockTime < b.lastBlockTime
  else if a.fRelevantServices ≠ b.fRelevantServices then b.fRelevantServices
  else a.connected > b.connected

/-- Peers that sent transactions more recently come later. -/
def compareNodeTXTime : Bool :=
  if a.lastTxTime ≠ b.lastTxTime then a.lastTxTime < b.lastTxTime
  else if a.relayTxs ≠ b.relayTxs then b.relayTxs
  else if a.fBloomFilter ≠ b.fBloomFilter then a.fBloomFilter
  else a.connected > b.connected

/-- Peers that do not relay transactions come last, by the blocks they sent. -/
def compareNodeBlockRelayOnlyTime : Bool :=
  if a.relayTxs ≠ b.relayTxs then a.relayTxs
  else if a.lastBlockTime ≠ b.lastBlockTime then a.lastBlockTime < b.lastBlockTime
  else if a.fRelevantServices ≠ b.fRelevantServices then b.fRelevantServices
  else a.connected > b.connected

/-- Peers of a network come last, by the length of their connection. -/
def compareNodeNetworkTime (isLocal : Bool) (network : Option Network) : Bool :=
  if isLocal && a.isLocal ≠ b.isLocal then b.isLocal
  else if decide (some a.network = network) ≠ decide (some b.network = network) then
    decide (some b.network = network)
  else a.connected > b.connected

end

theorem strictWeak_timeConnected : StrictWeak reverseCompareNodeTimeConnected :=
  of_key (fun a => -a.connected) (by simp [reverseCompareNodeTimeConnected])

theorem strictWeak_minPingTime : StrictWeak reverseCompareNodeMinPingTime :=
  of_key (fun a => -a.minPingTime) (by simp [reverseCompareNodeMinPingTime])

theorem strictWeak_netGroupKeyed : StrictWeak compareNetGroupKeyed :=
  of_key (fun a => a.nKeyedNetGroup.toNat) (by simp [compareNetGroupKeyed])

theorem strictWeak_txTime : StrictWeak compareNodeTXTime := by
  refine of_key (fun a => toLex (a.lastTxTime, toLex (a.relayTxs,
    toLex (!a.fBloomFilter, -a.connected)))) fun a b => ?_
  simp only [compareNodeTXTime, Prod.Lex.toLex_lt_toLex, Bool.lt_iff]
  grind

theorem strictWeak_blockTime : StrictWeak compareNodeBlockTime := by
  refine of_key (fun a => toLex (a.lastBlockTime, toLex (a.fRelevantServices, -a.connected)))
    fun a b => ?_
  simp only [compareNodeBlockTime, Prod.Lex.toLex_lt_toLex, Bool.lt_iff]
  grind

/-! ## The passes -/

/-- What the selection cannot end in. -/
inductive Fault where
  | assertion
  | outOfRounds
  | uninitialized
  deriving DecidableEq

/-- Peers with special permissions are protected, -/
def protectNoBanConnections (candidates : List NodeEvictionCandidate) :
    List NodeEvictionCandidate :=
  candidates.filter fun n => !n.noban

/-- and so are those that are not inbound. -/
def protectOutboundConnections (candidates : List NodeEvictionCandidate) :
    List NodeEvictionCandidate :=
  candidates.filter fun n => !decide (n.connType ≠ .inbound)

/-- A disadvantaged network; no network stands for `NET_MAX`. The count is a `size_t`. -/
structure Net where
  isLocal : Bool
  id : Option Network
  count : BitVec 64

/-- A candidate is counted for a network. -/
def Net.has (n : Net) (c : NodeEvictionCandidate) : Bool :=
  if n.isLocal then c.isLocal else some c.network = n.id

section

variable (sorter : Sorter NodeEvictionCandidate)

/-- The candidates that are left, and how many are protected. -/
structure Protecting where
  candidates : List NodeEvictionCandidate
  numProtected : ℕ
  protectedAtLeastOne : Bool

/-- The loop over the networks, with the networks after it. -/
def protectNetworks (maxProtect protectPerNetwork : ℕ) :
    List Net → Protecting → List Net × Protecting
  | [], state => ([], state)
  | n :: networks, state =>
    if n.count = 0 then
      let (networks, state) := protectNetworks maxProtect protectPerNetwork networks state
      (n :: networks, state)
    else
      let candidates := eraseLastK sorter (fun a b => compareNodeNetworkTime a b n.isLocal n.id)
        protectPerNetwork n.has state.candidates
      if candidates.length < state.candidates.length then
        let delta := state.candidates.length - candidates.length
        let state := ⟨candidates, state.numProtected + delta, true⟩
        if maxProtect ≤ state.numProtected then (n :: networks, state)
        else
          let (networks, state) := protectNetworks maxProtect protectPerNetwork networks state
          ({ n with count := n.count - BitVec.ofNat 64 delta } :: networks, state)
      else
        let (networks, state) := protectNetworks maxProtect protectPerNetwork networks
          { state with candidates := candidates }
        (n :: networks, state)

/-- The rounds over the networks, until enough are protected or none more can be. -/
def protectLoop (maxProtect : ℕ) : ℕ → List Net → List NodeEvictionCandidate → ℕ →
    Except Fault (List NodeEvictionCandidate × ℕ)
  | 0, _, _, _ => .error .outOfRounds
  | rounds + 1, networks, candidates, numProtected =>
    if numProtected < maxProtect then
      let numNetworks := networks.countP fun n => n.count ≠ 0
      if numNetworks = 0 then .ok (candidates, numProtected)
      else
        let protectPerNetwork := max ((maxProtect - numProtected) / numNetworks) 1
        let (networks, state) := protectNetworks sorter maxProtect protectPerNetwork networks
          ⟨candidates, numProtected, false⟩
        if state.protectedAtLeastOne then
          protectLoop maxProtect rounds networks state.candidates state.numProtected
        else .ok (state.candidates, state.numProtected)
    else .ok (candidates, numProtected)

/-- The disadvantaged networks with the numbers of their candidates, sorted by them. -/
def countedNetworks (candidates : List NodeEvictionCandidate) : List Net :=
  let networks := [(false, some Network.cjdns), (false, some .i2p), (true, none),
    (false, some .onion)]
  let counted := networks.map fun net =>
    let n : Net := ⟨net.1, net.2, 0⟩
    { n with count := BitVec.ofNat 64 (candidates.countP n.has) }
  counted.mergeSort fun a b => a.count.toNat ≤ b.count.toNat

/-- Protect up to a quarter of the candidates for their networks. -/
def protectByNetwork (candidates : List NodeEvictionCandidate) :
    Except Fault (List NodeEvictionCandidate × ℕ) :=
  let maxProtect := candidates.length / 2 / 2
  protectLoop sorter maxProtect (maxProtect + 1) (countedNetworks candidates) candidates 0

/-- Protect half of the candidates: some for their networks, the others for the length of their
connection. -/
def protectEvictionCandidatesByRatio (candidates : List NodeEvictionCandidate) :
    Except Fault (List NodeEvictionCandidate) := do
  let totalProtectSize := candidates.length / 2
  let (rest, numProtected) ← protectByNetwork sorter candidates
  if numProtected = candidates.length - rest.length then
    return eraseLastK sorter reverseCompareNodeTimeConnected (totalProtectSize - numProtected)
      (fun _ => true) rest
  else .error .assertion

/-- The passes before the protection by ratio. -/
def protectByCriteria (candidates : List NodeEvictionCandidate) : List NodeEvictionCandidate :=
  let eligible := protectOutboundConnections (protectNoBanConnections candidates)
  let byNetGroup := eraseLastK sorter compareNetGroupKeyed 4 (fun _ => true) eligible
  let byPing := eraseLastK sorter reverseCompareNodeMinPingTime 8 (fun _ => true) byNetGroup
  let byTx := eraseLastK sorter compareNodeTXTime 4 (fun _ => true) byPing
  let byBlockRelay := eraseLastK sorter compareNodeBlockRelayOnlyTime 8
    (fun n => !n.relayTxs && n.fRelevantServices) byTx
  eraseLastK sorter compareNodeBlockTime 4 (fun _ => true) byBlockRelay

/-- The largest network group so far: its key, its size and its youngest connection. -/
structure MostConnections where
  netGroup : Option (BitVec 64)
  size : ℕ
  time : ℤ

/-- Collect the candidates by their network group. -/
def groupLoop : List NodeEvictionCandidate → (BitVec 64 → List NodeEvictionCandidate) →
    MostConnections → (BitVec 64 → List NodeEvictionCandidate) × MostConnections
  | [], groups, most => (groups, most)
  | node :: nodes, groups, most =>
    let group := groups node.nKeyedNetGroup ++ [node]
    let groupTime := (group.head?.map NodeEvictionCandidate.connected).getD 0
    groupLoop nodes (Function.update groups node.nKeyedNetGroup group)
      (if most.size < group.length ∨ group.length = most.size ∧ most.time < groupTime then
        ⟨some node.nKeyedNetGroup, group.length, groupTime⟩
      else most)

/-- If any candidates are preferred for eviction, only they are considered. -/
def considered (candidates : List NodeEvictionCandidate) : List NodeEvictionCandidate :=
  if candidates.any fun n => n.preferEvict then candidates.filter fun n => n.preferEvict
  else candidates

/-- The youngest connection of the largest group. -/
def selectFrom (candidates : List NodeEvictionCandidate) : Except Fault (Option NodeId) :=
  if candidates.isEmpty then .ok none
  else
    let (groups, most) := groupLoop (considered candidates) (fun _ => []) ⟨none, 0, 0⟩
    match most.netGroup.bind fun netGroup => (groups netGroup).head? with
    | none => .error .uninitialized
    | some node => .ok (some node.id)

/-- The inbound peer to evict, if any. -/
def selectNodeToEvict (candidates : List NodeEvictionCandidate) : Except Fault (Option NodeId) := do
  let left ← protectEvictionCandidatesByRatio sorter (protectByCriteria sorter candidates)
  selectFrom left

end

/-! ## The protection by ratio -/

section

variable (sorter : Sorter NodeEvictionCandidate)

/-- What one round over the networks does: it takes candidates out and counts them, never
more than allowed. -/
theorem protectNetworks_spec {maxProtect perNetwork : ℕ} {networks : List Net} {state : Protecting}
    (below : state.numProtected < maxProtect)
    (room : state.numProtected + perNetwork * (networks.countP fun n => n.count ≠ 0) ≤
      maxProtect ∨ perNetwork = 1) :
    let res := (protectNetworks sorter maxProtect perNetwork networks state).2
    res.candidates.Subperm state.candidates ∧ res.numProtected + res.candidates.length =
        state.numProtected + state.candidates.length ∧
      res.numProtected ≤ maxProtect ∧
      (res.protectedAtLeastOne →
        state.protectedAtLeastOne ∨ state.numProtected < res.numProtected) ∧
      state.numProtected ≤ res.numProtected := by
  induction networks generalizing state with
  | nil => exact ⟨Subperm.refl _, rfl, below.le, Or.inl, le_rfl⟩
  | cons n networks ih =>
    rw [protectNetworks]
    split
    case isTrue zero =>
      rw [countP_cons_of_neg (by simp [zero])] at room
      exact ih below room
    case isFalse nonzero =>
      rw [countP_cons_of_pos (by simpa using nonzero), Nat.mul_add_one] at room
      have subperm := eraseLastK_subperm sorter
        (fun a b => compareNodeNetworkTime a b n.isLocal n.id) perNetwork n.has state.candidates
      have most := le_length_eraseLastK sorter
        (fun a b => compareNodeNetworkTime a b n.isLocal n.id) perNetwork n.has state.candidates
      have fewer := subperm.length_le
      dsimp only
      generalize eraseLastK sorter (fun a b => compareNodeNetworkTime a b n.isLocal n.id) perNetwork
        n.has state.candidates = candidates at *
      split
      case isTrue less =>
        split
        case isTrue reached =>
          refine ⟨subperm, ?_, ?_, fun _ => Or.inr ?_, ?_⟩ <;> dsimp only <;> omega
        case isFalse notReached =>
          obtain ⟨inner, total, bound, -, more⟩ := @ih
            ⟨candidates, state.numProtected + (state.candidates.length - candidates.length), true⟩
            (by dsimp only; omega) (by dsimp only; omega)
          dsimp only at inner total bound more ⊢
          refine ⟨inner.trans subperm, ?_, bound, fun _ => Or.inr ?_, ?_⟩ <;> omega
      case isFalse same =>
        obtain ⟨inner, total, bound, flag, more⟩ := @ih { state with candidates := candidates }
          below (by dsimp only; omega)
        dsimp only at inner total bound flag more ⊢
        exact ⟨inner.trans subperm, by omega, bound, flag, more⟩

theorem protectLoop_spec {maxProtect rounds : ℕ} {networks : List Net}
    {candidates : List NodeEvictionCandidate} {numProtected : ℕ} (le : numProtected ≤ maxProtect)
    (enough : maxProtect - numProtected < rounds) :
    ∃ rest total,
      protectLoop sorter maxProtect rounds networks candidates numProtected = .ok (rest, total) ∧
      rest.Subperm candidates ∧ total + rest.length = numProtected + candidates.length ∧
      total ≤ maxProtect := by
  induction rounds generalizing networks candidates numProtected with
  | zero => omega
  | succ rounds ih =>
    rw [protectLoop]
    split
    case isFalse => exact ⟨candidates, numProtected, rfl, Subperm.refl _, rfl, le⟩
    case isTrue below =>
      dsimp only
      split
      case isTrue => exact ⟨candidates, numProtected, rfl, Subperm.refl _, rfl, le⟩
      case isFalse some =>
        generalize numNetworks_eq : networks.countP (fun n => n.count ≠ 0) = numNetworks at *
        have pos : 0 < numNetworks := Nat.pos_of_ne_zero some
        have room : numProtected + max ((maxProtect - numProtected) / numNetworks) 1 *
            (networks.countP fun n => n.count ≠ 0) ≤ maxProtect ∨
              max ((maxProtect - numProtected) / numNetworks) 1 = 1 := by
          rcases Nat.lt_or_ge 1 ((maxProtect - numProtected) / numNetworks) with many | few
          · refine Or.inl ?_
            rw [max_eq_left many.le, numNetworks_eq]
            have share := Nat.div_mul_le_self (maxProtect - numProtected) numNetworks
            omega
          · exact Or.inr (max_eq_right few)
        have spec := @protectNetworks_spec sorter maxProtect _ networks
          ⟨candidates, numProtected, false⟩ below room
        generalize protectNetworks sorter maxProtect
          (max ((maxProtect - numProtected) / numNetworks) 1) networks
          ⟨candidates, numProtected, false⟩ = res at *
        obtain ⟨networks', state⟩ := res
        obtain ⟨subperm, total_eq, bound, flag, more⟩ := spec
        dsimp only at subperm total_eq bound flag more ⊢
        split
        case isTrue protectedOne =>
          have progress := (flag protectedOne).resolve_left Bool.false_ne_true
          obtain ⟨rest, total, isLoop, inner, inner_eq, inner_le⟩ :=
            @ih networks' state.candidates state.numProtected bound (by omega)
          exact ⟨rest, total, isLoop, inner.trans subperm, inner_eq.trans total_eq, inner_le⟩
        case isFalse => exact ⟨_, _, rfl, subperm, total_eq, bound⟩

/-- Exactly half of the candidates are protected by ratio, at most half of these by their
network, and the rest is sorted from the youngest connection to the oldest. -/
theorem protectEvictionCandidatesByRatio_spec (candidates : List NodeEvictionCandidate) :
    ∃ rest numProtected left, protectByNetwork sorter candidates = .ok (rest, numProtected) ∧
      numProtected ≤ candidates.length / 2 / 2 ∧ numProtected = candidates.length - rest.length ∧
      protectEvictionCandidatesByRatio sorter candidates = .ok left ∧ left.Subperm candidates ∧
      left.length = candidates.length - candidates.length / 2 ∧
      left.Pairwise fun a b => b.connected ≤ a.connected := by
  obtain ⟨rest, numProtected, isLoop, subperm, total_eq, bound⟩ := @protectLoop_spec sorter
    (candidates.length / 2 / 2) (candidates.length / 2 / 2 + 1) (countedNetworks candidates)
    candidates 0 (Nat.zero_le _) (by omega)
  have counted : numProtected = candidates.length - rest.length := by omega
  refine ⟨rest, numProtected, eraseLastK sorter reverseCompareNodeTimeConnected
    (candidates.length / 2 - numProtected) (fun _ => true) rest, isLoop, bound, counted, ?_,
    (eraseLastK_subperm ..).trans subperm, ?_, ?_⟩
  · rw [protectEvictionCandidatesByRatio, protectByNetwork, isLoop]
    simp only [bind, Except.bind, if_pos counted]
    rfl
  · rw [length_eraseLastK_all]
    omega
  · refine (pairwise_eraseLastK_all sorter _ _ rest strictWeak_timeConnected).imp fun order => ?_
    exact not_lt.mp (of_decide_eq_false order)

end

/-! ## The choice of a network group -/

section

/-- The groups hold the nodes of each network group in their order, and the largest one is
not empty. -/
structure Grouped (nodes : List NodeEvictionCandidate)
    (groups : BitVec 64 → List NodeEvictionCandidate) (most : MostConnections) : Prop where
  groups_eq : ∀ netGroup, groups netGroup = nodes.filter fun n => n.nKeyedNetGroup = netGroup
  chosen : ∀ netGroup, most.netGroup = some netGroup → groups netGroup ≠ []
  unchosen : most.netGroup = none → nodes = [] ∧ most.size = 0

variable {nodes candidates : List NodeEvictionCandidate}
  {groups : BitVec 64 → List NodeEvictionCandidate} {most : MostConnections}

theorem Grouped.step (grouped : Grouped nodes groups most) (node : NodeEvictionCandidate) (time : ℤ) :
    let group := groups node.nKeyedNetGroup ++ [node]
    Grouped (nodes ++ [node]) (Function.update groups node.nKeyedNetGroup group)
      (if most.size < group.length ∨ group.length = most.size ∧ most.time < time then
        ⟨some node.nKeyedNetGroup, group.length, time⟩
      else most) := by
  intro group
  have ownGroup : group ≠ [] := append_ne_nil_of_right_ne_nil _ (cons_ne_nil _ _)
  refine ⟨fun netGroup => ?_, fun netGroup isMost => ?_, fun unset => ?_⟩
  · rw [filter_append, Function.update_apply]
    split
    case isTrue same =>
      rw [same, ← grouped.groups_eq, filter_singleton, decide_eq_true rfl]
      rfl
    case isFalse other =>
      rw [← grouped.groups_eq, filter_singleton, decide_eq_false (Ne.symm other), cond_false,
        append_nil]
  · rw [Function.update_apply]
    split
    case isTrue => exact ownGroup
    case isFalse other =>
      split at isMost
      case isTrue => exact absurd (Option.some_inj.mp isMost).symm other
      case isFalse => exact grouped.chosen netGroup isMost
  · -- the first group is larger than none
    split at unset
    case isTrue => cases unset
    case isFalse notLarger =>
      have size := (grouped.unchosen unset).2
      exact absurd (Or.inl (size ▸ length_pos_iff.mpr ownGroup)) notLarger

theorem groupLoop_grouped {done : List NodeEvictionCandidate}
    (grouped : Grouped done groups most) :
    Grouped (done ++ nodes) (groupLoop nodes groups most).1 (groupLoop nodes groups most).2 := by
  induction nodes generalizing done groups most with
  | nil =>
    rw [append_nil]
    exact grouped
  | cons node nodes ih =>
    rw [groupLoop, append_cons]
    exact ih (grouped.step node _)

theorem considered_ne_nil (ne : candidates ≠ []) : considered candidates ≠ [] := by
  rw [considered]
  split
  case isTrue some =>
    obtain ⟨peer, mem, preferred⟩ := any_eq_true.mp some
    exact ne_nil_of_mem (mem_filter.mpr ⟨mem, preferred⟩)
  case isFalse => exact ne

theorem considered_sublist : (considered candidates).Sublist candidates := by
  rw [considered]
  split
  · exact filter_sublist
  · exact Sublist.refl _

/-- The selected peer is the youngest connection of its network group, among the
candidates that are left and considered. -/
theorem selectFrom_spec (sorted : candidates.Pairwise fun a b => b.connected ≤ a.connected)
    (ne : candidates ≠ []) :
    ∃ peer ∈ considered candidates, selectFrom candidates = .ok (some peer.id) ∧
      ∀ other ∈ considered candidates, other.nKeyedNetGroup = peer.nKeyedNetGroup →
        other.connected ≤ peer.connected := by
  have initially : Grouped [] (fun _ => []) ⟨none, 0, 0⟩ :=
    ⟨fun _ => rfl, fun _ unset => (by cases unset), fun _ => ⟨rfl, rfl⟩⟩
  have grouped := @groupLoop_grouped (considered candidates) _ _ _ initially
  rw [nil_append] at grouped
  rw [selectFrom, if_neg (by simpa using ne)]
  generalize groupLoop (considered candidates) (fun _ => []) ⟨none, 0, 0⟩ = res at *
  obtain ⟨groups, most⟩ := res
  dsimp only at grouped ⊢
  cases chosen : most.netGroup with
  | none => exact absurd (grouped.unchosen chosen).1 (considered_ne_nil ne)
  | some netGroup =>
    have group_eq := grouped.groups_eq netGroup
    obtain ⟨peer, others, isGroup⟩ := exists_cons_of_ne_nil (grouped.chosen netGroup chosen)
    rw [isGroup] at group_eq
    have inGroup : peer ∈ (considered candidates).filter fun n => n.nKeyedNetGroup = netGroup := by
      rw [← group_eq]
      exact mem_cons_self
    obtain ⟨mem, key⟩ := mem_filter.mp inGroup
    refine ⟨peer, mem, ?_, fun other isOther same => ?_⟩
    · rw [Option.bind_some, isGroup]
      rfl
    · have otherIn : other ∈ peer :: others := by
        rw [group_eq]
        refine mem_filter.mpr ⟨isOther, ?_⟩
        rw [same]
        exact key
      have order : ((considered candidates).filter fun n => n.nKeyedNetGroup = netGroup).Pairwise
          fun a b => b.connected ≤ a.connected :=
        (sorted.sublist considered_sublist).sublist filter_sublist
      rw [← group_eq] at order
      rcases mem_cons.mp otherIn with rfl | later
      · exact le_rfl
      · exact rel_of_pairwise_cons order later

end

/-! ## All guarantees -/

section

variable (sorter : Sorter NodeEvictionCandidate) (candidates : List NodeEvictionCandidate)

/-- The candidates that the passes start with. -/
def eligible : List NodeEvictionCandidate :=
  candidates.filter fun n => n.connType = .inbound && !n.noban

theorem protect_eq_eligible :
    protectOutboundConnections (protectNoBanConnections candidates) = eligible candidates := by
  rw [protectOutboundConnections, protectNoBanConnections, filter_filter, eligible]
  simp

/-- A candidate is better than nearly all eligible ones by one of the criteria. -/
def Protected (peer : NodeEvictionCandidate) : Prop :=
  BetterThanAllBut compareNetGroupKeyed 3 (eligible candidates) peer ∨
    BetterThanAllBut reverseCompareNodeMinPingTime 7 (eligible candidates) peer ∨
    BetterThanAllBut compareNodeTXTime 3 (eligible candidates) peer ∨
    BetterThanAllBut compareNodeBlockTime 3 (eligible candidates) peer

/-- The passes leave no protected candidate, and take out at most 28. -/
theorem protectByCriteria_spec {candidates : List NodeEvictionCandidate}
    (distinct : candidates.Nodup) : Remaining (eligible candidates) 28 (Protected candidates)
      (protectByCriteria sorter candidates) := by
  have nodup : (eligible candidates).Nodup := distinct.filter _
  have passes := ((((((Remaining.start (eligible candidates)).passAll sorter
    strictWeak_netGroupKeyed nodup 3).passAll sorter strictWeak_minPingTime nodup 7).passAll sorter
    strictWeak_txTime nodup 3).pass sorter compareNodeBlockRelayOnlyTime 8
    fun n => !n.relayTxs && n.fRelevantServices).passAll sorter strictWeak_blockTime nodup 3)
  rw [protectByCriteria, protect_eq_eligible]
  refine ⟨passes.subperm, passes.length_le, fun peer mem isProtected => ?_⟩
  refine passes.notGone peer mem ?_
  rw [Protected] at isProtected
  tauto

/-- The guarantees of the eviction logic, for candidates with distinct ids. The
protection by ratio takes exactly half of any input, at most half of these by network. The
selection never fails; with 29 eligible candidates it returns a peer. A returned peer is
inbound and without special permissions, it is not better than nearly all eligible
candidates by one of the criteria, and it is the youngest connection of its network group
among the candidates that are left and considered. -/
theorem selectNodeToEvict_guarantees (distinct : (candidates.map NodeEvictionCandidate.id).Nodup) :
    (∀ input, ∃ rest numProtected left, protectByNetwork sorter input = .ok (rest, numProtected) ∧
      numProtected ≤ input.length / 2 / 2 ∧ numProtected = input.length - rest.length ∧
      protectEvictionCandidatesByRatio sorter input = .ok left ∧ left.Subperm input ∧
      left.length = input.length - input.length / 2) ∧
    ∃ left sel, protectEvictionCandidatesByRatio sorter (protectByCriteria sorter candidates) =
        .ok left ∧ selectNodeToEvict sorter candidates = .ok sel ∧
      (29 ≤ (eligible candidates).length → sel.isSome) ∧
      ∀ id, sel = some id → ∃ peer ∈ candidates, peer.id = id ∧
        (∀ other ∈ candidates, other.id = id → other = peer) ∧
        peer.connType = .inbound ∧ peer.noban = false ∧ ¬ Protected candidates peer ∧
        peer ∈ considered left ∧
        ∀ other ∈ considered left, other.nKeyedNetGroup = peer.nKeyedNetGroup →
          other.connected ≤ peer.connected := by
  refine ⟨fun input => ?_, ?_⟩
  · obtain ⟨rest, numProtected, left, byNetwork, bound, counted, byRatio, subperm, length_eq, -⟩ :=
      protectEvictionCandidatesByRatio_spec sorter input
    exact ⟨rest, numProtected, left, byNetwork, bound, counted, byRatio, subperm, length_eq⟩
  · have passes := protectByCriteria_spec sorter distinct.of_map
    obtain ⟨-, -, left, -, -, -, byRatio, subperm, length_eq, sorted⟩ :=
      protectEvictionCandidatesByRatio_spec sorter (protectByCriteria sorter candidates)
    have isSelect : selectNodeToEvict sorter candidates = selectFrom left := by
      rw [selectNodeToEvict, byRatio]
      rfl
    rw [isSelect]
    by_cases ne : left = []
    · subst ne
      refine ⟨[], none, byRatio, rfl, fun enough => ?_, fun id isSome => by cases isSome⟩
      have length_le := passes.length_le
      rw [length_nil] at length_eq
      omega
    · obtain ⟨peer, mem, sel, youngest⟩ := selectFrom_spec sorted ne
      refine ⟨left, some peer.id, byRatio, sel, fun _ => rfl, fun id isId => ?_⟩
      cases isId
      have inPasses := subperm.subset (considered_sublist.subset mem)
      obtain ⟨inCandidates, kind⟩ := mem_filter.mp (passes.subperm.subset inPasses)
      rw [Bool.and_eq_true, decide_eq_true_iff, Bool.not_eq_true'] at kind
      exact ⟨peer, inCandidates, rfl,
        fun other isOther same => inj_on_of_nodup_map distinct isOther inCandidates same,
        kind.1, kind.2, passes.notGone peer inPasses, mem, youngest⟩

end

/-- Inbound candidates that connected one after the other. -/
def crowd : List NodeEvictionCandidate :=
  (List.range 29).map fun n =>
    ⟨n, n, 0, 0, 0, false, true, false, 0, false, false, .ipv4, false, .inbound⟩

theorem selectNodeToEvict_crowd : (crowd.map NodeEvictionCandidate.id).Nodup ∧
      ∃ id, selectNodeToEvict (.ofInsertion NodeEvictionCandidate) crowd = .ok (some id) := by
  have distinct : (crowd.map NodeEvictionCandidate.id).Nodup := by decide
  obtain ⟨-, left, sel, -, isSelected, enough, -⟩ :=
    selectNodeToEvict_guarantees (.ofInsertion NodeEvictionCandidate) crowd distinct
  obtain ⟨id, isId⟩ := Option.isSome_iff_exists.mp (enough (by decide))
  exact ⟨distinct, id, isId ▸ isSelected⟩

end BitcoinCore.Eviction
