import BitcoinCore.Lib.MinElement
import BitcoinCore.NetProcessing.NodeState

/-!
# Evicting extra outbound peers

`evictExtraOutboundPeers` disconnects one peer too many of either kind of
outbound connection: the youngest block-relay-only peer that has not given us a
block, and a full-relay peer chosen among candidates that no protection covers.
The full-relay choice is the least recent announcer, or, once three candidates
have a mature relay-quality score, a random one of the three worst scored.

Whatever the scores and the draw, the choice is one of the candidates
(`peerToDisconnect_mem`), and a candidate is unprotected, old enough, idle and
not the only connection of its network. Hence a call marks at most one
full-relay peer, none without an extra one, and never a protected one
(`evictExtraOutboundPeers_safe`).
-/

namespace BitcoinCore.NetProcessing

open MinElement Net Chain Node Option List CConnman CNode

/-- A source of random numbers. `randrange range` is below `range`. -/
structure RandomContext where
  randrange : ℕ → ℕ
  randrange_lt : ∀ {range}, 0 < range → randrange range < range

/-- A full-relay peer that could be disconnected, with its score if that is mature. -/
structure EvictionCandidate (R : Type*) where
  peerId : NodeId
  lastBlockAnnouncement : ℤ
  score : Option R

variable {Block R : Type*} {connman : CConnman} {node : CNode} {id : NodeId} {tip : Option Block}
  {now : ℤ}

section

variable [Field R] [LinearOrder R] [Exp2 R]
variable (memory : BlockMemory Block) (states : NodeId → Option (CNodeState Block R))

/-- What the score of a peer depends on besides its observations. -/
def buildRelayScoreContext (node : CNode) (state : CNodeState Block R) (tip : Block) (now : ℤ) :
    RelayScoreContext R where
  chainFreshness :=
    state.pindexBestKnownBlock.elim 0 fun best =>
      if (memory tip).nChainWork ≤ (memory best).nChainWork then 1
      else
        let lag : ℤ := max 0 ((memory tip).nHeight - (memory best).nHeight)
        Exp2.exp2 (-(lag : R) / (2 : ℕ))
  availability := min 1 (((max 0 (now - node.connected) : ℤ) : R) / 21600)
  latency :=
    if 0 < node.lastPingTime then 1 / (1 + ((node.lastPingTime : R) / 1000) / 250) else 1 / 4

/-- The youngest and the next youngest block-relay-only peers seen so far, each
with the time of its last block, after one more node. -/
def noteYoungest (peers : (NodeId × ℤ) × (NodeId × ℤ)) (node : CNode) :
    (NodeId × ℤ) × (NodeId × ℤ) :=
  if !node.isBlockOnlyConn || node.fDisconnect then peers
  else if peers.1.1 < node.id then ((node.id, node.lastBlockTime), peers.1)
  else peers

/-- The two youngest block-relay-only peers; -1 stands for none. -/
def youngestPeers (connman : CConnman) : (NodeId × ℤ) × (NodeId × ℤ) :=
  connman.forEachNode.foldl noteYoungest ((-1, 0), (-1, 0))

/-- The extra block-relay-only peer to disconnect: of the two youngest the one that gave us a
block less recently. -/
def evictExtraBlockRelayPeer (connman : CConnman) (now : ℤ) : Option NodeId :=
  if 0 < connman.getExtraBlockRelayCount then
    let (youngest, nextYoungest) := youngestPeers connman
    let toDisconnect := if nextYoungest.2 < youngest.2 then nextYoungest.1 else youngest.1
    match connman.forNode toDisconnect with
    | none => none
    | some node =>
      match states node.id with
      | none => some node.id
      | some state =>
        if minimumConnectTime ≤ now - node.connected ∧ state.vBlocksInFlight = [] then
          some node.id
        else none
  else none

/-- A node as a candidate, unless something protects it. -/
def evictionCandidate (connman : CConnman) (tip : Option Block) (now : ℤ) (node : CNode) :
    Option (EvictionCandidate R) :=
  if !node.isFullOutboundConn || node.fDisconnect then none
  else
    match states node.id with
    | none => none
    | some state =>
      if state.chainSync.protect then none
      else if !connman.multipleManualOrFullOutboundConns node.network then none
      else if now - node.connected ≤ minimumConnectTime ∨ state.vBlocksInFlight ≠ [] then none
      else
        let connectedSeconds := max 0 (now - node.connected)
        some
          { peerId := node.id
            lastBlockAnnouncement := state.lastBlockAnnouncement
            score :=
              match tip with
              | none => none
              | some tip =>
                if state.relayQuality.hasEnoughEvidence now connectedSeconds then
                  some (state.relayQuality.score
                    (buildRelayScoreContext memory node state tip now) now)
                else none }

/-- The order of the released rule: the least recent announcement first, the
newest peer among equals. -/
def legacyLess (lhs rhs : EvictionCandidate R) : Bool :=
  if lhs.lastBlockAnnouncement ≠ rhs.lastBlockAnnouncement then
    lhs.lastBlockAnnouncement < rhs.lastBlockAnnouncement
  else rhs.peerId < lhs.peerId

/-- The order by score: the worst first, the oldest peer among equals. -/
def scoreLess (lhs rhs : EvictionCandidate R × R) : Bool :=
  if lhs.2 ≠ rhs.2 then lhs.2 < rhs.2 else lhs.1.peerId < rhs.1.peerId

/-- The candidates with a mature score. -/
def withScores (cands : List (EvictionCandidate R)) : List (EvictionCandidate R × R) :=
  cands.filterMap fun cand => cand.score.map fun score => (cand, score)

/-- The candidates with a mature score, the worst first. -/
def scoredCandidates (cands : List (EvictionCandidate R)) : List (EvictionCandidate R × R) :=
  (withScores cands).mergeSort fun lhs rhs => !scoreLess rhs lhs

/-- The candidate to disconnect: by the released rule, unless at least three
candidates have mature, directly comparable observations. -/
def peerToDisconnect (random : RandomContext) (first : EvictionCandidate R)
    (rest : List (EvictionCandidate R)) : NodeId :=
  let scored := scoredCandidates (first :: rest)
  if 3 ≤ scored.length then
    let selectedIndex := random.randrange (min 3 scored.length)
    match scored[selectedIndex]? with
    | some (sel, _) => sel.peerId
    | none => (minElement legacyLess first rest).peerId
  else (minElement legacyLess first rest).peerId

/-- The extra full-relay peer to disconnect, if a second look finds it as it was. -/
def evictExtraFullOutboundPeer (connman : CConnman) (tip : Option Block) (random : RandomContext)
    (now : ℤ) : Option NodeId :=
  if 0 < connman.getExtraFullOutboundCount then
    match connman.forEachNode.filterMap (evictionCandidate memory states connman tip now) with
    | [] => none
    | first :: rest =>
      match connman.forNode (peerToDisconnect random first rest) with
      | none => none
      | some node =>
        match states node.id with
        | none => none
        | some state =>
          if minimumConnectTime < now - node.connected ∧ state.vBlocksInFlight = [] then
            some node.id
          else none
  else none

/-- What a call of `evictExtraOutboundPeers` leaves behind: the connection
manager, and the peers it set `fDisconnect` on, in order. -/
structure EvictionOutcome where
  connman : CConnman
  marked : List NodeId

/-- One call: first the extra block-relay-only peer, then the extra full-relay one. -/
def evictExtraOutboundPeers (connman : CConnman) (tip : Option Block) (random : RandomContext)
    (now : ℤ) : EvictionOutcome :=
  let blockRelay := evictExtraBlockRelayPeer states connman now
  let connman := blockRelay.elim connman connman.markDisconnect
  let fullRelay := evictExtraFullOutboundPeer memory states connman tip random now
  { connman := fullRelay.elim connman fun id =>
      (connman.markDisconnect id).setTryNewOutboundPeer false
    marked := blockRelay.toList ++ fullRelay.toList }

end

/-! ## The chosen peers -/

/-- Whatever the scores and the draw, the chosen peer is one of the
candidates. -/
theorem peerToDisconnect_mem {R : Type*} [LinearOrder R] (random : RandomContext)
    (first : EvictionCandidate R) (rest : List (EvictionCandidate R)) :
    ∃ cand ∈ first :: rest, cand.peerId = peerToDisconnect random first rest := by
  have legacy : ∃ cand ∈ first :: rest,
      cand.peerId = (minElement legacyLess first rest).peerId :=
    ⟨_, minElement_mem legacyLess first rest, rfl⟩
  unfold peerToDisconnect
  dsimp only
  split_ifs
  · split
    · rename_i sel score picked
      have inSorted := mem_of_getElem? picked
      rw [scoredCandidates, mem_mergeSort, withScores, mem_filterMap] at inSorted
      obtain ⟨cand, isIn, scored⟩ := inSorted
      rw [map_eq_some_iff] at scored
      obtain ⟨_, _, pair⟩ := scored
      exact ⟨cand, isIn, congrArg (fun both => both.1.peerId) pair⟩
    · exact legacy
  · exact legacy

section

variable {states : NodeId → Option (CNodeState Block R)}

/-- What a full-relay peer must be like to be disconnected. -/
structure Evictable (states : NodeId → Option (CNodeState Block R)) (connman : CConnman) (now : ℤ)
    (node : CNode) : Prop where
  fullOutbound : node.isFullOutboundConn
  notDisconnecting : node.fDisconnect = false
  notOnly : ∃ other ∈ connman.nodes, other.id ≠ node.id ∧
    other.isManualOrFullOutboundConn ∧ other.network = node.network
  oldEnough : minimumConnectTime < now - node.connected
  idle : ∃ state, states node.id = some state ∧ state.chainSync.protect = false ∧
    state.vBlocksInFlight = []

section

variable [Field R] [LinearOrder R] [Exp2 R] {memory : BlockMemory Block}

theorem evictable_of_candidate {cand : EvictionCandidate R}
    (isCand : evictionCandidate memory states connman tip now node = some cand) :
    Evictable states connman now node ∧ cand.peerId = node.id := by
  unfold evictionCandidate at isCand
  split at isCand
  · exact absurd isCand (by simp)
  · rename_i included
    split at isCand
    · exact absurd isCand (by simp)
    · rename_i state isState
      split_ifs at isCand with isProtected only busy
      simp only [Bool.or_eq_true, Bool.not_eq_true', not_or, Bool.not_eq_false,
        Bool.not_eq_true] at included only isProtected
      rw [not_or, not_le, not_not] at busy
      refine ⟨⟨included.1, included.2, ?_, busy.1, state, isState, isProtected, busy.2⟩, ?_⟩
      · exact exists_other_of_multiple only
      · rw [← some_inj.mp isCand]

/-- The chosen candidate is disconnected: the second look through `ForNode` finds the node
that the candidate came from, as it was. -/
theorem evictExtraFullOutboundPeer_eq (extra : 0 < connman.getExtraFullOutboundCount)
    {first : EvictionCandidate R} {rest : List (EvictionCandidate R)}
    (cands : connman.forEachNode.filterMap (evictionCandidate memory states connman tip now) =
      first :: rest) (random : RandomContext) :
    evictExtraFullOutboundPeer memory states connman tip random now =
        some (peerToDisconnect random first rest) ∧
      ∃ node ∈ connman.nodes, node.id = peerToDisconnect random first rest ∧
        Evictable states connman now node := by
  obtain ⟨cand, isIn, chosen⟩ := peerToDisconnect_mem random first rest
  rw [← cands, mem_filterMap] at isIn
  obtain ⟨node, inEach, isCand⟩ := isIn
  obtain ⟨evictable, peerId⟩ := evictable_of_candidate isCand
  obtain ⟨state, isState, -, idle⟩ := evictable.idle
  refine ⟨?_, node, (mem_forEachNode.mp inEach).1, peerId.symm.trans chosen, evictable⟩
  rw [evictExtraFullOutboundPeer, if_pos extra, cands]
  simp only [← chosen, peerId, forNode_of_mem inEach, isState]
  exact if_pos ⟨evictable.oldEnough, idle⟩

/-- The extra full-relay peer to disconnect is connected and evictable, and
there is an extra one. -/
theorem evictExtraFullOutboundPeer_spec {random : RandomContext}
    (evicted : evictExtraFullOutboundPeer memory states connman tip random now = some id) :
    0 < connman.getExtraFullOutboundCount ∧
      ∃ node ∈ connman.nodes, node.id = id ∧ Evictable states connman now node := by
  by_cases extra : 0 < connman.getExtraFullOutboundCount
  · refine ⟨extra, ?_⟩
    cases cands : connman.forEachNode.filterMap
        (evictionCandidate memory states connman tip now) with
    | nil =>
      rw [evictExtraFullOutboundPeer, if_pos extra, cands] at evicted
      cases evicted
    | cons first rest =>
      obtain ⟨chosen, isNode⟩ := evictExtraFullOutboundPeer_eq extra cands random
      rwa [some_inj.mp (chosen.symm.trans evicted)] at isNode
  · rw [evictExtraFullOutboundPeer, if_neg extra] at evicted
    cases evicted

end

/-- An identifier the scan for the youngest peers can hold: minus one, or that
of a block-relay-only node. -/
def IsBlockOnlyId (connman : CConnman) (id : NodeId) : Prop :=
  id = -1 ∨ ∃ node ∈ connman.nodes, node.id = id ∧ node.isBlockOnlyConn

theorem youngestPeers_spec (connman : CConnman) :
    IsBlockOnlyId connman (youngestPeers connman).1.1 ∧
      IsBlockOnlyId connman (youngestPeers connman).2.1 := by
  unfold youngestPeers
  apply foldlRecOn (motive := fun peers : (NodeId × ℤ) × (NodeId × ℤ) =>
    IsBlockOnlyId connman peers.1.1 ∧ IsBlockOnlyId connman peers.2.1)
  · exact ⟨.inl rfl, .inl rfl⟩
  intro peers held node mem
  unfold noteYoungest
  split_ifs with skipped younger
  · exact held
  · have isBlockOnly : node.isBlockOnlyConn := by
      rw [Bool.or_eq_true, not_or] at skipped
      simpa using skipped.1
    exact ⟨.inr ⟨node, (mem_forEachNode.mp mem).1, rfl, isBlockOnly⟩, held.1⟩
  · exact held

theorem evictExtraBlockRelayPeer_spec
    (evicted : evictExtraBlockRelayPeer states connman now = some id) :
    ∀ node ∈ connman.nodes, node.id = id → node.isFullOutboundConn = false := by
  unfold evictExtraBlockRelayPeer at evicted
  split_ifs at evicted
  dsimp only at evicted
  split at evicted
  · exact absurd evicted (by simp)
  · rename_i found node isNode
    obtain ⟨inNodes, sameId, -⟩ := forNode_eq_some isNode
    have evictedId : node.id = id := by
      split at evicted
      · exact some_inj.mp evicted
      · split_ifs at evicted
        exact some_inj.mp evicted
    have blockOnly : node.isBlockOnlyConn := by
      have scanned : IsBlockOnlyId connman node.id := by
        rw [sameId]
        split_ifs
        · exact (youngestPeers_spec connman).2
        · exact (youngestPeers_spec connman).1
      rcases scanned with noNode | ⟨origin, inOrigin, originId, isBlockOnly⟩
      · have nonneg := connman.ids_nonneg node inNodes
        rw [noNode] at nonneg
        exact absurd nonneg (by decide)
      · rwa [← eq_of_id_eq inOrigin inNodes originId]
    intro other inOther otherId
    rw [eq_of_id_eq inOther inNodes (otherId.trans evictedId.symm)]
    rw [isBlockOnlyConn, decide_eq_true_eq] at blockOnly
    simp [isFullOutboundConn, blockOnly]

end

/-! ## Eviction safety -/

section

theorem nodes_marked (connman : CConnman) (blockRelay fullRelay : Option NodeId) :
    (fullRelay.elim (blockRelay.elim connman connman.markDisconnect) fun id =>
        ((blockRelay.elim connman connman.markDisconnect).markDisconnect
          id).setTryNewOutboundPeer false).nodes =
      connman.nodes.map fun node =>
        if node.id ∈ blockRelay.toList ++ fullRelay.toList then { node with fDisconnect := true }
        else node := by
  cases blockRelay with
  | none =>
    cases fullRelay with
    | none => simp
    | some second => simp [setTryNewOutboundPeer, markIf]
  | some first =>
    cases fullRelay with
    | none => simp [markIf]
    | some second =>
      simp only [elim_some, setTryNewOutboundPeer,
        CConnman.markDisconnect_nodes, List.map_map]
      refine List.map_congr_left ?_
      intro node _
      by_cases isFirst : node.id = first
      · simp [markIf, isFirst]
      · rw [Function.comp_apply, markIf_of_ne isFirst]
        simp [markIf, isFirst]

variable {states : NodeId → Option (CNodeState Block R)}

theorem Evictable.of_markDisconnect
    (evictable : Evictable states (connman.markDisconnect id) now node) :
    Evictable states connman now node := by
  refine ⟨evictable.fullOutbound, evictable.notDisconnecting, ?_, evictable.oldEnough,
    evictable.idle⟩
  obtain ⟨other, mem, differs, counts, network⟩ := evictable.notOnly
  obtain ⟨original, isIn, rfl⟩ := mem_map.mp mem
  rw [markIf_id] at differs
  rw [isManualOrFullOutboundConn, markIf_connType] at counts
  rw [markIf_network] at network
  exact ⟨original, isIn, differs, counts, network⟩

variable [Field R] [LinearOrder R] [Exp2 R] {memory : BlockMemory Block}

theorem evictExtraOutboundPeers_full {random : RandomContext} (inNodes : node ∈ connman.nodes)
    (full : node.isFullOutboundConn)
    (marked : node.id ∈ (evictExtraOutboundPeers memory states connman tip random now).marked) :
    evictExtraFullOutboundPeer memory states
        ((evictExtraBlockRelayPeer states connman now).elim connman connman.markDisconnect)
        tip random now = some node.id ∧
      0 < connman.getExtraFullOutboundCount ∧ Evictable states connman now node := by
  simp only [evictExtraOutboundPeers, mem_append, mem_toList] at marked
  cases blockRelay : evictExtraBlockRelayPeer states connman now with
  | none =>
    rw [blockRelay] at marked
    have evicted := marked.resolve_left (by simp)
    obtain ⟨extra, chosen, isIn, sameId, evictable⟩ := evictExtraFullOutboundPeer_spec evicted
    rw [eq_of_id_eq isIn inNodes sameId] at evictable
    exact ⟨evicted, extra, evictable⟩
  | some id =>
    have notFull := evictExtraBlockRelayPeer_spec blockRelay
    have otherId : node.id ≠ id := by
      intro sameId
      rw [notFull node inNodes sameId] at full
      exact absurd full (by simp)
    rw [blockRelay] at marked
    have evicted := marked.resolve_left (by simpa using otherId.symm)
    obtain ⟨extra, chosen, isIn, sameId, evictable⟩ := evictExtraFullOutboundPeer_spec evicted
    have unmarked : node ∈ (connman.markDisconnect id).nodes :=
      mem_map.mpr ⟨node, inNodes, markIf_of_ne otherId⟩
    rw [eq_of_id_eq isIn unmarked sameId] at evictable
    refine ⟨evicted, ?_, evictable.of_markDisconnect⟩
    rwa [elim_some, getExtraFullOutboundCount_markDisconnect notFull] at extra

/-- Eviction safety. Whatever the nodes, their states, the clock, the scores
and the draw, one call marks at most one full-relay peer, none without an extra
full-relay connection, and every full-relay peer it marks was evictable: not
already disconnecting, not protected, not the only manual or full-relay
connection of its network, connected longer than the minimum and idle. The call
changes nothing else of the nodes. -/
theorem evictExtraOutboundPeers_safe (connman : CConnman) (tip : Option Block)
    (random : RandomContext) (now : ℤ) :
    let out := evictExtraOutboundPeers memory states connman tip random now
    let fullRelayMarked := connman.nodes.filter fun node =>
      node.isFullOutboundConn && decide (node.id ∈ out.marked)
    fullRelayMarked.length ≤ 1 ∧
      (connman.getExtraFullOutboundCount = 0 → fullRelayMarked = []) ∧
      (∀ node ∈ fullRelayMarked, node.fDisconnect = false ∧
        (∃ other ∈ connman.nodes, other.id ≠ node.id ∧
          other.isManualOrFullOutboundConn ∧ other.network = node.network) ∧
        minimumConnectTime < now - node.connected ∧
        ∃ state, states node.id = some state ∧ state.chainSync.protect = false ∧
          state.vBlocksInFlight = []) ∧
      out.connman.nodes = connman.nodes.map fun node =>
        if node.id ∈ out.marked then { node with fDisconnect := true } else node := by
  intro out fullRelayMarked
  have marks : ∀ node ∈ fullRelayMarked,
      evictExtraFullOutboundPeer memory states
          ((evictExtraBlockRelayPeer states connman now).elim connman connman.markDisconnect)
          tip random now = some node.id ∧
        0 < connman.getExtraFullOutboundCount ∧ Evictable states connman now node := by
    intro node mem
    obtain ⟨inNodes, sel⟩ := mem_filter.mp mem
    rw [Bool.and_eq_true, decide_eq_true_eq] at sel
    exact evictExtraOutboundPeers_full inNodes sel.1 sel.2
  refine ⟨?_, ?_, ?_, nodes_marked connman _ _⟩
  · exact length_filter_le_one _ fun node mem => (congrArg (Option.getD · 0) (marks node mem).1).symm
  · intro noExtra
    refine eq_nil_iff_forall_not_mem.mpr ?_
    intro node mem
    have extra := (marks node mem).2.1
    omega
  · intro node mem
    have evictable := (marks node mem).2.2
    exact ⟨evictable.notDisconnecting, evictable.notOnly, evictable.oldEnough, evictable.idle⟩

end

/-! ## The rank of the chosen peer -/

section

/-- In a strictly sorted list, as many elements are below the one at an index. -/
theorem countP_lt_getElem? {α β : Type*} [LinearOrder β] {key : α → β} {elems : List α}
    (sorted : elems.Pairwise fun a b => key a < key b) {idx : ℕ} {elem : α}
    (found : elems[idx]? = some elem) :
    elems.countP (fun other => key other < key elem) = idx := by
  induction elems generalizing idx with
  | nil => cases found
  | cons head rest ih =>
    obtain ⟨above, restSorted⟩ := pairwise_cons.mp sorted
    cases idx with
    | zero =>
      obtain rfl : head = elem := some_inj.mp found
      rw [countP_eq_zero]
      intro other mem
      rw [decide_eq_true_eq, not_lt]
      rcases mem_cons.mp mem with rfl | later
      · exact le_rfl
      · exact (above other later).le
    | succ idx =>
      rw [countP_cons_of_pos, ih restSorted found]
      exact decide_eq_true (above elem (mem_of_getElem? found))

theorem lexLess_iff {α β : Type*} [LinearOrder α] [LinearOrder β] (a b : α) (c d : β) :
    (if a ≠ b then decide (a < b) else decide (c < d)) = true ↔ toLex (a, c) < toLex (b, d) := by
  rw [Prod.Lex.toLex_lt_toLex]
  split_ifs with apart
  · simp [apart]
  · rw [not_not] at apart
    simp [apart]

variable {R : Type*}

/-- The place of a candidate by the released rule. -/
def legacyKey (cand : EvictionCandidate R) : ℤ ×ₗ ℤᵒᵈ :=
  toLex (cand.lastBlockAnnouncement, OrderDual.toDual cand.peerId)

theorem peerId_of_legacyKey {a b : EvictionCandidate R} (same : legacyKey a = legacyKey b) :
    a.peerId = b.peerId :=
  congrArg (fun place : ℤ ×ₗ ℤᵒᵈ => OrderDual.ofDual (ofLex place).2) same

theorem legacyLess_iff (lhs rhs : EvictionCandidate R) :
    legacyLess lhs rhs ↔ legacyKey lhs < legacyKey rhs :=
  lexLess_iff _ _ (OrderDual.toDual lhs.peerId) (OrderDual.toDual rhs.peerId)

variable [LinearOrder R] {cands : List (EvictionCandidate R)}

/-- The place of a scored candidate: by score, and by identifier among equals. -/
def scoreKey (cand : EvictionCandidate R × R) : R ×ₗ ℤ :=
  toLex (cand.2, cand.1.peerId)

theorem scoreLess_iff (lhs rhs : EvictionCandidate R × R) :
    scoreLess lhs rhs ↔ scoreKey lhs < scoreKey rhs :=
  lexLess_iff _ _ _ _

theorem perm_scoredCandidates : (scoredCandidates cands).Perm (withScores cands) :=
  mergeSort_perm _ _

theorem nodup_scoredCandidates (nodup : (cands.map EvictionCandidate.peerId).Nodup) :
    ((scoredCandidates cands).map fun scored => scored.1.peerId).Nodup := by
  refine (perm_scoredCandidates.map _).nodup_iff.mpr (pairwise_map.mpr ?_)
  refine (pairwise_map.mp nodup).filterMap _ ?_
  intro a b differ scored isScored other isOther
  obtain ⟨_, -, rfl⟩ := map_eq_some_iff.mp isScored
  obtain ⟨_, -, rfl⟩ := map_eq_some_iff.mp isOther
  exact differ

theorem pairwise_scoredCandidates (nodup : (cands.map EvictionCandidate.peerId).Nodup) :
    (scoredCandidates cands).Pairwise fun a b => scoreKey a < scoreKey b := by
  have le_iff (a b : EvictionCandidate R × R) :
      (!scoreLess b a) = true ↔ scoreKey a ≤ scoreKey b := by
    rw [Bool.not_eq_true', ← Bool.not_eq_true, scoreLess_iff, not_lt]
  have sorted : (scoredCandidates cands).Pairwise fun a b => (!scoreLess b a) = true := by
    refine pairwise_mergeSort ?_ ?_ _
    · intro a b c
      simp only [le_iff]
      exact le_trans
    · intro a b
      rw [Bool.or_eq_true, le_iff, le_iff]
      exact le_total _ _
  refine (sorted.and (pairwise_map.mp (nodup_scoredCandidates nodup))).imp ?_
  intro a b ⟨below, differ⟩
  refine lt_of_le_of_ne ((le_iff a b).mp below) fun same => differ ?_
  exact congrArg (fun place => (ofLex place).2) same

/-- One of at least three scored candidates is chosen by its index alone. -/
theorem peerToDisconnect_of_scored (random : RandomContext) {first : EvictionCandidate R}
    {rest : List (EvictionCandidate R)} (enough : 3 ≤ (scoredCandidates (first :: rest)).length) :
    ∃ sel, (scoredCandidates (first :: rest))[random.randrange 3]? = some sel ∧
      peerToDisconnect random first rest = sel.1.peerId := by
  have drawn : random.randrange 3 < (scoredCandidates (first :: rest)).length :=
    (random.randrange_lt (by decide)).trans_le enough
  refine ⟨_, getElem?_eq_getElem drawn, ?_⟩
  rw [peerToDisconnect]
  simp only [if_pos enough, min_eq_left enough, getElem?_eq_getElem drawn]

theorem peerToDisconnect_perm {first first' : EvictionCandidate R}
    {rest rest' : List (EvictionCandidate R)} (same : (first' :: rest').Perm (first :: rest))
    (nodup : ((first :: rest).map EvictionCandidate.peerId).Nodup) (random : RandomContext) :
    peerToDisconnect random first' rest' = peerToDisconnect random first rest := by
  have distinct' := (same.map EvictionCandidate.peerId).nodup_iff.mpr nodup
  have scored : scoredCandidates (first' :: rest') = scoredCandidates (first :: rest) := by
    refine Perm.eq_of_pairwise (fun a b _ _ below above => absurd above below.asymm)
      (pairwise_scoredCandidates distinct') (pairwise_scoredCandidates nodup) ?_
    exact perm_scoredCandidates.trans ((same.filterMap _).trans perm_scoredCandidates.symm)
  have legacy : minElement legacyLess first' rest' = minElement legacyLess first rest := by
    have mem := same.mem_iff.mp (minElement_mem legacyLess first' rest')
    have mem' := same.mem_iff.mpr (minElement_mem legacyLess first rest)
    have places := le_antisymm (minElement_le legacyLess_iff _ mem')
      (minElement_le legacyLess_iff _ mem)
    exact inj_on_of_nodup_map nodup mem (minElement_mem legacyLess first rest)
      (peerId_of_legacyKey places)
  rw [peerToDisconnect, peerToDisconnect, scored, legacy]

end

section

variable [Field R] [LinearOrder R] [Exp2 R]

/-- The ranking of the candidates. Whatever the iteration order, the choice is that of
the candidate set: if at least three candidates have a score, the three draws choose three
different ones, with no, one and two scored candidates before them by score and identifier.
Otherwise the least recent announcer is chosen, the newest among equals. A call with extra
peers disconnects the choice among its candidates. -/
theorem evictExtraOutbound_ranking (first : EvictionCandidate R) (rest : List (EvictionCandidate R))
    (nodup : ((first :: rest).map EvictionCandidate.peerId).Nodup) :
    (3 ≤ (withScores (first :: rest)).length → ∃ worst : Fin 3 → EvictionCandidate R × R,
      (Function.Injective fun i => (worst i).1.peerId) ∧
      (∀ i, worst i ∈ withScores (first :: rest) ∧
        (withScores (first :: rest)).countP (fun other => other.2 < (worst i).2 ∨
          other.2 = (worst i).2 ∧ other.1.peerId < (worst i).1.peerId) = i) ∧
      ∀ (random : RandomContext) (i : Fin 3), random.randrange 3 = i →
        peerToDisconnect random first rest = (worst i).1.peerId) ∧
    ((withScores (first :: rest)).length < 3 → ∃ worst ∈ first :: rest,
      (∀ random, peerToDisconnect random first rest = worst.peerId) ∧
      ∀ other ∈ first :: rest, other.peerId ≠ worst.peerId →
        worst.lastBlockAnnouncement < other.lastBlockAnnouncement ∨
          worst.lastBlockAnnouncement = other.lastBlockAnnouncement ∧
            other.peerId < worst.peerId) ∧
    (∀ first' rest', (first' :: rest').Perm (first :: rest) → ∀ random,
      peerToDisconnect random first' rest' = peerToDisconnect random first rest) ∧
    ∀ (memory : BlockMemory Block) (states : NodeId → Option (CNodeState Block R))
      (connman : CConnman) (tip : Option Block) (now : ℤ), 0 < connman.getExtraFullOutboundCount →
      connman.forEachNode.filterMap (evictionCandidate memory states connman tip now) =
        first :: rest →
      ∀ random, evictExtraFullOutboundPeer memory states connman tip random now =
        some (peerToDisconnect random first rest) := by
  have sorted := pairwise_scoredCandidates nodup
  have perm := @perm_scoredCandidates R _ (first :: rest)
  refine ⟨?_, ?_, ?_, ?_⟩
  · intro enough
    rw [← perm.length_eq] at enough
    have inRange (i : Fin 3) : i.val < (scoredCandidates (first :: rest)).length :=
      i.isLt.trans_le enough
    refine ⟨fun i => (scoredCandidates (first :: rest)).get ⟨i, inRange i⟩, ?_, ?_, ?_⟩
    · intro i j same
      have ids := nodup_scoredCandidates nodup
      have sameScored := inj_on_of_nodup_map ids (get_mem _ _) (get_mem _ _) same
      exact Fin.ext (Fin.mk.inj (ids.of_map.get_inj_iff.mp sameScored))
    · intro i
      refine ⟨perm.mem_iff.mp (get_mem _ _), ?_⟩
      rw [← perm.countP_eq]
      refine (countP_congr ?_).trans (countP_lt_getElem? sorted
        (getElem?_eq_getElem (inRange i)))
      intro other _
      simp [scoreKey, Prod.Lex.toLex_lt_toLex]
    · intro random i drawn
      obtain ⟨sel, isSelected, chosen⟩ := peerToDisconnect_of_scored random enough
      rw [drawn, getElem?_eq_getElem (inRange i)] at isSelected
      rw [chosen, ← Option.some_inj.mp isSelected]
      rfl
  · intro few
    rw [← perm.length_eq] at few
    refine ⟨_, minElement_mem legacyLess first rest, fun random => ?_, fun other mem differ => ?_⟩
    · simp only [peerToDisconnect, if_neg (not_le.mpr few)]
    have below := lt_of_le_of_ne (minElement_le legacyLess_iff other mem) fun same =>
      differ (peerId_of_legacyKey same).symm
    simpa [legacyKey, Prod.Lex.toLex_lt_toLex] using below
  · intro first' rest' same random
    exact peerToDisconnect_perm same nodup random
  · intro memory states connman tip now extra cands random
    exact (evictExtraFullOutboundPeer_eq extra cands random).1

/-- A source that always draws zero. -/
def firstDraw : RandomContext := ⟨fun _ => 0, fun positive => positive⟩

/-- Three of four candidates have a score. The first draw chooses the worst scored one. -/
theorem evictExtraOutbound_ranking_three :
    peerToDisconnect firstDraw (⟨0, 5, some 3⟩ : EvictionCandidate ℚ)
      [⟨1, 5, some 1⟩, ⟨2, 4, none⟩, ⟨3, 5, some 2⟩] = 1 := by
  obtain ⟨worst, -, ranks, chosen⟩ := (@evictExtraOutbound_ranking Unit ℚ _ _ _ ⟨0, 5, some 3⟩
    [⟨1, 5, some 1⟩, ⟨2, 4, none⟩, ⟨3, 5, some 2⟩] (by decide)).1 (by decide)
  obtain ⟨mem, rank⟩ := ranks 0
  rw [chosen firstDraw 0 rfl]
  generalize worst 0 = first at *
  rcases mem_cons.mp mem with rfl | mem
  · exact absurd rank (by decide)
  · rcases mem_pair.mp mem with rfl | rfl
    · rfl
    · exact absurd rank (by decide)

end

end BitcoinCore.NetProcessing
