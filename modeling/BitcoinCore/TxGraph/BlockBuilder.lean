import BitcoinCore.Util.FeeFrac

/-!
# Building blocks from chunks

A block builder walks through the chunks of the main graph in mining order. Each chunk is
included or skipped by the caller, and a skipped chunk excludes what follows of its cluster.
To keep the set of excluded clusters small, a cluster is not recorded if the skipped chunk
is known to be its last one. `GetCurrentChunk` finds this out and `Next` forgets it; the
constructor leaves the flag uninitialised.

The included chunks of every cluster are its first ones as long as the flag is right
(`Keeps.step`), so that blocks are topologically valid. Whatever the flag is at first, this
is the case if the first call is not `Skip`; for all calls exactly if no chunk depends on
the first one when the flag is set (`blockBuilder_mineable_iff`).
-/

namespace BitcoinCore.BlockBuilding

open List

/-! ## The code -/

/-- What is stored for a transaction of the main graph. A cluster is given by its sequence
number. -/
structure Entry where
  cluster : ℕ
  mainLinIndex : ℕ
  mainChunkFeerate : FeeFrac

/-- A chunk, given by its last transaction. The special value -1 of the count is `none`. -/
structure ChunkData (Tx : Type) where
  graphIndex : Tx
  chunkCount : Option ℕ

structure ChunkTable (Tx : Type) where
  entries : Tx → Entry
  linearization : ℕ → List Tx
  chunkIndex : List (ChunkData Tx)

structure BlockBuilder (Tx : Type) where
  excludedClusters : List ℕ
  curIter : List (ChunkData Tx)
  curCluster : Option ℕ
  knownEndOfCluster : Bool

variable {Tx : Type}

section

variable (graph : ChunkTable Tx)

namespace ChunkTable

variable (chunk : ChunkData Tx)

def clusterOf : ℕ := (graph.entries chunk.graphIndex).cluster

def feerate : FeeFrac := (graph.entries chunk.graphIndex).mainChunkFeerate

def getClusterRefs (cluster count startPos : ℕ) : List Tx × Bool :=
  (((graph.linearization cluster).drop startPos).take count,
    decide (startPos + count = (graph.linearization cluster).length))

/-- The transactions of a chunk, and whether it is known to be the last one of its cluster. -/
def chunkRefs (cluster : ℕ) (chunk : ChunkData Tx) : List Tx × Bool :=
  match chunk.chunkCount with
  | none => ([chunk.graphIndex], true)
  | some count =>
    graph.getClusterRefs cluster count ((graph.entries chunk.graphIndex).mainLinIndex + 1 - count)

def chunkTxs : List Tx := (graph.chunkRefs (graph.clusterOf chunk) chunk).1

end ChunkTable

namespace BlockBuilder

variable (builder : BlockBuilder Tx)

def new (knownEndOfCluster : Bool) : BlockBuilder Tx :=
  ⟨[], graph.chunkIndex, graph.chunkIndex.head?.map graph.clusterOf, knownEndOfCluster⟩

def advance (excludedClusters : List ℕ) : List (ChunkData Tx) → Bool → BlockBuilder Tx
  | [], known => ⟨excludedClusters, [], none, known⟩
  | chunk :: rest, _ =>
    if excludedClusters.contains (graph.clusterOf chunk) then advance excludedClusters rest false
    else ⟨excludedClusters, chunk :: rest, some (graph.clusterOf chunk), false⟩

def next : BlockBuilder Tx :=
  match builder.curIter with
  | [] => builder
  | _ :: rest => advance graph builder.excludedClusters rest builder.knownEndOfCluster

def getCurrentChunk : BlockBuilder Tx × Option (List Tx × FeeFrac) :=
  match builder.curIter, builder.curCluster with
  | chunk :: _, some cluster =>
    ({ builder with knownEndOfCluster := (graph.chunkRefs cluster chunk).2 },
      some ((graph.chunkRefs cluster chunk).1, graph.feerate chunk))
  | _, _ => (builder, none)

/-- Exclude the cluster of the current chunk, unless this is known to be the last one. -/
def exclude : BlockBuilder Tx :=
  match builder.curCluster with
  | none => builder
  | some cluster =>
    if builder.knownEndOfCluster then builder
    else { builder with excludedClusters := cluster :: builder.excludedClusters }

def includeChunk : BlockBuilder Tx := builder.next graph

def skip : BlockBuilder Tx := builder.exclude.next graph

end BlockBuilder

/-! ### Sessions -/

inductive Call where
  | getCurrentChunk
  | includeChunk
  | skip
  deriving DecidableEq

/-- A builder, with the chunks that were included or skipped so far. -/
structure Session (Tx : Type) where
  builder : BlockBuilder Tx
  decisions : List (ChunkData Tx × Bool)

namespace Session

def record (sess : Session Tx) (isIncl : Bool) (builder : BlockBuilder Tx) : Session Tx :=
  ⟨builder, sess.decisions ++ (sess.builder.curIter.head?.map fun chunk => (chunk, isIncl)).toList⟩

def step (sess : Session Tx) : Call → Session Tx
  | .getCurrentChunk => { sess with builder := (sess.builder.getCurrentChunk graph).1 }
  | .includeChunk => sess.record true (sess.builder.includeChunk graph)
  | .skip => sess.record false (sess.builder.skip graph)

def run (calls : List Call) (sess : Session Tx) : Session Tx := calls.foldl (step graph) sess

def new (knownEndOfCluster : Bool) : Session Tx := ⟨.new graph knownEndOfCluster, []⟩

def includedChunks (sess : Session Tx) : List (ChunkData Tx) :=
  (sess.decisions.filter Prod.snd).map Prod.fst

def included (sess : Session Tx) : List Tx := sess.includedChunks.flatMap graph.chunkTxs

def offered (sess : Session Tx) : List (ChunkData Tx) :=
  sess.decisions.map Prod.fst ++ sess.builder.curIter.head?.toList

end Session

end

/-! ## The main graph -/

section

def ChunkTable.ofCluster (graph : ChunkTable Tx) (cluster : ℕ) (chunks : List (ChunkData Tx)) :
    List (ChunkData Tx) :=
  chunks.filter fun chunk => graph.clusterOf chunk = cluster

/-- A main graph that is not oversized. The chunks of each cluster make up its linearization,
which is topological; the chunks are sorted by feerate, and the counts are right. -/
structure MainGraph (Tx : Type) extends ChunkTable Tx where
  ancestor : Tx → Tx → Prop
  located : ∀ cluster, ∀ tx ∈ linearization cluster, (entries tx).cluster = cluster
  nodup : ∀ cluster, (linearization cluster).Nodup
  topological : ∀ cluster pre tx after, linearization cluster = pre ++ tx :: after →
    ∀ other, ancestor other tx → other ∈ pre
  chunks : ∀ cluster, (toChunkTable.ofCluster cluster chunkIndex).flatMap toChunkTable.chunkTxs =
    linearization cluster
  nonempty : ∀ chunk ∈ chunkIndex, toChunkTable.chunkTxs chunk ≠ []
  feerates : chunkIndex.Pairwise fun chunk later =>
    (toChunkTable.feerate later).higher (toChunkTable.feerate chunk) = false
  single : ∀ pre chunk after, chunkIndex = pre ++ chunk :: after → chunk.chunkCount = none →
    ∀ later ∈ after, toChunkTable.clusterOf later ≠ toChunkTable.clusterOf chunk
  counted : ∀ pre chunk after count, chunkIndex = pre ++ chunk :: after →
    chunk.chunkCount = some count → (entries chunk.graphIndex).mainLinIndex + 1 =
      ((toChunkTable.ofCluster (toChunkTable.clusterOf chunk) pre).flatMap
        toChunkTable.chunkTxs).length + count

instance : Coe (MainGraph Tx) (ChunkTable Tx) := ⟨MainGraph.toChunkTable⟩

variable (graph : MainGraph Tx) {chunk : ChunkData Tx}

theorem ofCluster_append (table : ChunkTable Tx) (cluster : ℕ) (chunks others : List (ChunkData Tx)) :
    table.ofCluster cluster (chunks ++ others) =
      table.ofCluster cluster chunks ++ table.ofCluster cluster others :=
  filter_append _ _

theorem ofCluster_cons_self (table : ChunkTable Tx) (chunk : ChunkData Tx)
    (chunks : List (ChunkData Tx)) : table.ofCluster (table.clusterOf chunk) (chunk :: chunks) =
      chunk :: table.ofCluster (table.clusterOf chunk) chunks :=
  filter_cons_of_pos (decide_eq_true (Eq.refl (table.clusterOf chunk)))

variable {chunks : List (ChunkData Tx)} {table : ChunkTable Tx}

theorem ofCluster_eq_nil {cluster : ℕ}
    (others : ∀ chunk ∈ chunks, table.clusterOf chunk ≠ cluster) :
    table.ofCluster cluster chunks = [] :=
  filter_eq_nil_iff.mpr fun chunk mem same => others chunk mem (of_decide_eq_true same)

theorem mem_ofCluster {cluster : ℕ} :
    chunk ∈ table.ofCluster cluster chunks ↔ chunk ∈ chunks ∧ table.clusterOf chunk = cluster := by
  simp [ChunkTable.ofCluster]

theorem MainGraph.cluster_of_mem (mem : chunk ∈ graph.chunkIndex) {tx : Tx}
    (isTx : tx ∈ graph.chunkTxs chunk) : (graph.entries tx).cluster = graph.clusterOf chunk := by
  refine graph.located _ tx ?_
  rw [← graph.chunks]
  exact mem_flatMap.mpr ⟨chunk, mem_ofCluster.mpr ⟨mem, rfl⟩, isTx⟩

/-- The flag that `GetCurrentChunk` sets is right. -/
theorem MainGraph.chunkRefs_end {pre after : List (ChunkData Tx)}
    (split : graph.chunkIndex = pre ++ chunk :: after)
    (isEnd : (graph.chunkRefs (graph.clusterOf chunk) chunk).2) :
    ∀ later ∈ after, graph.clusterOf later ≠ graph.clusterOf chunk := by
  cases counts : chunk.chunkCount with
  | none => exact graph.single pre chunk after split counts
  | some count =>
    intro later mem same
    have start := graph.counted pre chunk after count split counts
    have whole := graph.chunks (graph.clusterOf chunk)
    have txs : graph.chunkTxs chunk = ((graph.linearization (graph.clusterOf chunk)).drop
        ((graph.entries chunk.graphIndex).mainLinIndex + 1 - count)).take count := by
      rw [ChunkTable.chunkTxs, ChunkTable.chunkRefs, counts]
      rfl
    rw [ChunkTable.chunkRefs, counts] at isEnd
    have reaches := of_decide_eq_true isEnd
    rw [start, Nat.add_sub_cancel] at reaches txs
    -- The chunk is all that is left of the linearization, so that nothing follows it.
    rw [split, ofCluster_append, flatMap_append, ofCluster_cons_self, flatMap_cons] at whole
    have rest : (graph.ofCluster (graph.clusterOf chunk) after).flatMap graph.chunkTxs = [] := by
      rw [← whole, length_append, Nat.add_left_cancel_iff] at reaches
      rw [← whole, drop_left, take_of_length_le reaches.ge] at txs
      exact self_eq_append_right.mp txs
    have none := flatMap_eq_nil_iff.mp rest later (mem_ofCluster.mpr ⟨mem, same⟩)
    refine graph.nonempty later ?_ none
    rw [split]
    exact mem_append_right _ (mem_cons_of_mem _ mem)

end

/-! ## Steps -/

section

variable (graph : ChunkTable Tx)

/-- What is always right about the current chunk: its cluster is known and not excluded. -/
structure BlockBuilder.Positioned (builder : BlockBuilder Tx) : Prop where
  cluster : builder.curCluster = builder.curIter.head?.map graph.clusterOf
  fresh : ∀ chunk ∈ builder.curIter.head?, graph.clusterOf chunk ∉ builder.excludedClusters

/-- If the flag is set, nothing more of the cluster of the current chunk is to come. -/
def BlockBuilder.FlagRight (builder : BlockBuilder Tx) : Prop :=
  builder.knownEndOfCluster → ∀ chunk rest, builder.curIter = chunk :: rest →
    ∀ later ∈ rest, graph.clusterOf later ≠ graph.clusterOf chunk

/-- The loop of `Next` passes chunks of excluded clusters only, and clears the flag. -/
theorem advance_spec (excluded : List ℕ) (rest : List (ChunkData Tx)) (known : Bool) :
    ∃ dropped, rest = dropped ++ (BlockBuilder.advance graph excluded rest known).curIter ∧
      (∀ chunk ∈ dropped, graph.clusterOf chunk ∈ excluded) ∧
      (BlockBuilder.advance graph excluded rest known).excludedClusters = excluded ∧
      (BlockBuilder.advance graph excluded rest known).Positioned graph ∧
      ((BlockBuilder.advance graph excluded rest known).curIter ≠ [] →
        (BlockBuilder.advance graph excluded rest known).knownEndOfCluster = false) := by
  induction rest generalizing known with
  | nil =>
    exact ⟨[], rfl, nofun, rfl,
      ⟨rfl, nofun⟩, fun nonempty => absurd rfl nonempty⟩
  | cons chunk rest ih =>
    rw [BlockBuilder.advance]
    split
    case isTrue isExcluded =>
      obtain ⟨dropped, split, allExcluded, others⟩ := ih false
      refine ⟨chunk :: dropped, ?_, forall_mem_cons.mpr ⟨?_, allExcluded⟩, others⟩
      · rw [cons_append, ← split]
      · exact contains_iff_mem.mp isExcluded
    case isFalse notExcluded =>
      refine ⟨[], rfl, nofun, rfl, ⟨rfl, ?_⟩, fun _ => rfl⟩
      intro other isHead mem
      cases isHead
      exact notExcluded (contains_iff_mem.mpr mem)

/-- The builder once it is known what becomes of the current chunk. -/
def BlockBuilder.decided (builder : BlockBuilder Tx) (isIncl : Bool) : BlockBuilder Tx :=
  if isIncl then builder else builder.exclude

/-- `Include` and `Skip`. -/
def Session.decide (sess : Session Tx) (isIncl : Bool) : Session Tx :=
  sess.record isIncl ((sess.builder.decided isIncl).next graph)

theorem step_includeChunk (sess : Session Tx) :
    sess.step graph .includeChunk = sess.decide graph true := rfl

theorem step_skip (sess : Session Tx) : sess.step graph .skip = sess.decide graph false := rfl

theorem curIter_decided (builder : BlockBuilder Tx) (isIncl : Bool) :
    (builder.decided isIncl).curIter = builder.curIter := by
  rw [BlockBuilder.decided]
  split
  · rfl
  · rw [BlockBuilder.exclude]
    split
    · rfl
    · split <;> rfl

variable {graph} {rest : List (ChunkData Tx)} {chunk : ChunkData Tx}

theorem excludedClusters_decided {builder : BlockBuilder Tx} (positioned : builder.Positioned graph)
    (current : builder.curIter = chunk :: rest) (isIncl : Bool) :
    (builder.decided isIncl).excludedClusters =
      if isIncl || builder.knownEndOfCluster then builder.excludedClusters
      else graph.clusterOf chunk :: builder.excludedClusters := by
  have cluster := positioned.cluster
  rw [current, head?_cons, Option.map_some] at cluster
  rw [BlockBuilder.decided, BlockBuilder.exclude, cluster]
  cases isIncl <;> cases builder.knownEndOfCluster <;> rfl

variable {sess after : Session Tx} {isIncl : Bool} {dropped : List (ChunkData Tx)}

theorem decide_of_end (positioned : sess.builder.Positioned graph)
    (atEnd : sess.builder.curIter = []) (isIncl : Bool) : sess.decide graph isIncl = sess := by
  have nothing : sess.builder.decided isIncl = sess.builder := by
    have cluster := positioned.cluster
    rw [atEnd] at cluster
    rw [BlockBuilder.decided, BlockBuilder.exclude, cluster]
    exact ite_self _
  rw [Session.decide, nothing, Session.record, BlockBuilder.next, atEnd]
  exact congrArg (Session.mk sess.builder) (append_nil _)

/-- All that a decision about the current chunk does. What is dropped behind it belongs to
excluded clusters. -/
structure Moves (graph : ChunkTable Tx) (isIncl : Bool) (sess : Session Tx) (chunk : ChunkData Tx)
    (dropped : List (ChunkData Tx)) (after : Session Tx) : Prop where
  current : sess.builder.curIter = chunk :: (dropped ++ after.builder.curIter)
  decisions : after.decisions = sess.decisions ++ [(chunk, isIncl)]
  excluded : after.builder.excludedClusters =
    if isIncl || sess.builder.knownEndOfCluster then sess.builder.excludedClusters
    else graph.clusterOf chunk :: sess.builder.excludedClusters
  dropped : ∀ other ∈ dropped, graph.clusterOf other ∈ after.builder.excludedClusters
  positioned : after.builder.Positioned graph
  cleared : after.builder.curIter ≠ [] → after.builder.knownEndOfCluster = false

theorem moves_decide (positioned : sess.builder.Positioned graph)
    (current : sess.builder.curIter = chunk :: rest) (isIncl : Bool) :
    ∃ dropped, Moves graph isIncl sess chunk dropped (sess.decide graph isIncl) := by
  obtain ⟨dropped, split, allExcluded, kept, isPositioned, cleared⟩ := advance_spec graph
    (sess.builder.decided isIncl).excludedClusters rest
    (sess.builder.decided isIncl).knownEndOfCluster
  rw [Session.decide, Session.record, BlockBuilder.next, curIter_decided, current]
  refine ⟨dropped, current.trans (congrArg (chunk :: ·) split), rfl,
    kept.trans (excludedClusters_decided positioned current isIncl), fun other mem => ?_,
    isPositioned, cleared⟩
  exact kept.symm ▸ allExcluded other mem

section

variable (moves : Moves graph isIncl sess chunk dropped after)
include moves

theorem Moves.mem_excluded (cluster : ℕ) : cluster ∈ after.builder.excludedClusters ↔
    cluster ∈ sess.builder.excludedClusters ∨ isIncl = false ∧
      sess.builder.knownEndOfCluster = false ∧ graph.clusterOf chunk = cluster := by
  rw [moves.excluded]
  cases isIncl <;> cases sess.builder.knownEndOfCluster <;> simp [or_comm, eq_comm]

theorem Moves.flagRight : after.builder.FlagRight graph := by
  intro isKnown other others isCons
  rw [moves.cleared (isCons ▸ cons_ne_nil _ _)] at isKnown
  cases isKnown

/-- As long as no cluster is excluded, every chunk gets its turn. -/
theorem Moves.unexcluded (none : sess.builder.excludedClusters = [])
    (untracked : (isIncl || sess.builder.knownEndOfCluster) = true) :
    after.builder.excludedClusters = [] ∧ dropped = [] := by
  have kept : after.builder.excludedClusters = [] := by
    rw [moves.excluded, if_pos untracked, none]
  refine ⟨kept, eq_nil_iff_forall_not_mem.mpr fun other mem => ?_⟩
  exact absurd (kept ▸ moves.dropped other mem) not_mem_nil

theorem Moves.includedChunks :
    after.includedChunks = sess.includedChunks ++ if isIncl then [chunk] else [] := by
  rw [Session.includedChunks, moves.decisions, filter_append, map_append]
  cases isIncl <;> rfl

end

end

/-! ## What is offered -/

section

variable {graph : ChunkTable Tx} {passed dropped : List (ChunkData Tx)} {sess after : Session Tx}
  {chunk : ChunkData Tx} {isIncl : Bool}

/-- What holds of a session for any value of the flag: the chunks that were passed have been
current, or a chunk before them in their cluster has been skipped. -/
structure Tracked (graph : ChunkTable Tx) (passed : List (ChunkData Tx)) (sess : Session Tx) :
    Prop where
  positioned : sess.builder.Positioned graph
  split : graph.chunkIndex = passed ++ sess.builder.curIter
  decided : (sess.decisions.map Prod.fst).Sublist passed
  skipped : ∀ cluster ∈ sess.builder.excludedClusters, ∃ chunk ∈ passed,
    (chunk, false) ∈ sess.decisions ∧ graph.clusterOf chunk = cluster
  complete : ∀ chunk ∈ passed, chunk ∈ sess.decisions.map Prod.fst ∨
    ∃ init, (init, false) ∈ sess.decisions ∧
      graph.clusterOf init = graph.clusterOf chunk ∧ [init, chunk].Sublist passed

theorem tracked_new (known : Bool) : Tracked graph [] (Session.new graph known) where
  positioned := ⟨rfl, nofun⟩
  split := rfl
  decided := nil_sublist _
  skipped := nofun
  complete := nofun

/-- A cluster is excluded because of a chunk up to the current one. -/
theorem Tracked.skipped_of_moves (tracked : Tracked graph passed sess)
    (moves : Moves graph isIncl sess chunk dropped after) :
    ∀ cluster ∈ after.builder.excludedClusters, ∃ other ∈ passed ++ [chunk],
      (other, false) ∈ after.decisions ∧ graph.clusterOf other = cluster := by
  intro cluster mem
  rw [moves.decisions]
  rcases (moves.mem_excluded cluster).mp mem with isOld | ⟨rfl, -, isChunk⟩
  · obtain ⟨other, isPassed, isSkipped, same⟩ := tracked.skipped cluster isOld
    exact ⟨other, mem_append_left _ isPassed, mem_append_left _ isSkipped, same⟩
  · exact ⟨chunk, mem_append_right _ (mem_singleton_self _),
      mem_append_right _ (mem_singleton_self _), isChunk⟩

theorem Tracked.moves (tracked : Tracked graph passed sess)
    (moves : Moves graph isIncl sess chunk dropped after) :
    Tracked graph ((passed ++ [chunk]) ++ dropped) after := by
  have skipped := tracked.skipped_of_moves moves
  refine ⟨moves.positioned, ?_, ?_, fun cluster mem => ?_, fun other mem => ?_⟩
  · rw [tracked.split, moves.current, append_assoc, append_assoc]
    rfl
  · rw [moves.decisions, map_append]
    exact (tracked.decided.append (Sublist.refl _)).trans (sublist_append_left _ _)
  · obtain ⟨other, isPassed, others⟩ := skipped cluster mem
    exact ⟨other, mem_append_left _ isPassed, others⟩
  · rcases mem_append.mp mem with isPassed | isDropped
    · rw [moves.decisions, map_append]
      rcases mem_append.mp isPassed with isPassed | isChunk
      · rcases tracked.complete other isPassed with isDecided | ⟨init, isSkipped, same, order⟩
        · exact Or.inl (mem_append_left _ isDecided)
        · refine Or.inr ⟨init, mem_append_left _ isSkipped, same, order.trans ?_⟩
          rw [append_assoc]
          exact sublist_append_left _ _
      · exact Or.inl (mem_append_right _ isChunk)
    · obtain ⟨init, isPassed, isSkipped, same⟩ := skipped _ (moves.dropped other isDropped)
      exact Or.inr ⟨init, isSkipped, same,
        (singleton_sublist.mpr isPassed).append (singleton_sublist.mpr isDropped)⟩

end

/-! ## What is included -/

section

variable {graph : MainGraph Tx} {lead passed dropped : List (ChunkData Tx)}
  {sess after : Session Tx} {chunk : ChunkData Tx} {isIncl : Bool}

/-- What holds of a session behind the chunks `lead` while the flag is right whenever a chunk is
skipped: the included chunks of every cluster are its first ones, and all of those that were
passed if there are more to come. -/
structure Keeps (graph : MainGraph Tx) (lead passed : List (ChunkData Tx)) (sess : Session Tx) :
    Prop extends Tracked graph (lead ++ passed) sess where
  first : ∀ cluster, graph.ofCluster cluster sess.includedChunks <+: graph.ofCluster cluster passed
  all : ∀ cluster ∉ sess.builder.excludedClusters,
    (∃ chunk ∈ sess.builder.curIter, graph.clusterOf chunk = cluster) →
      graph.ofCluster cluster sess.includedChunks = graph.ofCluster cluster passed

theorem keeps_new (known : Bool) : Keeps graph [] [] (Session.new graph known) :=
  ⟨tracked_new known, fun _ => prefix_rfl, fun _ _ _ => rfl⟩

theorem ofCluster_singleton_ne {table : ChunkTable Tx} {cluster : ℕ} {chunk : ChunkData Tx}
    (other : table.clusterOf chunk ≠ cluster) : table.ofCluster cluster [chunk] = [] :=
  ofCluster_eq_nil fun _ mem => mem_singleton.mp mem ▸ other

/-- What is included of the clusters that the current chunk is not in stays as it was. -/
theorem Moves.ofCluster_includedChunks_ne (moves : Moves graph isIncl sess chunk dropped after)
    {cluster : ℕ} (other : graph.clusterOf chunk ≠ cluster) :
    graph.ofCluster cluster after.includedChunks = graph.ofCluster cluster sess.includedChunks := by
  rw [moves.includedChunks, ofCluster_append]
  cases isIncl with
  | true => exact (congrArg _ (ofCluster_singleton_ne other)).trans (append_nil _)
  | false => exact append_nil _

theorem Keeps.moves (keeps : Keeps graph lead passed sess)
    (moves : Moves graph isIncl sess chunk dropped after)
    (right : isIncl = false → sess.builder.FlagRight graph) :
    Keeps graph lead ((passed ++ [chunk]) ++ dropped) after := by
  have tracked := keeps.toTracked.moves moves
  rw [append_assoc lead, append_assoc lead] at tracked
  have own : graph.ofCluster (graph.clusterOf chunk) sess.includedChunks =
      graph.ofCluster (graph.clusterOf chunk) passed := by
    refine keeps.all _ (keeps.positioned.fresh chunk ?_) ⟨chunk, ?_, rfl⟩
    · rw [moves.current]
      rfl
    · rw [moves.current]
      exact mem_cons_self
  refine ⟨tracked, fun cluster => ?_, fun cluster notExcluded ⟨other, isLater, isOther⟩ => ?_⟩
  · rw [ofCluster_append, ofCluster_append]
    refine IsPrefix.trans ?_ (prefix_append _ _)
    by_cases same : graph.clusterOf chunk = cluster
    · subst same
      rw [moves.includedChunks, ofCluster_append, own]
      cases isIncl with
      | true => exact prefix_rfl
      | false => exact (append_nil _).symm ▸ prefix_append _ _
    · rw [moves.ofCluster_includedChunks_ne same]
      exact (keeps.first cluster).trans (prefix_append _ _)
  · have noneDropped : graph.ofCluster cluster dropped = [] := ofCluster_eq_nil
      fun skipped mem isOne => notExcluded (isOne ▸ moves.dropped skipped mem)
    rw [ofCluster_append, ofCluster_append, noneDropped, append_nil]
    by_cases same : graph.clusterOf chunk = cluster
    · subst same
      rw [moves.includedChunks, ofCluster_append, own]
      cases isIncl with
      | true => rfl
      | false =>
        -- The cluster was not excluded, so that nothing of it is to come.
        cases known : sess.builder.knownEndOfCluster with
        | true =>
          exact absurd isOther
            (right rfl known chunk _ moves.current other (mem_append_right _ isLater))
        | false => exact absurd ((moves.mem_excluded _).mpr (Or.inr ⟨rfl, known, rfl⟩)) notExcluded
    · rw [moves.ofCluster_includedChunks_ne same, ofCluster_singleton_ne same, append_nil]
      refine keeps.all cluster (fun mem => notExcluded ((moves.mem_excluded _).mpr (Or.inl mem)))
        ⟨other, ?_, isOther⟩
      rw [moves.current]
      exact mem_cons_of_mem _ (mem_append_right _ isLater)

theorem Keeps.decide (keeps : Keeps graph lead passed sess) (isIncl : Bool)
    (right : isIncl = false → sess.builder.FlagRight graph) :
    (∃ later, Keeps graph lead later (sess.decide graph isIncl)) ∧
      (sess.decide graph isIncl).builder.FlagRight graph := by
  cases current : sess.builder.curIter with
  | nil =>
    rw [decide_of_end keeps.positioned current]
    exact ⟨⟨passed, keeps⟩, fun _ _ _ isCons => absurd (current.symm.trans isCons) nofun⟩
  | cons chunk rest =>
    obtain ⟨dropped, moves⟩ := moves_decide keeps.positioned current isIncl
    exact ⟨⟨_, keeps.moves moves right⟩, moves.flagRight⟩

/-- The flag is right after every call, and only `Skip` needs it to be. -/
theorem Keeps.step (keeps : Keeps graph lead passed sess) (call : Call)
    (right : call = .skip → sess.builder.FlagRight graph) :
    (∃ later, Keeps graph lead later (sess.step graph call)) ∧
      (sess.step graph call).builder.FlagRight graph := by
  cases call with
  | getCurrentChunk =>
    rw [Session.step, BlockBuilder.getCurrentChunk]
    split
    case h_1 chunk rest cluster current isCluster =>
      have known := keeps.positioned.cluster
      rw [current, isCluster, head?_cons, Option.map_some, Option.some_inj] at known
      refine ⟨⟨passed, ⟨⟨keeps.positioned.cluster, keeps.positioned.fresh⟩, keeps.split,
        keeps.decided, keeps.skipped, keeps.complete⟩, keeps.first, keeps.all⟩, ?_⟩
      intro isEnd other others isCons
      obtain ⟨rfl, rfl⟩ := cons.inj (current.symm.trans isCons)
      exact graph.chunkRefs_end (keeps.split.trans (congrArg _ current)) (known ▸ isEnd)
    case h_2 cut =>
      refine ⟨⟨passed, keeps⟩, fun _ chunk rest isCons => ?_⟩
      have known := keeps.positioned.cluster
      rw [isCons] at known
      exact (cut _ _ _ isCons known).elim
  | includeChunk => exact keeps.decide true nofun
  | skip => exact keeps.decide false fun _ => right rfl

theorem Keeps.run (keeps : Keeps graph lead passed sess) (calls : List Call)
    (right : calls.head? = some .skip → sess.builder.FlagRight graph) :
    ∃ later, Keeps graph lead later (sess.run graph calls) := by
  induction calls generalizing passed sess with
  | nil => exact ⟨passed, keeps⟩
  | cons call calls ih =>
    obtain ⟨⟨later, keeps⟩, isRight⟩ := keeps.step call fun isSkip => right (congrArg some isSkip)
    exact ih keeps fun _ => isRight

/-! ### Blocks -/

theorem filter_flatMap_chunkTxs {chunks : List (ChunkData Tx)} (indexed : chunks ⊆ graph.chunkIndex)
    (cluster : ℕ) :
    (chunks.flatMap graph.chunkTxs).filter (fun tx => (graph.entries tx).cluster = cluster) =
      (graph.ofCluster cluster chunks).flatMap graph.chunkTxs := by
  induction chunks with
  | nil => rfl
  | cons chunk chunks ih =>
    have isIndexed := indexed mem_cons_self
    rw [flatMap_cons, filter_append, ih (subset_of_cons_subset indexed)]
    by_cases same : graph.clusterOf chunk = cluster
    · subst same
      rw [ofCluster_cons_self, flatMap_cons]
      refine congrArg (· ++ _) (filter_eq_self.mpr fun tx isTx => ?_)
      exact decide_eq_true (graph.cluster_of_mem isIndexed isTx)
    · have none : (graph.chunkTxs chunk).filter
          (fun tx => (graph.entries tx).cluster = cluster) = [] :=
        filter_eq_nil_iff.mpr fun tx isTx isOne =>
          same ((graph.cluster_of_mem isIndexed isTx).symm.trans (of_decide_eq_true isOne))
      rw [none, nil_append, ChunkTable.ofCluster, ChunkTable.ofCluster,
        filter_cons_of_neg (by simpa using same)]

theorem filter_cluster_cons_self (table : ChunkTable Tx) (tx : Tx) (txs : List Tx) :
    (tx :: txs).filter (fun other => (table.entries other).cluster = (table.entries tx).cluster) =
      tx :: txs.filter fun other => (table.entries other).cluster = (table.entries tx).cluster :=
  filter_cons_of_pos (decide_eq_true (Eq.refl (table.entries tx).cluster))

section

variable (keeps : Keeps graph lead passed sess)
include keeps

theorem Keeps.includedChunks_subset : sess.includedChunks ⊆ passed := by
  intro chunk mem
  have isPassed := (keeps.first (graph.clusterOf chunk)).subset (mem_ofCluster.mpr ⟨mem, rfl⟩)
  exact (mem_ofCluster.mp isPassed).1

/-- What was included of a cluster stands in its linearization, behind what was left out
before the start. -/
theorem Keeps.linearization_eq (cluster : ℕ) :
    ∃ after, graph.linearization cluster = (graph.ofCluster cluster lead).flatMap graph.chunkTxs ++
      ((sess.included graph).filter
        (fun tx => (graph.entries tx).cluster = cluster) ++ after) := by
  have indexed : sess.includedChunks ⊆ graph.chunkIndex := fun chunk mem => by
    rw [keeps.split]
    exact mem_append_left _ (mem_append_right _ (keeps.includedChunks_subset mem))
  obtain ⟨more, isMore⟩ := keeps.first cluster
  rw [Session.included, filter_flatMap_chunkTxs indexed, ← graph.chunks, keeps.split,
    ofCluster_append, ofCluster_append, ← isMore]
  simp only [flatMap_append, append_assoc, append_cancel_left_eq]
  exact ⟨_, rfl⟩

theorem Keeps.nodup : (sess.included graph).Nodup := by
  refine nodup_iff_sublist.mpr fun tx twice => ?_
  obtain ⟨after, whole⟩ := keeps.linearization_eq (graph.entries tx).cluster
  have inCluster := twice.filter fun other =>
    (graph.entries other).cluster = (graph.entries tx).cluster
  rw [filter_cluster_cons_self, filter_cluster_cons_self, filter_nil] at inCluster
  refine nodup_iff_sublist.mp (graph.nodup (graph.entries tx).cluster) tx ?_
  rw [whole]
  exact (inCluster.trans (sublist_append_left _ _)).trans (sublist_append_right _ _)

/-- Ancestors come first, if nothing depends on what was left out before the start. -/
theorem Keeps.topological (independent : ∀ chunk ∈ lead, ∀ other ∈ graph.chunkTxs chunk,
      ∀ later ∈ passed, ∀ tx ∈ graph.chunkTxs later, ¬ graph.ancestor other tx)
    {pre after : List Tx} {tx : Tx} (split : sess.included graph = pre ++ tx :: after) {other : Tx}
    (isAncestor : graph.ancestor other tx) : other ∈ pre := by
  obtain ⟨more, whole⟩ := keeps.linearization_eq (graph.entries tx).cluster
  rw [split, filter_append, filter_cluster_cons_self, append_assoc, ← append_assoc,
    cons_append] at whole
  rcases mem_append.mp (graph.topological _ _ _ _ whole other isAncestor) with isLead | isBefore
  · obtain ⟨chunk, isChunk, isTx⟩ := mem_flatMap.mp isLead
    have mem : tx ∈ sess.included graph := by
      rw [split]
      exact mem_append_right _ mem_cons_self
    obtain ⟨later, isIncl, isLater⟩ := mem_flatMap.mp mem
    exact absurd isAncestor (independent chunk (mem_ofCluster.mp isChunk).1 other isTx later
      (keeps.includedChunks_subset isIncl) tx isLater)
  · exact mem_of_mem_filter isBefore

end

end

/-! ## Mineable blocks -/

section

/-- A block that can be mined, from chunks that were offered as they should be. -/
structure Mineable (graph : MainGraph Tx) (sess : Session Tx) : Prop where
  nodup : (sess.included graph).Nodup
  topological : ∀ pre tx after, sess.included graph = pre ++ tx :: after →
    ∀ other, graph.ancestor other tx → other ∈ pre
  feerates : sess.offered.Pairwise fun chunk later =>
    (graph.feerate later).higher (graph.feerate chunk) = false
  complete : ∃ passed, graph.chunkIndex = passed ++ sess.builder.curIter ∧
    ∀ chunk ∈ passed, chunk ∈ sess.offered ∨ ∃ init, (init, false) ∈ sess.decisions ∧
      graph.clusterOf init = graph.clusterOf chunk ∧ [init, chunk].Sublist passed

variable {graph : MainGraph Tx} {sess : Session Tx}

theorem mineable_run {lead passed : List (ChunkData Tx)} (keeps : Keeps graph lead passed sess)
    (independent : ∀ start, graph.chunkIndex = lead ++ start → ∀ chunk ∈ lead,
      ∀ other ∈ graph.chunkTxs chunk, ∀ later ∈ start, ∀ tx ∈ graph.chunkTxs later,
        ¬ graph.ancestor other tx) (calls : List Call)
    (right : calls.head? = some .skip → sess.builder.FlagRight graph) :
    Mineable graph (sess.run graph calls) := by
  obtain ⟨passed, keeps⟩ := keeps.run calls right
  refine ⟨keeps.nodup, fun _ _ _ split _ isAncestor => ?_, ?_, _, keeps.split, fun chunk mem => ?_⟩
  · have isIndex := keeps.split
    rw [append_assoc] at isIndex
    exact keeps.topological (fun chunk isLead other isTx later isPassed =>
      independent _ isIndex chunk isLead other isTx later (mem_append_left _ isPassed)) split
      isAncestor
  · refine graph.feerates.sublist ?_
    rw [keeps.split, Session.offered]
    refine keeps.decided.append ?_
    cases (sess.run graph calls).builder.curIter with
    | nil => exact nil_sublist _
    | cons chunk rest => exact (nil_sublist rest).cons_cons chunk
  · exact (keeps.complete chunk mem).imp_left (mem_append_left _)

variable {rest : List (ChunkData Tx)} {first : ChunkData Tx}

theorem decisions_includeAll {table : ChunkTable Tx} (positioned : sess.builder.Positioned table)
    (none : sess.builder.excludedClusters = []) (current : sess.builder.curIter = rest) :
    (sess.run table (replicate rest.length .includeChunk)).decisions =
      sess.decisions ++ rest.map fun chunk => (chunk, true) := by
  induction rest generalizing sess with
  | nil => exact (append_nil _).symm
  | cons chunk rest ih =>
    obtain ⟨dropped, moves⟩ := moves_decide positioned current true
    obtain ⟨kept, rfl⟩ := moves.unexcluded none rfl
    rw [length_cons, replicate_succ, Session.run, foldl_cons, step_includeChunk]
    refine (ih moves.positioned kept (cons.inj (current.symm.trans moves.current)).2.symm).trans ?_
    rw [moves.decisions, append_assoc]
    rfl

theorem MainGraph.disjoint_first
    (isIndex : graph.chunkIndex = first :: rest) {tx : Tx} (inFirst : tx ∈ graph.chunkTxs first)
    {later : ChunkData Tx} (isLater : later ∈ rest) : tx ∉ graph.chunkTxs later := by
  intro inLater
  have atFirst := graph.cluster_of_mem (isIndex ▸ mem_cons_self) inFirst
  have atLater := graph.cluster_of_mem (isIndex ▸ mem_cons_of_mem _ isLater) inLater
  have nodup := graph.nodup (graph.clusterOf first)
  rw [← graph.chunks, isIndex, ofCluster_cons_self, flatMap_cons] at nodup
  refine disjoint_of_nodup_append nodup inFirst (mem_flatMap.mpr ⟨later, ?_, inLater⟩)
  exact mem_ofCluster.mpr ⟨isLater, atLater.symm.trans atFirst⟩

/-- With the flag set, the first chunk can be skipped and all others included. -/
theorem included_skip_first (isIndex : graph.chunkIndex = first :: rest) :
    ((Session.new graph true).run graph
      (.skip :: replicate rest.length .includeChunk)).included graph =
        rest.flatMap graph.chunkTxs := by
  obtain ⟨dropped, moves⟩ := moves_decide (@tracked_new Tx graph true).positioned isIndex false
  obtain ⟨kept, rfl⟩ := moves.unexcluded rfl rfl
  have isRest := (cons.inj (isIndex.symm.trans moves.current)).2.symm
  rw [Session.run, foldl_cons, step_skip, Session.included, Session.includedChunks,
    ← Session.run, decisions_includeAll moves.positioned kept isRest, moves.decisions,
    filter_append, filter_map, map_append, map_map]
  simp [Function.comp_def, Session.new]

/-- Blocks can be mined for all calls exactly if the flag is not set at first, or nothing
depends on the first chunk. If the first call is not `Skip`, they can be mined with any
value of the flag. -/
theorem blockBuilder_mineable_iff (graph : MainGraph Tx) (known : Bool) :
    ((∀ calls, Mineable graph ((Session.new graph known).run graph calls)) ↔
      (known → ∀ first rest, graph.chunkIndex = first :: rest →
        ∀ other ∈ graph.chunkTxs first, ∀ later ∈ rest, ∀ tx ∈ graph.chunkTxs later,
          ¬ graph.ancestor other tx)) ∧ (∀ calls : List Call, calls.head? ≠ some .skip →
      Mineable graph ((Session.new graph known).run graph calls)) := by
  refine ⟨⟨?_, fun independent calls => ?_⟩,
    fun calls notSkip => mineable_run (keeps_new known) nofun calls fun skips => absurd skips notSkip⟩
  · intro mineable isKnown first rest isIndex other inFirst later isLater tx inLater isAncestor
    subst isKnown
    have mem : tx ∈ rest.flatMap graph.chunkTxs := mem_flatMap.mpr ⟨later, isLater, inLater⟩
    obtain ⟨pre, after, split⟩ := append_of_mem mem
    have isBefore := (mineable _).topological pre tx after
      ((included_skip_first isIndex).trans split) other isAncestor
    have isMember : other ∈ rest.flatMap graph.chunkTxs := by
      rw [split]
      exact mem_append_left _ isBefore
    obtain ⟨chunk, isChunk, inChunk⟩ := mem_flatMap.mp isMember
    exact MainGraph.disjoint_first isIndex inFirst isChunk inChunk
  · by_cases right : calls.head? = some .skip →
        (Session.new graph known).builder.FlagRight graph.toChunkTable
    · exact mineable_run (keeps_new known) nofun calls right
    · -- The flag is set, and the first chunk is skipped without excluding its cluster.
      obtain ⟨isSkip, notRight⟩ := Classical.not_imp.mp right
      obtain ⟨later, rfl⟩ := List.head?_eq_some_iff.mp isSkip
      cases known with
      | false => exact (notRight nofun).elim
      | true =>
        cases isIndex : graph.chunkIndex with
        | nil =>
          refine (notRight fun _ _ _ isCons => ?_).elim
          exact absurd (isIndex.symm.trans isCons) nofun
        | cons first rest =>
          have new := @tracked_new Tx graph true
          obtain ⟨dropped, moves⟩ := moves_decide new.positioned isIndex false
          obtain ⟨-, rfl⟩ := moves.unexcluded rfl rfl
          have none := moves.includedChunks
          rw [Session.run, foldl_cons, step_skip]
          have keeps : Keeps graph [first] [] ((Session.new graph true).decide graph false) :=
            ⟨new.moves moves, fun cluster => none ▸ prefix_rfl, fun cluster _ _ => none ▸ rfl⟩
          refine mineable_run keeps ?_ later fun _ => moves.flagRight
          intro start isStart chunk isFirst other inFirst
          rw [mem_singleton.mp isFirst] at inFirst
          exact independent rfl first start isStart other inFirst

theorem pair_eq_append {α : Type} {first second middle : α} {pre after : List α}
    (split : [first, second] = pre ++ middle :: after) :
    pre = [] ∧ middle = first ∧ after = [second] ∨ pre = [first] ∧ middle = second ∧ after = [] := by
  rcases pre with _ | ⟨head, _ | ⟨next, pre⟩⟩
  · simp_all
  · simp_all
  · simp at split

/-- A parent with a high feerate and its child: one cluster with two chunks. -/
def familyTable : ChunkTable Bool where
  entries := fun isChild => if isChild then ⟨0, 1, ⟨1, 1⟩⟩ else ⟨0, 0, ⟨2, 1⟩⟩
  linearization := fun cluster => if cluster = 0 then [false, true] else []
  chunkIndex := [⟨false, some 1⟩, ⟨true, none⟩]

theorem clusterOf_familyTable (chunk : ChunkData Bool) : familyTable.clusterOf chunk = 0 := by
  obtain ⟨tx, count⟩ := chunk
  cases tx <;> rfl

theorem linearization_familyTable {cluster : ℕ} (other : cluster ≠ 0) :
    familyTable.linearization cluster = [] := if_neg other

def parentAndChild : MainGraph Bool where
  toChunkTable := familyTable
  ancestor := fun parent child => parent = false ∧ child = true
  located := by
    intro cluster tx mem
    by_cases zero : cluster = 0
    · subst zero
      cases tx <;> rfl
    · rw [linearization_familyTable zero] at mem
      exact absurd mem not_mem_nil
  nodup := by
    intro cluster
    by_cases zero : cluster = 0
    · subst zero
      decide
    · rw [linearization_familyTable zero]
      exact nodup_nil
  topological := by
    intro cluster pre tx after split other isAncestor
    obtain ⟨rfl, rfl⟩ := isAncestor
    by_cases zero : cluster = 0
    · subst zero
      rcases pair_eq_append split with ⟨-, isFirst, -⟩ | ⟨rfl, -, -⟩
      · cases isFirst
      · exact mem_singleton_self _
    · rw [linearization_familyTable zero] at split
      exact absurd split.symm (append_ne_nil_of_right_ne_nil _ (cons_ne_nil _ _))
  chunks := by
    intro cluster
    by_cases zero : cluster = 0
    · subst zero
      decide
    · rw [linearization_familyTable zero, ofCluster_eq_nil]
      · rfl
      · exact fun chunk _ same => zero (same.symm.trans (clusterOf_familyTable chunk))
  nonempty := by
    intro chunk mem
    rcases mem_pair.mp mem with rfl | rfl <;> decide
  feerates := by decide
  single := by
    intro pre chunk after split isSingle later mem
    rcases pair_eq_append split with ⟨-, rfl, -⟩ | ⟨-, -, rfl⟩
    · cases isSingle
    · exact absurd mem not_mem_nil
  counted := by
    intro pre chunk after count split isCount
    rcases pair_eq_append split with ⟨rfl, rfl, -⟩ | ⟨-, rfl, -⟩
    · cases isCount
      rfl
    · cases isCount

/-- A skipped parent, an included child. With a flag that happens to be set, `Skip` as the
first call does not exclude the cluster. -/
theorem parentAndChild_not_mineable :
    (Session.run parentAndChild.toChunkTable [.skip, .includeChunk]
        (Session.new parentAndChild.toChunkTable true)).included parentAndChild.toChunkTable = [true] ∧
      ¬ Mineable parentAndChild (Session.run parentAndChild.toChunkTable [.skip, .includeChunk]
        (Session.new parentAndChild.toChunkTable true)) := by
  refine ⟨by decide, fun mineable => ?_⟩
  have isBefore := mineable.topological [] true [] (by decide) false ⟨rfl, rfl⟩
  exact absurd isBefore not_mem_nil

end

end BitcoinCore.BlockBuilding
