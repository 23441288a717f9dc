import BitcoinCore.TxGraph.MainOrder

/-!
# The chunk index of the main level

`Updated` is called for every cluster of the main level. It inserts the ends of the
cluster's chunks into the chunk index, and stores what the order of the index depends on.
Entries of other clusters do not change, so that their order stays.

After all calls the index contains exactly the ends of all chunks with their counts, in the
order of the main level (`mainOrder_of_updated`).
-/

namespace BitcoinCore.TxGraph

open ClusterLinearize StepDiagram List GenericClusterImpl Cluster SingletonClusterImpl Function

attribute [local instance] levels_neZero

theorem getLastD_sublist {α : Type*} {items : List α} (ne : items ≠ []) (default : α) :
    [items.getLastD default].Sublist items := by
  rw [singleton_sublist, getLastD_eq_getLast?, getLast?_eq_some_getLast ne]
  exact getLast_mem ne

variable {chunks : List TxChunk}

theorem endsOf_sublist (ne : ∀ chunk ∈ chunks, chunk.txs ≠ []) :
    ((endsOf chunks).map ChunkData.graphIndex).Sublist (chunks.flatMap TxChunk.txs) := by
  induction chunks with
  | nil => exact Sublist.refl _
  | cons chunk chunks ih =>
    obtain ⟨here, rest⟩ := forall_mem_cons.mp ne
    exact (getLastD_sublist here 0).append (ih rest)

theorem GoodChunks.nonempty {transactions : List GraphIndex}
    (good : GoodChunks transactions chunks) : ∀ chunk ∈ chunks, chunk.txs ≠ [] :=
  fun chunk mem => ne_nil_of_mem (good.max_mem chunk mem)

/-! ## One call -/

section

variable {ρ : Type*} {alt : ρ → ρ → Ordering}

/-- What one call of `Updated` does to the graph. -/
structure UpdatedBy (alt : ρ → ρ → Ordering) (cluster : Cluster) (graph later : TxGraphImpl ρ) :
    Prop where
  refs : ∀ i, (later.entries i).ref = (graph.entries i).ref
  others : ∀ i ∉ cluster.transactions, later.entries i = graph.entries i
  stored : cluster.Stored alt later.entries
  index : later.mainChunkindex = OrderedSet.insertAll (chunkOrder alt later.entries)
    (endsOf (cluster.chunks alt fun i => (later.entries i).ref))
    (graph.mainChunkindex.filter (·.graphIndex ∉ cluster.transactions))

theorem updatedBy_generic {impl : GenericClusterImpl} (valid : (generic impl).Valid)
    (graph : TxGraphImpl ρ) : UpdatedBy alt (.generic impl) graph
      ((generic impl).updated alt 0 false graph) := by
  obtain ⟨good, acceptable⟩ := valid
  obtain ⟨refs, others, rows⟩ := updated_entries good acceptable alt graph
  have chunks : (generic impl).chunks alt
      (fun i => ((impl.updated alt 0 false graph).entries i).ref) =
      impl.txChunks alt fun i => (graph.entries i).ref :=
    congrArg (impl.txChunks alt) (funext refs)
  refine ⟨refs, others, stored_of_rows chunks (good.txs_txChunks alt _) ?_, ?_⟩
  · intro k tx data row
    exact ⟨_, rows k tx data row⟩
  · rw [Cluster.updated, chunks, updated_eq good acceptable rfl rfl]
    rfl

def SingletonClusterImpl.entryOf (impl : SingletonClusterImpl) (idx : GraphIndex) (entry : Entry ρ) :
    Entry ρ :=
  (entry.located 0 impl.sequence 0).stored ⟨impl.feerate, impl.feerate.size, idx⟩ 0

variable {impl : SingletonClusterImpl}

theorem SingletonClusterImpl.updated_eq {idx : GraphIndex}
    (isIdx : impl.graphIndex = some idx) (acceptable : impl.acceptable) (graph : TxGraphImpl ρ) :
    impl.updated alt 0 false graph =
      ⟨update graph.entries idx (impl.entryOf idx (graph.entries idx)),
        OrderedSet.insert (chunkOrder alt
            (update graph.entries idx (impl.entryOf idx (graph.entries idx))))
          ⟨idx, none⟩ (graph.mainChunkindex.filter (·.graphIndex ≠ idx))⟩ := by
  simp [updated, isIdx, acceptable, TxGraphImpl.clearChunkData, TxGraphImpl.setEntry,
    TxGraphImpl.createChunkData, entryOf]

theorem updatedBy_singleton (valid : (singleton impl).Valid)
    (graph : TxGraphImpl ρ) : UpdatedBy alt (.singleton impl) graph
      ((singleton impl).updated alt 0 false graph) := by
  obtain ⟨-, acceptable⟩ := valid
  cases isIdx : impl.graphIndex with
  | none =>
    have none : (Cluster.singleton impl).transactions = [] := by rw [Cluster.transactions, isIdx]; rfl
    have noChunks : ∀ refs : GraphIndex → ρ, (Cluster.singleton impl).chunks alt refs = [] := by
      intro refs
      rw [Cluster.chunks, isIdx]
      rfl
    rw [Cluster.updated, SingletonClusterImpl.updated, isIdx]
    refine ⟨fun _ => rfl, fun _ _ => rfl, stored_of_rows (noChunks _) none.symm ?_, ?_⟩
    · intro _ _ _ row
      cases row
    · rw [noChunks, none]
      exact (filter_eq_self.mpr fun _ _ => by simp).symm
  | some idx =>
    have only : (Cluster.singleton impl).transactions = [idx] := by rw [Cluster.transactions, isIdx]; rfl
    have chunks : ∀ refs : GraphIndex → ρ, (Cluster.singleton impl).chunks alt refs =
        [⟨[idx], ⟨impl.feerate, impl.feerate.size, idx⟩⟩] := by
      intro refs
      rw [Cluster.chunks, isIdx]
      rfl
    rw [Cluster.updated, updated_eq isIdx acceptable]
    refine ⟨fun i => ?_, fun i absent => ?_, stored_of_rows (chunks _) only.symm ?_, ?_⟩
    · dsimp only
      rcases eq_or_ne i idx with rfl | other
      · rw [update_self]
        rfl
      · rw [update_of_ne other]
    · rw [only, mem_singleton] at absent
      exact update_of_ne absent _ _
    · rintro (_ | k) tx data row
      · obtain ⟨rfl, rfl⟩ := Prod.mk.inj (Option.some_inj.mp row)
        exact ⟨_, 0, update_self _ _ _⟩
      · cases row
    · simp only [chunks, only, mem_singleton]
      rfl

theorem Cluster.Valid.updatedBy {cluster : Cluster} (valid : cluster.Valid)
    (alt : ρ → ρ → Ordering) (graph : TxGraphImpl ρ) :
    UpdatedBy alt cluster graph (cluster.updated alt 0 false graph) := by
  cases cluster with
  | generic impl => exact updatedBy_generic valid graph
  | singleton impl => exact updatedBy_singleton valid graph

end

/-! ## All clusters -/

section

variable {ρ : Type*} [LinearOrder ρ] {entries entries' : GraphIndex → Entry ρ}

def updateAll (clus : List Cluster) (graph : TxGraphImpl ρ) : TxGraphImpl ρ :=
  clus.foldl (fun graph cluster => cluster.updated compare 0 false graph) graph

noncomputable def allEnds (entries : GraphIndex → Entry ρ) (clus : List Cluster) : List ChunkData :=
  clus.flatMap fun cluster => endsOf (chunksOf entries cluster)

/-- The chunk index is right: it contains the ends of all chunks, in order. -/
structure Indexed (graph : TxGraphImpl ρ) (clus : List Cluster) : Prop where
  level : MainLevel graph.entries clus
  perm : graph.mainChunkindex.Perm (allEnds graph.entries clus)
  sorted : graph.mainChunkindex.Pairwise fun a b => chunkOrder compare graph.entries a b = true

theorem allEnds_sublist {clus : List Cluster} (valid : ∀ cluster ∈ clus, cluster.Valid) :
    ((allEnds entries clus).map ChunkData.graphIndex).Sublist (mainTxs clus) := by
  induction clus with
  | nil => exact Sublist.refl _
  | cons cluster clus ih =>
    obtain ⟨here, rest⟩ := forall_mem_cons.mp valid
    have good := here.goodChunks compare fun i => (entries i).ref
    rw [allEnds, flatMap_cons, map_append, mainTxs, flatMap_cons]
    refine Sublist.append ?_ (ih rest)
    have ends := endsOf_sublist good.nonempty
    rwa [good.whole] at ends

theorem Cluster.Stored.congr {cluster : Cluster}
    (stored : cluster.Stored compare entries) (valid : cluster.Valid)
    (refs : ∀ i, (entries' i).ref = (entries i).ref)
    (same : ∀ tx ∈ cluster.transactions, entries' tx = entries tx) : cluster.Stored compare entries' := by
  have chunks : cluster.chunks compare (fun i => (entries' i).ref) =
      cluster.chunks compare fun i => (entries i).ref := by rw [funext refs]
  refine ⟨fun tx mem => ?_, fun k tx atK => ?_, fun chunk isChunk tx isTx => ?_⟩
  · rw [same tx mem]
    exact stored.located tx mem
  · rw [same tx (mem_of_getElem? atK)]
    exact stored.indexed k tx atK
  · rw [chunks] at isChunk
    have mem : tx ∈ cluster.transactions := by
      rw [← (valid.goodChunks compare fun i => (entries i).ref).whole]
      exact mem_flatMap.mpr ⟨chunk, isChunk, isTx⟩
    rw [same tx mem]
    exact stored.keyed chunk isChunk tx isTx

theorem Indexed.updated {graph : TxGraphImpl ρ} {clus : List Cluster} (indexed : Indexed graph clus)
    {cluster : Cluster} (valid : cluster.Valid) (disjoint : (mainTxs (clus ++ [cluster])).Nodup)
    (sequences : ((clus ++ [cluster]).map Cluster.sequence).Nodup)
    (refs : ∀ a ∈ mainTxs (clus ++ [cluster]), ∀ b ∈ mainTxs (clus ++ [cluster]),
      (graph.entries a).ref = (graph.entries b).ref → a = b) :
    Indexed (cluster.updated compare 0 false graph) (clus ++ [cluster]) := by
  have updated := valid.updatedBy compare graph
  generalize cluster.updated compare 0 false graph = later at updated
  have txs : mainTxs (clus ++ [cluster]) = mainTxs clus ++ cluster.transactions := by
    rw [mainTxs, flatMap_append, flatMap_singleton, mainTxs]
  have apart : ∀ tx ∈ mainTxs clus, tx ∉ cluster.transactions := by
    rw [txs, nodup_append] at disjoint
    exact fun tx mem isOwn => disjoint.2.2 tx mem tx isOwn rfl
  have allValid : ∀ other ∈ clus ++ [cluster], other.Valid := by
    intro other mem
    rcases mem_append.mp mem with old | new
    · exact indexed.level.valid other old
    · rw [mem_singleton.mp new]
      exact valid
  have level : MainLevel later.entries (clus ++ [cluster]) := by
    refine ⟨allValid, fun other mem => ?_, sequences, fun a isA b isB same => ?_⟩
    · rcases mem_append.mp mem with old | new
      · refine (indexed.level.stored other old).congr (indexed.level.valid other old) updated.refs
          fun tx isTx => updated.others tx (apart tx (mem_flatMap.mpr ⟨other, old, isTx⟩))
      · rw [mem_singleton.mp new]
        exact updated.stored
    · rw [updated.refs, updated.refs] at same
      exact refs a isA b isB same
  have ends : allEnds later.entries (clus ++ [cluster]) =
      allEnds graph.entries clus ++ endsOf (chunksOf later.entries cluster) := by
    rw [allEnds, flatMap_append, flatMap_singleton, allEnds]
    simp only [chunksOf, updated.refs]
  -- The index contains only transactions of the clusters before.
  have old : ∀ data ∈ graph.mainChunkindex, data.graphIndex ∈ mainTxs clus := fun data mem =>
    (allEnds_sublist indexed.level.valid).subset (mem_map_of_mem (indexed.perm.mem_iff.mp mem))
  have kept : (graph.mainChunkindex.filter (·.graphIndex ∉ cluster.transactions)) =
      graph.mainChunkindex :=
    filter_eq_self.mpr fun data mem => decide_eq_true (apart _ (old data mem))
  have sublist : ((allEnds later.entries (clus ++ [cluster])).map ChunkData.graphIndex).Sublist
      (mainTxs (clus ++ [cluster])) := allEnds_sublist allValid
  rw [ends] at sublist
  have moved : (graph.mainChunkindex ++ endsOf (chunksOf later.entries cluster)).Perm
      (allEnds graph.entries clus ++ endsOf (chunksOf later.entries cluster)) :=
    indexed.perm.append_right _
  have sorted : graph.mainChunkindex.Pairwise fun a b => chunkOrder compare later.entries a b = true := by
    refine (Pairwise.and_mem.mp indexed.sorted).imp fun {a b} both => ?_
    obtain ⟨isA, isB, less⟩ := both
    rw [chunkOrder_congr updated.refs (updated.others _ (apart _ (old a isA)))
      (updated.others _ (apart _ (old b isB)))]
    exact less
  have less_iff : ∀ a b : ChunkData, chunkOrder compare later.entries a b ↔
      compareMainTransactions compare later.entries a.graphIndex b.graphIndex = .lt := fun a b => by
    rw [chunkOrder, beq_iff_eq]
  have inserted := OrderedSet.insertAll_spec level.strictTotal less_iff
    ((moved.map ChunkData.graphIndex).nodup_iff.mpr (disjoint.sublist sublist))
    (fun data mem => sublist.subset (mem_map_of_mem (moved.mem_iff.mp mem))) sorted
  refine ⟨level, ?_, ?_⟩
  · rw [updated.index, kept, ends]
    exact inserted.1.trans moved
  · rw [updated.index, kept]
    exact inserted.2

section

variable {start : TxGraphImpl ρ} (empty : start.mainChunkindex = [])
  {clus : List Cluster} (valid : ∀ cluster ∈ clus, cluster.Valid)
  (disjoint : (mainTxs clus).Nodup) (sequences : (clus.map Cluster.sequence).Nodup)
  (refs : ∀ a ∈ mainTxs clus, ∀ b ∈ mainTxs clus,
    (start.entries a).ref = (start.entries b).ref → a = b)
include empty valid disjoint sequences refs

theorem indexed_updateAll : Indexed (updateAll clus start) clus ∧
      ∀ i, ((updateAll clus start).entries i).ref = (start.entries i).ref := by
  induction clus using reverseRecOn with
  | nil =>
    refine ⟨⟨⟨fun _ mem => absurd mem not_mem_nil, fun _ mem => absurd mem not_mem_nil,
      nodup_nil, fun _ mem => absurd mem not_mem_nil⟩, ?_, ?_⟩, fun _ => rfl⟩
    · exact Perm.of_eq empty
    · exact (congrArg (Pairwise _) empty).mpr Pairwise.nil
  | append_singleton clus cluster ih =>
    have isPrefix : mainTxs clus <+: mainTxs (clus ++ [cluster]) := by
      rw [mainTxs, mainTxs, flatMap_append]
      exact prefix_append _ _
    obtain ⟨indexed, same⟩ := ih (fun other mem => valid other (mem_append_left _ mem))
      (disjoint.sublist isPrefix.sublist)
      (sequences.sublist ((sublist_append_left clus [cluster]).map _))
      (fun a isA b isB => refs a (isPrefix.subset isA) b (isPrefix.subset isB))
    have isValid : cluster.Valid := valid cluster (mem_append_right _ (mem_singleton_self _))
    rw [updateAll, foldl_concat, ← updateAll]
    refine ⟨indexed.updated isValid disjoint sequences fun a isA b isB sameRef => ?_, fun i => ?_⟩
    · rw [same, same] at sameRef
      exact refs a isA b isB sameRef
    · rw [(isValid.updatedBy compare (updateAll clus start)).refs, same]

end

def blankGraph : TxGraphImpl ℕ := ⟨fun i => ⟨i, fun _ => .missing, 0, 0, 0, 0⟩, []⟩

/-- A transaction, and its child that pays for both. -/
def parentAndChild : DepGraph where
  positions := {0, 1}
  feeRate i := ⟨2 * i, 1⟩
  ancestors i := if i = 0 then {0} else {0, 1}
  descendants i := if i = 0 then {0, 1} else {1}
  self_mem_ancestors := by decide
  ancestors_subset := by decide
  ancestors_trans := by decide
  mem_descendants := by grind

/-- A single transaction and a chunk of two, with equal feerates. -/
def twoClusters : List Cluster :=
  [.singleton ⟨0, true, some 5, ⟨1, 1⟩⟩, .generic ⟨1, true, parentAndChild, (· + 1), [0, 1]⟩]

end

end BitcoinCore.TxGraph
