import BitcoinCore.Lib.PointChanges
import BitcoinCore.TxGraph.Entries

/-!
# What `Updated` stores

`Updated` walks over a linearization chunk by chunk. After it every transaction of the
cluster has its place, its position in the linearization and the data of its chunk, the
other entries are what they were (`updated_entries`), and the index has the ends of the
cluster's chunks in place of what it had for the transactions of the cluster
(`updated_eq`). While the walk creates the data of a chunk the entries of later chunks are
not yet stored, but the comparison reads none of them.
-/

namespace BitcoinCore.TxGraph

open ClusterLinearize StepDiagram List Function OrderedSet PointChanges

attribute [local instance] levels_neZero

/-- A chunk of a cluster: its transactions in order, and the data that they get. -/
structure TxChunk where
  txs : List GraphIndex
  data : ChunkEntry

/-- The index data of a chunk, which may be the final one of its cluster. -/
def endOf (chunk : TxChunk) (final : Bool) : ChunkData :=
  ⟨chunk.txs.getLastD 0,
    if chunk.txs.length = 1 ∧ final = true then none else some chunk.txs.length⟩

/-- The index data of chunks, of which the last one is the final one of its cluster. -/
def endsOf : List TxChunk → List ChunkData
  | [] => []
  | chunk :: chunks => endOf chunk chunks.isEmpty :: endsOf chunks

/-! ## Storing the entries -/

section

variable {ρ : Type*} {alt : ρ → ρ → Ordering} {entries entries' : GraphIndex → Entry ρ}
  {rows : List (GraphIndex × ChunkEntry)} {linIdx : ℕ} {tx : GraphIndex}

theorem chunkOrder_congr (refs : ∀ i, (entries i).ref = (entries' i).ref) {a b : ChunkData}
    (same_a : entries a.graphIndex = entries' a.graphIndex)
    (same_b : entries b.graphIndex = entries' b.graphIndex) :
    chunkOrder alt entries a b = chunkOrder alt entries' a b := by
  simp only [chunkOrder, compareMainTransactions, same_a, same_b, refs]

/-- The transactions of chunks, each with the data of its chunk. -/
def rowsOf (chunks : List TxChunk) : List (GraphIndex × ChunkEntry) :=
  chunks.flatMap fun chunk => chunk.txs.map (·, chunk.data)

theorem fst_rowsOf (chunks : List TxChunk) :
    (rowsOf chunks).map Prod.fst = chunks.flatMap TxChunk.txs := by
  simp [rowsOf, map_flatMap, comp_def]

/-- Store the data of transactions that stand in the linearization from a position on. -/
def storeRows (linIdx : ℕ) (rows : List (GraphIndex × ChunkEntry)) :
    (GraphIndex → Entry ρ) → GraphIndex → Entry ρ :=
  changeAll ((rows.zipIdx linIdx).map fun row => (row.1.1, (Entry.stored · row.1.2 row.2)))

theorem storeRows_append (front back : List (GraphIndex × ChunkEntry)) :
    storeRows linIdx (front ++ back) entries =
      storeRows (linIdx + front.length) back (storeRows linIdx front entries) := by
  rw [storeRows, zipIdx_append, map_append, changeAll_append]
  rfl

theorem storeRows_frame {α : Type*} (field : Entry ρ → α)
    (kept : ∀ entry data linIdx, field (Entry.stored entry data linIdx) = field entry)
    (linIdx : ℕ) (rows : List (GraphIndex × ChunkEntry)) (entries : GraphIndex → Entry ρ)
    (tx : GraphIndex) : field (storeRows linIdx rows entries tx) = field (entries tx) :=
  changeAll_frame field (forall_mem_map.mpr fun row _ entry => kept entry row.1.2 row.2) entries tx

theorem fst_storeRows (linIdx : ℕ) (rows : List (GraphIndex × ChunkEntry)) :
    ((rows.zipIdx linIdx).map fun row =>
      (row.1.1, fun entry : Entry ρ => entry.stored row.1.2 row.2)).map Prod.fst =
      rows.map Prod.fst := by
  conv_rhs => rw [← zipIdx_map_fst linIdx rows, map_map]
  rw [map_map]
  rfl

theorem storeRows_of_notMem (absent : tx ∉ rows.map Prod.fst) :
    storeRows linIdx rows entries tx = entries tx :=
  changeAll_of_notMem (by rwa [fst_storeRows])

theorem storeRows_getElem (distinct : (rows.map Prod.fst).Nodup) {k : ℕ} {data : ChunkEntry}
    (here : rows[k]? = some (tx, data)) :
    storeRows linIdx rows entries tx = (entries tx).stored data (linIdx + k) := by
  have mem : (tx, fun entry : Entry ρ => entry.stored data (linIdx + k)) ∈
      (rows.zipIdx linIdx).map fun row => (row.1.1, (Entry.stored · row.1.2 row.2)) :=
    mem_map.mpr ⟨((tx, data), linIdx + k), mk_add_mem_zipIdx_iff_getElem?.mpr here, rfl⟩
  exact changeAll_of_mem (by rwa [fst_storeRows]) mem

end

namespace GenericClusterImpl

variable {ρ : Type*} (alt : ρ → ρ → Ordering) (cluster : GenericClusterImpl)

def transactions : List GraphIndex := cluster.linearization.map cluster.mapping

noncomputable def chunkGroups : List (List ℕ) :=
  chunks (weigh cluster.depgraph) cluster.linearization

def equalAfter (equalFeerate : FeeFrac) (group : List ℕ) : FeeFrac :=
  addEqualFeerate equalFeerate (feeRateOfList cluster.depgraph group)

def chunkOf (refs : GraphIndex → ρ) (equalFeerate : FeeFrac) (group : List ℕ) : TxChunk where
  txs := group.map cluster.mapping
  data := ⟨feeRateOfList cluster.depgraph group, (cluster.equalAfter equalFeerate group).size,
    cluster.maxElement alt refs group.toFinset⟩

/-- The chunks with their data, after chunks with the given sum of equal feerates. -/
def chunksFrom (refs : GraphIndex → ρ) : FeeFrac → List (List ℕ) → List TxChunk
  | _, [] => []
  | equalFeerate, group :: groups =>
    cluster.chunkOf alt refs equalFeerate group ::
      chunksFrom refs (cluster.equalAfter equalFeerate group) groups

noncomputable def txChunks (refs : GraphIndex → ρ) : List TxChunk :=
  cluster.chunksFrom alt refs 0 cluster.chunkGroups

/-- A cluster in good order: its linearization is topological, the sizes are positive, and
positions stand for different transactions. -/
structure Valid : Prop where
  topological : cluster.depgraph.Topological cluster.linearization
  sizes_pos : ∀ i ∈ cluster.depgraph.positions, 0 < (cluster.depgraph.feeRate i).size
  mapping_inj : Set.InjOn cluster.mapping cluster.depgraph.positions

/-! ## The loops -/

section

variable {cluster} {alt} {refs : GraphIndex → ρ} {group : List ℕ} {groups : List (List ℕ)}

theorem txs_chunksFrom (equalFeerate : FeeFrac) (groups : List (List ℕ)) :
    (cluster.chunksFrom alt refs equalFeerate groups).flatMap TxChunk.txs =
      groups.flatten.map cluster.mapping := by
  induction groups generalizing equalFeerate with
  | nil => rfl
  | cons group groups ih => rw [chunksFrom, flatMap_cons, ih, flatten_cons, map_append, chunkOf]

theorem storeTransactions_eq (data : ChunkEntry) (chunkCount : Option ℕ)
    (ne : group ≠ []) (nodup : group.Nodup) (rest : List ℕ) (linIdx : ℕ) (graph : TxGraphImpl ρ) :
    cluster.storeTransactions alt false data chunkCount group.toFinset (group ++ rest) linIdx graph =
      (TxGraphImpl.createChunkData alt { graph with
          entries := storeRows linIdx (group.map fun idx => (cluster.mapping idx, data)) graph.entries }
          (cluster.mapping (group.getLastD 0)) chunkCount,
        rest, linIdx + group.length) := by
  induction group generalizing linIdx graph with
  | nil => exact absurd rfl ne
  | cons idx group ih =>
    rw [nodup_cons] at nodup
    have left : (idx :: group).toFinset.erase idx = group.toFinset := by
      rw [toFinset_cons, Finset.erase_insert (mt mem_toFinset.mp nodup.1)]
    rw [cons_append, storeTransactions, left]
    cases group with
    | nil => rfl
    | cons next group =>
      have more : (next :: group).toFinset ≠ ∅ := by simp
      have place : linIdx + 1 + (next :: group).length = linIdx + (idx :: next :: group).length := by
        simp only [length_cons]
        omega
      rw [if_neg more, ih (cons_ne_nil _ _) nodup.2, place]
      rfl

def afterChunk (alt : ρ → ρ → Ordering) (chunk : TxChunk) (final : Bool) (linIdx : ℕ)
    (graph : TxGraphImpl ρ) : TxGraphImpl ρ :=
  let stored := storeRows linIdx (rowsOf [chunk]) graph.entries
  ⟨stored, insert (chunkOrder alt stored) (endOf chunk final) graph.mainChunkindex⟩

theorem storeChunk_eq (ne : group ≠ []) (nodup : group.Nodup) (final : Bool)
    {graph : TxGraphImpl ρ} (isRefs : (fun i => (graph.entries i).ref) = refs) (rest : List ℕ)
    (linIdx : ℕ) (equalFeerate : FeeFrac) :
    cluster.storeChunk alt false (setInfoOf cluster.depgraph group) final
        ⟨graph, group ++ rest, linIdx, equalFeerate⟩ =
      ⟨afterChunk alt (cluster.chunkOf alt refs equalFeerate group) final linIdx graph, rest,
        linIdx + group.length, cluster.equalAfter equalFeerate group⟩ := by
  have count : (setInfoOf cluster.depgraph group).transactions.card = group.length :=
    toFinset_card_of_nodup nodup
  have rows : rowsOf [cluster.chunkOf alt refs equalFeerate group] = group.map fun idx =>
      (cluster.mapping idx, (cluster.chunkOf alt refs equalFeerate group).data) := by
    simp [rowsOf, chunkOf, comp_def]
  have last : (group.map cluster.mapping).getLastD 0 = cluster.mapping (group.getLastD 0) := by
    rw [getLastD_eq_getLast?, getLastD_eq_getLast?, getLast?_map, getLast?_eq_some_getLast ne]
    rfl
  rw [storeChunk, count, isRefs]
  dsimp only
  rw [show (setInfoOf cluster.depgraph group).transactions = group.toFinset from rfl,
    storeTransactions_eq _ _ ne nodup, afterChunk, rows, endOf, chunkOf]
  dsimp only
  rw [last, length_map]
  rfl

/-- The loop over the chunks stores them all. The data of each chunk is created while later
chunks are not stored, and still stands where the final entries put it. -/
theorem storeChunks_eq {graph : TxGraphImpl ρ} {final : GraphIndex → Entry ρ}
    (ne : ∀ group ∈ groups, group ≠ []) (distinct : (groups.flatten.map cluster.mapping).Nodup)
    (absent : ∀ data ∈ graph.mainChunkindex,
      data.graphIndex ∉ groups.flatten.map cluster.mapping)
    (isRefs : (fun i => (graph.entries i).ref) = refs) (linIdx : ℕ) (equalFeerate : FeeFrac)
    (stored : storeRows linIdx (rowsOf (cluster.chunksFrom alt refs equalFeerate groups))
      graph.entries = final) :
    (cluster.storeChunks alt false (groups.map (setInfoOf cluster.depgraph))
        ⟨graph, groups.flatten, linIdx, equalFeerate⟩).graph =
      ⟨final, insertAll (chunkOrder alt final)
        (endsOf (cluster.chunksFrom alt refs equalFeerate groups)) graph.mainChunkindex⟩ := by
  induction groups generalizing graph linIdx equalFeerate with
  | nil =>
    subst stored
    rfl
  | cons group groups ih =>
    obtain ⟨group_ne, groups_ne⟩ := forall_mem_cons.mp ne
    rw [flatten_cons, map_append, nodup_append] at distinct
    rw [flatten_cons, map_append] at absent
    rw [map_cons, storeChunks, flatten_cons,
      storeChunk_eq group_ne (Nodup.of_map _ distinct.1) _ isRefs, isEmpty_map]
    generalize isChunk : cluster.chunkOf alt refs equalFeerate group = chunk
    have txs : chunk.txs = group.map cluster.mapping := isChunk ▸ rfl
    have end_mem : (endOf chunk groups.isEmpty).graphIndex ∈ group.map cluster.mapping := by
      rw [endOf, txs, getLastD_eq_getLast?,
        getLast?_eq_some_getLast (mt map_eq_nil_iff.mp group_ne)]
      exact getLast_mem _
    have end_notLater : (endOf chunk groups.isEmpty).graphIndex ∉
        groups.flatten.map cluster.mapping := fun in_later => distinct.2.2 _ end_mem _ in_later rfl
    have stored_later : storeRows (linIdx + group.length)
        (rowsOf (cluster.chunksFrom alt refs (cluster.equalAfter equalFeerate group) groups))
        (storeRows linIdx (rowsOf [chunk]) graph.entries) = final := by
      have length : group.length = (rowsOf [chunk]).length := by simp [rowsOf, txs]
      rw [length, ← storeRows_append, ← stored, chunksFrom, isChunk, rowsOf, rowsOf, rowsOf,
        flatMap_singleton, flatMap_cons]
    have refs_kept : (fun i => (storeRows linIdx (rowsOf [chunk]) graph.entries i).ref) = refs := by
      rw [← isRefs]
      exact funext (storeRows_frame Entry.ref (fun _ _ _ => rfl) _ _ _)
    rw [ih groups_ne distinct.2.1 ?absent_later refs_kept _ _ stored_later, chunksFrom, endsOf, isChunk]
    case absent_later =>
      intro data mem
      rcases mem_of_mem_insert mem with rfl | old
      · exact end_notLater
      · exact fun in_later => absent data old (mem_append_right _ in_later)
    have settled : ∀ i ∉ groups.flatten.map cluster.mapping,
        storeRows linIdx (rowsOf [chunk]) graph.entries i = final i := by
      intro i notLater
      rw [← stored_later]
      exact (storeRows_of_notMem (by rwa [fst_rowsOf, txs_chunksFrom])).symm
    have refs_final : ∀ i, (storeRows linIdx (rowsOf [chunk]) graph.entries i).ref =
        (final i).ref := by
      intro i
      rw [← stored_later]
      exact (storeRows_frame Entry.ref (fun _ _ _ => rfl) _ _ _ i).symm
    have isEmpty : (cluster.chunksFrom alt refs (cluster.equalAfter equalFeerate group)
        groups).isEmpty = groups.isEmpty := by cases groups <;> rfl
    rw [isEmpty]
    refine congrArg (TxGraphImpl.mk final) (congrArg (insertAll _ _) (insert_congr fun other mem => ?_))
    have other_settled := settled other.graphIndex
      fun in_later => absent other mem (mem_append_right _ in_later)
    exact ⟨chunkOrder_congr refs_final other_settled (settled _ end_notLater),
      chunkOrder_congr refs_final (settled _ end_notLater) other_settled⟩

theorem foldl_locateOne (order : List ℕ) (graph : TxGraphImpl ρ) :
    order.foldl (cluster.locateOne 0 false) graph =
      ⟨changeAll (order.map fun idx =>
          (cluster.mapping idx, (Entry.located · 0 cluster.sequence idx))) graph.entries,
        graph.mainChunkindex.filter (·.graphIndex ∉ order.map cluster.mapping)⟩ := by
  induction order generalizing graph with
  | nil => simp [changeAll]
  | cons idx order ih =>
    rw [foldl_cons, ih, locateOne, if_pos ⟨rfl, rfl⟩, TxGraphImpl.setEntry,
      TxGraphImpl.clearChunkData, filter_filter]
    refine congrArg (TxGraphImpl.mk _) (filter_congr fun data _ => ?_)
    simp only [map_cons, mem_cons, not_or, Bool.decide_and, Bool.and_comm]

end

/-! ## A valid cluster -/

section

variable {cluster} {alt} {graph : TxGraphImpl ρ} (valid : cluster.Valid)
include valid

theorem Valid.sizes_of_mem : ∀ i ∈ cluster.linearization, 0 < (cluster.depgraph.feeRate i).size :=
  fun i mem => valid.sizes_pos i ((valid.topological.mem_iff i).mp mem)

theorem Valid.isChunking : IsChunking (weigh cluster.depgraph) cluster.chunkGroups ∧
      cluster.chunkGroups.flatten = cluster.linearization :=
  isChunking_chunks (wide_of_positive valid.sizes_of_mem)

theorem Valid.nodup_transactions : cluster.transactions.Nodup := by
  refine Nodup.map_on (fun i i_mem j j_mem same => ?_) valid.topological.nodup
  exact valid.mapping_inj ((valid.topological.mem_iff i).mp i_mem)
    ((valid.topological.mem_iff j).mp j_mem) same

theorem Valid.chunk_ne_nil : ∀ group ∈ cluster.chunkGroups, group ≠ [] :=
  fun group mem => (valid.isChunking.1.rising group mem).nonempty

theorem Valid.txs_txChunks (alt : ρ → ρ → Ordering) (refs : GraphIndex → ρ) :
    (cluster.txChunks alt refs).flatMap TxChunk.txs = cluster.transactions := by
  rw [txChunks, txs_chunksFrom, valid.isChunking.2, transactions]

variable (acceptable : cluster.acceptable)
include acceptable

theorem updated_eq {refs : GraphIndex → ρ} (isRefs : (fun i => (graph.entries i).ref) = refs)
    {final : GraphIndex → Entry ρ}
    (stored : storeRows 0 (rowsOf (cluster.txChunks alt refs))
      (cluster.locate 0 false graph).entries = final) :
    cluster.updated alt 0 false graph = ⟨final, insertAll (chunkOrder alt final)
        (endsOf (cluster.txChunks alt refs))
          (graph.mainChunkindex.filter (·.graphIndex ∉ cluster.transactions))⟩ := by
  have located : cluster.locate 0 false graph = _ := foldl_locateOne cluster.linearization graph
  have refs_kept : (fun i => ((cluster.locate 0 false graph).entries i).ref) = refs := by
    rw [← isRefs, located]
    exact funext (changeAll_frame Entry.ref (forall_mem_map.mpr fun _ _ _ => rfl) _)
  have absent : ∀ data ∈ (cluster.locate 0 false graph).mainChunkindex,
      data.graphIndex ∉ cluster.chunkGroups.flatten.map cluster.mapping := by
    intro data mem
    rw [located] at mem
    rw [valid.isChunking.2]
    exact of_decide_eq_true (mem_filter.mp mem).2
  have distinct : (cluster.chunkGroups.flatten.map cluster.mapping).Nodup := by
    rw [valid.isChunking.2]
    exact valid.nodup_transactions
  have walked := storeChunks_eq valid.chunk_ne_nil distinct absent refs_kept 0 0 stored
  rw [valid.isChunking.2] at walked
  rw [updated, if_pos ⟨rfl, Or.inr acceptable⟩, chunkLinearizationInfo_eq valid.sizes_of_mem]
  refine walked.trans ?_
  rw [located]
  rfl

/-- The entries after `Updated`: every transaction of the cluster has its place, its position
and the data of its chunk, and the other entries are what they were. -/
theorem updated_entries (alt : ρ → ρ → Ordering) (graph : TxGraphImpl ρ) :
    (∀ i, ((cluster.updated alt 0 false graph).entries i).ref = (graph.entries i).ref) ∧
      (∀ i ∉ cluster.transactions,
        (cluster.updated alt 0 false graph).entries i = graph.entries i) ∧
      ∀ k tx data,
        (rowsOf (cluster.txChunks alt fun i => (graph.entries i).ref))[k]? = some (tx, data) →
        ∃ idx, (cluster.updated alt 0 false graph).entries tx =
          ((graph.entries tx).located 0 cluster.sequence idx).stored data k := by
  rw [updated_eq valid acceptable rfl rfl, locate, foldl_locateOne]
  have fst := (fst_rowsOf _).trans (valid.txs_txChunks alt fun i => (graph.entries i).ref)
  have keys : (cluster.linearization.map fun idx => (cluster.mapping idx,
      fun entry : Entry ρ => entry.located 0 cluster.sequence idx)).map Prod.fst =
      cluster.transactions := map_map
  refine ⟨fun i => ?_, fun i absent => ?_, fun k tx data here => ?_⟩
  · exact (storeRows_frame Entry.ref (fun _ _ _ => rfl) _ _ _ i).trans
      (changeAll_frame Entry.ref (forall_mem_map.mpr fun _ _ _ => rfl) _ i)
  · exact (storeRows_of_notMem (fst ▸ absent)).trans (changeAll_of_notMem (keys ▸ absent))
  · have mem : tx ∈ cluster.transactions := fst ▸ mem_map_of_mem (f := Prod.fst) (mem_of_getElem? here)
    obtain ⟨idx, isIdx, rfl⟩ := mem_map.mp mem
    refine ⟨idx, (storeRows_getElem (fst ▸ valid.nodup_transactions) here).trans ?_⟩
    rw [zero_add]
    exact congrArg (Entry.stored · data k)
      (changeAll_of_mem (keys ▸ valid.nodup_transactions) (mem_map.mpr ⟨idx, isIdx, rfl⟩))

end

end GenericClusterImpl

end BitcoinCore.TxGraph
