import BitcoinCore.ClusterLinearize.Chunking
import BitcoinCore.Lib.OrderedSet

/-!
# The entries of a transaction graph and the chunk index of its main level

`TxGraphImpl` keeps an `Entry` for every transaction and an ordered set of the chunks of
its main level, each with the last transaction of the chunk. A cluster writes both in
`Updated`: it cuts its linearization into chunks, stores in the entry of every transaction
where it stands and what chunk it is in, and creates the chunk's data.

The set is ordered by `CompareMainTransactions`, which reads the entries. So the data of a
chunk must be cleared before the entries change, and created after.
-/

namespace BitcoinCore.TxGraph

open ClusterLinearize

/-- The levels are 0 and 1. -/
local instance levels_neZero : NeZero 2 := ⟨two_ne_zero⟩

abbrev GraphIndex := ℕ

/-- Where an entry appears at a level. A cluster is named by its sequence number, which no
other cluster has. -/
inductive Locator where
  | missing
  | removed
  | present (cluster : ℕ) (index : ℕ)
  deriving DecidableEq

def Locator.cluster : Locator → Option ℕ
  | .missing => none
  | .removed => none
  | .present cluster _ => some cluster

/-- What is known of a transaction: its `Ref`, its place at the main and the staging level,
and its chunk at the main level. -/
structure Entry (ρ : Type*) where
  ref : ρ
  locator : Fin 2 → Locator
  mainChunkFeerate : FeeFrac
  mainEqualFeerateChunkPrefixSize : ℤ
  mainLinIndex : ℕ
  mainMaxChunkFallback : GraphIndex

/-- A chunk of the main level: its last transaction, and how many it has. The count is
`none` where the code has -1, for a single transaction at the end of its cluster. -/
structure ChunkData where
  graphIndex : GraphIndex
  chunkCount : Option ℕ
  deriving DecidableEq

/-- The entries, and the set of chunks of the main level in its order. -/
structure TxGraphImpl (ρ : Type*) where
  entries : GraphIndex → Entry ρ
  mainChunkindex : List ChunkData

variable {ρ : Type*}

section

variable (alt : ρ → ρ → Ordering) (entries : GraphIndex → Entry ρ)

/-- Comparison of two clusters by sequence number, with the null pointer first. -/
def compareClusters : Option ℕ → Option ℕ → Ordering
  | none, none => .eq
  | none, some _ => .lt
  | some _, none => .gt
  | some a, some b => compare a b

def compareMainTransactions (a b : GraphIndex) : Ordering :=
  if a = b then .eq
  else
    let entryA := entries a
    let entryB := entries b
    match FeeFrac.feeRateCompare entryB.mainChunkFeerate entryA.mainChunkFeerate with
    | .lt => .lt
    | .gt => .gt
    | .eq =>
      if entryA.mainEqualFeerateChunkPrefixSize ≠ entryB.mainEqualFeerateChunkPrefixSize then
        compare entryA.mainEqualFeerateChunkPrefixSize entryB.mainEqualFeerateChunkPrefixSize
      else if (entryA.locator 0).cluster ≠ (entryB.locator 0).cluster then
        match alt (entries entryA.mainMaxChunkFallback).ref
            (entries entryB.mainMaxChunkFallback).ref with
        | .eq => compareClusters (entryA.locator 0).cluster (entryB.locator 0).cluster
        | ordering => ordering
      else compare entryA.mainLinIndex entryB.mainLinIndex

def chunkOrder (a b : ChunkData) : Bool :=
  compareMainTransactions alt entries a.graphIndex b.graphIndex == .lt

end

namespace TxGraphImpl

/-- Take the data of an entry's chunk out of the index, if there is any. -/
def clearChunkData (graph : TxGraphImpl ρ) (idx : GraphIndex) : TxGraphImpl ρ :=
  { graph with mainChunkindex := graph.mainChunkindex.filter fun data => data.graphIndex ≠ idx }

def createChunkData (alt : ρ → ρ → Ordering) (graph : TxGraphImpl ρ) (idx : GraphIndex)
    (chunkCount : Option ℕ) : TxGraphImpl ρ :=
  { graph with
    mainChunkindex :=
      OrderedSet.insert (chunkOrder alt graph.entries) ⟨idx, chunkCount⟩
        graph.mainChunkindex }

def setEntry (graph : TxGraphImpl ρ) (idx : GraphIndex) (entry : Entry ρ) : TxGraphImpl ρ :=
  { graph with entries := Function.update graph.entries idx entry }

end TxGraphImpl

/-- A cluster of several transactions: `mapping` gives the transaction at a position of the
`depgraph`. -/
structure GenericClusterImpl where
  sequence : ℕ
  acceptable : Bool
  depgraph : DepGraph
  mapping : ℕ → GraphIndex
  linearization : List ℕ

structure SingletonClusterImpl where
  sequence : ℕ
  acceptable : Bool
  graphIndex : Option GraphIndex
  feerate : FeeFrac

inductive Cluster where
  | generic (impl : GenericClusterImpl)
  | singleton (impl : SingletonClusterImpl)

structure ChunkEntry where
  chunkFeerate : FeeFrac
  equalFeerateChunkPrefixSize : ℤ
  maxChunkFallback : GraphIndex

def Entry.stored {ρ : Type*} (entry : Entry ρ) (data : ChunkEntry) (linIdx : ℕ) : Entry ρ :=
  { entry with
    mainLinIndex := linIdx
    mainChunkFeerate := data.chunkFeerate
    mainEqualFeerateChunkPrefixSize := data.equalFeerateChunkPrefixSize
    mainMaxChunkFallback := data.maxChunkFallback }

def Entry.located {ρ : Type*} (entry : Entry ρ) (level : Fin 2) (sequence index : ℕ) : Entry ρ :=
  { entry with locator := Function.update entry.locator level (.present sequence index) }

/-- The sum of the chunk feerates that are equal to that of the last chunk, with one more
chunk: it starts over when the feerate gets lower. -/
def addEqualFeerate (equalFeerate feerate : FeeFrac) : FeeFrac :=
  if feerate.lower equalFeerate then feerate else equalFeerate + feerate

/-- Where the walk of `Updated` over the chunks stands: the linearization that is left, its
position, and the sum of the equal feerates. -/
structure ChunkWalk (ρ : Type*) where
  graph : TxGraphImpl ρ
  rest : List ℕ
  linIdx : ℕ
  equalFeerate : FeeFrac

namespace GenericClusterImpl

variable (alt : ρ → ρ → Ordering) (cluster : GenericClusterImpl)

/-- The transaction of a set that is greatest in the fallback order, among equal ones the
first. -/
def maxElement (refs : GraphIndex → ρ) (txs : Finset ℕ) : GraphIndex :=
  match txs.sort with
  | [] => 0
  | first :: others =>
    others.foldl (fun best idx =>
      if alt (refs (cluster.mapping idx)) (refs best) = .gt then cluster.mapping idx
      else best) (cluster.mapping first)

/-- The inner loop of `Updated`: store the data of one chunk in the next entries of the
linearization, until all transactions of the chunk are met, and then create its data. -/
def storeTransactions (rename : Bool) (data : ChunkEntry) (chunkCount : Option ℕ) :
    Finset ℕ → List ℕ → ℕ → TxGraphImpl ρ → TxGraphImpl ρ × List ℕ × ℕ
  | _, [], linIdx, graph => (graph, [], linIdx)
  | txs, idx :: rest, linIdx, graph =>
    let graphIdx := cluster.mapping idx
    let stored := graph.setEntry graphIdx ((graph.entries graphIdx).stored data linIdx)
    if txs.erase idx = ∅ then
      (if rename then stored else stored.createChunkData alt graphIdx chunkCount, rest, linIdx + 1)
    else storeTransactions rename data chunkCount (txs.erase idx) rest (linIdx + 1) stored

def storeChunk (rename : Bool) (chunk : SetInfo) (final : Bool) (walk : ChunkWalk ρ) : ChunkWalk ρ :=
  let equalFeerate := addEqualFeerate walk.equalFeerate chunk.feerate
  let maxElement := cluster.maxElement alt (fun idx => (walk.graph.entries idx).ref)
    chunk.transactions
  let chunkCount :=
    if chunk.transactions.card = 1 ∧ final = true then none else some chunk.transactions.card
  let res := cluster.storeTransactions alt rename
    ⟨chunk.feerate, equalFeerate.size, maxElement⟩ chunkCount chunk.transactions walk.rest walk.linIdx
    walk.graph
  ⟨res.1, res.2.1, res.2.2, equalFeerate⟩

/-- The loop over the chunks; the last one is the final chunk of the cluster. -/
def storeChunks (rename : Bool) : List SetInfo → ChunkWalk ρ → ChunkWalk ρ
  | [], walk => walk
  | chunk :: chunking, walk =>
    storeChunks rename chunking (cluster.storeChunk alt rename chunk chunking.isEmpty walk)

/-- One iteration of the first loop of `Updated`: discard the chunk data and set the
locator. -/
def locateOne (level : Fin 2) (rename : Bool) (graph : TxGraphImpl ρ) (idx : ℕ) : TxGraphImpl ρ :=
  let graphIdx := cluster.mapping idx
  let cleared := if level = 0 ∧ rename = false then graph.clearChunkData graphIdx else graph
  cleared.setEntry graphIdx ((cleared.entries graphIdx).located level cluster.sequence idx)

def locate (level : Fin 2) (rename : Bool) (graph : TxGraphImpl ρ) : TxGraphImpl ρ :=
  cluster.linearization.foldl (cluster.locateOne level rename) graph

/-- `Updated`: what the graph knows of the cluster, after it changed. -/
def updated (level : Fin 2) (rename : Bool) (graph : TxGraphImpl ρ) : TxGraphImpl ρ :=
  let located := cluster.locate level rename graph
  if level = 0 ∧ (rename = true ∨ cluster.acceptable = true) then
    (cluster.storeChunks alt rename (chunkLinearizationInfo cluster.depgraph cluster.linearization)
      ⟨located, cluster.linearization, 0, 0⟩).graph
  else located

end GenericClusterImpl

namespace SingletonClusterImpl

variable (alt : ρ → ρ → Ordering) (cluster : SingletonClusterImpl)

def updated (level : Fin 2) (rename : Bool) (graph : TxGraphImpl ρ) : TxGraphImpl ρ :=
  match cluster.graphIndex with
  | none => graph
  | some graphIdx =>
    let cleared := if level = 0 ∧ rename = false then graph.clearChunkData graphIdx else graph
    let located := cleared.setEntry graphIdx
      ((cleared.entries graphIdx).located level cluster.sequence 0)
    if level = 0 ∧ (rename = true ∨ cluster.acceptable = true) then
      let stored := located.setEntry graphIdx ((located.entries graphIdx).stored
        ⟨cluster.feerate, cluster.feerate.size, graphIdx⟩ 0)
      if rename then stored else stored.createChunkData alt graphIdx none
    else located

end SingletonClusterImpl

namespace Cluster

def sequence : Cluster → ℕ
  | .generic impl => impl.sequence
  | .singleton impl => impl.sequence

def updated (alt : ρ → ρ → Ordering) (cluster : Cluster) (level : Fin 2) (rename : Bool)
    (graph : TxGraphImpl ρ) : TxGraphImpl ρ :=
  match cluster with
  | .generic impl => impl.updated alt level rename graph
  | .singleton impl => impl.updated alt level rename graph

end Cluster

end BitcoinCore.TxGraph
