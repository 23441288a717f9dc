import BitcoinCore.Lib.MinElement
import BitcoinCore.Node.TxOrphanage
import BitcoinCore.Primitives.Transaction

/-!
# Bump fees

The mini miner takes ancestor sets of mempool transactions into a mock block, the best one
first, as long as they meet a target feerate. Outputs of transactions in the mock block need
no bump fee; for the others it brings the transaction to the target, alone and with its
ancestors.

The best entry has the highest minimum of its own feerate and that of its ancestor set, but
only the latter is compared with the target. As long as some entry meets the target both ways,
the best one does. After that an entry can be taken that does not meet the target alone, and
then gets no bump fee (`calculateBumpFees_covers_iff`).
-/

namespace BitcoinCore

open List

abbrev CFeeRate := FeeFrac

/-- The fee for a size, rounded up. -/
def CFeeRate.getFee (rate : CFeeRate) (virtualBytes : ℤ) : ℤ :=
  if rate.size = 0 then 0
  else
    let nFee := -(-FeeFrac.mul rate.fee virtualBytes / rate.size)
    if nFee = 0 ∧ virtualBytes ≠ 0 ∧ rate.fee < 0 then -1 else nFee

namespace Node

open Serialize Chain
open MinElement
open Orphanage (less)

/-- A transaction, with the transactions that it spends outputs of. -/
structure MiniMinerMempoolEntry where
  txid : Uint256
  vin : List Uint256
  txSize : ℤ
  modifiedFee : ℤ
  sizeWithAncestors : ℤ
  modFeesWithAncestors : ℤ

namespace MiniMinerMempoolEntry

variable (entry : MiniMinerMempoolEntry)

/-- Change the sums over the ancestor set. -/
def updateAncestorState (vsizeChange feeChange : ℤ) : MiniMinerMempoolEntry :=
  { entry with
    sizeWithAncestors := entry.sizeWithAncestors + vsizeChange
    modFeesWithAncestors := entry.modFeesWithAncestors + feeChange }

/-- The lower one of the own feerate and that of the ancestor set. -/
def minFeerate : FeeFrac :=
  let selfFeerate : FeeFrac := ⟨entry.modifiedFee, entry.txSize⟩
  let ancestorFeerate : FeeFrac := ⟨entry.modFeesWithAncestors, entry.sizeWithAncestors⟩
  if less selfFeerate ancestorFeerate then selfFeerate else ancestorFeerate

/-- Whether an entry is sorted before another. -/
def ancestorFeerateComparator (a b : MiniMinerMempoolEntry) : Bool :=
  if a.minFeerate ≠ b.minFeerate then less b.minFeerate a.minFeerate
  else writeUint256 a.txid < writeUint256 b.txid

/-- What no step changes. -/
def identity : Uint256 × List Uint256 × ℤ × ℤ :=
  (entry.txid, entry.vin, entry.txSize, entry.modifiedFee)

/-- The own fee meets a target. -/
def MeetsAlone (target : CFeeRate) : Prop := target.getFee entry.txSize ≤ entry.modifiedFee

/-- The fee of the ancestor set meets a target. -/
def MeetsWithAncestors (target : CFeeRate) : Prop :=
  target.getFee entry.sizeWithAncestors ≤ entry.modFeesWithAncestors

instance (target : CFeeRate) : Decidable (entry.MeetsAlone target) :=
  inferInstanceAs (Decidable (_ ≤ _))

/-- The fee that is missing, alone and with ancestors. -/
def bumpFee (target : CFeeRate) : ℤ :=
  max (target.getFee entry.sizeWithAncestors - entry.modFeesWithAncestors)
    (target.getFee entry.txSize - entry.modifiedFee)

end MiniMinerMempoolEntry

open MiniMinerMempoolEntry

structure MiniMiner where
  readyToCalculate : Bool
  requestedOutpoints : List COutPoint
  /-- In the order in which they are put into the map, which keeps the first one of a key. -/
  bumpFees : List (COutPoint × ℤ)
  inBlock : List Uint256
  entries : List MiniMinerMempoolEntry
  /-- The descendants of a transaction, itself included. -/
  descendantSetByTxid : Uint256 → List Uint256

namespace MiniMiner

variable (target : CFeeRate) (miner : MiniMiner)

/-- The inputs of the entry of a transaction. -/
def vinOf (txid : Uint256) : List Uint256 :=
  (miner.entries.find? (·.txid = txid)).elim [] (·.vin)

/-- The loop that collects ancestors, with a bound on its rounds. A list without duplicates
stands for a set; the order in which a set is gone through does not matter. -/
def ancestorsLoop : ℕ → List Uint256 → List Uint256 → List Uint256
  | fuel + 1, txid :: toProcess, ancs =>
    let ancs := txid :: ancs
    let parents := (miner.vinOf txid).filter fun parent =>
      parent ∈ miner.entries.map (·.txid) && parent ∉ ancs
    ancestorsLoop fuel (parents ∪ toProcess) ancs
  | _, _, ancs => ancs

/-- The ancestor set of an entry. -/
def ancestors (best : MiniMinerMempoolEntry) : List Uint256 :=
  miner.ancestorsLoop miner.entries.length [best.txid] []

/-- Take an ancestor set into the block, and take it out of the sums of its descendants. -/
def deleteAncestorPackage (ancs : List Uint256) : MiniMiner :=
  let mined := miner.entries.filter (·.txid ∈ ancs)
  { miner with
    inBlock := ancs ++ miner.inBlock
    entries := (miner.entries.filter (·.txid ∉ ancs)).map fun entry =>
      mined.foldl (fun entry anc =>
        if entry.txid ∈ miner.descendantSetByTxid anc.txid then
          entry.updateAncestorState (-anc.txSize) (-anc.modifiedFee)
        else entry) entry }

/-- The first entry after sorting, unless its ancestor set does not meet the target. -/
def bestEntry : Option MiniMinerMempoolEntry :=
  match miner.entries with
  | [] => none
  | first :: rest =>
    let best := minElement ancestorFeerateComparator first rest
    if best.modFeesWithAncestors < target.getFee best.sizeWithAncestors then none else some best

/-- The loop of `BuildMockTemplate`, with the entries whose ancestor sets it takes. It goes on
as long as an entry is selected. -/
def templateLoop (select : MiniMiner → Option MiniMinerMempoolEntry) :
    ℕ → MiniMiner → MiniMiner × List MiniMinerMempoolEntry
  | 0, miner => (miner, [])
  | fuel + 1, miner =>
    match select miner with
    | none => (miner, [])
    | some best =>
      let later := templateLoop select fuel (miner.deleteAncestorPackage (miner.ancestors best))
      (later.1, best :: later.2)

def buildMockTemplate : MiniMiner × List MiniMinerMempoolEntry :=
  templateLoop (bestEntry target) miner.entries.length miner

/-- The best entry if it meets the target both ways. -/
def strictEntry : Option MiniMinerMempoolEntry :=
  (miner.bestEntry target).filter (·.MeetsAlone target)

/-- The template that `CalculateBumpFees` relies on. -/
def strictTemplate : MiniMiner × List MiniMinerMempoolEntry :=
  templateLoop (strictEntry target) miner.entries.length miner

/-- The bump fees of the requested outputs. -/
def calculateBumpFees : List (COutPoint × ℤ) :=
  if miner.readyToCalculate then
    let template := (miner.buildMockTemplate target).1
    miner.bumpFees ++
      (miner.requestedOutpoints.filter (·.hash ∈ template.inBlock)).map (·, (0 : ℤ)) ++
      (miner.requestedOutpoints.filter (·.hash ∉ template.inBlock)).filterMap fun point =>
        (template.entries.find? (·.txid = point.hash)).map fun entry =>
          (point, entry.bumpFee target)
  else []

/-- The size of the entries that have a transaction among their descendants. -/
def ancestorSize (txid : Uint256) : ℤ :=
  (miner.entries.map fun anc =>
    if txid ∈ miner.descendantSetByTxid anc.txid then anc.txSize else 0).sum

/-- What the constructors provide. A transaction is among its own descendants. -/
structure Cached : Prop where
  txSize_pos : ∀ entry ∈ miner.entries, 0 < entry.txSize
  descendant_self : ∀ entry ∈ miner.entries, entry.txid ∈ miner.descendantSetByTxid entry.txid
  sizeWithAncestors_eq : ∀ entry ∈ miner.entries,
    entry.sizeWithAncestors = miner.ancestorSize entry.txid

variable {target miner} {best : MiniMinerMempoolEntry}

/-! ## Ancestor sets -/

/-- What holds while ancestors are collected: parents are collected or still to be processed,
and nothing gets there but the entry itself and what entries spend. -/
structure Collecting (best : MiniMinerMempoolEntry) (toProcess ancs : List Uint256) : Prop where
  nodup : (ancs ++ toProcess).Nodup
  known : ancs ++ toProcess ⊆ miner.entries.map (·.txid)
  best_mem : best.txid ∈ ancs ++ toProcess
  closed : ∀ txid ∈ ancs, ∀ parent ∈ miner.vinOf txid, parent ∈ miner.entries.map (·.txid) →
    parent ∈ ancs ++ toProcess
  origin : ∀ txid ∈ ancs ++ toProcess, txid = best.txid ∨ ∃ entry ∈ miner.entries, txid ∈ entry.vin

theorem mem_vin_of_mem_vinOf {txid parent : Uint256} (isIn : parent ∈ miner.vinOf txid) :
    ∃ entry ∈ miner.entries, parent ∈ entry.vin := by
  rw [vinOf] at isIn
  cases isFound : miner.entries.find? (·.txid = txid) with
  | none => simp [isFound] at isIn
  | some entry => exact ⟨entry, mem_of_find?_eq_some isFound, by simpa [isFound] using isIn⟩

theorem Collecting.round {first : Uint256} {toProcess ancs : List Uint256}
    (collecting : miner.Collecting best (first :: toProcess) ancs) :
    miner.Collecting best ((miner.vinOf first).filter (fun parent =>
      parent ∈ miner.entries.map (·.txid) && parent ∉ first :: ancs) ∪ toProcess)
      (first :: ancs) := by
  have mem_iff (txid : Uint256) : txid ∈ first :: ancs ++ ((miner.vinOf first).filter (fun parent =>
      parent ∈ miner.entries.map (·.txid) && parent ∉ first :: ancs) ∪ toProcess) ↔
      txid ∈ ancs ++ first :: toProcess ∨
        txid ∈ miner.vinOf first ∧ txid ∈ miner.entries.map (·.txid) := by
    simp only [mem_append, mem_cons, mem_union_iff, mem_filter, Bool.and_eq_true, decide_eq_true_eq]
    tauto
  have nodup := collecting.nodup
  rw [nodup_middle, nodup_cons, nodup_append] at nodup
  refine ⟨?_, ?_, (mem_iff _).mpr (.inl collecting.best_mem), ?_, ?_⟩
  · rw [cons_append, nodup_cons, nodup_append]
    refine ⟨?_, nodup.2.1, nodup.2.2.1.union _, ?_⟩ <;> grind
  · exact fun txid isIn => ((mem_iff txid).mp isIn).elim (collecting.known ·) And.right
  · intro txid isIn parent isParent isKnown
    rw [mem_iff]
    rcases mem_cons.mp isIn with rfl | isIn
    · exact .inr ⟨isParent, isKnown⟩
    · exact .inl (collecting.closed txid isIn parent isParent isKnown)
  · exact fun txid isIn => ((mem_iff txid).mp isIn).elim (collecting.origin txid)
      fun isParent => .inr (mem_vin_of_mem_vinOf isParent.1)

/-- The loop is not cut short: every round adds another entry. -/
theorem Collecting.ancestorsLoop {fuel : ℕ} {toProcess ancs : List Uint256}
    (collecting : miner.Collecting best toProcess ancs)
    (enough : miner.entries.length ≤ fuel + ancs.length) :
    miner.Collecting best [] (miner.ancestorsLoop fuel toProcess ancs) := by
  induction fuel generalizing toProcess ancs with
  | zero =>
    have most := (subperm_of_subset collecting.nodup collecting.known).length_le
    rw [length_append, length_map] at most
    obtain rfl : toProcess = [] := length_eq_zero_iff.mp (by omega)
    exact collecting
  | succ fuel ih =>
    cases toProcess with
    | nil => exact collecting
    | cons first toProcess => exact ih collecting.round (by rw [length_cons]; omega)

theorem collecting_ancestors (isIn : best ∈ miner.entries) :
    miner.Collecting best [] (miner.ancestors best) :=
  Collecting.ancestorsLoop ⟨nodup_singleton _, by simpa using ⟨best, isIn, rfl⟩,
    mem_singleton_self _, by simp, by simp⟩ (Nat.le_add_right _ _)

theorem mem_ancestors (isIn : best ∈ miner.entries) : best.txid ∈ miner.ancestors best := by
  simpa using (collecting_ancestors isIn).best_mem

theorem bestEntry_eq_some (isBest : miner.bestEntry target = some best) :
    best ∈ miner.entries ∧ best.MeetsWithAncestors target := by
  rw [bestEntry] at isBest
  split at isBest
  case h_1 => cases isBest
  case h_2 first rest isEntries =>
    obtain ⟨meets, isSome⟩ := Option.ite_none_left_eq_some.mp isBest
    cases isSome
    rw [isEntries]
    exact ⟨minElement_mem _ first rest, not_lt.mp meets⟩

/-! ## Ranking -/

section

variable (nonneg : 0 ≤ target.fee) (sized : 0 ≤ target.size)

include nonneg

theorem getFee_le_iff (pos : 0 < target.size) {size fee : ℤ} :
    target.getFee size ≤ fee ↔ target.fee * size ≤ fee * target.size := by
  rw [CFeeRate.getFee, if_neg pos.ne', FeeFrac.mul]
  dsimp only
  rw [if_neg fun below => below.2.2.not_ge nonneg, neg_le, Int.le_ediv_iff_mul_le pos, neg_mul,
    neg_le_neg_iff]

include sized

/-- A higher feerate meets the target too. -/
theorem getFee_le_of_feerate_le {low high : FeeFrac} (low_pos : 0 < low.size)
    (high_pos : 0 < high.size) (le : low.fee * high.size ≤ high.fee * low.size)
    (meets : target.getFee low.size ≤ low.fee) : target.getFee high.size ≤ high.fee := by
  rcases sized.eq_or_lt with isZero | pos
  · rw [CFeeRate.getFee, if_pos isZero.symm] at meets ⊢
    exact nonneg_of_mul_nonneg_left ((mul_nonneg meets high_pos.le).trans le) low_pos
  · rw [getFee_le_iff nonneg pos] at meets ⊢
    refine le_of_mul_le_mul_right ?_ low_pos
    calc target.fee * high.size * low.size
        = target.fee * low.size * high.size := by ring
      _ ≤ low.fee * target.size * high.size := mul_le_mul_of_nonneg_right meets high_pos.le
      _ = low.fee * high.size * target.size := by ring
      _ ≤ high.fee * low.size * target.size := mul_le_mul_of_nonneg_right le pos.le
      _ = high.fee * target.size * low.size := by ring

/-- Whether a fee meets the target follows the order of feerates. -/
theorem getFee_le_of_less {a b : FeeFrac} (a_pos : 0 < a.size) (b_pos : 0 < b.size) :
    if less a b then target.getFee a.size ≤ a.fee → target.getFee b.size ≤ b.fee
    else target.getFee b.size ≤ b.fee → target.getFee a.size ≤ a.fee := by
  have up := getFee_le_of_feerate_le nonneg sized a_pos b_pos
  have down := getFee_le_of_feerate_le nonneg sized b_pos a_pos
  by_cases same : a.fee * b.size = b.fee * a.size
  · split_ifs
    · exact up same.le
    · exact down same.ge
  · have isLess : less a b = decide (a.fee * b.size < b.fee * a.size) := if_neg same
    rw [isLess]
    split_ifs with lower
    · exact up (of_decide_eq_true lower).le
    · exact down (not_lt.mp (by simpa using lower))

/-- The ranking compares by the lower one of two feerates, which meets the target exactly if
both do. -/
theorem minFeerate_meets_iff (own_pos : 0 < best.txSize) (pos : 0 < best.sizeWithAncestors) :
    0 < best.minFeerate.size ∧ (target.getFee best.minFeerate.size ≤ best.minFeerate.fee ↔
      best.MeetsAlone target ∧ best.MeetsWithAncestors target) := by
  have order := @getFee_le_of_less target nonneg sized ⟨best.modifiedFee, best.txSize⟩
    ⟨best.modFeesWithAncestors, best.sizeWithAncestors⟩ own_pos pos
  rw [minFeerate]
  split_ifs at order ⊢
  · exact ⟨own_pos, fun meets => ⟨meets, order meets⟩, And.left⟩
  · exact ⟨pos, fun meets => ⟨order meets, meets⟩, And.right⟩

/-- As long as an entry meets the target both ways, the best one does. -/
theorem bestEntry_of_meets
    (positive : ∀ entry ∈ miner.entries, 0 < entry.txSize ∧ 0 < entry.sizeWithAncestors)
    {entry : MiniMinerMempoolEntry} (isIn : entry ∈ miner.entries)
    (alone : entry.MeetsAlone target) (withAncestors : entry.MeetsWithAncestors target) :
    ∃ best, miner.bestEntry target = some best ∧ best.MeetsAlone target := by
  rw [bestEntry]
  cases isEntries : miner.entries with
  | nil => simp [isEntries] at isIn
  | cons first rest =>
    rw [isEntries] at isIn positive
    have both : (minElement ancestorFeerateComparator first rest).MeetsAlone target ∧ _ :=
      minElement_of_mem (P := fun entry => entry.MeetsAlone target ∧ entry.MeetsWithAncestors target)
        ?_ isIn ⟨alone, withAncestors⟩
    · exact ⟨_, if_neg (not_lt.mpr both.2), both.1⟩
    intro x isX y isY
    have ⟨x_pos, x_iff⟩ := minFeerate_meets_iff nonneg sized (positive x isX).1 (positive x isX).2
    have ⟨y_pos, y_iff⟩ := minFeerate_meets_iff nonneg sized (positive y isY).1 (positive y isY).2
    rw [← x_iff, ← y_iff, ancestorFeerateComparator]
    by_cases same : x.minFeerate = y.minFeerate
    · rw [same]
      split_ifs <;> exact id
    · rw [if_pos same]
      exact getFee_le_of_less nonneg sized y_pos x_pos

end

/-! ## One round -/

/-- What entries lose that have ancestors in the block. -/
theorem foldl_updateAncestorState (entry : MiniMinerMempoolEntry)
    (mined : List MiniMinerMempoolEntry) :
    let later := mined.foldl (fun entry anc =>
      if entry.txid ∈ miner.descendantSetByTxid anc.txid then
        entry.updateAncestorState (-anc.txSize) (-anc.modifiedFee)
      else entry) entry
    later.identity = entry.identity ∧ later.sizeWithAncestors = entry.sizeWithAncestors -
      (mined.map fun anc =>
        if entry.txid ∈ miner.descendantSetByTxid anc.txid then anc.txSize else 0).sum := by
  intro later
  induction mined generalizing entry with
  | nil => exact ⟨rfl, (sub_zero _).symm⟩
  | cons anc mined ih =>
    obtain ⟨same, size⟩ := ih (if entry.txid ∈ miner.descendantSetByTxid anc.txid then
      entry.updateAncestorState (-anc.txSize) (-anc.modifiedFee) else entry)
    rw [map_cons, sum_cons, ← sub_sub]
    refine ⟨same.trans ?_, size.trans ?_⟩
    · split_ifs <;> rfl
    · split_ifs
      · rfl
      · rw [sub_zero]

/-- Entries that are not deleted keep their inputs, size and fee. -/
theorem identity_deleteAncestorPackage (miner : MiniMiner) (ancs : List Uint256) :
    (miner.deleteAncestorPackage ancs).entries.map identity =
      (miner.entries.filter (·.txid ∉ ancs)).map identity := by
  rw [deleteAncestorPackage, map_map]
  exact map_congr_left fun entry _ => (foldl_updateAncestorState entry _).1

theorem length_deleteAncestorPackage_lt (isIn : best ∈ miner.entries) :
    (miner.deleteAncestorPackage (miner.ancestors best)).entries.length < miner.entries.length := by
  rw [← length_map, identity_deleteAncestorPackage, length_map]
  exact length_filter_lt_length_iff_exists.mpr ⟨best, isIn, by simpa using mem_ancestors isIn⟩

/-- The sums over ancestor sets stay those over the entries that are left. -/
theorem ancestorSize_deleteAncestorPackage (ancs : List Uint256) (txid : Uint256) :
    (miner.deleteAncestorPackage ancs).ancestorSize txid = miner.ancestorSize txid -
      ((miner.entries.filter (·.txid ∈ ancs)).map fun anc =>
        if txid ∈ miner.descendantSetByTxid anc.txid then anc.txSize else 0).sum := by
  let size (own : Uint256 × List Uint256 × ℤ × ℤ) : ℤ :=
    if txid ∈ miner.descendantSetByTxid own.1 then own.2.2.1 else 0
  have left := congrArg (fun own => (own.map size).sum) (identity_deleteAncestorPackage miner ancs)
  simp only [map_map] at left
  have split := ((filter_append_perm (·.txid ∈ ancs) miner.entries).map (size ∘ identity)).sum_eq
  rw [map_append, sum_append] at split
  rw [eq_sub_iff_add_eq']
  refine Eq.trans (congrArg₂ _ rfl (left.trans ?_)) split
  simp only [decide_not]

theorem Cached.deleteAncestorPackage (cached : miner.Cached) (ancs : List Uint256) :
    (miner.deleteAncestorPackage ancs).Cached := by
  have origin : ∀ later ∈ (miner.deleteAncestorPackage ancs).entries, ∃ entry ∈ miner.entries,
      later.identity = entry.identity ∧
        later.sizeWithAncestors = (miner.deleteAncestorPackage ancs).ancestorSize entry.txid := by
    intro later isLater
    obtain ⟨entry, isEntry, rfl⟩ := mem_map.mp isLater
    obtain ⟨same, size⟩ := @foldl_updateAncestorState miner entry (miner.entries.filter (·.txid ∈ ancs))
    have isIn := (mem_filter.mp isEntry).1
    refine ⟨entry, isIn, same, ?_⟩
    rw [size, ancestorSize_deleteAncestorPackage, cached.sizeWithAncestors_eq entry isIn]
  refine ⟨?_, ?_, ?_⟩
  all_goals
    intro later isLater
    obtain ⟨entry, isIn, same, size⟩ := origin later isLater
    obtain ⟨sameTxid, -, sameSize, -⟩ := by simpa [identity] using same
  · rw [sameSize]
    exact cached.txSize_pos entry isIn
  · rw [sameTxid]
    exact cached.descendant_self entry isIn
  · rw [size, sameTxid]

theorem Cached.positive (cached : miner.Cached) :
    ∀ entry ∈ miner.entries, 0 < entry.txSize ∧ 0 < entry.sizeWithAncestors := by
  intro entry isIn
  have own_pos := cached.txSize_pos entry isIn
  refine ⟨own_pos, ?_⟩
  rw [cached.sizeWithAncestors_eq entry isIn, ancestorSize]
  refine own_pos.trans_le (List.single_le_sum ?_ _ (mem_map.mpr ⟨entry, isIn, ?_⟩))
  · simp only [mem_map, forall_exists_index, and_imp, forall_apply_eq_imp_iff₂]
    intro anc isAnc
    split_ifs
    · exact (cached.txSize_pos anc isAnc).le
    · exact le_rfl
  · rw [if_pos (cached.descendant_self entry isIn)]

/-! ## The template -/

/-- The state of a template. Entries are taken as they were at the start, and kept unless they
get into the block, where there are only those that are taken or spent by another entry. -/
structure Template (selected : MiniMinerMempoolEntry → Prop) (start miner : MiniMiner)
    (taken : List MiniMinerMempoolEntry) : Prop where
  cached : start.Cached → miner.Cached
  sublist : (miner.entries.map identity).Sublist (start.entries.map identity)
  taken_subset : taken.map identity ⊆ start.entries.map identity
  taken_spec : ∀ best ∈ taken, selected best ∧ best.txid ∈ miner.inBlock
  kept : ∀ own ∈ start.entries.map identity, own.1 ∉ miner.inBlock →
    own ∈ miner.entries.map identity
  origin : ∀ txid ∈ miner.inBlock, txid ∈ start.inBlock ∨ txid ∈ taken.map (·.txid) ∨
    ∃ own ∈ start.entries.map identity, txid ∈ own.2.1

section

variable {selected : MiniMinerMempoolEntry → Prop} {start : MiniMiner}
  {taken : List MiniMinerMempoolEntry} {select : MiniMiner → Option MiniMinerMempoolEntry} {fuel : ℕ}

theorem Template.round (template : Template selected start miner taken) (isIn : best ∈ miner.entries)
    (isSelected : selected best) :
    Template selected start (miner.deleteAncestorPackage (miner.ancestors best))
      (taken ++ [best]) := by
  have step := identity_deleteAncestorPackage miner (miner.ancestors best)
  refine ⟨fun cached => (template.cached cached).deleteAncestorPackage _, ?_, ?_, ?_, ?_, ?_⟩
  · rw [step]
    exact (filter_sublist.map _).trans template.sublist
  · rw [map_append, append_subset]
    exact ⟨template.taken_subset, by simpa using template.sublist.subset (mem_map_of_mem isIn)⟩
  · refine forall_mem_append.mpr ⟨?_, forall_mem_singleton.mpr ?_⟩
    · exact fun entry isTaken => (template.taken_spec entry isTaken).imp_right (mem_append_right _)
    · exact ⟨isSelected, mem_append_left _ (mem_ancestors isIn)⟩
  · intro own isOwn unblocked
    obtain ⟨new, old⟩ := not_or.mp (mt mem_append.mpr unblocked)
    obtain ⟨entry, isEntry, rfl⟩ := mem_map.mp (template.kept own isOwn old)
    rw [step]
    exact mem_map_of_mem (mem_filter.mpr ⟨isEntry, decide_eq_true new⟩)
  · intro txid isBlocked
    rw [map_append, mem_append]
    rcases mem_append.mp isBlocked with isAnc | isBlocked
    · rcases (collecting_ancestors isIn).origin txid (mem_append_left _ isAnc) with
        rfl | ⟨entry, isEntry, spent⟩
      · exact .inr (.inl (.inr (mem_singleton_self _)))
      · exact .inr (.inr ⟨_, template.sublist.subset (mem_map_of_mem isEntry), spent⟩)
    · exact (template.origin txid isBlocked).imp_right (.imp_left .inl)

theorem Template.templateLoop (template : Template selected start miner taken)
    (select_spec : ∀ {miner best}, select miner = some best → best ∈ miner.entries ∧ selected best) :
    Template selected start (templateLoop select fuel miner).1
      (taken ++ (templateLoop select fuel miner).2) := by
  induction fuel generalizing miner taken with
  | zero => simpa [MiniMiner.templateLoop] using template
  | succ fuel ih =>
    rw [MiniMiner.templateLoop]
    cases isBest : select miner with
    | none => simpa using template
    | some best =>
      obtain ⟨isIn, isSelected⟩ := select_spec isBest
      simpa using ih (template.round isIn isSelected)

variable (select_spec : ∀ {miner best}, select miner = some best → best ∈ miner.entries ∧ selected best)

include select_spec

theorem template_templateLoop (fuel : ℕ) (miner : MiniMiner) :
    Template selected miner (templateLoop select fuel miner).1
      (templateLoop select fuel miner).2 := by
  have start : Template selected miner miner [] :=
    ⟨id, .refl _, nil_subset _, by simp, fun _ isIn _ => isIn, fun _ => .inl⟩
  exact start.templateLoop select_spec

/-- The loop is not cut short. -/
theorem templateLoop_ends (enough : miner.entries.length ≤ fuel) :
    select (templateLoop select fuel miner).1 = none := by
  induction fuel generalizing miner with
  | zero =>
    refine Option.eq_none_iff_forall_ne_some.mpr ?_
    intro best isBest
    exact absurd (length_pos_of_mem (select_spec isBest).1) enough.not_gt
  | succ fuel ih =>
    rw [templateLoop]
    cases isBest : select miner with
    | none => exact isBest
    | some best =>
      have fewer := length_deleteAncestorPackage_lt (select_spec isBest).1
      exact ih (Nat.le_of_lt_succ (fewer.trans_le enough))

end

theorem strictEntry_eq_some (isBest : miner.strictEntry target = some best) :
    best ∈ miner.entries ∧ best.MeetsAlone target ∧ best.MeetsWithAncestors target := by
  obtain ⟨isBest, alone⟩ := Option.filter_eq_some_iff.mp isBest
  obtain ⟨isIn, withAncestors⟩ := bestEntry_eq_some isBest
  exact ⟨isIn, of_decide_eq_true alone, withAncestors⟩

theorem identity_eq_of_txid (distinct : (miner.entries.map (·.txid)).Nodup)
    {entry : MiniMinerMempoolEntry} (kept : entry ∈ miner.entries)
    (isOwn : best.identity ∈ miner.entries.map identity) (same : best.txid = entry.txid) :
    best.identity = entry.identity := by
  obtain ⟨original, isIn, sameIdentity⟩ := mem_map.mp isOwn
  rw [← sameIdentity, inj_on_of_nodup_map distinct isIn kept
    ((congrArg Prod.fst sameIdentity).trans same)]

/-- Until no entry meets the target both ways, the best one does. -/
theorem strictTemplate_spec (nonneg : 0 ≤ target.fee) (sized : 0 ≤ target.size)
    (cached : miner.Cached) :
    (∀ best ∈ (miner.strictTemplate target).2,
      best.MeetsAlone target ∧ best.MeetsWithAncestors target) ∧
    ∀ entry ∈ (miner.strictTemplate target).1.entries,
      ¬ (entry.MeetsAlone target ∧ entry.MeetsWithAncestors target) := by
  have template := template_templateLoop (@strictEntry_eq_some target) miner.entries.length miner
  refine ⟨fun best isTaken => (template.taken_spec best isTaken).1, ?_⟩
  intro entry isIn meets
  obtain ⟨best, isBest, alone⟩ :=
    bestEntry_of_meets nonneg sized (template.cached cached).positive isIn meets.1 meets.2
  have ends := templateLoop_ends (@strictEntry_eq_some target) (le_refl miner.entries.length)
  rw [strictEntry, isBest] at ends
  simp [alone] at ends

/-- The strict template goes as far as the one of the code, up to the first entry that is taken
and does not meet the target alone. -/
theorem buildMockTemplate_eq_strict (target : CFeeRate) (miner : MiniMiner) :
    match (miner.strictTemplate target).1.bestEntry target with
    | none => miner.buildMockTemplate target = miner.strictTemplate target
    | some best => best ∈ (miner.buildMockTemplate target).2 ∧ ¬ best.MeetsAlone target := by
  rw [buildMockTemplate, strictTemplate]
  generalize isFuel : miner.entries.length = fuel
  have enough := isFuel.le
  clear isFuel
  induction fuel generalizing miner with
  | zero =>
    simp [templateLoop, bestEntry, length_eq_zero_iff.mp (Nat.le_zero.mp enough)]
  | succ fuel ih =>
    rw [templateLoop, templateLoop]
    cases isBest : miner.bestEntry target with
    | none => simp [strictEntry, isBest]
    | some best =>
      have isIn := (bestEntry_eq_some isBest).1
      have later := ih (miner.deleteAncestorPackage (miner.ancestors best))
        (Nat.le_of_lt_succ ((length_deleteAncestorPackage_lt isIn).trans_le enough))
      by_cases alone : best.MeetsAlone target
      · rw [strictEntry, isBest, Option.filter_some, if_pos (decide_eq_true alone)]
        split at later <;> rename_i isEnd <;> simp [isEnd, later]
      · simp [strictEntry, Option.filter_some, alone, isBest]

/-- Outputs of transactions in the block get no bump fee, and for others it is enough. -/
theorem calculateBumpFees_spec (ready : miner.readyToCalculate)
    (distinct : (miner.entries.map (·.txid)).Nodup) {entry : MiniMinerMempoolEntry}
    (kept : entry ∈ miner.entries) {point : COutPoint} (requested : point ∈ miner.requestedOutpoints)
    (created : point.hash = entry.txid) (fresh : point ∉ miner.bumpFees.map Prod.fst) :
    (∃ fee, (point, fee) ∈ miner.calculateBumpFees target) ∧
    ∀ fee, (point, fee) ∈ miner.calculateBumpFees target →
      if entry.txid ∈ (miner.buildMockTemplate target).1.inBlock then fee = 0
      else target.getFee entry.txSize - entry.modifiedFee ≤ fee := by
  have template := template_templateLoop (@bestEntry_eq_some target) miner.entries.length miner
  have isBump (fee : ℤ) : (point, fee) ∈ miner.calculateBumpFees target ↔
      entry.txid ∈ (miner.buildMockTemplate target).1.inBlock ∧ fee = 0 ∨
      entry.txid ∉ (miner.buildMockTemplate target).1.inBlock ∧ ∃ later,
        (miner.buildMockTemplate target).1.entries.find? (·.txid = entry.txid) = some later ∧
          later.bumpFee target = fee := by
    have old : (point, fee) ∉ miner.bumpFees := fun old => fresh (mem_map_of_mem old)
    rw [calculateBumpFees, if_pos ready]
    simp [old, requested, created, @eq_comm ℤ 0]
  split_ifs with blocked
  · refine ⟨⟨0, (isBump 0).mpr (.inl ⟨blocked, rfl⟩)⟩, ?_⟩
    intro fee isFee
    exact (((isBump fee).mp isFee).resolve_right (·.1 blocked)).2
  · obtain ⟨later, isLater, same⟩ := mem_map.mp (template.kept _ (mem_map_of_mem kept) blocked)
    have isSome : ((miner.buildMockTemplate target).1.entries.find? (·.txid = entry.txid)).isSome :=
      List.find?_isSome.mpr ⟨later, isLater, decide_eq_true (congrArg Prod.fst same)⟩
    obtain ⟨found, isFound⟩ := Option.isSome_iff_exists.mp isSome
    refine ⟨⟨_, (isBump _).mpr (.inr ⟨blocked, found, isFound, rfl⟩)⟩, ?_⟩
    intro fee isFee
    obtain ⟨-, found', isFound', rfl⟩ := ((isBump fee).mp isFee).resolve_left fun inBlock =>
      blocked inBlock.1
    -- The entry that is found is the one of the transaction.
    have isTxid : found'.txid = entry.txid := by simpa using List.find?_some isFound'
    have sameFound := identity_eq_of_txid distinct kept
      (template.sublist.subset (mem_map_of_mem (mem_of_find?_eq_some isFound'))) isTxid
    obtain ⟨-, -, sameSize, sameFee⟩ := by simpa [identity] using sameFound
    rw [← sameSize, ← sameFee]
    exact le_max_right _ _

/-- Two parents with one grandparent, and a child of both: transactions 1 to 4. -/
def sharedGrandparent (childFee : ℤ) : MiniMiner where
  readyToCalculate := true
  requestedOutpoints := [⟨4, 0⟩]
  bumpFees := []
  inBlock := []
  entries := [⟨1, [], 1700, 1700, 1700, 1700⟩, ⟨2, [1], 200, 17000, 1900, 18700⟩,
    ⟨3, [1], 200, 3000, 1900, 4700⟩, ⟨4, [2, 3], 100, childFee, 2200, 21700 + childFee⟩]
  descendantSetByTxid txid :=
    if txid = 1 then [1, 2, 3, 4] else if txid = 4 then [4] else [txid, 4]

theorem sharedGrandparent_cached (childFee : ℤ) : (sharedGrandparent childFee).Cached := by
  constructor <;> simp [sharedGrandparent, ancestorSize]

end MiniMiner

end Node

end BitcoinCore
