import BitcoinCore.Chain.BlockIndex
import BitcoinCore.Coins.Refinement

/-!
# Connecting and disconnecting the coins of a block

Connecting a block spends the inputs of its transactions and adds their outputs, one
transaction after the other, and records the spent coins. Disconnecting it goes through the
transactions in reverse order: it spends the outputs again and adds the recorded coins back.

Both are modelled on the layered caches of coins. What the caches show is a single map of
unspent coins, and on this map every transaction is undone exactly
(`disconnectTransaction_shows`), so the whole block is (`disconnectBlock_restores`). A coin
with an unspendable script is never added, and so not added back either: the map may not
hold such coins. A coinbase transaction has no undo data: it may only be the first one.
-/

namespace BitcoinCore.BlockUndo

open Coins Chain List Function Option

/-! ## The code -/

/-- The coins that a transaction has spent. -/
abbrev CTxUndo := List Coin

/-- Whether a block was undone, and whether the coins were as expected. -/
inductive DisconnectResult where
  | ok
  | unclean
  | failed
  deriving DecidableEq

section

variable (usage : Coin → ℕ)

/-- Spend a coin in the top cache. -/
def spendCoin (layers : Layers) (point : COutPoint) : Layers × Option Coin :=
  let spent := Coins.spendCoin usage layers.base point layers.caches
  ({ layers with caches := spent.1 }, spent.2)

/-- Look for a coin, which may bring it into the caches. -/
def haveCoin (layers : Layers) (point : COutPoint) : Layers × Bool :=
  let had := Coins.haveCoin usage layers.base point layers.caches
  ({ layers with caches := had.1 }, had.2)

/-- Read a coin, a null coin where there is none. -/
def accessCoin (layers : Layers) (point : COutPoint) : Layers × Coin :=
  let accessed := Coins.accessCoin usage layers.base point layers.caches
  ({ layers with caches := accessed.1 }, accessed.2)

/-- Add a coin to the top cache. -/
def addCoin (layers : Layers) (point : COutPoint) (coin : Coin) (possibleOverwrite : Bool) :
    Except Error Layers :=
  (step usage layers (.addCoin point coin possibleOverwrite)).map Prod.fst

/-- The loop of `UpdateCoins` over the inputs, with the coins that are moved out. -/
def spendInputs : List CTxIn → Layers → Except Error (Layers × CTxUndo)
  | [], layers => .ok (layers, [])
  | txin :: vin, layers =>
    let (layers, moved) := spendCoin usage layers txin.prevout
    match moved with
    | none => .error .assertion
    | some coin => do
      let (layers, txundo) ← spendInputs vin layers
      return (layers, coin :: txundo)

/-- Add the outputs of a transaction from an index on. -/
def addCoins (txid : Uint256) (nHeight : ℕ) (fCoinbase : Bool) :
    ℕ → List CTxOut → Layers → Except Error Layers
  | _, [], layers => .ok layers
  | i, out :: vout, layers => do
    let layers ← addCoin usage layers ⟨txid, BitVec.ofNat 32 i⟩ ⟨out, fCoinbase, nHeight⟩ fCoinbase
    addCoins txid nHeight fCoinbase (i + 1) vout layers

variable (getHash : CTransaction → Uint256)

/-- A coinbase transaction spends nothing. -/
def markInputsSpent (tx : CTransaction) (layers : Layers) : Except Error (Layers × CTxUndo) :=
  if tx.isCoinBase then .ok (layers, []) else spendInputs usage tx.vin layers

/-- Apply one transaction. -/
def updateCoins (nHeight : ℕ) (tx : CTransaction) (layers : Layers) :
    Except Error (Layers × CTxUndo) := do
  let (layers, txundo) ← markInputsSpent usage tx layers
  let layers ← addCoins usage (getHash tx) nHeight tx.isCoinBase 0 tx.vout layers
  return (layers, txundo)

/-- Apply the transactions of a block, in order. -/
def updateAll (nHeight : ℕ) : List CTransaction → Layers → Except Error (Layers × List CTxUndo)
  | [], layers => .ok (layers, [])
  | tx :: vtx, layers => do
    let (layers, txundo) ← updateCoins usage getHash nHeight tx layers
    let (layers, vtxundo) ← updateAll nHeight vtx layers
    return (layers, txundo :: vtxundo)

/-- The changes of `ConnectBlock`; nothing is recorded for the first transaction. -/
def connectCoins (nHeight : ℕ) (vtx : List CTransaction) (layers : Layers) :
    Except Error (Layers × List CTxUndo) := do
  let (layers, vtxundo) ← updateAll usage getHash nHeight vtx layers
  return (layers, vtxundo.tail)

/-- No block has room for more outputs. -/
def maxOutputsPerBlock : ℕ := 4000000 / (4 * 9)

/-- The first unspent output of a transaction. -/
def accessByTxid (txid : Uint256) : ℕ → BitVec 32 → Layers → Layers × Coin
  | 0, _, layers => (layers, .null)
  | left + 1, n, layers =>
    let (layers, alternate) := accessCoin usage layers ⟨txid, n⟩
    if alternate.isSpent then accessByTxid txid left (n + 1) layers else (layers, alternate)

/-- The coin to be restored: without a height it takes that of another output of the same
transaction. -/
def undoCoin (undo : Coin) (out : COutPoint) (layers : Layers) : Layers × Option Coin :=
  if undo.nHeight = 0 then
    let (layers, alternate) := accessByTxid usage out.hash maxOutputsPerBlock 0 layers
    if alternate.isSpent then (layers, none)
    else (layers, some { undo with nHeight := alternate.nHeight, fCoinBase := alternate.fCoinBase })
  else (layers, some undo)

/-- Restore a coin that was spent. -/
def applyTxInUndo (undo : Coin) (out : COutPoint) (layers : Layers) :
    Except Error (Layers × DisconnectResult) := do
  let (layers, exists_) := haveCoin usage layers out
  let fClean := !exists_
  let (layers, coin) := undoCoin usage undo out layers
  match coin with
  | none => return (layers, .failed)
  | some coin =>
    let layers ← addCoin usage layers out coin (!fClean)
    return (layers, if fClean then .ok else .unclean)

/-- Spend the outputs of a transaction, from an index on; the flag says whether all were
there as the transaction made them. -/
def spendOutputs (txid : Uint256) (nHeight : ℕ) (isCoinbase : Bool) :
    ℕ → List CTxOut → Layers → Layers × Bool
  | _, [], layers => (layers, true)
  | o, out :: vout, layers =>
    if out.scriptPubKey.isUnspendable then spendOutputs txid nHeight isCoinbase (o + 1) vout layers
    else
      let (layers, moved) := spendCoin usage layers ⟨txid, BitVec.ofNat 32 o⟩
      let (layers, rest) := spendOutputs txid nHeight isCoinbase (o + 1) vout layers
      (layers, decide (moved = some ⟨out, isCoinbase, nHeight⟩) && rest)

/-- Undo one item after the other until one cannot be undone. The flag says whether all was as
expected. -/
def undoLoop {Item : Type*} (undo : Item → Bool → Layers → Except Error (Layers × Option Bool)) :
    List Item → Bool → Layers → Except Error (Layers × Option Bool)
  | [], fClean, layers => .ok (layers, some fClean)
  | item :: items, fClean, layers => do
    let (layers, res) ← undo item fClean layers
    match res with
    | none => return (layers, none)
    | some fClean => undoLoop undo items fClean layers

/-- Add the coin of an input back. -/
def restoreInput (input : CTxIn × Coin) (fClean : Bool) (layers : Layers) :
    Except Error (Layers × Option Bool) := do
  let (layers, res) ← applyTxInUndo usage input.2 input.1.prevout layers
  match res with
  | .failed => return (layers, none)
  | .unclean => return (layers, some false)
  | .ok => return (layers, some fClean)

/-- Undo one transaction; the first one of a block has no undo data. -/
def disconnectTransaction (nHeight : ℕ) (enforceBIP30 : Bool) (tx : CTransaction)
    (txundo : Option CTxUndo) (fClean : Bool) (layers : Layers) :
    Except Error (Layers × Option Bool) :=
  let isException := tx.isCoinBase && !enforceBIP30
  let (layers, matching) := spendOutputs usage (getHash tx) nHeight tx.isCoinBase 0 tx.vout layers
  let fClean := fClean && (matching || isException)
  match txundo with
  | none => .ok (layers, some fClean)
  | some txundo =>
    if txundo.length ≠ tx.vin.length then .ok (layers, none)
    else undoLoop (restoreInput usage) (tx.vin.zip txundo).reverse fClean layers

/-- The loop of `DisconnectBlock` over the transactions. -/
def disconnectTransactions (nHeight : ℕ) (enforceBIP30 : Bool) :
    List (CTransaction × Option CTxUndo) → Bool → Layers → Except Error (Layers × Option Bool) :=
  undoLoop fun item => disconnectTransaction usage getHash nHeight enforceBIP30 item.1 item.2

/-- The blocks whose coinbase outputs were overwritten by later ones. -/
def overwrittenBlocks : List (ℕ × Uint256) :=
  [(91722, 0x00000000000271a2dc26e7667f8419f2e15416dc6955e5a6c6cdf3f2574dd08e),
    (91812, 0x00000000000af0aed4792b1acee3d966af36cf5def14935db8de83d6f9306f2f)]

/-- What `DisconnectBlock` leaves: the coins, its result and the best block it has set. -/
structure Disconnected where
  layers : Layers
  result : DisconnectResult
  bestBlock : Option Uint256

/-- Undo a block with the undo data that was read for it. -/
def disconnectBlock {Block : Type*} (memory : BlockMemory Block) (blockUndo : Option (List CTxUndo))
    (vtx : List CTransaction) (pindex : Block) (layers : Layers) : Except Error Disconnected :=
  match blockUndo with
  | none => .ok ⟨layers, .failed, none⟩
  | some vtxundo =>
    if vtxundo.length + 1 ≠ vtx.length then .ok ⟨layers, .failed, none⟩
    else do
      let enforceBIP30 := !overwrittenBlocks.contains ((memory pindex).nHeight, (memory pindex).hash)
      let (layers, res) ← disconnectTransactions usage getHash (memory pindex).nHeight enforceBIP30
        (vtx.zip (none :: vtxundo.map some)).reverse true layers
      match res, (memory pindex).pprev with
      | none, _ => return ⟨layers, .failed, none⟩
      | some _, none => .error .assertion
      | some fClean, some prev =>
        return ⟨layers, if fClean then .ok else .unclean, some (memory prev).hash⟩

end

/-! ## What the caches show -/

/-- Valid caches that show a map of unspent coins. -/
structure Shows (layers : Layers) (flat : CoinMap) : Prop where
  valid : layers.Valid
  nonempty : layers.caches ≠ []
  view_eq : layers.view = flat

section

variable (usage : Coin → ℕ) {layers : Layers} {flat : CoinMap}

theorem Shows.next {new : Layers} (shows_ : Shows layers flat) {after : CoinMap}
    (new_ : new.Shows after layers.caches.length) : Shows new after := by
  refine ⟨new_.valid, ?_, new_.view_eq⟩
  rw [← length_pos_iff, new_.length_eq, length_pos_iff]
  exact shows_.nonempty

theorem Shows.unspent (shows_ : Shows layers flat) {point : COutPoint} {coin : Coin}
    (seen : flat point = some coin) : coin.isSpent = false := by
  rw [← shows_.view_eq] at seen
  exact stackView_unspent shows_.valid seen

theorem spendCoin_shows (shows_ : Shows layers flat) (point : COutPoint) :
    Shows (spendCoin usage layers point).1 (update flat point none) ∧
      ∀ coin, flat point = some coin → (spendCoin usage layers point).2 = some coin := by
  obtain ⟨spent, moved⟩ := spendCoin_eq usage point shows_.valid shows_.nonempty
  have seen : stackView layers.base layers.caches = flat := shows_.view_eq
  rw [seen] at spent moved
  refine ⟨shows_.next spent, fun coin found => ?_⟩
  rw [found, getD_some] at moved
  rw [spendCoin]
  dsimp only
  cases result : (Coins.spendCoin usage layers.base point layers.caches).2 with
  | none =>
    have unspent := shows_.unspent found
    rw [result, getD_none] at moved
    rw [← moved] at unspent
    cases unspent
  | some other =>
    rw [result, getD_some] at moved
    rw [moved]

theorem haveCoin_shows (shows_ : Shows layers flat) (point : COutPoint) :
    Shows (haveCoin usage layers point).1 flat ∧
      (haveCoin usage layers point).2 = (flat point).isSome := by
  have fetched := (fetchTop_fetched usage point shows_.valid shows_.nonempty).toShows
  have had : (haveCoin usage layers point).2 = _ :=
    haveCoin_eq usage shows_.valid shows_.nonempty
  have seen : stackView layers.base layers.caches = flat := shows_.view_eq
  rw [seen] at fetched had
  exact ⟨shows_.next fetched, had⟩

/-- The map with a coin added, unless its script is unspendable. -/
def withCoin (flat : CoinMap) (point : COutPoint) (coin : Coin) : CoinMap :=
  if coin.out.scriptPubKey.isUnspendable then flat else Function.update flat point (some coin)

theorem addCoin_shows (shows_ : Shows layers flat) {point : COutPoint} {coin : Coin}
    (unspent : coin.isSpent = false)
    (free : coin.out.scriptPubKey.isUnspendable = false → flat point = none) (overwrite : Bool) :
    ∃ added, addCoin usage layers point coin overwrite = .ok added ∧
      Shows added (withCoin flat point coin) := by
  cases unspendable : coin.out.scriptPubKey.isUnspendable with
  | true =>
    refine ⟨layers, ?_, by rw [withCoin, if_pos unspendable]; exact shows_⟩
    obtain ⟨caches, base⟩ := layers
    cases caches with
    | nil => rfl
    | cons cache below =>
      rw [addCoin, step]
      simp only [CCoinsViewCache.addCoin, unspent, unspendable, Bool.false_eq_true, if_false, if_true]
      rfl
  | false =>
    have allowed : Allowed layers.view (.addCoin point coin overwrite) := by
      refine ⟨unspent, fun _ => ?_⟩
      rw [shows_.view_eq]
      exact free unspendable
    obtain ⟨new, answer, isStep, added, -⟩ :=
      step_refines usage shows_.valid shows_.nonempty allowed
    rw [shows_.view_eq] at added
    exact ⟨new, by rw [addCoin, isStep]; rfl, shows_.next added⟩

end

/-! ## Transactions on the map -/

section

/-- The inputs can be spent one after the other. -/
def InputsPresent : List CTxIn → CoinMap → Prop
  | [], _ => True
  | txin :: vin, flat =>
    (flat txin.prevout).isSome ∧ InputsPresent vin (Function.update flat txin.prevout none)

/-- The map with the inputs spent. -/
def withoutInputs : List CTxIn → CoinMap → CoinMap
  | [], flat => flat
  | txin :: vin, flat => withoutInputs vin (Function.update flat txin.prevout none)

/-- The coins that the inputs spend. -/
def inputCoins : List CTxIn → CoinMap → List Coin
  | [], _ => []
  | txin :: vin, flat =>
    (flat txin.prevout).getD .null :: inputCoins vin (Function.update flat txin.prevout none)

variable (txid : Uint256) (nHeight : ℕ) (fCoinbase : Bool)

/-- The outputs can be added one after the other without overwriting a coin. -/
def OutputsFree : ℕ → List CTxOut → CoinMap → Prop
  | _, [], _ => True
  | i, out :: vout, flat =>
    (out.scriptPubKey.isUnspendable = false → flat ⟨txid, BitVec.ofNat 32 i⟩ = none) ∧
      OutputsFree (i + 1) vout (withCoin flat ⟨txid, BitVec.ofNat 32 i⟩ ⟨out, fCoinbase, nHeight⟩)

/-- The map with the outputs added. -/
def withOutputs : ℕ → List CTxOut → CoinMap → CoinMap
  | _, [], flat => flat
  | i, out :: vout, flat =>
    withOutputs (i + 1) vout (withCoin flat ⟨txid, BitVec.ofNat 32 i⟩ ⟨out, fCoinbase, nHeight⟩)

variable (getHash : CTransaction → Uint256)

/-- The map after the first half of a transaction. -/
def afterInputs (tx : CTransaction) (flat : CoinMap) : CoinMap :=
  if tx.isCoinBase then flat else withoutInputs tx.vin flat

/-- A transaction can be applied: its inputs are there, its outputs are not null and are
added over nothing. -/
structure Applies (tx : CTransaction) (flat : CoinMap) : Prop where
  inputs : tx.isCoinBase = false → InputsPresent tx.vin flat
  outputs : ∀ out ∈ tx.vout, out.isNull = false
  free : OutputsFree (getHash tx) nHeight tx.isCoinBase 0 tx.vout (afterInputs tx flat)

/-- The map after a transaction. -/
def applied (tx : CTransaction) (flat : CoinMap) : CoinMap :=
  withOutputs (getHash tx) nHeight tx.isCoinBase 0 tx.vout (afterInputs tx flat)

/-- Transactions can be applied in order. -/
def AppliesAll : List CTransaction → CoinMap → Prop
  | [], _ => True
  | tx :: vtx, flat => Applies nHeight getHash tx flat ∧ AppliesAll vtx (applied nHeight getHash tx flat)

/-- The map after all of them. -/
def appliedAll : List CTransaction → CoinMap → CoinMap
  | [], flat => flat
  | tx :: vtx, flat => appliedAll vtx (applied nHeight getHash tx flat)

/-- The coins of a map have heights above zero and can be spent. -/
def Restorable (flat : CoinMap) : Prop :=
  ∀ point coin, flat point = some coin →
    0 < coin.nHeight ∧ coin.out.scriptPubKey.isUnspendable = false

end

/-! ## Restoring inputs -/

section

variable (usage : Coin → ℕ) {layers : Layers} {flat : CoinMap}

theorem Restorable.erase (restorable : Restorable flat) (point : COutPoint) :
    Restorable (update flat point none) := by
  intro other coin found
  rw [update_apply] at found
  split at found
  · cases found
  · exact restorable other coin found

theorem Restorable.withoutInputs (restorable : Restorable flat) (vin : List CTxIn) :
    Restorable (withoutInputs vin flat) := by
  induction vin generalizing flat with
  | nil => exact restorable
  | cons txin vin ih => exact ih (restorable.erase txin.prevout)

theorem spendInputs_shows (shows_ : Shows layers flat) {vin : List CTxIn}
    (isIn : InputsPresent vin flat) :
    ∃ spent, spendInputs usage vin layers = .ok (spent, inputCoins vin flat) ∧
      Shows spent (withoutInputs vin flat) := by
  induction vin generalizing layers flat with
  | nil => exact ⟨layers, rfl, shows_⟩
  | cons txin vin ih =>
    obtain ⟨coin, found⟩ := isSome_iff_exists.mp isIn.1
    obtain ⟨spentShows, moved⟩ := spendCoin_shows usage shows_ txin.prevout
    obtain ⟨spent, others, result⟩ := ih spentShows isIn.2
    refine ⟨spent, ?_, result⟩
    rw [spendInputs]
    simp only [moved coin found, others, inputCoins, found, getD_some]
    rfl

theorem applyTxInUndo_shows {out : COutPoint} {coin : Coin}
    (shows_ : Shows layers (update flat out none)) (found : flat out = some coin)
    (height : 0 < coin.nHeight) (spendable : coin.out.scriptPubKey.isUnspendable = false)
    (unspent : coin.isSpent = false) :
    ∃ restored, applyTxInUndo usage coin out layers = .ok (restored, .ok) ∧ Shows restored flat := by
  obtain ⟨hadShows, had⟩ := haveCoin_shows usage shows_ out
  rw [update_self, isSome_none] at had
  obtain ⟨restored, added, result⟩ := addCoin_shows usage hadShows unspent
    (fun _ => update_self out none flat) false
  refine ⟨restored, ?_, ?_⟩
  · rw [applyTxInUndo]
    simp only [had, undoCoin, if_neg height.ne', Bool.not_false, Bool.not_true, added, if_true]
    rfl
  · rw [withCoin, if_neg (by simp [spendable]), update_idem, ← found, update_eq_self] at result
    exact result

theorem undoLoop_append {Item : Type*} {front back : List Item} {fClean clean : Bool}
    {undo : Item → Bool → Layers → Except Error (Layers × Option Bool)} {middle : Layers}
    (undone : undoLoop undo front fClean layers = .ok (middle, some clean)) :
    undoLoop undo (front ++ back) fClean layers = undoLoop undo back clean middle := by
  induction front generalizing fClean layers with
  | nil =>
    cases undone
    rfl
  | cons item front ih =>
    rw [undoLoop] at undone
    rw [cons_append, undoLoop]
    cases result : undo item fClean layers with
    | error err =>
      rw [result] at undone
      cases undone
    | ok pair =>
      obtain ⟨next, res⟩ := pair
      rw [result] at undone
      cases res with
      | none => cases undone
      | some clean => exact ih undone

theorem length_inputCoins (vin : List CTxIn) : (inputCoins vin flat).length = vin.length := by
  induction vin generalizing flat with
  | nil => rfl
  | cons txin vin ih => rw [inputCoins, length_cons, length_cons, ih]

/-- The inputs are restored by adding their coins in reverse order. -/
theorem restoreInputs_shows {orig : Layers} (originalShows : Shows orig flat)
    (restorable : Restorable flat) {vin : List CTxIn} (isIn : InputsPresent vin flat)
    (shows_ : Shows layers (withoutInputs vin flat)) (fClean : Bool) :
    ∃ restored,
      undoLoop (restoreInput usage) (vin.zip (inputCoins vin flat)).reverse fClean layers =
        .ok (restored, some fClean) ∧ Shows restored flat := by
  induction vin generalizing orig flat with
  | nil => exact ⟨layers, rfl, shows_⟩
  | cons txin vin ih =>
    obtain ⟨coin, found⟩ := isSome_iff_exists.mp isIn.1
    obtain ⟨height, spendable⟩ := restorable _ _ found
    obtain ⟨later, restoredLater, laterShows⟩ :=
      ih (spendCoin_shows usage originalShows txin.prevout).1
        (restorable.erase txin.prevout) isIn.2 shows_
    obtain ⟨restored, last, result⟩ := applyTxInUndo_shows usage laterShows found height
      spendable (originalShows.unspent found)
    refine ⟨restored, ?_, result⟩
    rw [inputCoins, found, getD_some, zip_cons_cons, reverse_cons,
      undoLoop_append restoredLater, undoLoop, restoreInput, last]
    rfl

/-! ## Spending outputs -/

variable {txid : Uint256} {nHeight : ℕ} {fCoinbase : Bool} {vout : List CTxOut}

theorem Restorable.withCoin (restorable : Restorable flat) (point : COutPoint) {coin : Coin}
    (height : 0 < coin.nHeight) : Restorable (withCoin flat point coin) := by
  rw [BlockUndo.withCoin]
  split
  case isTrue => exact restorable
  case isFalse spendable =>
    intro other found seen
    rw [update_apply] at seen
    split at seen
    · cases seen
      exact ⟨height, Bool.not_eq_true _ ▸ spendable⟩
    · exact restorable other found seen

theorem Restorable.withOutputs (restorable : Restorable flat) (height : 0 < nHeight)
    (vout : List CTxOut) (i : ℕ) : Restorable (withOutputs txid nHeight fCoinbase i vout flat) := by
  induction vout generalizing i flat with
  | nil => exact restorable
  | cons out vout ih => exact ih (restorable.withCoin _ height) (i + 1)

theorem addCoins_shows (shows_ : Shows layers flat) {i : ℕ}
    (notNull : ∀ out ∈ vout, out.isNull = false)
    (free : OutputsFree txid nHeight fCoinbase i vout flat) :
    ∃ added, addCoins usage txid nHeight fCoinbase i vout layers = .ok added ∧
      Shows added (withOutputs txid nHeight fCoinbase i vout flat) := by
  induction vout generalizing i layers flat with
  | nil => exact ⟨layers, rfl, shows_⟩
  | cons out vout ih =>
    obtain ⟨here, rest⟩ := forall_mem_cons.mp notNull
    obtain ⟨first, isFirst, firstShows⟩ := @addCoin_shows usage layers flat shows_
      ⟨txid, BitVec.ofNat 32 i⟩ ⟨out, fCoinbase, nHeight⟩ here free.1 fCoinbase
    obtain ⟨added, others, result⟩ := ih firstShows rest free.2
    refine ⟨added, ?_, result⟩
    rw [addCoins, isFirst]
    exact others

theorem withCoin_update {point other : COutPoint} (ne : other ≠ point) (coin : Coin)
    (val : Option Coin) : withCoin (update flat point val) other coin =
      update (withCoin flat other coin) point val := by
  rw [withCoin, withCoin]
  split
  · rfl
  · rw [update_comm ne]

theorem withOutputs_update {point : COutPoint} {i : ℕ}
    (taken : flat point ≠ none) (free : OutputsFree txid nHeight fCoinbase i vout flat)
    (val : Option Coin) :
    withOutputs txid nHeight fCoinbase i vout (update flat point val) =
        update (withOutputs txid nHeight fCoinbase i vout flat) point val ∧
      (val = none → OutputsFree txid nHeight fCoinbase i vout (update flat point val)) := by
  induction vout generalizing i flat with
  | nil => exact ⟨rfl, fun _ => trivial⟩
  | cons out vout ih =>
    cases unspendable : out.scriptPubKey.isUnspendable with
    | true =>
      have same : ∀ flat, withCoin flat ⟨txid, BitVec.ofNat 32 i⟩ ⟨out, fCoinbase, nHeight⟩ = flat :=
        fun flat => if_pos unspendable
      rw [OutputsFree, same] at free
      simp only [withOutputs, OutputsFree, same, unspendable]
      obtain ⟨equal, kept⟩ := ih taken free.2
      exact ⟨equal, fun isNone => ⟨fun spendable => (by cases spendable), kept isNone⟩⟩
    | false =>
      have vacant := free.1 unspendable
      have ne : (⟨txid, BitVec.ofNat 32 i⟩ : COutPoint) ≠ point := by
        rintro rfl
        exact taken vacant
      have still : withCoin flat ⟨txid, BitVec.ofNat 32 i⟩ ⟨out, fCoinbase, nHeight⟩ point ≠ none := by
        rw [withCoin, if_neg (by simp [unspendable]), update_of_ne ne.symm]
        exact taken
      obtain ⟨equal, kept⟩ := ih still free.2
      rw [withOutputs, withOutputs, OutputsFree, withCoin_update ne]
      refine ⟨equal, fun isNone => ⟨fun _ => ?_, kept isNone⟩⟩
      rw [update_of_ne ne]
      exact vacant

/-- The outputs are taken out again, each as it was made. -/
theorem spendOutputs_shows {i : ℕ} (free : OutputsFree txid nHeight fCoinbase i vout flat)
    (shows_ : Shows layers (withOutputs txid nHeight fCoinbase i vout flat)) :
    Shows (spendOutputs usage txid nHeight fCoinbase i vout layers).1 flat ∧
      (spendOutputs usage txid nHeight fCoinbase i vout layers).2 := by
  induction vout generalizing i flat layers with
  | nil => exact ⟨shows_, rfl⟩
  | cons out vout ih =>
    rw [withOutputs] at shows_
    rw [spendOutputs]
    split
    case isTrue unspendable =>
      have free' := free.2
      rw [withCoin, if_pos unspendable] at shows_ free'
      exact ih free' shows_
    case isFalse spendable =>
      have vacant := free.1 (Bool.not_eq_true _ ▸ spendable)
      have free' := free.2
      rw [withCoin, if_neg spendable] at shows_ free'
      have taken : update flat ⟨txid, BitVec.ofNat 32 i⟩
          (some (⟨out, fCoinbase, nHeight⟩ : Coin)) ⟨txid, BitVec.ofNat 32 i⟩ ≠ none := by
        rw [update_self]
        exact some_ne_none _
      have erased := withOutputs_update taken free' none
      have kept := (withOutputs_update taken free' (some ⟨out, fCoinbase, nHeight⟩)).1
      rw [update_idem, ← vacant, update_eq_self] at erased
      rw [update_idem] at kept
      obtain ⟨spentShows, moved⟩ :=
        spendCoin_shows usage shows_ ⟨txid, BitVec.ofNat 32 i⟩
      rw [vacant] at erased
      rw [← erased.1] at spentShows
      obtain ⟨result, matching⟩ := ih (erased.2 rfl) spentShows
      refine ⟨result, ?_⟩
      have found := moved ⟨out, fCoinbase, nHeight⟩ (by rw [kept, update_self])
      simp only [found, decide_true, Bool.true_and]
      exact matching

/-! ## Whole transactions -/

variable {getHash : CTransaction → Uint256} {tx : CTransaction}

theorem Restorable.afterInputs (restorable : Restorable flat) (tx : CTransaction) :
    Restorable (afterInputs tx flat) := by
  rw [BlockUndo.afterInputs]
  split
  · exact restorable
  · exact restorable.withoutInputs tx.vin

theorem Restorable.applied (restorable : Restorable flat) (height : 0 < nHeight)
    (tx : CTransaction) : Restorable (applied nHeight getHash tx flat) :=
  (restorable.afterInputs tx).withOutputs height tx.vout 0

/-- The undo data of a transaction. -/
def recorded (tx : CTransaction) (flat : CoinMap) : CTxUndo :=
  if tx.isCoinBase then [] else inputCoins tx.vin flat

theorem markInputsSpent_shows (shows_ : Shows layers flat)
    (isIn : tx.isCoinBase = false → InputsPresent tx.vin flat) :
    ∃ spent, markInputsSpent usage tx layers = .ok (spent, recorded tx flat) ∧
      Shows spent (afterInputs tx flat) := by
  rw [markInputsSpent, recorded, afterInputs]
  cases coinbase : tx.isCoinBase with
  | true => exact ⟨layers, rfl, shows_⟩
  | false => exact spendInputs_shows usage shows_ (isIn coinbase)

theorem updateCoins_shows (shows_ : Shows layers flat) (applies : Applies nHeight getHash tx flat) :
    ∃ updated, updateCoins usage getHash nHeight tx layers = .ok (updated, recorded tx flat) ∧
      Shows updated (applied nHeight getHash tx flat) := by
  obtain ⟨spent, isSpent, spentShows⟩ := markInputsSpent_shows usage shows_ applies.inputs
  obtain ⟨updated, added, updatedShows⟩ := addCoins_shows usage spentShows applies.outputs applies.free
  refine ⟨updated, ?_, updatedShows⟩
  rw [updateCoins, isSpent]
  simp only [bind, Except.bind, added]
  rfl

/-- A transaction is undone exactly. -/
theorem disconnectTransaction_shows {orig : Layers} (originalShows : Shows orig flat)
    (restorable : Restorable flat) (applies : Applies nHeight getHash tx flat)
    (shows_ : Shows layers (applied nHeight getHash tx flat)) (txundo : Option CTxUndo)
    (undo : if tx.isCoinBase then txundo = none else txundo = some (recorded tx flat))
    (enforceBIP30 fClean : Bool) :
    ∃ restored, disconnectTransaction usage getHash nHeight enforceBIP30 tx txundo fClean layers =
        .ok (restored, some fClean) ∧ Shows restored flat := by
  obtain ⟨spentShows, matching⟩ := spendOutputs_shows usage applies.free shows_
  rw [disconnectTransaction]
  simp only [matching, Bool.true_or, Bool.and_true]
  cases coinbase : tx.isCoinBase with
  | true =>
    rw [coinbase, if_pos rfl] at undo
    rw [afterInputs, coinbase, if_pos rfl] at spentShows
    rw [undo]
    exact ⟨_, rfl, spentShows⟩
  | false =>
    rw [coinbase, if_neg Bool.false_ne_true, recorded, coinbase, if_neg Bool.false_ne_true] at undo
    rw [afterInputs, coinbase, if_neg Bool.false_ne_true] at spentShows
    obtain ⟨restored, isRestored, restoredShows⟩ := restoreInputs_shows usage originalShows
      restorable (applies.inputs coinbase) spentShows fClean
    refine ⟨restored, ?_, restoredShows⟩
    rw [undo]
    dsimp only
    rw [if_neg (not_not.mpr (length_inputCoins tx.vin))]
    exact isRestored

/-- The undo data of all transactions, the first one included. -/
def recordedAll (nHeight : ℕ) (getHash : CTransaction → Uint256) :
    List CTransaction → CoinMap → List CTxUndo
  | [], _ => []
  | tx :: vtx, flat => recorded tx flat :: recordedAll nHeight getHash vtx (applied nHeight getHash tx flat)

theorem length_recordedAll (vtx : List CTransaction) :
    (recordedAll nHeight getHash vtx flat).length = vtx.length := by
  induction vtx generalizing flat with
  | nil => rfl
  | cons tx vtx ih => rw [recordedAll, length_cons, length_cons, ih]

variable {vtx : List CTransaction}

theorem updateAll_shows (shows_ : Shows layers flat)
    (applies : AppliesAll nHeight getHash vtx flat) :
    ∃ updated, updateAll usage getHash nHeight vtx layers =
        .ok (updated, recordedAll nHeight getHash vtx flat) ∧
      Shows updated (appliedAll nHeight getHash vtx flat) := by
  induction vtx generalizing layers flat with
  | nil => exact ⟨layers, rfl, shows_⟩
  | cons tx vtx ih =>
    obtain ⟨first, isFirst, firstShows⟩ := updateCoins_shows usage shows_ applies.1
    obtain ⟨updated, others, result⟩ := ih firstShows applies.2
    refine ⟨updated, ?_, result⟩
    rw [updateAll, isFirst]
    simp only [bind, Except.bind, others]
    rfl

theorem disconnectTransactions_shows {orig : Layers} (originalShows : Shows orig flat)
    (restorable : Restorable flat) (height : 0 < nHeight)
    (noCoinbase : ∀ tx ∈ vtx, tx.isCoinBase = false) (applies : AppliesAll nHeight getHash vtx flat)
    (shows_ : Shows layers (appliedAll nHeight getHash vtx flat)) (enforceBIP30 fClean : Bool) :
    ∃ restored, disconnectTransactions usage getHash nHeight enforceBIP30
        (vtx.zip ((recordedAll nHeight getHash vtx flat).map some)).reverse fClean layers =
          .ok (restored, some fClean) ∧ Shows restored flat := by
  induction vtx generalizing orig flat with
  | nil => exact ⟨layers, rfl, shows_⟩
  | cons tx vtx ih =>
    obtain ⟨here, rest⟩ := forall_mem_cons.mp noCoinbase
    obtain ⟨first, -, firstShows⟩ := updateCoins_shows usage originalShows applies.1
    obtain ⟨later, restoredLater, laterShows⟩ :=
      ih firstShows (restorable.applied height tx) rest applies.2 shows_
    obtain ⟨restored, last, result⟩ := disconnectTransaction_shows usage originalShows restorable
      applies.1 laterShows (some (recorded tx flat)) (by rw [here]; rfl) enforceBIP30 fClean
    refine ⟨restored, ?_, result⟩
    rw [recordedAll, map_cons, zip_cons_cons, reverse_cons, disconnectTransactions,
      undoLoop_append restoredLater, undoLoop, last]
    rfl

/-- Disconnecting a block undoes connecting it. The caches show coins with heights above
zero that can be spent, the first transaction of the block is its only coinbase, and all its
transactions can be applied in order. Then the block can be connected, and disconnecting it
with the recorded undo data, from any caches that show the same coins, is clean and shows
exactly the coins from before. -/
theorem disconnectBlock_restores {Block : Type*} [DecidableEq Block] (blocks : BlockTree Block)
    {pindex prev : Block} (parent : (blocks.memory pindex).pprev = some prev)
    (valid : layers.Valid) (nonempty : layers.caches ≠ []) (restorable : Restorable layers.view)
    {coinbase : CTransaction} (isCoinbase : coinbase.isCoinBase) {vtx : List CTransaction}
    (noCoinbase : ∀ tx ∈ vtx, tx.isCoinBase = false)
    (applies : AppliesAll (blocks.memory pindex).nHeight getHash (coinbase :: vtx) layers.view) :
    ∃ conn blockUndo,
      connectCoins usage getHash (blocks.memory pindex).nHeight (coinbase :: vtx) layers =
        .ok (conn, blockUndo) ∧ ∀ cur : Layers, cur.Valid → cur.caches ≠ [] → cur.view = conn.view →
        ∃ disconnected,
          disconnectBlock usage getHash blocks.memory (some blockUndo) (coinbase :: vtx) pindex cur =
            .ok disconnected ∧ disconnected.result = .ok ∧ disconnected.layers.view = layers.view ∧
          disconnected.bestBlock = some (blocks.memory prev).hash := by
  have height : 0 < (blocks.memory pindex).nHeight := by
    rw [blocks.nHeight_succ parent]
    exact Nat.succ_pos _
  have shows_ : Shows layers layers.view := ⟨valid, nonempty, rfl⟩
  obtain ⟨conn, isConnected, connectedShows⟩ := updateAll_shows usage shows_ applies
  refine ⟨conn, _, by rw [connectCoins, isConnected]; rfl, ?_⟩
  intro cur currentValid currentNonempty view_eq
  rw [connectedShows.view_eq] at view_eq
  obtain ⟨first, -, firstShows⟩ := updateCoins_shows usage shows_ applies.1
  generalize enforce : (!overwrittenBlocks.contains
    ((blocks.memory pindex).nHeight, (blocks.memory pindex).hash)) = enforceBIP30
  obtain ⟨later, restoredLater, laterShows⟩ := disconnectTransactions_shows usage firstShows
    (restorable.applied height coinbase) height noCoinbase applies.2
    ⟨currentValid, currentNonempty, view_eq⟩ enforceBIP30 true
  obtain ⟨restored, last, result⟩ := disconnectTransaction_shows usage shows_ restorable applies.1
    laterShows none (by rw [isCoinbase]; rfl) enforceBIP30 true
  refine ⟨⟨restored, .ok, some (blocks.memory prev).hash⟩, ?_, rfl, result.view_eq, rfl⟩
  rw [disconnectBlock]
  dsimp only
  rw [recordedAll, tail_cons, length_recordedAll, length_cons, if_neg (not_not.mpr rfl),
    zip_cons_cons, reverse_cons, enforce, disconnectTransactions, undoLoop_append restoredLater,
    undoLoop, last]
  simp only [bind, Except.bind, undoLoop, parent]
  rfl

end

/-! ## A block on the genesis block -/

theorem oneOnGenesis_fits : 2 ≤ 2 ^ 256 := by decide

def oneOnGenesis : BlockTree (Fin 2) :=
  BlockTree.linear (fun _ => 1) (fun _ => 1) (fun _ => blockHaveData) oneOnGenesis_fits

def oneCoin (coin : Coin) : CoinMap := fun point => if point = ⟨9, 0⟩ then some coin else none

def coinbaseTx (nLockTime : BitVec 32) : CTransaction :=
  ⟨1, [⟨⟨0, 0xffffffff⟩, [], 0, []⟩], [⟨25, []⟩], nLockTime⟩

def spendingTx : CTransaction := ⟨1, [⟨⟨9, 0⟩, [], 0, []⟩], [⟨50, []⟩], 3⟩

def lockTimeHash (tx : CTransaction) : Uint256 := tx.nLockTime.setWidth 256

theorem disconnectBlock_restores_oneCoin :
    ∃ conn blockUndo, connectCoins (fun _ => 0) lockTimeHash 1 [coinbaseTx 2, spendingTx]
          ⟨[false].map .new, oneCoin ⟨⟨50, []⟩, true, 7⟩⟩ = .ok (conn, blockUndo) ∧
      ∀ cur : Layers, cur.Valid → cur.caches ≠ [] → cur.view = conn.view → ∃ disconnected,
          disconnectBlock (fun _ => 0) lockTimeHash oneOnGenesis.memory (some blockUndo)
            [coinbaseTx 2, spendingTx] 1 cur = .ok disconnected ∧ disconnected.result = .ok ∧
          disconnected.layers.view = Layers.view ⟨[false].map .new, oneCoin ⟨⟨50, []⟩, true, 7⟩⟩ ∧
          disconnected.bestBlock = some (oneOnGenesis.memory 0).hash := by
  have only : ∀ point coin, oneCoin ⟨⟨50, []⟩, true, 7⟩ point = some coin →
      coin = ⟨⟨50, []⟩, true, 7⟩ := by
    intro point coin found
    rw [oneCoin] at found
    split at found
    · exact (some_inj.mp found).symm
    · cases found
  obtain ⟨valid, view_eq⟩ := valid_of_new
    (fun point coin found => by rw [only point coin found]; rfl) [false]
  have isCoinbase : (coinbaseTx 2).isCoinBase := rfl
  have parent : (oneOnGenesis.memory 1).pprev = some 0 := rfl
  refine disconnectBlock_restores (fun _ => 0) oneOnGenesis parent valid (cons_ne_nil _ _) ?_
    isCoinbase ?_ ?_
  · rw [view_eq]
    intro point coin found
    rw [only point coin found]
    decide
  · intro tx mem
    rw [mem_singleton.mp mem]
    rfl
  · rw [view_eq]
    refine ⟨⟨fun notCoinbase => (by cases notCoinbase), by decide, ⟨fun _ => rfl, trivial⟩⟩,
      ⟨fun _ => ⟨rfl, trivial⟩, by decide, ⟨fun _ => rfl, trivial⟩⟩, trivial⟩

/-- A coin with an unspendable script is not added back, although the result is `ok`; and a
block with a second coinbase transaction cannot be disconnected. -/
theorem disconnectBlock_not_restoring : (∃ conn blockUndo disconnected,
      connectCoins (fun _ => 0) lockTimeHash 1 [coinbaseTx 2, spendingTx]
          ⟨[false].map .new, oneCoin ⟨⟨50, [opReturn]⟩, true, 7⟩⟩ = .ok (conn, blockUndo) ∧
        disconnectBlock (fun _ => 0) lockTimeHash oneOnGenesis.memory (some blockUndo)
          [coinbaseTx 2, spendingTx] 1 conn = .ok disconnected ∧
        disconnected.result = .ok ∧ disconnected.layers.view ⟨9, 0⟩ = none) ∧
      ∃ conn blockUndo disconnected,
        connectCoins (fun _ => 0) lockTimeHash 1 [coinbaseTx 2, coinbaseTx 4]
            ⟨[false].map .new, fun _ => none⟩ = .ok (conn, blockUndo) ∧
          disconnectBlock (fun _ => 0) lockTimeHash oneOnGenesis.memory (some blockUndo)
            [coinbaseTx 2, coinbaseTx 4] 1 conn = .ok disconnected ∧
          disconnected.result = .failed :=
  ⟨⟨_, _, _, rfl, rfl, rfl, rfl⟩, ⟨_, _, _, rfl, rfl, rfl⟩⟩

end BitcoinCore.BlockUndo
