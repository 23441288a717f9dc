import BitcoinCore.Primitives.Transaction

/-!
# Layered caches of coins

The unspent transaction outputs are kept in a backing map under a stack of caches.
A cache answers from its entries and asks the layer below on a miss; changes stay in
the top cache until it is flushed or synchronised, which writes its flagged entries
to the layer below. The flagged entries are linked in a list.

`usage` gives the memory that a coin has allocated.
-/

namespace BitcoinCore

/-! ## Coins -/

structure Coin where
  out : CTxOut
  fCoinBase : Bool
  nHeight : ℕ
  deriving DecidableEq

namespace Coin

def null : Coin := { out := .null, fCoinBase := false, nHeight := 0 }

def isSpent (coin : Coin) : Bool := coin.out.isNull

def asUnspent (coin : Coin) : Option Coin := if coin.isSpent then none else some coin

end Coin

namespace Coins

/-- What the code throws or asserts. -/
inductive Error where
  | assertion
  | overwritesUnspent
  | freshMisapplied
  | notCleared
  deriving DecidableEq

structure CCoinsCacheEntry where
  coin : Coin
  dirty : Bool
  fresh : Bool
  deriving DecidableEq

def CCoinsCacheEntry.isFlagged (entry : CCoinsCacheEntry) : Bool := entry.dirty || entry.fresh

structure CCoinsViewCache where
  overlay : Bool
  cacheCoins : AList fun _ : COutPoint => CCoinsCacheEntry
  flagged : List COutPoint
  cachedCoinsUsage : ℕ
  dirtyCount : ℕ

abbrev CoinMap := COutPoint → Option Coin

def trySub (val amount : ℕ) : ℕ := if amount ≤ val then val - amount else val

namespace CCoinsViewCache

def new (overlay : Bool) : CCoinsViewCache where
  overlay := overlay
  cacheCoins := ∅
  flagged := []
  cachedCoinsUsage := 0
  dirtyCount := 0

/-! ## Entries -/

section

variable (cache : CCoinsViewCache) (point : COutPoint)

def find : Option CCoinsCacheEntry := cache.cacheCoins.lookup point

/-- Put a flagged entry; it goes to the end of the list unless it is there. -/
def setFlagged (entry : CCoinsCacheEntry) : CCoinsViewCache :=
  { cache with
    cacheCoins := cache.cacheCoins.insert point entry
    flagged :=
      if (cache.find point).any CCoinsCacheEntry.isFlagged then cache.flagged
      else cache.flagged ++ [point] }

def setClean (entry : CCoinsCacheEntry) : CCoinsViewCache :=
  { cache with
    cacheCoins := cache.cacheCoins.insert point { entry with dirty := false, fresh := false }
    flagged := cache.flagged.erase point }

def eraseEntry : CCoinsViewCache :=
  { cache with
    cacheCoins := cache.cacheCoins.erase point
    flagged := cache.flagged.erase point }

def uncount (usage : Coin → ℕ) (entry : CCoinsCacheEntry) : CCoinsViewCache :=
  { cache with
    dirtyCount := trySub cache.dirtyCount entry.dirty.toNat
    cachedCoinsUsage := trySub cache.cachedCoinsUsage (usage entry.coin) }

end

/-! ## Changes of a cache -/

variable (usage : Coin → ℕ) (cache : CCoinsViewCache) (point : COutPoint)

def emplaceEntry : CCoinsCacheEntry :=
  (cache.find point).getD { coin := .null, dirty := false, fresh := false }

def storeCoin (coin : Coin) (fresh : Bool) : CCoinsViewCache :=
  let entry := cache.emplaceEntry point
  let uncounted := if (cache.find point).isSome then cache.uncount usage entry else cache
  let stored := uncounted.setFlagged point
    { coin := coin, dirty := true, fresh := entry.fresh || fresh }
  { stored with
    dirtyCount := stored.dirtyCount + 1
    cachedCoinsUsage := stored.cachedCoinsUsage + usage coin }

def addCoin (coin : Coin) (possibleOverwrite : Bool) : Except Error CCoinsViewCache :=
  let entry := cache.emplaceEntry point
  if coin.isSpent then .error .assertion
  else if coin.out.scriptPubKey.isUnspendable then .ok cache
  else if !possibleOverwrite && !entry.coin.isSpent then .error .overwritesUnspent
  else .ok (cache.storeCoin usage point coin (!possibleOverwrite && !entry.dirty))

def spendEntry (entry : CCoinsCacheEntry) : CCoinsViewCache :=
  let uncounted := cache.uncount usage entry
  if entry.fresh then uncounted.eraseEntry point
  else
    let stored := uncounted.setFlagged point { coin := .null, dirty := true, fresh := entry.fresh }
    { stored with dirtyCount := stored.dirtyCount + 1 }

def writeEntry (entry : CCoinsCacheEntry) : Except Error CCoinsViewCache :=
  match cache.find point with
  | none =>
    if entry.fresh && entry.coin.isSpent then .ok cache
    else
      let stored := cache.setFlagged point
        { coin := entry.coin, dirty := true, fresh := entry.fresh }
      .ok { stored with
        dirtyCount := stored.dirtyCount + 1
        cachedCoinsUsage := stored.cachedCoinsUsage + usage entry.coin }
  | some own =>
    if entry.fresh && !own.coin.isSpent then .error .freshMisapplied
    else if own.fresh && entry.coin.isSpent then
      .ok ((cache.uncount usage own).eraseEntry point)
    else
      let stored := cache.setFlagged point { coin := entry.coin, dirty := true, fresh := own.fresh }
      .ok { stored with
        dirtyCount := stored.dirtyCount + (!own.dirty).toNat
        cachedCoinsUsage :=
          trySub stored.cachedCoinsUsage (usage own.coin) + usage entry.coin }

/-- Step from a flagged entry to the next: unless the cache will be emptied, a spent
entry is erased and another one becomes clean. -/
def nextAndMaybeErase (willErase : Bool) (entry : CCoinsCacheEntry) : CCoinsViewCache :=
  let counted := { cache with dirtyCount := trySub cache.dirtyCount entry.dirty.toNat }
  if willErase then counted
  else if entry.coin.isSpent then counted.eraseEntry point
  else counted.setClean point entry

def clear : CCoinsViewCache :=
  { cache with cacheCoins := ∅, flagged := [], cachedCoinsUsage := 0 }

def uncache : CCoinsViewCache :=
  match cache.find point with
  | none => cache
  | some entry =>
    if entry.dirty then cache
    else
      { cache with
          cachedCoinsUsage := trySub cache.cachedCoinsUsage (usage entry.coin) }.eraseEntry point

end CCoinsViewCache

/-! ## Lookups through the stack

A stack of caches is a list, the top one first. -/

section

variable (usage : Coin → ℕ) (base : CoinMap) (point : COutPoint) (caches : List CCoinsViewCache)

def peekCoin : List CCoinsViewCache → Option Coin
  | [] => base point
  | cache :: below =>
    match cache.find point with
    | some entry => entry.coin.asUnspent
    | none => peekCoin below

/-- The entry of the top cache, made from the coin that the layer below returns if
there is none; `fetched` are the caches below after they were asked. -/
def fetchCoin (cache : CCoinsViewCache) (below : List CCoinsViewCache)
    (fetched : List CCoinsViewCache × Option Coin) :
    List CCoinsViewCache × Option CCoinsCacheEntry :=
  match cache.find point with
  | some entry => (cache :: below, some entry)
  | none =>
    match fetched.2 with
    | none => (cache :: fetched.1, none)
    | some coin =>
      let entry : CCoinsCacheEntry := { coin := coin, dirty := false, fresh := false }
      ({ cache with
          cacheCoins := cache.cacheCoins.insert point entry
          cachedCoinsUsage := cache.cachedCoinsUsage + usage coin } :: fetched.1, some entry)

/-- An overlay peeks, another cache gets the coin and fills the caches below. -/
def fetchCoinFromBase (cache : CCoinsViewCache) (below : List CCoinsViewCache)
    (got : List CCoinsViewCache × Option Coin) : List CCoinsViewCache × Option Coin :=
  if cache.overlay then (below, peekCoin base point below) else got

def getCoin : List CCoinsViewCache → List CCoinsViewCache × Option Coin
  | [] => ([], base point)
  | cache :: below =>
    let fetched := fetchCoin usage point cache below
      (fetchCoinFromBase base point cache below (getCoin below))
    (fetched.1, fetched.2.bind (·.coin.asUnspent))

def fetchTop : List CCoinsViewCache → List CCoinsViewCache × Option CCoinsCacheEntry
  | [] => ([], none)
  | cache :: below =>
    fetchCoin usage point cache below
      (fetchCoinFromBase base point cache below (getCoin usage base point below))

def haveCoin : List CCoinsViewCache × Bool :=
  let fetched := fetchTop usage base point caches
  (fetched.1, fetched.2.any fun entry => !entry.coin.isSpent)

def accessCoin : List CCoinsViewCache × Coin :=
  let fetched := fetchTop usage base point caches
  (fetched.1, (fetched.2.map CCoinsCacheEntry.coin).getD .null)

/-- Spend a coin; the second part is the coin that is moved out, if the call
succeeds. -/
def spendCoin : List CCoinsViewCache × Option Coin :=
  let fetched := fetchTop usage base point caches
  match fetched.1, fetched.2 with
  | cache :: below, some entry => (cache.spendEntry usage point entry :: below, some entry.coin)
  | caches, _ => (caches, none)

end

/-! ## Flushing -/

section

variable (usage : Coin → ℕ)

structure Layers where
  caches : List CCoinsViewCache
  base : CoinMap

def writeBase (base : CoinMap) (point : COutPoint) (entry : CCoinsCacheEntry) : CoinMap :=
  Function.update base point entry.coin.asUnspent

def writeBelow (below : Layers) (point : COutPoint) (entry : CCoinsCacheEntry) :
    Except Error Layers :=
  match below.caches with
  | [] => .ok { below with base := writeBase below.base point entry }
  | parent :: rest => do
    let parent ← parent.writeEntry usage point entry
    return { below with caches := parent :: rest }

def batchWrite (willErase : Bool) :
    List COutPoint → CCoinsViewCache → Layers → Except Error (CCoinsViewCache × Layers)
  | [], cache, below => .ok (cache, below)
  | point :: outpoints, cache, below =>
    match cache.find point with
    | none => batchWrite willErase outpoints cache below
    | some entry => do
      let below ← if entry.dirty then writeBelow usage below point entry else .ok below
      batchWrite willErase outpoints (cache.nextAndMaybeErase point willErase entry) below

def flush (layers : Layers) : Except Error Layers :=
  match layers.caches with
  | [] => .ok layers
  | cache :: below => do
    let (cache, below) ← batchWrite usage true cache.flagged cache { layers with caches := below }
    return { below with caches := cache.clear :: below.caches }

def sync (layers : Layers) : Except Error Layers :=
  match layers.caches with
  | [] => .ok layers
  | cache :: below => do
    let (cache, below) ← batchWrite usage false cache.flagged cache { layers with caches := below }
    if cache.flagged.isEmpty then return { below with caches := cache :: below.caches }
    else .error .notCleared

def uncache (point : COutPoint) (layers : Layers) : Except Error Layers :=
  match layers.caches with
  | [] => .ok layers
  | cache :: below => .ok { layers with caches := cache.uncache usage point :: below }

def onLayer (op : Layers → Except Error Layers) : ℕ → Layers → Except Error Layers
  | 0, layers => op layers
  | depth + 1, layers =>
    match layers.caches with
    | [] => .ok layers
    | cache :: below => do
      let below ← onLayer op depth { layers with caches := below }
      return { below with caches := cache :: below.caches }

end

/-! ## Operations -/

inductive Operation where
  | addCoin (point : COutPoint) (coin : Coin) (possibleOverwrite : Bool)
  | spendCoin (point : COutPoint)
  | getCoin (point : COutPoint)
  | accessCoin (point : COutPoint)
  | haveCoin (point : COutPoint)
  | peekCoin (point : COutPoint)
  | uncache (depth : ℕ) (point : COutPoint)
  | flush (depth : ℕ)
  | sync (depth : ℕ)

inductive Answer where
  | done
  | coin (coin : Option Coin)
  | reference (coin : Coin)
  | moved (coin : Option Coin)
  | bool (val : Bool)
  deriving DecidableEq

def step (usage : Coin → ℕ) (layers : Layers) : Operation → Except Error (Layers × Answer)
  | .addCoin point coin possibleOverwrite =>
    match layers.caches with
    | [] => .ok (layers, .done)
    | cache :: below => do
      let cache ← cache.addCoin usage point coin possibleOverwrite
      return ({ layers with caches := cache :: below }, .done)
  | .spendCoin point =>
    let spent := spendCoin usage layers.base point layers.caches
    .ok ({ layers with caches := spent.1 }, .moved spent.2)
  | .getCoin point =>
    let got := getCoin usage layers.base point layers.caches
    .ok ({ layers with caches := got.1 }, .coin got.2)
  | .accessCoin point =>
    let accessed := accessCoin usage layers.base point layers.caches
    .ok ({ layers with caches := accessed.1 }, .reference accessed.2)
  | .haveCoin point =>
    let had := haveCoin usage layers.base point layers.caches
    .ok ({ layers with caches := had.1 }, .bool had.2)
  | .peekCoin point => .ok (layers, .coin (peekCoin layers.base point layers.caches))
  | .uncache depth point => do
    return (← onLayer (uncache usage point) depth layers, .done)
  | .flush depth => do return (← onLayer (flush usage) depth layers, .done)
  | .sync depth => do return (← onLayer (sync usage) depth layers, .done)

def run (usage : Coin → ℕ) : Layers → List Operation → Except Error (Layers × List Answer)
  | layers, [] => .ok (layers, [])
  | layers, op :: ops => do
    let (layers, answer) ← step usage layers op
    let (layers, answers) ← run usage layers ops
    return (layers, answer :: answers)

end Coins

end BitcoinCore
