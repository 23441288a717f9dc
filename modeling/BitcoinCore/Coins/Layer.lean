import BitcoinCore.Coins.Cache
import BitcoinCore.Lib.WriteBackCache

/-!
# One cache as a layer of a write-back cache

An entry of a cache is an entry of a write-back cache in which a spent coin is an
absent value. A cache is valid over the map below it (`CacheValid`) when the flags of
its entries are right, the list of flagged entries is exact, and a spent entry holds
the null coin.

Every change of a cache replaces one entry (`CacheValid.replace`): adding a coin,
spending one, writing an entry of the cache above, copying a coin from below,
uncaching.
-/

namespace BitcoinCore.Coins

open WriteBackCache Function Option Bool AList Entry CCoinsViewCache CCoinsCacheEntry

/-- The entry as one of a write-back cache: a spent coin is an absent value. -/
def CCoinsCacheEntry.toEntry (entry : CCoinsCacheEntry) : WriteBackCache.Entry Coin :=
  { value := entry.coin.asUnspent, dirty := entry.dirty, fresh := entry.fresh }

variable {coin : Coin}

theorem asUnspent_eq_some (unspent : coin.isSpent = false) : coin.asUnspent = some coin := by
  simp [Coin.asUnspent, unspent]

theorem asUnspent_eq_none (spent : coin.isSpent) : coin.asUnspent = none := by
  simp [Coin.asUnspent, spent]

theorem isNone_asUnspent (coin : Coin) : coin.asUnspent.isNone = coin.isSpent := by
  cases spent : coin.isSpent with
  | false => rw [asUnspent_eq_some spent]; rfl
  | true => rw [asUnspent_eq_none spent]; rfl

theorem isSome_asUnspent (coin : Coin) : coin.asUnspent.isSome = !coin.isSpent := by
  rw [← isNone_asUnspent, not_isNone]

theorem isSpent_of_asUnspent {other : Coin} (same : coin.asUnspent = some other) :
    other.isSpent = false := by
  cases spent : coin.isSpent with
  | true => simp [asUnspent_eq_none spent] at same
  | false =>
    rw [asUnspent_eq_some spent, some_inj] at same
    rw [← same, spent]

variable {cache changed : CCoinsViewCache} {point : COutPoint} {entry : CCoinsCacheEntry}

namespace CCoinsViewCache

def layer (cache : CCoinsViewCache) : Layer COutPoint Coin :=
  fun point => (cache.find point).map toEntry

/-! ## Entries and the list of flagged ones -/

variable {replaced : Option CCoinsCacheEntry}

theorem find_insert : (fun other => (cache.cacheCoins.insert point entry).lookup other) =
      update cache.find point (some entry) := by
  funext other
  by_cases same : other = point
  · subst same
    rw [update_self, lookup_insert]
  · rw [update_of_ne same, lookup_insert_ne same]
    rfl

theorem find_setFlagged :
    (cache.setFlagged point entry).find = update cache.find point (some entry) :=
  find_insert

theorem find_eraseEntry : (cache.eraseEntry point).find = update cache.find point none := by
  funext other
  by_cases same : other = point
  · subst same
    rw [update_self]
    exact lookup_erase other cache.cacheCoins
  · rw [update_of_ne same]
    exact lookup_erase_ne same

theorem layer_of_find (find_eq : changed.find = update cache.find point replaced) :
    changed.layer = update cache.layer point (replaced.map toEntry) := by
  funext other
  rw [layer, find_eq]
  by_cases same : other = point
  · subst same
    rw [update_self, update_self]
  · rw [update_of_ne same, update_of_ne same]
    rfl

structure FlagsListed (cache : CCoinsViewCache) : Prop where
  nodup : cache.flagged.Nodup
  mem_iff : ∀ point, point ∈ cache.flagged ↔ (cache.find point).any isFlagged

theorem FlagsListed.exists_entry (listed : cache.FlagsListed) (mem : point ∈ cache.flagged) :
    ∃ entry, cache.find point = some entry ∧ entry.isFlagged := by
  have isFlagged := (listed.mem_iff point).mp mem
  cases found : cache.find point with
  | none => simp [found] at isFlagged
  | some entry => exact ⟨entry, rfl, by simpa [found] using isFlagged⟩

theorem FlagsListed.setFlagged (listed : cache.FlagsListed) (isFlagged : entry.isFlagged) :
    (cache.setFlagged point entry).FlagsListed := by
  by_cases before : (cache.find point).any CCoinsCacheEntry.isFlagged
  · have same : (cache.setFlagged point entry).flagged = cache.flagged := if_pos before
    refine ⟨by rw [same]; exact listed.nodup, ?_⟩
    intro other
    rw [same, listed.mem_iff, find_setFlagged]
    by_cases here : other = point
    · subst here
      simp [before, isFlagged]
    · rw [update_of_ne here]
  · have appended : (cache.setFlagged point entry).flagged = cache.flagged ++ [point] :=
      if_neg before
    have notListed : point ∉ cache.flagged := by rwa [listed.mem_iff]
    refine ⟨?_, ?_⟩
    · rw [appended, ← List.concat_eq_append]
      exact listed.nodup.concat notListed
    · intro other
      rw [appended, find_setFlagged]
      by_cases here : other = point
      · subst here
        simp [isFlagged]
      · rw [update_of_ne here, ← listed.mem_iff]
        simp [here]

theorem FlagsListed.unlisted (listed : cache.FlagsListed)
    (find_eq : changed.find = update cache.find point replaced)
    (flagged_eq : changed.flagged = cache.flagged.erase point)
    (notFlagged : replaced.any isFlagged = false) : changed.FlagsListed := by
  refine ⟨by rw [flagged_eq]; exact listed.nodup.erase point, ?_⟩
  intro other
  rw [flagged_eq, find_eq, listed.nodup.mem_erase_iff]
  by_cases here : other = point
  · subst here
    simp [notFlagged]
  · rw [update_of_ne here, ← listed.mem_iff]
    simp [here]

end CCoinsViewCache

/-! ## Valid caches -/

def NullIfSpent (entry : CCoinsCacheEntry) : Prop := entry.coin.isSpent → entry.coin = .null

/-- A cache is right with respect to the map below it. -/
structure CacheValid (cache : CCoinsViewCache) (below : CoinMap) : Prop where
  coherent : Coherent cache.layer below
  listed : cache.FlagsListed
  nullIfSpent : ∀ point entry, cache.find point = some entry → NullIfSpent entry

theorem cacheValid_of_empty (cache : CCoinsViewCache)
    (find_eq : ∀ point, cache.find point = none) (flagged_eq : cache.flagged = []) (below : CoinMap) :
    CacheValid cache below ∧ view cache.layer below = below := by
  have noEntry : ∀ point, cache.layer point = none := by
    intro point
    rw [layer, find_eq, map_none]
  refine ⟨⟨?_, ⟨by rw [flagged_eq]; exact List.nodup_nil, ?_⟩, ?_⟩, ?_⟩
  · intro point
    rw [noEntry]
    exact validAt_none _
  · intro point
    simp [flagged_eq, find_eq]
  · intro point entry found
    simp [find_eq] at found
  · funext point
    rw [view, noEntry, valueAt]

variable {below : CoinMap}

theorem CacheValid.entry_valid (valid : CacheValid cache below) (found : cache.find point = some entry) :
    entry.toEntry.Valid (below point) :=
  valid.coherent point entry.toEntry (by rw [layer, found]; rfl)

theorem view_of_find (found : cache.find point = some entry) :
    view cache.layer below point = entry.coin.asUnspent := by
  rw [view, layer, found]
  rfl

theorem view_of_find_none (missing : cache.find point = none) :
    view cache.layer below point = below point := by
  rw [view, layer, missing]
  rfl

theorem CacheValid.replace (valid : CacheValid cache below) (replaced : Option CCoinsCacheEntry)
    (find_eq : changed.find = update cache.find point replaced) (listed : changed.FlagsListed)
    (validAt : ValidAt (replaced.map toEntry) (below point))
    (nullIfSpent : ∀ entry, replaced = some entry → NullIfSpent entry) : CacheValid changed below ∧
      view changed.layer below = update (view cache.layer below) point
        (valueAt (replaced.map toEntry) (below point)) := by
  have layer_eq := layer_of_find find_eq
  refine ⟨⟨?_, listed, ?_⟩, ?_⟩
  · rw [layer_eq]
    exact valid.coherent.update validAt
  · intro other entry found
    rw [find_eq] at found
    by_cases same : other = point
    · subst same
      rw [update_self] at found
      exact nullIfSpent entry found
    · rw [update_of_ne same] at found
      exact valid.nullIfSpent other entry found
  · rw [layer_eq, view_update]

theorem CacheValid.setFlagged (valid : CacheValid cache below) (entry : CCoinsCacheEntry)
    (find_eq : changed.find = (cache.setFlagged point entry).find)
    (flagged_eq : changed.flagged = (cache.setFlagged point entry).flagged)
    (isFlagged : entry.isFlagged) (entryValid : entry.toEntry.Valid (below point))
    (nullIfSpent : NullIfSpent entry) : CacheValid changed below ∧ view changed.layer below =
        update (view cache.layer below) point entry.coin.asUnspent := by
  have listed : (cache.setFlagged point entry).FlagsListed := valid.listed.setFlagged isFlagged
  refine valid.replace (some entry) (by rw [find_eq, find_setFlagged])
    ⟨by rw [flagged_eq]; exact listed.nodup, by rw [flagged_eq, find_eq]; exact listed.mem_iff⟩
    (validAt_some.mpr entryValid) ?_
  rintro other ⟨⟩
  exact nullIfSpent

theorem CacheValid.eraseEntry (valid : CacheValid cache below)
    (find_eq : changed.find = (cache.eraseEntry point).find)
    (flagged_eq : changed.flagged = (cache.eraseEntry point).flagged) :
    CacheValid changed below ∧ view changed.layer below =
        update (view cache.layer below) point (below point) := by
  have erased := find_eq.trans find_eraseEntry
  exact valid.replace none erased
    (valid.listed.unlisted erased flagged_eq rfl) (validAt_none _) (by simp)

variable (usage : Coin → ℕ)

theorem emplaceEntry_of_nothing (valid : CacheValid cache below)
    (nothing : view cache.layer below point = none) : (cache.emplaceEntry point).coin.isSpent ∧
      ((cache.emplaceEntry point).dirty = false → below point = none) := by
  rw [emplaceEntry]
  cases found : cache.find point with
  | none =>
    rw [view_of_find_none found] at nothing
    exact ⟨rfl, fun _ => nothing⟩
  | some entry =>
    rw [view_of_find found] at nothing
    refine ⟨by rw [← isNone_asUnspent]; simp [nothing], ?_⟩
    intro clean
    exact absurd ((valid.entry_valid found).absent nothing).1 (ne_true_of_eq_false clean)

variable (valid : CacheValid cache below)
include valid

theorem storeCoin_valid {fresh : Bool}
    (unspent : coin.isSpent = false) (fresh_below : fresh → below point = none) :
    CacheValid (cache.storeCoin usage point coin fresh) below ∧
      view (cache.storeCoin usage point coin fresh).layer below =
        update (view cache.layer below) point (some coin) := by
  have isFresh : ((cache.emplaceEntry point).fresh || fresh) = true →
      below point = none := by
    rw [or_eq_true]
    rintro (wasFresh | isFresh)
    · rw [emplaceEntry] at wasFresh
      cases found : cache.find point with
      | none => simp [found] at wasFresh
      | some entry =>
        rw [found] at wasFresh
        exact (valid.entry_valid found).fresh wasFresh
    · exact fresh_below isFresh
  rw [← asUnspent_eq_some unspent]
  let stored : CCoinsCacheEntry :=
    { coin := coin, dirty := true, fresh := (cache.emplaceEntry point).fresh || fresh }
  have stored_valid : stored.toEntry.Valid (below point) := by
    rw [toEntry, asUnspent_eq_some unspent]
    exact valid_of_dirty isFresh
  have find_eq : (cache.storeCoin usage point coin fresh).find =
      (cache.setFlagged point stored).find := by
    rw [storeCoin]
    split <;> rfl
  have flagged_eq : (cache.storeCoin usage point coin fresh).flagged =
      (cache.setFlagged point stored).flagged := by
    rw [storeCoin]
    split <;> rfl
  refine valid.setFlagged stored find_eq flagged_eq rfl stored_valid ?_
  intro spent
  exact absurd spent (ne_true_of_eq_false unspent)

theorem addCoin_valid {possibleOverwrite : Bool} (unspent : coin.isSpent = false)
    (nothing : possibleOverwrite = false → view cache.layer below point = none) :
    ∃ changed, cache.addCoin usage point coin possibleOverwrite = .ok changed ∧
      CacheValid changed below ∧ view changed.layer below =
        if coin.out.scriptPubKey.isUnspendable then view cache.layer below
        else update (view cache.layer below) point (some coin) := by
  simp only [addCoin, if_neg (ne_true_of_eq_false unspent)]
  by_cases unspendable : coin.out.scriptPubKey.isUnspendable
  · rw [if_pos unspendable, if_pos unspendable]
    exact ⟨cache, rfl, valid, rfl⟩
  · have allowed : ¬(!possibleOverwrite && !(cache.emplaceEntry point).coin.isSpent) = true := by
      rw [and_eq_true, not_eq_true', not_eq_true']
      rintro ⟨notOverwriting, overwrites⟩
      exact absurd (emplaceEntry_of_nothing valid (nothing notOverwriting)).1
        (ne_true_of_eq_false overwrites)
    rw [if_neg unspendable, if_neg unspendable, if_neg allowed]
    refine ⟨_, rfl, storeCoin_valid usage valid unspent ?_⟩
    rw [and_eq_true, not_eq_true', not_eq_true']
    rintro ⟨notOverwriting, clean⟩
    exact (emplaceEntry_of_nothing valid (nothing notOverwriting)).2 clean

theorem spendEntry_valid (found : cache.find point = some entry) :
    CacheValid (cache.spendEntry usage point entry) below ∧
      view (cache.spendEntry usage point entry).layer below =
        update (view cache.layer below) point none := by
  have removed := removed_valid (valid.entry_valid found)
  by_cases isFresh : entry.fresh
  · have spent : cache.spendEntry usage point entry =
        (cache.uncount usage entry).eraseEntry point := by
      simp only [spendEntry, if_pos isFresh]
    have nothing : below point = none := (valid.entry_valid found).fresh isFresh
    rw [spent, ← nothing]
    exact valid.eraseEntry rfl rfl
  · rw [Entry.removed, if_neg (by exact isFresh)] at removed
    let cleared : CCoinsCacheEntry := { coin := .null, dirty := true, fresh := false }
    have spent : (cache.spendEntry usage point entry).find = (cache.setFlagged point cleared).find ∧
        (cache.spendEntry usage point entry).flagged =
          (cache.setFlagged point cleared).flagged := by
      simp only [spendEntry, eq_false_iff.mpr isFresh]
      exact ⟨rfl, rfl⟩
    exact valid.setFlagged cleared spent.1 spent.2 rfl (validAt_some.mp removed.1) (fun _ => rfl)

/-- An entry of the cache above is written: no error is raised, and its coin is
seen. -/
theorem writeEntry_valid (entryValid : entry.toEntry.Valid (view cache.layer below point))
    (nullIfSpent : NullIfSpent entry) :
    ∃ changed, cache.writeEntry usage point entry = .ok changed ∧ CacheValid changed below ∧
      view changed.layer below = update (view cache.layer below) point entry.coin.asUnspent := by
  obtain ⟨res, absorbed, resultValid, value_eq⟩ :=
    absorb_valid entryValid (valid.coherent point)
  rw [layer] at absorbed
  cases found : cache.find point with
  | none =>
    rw [found, map_none, absorb, toEntry, isNone_asUnspent] at absorbed
    simp only [writeEntry, found]
    split at absorbed
    case isTrue dropped =>
      cases absorbed
      rw [if_pos dropped]
      refine ⟨cache, rfl, valid, (update_eq_self_iff.mpr ?_).symm⟩
      rw [view_of_find_none found]
      exact value_eq.symm
    case isFalse stored =>
      cases absorbed
      rw [if_neg stored]
      exact ⟨_, rfl, valid.setFlagged { entry with dirty := true } rfl rfl rfl
        (validAt_some.mp resultValid) nullIfSpent⟩
  | some own =>
    rw [found, map_some, absorb, toEntry, isNone_asUnspent,
      toEntry, isSome_asUnspent] at absorbed
    simp only [writeEntry, found]
    split at absorbed
    case isTrue _ => simp at absorbed
    case isFalse notMisapplied =>
      rw [if_neg notMisapplied]
      split at absorbed
      case isTrue dropped =>
        cases absorbed
        rw [if_pos dropped, ← show below point = entry.coin.asUnspent from value_eq]
        refine ⟨_, rfl, valid.eraseEntry ?_ ?_⟩ <;> rfl
      case isFalse stored =>
        cases absorbed
        rw [if_neg stored]
        exact ⟨_, rfl, valid.setFlagged { entry with dirty := true, fresh := own.fresh } rfl rfl rfl
          (validAt_some.mp resultValid) nullIfSpent⟩

theorem copy_valid (missing : cache.find point = none) (found : below point = some coin)
    (unspent : coin.isSpent = false) (find_eq : changed.find = update cache.find point
      (some { coin := coin, dirty := false, fresh := false }))
    (flagged_eq : changed.flagged = cache.flagged) :
    CacheValid changed below ∧ view changed.layer below = view cache.layer below := by
  have notListed : point ∉ cache.flagged := by
    rw [valid.listed.mem_iff, missing]
    simp
  have listed := valid.listed.unlisted find_eq
    (by rw [flagged_eq, List.erase_of_not_mem notListed]) rfl
  have copied : toEntry { coin := coin, dirty := false, fresh := false } =
      copy coin := by
    rw [toEntry, asUnspent_eq_some unspent]
    rfl
  have res := valid.replace _ find_eq listed
    (by rw [map_some, copied, found]; exact validAt_some.mpr (Entry.copy_valid coin)) (by
      rintro entry ⟨⟩ spent
      exact absurd spent (ne_true_of_eq_false unspent))
  refine ⟨res.1, ?_⟩
  rw [res.2, map_some, copied, update_eq_self_iff, view_of_find_none missing, found]
  rfl

theorem uncache_valid : CacheValid (cache.uncache usage point) below ∧
      view (cache.uncache usage point).layer below = view cache.layer below := by
  rw [CCoinsViewCache.uncache]
  cases found : cache.find point with
  | none => exact ⟨valid, rfl⟩
  | some entry =>
    simp only
    split
    case isTrue _ => exact ⟨valid, rfl⟩
    case isFalse clean =>
      have same : update (view cache.layer below) point (below point) =
          view cache.layer below := by
        rw [update_eq_self_iff, view_of_find found]
        exact ((valid.entry_valid found).clean (eq_false_iff.mpr clean)).symm
      refine And.imp_right (·.trans same) (valid.eraseEntry ?_ ?_) <;> rfl

end BitcoinCore.Coins
