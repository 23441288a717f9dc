import BitcoinCore.Coins.Layer

/-!
# The caches of coins act as one map

What a stack of caches shows is what each cache makes of what the caches below it
show. Every cache is valid over the ones below (`Valid`), and every operation keeps
this: lookups and the writing of entries to a lower layer change nothing of what is
seen, additions and spends change what a single map would change. No error is raised
on the way, and flushing all layers, from the top down, leaves that map in the backing
store (`layers_refine_flatMap`).
-/

namespace BitcoinCore.Coins

open WriteBackCache List Function CCoinsViewCache CCoinsCacheEntry Option Bool Entry

/-! ## What a stack shows -/

/-- What a stack of caches over a backing map shows. -/
def stackView (base : CoinMap) : List CCoinsViewCache → CoinMap
  | [] => base
  | cache :: below => view cache.layer (stackView base below)

/-- Each cache is valid over the ones below, and the backing map holds unspent coins. -/
def Valid (base : CoinMap) : List CCoinsViewCache → Prop
  | [] => ∀ point coin, base point = some coin → coin.isSpent = false
  | cache :: below => CacheValid cache (stackView base below) ∧ Valid base below

/-- A valid stack of a given number of caches that shows a map. -/
structure Shows (base : CoinMap) (caches : List CCoinsViewCache) (seen : CoinMap)
    (count : ℕ) : Prop where
  valid : Valid base caches
  view_eq : stackView base caches = seen
  length_eq : caches.length = count

namespace Layers

/-- What the layers show. -/
def view (layers : Layers) : CoinMap := stackView layers.base layers.caches

/-- Each layer is valid over the ones below. -/
def Valid (layers : Layers) : Prop := Coins.Valid layers.base layers.caches

/-- Valid layers, as many as there were, that show a map. -/
abbrev Shows (layers : Layers) : CoinMap → ℕ → Prop := Coins.Shows layers.base layers.caches

end Layers

variable {cache : CCoinsViewCache} {point : COutPoint}

variable (usage : Coin → ℕ)

section

variable {base : CoinMap} {caches below : List CCoinsViewCache}

theorem stackView_unspent (valid : Valid base caches) {coin : Coin}
    (seen : stackView base caches point = some coin) : coin.isSpent = false := by
  induction caches with
  | nil => exact valid point coin seen
  | cons cache below ih =>
    rw [stackView] at seen
    cases found : cache.find point with
    | none =>
      rw [view_of_find_none found] at seen
      exact ih valid.2 seen
    | some entry =>
      rw [view_of_find found] at seen
      exact isSpent_of_asUnspent seen

theorem peekCoin_eq : peekCoin base point caches = stackView base caches point := by
  induction caches with
  | nil => rfl
  | cons cache below ih =>
    rw [peekCoin, stackView]
    cases found : cache.find point with
    | none => rw [view_of_find_none found, ih]
    | some entry => rw [view_of_find found]

/-! ## Lookups -/

/-- A lookup finds an entry of the top cache for what is seen, and changes nothing of
it. -/
structure Fetched (base : CoinMap) (point : COutPoint) (caches : List CCoinsViewCache)
    (fetched : List CCoinsViewCache × Option CCoinsCacheEntry) : Prop extends
    Shows base fetched.1 (stackView base caches) caches.length where
  top : ∃ cache below, fetched.1 = cache :: below ∧ cache.find point = fetched.2
  missing : fetched.2 = none → stackView base caches point = none

variable {fetched : List CCoinsViewCache × Option CCoinsCacheEntry}

theorem Fetched.seen (found : Fetched base point caches fetched) :
    (fetched.2.bind (·.coin.asUnspent)) = stackView base caches point := by
  obtain ⟨cache, below, stack, entry_eq⟩ := found.top
  cases entry : fetched.2 with
  | none => rw [found.missing entry]; rfl
  | some cached =>
    rw [entry] at entry_eq
    rw [← found.view_eq, stack, stackView, view_of_find entry_eq]
    rfl

theorem Fetched.coin_eq (found : Fetched base point caches fetched) :
    (fetched.2.map coin).getD .null = (stackView base caches point).getD .null := by
  rw [← found.seen]
  obtain ⟨cache, below, stack, entry_eq⟩ := found.top
  cases entry : fetched.2 with
  | none => rfl
  | some cached =>
    cases spent : cached.coin.isSpent with
    | false => simp [asUnspent_eq_some spent]
    | true =>
      have valid := found.valid
      rw [stack] at valid
      have isNull := valid.1.nullIfSpent point cached (entry_eq.trans entry) spent
      rw [bind_some, asUnspent_eq_none spent, map_some, isNull]
      rfl

/-- The coin is got from a valid stack, which stays valid and shows the same. -/
structure Got (base : CoinMap) (point : COutPoint) (caches : List CCoinsViewCache)
    (got : List CCoinsViewCache × Option Coin) : Prop extends
    Shows base got.1 (stackView base caches) caches.length where
  coin_eq : got.2 = stackView base caches point

theorem Got.fetchCoin {got : List CCoinsViewCache × Option Coin}
    (isGot : Got base point below got) (valid : Valid base (cache :: below)) :
    Fetched base point (cache :: below) (fetchCoin usage point cache below got) := by
  rw [Coins.fetchCoin]
  cases found : cache.find point with
  | some entry => exact ⟨⟨valid, rfl, rfl⟩, ⟨cache, below, rfl, found⟩, by simp⟩
  | none =>
    have validOver : CacheValid cache (stackView base got.1) := by
      rw [isGot.view_eq]
      exact valid.1
    cases coin : got.2 with
    | none =>
      refine ⟨⟨⟨validOver, isGot.valid⟩, ?_, by simp [isGot.length_eq]⟩,
        ⟨cache, got.1, rfl, found⟩, ?_⟩
      · rw [stackView, stackView, isGot.view_eq]
      · intro _
        rw [stackView, view_of_find_none found, ← isGot.coin_eq, coin]
    | some coin' =>
      have seen : stackView base got.1 point = some coin' := by
        rw [isGot.view_eq, ← isGot.coin_eq, coin]
      let filled : CCoinsViewCache :=
        { cache with
          cacheCoins := cache.cacheCoins.insert point
            { coin := coin', dirty := false, fresh := false }
          cachedCoinsUsage := cache.cachedCoinsUsage + usage coin' }
      have copied : CacheValid filled (stackView base got.1) ∧
          view filled.layer (stackView base got.1) = view cache.layer (stackView base got.1) :=
        copy_valid validOver found seen (stackView_unspent isGot.valid seen) find_insert rfl
      refine ⟨⟨⟨copied.1, isGot.valid⟩, ?_, by simp [isGot.length_eq]⟩,
        ⟨filled, got.1, rfl, ?_⟩, by simp⟩
      · exact copied.2.trans (by rw [isGot.view_eq]; rfl)
      · exact AList.lookup_insert _

theorem fetchCoinFromBase_got (cache : CCoinsViewCache)
    {got : List CCoinsViewCache × Option Coin} (valid : Valid base below)
    (isGot : Got base point below got) :
    Got base point below (fetchCoinFromBase base point cache below got) := by
  rw [fetchCoinFromBase]
  split
  · exact ⟨⟨valid, rfl, rfl⟩, peekCoin_eq⟩
  · exact isGot

theorem getCoin_got (point : COutPoint) (valid : Valid base caches) :
    Got base point caches (getCoin usage base point caches) := by
  induction caches with
  | nil => exact ⟨⟨valid, rfl, rfl⟩, rfl⟩
  | cons cache below ih =>
    have fetched := (fetchCoinFromBase_got cache valid.2 (ih valid.2)).fetchCoin usage valid
    exact ⟨fetched.toShows, fetched.seen⟩

theorem fetchTop_fetched (point : COutPoint) (valid : Valid base caches) (ne : caches ≠ []) :
    Fetched base point caches (fetchTop usage base point caches) := by
  cases caches with
  | nil => exact absurd rfl ne
  | cons cache below =>
    have got := fetchCoinFromBase_got cache valid.2 (getCoin_got usage point valid.2)
    exact got.fetchCoin usage valid

theorem haveCoin_eq (valid : Valid base caches) (ne : caches ≠ []) :
    (haveCoin usage base point caches).2 = (stackView base caches point).isSome := by
  rw [← (fetchTop_fetched usage point valid ne).seen, haveCoin]
  cases (fetchTop usage base point caches).2 with
  | none => rfl
  | some entry => exact (isSome_asUnspent entry.coin).symm

theorem spendCoin_eq (point : COutPoint) (valid : Valid base caches) (ne : caches ≠ []) :
    Shows base (spendCoin usage base point caches).1
        (update (stackView base caches) point none) caches.length ∧
      (spendCoin usage base point caches).2.getD .null =
        (stackView base caches point).getD .null := by
  have fetched := fetchTop_fetched usage point valid ne
  obtain ⟨cache, below, stack, entry_eq⟩ := fetched.top
  have fetchedValid := fetched.valid
  rw [← fetched.coin_eq, ← fetched.view_eq, ← fetched.length_eq, spendCoin]
  rw [stack] at fetchedValid ⊢
  cases found : (fetchTop usage base point caches).2 with
  | none =>
    refine ⟨⟨fetchedValid, ?_, rfl⟩, rfl⟩
    rw [eq_comm, update_eq_self_iff, ← stack, fetched.view_eq, fetched.missing found]
  | some entry =>
    have spent := spendEntry_valid usage fetchedValid.1 (entry_eq.trans found)
    exact ⟨⟨⟨spent.1, fetchedValid.2⟩, spent.2, rfl⟩, rfl⟩

end

/-! ## Writing to the layer below -/

section

variable {below : Layers} {entry : CCoinsCacheEntry}

theorem writeBelow_valid (valid : below.Valid) (entryValid : entry.toEntry.Valid (below.view point))
    (nullIfSpent : NullIfSpent entry) :
    ∃ written, writeBelow usage below point entry = .ok written ∧ written.Shows
      (update below.view point entry.coin.asUnspent) below.caches.length := by
  obtain ⟨caches, base⟩ := below
  cases caches with
  | nil =>
    refine ⟨_, rfl, ?_, rfl, rfl⟩
    intro other coin found
    simp only [writeBase] at found
    by_cases same : other = point
    · subst same
      rw [update_self] at found
      exact isSpent_of_asUnspent found
    · rw [update_of_ne same] at found
      exact valid other coin found
  | cons parent rest =>
    obtain ⟨new, written, changedValid, view_eq⟩ :=
      writeEntry_valid usage valid.1 entryValid nullIfSpent
    refine ⟨⟨new :: rest, base⟩, ?_, ⟨changedValid, valid.2⟩, view_eq, rfl⟩
    simp only [writeBelow, written]
    rfl

/-- What stays of an entry that was written: an unspent coin, without flags. -/
def cleaned (entry : CCoinsCacheEntry) : Option CCoinsCacheEntry :=
  if entry.coin.isSpent then none else some { entry with dirty := false, fresh := false }

/-- The cache and the layers below while the flagged entries are written: `done` were
written, `left` are still to be written. -/
structure Writing (willErase : Bool) (cache : CCoinsViewCache) (below : Layers)
    (done left : List COutPoint) (cur : CCoinsViewCache) (written : Layers) : Prop where
  valid : written.Valid
  length_eq : written.caches.length = below.caches.length
  writtenBack : WrittenBack cache.layer below.view written.view done
  find_eq : ∀ point, cur.find point =
    if willErase = false ∧ point ∈ done then (cache.find point).bind cleaned
    else cache.find point
  flagged_eq : willErase = false → cur.flagged = left

variable {willErase : Bool} {done left : List COutPoint} {cur : CCoinsViewCache} {written : Layers}

theorem find_nextAndMaybeErase : (cur.nextAndMaybeErase point willErase entry).find =
      if willErase then cur.find
      else update cur.find point (cleaned entry) := by
  cases willErase with
  | true => rfl
  | false =>
    rw [if_neg (by simp), cleaned]
    simp only [nextAndMaybeErase, false_eq_true, if_false]
    split
    · exact find_eraseEntry
    · exact find_insert

theorem flagged_nextAndMaybeErase (keeps : willErase = false) :
    (cur.nextAndMaybeErase point willErase entry).flagged = cur.flagged.erase point := by
  rw [keeps, nextAndMaybeErase]
  simp only [false_eq_true, if_false]
  split <;> rfl

variable (cacheValid : CacheValid cache below.view)
include cacheValid

theorem Writing.step (writing : Writing willErase cache below done (point :: left) cur written)
    (found : cache.find point = some entry) (notDone : point ∉ done) :
    ∃ next, writeBelow usage written point entry = .ok next ∧
      Writing willErase cache below (done ++ [point]) left
        (cur.nextAndMaybeErase point willErase entry) next := by
  have same : written.view point = below.view point := by
    rw [writing.writtenBack point, if_neg notDone]
  obtain ⟨next, isWritten, valid, view_eq, length_eq⟩ :=
    writeBelow_valid usage writing.valid (by rw [same]; exact cacheValid.entry_valid found)
      (cacheValid.nullIfSpent point entry found)
  refine ⟨next, isWritten, valid, length_eq.trans writing.length_eq, ?_, ?_, ?_⟩
  · rw [show next.view = _ from view_eq]
    exact writing.writtenBack.concat (by rw [layer, found]; rfl)
  · intro other
    rw [find_nextAndMaybeErase]
    cases willErase with
    | true => simpa using writing.find_eq other
    | false =>
      rw [if_neg (by simp)]
      by_cases here : other = point
      · subst here
        simp [found]
      · rw [update_of_ne here, writing.find_eq other]
        simp [here]
  · intro keeps
    rw [flagged_nextAndMaybeErase keeps, writing.flagged_eq keeps, erase_cons_head]

theorem batchWrite_writing (writing : Writing willErase cache below done left cur written)
    (nodup : (done ++ left).Nodup) (flagged : ∀ point ∈ left, point ∈ cache.flagged) :
    ∃ next last, batchWrite usage willErase left cur written = .ok (next, last) ∧
      Writing willErase cache below (done ++ left) [] next last := by
  induction left generalizing done cur written with
  | nil =>
    rw [append_nil]
    exact ⟨cur, written, rfl, writing⟩
  | cons point left ih =>
    have notDone : point ∉ done := by
      intro isDone
      exact (nodup_append.mp nodup).2.2 point isDone point mem_cons_self rfl
    obtain ⟨entry, found, isFlagged⟩ :=
      cacheValid.listed.exists_entry (flagged point mem_cons_self)
    have dirty : entry.dirty := by
      rw [CCoinsCacheEntry.isFlagged, Bool.or_eq_true] at isFlagged
      rcases isFlagged with dirty | fresh
      · exact dirty
      · exact (cacheValid.entry_valid found).dirty_of_fresh fresh
    have currentFound : cur.find point = some entry := by
      rw [writing.find_eq, if_neg (by simp [notDone]), found]
    obtain ⟨next, isWritten, nextWriting⟩ := writing.step usage cacheValid found notDone
    rw [append_cons] at nodup
    obtain ⟨final, last, finished, finalWriting⟩ := ih nextWriting nodup
      (fun other mem => flagged other (mem_cons_of_mem _ mem))
    refine ⟨final, last, ?_, by rwa [append_cons]⟩
    simp only [batchWrite, currentFound, dirty, if_true, isWritten]
    exact finished

/-- When all flagged entries were written, the layers below show what was seen. -/
theorem Writing.view_eq (writing : Writing willErase cache below cache.flagged [] cur written) :
    written.view = view cache.layer below.view := by
  refine writing.writtenBack.view_eq cacheValid.coherent ?_
  intro point entry found dirty
  rw [cacheValid.listed.mem_iff]
  cases cached : cache.find point with
  | none => simp [layer, cached] at found
  | some own =>
    obtain rfl : own.toEntry = entry := by simpa [layer, cached] using found
    simp [isFlagged, show own.dirty = true from dirty]

/-- The entries that stay in the cache are clean copies of what is below. -/
theorem Writing.kept (writing : Writing false cache below cache.flagged [] cur written)
    (found : cur.find point = some entry) :
    entry.toEntry = copy entry.coin ∧ entry.coin.isSpent = false ∧
      written.view point = some entry.coin := by
  rw [writing.view_eq cacheValid]
  rw [writing.find_eq] at found
  split at found
  case isTrue isWritten =>
    obtain ⟨own, cached, -⟩ := cacheValid.listed.exists_entry isWritten.2
    rw [cached, bind_some, cleaned] at found
    split at found
    case isTrue _ => simp at found
    case isFalse unspent =>
      rw [not_eq_true] at unspent
      obtain rfl := some.inj found
      refine ⟨?_, unspent, by rw [view_of_find cached, asUnspent_eq_some unspent]⟩
      rw [toEntry, asUnspent_eq_some unspent]
      rfl
  case isFalse notWritten =>
    have notListed : point ∉ cache.flagged := by simpa using notWritten
    have notFlagged : entry.dirty = false ∧ entry.fresh = false := by
      rw [cacheValid.listed.mem_iff, found] at notListed
      simpa [isFlagged] using notListed
    have unspent : entry.coin.isSpent = false := by
      cases spent : entry.coin.isSpent with
      | false => rfl
      | true =>
        have dirty := ((cacheValid.entry_valid found).absent (asUnspent_eq_none spent)).1
        exact absurd dirty (ne_true_of_eq_false notFlagged.1)
    refine ⟨?_, unspent, by rw [view_of_find found, asUnspent_eq_some unspent]⟩
    rw [toEntry, asUnspent_eq_some unspent, notFlagged.1, notFlagged.2]
    rfl

theorem Writing.synced (writing : Writing false cache below cache.flagged [] cur written) :
    CacheValid cur written.view ∧ view cur.layer written.view = written.view := by
  have copies : ∀ point entry, cur.layer point = some entry →
      ∃ coin, entry = copy coin ∧ written.view point = some coin := by
    intro point entry found
    obtain ⟨cached, foundCached, rfl⟩ := map_eq_some_iff.mp found
    obtain ⟨isCopy, -, seen⟩ := writing.kept cacheValid foundCached
    exact ⟨cached.coin, isCopy, seen⟩
  have coherent : Coherent cur.layer written.view := by
    intro point entry found
    obtain ⟨coin, rfl, seen⟩ := copies point entry found
    rw [seen]
    exact Entry.copy_valid coin
  refine ⟨⟨coherent, ⟨?_, ?_⟩, ?_⟩, view_eq_of_clean coherent ?_⟩
  · rw [writing.flagged_eq rfl]
    exact nodup_nil
  · intro point
    rw [writing.flagged_eq rfl]
    cases found : cur.find point with
    | none => simp
    | some entry =>
      have isCopy := (writing.kept cacheValid found).1
      have dirty : entry.dirty = false := congrArg Entry.dirty isCopy
      have fresh : entry.fresh = false := congrArg Entry.fresh isCopy
      simp [isFlagged, dirty, fresh]
  · intro point entry found spent
    exact absurd spent (ne_true_of_eq_false (writing.kept cacheValid found).2.1)
  · intro point entry found
    obtain ⟨coin, rfl, -⟩ := copies point entry found
    rfl

end

/-! ## Operations on a layer -/

/-- An operation that changes nothing of what is seen. -/
def Transparent (op : Layers → Except Error Layers) : Prop :=
  ∀ layers, layers.Valid → ∃ new, op layers = .ok new ∧
    new.Shows layers.view layers.caches.length

section

theorem initialWriting (willErase : Bool) (cache : CCoinsViewCache) {below : Layers}
    (valid : below.Valid) : Writing willErase cache below [] cache.flagged cache below where
  valid := valid
  length_eq := rfl
  writtenBack := writtenBack_nil
  find_eq := by simp
  flagged_eq := fun _ => rfl

theorem flush_below {below : List CCoinsViewCache} {base : CoinMap}
    (valid : Layers.Valid ⟨cache :: below, base⟩) :
    ∃ (cleared : CCoinsViewCache) (lower : Layers), flush usage ⟨cache :: below, base⟩ =
        .ok { lower with caches := cleared :: lower.caches } ∧
      lower.Shows (Layers.view ⟨cache :: below, base⟩) below.length ∧
      CacheValid cleared lower.view ∧ view cleared.layer lower.view = lower.view := by
  have belowValid : Layers.Valid ⟨below, base⟩ := valid.2
  obtain ⟨next, last, written, writing⟩ := batchWrite_writing usage valid.1
    (initialWriting true cache belowValid) valid.1.listed.nodup (fun _ mem => mem)
  refine ⟨next.clear, last, ?_, ⟨writing.valid, writing.view_eq valid.1, writing.length_eq⟩,
    cacheValid_of_empty next.clear (fun _ => rfl) rfl last.view⟩
  simp only [flush, written]
  rfl

theorem flush_transparent : Transparent (flush usage) := by
  rintro ⟨caches, base⟩ valid
  cases caches with
  | nil => exact ⟨_, rfl, valid, rfl, rfl⟩
  | cons cache below =>
    obtain ⟨cleared, lower, flushed, shows, clearedValid, cleared_view⟩ := flush_below usage valid
    exact ⟨_, flushed, ⟨clearedValid, shows.valid⟩, cleared_view.trans shows.view_eq,
      by simp [shows.length_eq]⟩

theorem sync_transparent : Transparent (sync usage) := by
  rintro ⟨caches, base⟩ valid
  cases caches with
  | nil => exact ⟨_, rfl, valid, rfl, rfl⟩
  | cons cache below =>
    have belowValid : Layers.Valid ⟨below, base⟩ := valid.2
    obtain ⟨next, last, written, writing⟩ := batchWrite_writing usage valid.1
      (initialWriting false cache belowValid) valid.1.listed.nodup (fun _ mem => mem)
    obtain ⟨nextValid, next_view⟩ := writing.synced valid.1
    refine ⟨{ last with caches := next :: last.caches }, ?_, ⟨nextValid, writing.valid⟩, ?_, ?_⟩
    · have cleared : next.flagged = [] := writing.flagged_eq rfl
      simp only [sync, written]
      simp [cleared, bind, Except.bind, pure, Except.pure]
    · exact next_view.trans (writing.view_eq valid.1)
    · simp [writing.length_eq]

theorem uncache_transparent (point : COutPoint) : Transparent (uncache usage point) := by
  rintro ⟨caches, base⟩ valid
  cases caches with
  | nil => exact ⟨_, rfl, valid, rfl, rfl⟩
  | cons cache below =>
    have uncached : CacheValid (cache.uncache usage point) (stackView base below) ∧ _ :=
      uncache_valid usage valid.1
    exact ⟨_, rfl, ⟨uncached.1, valid.2⟩, uncached.2, rfl⟩

/-- What is seen does not change either if the operation is done on a lower layer. -/
theorem onLayer_transparent {op : Layers → Except Error Layers}
    (transparent : Transparent op) (depth : ℕ) : Transparent (onLayer op depth) := by
  induction depth with
  | zero => exact transparent
  | succ depth ih =>
    rintro ⟨caches, base⟩ valid
    cases caches with
    | nil => exact ⟨_, rfl, valid, rfl, rfl⟩
    | cons cache below =>
      obtain ⟨new, isChanged, changedValid, view_eq, length_eq⟩ := ih ⟨below, base⟩ valid.2
      refine ⟨{ new with caches := cache :: new.caches }, ?_, ⟨?_, changedValid⟩, ?_, ?_⟩
      · simp only [onLayer, isChanged]
        rfl
      · rw [view_eq]
        exact valid.1
      · rw [stackView, view_eq]
        rfl
      · simp [length_eq]

end

variable (flat : CoinMap)

/-! ## The flat map -/

/-- What an operation does to a single map. -/
def flatStep : Operation → CoinMap
  | .addCoin point coin _ =>
    if coin.out.scriptPubKey.isUnspendable then flat
    else update flat point (some coin)
  | .spendCoin point => update flat point none
  | _ => flat

/-- The answers that a single map would give; where there is no coin, a reference or
a moved coin is the null coin. -/
def Answers : Operation → Answer → Prop
  | .getCoin point, .coin coin => coin = flat point
  | .peekCoin point, .coin coin => coin = flat point
  | .haveCoin point, .bool value => value = (flat point).isSome
  | .accessCoin point, .reference coin => coin = (flat point).getD .null
  | .spendCoin point, .moved coin => coin.getD .null = (flat point).getD .null
  | .addCoin .., .done => True
  | .uncache .., .done => True
  | .flush .., .done => True
  | .sync .., .done => True
  | _, _ => False

/-- Coins that are added are unspent, and overwrite a coin only where that was
announced. -/
def Allowed : Operation → Prop
  | .addCoin point coin possibleOverwrite =>
    coin.isSpent = false ∧ (possibleOverwrite = false → flat point = none)
  | _ => True

/-- What operations make of a single map. -/
def flatRun (ops : List Operation) : CoinMap :=
  ops.foldl flatStep flat

/-- Each operation is allowed where it comes. -/
def AllowedRun : CoinMap → List Operation → Prop
  | _, [] => True
  | flat, op :: ops =>
    Allowed flat op ∧ AllowedRun (flatStep flat op) ops

/-- Each answer is the one of a single map. -/
def AnswersRun : CoinMap → List Operation → List Answer → Prop
  | _, [], [] => True
  | flat, op :: ops, answer :: answers =>
    Answers flat op answer ∧ AnswersRun (flatStep flat op) ops answers
  | _, _, _ => False

/-! ## Refinement -/

section

variable {layers : Layers}

/-- One operation acts as on a single map. -/
theorem step_refines (valid : layers.Valid) (ne : layers.caches ≠ [])
    {op : Operation} (allowed : Allowed layers.view op) :
    ∃ new answer, step usage layers op = .ok (new, answer) ∧
      new.Shows (flatStep layers.view op) layers.caches.length ∧
      Answers layers.view op answer := by
  have transparent : ∀ {lower : Layers → Except Error Layers}, Transparent lower → ∀ depth,
      step usage layers op = (do return (← onLayer lower depth layers, .done)) →
      flatStep layers.view op = layers.view → Answers layers.view op .done →
      ∃ new answer, step usage layers op = .ok (new, answer) ∧
        new.Shows (flatStep layers.view op) layers.caches.length ∧
        Answers layers.view op answer := by
    intro lower isTransparent depth steps flat answers
    obtain ⟨new, isChanged, shows⟩ := onLayer_transparent isTransparent depth layers valid
    rw [isChanged] at steps
    exact ⟨new, .done, steps, by rwa [flat], answers⟩
  cases op with
  | addCoin point coin possibleOverwrite =>
    obtain ⟨caches, base⟩ := layers
    cases caches with
    | nil => exact absurd rfl ne
    | cons cache below =>
      obtain ⟨new, added, changedValid, view_eq⟩ :=
        addCoin_valid usage valid.1 allowed.1 allowed.2
      refine ⟨⟨new :: below, base⟩, .done, ?_, ⟨⟨changedValid, valid.2⟩, view_eq, rfl⟩, trivial⟩
      simp only [step, added]
      rfl
  | spendCoin point =>
    obtain ⟨shows, moved⟩ := spendCoin_eq usage point valid ne
    exact ⟨_, _, rfl, shows, moved⟩
  | getCoin point =>
    have got := getCoin_got usage point valid
    exact ⟨_, _, rfl, got.toShows, got.coin_eq⟩
  | accessCoin point =>
    have fetched := fetchTop_fetched usage point valid ne
    exact ⟨_, _, rfl, fetched.toShows, fetched.coin_eq⟩
  | haveCoin point =>
    exact ⟨_, _, rfl, (fetchTop_fetched usage point valid ne).toShows, haveCoin_eq usage valid ne⟩
  | peekCoin point => exact ⟨_, _, rfl, ⟨valid, rfl, rfl⟩, peekCoin_eq⟩
  | uncache depth point =>
    exact transparent (uncache_transparent usage point) depth rfl rfl trivial
  | flush depth => exact transparent (flush_transparent usage) depth rfl rfl trivial
  | sync depth => exact transparent (sync_transparent usage) depth rfl rfl trivial

theorem run_refines (valid : layers.Valid) (ne : layers.caches ≠ [])
    {ops : List Operation} (allowed : AllowedRun layers.view ops) :
    ∃ new answers, run usage layers ops = .ok (new, answers) ∧
      new.Shows (flatRun layers.view ops) layers.caches.length ∧
      AnswersRun layers.view ops answers := by
  induction ops generalizing layers with
  | nil => exact ⟨layers, [], rfl, ⟨valid, rfl, rfl⟩, trivial⟩
  | cons op ops ih =>
    obtain ⟨new, answer, isStep, ⟨changedValid, view_eq, length_eq⟩, answers⟩ :=
      step_refines usage valid ne allowed.1
    have view_eq : new.view = flatStep layers.view op := view_eq
    have changedNonempty : new.caches ≠ [] := by
      rw [← length_pos_iff, length_eq, length_pos_iff]
      exact ne
    obtain ⟨last, others, isRun, shows, otherAnswers⟩ :=
      ih changedValid changedNonempty (by rw [view_eq]; exact allowed.2)
    rw [view_eq, length_eq] at shows
    rw [view_eq] at otherAnswers
    refine ⟨last, answer :: others, ?_, shows, ⟨answers, otherAnswers⟩⟩
    simp only [run, isStep, bind, Except.bind, isRun]
    rfl

/-! ## Flushing all layers -/

theorem onLayer_append {op : Layers → Except Error Layers} {rest : List CCoinsViewCache}
    {base : CoinMap} {new : Layers} (front : List CCoinsViewCache)
    (isChanged : op ⟨rest, base⟩ = .ok new) : onLayer op front.length ⟨front ++ rest, base⟩ =
      .ok { new with caches := front ++ new.caches } := by
  induction front with
  | nil => exact isChanged
  | cons cache front ih =>
    simp only [cons_append, length_cons, onLayer, ih]
    rfl

/-- Flush the layers from the top down. -/
def flushAll (count : ℕ) : List Operation := (List.range count).map .flush

theorem run_flush (front rest : List CCoinsViewCache) (base : CoinMap)
    (valid : Layers.Valid ⟨rest, base⟩) : ∃ flushed answers, run usage ⟨front ++ rest, base⟩
          ((List.range' front.length rest.length).map .flush) = .ok (flushed, answers) ∧
        flushed.base = Layers.view ⟨rest, base⟩ := by
  -- The caches before `rest` were flushed before; their number is the next depth.
  induction count : rest.length generalizing front rest base with
  | zero =>
    obtain rfl := length_eq_zero_iff.mp count
    exact ⟨_, _, rfl, rfl⟩
  | succ length ih =>
    cases rest with
    | nil => simp at count
    | cons cache below =>
      obtain ⟨cleared, lower, isFlushed, shows, -⟩ := flush_below usage valid
      obtain ⟨flushed, answers, isRun, flushed_base⟩ :=
        ih (front ++ [cleared]) lower.caches lower.base shows.valid
          (shows.length_eq.trans (Nat.succ.inj count))
      refine ⟨flushed, .done :: answers, ?_, flushed_base.trans shows.view_eq⟩
      rw [length_append, length_singleton, append_assoc, singleton_append] at isRun
      simp only [range'_succ, map_cons, run, step, onLayer_append front isFlushed,
        bind, Except.bind, pure, Except.pure, isRun]

theorem valid_of_new {base : CoinMap}
    (unspent : ∀ point coin, base point = some coin → coin.isSpent = false)
    (overlays : List Bool) : Layers.Valid ⟨overlays.map .new, base⟩ ∧
      Layers.view ⟨overlays.map .new, base⟩ = base := by
  rw [Layers.Valid, Layers.view]
  induction overlays with
  | nil => exact ⟨unspent, rfl⟩
  | cons overlay overlays ih =>
    obtain ⟨newValid, view_eq⟩ := cacheValid_of_empty (.new overlay) (fun _ => rfl) rfl base
    dsimp only at ih ⊢
    rw [map_cons, Valid, stackView, ih.2]
    exact ⟨⟨newValid, ih.1⟩, view_eq⟩

/-- The layered caches act as one map. Start with new caches over a backing map
of unspent coins, and let coins be added without an announced overwrite only where
none is seen. Then every sequence of operations runs without an error, each answer is
the one of a single map, what is seen is that map, and flushing all layers leaves it
in the backing store. -/
theorem layers_refine_flatMap (overlays : List Bool) (ne : overlays ≠ []) (base : CoinMap)
    (unspent : ∀ point coin, base point = some coin → coin.isSpent = false)
    (ops : List Operation) (allowed : AllowedRun base ops) : ∃ layers answers,
      run usage { caches := overlays.map .new, base := base } ops = .ok (layers, answers) ∧
        AnswersRun base ops answers ∧
        (∀ point, peekCoin layers.base point layers.caches = flatRun base ops point) ∧
        ∃ flushed flushAnswers,
          run usage layers (flushAll overlays.length) = .ok (flushed, flushAnswers) ∧
            flushed.base = flatRun base ops := by
  obtain ⟨initialValid, view_eq⟩ := valid_of_new unspent overlays
  obtain ⟨layers, answers, isRun, ⟨valid, seen, length_eq⟩, answered⟩ :=
    run_refines usage initialValid (by simpa using ne) (by rw [view_eq]; exact allowed)
  rw [view_eq] at seen answered
  refine ⟨layers, answers, isRun, answered, ?_, ?_⟩
  · intro point
    rw [peekCoin_eq]
    exact congrFun seen point
  · obtain ⟨flushed, flushAnswers, isFlushed, flushed_base⟩ :=
      run_flush usage [] layers.caches layers.base valid
    have count : overlays.length = layers.caches.length := by rw [length_eq, length_map]
    refine ⟨flushed, flushAnswers, ?_, flushed_base.trans seen⟩
    rw [flushAll, range_eq_range', count]
    exact isFlushed

end

/-- A coin that is added, flushed to the lower cache, spent, and added again after the
spend was written to the lower cache. -/
def respent : List Operation :=
  let point : COutPoint := { hash := 0, n := 0 }
  let coin : Coin :=
    { out := { nValue := 1, scriptPubKey := [] }, fCoinBase := false, nHeight := 1 }
  [.addCoin point coin false, .flush 0, .spendCoin point, .sync 0, .addCoin point coin false]

theorem layers_refine_flatMap_respent : AllowedRun (fun _ => none) respent ∧ ∃ layers answers,
        run (fun _ => 0) { caches := [false, false].map .new, base := fun _ => none } respent =
            .ok (layers, answers) ∧
          ∀ point, peekCoin layers.base point layers.caches =
            flatRun (fun _ => none) respent point := by
  have allowed : AllowedRun (fun _ => none) respent := by
    simp [respent, AllowedRun, Allowed, flatStep, Coin.isSpent, CTxOut.isNull,
      CScript.isUnspendable, maxScriptSize]
  refine ⟨allowed, ?_⟩
  obtain ⟨layers, answers, isRun, -, seen, -⟩ :=
    layers_refine_flatMap (fun _ => 0) [false, false] (by simp) (fun _ => none) (by simp) respent
      allowed
  exact ⟨layers, answers, isRun, seen⟩

end BitcoinCore.Coins
