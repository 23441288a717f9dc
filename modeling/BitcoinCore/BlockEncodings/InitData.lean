import BitcoinCore.BlockEncodings.CompactBlock
import BitcoinCore.Lib.SparseSlots

/-!
# Initialisation of compact blocks

The short ids are assigned to the empty slots in order. That the scan for an empty
slot does not run over the end is a matter of counting: every transaction of the
message fills another slot, so as many slots stay empty as there are short ids
(`outcome_placePrefilled`), and before the `i`th short id the scan has passed `i`
empty slots (`outcome_locateShortIDs`).

All accesses of `InitData` are in bounds, whatever the message; a pointer of the
ring of extra transactions may be null, and it is followed (`outcome_initData`).
-/

namespace BitcoinCore.BlockEncodings

open CheckedAccess SparseSlots List
open NetProcessing (ReadStatus)

/-! ## The transactions of the message -/

def KeepsFilled (slots later : List CTransactionRef) : Prop :=
  later.length = slots.length ∧ ∀ (pos : ℕ) (tx : CTransaction), slots[pos]? = some (some tx) →
      later[pos]? = some (some tx)

theorem KeepsFilled.refl (slots : List CTransactionRef) : KeepsFilled slots slots :=
  ⟨rfl, fun _ _ filled => filled⟩

theorem KeepsFilled.trans {slots later latest : List CTransactionRef}
    (first : KeepsFilled slots later) (second : KeepsFilled later latest) :
    KeepsFilled slots latest :=
  ⟨second.1.trans first.1, fun pos tx filled => second.2 pos tx (first.2 pos tx filled)⟩

theorem KeepsFilled.set {slots later : List CTransactionRef} (keeps : KeepsFilled slots later)
    {pos : ℕ} (vacant : slots[pos]? = some none) (slot : CTransactionRef) :
    KeepsFilled slots (later.set pos slot) := by
  refine ⟨by rw [length_set, keeps.1], fun other tx filled => ?_⟩
  have apart : pos ≠ other := by
    rintro rfl
    rw [vacant] at filled
    cases filled
  rw [getElem?_set_ne apart]
  exact keeps.2 other tx filled

variable {Fails : MemoryFault → Prop} {slots : List CTransactionRef}

/-- Every transaction of the message fills a slot of its own. -/
theorem outcome_placePrefilled {shortCount : ℕ}
    {prefilled : List PrefilledTransaction} {i : ℕ} {last : ℤ}
    (range : -1 ≤ last ∧ last ≤ 65535) (length : slots.length = shortCount + (i + prefilled.length))
    (vacant : ∀ pos : ℕ, last < pos → pos < slots.length → slots[pos]? = some none)
    (counted : vacancies slots + i = slots.length) : Outcome Fails
      (fun placed => KeepsFilled slots placed.2 ∧ (placed.1 → vacancies placed.2 = shortCount))
      (placePrefilled shortCount prefilled i last slots) := by
  induction prefilled generalizing i last slots with
  | nil =>
    rw [length_nil] at length
    refine ⟨.refl slots, fun _ => ?_⟩
    show vacancies slots = shortCount
    omega
  | cons entry rest ih =>
    rw [length_cons] at length
    have index := entry.index.isLt
    simp only [placePrefilled]
    generalize next : last + (entry.index.toNat + 1 : ℤ) = pos
    refine outcome_unless ⟨.refl slots, nofun⟩ fun _ => ?_
    rw [if_neg (by omega)]
    refine outcome_unless ⟨.refl slots, nofun⟩ fun upper => ?_
    refine outcome_unless ⟨.refl slots, nofun⟩ fun inside => ?_
    obtain ⟨place, rfl⟩ : ∃ place : ℕ, pos = place := ⟨pos.toNat, by omega⟩
    have cast : ((place : ℤ) % 2 ^ 64).toNat = place := by omega
    rw [cast, writeAt_of_lt (by omega)]
    have empty := vacant place (by omega) (by omega)
    have filled := vacancies_set empty entry.tx
    refine Outcome.mono (ih ⟨by omega, by omega⟩ (by rw [length_set]; omega) ?_
      (by rw [length_set]; omega)) ?_
    · intro later above bound
      rw [length_set] at bound
      rw [getElem?_set_ne (by omega)]
      exact vacant later (by omega) bound
    · rintro placed ⟨keeps, full⟩
      exact ⟨((KeepsFilled.refl slots).set empty (some entry.tx)).trans keeps, full⟩

theorem placePrefilled_cons {shortCount : ℕ} {entry : PrefilledTransaction}
    {rest : List PrefilledTransaction} {i : ℕ} {last : ℤ} (range : -1 ≤ last)
    {placed : List CTransactionRef}
    (valid : placePrefilled shortCount (entry :: rest) i last slots = .ok (true, placed)) :
    ∃ pos : ℕ, (pos : ℤ) = last + (entry.index.toNat + 1) ∧ pos < slots.length ∧
      placePrefilled shortCount rest (i + 1) pos (slots.set pos (some entry.tx)) =
        .ok (true, placed) := by
  simp only [placePrefilled] at valid
  generalize next : last + (entry.index.toNat + 1 : ℤ) = pos at valid
  obtain ⟨place, rfl⟩ : ∃ place : ℕ, pos = place := ⟨pos.toNat, by omega⟩
  obtain ⟨-, valid⟩ := of_unless_eq valid nofun
  obtain ⟨-, valid⟩ := of_unless_eq valid nofun
  obtain ⟨upper, valid⟩ := of_unless_eq valid nofun
  obtain ⟨-, valid⟩ := of_unless_eq valid nofun
  have cast : ((place : ℤ) % 2 ^ 64).toNat = place := by omega
  rw [cast, writeAt] at valid
  split at valid
  case isTrue bound => exact ⟨place, rfl, bound, valid⟩
  case isFalse => cases valid

/-! ## The slots of the short ids -/

theorem skipFilled_of_vacancy (vacancy : 0 < vacancies slots) :
    ∃ skipped, skipFilled slots = .ok skipped ∧ slots[skipped]? = some none ∧
      vacancies (slots.take skipped) = 0 := by
  induction slots with
  | nil => exact absurd vacancy (Nat.lt_irrefl 0)
  | cons slot slots ih =>
    cases slot with
    | none => exact ⟨0, rfl, rfl, rfl⟩
    | some tx =>
      rw [vacancies_cons_some] at vacancy
      obtain ⟨skipped, scan, empty, passed⟩ := ih vacancy
      refine ⟨skipped + 1, ?_, empty, ?_⟩
      · rw [skipFilled, scan]
        rfl
      · rw [take_succ_cons, vacancies_cons_some, passed]

def LocatesVacancies (slots : List CTransactionRef) (shorttxids : ShortIDPositions) : Prop :=
  ∀ id pos, shorttxids.lookup id = some pos → slots[pos]? = some none

/-- The short ids are assigned to empty slots. -/
theorem outcome_locateShortIDs {buckets : BucketSizes}
    (short : slots.length ≤ 65535) {ids : List (BitVec 64)}
    {i offset : ℕ} {shorttxids : ShortIDPositions} (enough : i + ids.length ≤ vacancies slots)
    (counted : vacancies (slots.take (i + offset)) = i)
    (located : LocatesVacancies slots shorttxids) :
    Outcome Fails (fun res => LocatesVacancies slots res.2)
      (locateShortIDs buckets slots ids i offset shorttxids) := by
  induction ids generalizing i offset shorttxids with
  | nil => exact located
  | cons id ids ih =>
    rw [length_cons] at enough
    -- `i` of the empty slots are behind the scan, so one is ahead of it
    have ahead : 0 < vacancies (slots.drop (i + offset)) := by
      have total := vacancies_append (slots.take (i + offset)) (slots.drop (i + offset))
      rw [take_append_drop] at total
      omega
    obtain ⟨skipped, scan, empty, passed⟩ := skipFilled_of_vacancy ahead
    rw [getElem?_drop] at empty
    have bound := (List.getElem?_eq_some_iff.mp empty).1
    have offset' : (offset + skipped) % 2 ^ 16 = offset + skipped := Nat.mod_eq_of_lt (by omega)
    have pos : (i + (offset + skipped)) % 2 ^ 16 = i + offset + skipped := by omega
    have located' : LocatesVacancies slots (shorttxids.insert id (i + offset + skipped)) := by
      intro other place found
      rcases eq_or_ne other id with rfl | apart
      · rw [AList.lookup_insert] at found
        rw [← Option.some.inj found]
        exact empty
      · rw [AList.lookup_insert_ne apart] at found
        exact located other place found
    simp only [locateShortIDs, scan, ok_bind, offset', pos]
    split
    · exact located'
    · refine ih (by omega) ?_ located'
      rw [show i + 1 + (offset + skipped) = i + offset + skipped + 1 by omega,
        vacancies_take_succ empty, take_add, vacancies_append, counted, passed]

/-! ## The transactions of the mempool and of the ring -/

/-- What the loops keep: the slots that the message filled. -/
structure MatchingInv (slots : List CTransactionRef) (matching : Matching) : Prop where
  keeps : KeepsFilled slots matching.txnAvailable
  haveTxn : matching.haveTxn.length = slots.length

variable {Fails : MemoryFault → Prop}

section

variable {slots : List CTransactionRef} {shorttxids : ShortIDPositions}
  {confl : CTransaction → Except MemoryFault Bool} {matching : Matching}

/-- What a transaction does to its slot. -/
inductive Offered (extra : BitVec 64) (cand : CTransactionRef)
    (confl : CTransaction → Except MemoryFault Bool) (pos : ℕ) (matching : Matching) :
    Matching → Prop
  | fills (unmatched : matching.haveTxn[pos]? = some false) :
    Offered extra cand confl pos matching
      { txnAvailable := matching.txnAvailable.set pos cand
        haveTxn := matching.haveTxn.set pos true
        mempoolCount := matching.mempoolCount + 1
        extraCount := matching.extraCount + extra }
  | clears {held : CTransaction} (holds : matching.txnAvailable[pos]? = some (some held))
    (conflicts : confl held = .ok true) : Offered extra cand confl pos matching
      { matching with
        txnAvailable := matching.txnAvailable.set pos none
        mempoolCount := matching.mempoolCount - 1
        extraCount := matching.extraCount - extra }
  | leaves : Offered extra cand confl pos matching matching

theorem outcome_offerAt {pos : ℕ} (inTxn : pos < matching.txnAvailable.length)
    (inHave : pos < matching.haveTxn.length)
    (follows : ∀ held fault, confl held = .error fault → Fails fault) (extra : BitVec 64)
    (cand : CTransactionRef) : Outcome Fails (Offered extra cand confl pos matching)
      (offerAt extra cand confl pos matching) := by
  have marked := getElem?_eq_getElem inHave
  have slot := getElem?_eq_getElem inTxn
  rw [offerAt, readAt_of_getElem? marked, ok_bind]
  split
  case isTrue unmatched =>
    rw [writeAt_of_lt inTxn, ok_bind, writeAt_of_lt inHave, ok_bind]
    rw [Bool.not_eq_true'] at unmatched
    exact .fills (by rw [marked, unmatched])
  case isFalse =>
    rw [readAt_of_getElem? slot, ok_bind]
    split
    case h_1 => exact .leaves
    case h_2 held holds =>
      cases conflict : confl held with
      | error fault => exact follows held fault conflict
      | ok conflicts =>
        cases conflicts with
        | false => exact .leaves
        | true =>
          rw [ok_bind, if_pos rfl, writeAt_of_lt inTxn, ok_bind]
          exact .clears (by rw [slot, holds]) conflict

variable {cand : CTransactionRef}

theorem MatchingInv.offered {extra : BitVec 64} {pos : ℕ}
    {later : Matching} (vacant : slots[pos]? = some none) (inv : MatchingInv slots matching)
    (offered : Offered extra cand confl pos matching later) : MatchingInv slots later := by
  cases offered with
  | fills => exact ⟨inv.keeps.set vacant cand, by rw [length_set, inv.haveTxn]⟩
  | clears => exact ⟨inv.keeps.set vacant none, inv.haveTxn⟩
  | leaves => exact inv

/-- A transaction keeps what it keeps when it is offered at a slot of its short id. -/
theorem MatchingInv.offer {Inv : Matching → Prop} (inv : MatchingInv slots matching)
    (kept : Inv matching) (located : LocatesVacancies slots shorttxids)
    (follows : ∀ held fault, confl held = .error fault → Fails fault) {extra shortid : BitVec 64}
    (keeps : ∀ pos later, shorttxids.lookup shortid = some pos →
      MatchingInv slots later → Offered extra cand confl pos matching later → Inv later) :
    Outcome Fails Inv (offer shorttxids extra shortid cand confl matching) := by
  rw [BlockEncodings.offer]
  split
  case h_1 => exact kept
  case h_2 pos found =>
    have vacant := located shortid pos found
    have bound := (List.getElem?_eq_some_iff.mp vacant).1
    refine (outcome_offerAt (by rwa [inv.keeps.1]) (by rwa [inv.haveTxn]) follows extra cand).mono ?_
    exact fun later offered => keeps pos later found (inv.offered vacant offered) offered

/-- The loops keep the slots that the message filled. -/
theorem outcome_matchTransactions (wtxid : CTransaction → Uint256) (selector : ShortTxIDSelector)
    (pool : List CTransaction) {extraTxn : List (Uint256 × CTransactionRef)}
    (null : ∀ entry ∈ extraTxn, entry.2 = none → Fails .nullDereference)
    (cmpctblock : CBlockHeaderAndShortTxIDs) (located : LocatesVacancies slots shorttxids)
    (inv : MatchingInv slots matching) : Outcome Fails (MatchingInv slots)
      (matchTransactions wtxid selector pool extraTxn cmpctblock shorttxids matching) := by
  rw [matchTransactions]
  refine (outcome_runUntil (MatchingInv slots) _ ?_ inv).bind fun matched inv' =>
    outcome_runUntil (MatchingInv slots) _ ?_ inv'
  · exact fun tx _ state inv => inv.offer inv located nofun fun _ _ _ inv' _ => inv'
  · intro entry mem state inv
    refine inv.offer inv located (fun held fault faults => ?_) fun _ _ _ inv' _ => inv'
    cases pointer : entry.2 with
    | none =>
      rw [pointer] at faults
      cases faults
      exact null entry mem pointer
    | some tx =>
      rw [pointer] at faults
      cases faults

end

/-! ## The whole of it -/

/-- The state after a successful initialisation: the slots of the message's
transactions are filled with them. -/
structure Initialised (cmpctblock : CBlockHeaderAndShortTxIDs)
    (partialBlock : PartiallyDownloadedBlock) : Prop where
  header : partialBlock.header = cmpctblock.header
  notNull : cmpctblock.header.isNull = false
  length : partialBlock.txnAvailable.length = cmpctblock.blockTxCount
  placed : ∃ slots, placePrefilled cmpctblock.shorttxids.length cmpctblock.prefilledtxn 0 (-1)
      (replicate cmpctblock.blockTxCount none) = .ok (true, slots) ∧
    KeepsFilled slots partialBlock.txnAvailable

section

variable (cmpctblock : CBlockHeaderAndShortTxIDs)

theorem exists_placed : ∃ valid slots,
    placePrefilled cmpctblock.shorttxids.length cmpctblock.prefilledtxn 0 (-1)
      (replicate cmpctblock.blockTxCount none) = .ok (valid, slots) ∧
    slots.length = cmpctblock.blockTxCount ∧
    (valid → vacancies slots = cmpctblock.shorttxids.length) := by
  have out : Outcome (fun _ => False) _ (placePrefilled cmpctblock.shorttxids.length
      cmpctblock.prefilledtxn 0 (-1) (replicate cmpctblock.blockTxCount none)) :=
    outcome_placePrefilled (by decide) (by simp [CBlockHeaderAndShortTxIDs.blockTxCount])
      (fun pos _ bound => by simp at bound; simp [bound]) (by simp)
  obtain ⟨⟨valid, slots⟩, placed⟩ := out.returns
  obtain ⟨keeps, counted⟩ := out.of_ok placed
  exact ⟨valid, slots, placed, keeps.1.trans length_replicate, counted⟩

theorem exists_located (buckets : BucketSizes) (length : slots.length = cmpctblock.blockTxCount)
    (enough : vacancies slots = cmpctblock.shorttxids.length) : ∃ even shorttxids,
    locateShortIDs buckets slots cmpctblock.shorttxids 0 0 ∅ = .ok (even, shorttxids) ∧
      LocatesVacancies slots shorttxids := by
  have out : Outcome (fun _ => False) _ (locateShortIDs buckets slots cmpctblock.shorttxids 0 0 ∅) :=
    outcome_locateShortIDs (length.trans_le cmpctblock.blockTxCount_le) (by omega) rfl
      fun id pos found => by simp at found
  obtain ⟨⟨even, shorttxids⟩, located⟩ := out.returns
  exact ⟨even, shorttxids, located, out.of_ok located⟩

end

variable (Fails) in
/-- `InitData` stays in bounds. It returns, or it follows a null pointer of an
extra transaction. -/
theorem outcome_initData (wtxid : CTransaction → Uint256) (selector : ShortTxIDSelector)
    (buckets : BucketSizes) (pool : List CTransaction) {extraTxn : List (Uint256 × CTransactionRef)}
    (cmpctblock : CBlockHeaderAndShortTxIDs)
    (null : ∀ entry ∈ extraTxn, entry.2 = none → Fails .nullDereference)
    (self : PartiallyDownloadedBlock) :
    Outcome Fails (fun res => res.1 = .ok → Initialised cmpctblock res.2)
      (initData wtxid selector buckets pool self cmpctblock extraTxn) := by
  obtain ⟨valid, slots, placed, length, counted⟩ := exists_placed cmpctblock
  rw [initData]
  refine outcome_unless nofun fun ne => outcome_unless nofun fun _ => outcome_unless nofun fun _ => ?_
  rw [placed, ok_bind]
  cases valid with
  | false => exact nofun
  | true =>
    obtain ⟨even, shorttxids, isLocated, located⟩ :=
      exists_located cmpctblock buckets length (counted rfl)
    refine outcome_unless nofun fun _ => ?_
    rw [fillSlots, isLocated, ok_bind]
    refine outcome_unless nofun fun _ => outcome_unless nofun fun _ => ?_
    refine (outcome_matchTransactions wtxid selector pool null cmpctblock located
      ⟨.refl _, length_replicate⟩).bind fun matching inv _ => ?_
    simp only [Bool.or_eq_true, not_or, Bool.not_eq_true] at ne
    exact ⟨rfl, ne.1, inv.keeps.1.trans length, slots, placed, inv.keeps⟩

end BitcoinCore.BlockEncodings
