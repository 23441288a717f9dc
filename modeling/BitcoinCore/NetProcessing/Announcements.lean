import BitcoinCore.Lib.BoundedFifo
import BitcoinCore.Net.Connman
import BitcoinCore.Chain.BlockIndex

/-!
# Announcements of candidate blocks

Peers that announce a block are remembered until the block has been checked, so
that the first few of them can be credited if it is valid. The memory is
bounded twice: at most so many hashes are tracked, the oldest being dropped
first, and at most so many announcers are kept for a hash.

The hashes are a bounded first-in-first-out queue, so the entry of a hash stays
until the block is checked or as many hashes as can be tracked have begun after
it and are tracked at once (`Valid.tracked_iff_begunSince`). While it stays, it holds the first
distinct announcers since it was created (`Valid.announcers_after`). Every entry was
created by an announcement at a moment when the hash was not tracked
(`Valid.exists_creation`).
-/

namespace BitcoinCore.NetProcessing

open Net BoundedFifo List Finmap

/-! ## The source -/

/-- How many hashes are tracked. -/
def maxTrackedAnnouncementHashes : ℕ := 128

/-- How many announcers of a hash are kept. -/
def maxAnnouncersPerHash : ℕ := 8

/-- The announcers of each tracked hash, and the hashes in the order they came. -/
structure AnnouncementTracker where
  candidateAnnouncers : Finmap fun _ : Uint256 => List NodeId
  candidateAnnouncementOrder : List Uint256

/-- A new announcer is kept while there is room. -/
def addAnnouncer (announcers : List NodeId) (peerId : NodeId) : List NodeId :=
  if announcers.length < maxAnnouncersPerHash ∧ peerId ∉ announcers then announcers ++ [peerId]
  else announcers

theorem addAnnouncer_ne_nil (announcers : List NodeId) (peerId : NodeId) :
    addAnnouncer announcers peerId ≠ [] := by
  rw [addAnnouncer]
  split_ifs with isNew
  · simp
  · rintro rfl
    simp [maxAnnouncersPerHash] at isNew

namespace AnnouncementTracker

/-- Nothing is tracked. -/
def empty : AnnouncementTracker := ⟨∅, []⟩

/-- The announcers of a hash, if it is tracked. -/
def announcers (trk : AnnouncementTracker) (hash : Uint256) : Option (List NodeId) :=
  trk.candidateAnnouncers.lookup hash

/-- The loop that drops the oldest hashes while there are too many. -/
def dropOldest (candidateAnnouncers : Finmap fun _ : Uint256 => List NodeId) :
    List Uint256 → AnnouncementTracker
  | [] => ⟨candidateAnnouncers, []⟩
  | oldest :: rest =>
    if maxTrackedAnnouncementHashes < (oldest :: rest).length then
      dropOldest (candidateAnnouncers.erase oldest) rest
    else ⟨candidateAnnouncers, oldest :: rest⟩

/-- Note that a peer announced a block. -/
def recordCandidateAnnouncement (trk : AnnouncementTracker) (peerId : NodeId)
    (hash : Uint256) : AnnouncementTracker :=
  -- Indexing the map inserts an empty vector for a hash that is not there.
  let announcers := (trk.announcers hash).getD []
  let candidateAnnouncers := trk.candidateAnnouncers.insert hash announcers
  let trk :=
    if announcers.isEmpty then
      dropOldest candidateAnnouncers (trk.candidateAnnouncementOrder ++ [hash])
    else { trk with candidateAnnouncers }
  { trk with
    candidateAnnouncers :=
      trk.candidateAnnouncers.insert hash (addAnnouncer announcers peerId) }

/-- The end of `BlockChecked`: forget the announcers of the block. -/
def forget (trk : AnnouncementTracker) (hash : Uint256) : AnnouncementTracker where
  candidateAnnouncers := trk.candidateAnnouncers.erase hash
  candidateAnnouncementOrder :=
    trk.candidateAnnouncementOrder.filter fun other => other ≠ hash

end AnnouncementTracker

/-- A block is announced, or has been checked. -/
inductive TrackerCall where
  | announcement (peerId : NodeId) (hash : Uint256)
  | checked (hash : Uint256)

namespace AnnouncementTracker

variable {candidateAnnouncers : Finmap fun _ : Uint256 => List NodeId} {order : List Uint256}
  {hash : Uint256}

/-- What a call does. -/
def apply (trk : AnnouncementTracker) : TrackerCall → AnnouncementTracker
  | .announcement peerId hash => trk.recordCandidateAnnouncement peerId hash
  | .checked hash => trk.forget hash

/-- The tracker after some calls. -/
def after (trk : AnnouncementTracker) (calls : List TrackerCall) : AnnouncementTracker :=
  calls.foldl apply trk

theorem after_concat (trk : AnnouncementTracker) (calls : List TrackerCall)
    (call : TrackerCall) : trk.after (calls ++ [call]) = (trk.after calls).apply call := by
  simp [after]

/-! ## Valid trackers -/

/-- The order lists the hashes of the map, once each and not too many. -/
structure Valid (trk : AnnouncementTracker) : Prop where
  isBounded : IsBounded maxTrackedAnnouncementHashes trk.candidateAnnouncementOrder
  tracked_iff : ∀ hash, hash ∈ trk.candidateAnnouncementOrder ↔ (trk.announcers hash).isSome
  announced : ∀ hash announcers, trk.announcers hash = some announcers → announcers ≠ []

theorem valid_empty : Valid empty where
  isBounded := ⟨nodup_nil, Nat.zero_le _⟩
  tracked_iff hash := by simp [empty, announcers]
  announced hash announcers found := by simp [empty, AnnouncementTracker.announcers] at found

theorem dropOldest_order (candidateAnnouncers : Finmap fun _ : Uint256 => List NodeId)
    (order : List Uint256) : (dropOldest candidateAnnouncers order).candidateAnnouncementOrder =
      trim maxTrackedAnnouncementHashes order := by
  induction order generalizing candidateAnnouncers with
  | nil => rfl
  | cons oldest rest ih =>
    rw [dropOldest]
    split_ifs with full
    · rw [ih, trim, trim, length_cons, Nat.succ_sub (Nat.le_of_lt_succ full), drop_succ_cons]
    · rw [trim, Nat.sub_eq_zero_of_le (not_lt.mp full), drop_zero]

/-- The hashes in front are dropped. -/
theorem dropOldest_announcers (candidateAnnouncers : Finmap fun _ : Uint256 => List NodeId)
    (order : List Uint256) (hash : Uint256) :
    (dropOldest candidateAnnouncers order).announcers hash =
      if hash ∈ order.take (order.length - maxTrackedAnnouncementHashes) then none
      else candidateAnnouncers.lookup hash := by
  induction order generalizing candidateAnnouncers with
  | nil => rfl
  | cons oldest rest ih =>
    by_cases full : maxTrackedAnnouncementHashes < (oldest :: rest).length
    · rw [dropOldest, if_pos full, ih, length_cons, Nat.succ_sub (Nat.le_of_lt_succ full),
        take_succ_cons]
      by_cases isOldest : hash = oldest
      · subst isOldest
        simp
      · simp [isOldest, lookup_erase_ne isOldest]
    · rw [dropOldest, if_neg full, Nat.sub_eq_zero_of_le (not_lt.mp full)]
      rfl

theorem mem_take_iff (nodup : order.Nodup) :
    hash ∈ order.take (order.length - maxTrackedAnnouncementHashes) ↔
      hash ∈ order ∧ hash ∉ trim maxTrackedAnnouncementHashes order := by
  constructor
  · exact fun mem => ⟨mem_of_mem_take mem, disjoint_take_drop nodup le_rfl mem⟩
  · rintro ⟨mem, gone⟩
    rw [← take_append_drop (order.length - maxTrackedAnnouncementHashes) order, mem_append] at mem
    exact mem.resolve_right gone

variable {trk : AnnouncementTracker} {otherHash : Uint256}

theorem announcers_of_record_ne {peerId : NodeId} {kept : List NodeId} (differ : otherHash ≠ hash)
    (found : (trk.recordCandidateAnnouncement peerId hash).announcers otherHash = some kept) :
    trk.announcers otherHash = some kept := by
  rw [announcers, recordCandidateAnnouncement, lookup_insert_of_ne _ differ] at found
  split_ifs at found
  · have inserted := (dropOldest_announcers _ _ _).symm.trans found
    rw [Option.ite_none_left_eq_some, lookup_insert_of_ne _ differ] at inserted
    exact inserted.2
  · rwa [lookup_insert_of_ne _ differ] at found

theorem mem_announcers_of_record {peerId other : NodeId} (mem : other ∈
      ((trk.recordCandidateAnnouncement peerId hash).announcers otherHash).getD []) :
    (otherHash = hash ∧ other = peerId) ∨ other ∈ (trk.announcers otherHash).getD [] := by
  by_cases same : otherHash = hash
  · subst same
    rw [announcers, recordCandidateAnnouncement, lookup_insert, Option.getD_some,
      addAnnouncer] at mem
    split_ifs at mem
    · rcases mem_append.mp mem with old | new
      · exact .inr old
      · exact .inl ⟨rfl, mem_singleton.mp new⟩
    · exact .inr mem
  · refine .inr ?_
    cases found : (trk.recordCandidateAnnouncement peerId hash).announcers otherHash with
    | none =>
      rw [found] at mem
      cases mem
    | some kept =>
      rw [found] at mem
      rwa [announcers_of_record_ne same found]

namespace Valid

theorem getD_isEmpty_iff (valid : Valid trk) (hash : Uint256) :
    ((trk.announcers hash).getD []).isEmpty ↔ hash ∉ trk.candidateAnnouncementOrder := by
  rw [valid.tracked_iff]
  cases found : trk.announcers hash with
  | none => simp
  | some announcers => simpa using valid.announced hash announcers found

theorem nodup_enter (valid : Valid trk) (absent : hash ∉ trk.candidateAnnouncementOrder) :
    (trk.candidateAnnouncementOrder ++ [hash]).Nodup := by
  rw [← concat_eq_append]
  exact valid.isBounded.distinct.concat absent

theorem recordCandidateAnnouncement_order (valid : Valid trk) (peerId : NodeId) (hash : Uint256) :
    (trk.recordCandidateAnnouncement peerId hash).candidateAnnouncementOrder =
      step maxTrackedAnnouncementHashes trk.candidateAnnouncementOrder (.enter hash) := by
  rw [recordCandidateAnnouncement, step]
  by_cases tracked : hash ∈ trk.candidateAnnouncementOrder
  · rw [if_pos tracked, if_neg fun isEmpty => (valid.getD_isEmpty_iff hash).mp isEmpty tracked]
  · rw [if_neg tracked, if_pos ((valid.getD_isEmpty_iff hash).mpr tracked)]
    exact dropOldest_order _ _

theorem recordCandidateAnnouncement_announcers (valid : Valid trk) (peerId : NodeId)
    (hash other : Uint256) : (trk.recordCandidateAnnouncement peerId hash).announcers other =
      if other = hash then some (addAnnouncer ((trk.announcers hash).getD []) peerId)
      else if other ∈ (trk.recordCandidateAnnouncement peerId hash).candidateAnnouncementOrder
        then trk.announcers other
      else none := by
  rw [valid.recordCandidateAnnouncement_order, announcers, recordCandidateAnnouncement]
  by_cases same : other = hash
  · subst same
    rw [if_pos rfl, lookup_insert]
  rw [if_neg same, lookup_insert_of_ne _ same, step]
  by_cases tracked : hash ∈ trk.candidateAnnouncementOrder
  · rw [if_pos tracked, if_neg fun isEmpty => (valid.getD_isEmpty_iff hash).mp isEmpty tracked,
      lookup_insert_of_ne _ same]
    split_ifs with otherTracked
    · rfl
    · simpa [valid.tracked_iff, announcers] using otherTracked
  · rw [if_neg tracked, if_pos ((valid.getD_isEmpty_iff hash).mpr tracked)]
    change (dropOldest _ _).announcers other = _
    rw [dropOldest_announcers, lookup_insert_of_ne _ same]
    simp only [mem_take_iff (valid.nodup_enter tracked)]
    split_ifs with gone kept kept
    · exact absurd kept gone.2
    · rfl
    · rfl
    · have absent : other ∉ trk.candidateAnnouncementOrder ++ [hash] :=
        fun mem => gone ⟨mem, kept⟩
      simpa [valid.tracked_iff, announcers, same] using absent

/-- Recording an announcement keeps the tracker valid. -/
theorem recordCandidateAnnouncement (valid : Valid trk) (peerId : NodeId) (hash : Uint256) :
    Valid (trk.recordCandidateAnnouncement peerId hash) := by
  have order := valid.recordCandidateAnnouncement_order peerId hash
  have entered : hash ∈
      (trk.recordCandidateAnnouncement peerId hash).candidateAnnouncementOrder := by
    rw [order]
    exact valid.isBounded.mem_enter (by decide) hash
  refine ⟨order ▸ valid.isBounded.step _, fun other => ?_, fun other announcers found => ?_⟩
  · rw [valid.recordCandidateAnnouncement_announcers]
    split_ifs with same kept
    · simpa [same] using entered
    · rw [iff_true_left kept, ← valid.tracked_iff]
      rw [order] at kept
      exact (mem_of_mem_enter kept).resolve_left same
    · simp [kept]
  · rw [valid.recordCandidateAnnouncement_announcers] at found
    split_ifs at found
    · rw [← Option.some_inj.mp found]
      exact addAnnouncer_ne_nil _ _
    · exact valid.announced other announcers found

theorem forget_announcers (hash other : Uint256) : (trk.forget hash).announcers other =
      if other = hash then none else trk.announcers other := by
  rw [announcers, AnnouncementTracker.forget]
  split_ifs with same
  · rw [same, lookup_erase]
  · exact lookup_erase_ne same

theorem forget (valid : Valid trk) (hash : Uint256) : Valid (trk.forget hash) := by
  refine ⟨valid.isBounded.step (.leave hash), fun other => ?_, fun other announcers found => ?_⟩
  · rw [forget_announcers]
    split_ifs with same
    · simp [AnnouncementTracker.forget, same]
    · simpa [AnnouncementTracker.forget, same] using valid.tracked_iff other
  · rw [forget_announcers] at found
    split_ifs at found
    exact valid.announced other announcers found

theorem apply (valid : Valid trk) (call : TrackerCall) : Valid (trk.apply call) := by
  cases call with
  | announcement peerId hash => exact valid.recordCandidateAnnouncement peerId hash
  | checked hash => exact valid.forget hash

theorem after (valid : Valid trk) (calls : List TrackerCall) : Valid (trk.after calls) := by
  induction calls generalizing trk with
  | nil => exact valid
  | cons call rest ih => exact ih (valid.apply call)

end Valid

end AnnouncementTracker

variable (announcers : List NodeId)

/-! ## The life of an entry -/

/-- The first different announcers. -/
def firstAnnouncers : List NodeId :=
  announcers.eraseDups.take maxAnnouncersPerHash

theorem firstAnnouncers_concat (peerId : NodeId) : firstAnnouncers (announcers ++ [peerId]) =
      addAnnouncer (firstAnnouncers announcers) peerId := by
  have nodup : (announcers ++ [peerId]).eraseDups =
      if peerId ∈ announcers then announcers.eraseDups else announcers.eraseDups ++ [peerId] := by
    rw [eraseDups_append]
    split_ifs with known
    · simp [removeAll, known]
    · simp [removeAll, known, eraseDups_cons]
  rw [firstAnnouncers, firstAnnouncers, nodup, addAnnouncer]
  by_cases room : announcers.eraseDups.length < maxAnnouncersPerHash
  · rw [take_of_length_le (Nat.le_of_lt room)]
    simp only [room, mem_eraseDups, true_and, ite_not]
    split_ifs with known
    · exact take_of_length_le (Nat.le_of_lt room)
    · exact take_of_length_le (by simpa using Nat.succ_le_of_lt room)
  · have full :
        ¬(announcers.eraseDups.take maxAnnouncersPerHash).length < maxAnnouncersPerHash := by
      rw [length_take]
      omega
    simp only [full, false_and, if_false]
    split_ifs with known
    · rfl
    · exact take_append_of_le_length (not_lt.mp room)

theorem firstAnnouncers_nodup : (firstAnnouncers announcers).Nodup := by
  induction announcers using reverseRecOn with
  | nil => exact nodup_nil
  | append_singleton earlier peerId ih =>
    rw [firstAnnouncers_concat, addAnnouncer]
    split_ifs with isNew
    · rw [← concat_eq_append]
      exact ih.concat isNew.2
    · exact ih

namespace TrackerCall

/-- What a call is for the queue of hashes. -/
def event : TrackerCall → Event Uint256
  | .announcement _ hash => .enter hash
  | .checked hash => .leave hash

theorem leave_mem_map_event {hash : Uint256} {calls : List TrackerCall} :
    .leave hash ∈ calls.map event ↔ .checked hash ∈ calls := by
  rw [mem_map]
  constructor
  · rintro ⟨call, mem, isLeave⟩
    cases call with
    | announcement => cases isLeave
    | checked => cases isLeave; exact mem
  · exact fun mem => ⟨_, mem, rfl⟩

/-- Who announces the hash by a call. -/
def announcerOf (hash : Uint256) : TrackerCall → Option NodeId
  | .announcement peerId announced => if announced = hash then some peerId else none
  | .checked _ => none

end TrackerCall

open TrackerCall

namespace AnnouncementTracker

/-- The hashes that have begun to be tracked during the calls and have not been
checked off since. -/
def begunSince (trk : AnnouncementTracker) (calls : List TrackerCall) : Finset Uint256 :=
  entered maxTrackedAnnouncementHashes trk.candidateAnnouncementOrder
    (calls.map event) ∅

variable {trk : AnnouncementTracker} {hash : Uint256}

theorem Valid.apply_order (valid : Valid trk) (call : TrackerCall) :
    (trk.apply call).candidateAnnouncementOrder =
      step maxTrackedAnnouncementHashes trk.candidateAnnouncementOrder call.event := by
  cases call with
  | announcement peerId hash => exact valid.recordCandidateAnnouncement_order peerId hash
  | checked hash => rfl

/-- The hashes are a bounded first-in-first-out queue. -/
theorem Valid.after_order (valid : Valid trk) (calls : List TrackerCall) :
    (trk.after calls).candidateAnnouncementOrder =
      run maxTrackedAnnouncementHashes trk.candidateAnnouncementOrder
        (calls.map event) := by
  induction calls generalizing trk with
  | nil => rfl
  | cons call rest ih =>
    rw [map_cons, run, foldl_cons, ← valid.apply_order call]
    exact ih (valid.apply call)

section

variable (valid : Valid trk) (untracked : trk.announcers hash = none)
include valid untracked

/-- An entry stays until the block is checked or too many hashes that began
after it are tracked at once. -/
theorem Valid.tracked_iff_begunSince (peerId : NodeId) (calls : List TrackerCall) :
    (∀ earlier, earlier <+: calls →
      (((trk.recordCandidateAnnouncement peerId hash).after earlier).announcers hash).isSome) ↔
      .checked hash ∉ calls ∧ ∀ earlier, earlier <+: calls →
        ((trk.recordCandidateAnnouncement peerId hash).begunSince earlier).card <
          maxTrackedAnnouncementHashes := by
  have valid' := valid.recordCandidateAnnouncement peerId hash
  have absent : hash ∉ trk.candidateAnnouncementOrder := by
    simp [valid.tracked_iff, untracked]
  have behind := valid.isBounded.isBehind_enter (by decide) absent
  rw [← valid.recordCandidateAnnouncement_order peerId hash] at behind
  have stays := stays_iff behind (calls.map event)
  rw [forall_prefix_map, forall_prefix_map, leave_mem_map_event] at stays
  simpa only [begunSince, ← valid'.after_order, (valid'.after _).tracked_iff] using stays

/-- While it stays, an entry holds the first announcers since it was
created. -/
theorem Valid.announcers_after (peerId : NodeId) (calls : List TrackerCall)
    (stays : ∀ earlier, earlier <+: calls →
      (((trk.recordCandidateAnnouncement peerId hash).after earlier).announcers hash).isSome) :
    ((trk.recordCandidateAnnouncement peerId hash).after calls).announcers hash =
      some (firstAnnouncers (peerId :: calls.filterMap (announcerOf hash))) := by
  have valid' := valid.recordCandidateAnnouncement peerId hash
  induction calls using reverseRecOn with
  | nil =>
    change (trk.recordCandidateAnnouncement peerId hash).announcers hash = _
    rw [valid.recordCandidateAnnouncement_announcers, if_pos rfl, untracked]
    rfl
  | append_singleton earlier call ih =>
    have before := ih fun other isPrefix => stays other (isPrefix.trans (prefix_append _ _))
    have now := stays _ (prefix_refl _)
    have laterValid := valid'.after earlier
    rw [after_concat] at now ⊢
    rw [filterMap_append]
    cases call with
    | announcement other announced =>
      rw [AnnouncementTracker.apply, laterValid.recordCandidateAnnouncement_announcers] at now ⊢
      by_cases same : hash = announced
      · subst same
        rw [if_pos rfl, before, Option.getD_some, ← firstAnnouncers_concat]
        simp [announcerOf]
      · rw [if_neg same] at now ⊢
        split_ifs at now ⊢ with kept
        · simpa [announcerOf, Ne.symm same] using before
        · simp at now
    | checked gone =>
      rw [AnnouncementTracker.apply, Valid.forget_announcers] at now ⊢
      split_ifs at now ⊢
      · simp at now
      · simpa [announcerOf, filterMap_cons] using before

/-- Every entry was created by an announcement of a hash that was not tracked,
and has stayed since. -/
theorem Valid.exists_creation (calls : List TrackerCall)
    (tracked : ((trk.after calls).announcers hash).isSome) :
    ∃ before peerId since, calls = before ++ .announcement peerId hash :: since ∧
      (trk.after before).announcers hash = none ∧ ∀ earlier, earlier <+: since →
        ((((trk.after before).recordCandidateAnnouncement peerId hash).after
          earlier).announcers hash).isSome := by
  induction calls using reverseRecOn with
  | nil => exact absurd tracked (by simp [AnnouncementTracker.after, untracked])
  | append_singleton init call ih =>
    cases already : (trk.after init).announcers hash with
    | some announcers =>
      obtain ⟨before, peerId, since, rfl, absent, stays⟩ := ih (by rw [already]; rfl)
      refine ⟨before, peerId, since ++ [call], by simp, absent, ?_⟩
      intro earlier isPrefix
      rcases prefix_concat_iff.mp isPrefix with rfl | isEarlier
      · simpa [AnnouncementTracker.after, AnnouncementTracker.apply] using tracked
      · exact stays earlier isEarlier
    | none =>
      have laterValid := valid.after init
      rw [after_concat] at tracked
      cases call with
      | announcement peerId announced =>
        rw [AnnouncementTracker.apply, laterValid.recordCandidateAnnouncement_announcers,
          already] at tracked
        by_cases same : hash = announced
        · subst same
          refine ⟨init, peerId, [], rfl, already, ?_⟩
          intro earlier isPrefix
          rw [prefix_nil.mp isPrefix]
          change (((trk.after init).recordCandidateAnnouncement peerId hash).announcers
            hash).isSome
          rw [laterValid.recordCandidateAnnouncement_announcers, if_pos rfl]
          rfl
        · simp [same] at tracked
      | checked gone =>
        rw [AnnouncementTracker.apply, Valid.forget_announcers, already] at tracked
        simp at tracked

end

/-- While the loop that drops the oldest hashes runs, the entry that is being extended stays. -/
theorem Valid.announcers_dropOldest (valid : Valid trk)
    (isNew : ((trk.announcers hash).getD []).isEmpty) (kept : List NodeId) :
    (dropOldest (trk.candidateAnnouncers.insert hash kept)
      (trk.candidateAnnouncementOrder ++ [hash])).announcers hash = some kept := by
  have absent := (valid.getD_isEmpty_iff hash).mp isNew
  have entered := valid.isBounded.mem_enter (by decide) hash
  rw [step, if_neg absent] at entered
  have stays := mt (mem_take_iff (valid.nodup_enter absent)).mp fun gone => gone.2 entered
  rw [dropOldest_announcers, if_neg stays, lookup_insert]

/-- The tracker's order and its map agree, and both are bounded, after any calls: the order
lists the tracked hashes once each, at most so many, and every list of announcers is non-empty,
without duplicates and bounded. The loop that makes room never erases the entry it makes room
for. -/
theorem announcementTracker_bounded (calls : List TrackerCall) :
    let trk := empty.after calls
    trk.candidateAnnouncementOrder.Nodup ∧
    trk.candidateAnnouncementOrder.toFinset = trk.candidateAnnouncers.keys ∧
    trk.candidateAnnouncers.keys.card ≤ maxTrackedAnnouncementHashes ∧
    (∀ hash announcers, trk.announcers hash = some announcers →
      announcers ≠ [] ∧ announcers.Nodup ∧ announcers.length ≤ maxAnnouncersPerHash) ∧
    ∀ hash, ((trk.announcers hash).getD []).isEmpty → ∀ kept,
      (dropOldest (trk.candidateAnnouncers.insert hash kept)
        (trk.candidateAnnouncementOrder ++ [hash])).announcers hash = some kept := by
  intro trk
  have valid : Valid trk := valid_empty.after calls
  have keys : trk.candidateAnnouncementOrder.toFinset = trk.candidateAnnouncers.keys := by
    ext hash
    rw [mem_toFinset, valid.tracked_iff, Finmap.mem_keys]
    exact lookup_isSome
  refine ⟨valid.isBounded.distinct, keys, ?_, ?_, fun hash => valid.announcers_dropOldest⟩
  · rw [← keys, toFinset_card_of_nodup valid.isBounded.distinct]
    exact valid.isBounded.bounded
  · intro hash announcers found
    refine ⟨valid.announced hash announcers found, ?_⟩
    -- The list holds the first announcers since the entry was created.
    obtain ⟨before, peerId, since, rfl, absent, stays⟩ :=
      @Valid.exists_creation empty hash valid_empty rfl calls (by rw [found]; rfl)
    have first := (valid_empty.after before).announcers_after absent peerId since stays
    have same : trk =
        ((empty.after before).recordCandidateAnnouncement peerId hash).after since := by
      simp [trk, AnnouncementTracker.after, AnnouncementTracker.apply]
    rw [same, first, Option.some_inj] at found
    rw [← found]
    exact ⟨firstAnnouncers_nodup _, length_take_le _ _⟩

end AnnouncementTracker

end BitcoinCore.NetProcessing
