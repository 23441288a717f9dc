import BitcoinCore.ClusterLinearize.GroupPass
import BitcoinCore.Lib.LinkedNodes

/-!
# Post-linearization

`PostLinearize` keeps its groups in linked lists: the transactions of a group point to the
one before them, the last transaction of a group holds what is known about the group and
points to the last transaction of the group before, and a sentinel closes the ring. The
entry of a transaction stands one place after its index, and the sentinel at place zero.

The ring stands for a stack of groups (`Ring`), and one merge and swap cycle settles a
group on that stack (`Ring.cycle`), so a pass of the code is a pass over groups
(`linearizationPass_eq`).
-/

namespace BitcoinCore.ClusterLinearize

open LinkedNodes List

/-! ## The code -/

def sentinel : ℕ := 0

def noPrevTx : ℕ := 0

@[ext]
structure TxEntry where
  prevTx : ℕ
  firstTx : ℕ
  prevGroup : ℕ
  group : Finset ℕ
  deps : Finset ℕ
  feerate : FeeFrac

def initialEntries : ℕ → TxEntry := fun _ => ⟨0, 0, 0, ∅, ∅, 0⟩

def modifyEntry (entries : ℕ → TxEntry) (index : ℕ) (change : TxEntry → TxEntry) : ℕ → TxEntry :=
  Function.update entries index (change (entries index))

/-- The feerates and dependencies of a pass; in even passes the meaning of parent and child, and
of high and low feerate, are swapped. -/
def passView (graph : DepGraph) (rev : Bool) : PassView where
  rate idx := if rev then ⟨-(graph.feeRate idx).fee, (graph.feeRate idx).size⟩ else graph.feeRate idx
  deps idx := if rev then graph.descendants idx else graph.ancestors idx

section

variable (view : PassView)

/-- Add a group with a single transaction at the end of the ring. -/
def appendGroup (entries : ℕ → TxEntry) (idx : ℕ) : ℕ → TxEntry :=
  let curGroup := idx + 1
  let entries := modifyEntry entries curGroup fun _ =>
    { prevTx := noPrevTx
      firstTx := curGroup
      prevGroup := (entries sentinel).prevGroup
      group := {idx}
      deps := view.deps idx
      feerate := view.rate idx }
  modifyEntry entries sentinel fun entry => { entry with prevGroup := curGroup }

def mergeGroups (entries : ℕ → TxEntry) (curGroup prevGroup : ℕ) : ℕ → TxEntry :=
  let entries := modifyEntry entries curGroup fun entry =>
    { entry with
      group := entry.group ∪ (entries prevGroup).group
      deps := entry.deps ∪ (entries prevGroup).deps
      feerate := entry.feerate + (entries prevGroup).feerate }
  let entries := modifyEntry entries (entries curGroup).firstTx fun entry =>
    { entry with prevTx := prevGroup }
  let entries := modifyEntry entries curGroup fun entry =>
    { entry with firstTx := (entries prevGroup).firstTx }
  modifyEntry entries curGroup fun entry =>
    { entry with prevGroup := (entries prevGroup).prevGroup }

def swapGroups (entries : ℕ → TxEntry) (nextGroup curGroup prevGroup : ℕ) : ℕ → TxEntry :=
  let preprevGroup := (entries prevGroup).prevGroup
  let entries := modifyEntry entries nextGroup fun entry => { entry with prevGroup := prevGroup }
  let entries := modifyEntry entries prevGroup fun entry => { entry with prevGroup := curGroup }
  modifyEntry entries curGroup fun entry => { entry with prevGroup := preprevGroup }

def mergeSwapCycle : ℕ → (ℕ → TxEntry) → ℕ → ℕ → ℕ → Option (ℕ → TxEntry)
  | 0, _, _, _, _ => none
  | fuel + 1, entries, nextGroup, curGroup, prevGroup =>
    if (entries curGroup).feerate.higher (entries prevGroup).feerate then
      if ((entries curGroup).deps ∩ (entries prevGroup).group).Nonempty then
        let entries := mergeGroups entries curGroup prevGroup
        mergeSwapCycle fuel entries nextGroup curGroup (entries curGroup).prevGroup
      else
        let preprevGroup := (entries prevGroup).prevGroup
        mergeSwapCycle fuel (swapGroups entries nextGroup curGroup prevGroup) prevGroup curGroup
          preprevGroup
    else some entries

def addTransactions (fuel : ℕ) : List ℕ → (ℕ → TxEntry) → Option (ℕ → TxEntry)
  | [], entries => some entries
  | idx :: rest, entries =>
    let entries := appendGroup view entries idx
    (mergeSwapCycle fuel entries sentinel (idx + 1) (entries (idx + 1)).prevGroup).bind
      (addTransactions fuel rest)

/-- The transactions of a group from its last to its first: at least one, and then as long as
there is a previous one. -/
def groupTransactions (entries : ℕ → TxEntry) : ℕ → ℕ → Option (List ℕ)
  | 0, _ => none
  | fuel + 1, curTx =>
    let prevTx := (entries curTx).prevTx
    if prevTx ≠ noPrevTx then (groupTransactions entries fuel prevTx).map ((curTx - 1) :: ·)
    else some [curTx - 1]

def allTransactions (entries : ℕ → TxEntry) (fuel : ℕ) : Option (List ℕ) := do
  let groups ← follow (fun group => (entries group).prevGroup) sentinel fuel
    (entries sentinel).prevGroup
  let txs ← groups.mapM (groupTransactions entries fuel)
  pure txs.flatten

end

def linearizationPass (graph : DepGraph) (rev : Bool) (entries : ℕ → TxEntry)
    (lin : List ℕ) : Option ((ℕ → TxEntry) × List ℕ) := do
  let fuel := lin.length + 1
  let entries := modifyEntry entries sentinel fun entry => { entry with prevGroup := sentinel }
  let entries ← addTransactions (passView graph rev) fuel (if rev then lin.reverse else lin) entries
  let txs ← allTransactions entries fuel
  -- the transactions are written over the linearization, from its front or from its back
  pure (entries,
    if rev then txs ++ lin.drop txs.length
    else lin.take (lin.length - txs.length) ++ txs.reverse)

def postLinearize (graph : DepGraph) (lin : List ℕ) : Option (List ℕ) := do
  let (entries, lin) ← linearizationPass graph true initialEntries lin
  let (_, lin) ← linearizationPass graph false entries lin
  pure lin

/-! ## What the changes of entries do -/

section

variable {entries : ℕ → TxEntry} {curGroup prevGroup nextGroup index : ℕ}

theorem field_modifyEntry {α : Type*} (field : TxEntry → α) (entries : ℕ → TxEntry) (new : ℕ)
    (change : TxEntry → TxEntry) (index : ℕ) : field (modifyEntry entries new change index) =
      if index = new then field (change (entries new)) else field (entries index) := by
  rw [modifyEntry, Function.update_apply, apply_ite field]

/-- What an entry says about its group and its place in it, apart from the previous group. -/
def TxEntry.inGroup (entry : TxEntry) : TxEntry := { entry with prevGroup := sentinel }

theorem inGroup_modifyEntry (entries : ℕ → TxEntry) (new group index : ℕ) :
    (modifyEntry entries new (fun entry => { entry with prevGroup := group }) index).inGroup =
      (entries index).inGroup := by
  rw [field_modifyEntry TxEntry.inGroup]
  split
  case isTrue same => rw [same]; rfl
  case isFalse => rfl

theorem mergeGroups_apply (index : ℕ) : mergeGroups entries curGroup prevGroup index =
    if index = curGroup then
      { prevTx := if index = (entries index).firstTx then prevGroup else (entries index).prevTx
        firstTx := (entries prevGroup).firstTx
        prevGroup := (entries prevGroup).prevGroup
        group := (entries index).group ∪ (entries prevGroup).group
        deps := (entries index).deps ∪ (entries prevGroup).deps
        feerate := (entries index).feerate + (entries prevGroup).feerate }
    else if index = (entries curGroup).firstTx then { entries index with prevTx := prevGroup }
    else entries index := by
  simp only [mergeGroups, modifyEntry, Function.update_apply]
  grind

theorem mergeGroups_prevTx (index : ℕ) : (mergeGroups entries curGroup prevGroup index).prevTx =
      if index = (entries curGroup).firstTx then prevGroup else (entries index).prevTx := by
  rw [mergeGroups_apply]
  grind

theorem mergeGroups_prevGroup (index : ℕ) :
    (mergeGroups entries curGroup prevGroup index).prevGroup =
      if index = curGroup then (entries prevGroup).prevGroup else (entries index).prevGroup := by
  rw [mergeGroups_apply]
  grind

theorem swapGroups_prevGroup (index : ℕ) :
    (swapGroups entries nextGroup curGroup prevGroup index).prevGroup =
      if index = curGroup then (entries prevGroup).prevGroup
      else if index = prevGroup then curGroup
      else if index = nextGroup then prevGroup else (entries index).prevGroup := by
  simp only [swapGroups, field_modifyEntry TxEntry.prevGroup]

theorem swapGroups_inGroup (index : ℕ) :
    (swapGroups entries nextGroup curGroup prevGroup index).inGroup = (entries index).inGroup := by
  simp only [swapGroups, inGroup_modifyEntry]

end

/-! ## The ring of groups -/

def tailOf (group : List ℕ) : ℕ := group.getLastD 0 + 1

def firstOf (group : List ℕ) : ℕ := group.headD 0 + 1

/-- The entries hold a group: its last transaction what is known about it, and every one the
place of the one before. -/
structure GroupAt (view : PassView) (entries : ℕ → TxEntry) (group : List ℕ) : Prop where
  nonempty : group ≠ []
  group_eq : (entries (tailOf group)).group = group.toFinset
  deps_eq : (entries (tailOf group)).deps = group.toFinset.biUnion view.deps
  rate_eq : (entries (tailOf group)).feerate = view.groupRate group
  first_eq : (entries (tailOf group)).firstTx = firstOf group
  linked : Linked (fun index => (entries index).prevTx) (group.reverse.map (· + 1)) noPrevTx

/-- The entries hold a stack of groups, the last group on top. -/
structure Ring (view : PassView) (entries : ℕ → TxEntry) (stack : List (List ℕ)) : Prop where
  nodup : stack.flatten.Nodup
  groups : ∀ group ∈ stack, GroupAt view entries group
  linked : Linked (fun index => (entries index).prevGroup) (sentinel :: stack.map tailOf) sentinel
  empty : (entries sentinel).feerate = 0

section

variable {view : PassView} {entries entries' : ℕ → TxEntry} {group pre : List ℕ}
  {after stack : List (List ℕ)} {fuel : ℕ}

theorem tailOf_mem (nonempty : group ≠ []) : tailOf group ∈ group.map (· + 1) := by
  rw [tailOf, getLastD_eq_getLast?, getLast?_eq_some_getLast nonempty]
  exact mem_map_of_mem (getLast_mem nonempty)

theorem firstOf_mem (nonempty : group ≠ []) : firstOf group ∈ group.map (· + 1) := by
  cases group with
  | nil => exact absurd rfl nonempty
  | cons i group => exact mem_cons_self

theorem tailOf_append (nonempty : group ≠ []) : tailOf (pre ++ group) = tailOf group := by
  rw [tailOf, tailOf, getLastD_eq_getLast?, getLastD_eq_getLast?,
    getLast?_append_of_ne_nil pre nonempty]

theorem firstOf_append (nonempty : pre ≠ []) : firstOf (pre ++ group) = firstOf pre := by
  cases pre with
  | nil => exact absurd rfl nonempty
  | cons i pre => rfl

theorem headD_places (nonempty : group ≠ []) :
    (group.reverse.map (· + 1)).headD noPrevTx = tailOf group := by
  rw [headD_eq_head?_getD, head?_map, head?_reverse, tailOf,
    getLastD_eq_getLast?, getLast?_eq_some_getLast nonempty]
  rfl

theorem GroupAt.congr (at_group : GroupAt view entries group)
    (same : ∀ index ∈ group.map (· + 1), (entries' index).inGroup = (entries index).inGroup) :
    GroupAt view entries' group := by
  have tail_same := same _ (tailOf_mem at_group.nonempty)
  refine ⟨at_group.nonempty, ?_, ?_, ?_, ?_, at_group.linked.congr fun index mem => ?_⟩
  · exact (congrArg TxEntry.group tail_same).trans at_group.group_eq
  · exact (congrArg TxEntry.deps tail_same).trans at_group.deps_eq
  · exact (congrArg TxEntry.feerate tail_same).trans at_group.rate_eq
  · exact (congrArg TxEntry.firstTx tail_same).trans at_group.first_eq
  · rw [map_reverse, mem_reverse] at mem
    have index_same := same index mem
    exact congrArg (·.prevTx) index_same

theorem Ring.tailOf_mem (ring : Ring view entries stack) (mem : group ∈ stack) :
    tailOf group ∈ group.map (· + 1) :=
  ClusterLinearize.tailOf_mem (ring.groups group mem).nonempty

theorem Ring.disjoint (ring : Ring view entries (after ++ group :: stack)) {other : List ℕ}
    (mem : other ∈ after ++ stack) : Disjoint group other := by
  obtain ⟨-, disjoint⟩ := nodup_flatten.mp ring.nodup
  obtain ⟨-, from_group, to_group⟩ := pairwise_append.mp disjoint
  rcases mem_append.mp mem with in_after | in_stack
  · exact (to_group other in_after group mem_cons_self).symm
  · exact (pairwise_cons.mp from_group).1 other in_stack

theorem place_ne {other : List ℕ} (disjoint : Disjoint group other) {place place' : ℕ}
    (in_group : place ∈ group.map (· + 1)) (in_other : place' ∈ other.map (· + 1)) :
    place' ≠ place := by
  rintro rfl
  obtain ⟨i, i_mem, rfl⟩ := mem_map.mp in_group
  obtain ⟨j, j_mem, same⟩ := mem_map.mp in_other
  obtain rfl : j = i := Nat.succ_injective same
  exact disjoint i_mem j_mem

theorem place_ne_sentinel {place : ℕ} (in_group : place ∈ group.map (· + 1)) : place ≠ sentinel := by
  obtain ⟨i, -, rfl⟩ := mem_map.mp in_group
  exact Nat.succ_ne_zero i

theorem Ring.places_nodup (ring : Ring view entries stack) :
    (sentinel :: stack.map tailOf).Nodup := by
  obtain ⟨-, disjoint⟩ := nodup_flatten.mp ring.nodup
  refine nodup_cons.mpr ⟨fun mem => ?_, pairwise_map.mpr ?_⟩
  · obtain ⟨group, group_mem, place⟩ := mem_map.mp mem
    exact place_ne_sentinel (ring.tailOf_mem group_mem) place
  · refine disjoint.imp_of_mem fun {group other} group_mem other_mem separate => ?_
    exact (place_ne separate (ring.tailOf_mem group_mem) (ring.tailOf_mem other_mem)).symm

def nextPlace (after : List (List ℕ)) : ℕ := (after.map tailOf).getLastD sentinel

/-- The place of the group before the current one, or the sentinel. -/
def prevPlace (stack : List (List ℕ)) : ℕ := (stack.map tailOf).headD sentinel

theorem Ring.linked_split (ring : Ring view entries (after ++ group :: stack)) :
    Linked (fun index => (entries index).prevGroup) (sentinel :: after.map tailOf) (tailOf group) ∧
      (entries (tailOf group)).prevGroup = prevPlace stack ∧
      Linked (fun index => (entries index).prevGroup) (stack.map tailOf) sentinel := by
  have linked := ring.linked
  rw [map_append, map_cons, ← cons_append, linked_append] at linked
  exact linked

theorem Ring.merge_groupAt (ring : Ring view entries (after ++ group :: pre :: stack)) :
    GroupAt view (mergeGroups entries (tailOf group) (tailOf pre)) (pre ++ group) := by
  have group_at := ring.groups group (by simp)
  have before_at := ring.groups pre (by simp)
  have disjoint : Disjoint group pre := ring.disjoint (by simp)
  have tail : tailOf (pre ++ group) = tailOf group := tailOf_append group_at.nonempty
  refine ⟨append_ne_nil_of_right_ne_nil _ group_at.nonempty, ?_, ?_, ?_, ?_, ?_⟩
  · simp only [tail, mergeGroups_apply, if_pos, group_at.group_eq, before_at.group_eq,
      toFinset_append, Finset.union_comm]
  · simp only [tail, mergeGroups_apply, if_pos, group_at.deps_eq, before_at.deps_eq,
      toFinset_append, Finset.union_biUnion, Finset.union_comm]
  · simp only [tail, mergeGroups_apply, if_pos, group_at.rate_eq, before_at.rate_eq,
      PassView.groupRate, map_append, sum_append, add_comm]
  · simp only [tail, mergeGroups_apply, if_pos, before_at.first_eq,
      firstOf_append before_at.nonempty]
  · -- the first transaction of the group now points to the last one of the group before
    rw [reverse_append, map_append, linked_append]
    refine ⟨?_, before_at.linked.congr fun place mem => ?_⟩
    · rw [headD_places before_at.nonempty]
      obtain ⟨first, rest, rfl⟩ := exists_cons_of_ne_nil group_at.nonempty
      have linked := group_at.linked
      have nodup : (first :: rest).Nodup :=
        (nodup_flatten.mp ring.nodup).1 _ (by simp)
      rw [reverse_cons, map_append, linked_append] at linked ⊢
      refine ⟨linked.1.congr fun place mem => ?_, ?_, trivial⟩
      · rw [map_reverse, mem_reverse] at mem
        obtain ⟨i, i_mem, rfl⟩ := mem_map.mp mem
        rw [mergeGroups_prevTx, if_neg]
        rw [group_at.first_eq]
        rintro same
        obtain rfl : i = first := Nat.succ_injective same
        exact (nodup_cons.mp nodup).1 i_mem
      · exact (mergeGroups_prevTx _).trans (if_pos group_at.first_eq.symm)
    · rw [map_reverse, mem_reverse] at mem
      rw [mergeGroups_prevTx, if_neg]
      rw [group_at.first_eq]
      exact place_ne disjoint (firstOf_mem group_at.nonempty) mem

theorem Ring.merge (ring : Ring view entries (after ++ group :: pre :: stack)) :
    Ring view (mergeGroups entries (tailOf group) (tailOf pre))
      (after ++ (pre ++ group) :: stack) := by
  have group_at := ring.groups group (by simp)
  have tail_mem := ring.tailOf_mem (show group ∈ _ by simp)
  refine ⟨?_, ?_, ?_, ?_⟩
  · refine (Perm.nodup_iff ?_).mp ring.nodup
    simp only [flatten_append, flatten_cons]
    refine Perm.append_left _ ?_
    rw [← append_assoc]
    exact perm_append_comm.append_right _
  · intro other mem
    rcases mem_cons.mp (perm_middle.mem_iff.mp mem) with rfl | mem
    · exact ring.merge_groupAt
    have apart : Disjoint group other := by
      refine ring.disjoint ?_
      rw [mem_append] at mem ⊢
      exact mem.imp_right (mem_cons_of_mem pre)
    have isIn : other ∈ after ++ group :: pre :: stack := by
      simp only [mem_append, mem_cons] at mem ⊢
      tauto
    refine (ring.groups other isIn).congr fun place in_other => ?_
    rw [mergeGroups_apply, if_neg (place_ne apart tail_mem in_other), if_neg]
    rw [group_at.first_eq]
    exact place_ne apart (firstOf_mem group_at.nonempty) in_other
  · have places := ring.places_nodup
    obtain ⟨linked_after, prev_eq, linked_before⟩ := ring.linked_split
    rw [map_append, map_cons, map_cons, ← cons_append] at places
    obtain ⟨-, below, apart⟩ := nodup_append'.mp places
    rw [map_append, map_cons, tailOf_append group_at.nonempty, ← cons_append, linked_append]
    refine ⟨linked_after.congr fun place mem => ?_, ?_, linked_before.2.congr fun place mem => ?_⟩
    · rw [mergeGroups_prevGroup, if_neg]
      rintro rfl
      exact apart mem mem_cons_self
    · refine (mergeGroups_prevGroup _).trans ?_
      rw [if_pos rfl]
      exact linked_before.1
    · rw [mergeGroups_prevGroup, if_neg]
      rintro rfl
      exact (nodup_cons.mp below).1 (mem_cons_of_mem _ mem)
  · have not_sentinel := (place_ne_sentinel tail_mem).symm
    rw [mergeGroups_apply, if_neg not_sentinel, apply_ite TxEntry.feerate, ite_self]
    exact ring.empty

theorem exists_nextPlace (after : List (List ℕ)) :
    ∃ front, sentinel :: after.map tailOf = front ++ [nextPlace after] := by
  rcases eq_nil_or_concat after with rfl | ⟨others, last, rfl⟩
  · exact ⟨[], rfl⟩
  · refine ⟨sentinel :: others.map tailOf, ?_⟩
    simp [nextPlace]

theorem Ring.swap (ring : Ring view entries (after ++ group :: pre :: stack)) :
    Ring view (swapGroups entries (nextPlace after) (tailOf group) (tailOf pre))
      (after ++ pre :: group :: stack) := by
  have perm := (Perm.swap pre group stack).append_left after
  refine ⟨perm.flatten.nodup_iff.mp ring.nodup, fun other mem => ?_, ?_, ?_⟩
  · exact (ring.groups other (perm.mem_iff.mpr mem)).congr fun place _ => swapGroups_inGroup place
  · obtain ⟨front, front_eq⟩ := exists_nextPlace after
    have places := ring.places_nodup
    obtain ⟨linked_after, -, linked_before⟩ := ring.linked_split
    rw [map_append, map_cons, map_cons, ← cons_append, front_eq] at places ⊢
    rw [front_eq, linked_append] at linked_after
    obtain ⟨above, below, apart⟩ := nodup_append'.mp places
    obtain ⟨-, -, front_next⟩ := nodup_append'.mp above
    have next_mem : nextPlace after ∈ front ++ [nextPlace after] := by simp
    have next_cur : nextPlace after ≠ tailOf group := fun same =>
      apart next_mem (by rw [same]; exact mem_cons_self)
    have next_prev : nextPlace after ≠ tailOf pre := fun same =>
      apart next_mem (by rw [same]; exact mem_cons_of_mem _ mem_cons_self)
    rw [nodup_cons, nodup_cons, mem_cons, not_or] at below
    obtain ⟨⟨cur_prev, cur_rest⟩, prev_rest, -⟩ := below
    have kept : ∀ place, place ≠ tailOf group → place ≠ tailOf pre → place ≠ nextPlace after →
        (swapGroups entries (nextPlace after) (tailOf group) (tailOf pre) place).prevGroup =
          (entries place).prevGroup := by
      intro place not_cur not_prev not_next
      rw [swapGroups_prevGroup, if_neg not_cur, if_neg not_prev, if_neg not_next]
    rw [append_assoc, linked_append]
    refine ⟨linked_after.1.congr fun place mem => kept place ?_ ?_ ?_, ?_, ?_, ?_,
      linked_before.2.congr fun place mem => kept place ?_ ?_ ?_⟩
    · rintro rfl
      exact apart (mem_append_left _ mem) mem_cons_self
    · rintro rfl
      exact apart (mem_append_left _ mem) (mem_cons_of_mem _ mem_cons_self)
    · rintro rfl
      exact front_next mem (mem_singleton_self _)
    · refine (swapGroups_prevGroup _).trans ?_
      rw [if_neg next_cur, if_neg next_prev, if_pos rfl]
      rfl
    · refine (swapGroups_prevGroup _).trans ?_
      rw [if_neg (Ne.symm cur_prev), if_pos rfl]
      rfl
    · refine (swapGroups_prevGroup _).trans ?_
      rw [if_pos rfl]
      exact linked_before.1
    · rintro rfl
      exact cur_rest mem
    · rintro rfl
      exact prev_rest mem
    · rintro rfl
      exact apart next_mem (mem_cons_of_mem _ (mem_cons_of_mem _ mem))
  · exact (congrArg TxEntry.feerate (swapGroups_inGroup sentinel)).trans ring.empty

/-- One merge and swap cycle settles a group on the stack. -/
theorem Ring.cycle (ring : Ring view entries (after ++ group :: stack))
    (enough : stack.length < fuel) :
    ∃ entries', mergeSwapCycle fuel entries (nextPlace after) (tailOf group) (prevPlace stack) =
      some entries' ∧ Ring view entries' (after ++ view.settle group stack) := by
  induction stack generalizing fuel entries after group with
  | nil =>
    obtain ⟨fuel, rfl⟩ := Nat.exists_eq_succ_of_ne_zero (Nat.ne_zero_of_lt enough)
    refine ⟨entries, ?_, ring⟩
    have stop : (entries (tailOf group)).feerate.higher (entries sentinel).feerate = false := by
      rw [ring.empty]
      simp [FeeFrac.higher, FeeFrac.mul]
    rw [mergeSwapCycle, prevPlace, map_nil, headD_nil, stop]
    rfl
  | cons pre stack ih =>
    obtain ⟨fuel, rfl⟩ := Nat.exists_eq_succ_of_ne_zero (Nat.ne_zero_of_lt enough)
    have group_at := ring.groups group (by simp)
    have before_at := ring.groups pre (by simp)
    have enough : stack.length < fuel := Nat.lt_of_succ_lt_succ enough
    have place : prevPlace (pre :: stack) = tailOf pre := rfl
    have overlap : ((entries (tailOf group)).deps ∩ (entries (tailOf pre)).group).Nonempty ↔
        view.dependsOn group pre := by
      rw [group_at.deps_eq, before_at.group_eq, dependsOn_eq_true_iff]
      constructor
      · rintro ⟨j, mem⟩
        obtain ⟨in_deps, in_before⟩ := Finset.mem_inter.mp mem
        obtain ⟨i, i_mem, dep⟩ := Finset.mem_biUnion.mp in_deps
        exact ⟨i, mem_toFinset.mp i_mem, j, mem_toFinset.mp in_before, dep⟩
      · rintro ⟨i, i_mem, j, j_mem, dep⟩
        exact ⟨j, Finset.mem_inter.mpr ⟨Finset.mem_biUnion.mpr
          ⟨i, mem_toFinset.mpr i_mem, dep⟩, mem_toFinset.mpr j_mem⟩⟩
    rw [PassView.settle, mergeSwapCycle, place, group_at.rate_eq, before_at.rate_eq]
    split
    case isTrue higher =>
      split
      case isTrue overlaps =>
        rw [if_pos (overlap.mp overlaps)]
        have merged := ring.merge
        obtain ⟨entries', cycled, ring'⟩ := ih merged enough
        refine ⟨entries', ?_, ring'⟩
        have prev := merged.linked_split.2.1
        rw [tailOf_append group_at.nonempty] at cycled prev
        rw [← prev] at cycled
        exact cycled
      case isFalse separate =>
        rw [if_neg fun depends => separate (overlap.mpr depends)]
        have swapped := ring.swap
        rw [← singleton_append, ← append_assoc] at swapped
        obtain ⟨entries', cycled, ring'⟩ := ih swapped enough
        have preprev : (entries (tailOf pre)).prevGroup = prevPlace stack :=
          ring.linked_split.2.2.1
        have next : nextPlace (after ++ [pre]) = tailOf pre := by simp [nextPlace]
        refine ⟨entries', ?_, ?_⟩
        · rw [next] at cycled
          rw [preprev]
          exact cycled
        · rwa [append_assoc, singleton_append] at ring'
    case isFalse notHigher => exact ⟨entries, rfl, ring⟩

theorem Ring.append (ring : Ring view entries stack) {idx : ℕ} (fresh : idx ∉ stack.flatten) :
    Ring view (appendGroup view entries idx) ([idx] :: stack) := by
  have at_cur : appendGroup view entries idx (idx + 1) =
      ⟨noPrevTx, idx + 1, (entries sentinel).prevGroup, {idx}, view.deps idx, view.rate idx⟩ := by
    simp [appendGroup, modifyEntry, sentinel]
  have at_sentinel : appendGroup view entries idx sentinel =
      { entries sentinel with prevGroup := idx + 1 } := by
    simp [appendGroup, modifyEntry, sentinel]
  have others : ∀ place, place ≠ idx + 1 → place ≠ sentinel →
      appendGroup view entries idx place = entries place := by
    intro place not_cur not_sentinel
    simp [appendGroup, modifyEntry, Function.update_of_ne, not_cur, not_sentinel]
  have other_places : ∀ group ∈ stack, ∀ place ∈ group.map (· + 1), place ≠ idx + 1 := by
    rintro group mem place in_group rfl
    obtain ⟨i, i_mem, same⟩ := mem_map.mp in_group
    obtain rfl : i = idx := Nat.succ_injective same
    exact fresh (mem_flatten_of_mem mem i_mem)
  refine ⟨?_, ?_, ?_, ?_⟩
  · exact nodup_cons.mpr ⟨fresh, ring.nodup⟩
  · refine forall_mem_cons.mpr ⟨?_, fun group mem => ?_⟩
    · have tail : tailOf [idx] = idx + 1 := rfl
      refine ⟨cons_ne_nil idx [], ?_, ?_, ?_, ?_, ?_, trivial⟩
      · rw [tail, at_cur, toFinset_cons, toFinset_nil]
        rfl
      · rw [tail, at_cur]
        simp
      · rw [tail, at_cur, PassView.groupRate, map_singleton, sum_singleton]
      · rw [tail, at_cur]
        rfl
      · exact congrArg TxEntry.prevTx at_cur
    · refine (ring.groups group mem).congr fun place in_group => ?_
      rw [others place (other_places group mem place in_group) (place_ne_sentinel in_group)]
  · refine ⟨?_, ?_, ring.linked.2.congr fun place mem => ?_⟩
    · exact congrArg TxEntry.prevGroup at_sentinel
    · exact (congrArg TxEntry.prevGroup at_cur).trans ring.linked.1
    · obtain ⟨group, group_mem, rfl⟩ := mem_map.mp mem
      have in_group := ring.tailOf_mem group_mem
      rw [others _ (other_places group group_mem _ in_group) (place_ne_sentinel in_group)]
  · rw [at_sentinel]
    exact ring.empty

/-- Adding the transactions one by one settles them all on the stack. -/
theorem Ring.addTransactions (ring : Ring view entries stack) {lin : List ℕ}
    (nodup : (stack.flatten ++ lin).Nodup) (enough : stack.length + lin.length ≤ fuel) :
    ∃ entries', ClusterLinearize.addTransactions view fuel lin entries = some entries' ∧
      Ring view entries' (settleAll view stack lin) := by
  induction lin generalizing entries stack with
  | nil => exact ⟨entries, rfl, ring⟩
  | cons idx lin ih =>
    rw [length_cons] at enough
    have fresh : idx ∉ stack.flatten := fun mem =>
      (nodup_append'.mp nodup).2.2 mem mem_cons_self
    have appended : Ring view (appendGroup view entries idx) ([] ++ [idx] :: stack) :=
      ring.append fresh
    obtain ⟨entries₁, cycled, ring₁⟩ := appended.cycle (show stack.length < fuel by omega)
    have perm := (perm_settle view [idx] stack).append_right lin
    obtain ⟨entries', added, ring'⟩ := ih ring₁
      ((Perm.nodup_iff (perm.trans perm_middle.symm)).mpr nodup)
      (by have := length_settle_le view [idx] stack; simp only [nil_append]; omega)
    refine ⟨entries', ?_, ring'⟩
    rw [ClusterLinearize.addTransactions]
    have prev := appended.linked_split.2.1
    have tail : tailOf [idx] = idx + 1 := rfl
    rw [tail] at prev cycled
    simp only [prev]
    exact (congrArg (Option.bind · _) cycled).trans added

theorem groupTransactions_eq {last : ℕ} {others : List ℕ}
    (linked : Linked (fun index => (entries index).prevTx) ((last :: others).map (· + 1)) noPrevTx)
    (enough : others.length < fuel) :
    groupTransactions entries fuel (last + 1) = some (last :: others) := by
  induction others generalizing last fuel with
  | nil =>
    obtain ⟨fuel, rfl⟩ := Nat.exists_eq_succ_of_ne_zero (Nat.ne_zero_of_lt enough)
    have first : (entries (last + 1)).prevTx = noPrevTx := linked.1
    rw [groupTransactions, first]
    simp
  | cons next others ih =>
    obtain ⟨fuel, rfl⟩ := Nat.exists_eq_succ_of_ne_zero (Nat.ne_zero_of_lt enough)
    have step : (entries (last + 1)).prevTx = next + 1 := linked.1
    have more : next + 1 ≠ noPrevTx := Nat.succ_ne_zero next
    rw [groupTransactions, step, if_pos more, ih linked.2 (Nat.lt_of_succ_lt_succ enough)]
    rfl

theorem Ring.allTransactions_eq (ring : Ring view entries stack)
    (enough : stack.flatten.length < fuel) :
    allTransactions entries fuel = some stack.reverse.flatten.reverse := by
  have lengths : ∀ group ∈ stack, group.length ≤ stack.flatten.length := by
    intro group mem
    exact (sublist_flatten_of_mem mem).length_le
  have few : stack.length ≤ stack.flatten.length := by
    rw [length_flatten, ← length_map length]
    refine length_le_sum_of_one_le _ fun length mem => ?_
    obtain ⟨group, group_mem, rfl⟩ := mem_map.mp mem
    exact length_pos_of_ne_nil (ring.groups group group_mem).nonempty
  have places : follow (fun group => (entries group).prevGroup) sentinel fuel
      (entries sentinel).prevGroup = some (stack.map tailOf) := by
    have start : (entries sentinel).prevGroup = (stack.map tailOf).headD sentinel := ring.linked.1
    rw [start]
    refine follow_eq ring.linked.2 (nodup_cons.mp ring.places_nodup).1 ?_
    rw [length_map]
    exact few.trans_lt enough
  have visited : ∀ group ∈ stack, groupTransactions entries fuel (tailOf group) = some group.reverse := by
    intro group mem
    have ⟨nonempty, _, _, _, _, linked⟩ := ring.groups group mem
    have tail := headD_places nonempty
    obtain ⟨last, others, reversed⟩ := exists_cons_of_ne_nil (reverse_ne_nil_iff.mpr nonempty)
    have length : group.length = others.length + 1 := by
      rw [← length_reverse, reversed, length_cons]
    rw [reversed] at linked tail ⊢
    rw [← tail]
    refine groupTransactions_eq linked ?_
    have := lengths group mem
    omega
  have all : ∀ groups : List (List ℕ), groups ⊆ stack →
      (groups.map tailOf).mapM (groupTransactions entries fuel) = some (groups.map reverse) := by
    intro groups subset
    induction groups with
    | nil => rfl
    | cons group groups ih =>
      obtain ⟨mem, subset⟩ := cons_subset.mp subset
      rw [map_cons, mapM_cons, visited group mem, ih subset]
      rfl
  rw [allTransactions, places]
  simp only [Option.bind_eq_bind, Option.bind_some, all stack (Subset.refl stack)]
  rw [reverse_flatten, map_reverse, reverse_reverse]
  rfl

end

/-! ## The passes -/

def passResult (graph : DepGraph) (rev : Bool) (lin : List ℕ) : List ℕ :=
  if rev then ((passView graph true).pass lin.reverse).flatten.reverse
  else ((passView graph false).pass lin).flatten

/-- A pass of the code is a pass over groups. -/
theorem linearizationPass_eq (graph : DepGraph) {entries : ℕ → TxEntry} {lin : List ℕ}
    (rev : Bool) (nodup : lin.Nodup) (empty : (entries sentinel).feerate = 0) :
    ∃ entries', linearizationPass graph rev entries lin =
      some (entries', passResult graph rev lin) ∧ (entries' sentinel).feerate = 0 := by
  have ring : Ring (passView graph rev) (modifyEntry entries sentinel
      fun entry => { entry with prevGroup := sentinel }) [] := by
    refine ⟨nodup_nil, forall_mem_nil _, ⟨?_, trivial⟩, ?_⟩
    · simp [modifyEntry]
    · simpa [modifyEntry] using empty
  have order_perm : (if rev then lin.reverse else lin).Perm lin := by
    cases rev
    · rfl
    · exact reverse_perm lin
  generalize order_eq : (if rev then lin.reverse else lin) = order at order_perm
  obtain ⟨entries', added, ring'⟩ := ring.addTransactions
    (show (([] : List (List ℕ)).flatten ++ order).Nodup from order_perm.nodup_iff.mpr nodup)
    (show ([] : List (List ℕ)).length + order.length ≤ lin.length + 1 by
      rw [order_perm.length_eq, length_nil]; omega)
  have kept : (settleAll (passView graph rev) [] order).flatten.length = lin.length := by
    rw [(perm_settleAll _ [] order).length_eq]
    exact order_perm.length_eq
  have visited := ring'.allTransactions_eq
    (show (settleAll (passView graph rev) [] order).flatten.length < lin.length + 1 by omega)
  have length : (settleAll (passView graph rev) [] order).reverse.flatten.reverse.length =
      lin.length := by
    rw [length_reverse, ← kept]
    exact (reverse_perm _).flatten.length_eq
  refine ⟨entries', ?_, ring'.empty⟩
  rw [linearizationPass]
  simp only [order_eq, added, visited, Option.bind_eq_bind, Option.bind_some, length,
    drop_length, Nat.sub_self, take_zero, append_nil, nil_append,
    reverse_reverse]
  subst order_eq
  cases rev <;> rfl

end BitcoinCore.ClusterLinearize
