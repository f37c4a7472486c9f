import Sui.Authority.History

/-!
# Reverting transactions in some order

At the end of an epoch the transactions that are in no checkpoint are reverted one
after the other.  This gives back the store without them exactly when every transaction
is reverted before those whose outputs it modified, and none of them has unwrapped and
deleted an object.
-/

namespace Sui.Authority

open Library Node
open List hiding after
open Std (ExtTreeMap)
open AuthorityStore

namespace Execution

variable {epoch : EpochId} {store : AuthorityStore} {executions : List Execution}
  {execution : Execution}

/-! ## The tables after many reverts -/

/-- A store from which some transactions were reverted. -/
structure Undone (before : AuthorityStore) (done : List Execution) (after : AuthorityStore) :
    Prop where
  deleted : ∀ key : ObjectKey, (∃ execution ∈ done, key ∈ outKeys execution.effects) →
    after.objects[key]? = none
  kept : ∀ key : ObjectKey, (∀ execution ∈ done, key ∉ outKeys execution.effects) →
    after.objects[key]? = before.objects[key]?
  unlocked : ∀ objRef : ObjectRef, (∃ execution ∈ done, objRef ∈ execution.produced) →
    after.ownedObjectTransactionLocks[objRef]? = none
  locked : ∀ objRef : ObjectRef, (∀ execution ∈ done, objRef ∉ execution.produced) →
    (∃ execution ∈ done, objRef ∈ execution.consumed) →
      after.ownedObjectTransactionLocks[objRef]? = some none
  same : ∀ objRef : ObjectRef, (∀ execution ∈ done, objRef ∉ execution.produced) →
    (∀ execution ∈ done, objRef ∉ execution.consumed) →
      after.ownedObjectTransactionLocks[objRef]? = before.ownedObjectTransactionLocks[objRef]?
  forgotten : ∀ digest : TransactionDigest,
    (∃ execution ∈ done, execution.transaction.digest = digest) →
      after.executedEffects[digest]? = none
  executed : ∀ digest : TransactionDigest,
    (∀ execution ∈ done, execution.transaction.digest ≠ digest) →
      after.executedEffects[digest]? = before.executedEffects[digest]?

theorem Undone.nil (before : AuthorityStore) : Undone before [] before := by
  constructor <;> simp

section Undone

variable {before after : AuthorityStore} {done : List Execution}

/-- A lock that was deleted belongs to a version that was modified. -/
theorem Traced.modified_of_mem_consumed (traced : execution.Traced before) (sound : before.Sound)
    (isConsumed : objRef ∈ execution.consumed) :
    (objRef.1, objRef.2.1) ∈ execution.effects.modifiedAtVersions := by
  obtain ⟨key, isModified, object, found, _, rfl⟩ :=
    (mem_filterMap_ownedRef _ _).mp ((traced.old objRef).mpr isConsumed)
  rw [sound.keyed key object found] at isModified
  exact isModified

/-- A lock that was set up belongs to an output. -/
theorem Traced.new_of_mem_produced (traced : execution.Traced before) (sound : before.Sound)
    (isProduced : objRef ∈ execution.produced) :
    (objRef.1, objRef.2.1) ∈ allNewObjectKeys execution.effects := by
  obtain ⟨key, isNew, object, found, _, rfl⟩ :=
    (mem_filterMap_ownedRef _ _).mp ((traced.new objRef).mpr isProduced)
  rw [sound.keyed key object found] at isNew
  exact isNew

/-- One more transaction is reverted, whose rows are still there. -/
theorem Undone.snoc (undone : Undone before done after) (sound : before.Sound)
    (tracedDone : ∀ other ∈ done, other.Traced before) (traced : execution.Traced before)
    (modified : ∀ key ∈ execution.effects.modifiedAtVersions,
      ∀ other ∈ done, key ∉ outKeys other.effects)
    (new : ∀ key ∈ allNewObjectKeys execution.effects,
      ∀ other ∈ done, key ∉ outKeys other.effects) :
    Undone before (done ++ [execution])
      (after.reverted execution.transaction.digest execution.effects) := by
  have sameRefs : ∀ keys : List ObjectKey,
      (∀ key ∈ keys, ∀ other ∈ done, key ∉ outKeys other.effects) →
        keys.filterMap after.ownedRef = keys.filterMap before.ownedRef := by
    intro keys stay
    refine filterMap_congr fun key listed => ?_
    rw [ownedRef, ownedRef, undone.kept key (stay key listed)]
  have lookup : ∀ objRef : ObjectRef, (after.reverted execution.transaction.digest
        execution.effects).ownedObjectTransactionLocks[objRef]? =
        if objRef ∈ execution.produced then none
        else if objRef ∈ execution.consumed then some none
        else after.ownedObjectTransactionLocks[objRef]? := by
    intro objRef
    rw [AuthorityStore.locks_reverted, sameRefs _ new, sameRefs _ modified]
    simp only [traced.new, traced.old]
  -- A lock that is set up again is not the one of an output of an earlier reverted one.
  have notProduced : ∀ objRef ∈ execution.consumed, ∀ other ∈ done, objRef ∉ other.produced := by
    intro objRef isConsumed other isDone isProduced
    exact modified _ (traced.modified_of_mem_consumed sound isConsumed) other isDone
      (mem_append_right _ ((tracedDone other isDone).new_of_mem_produced sound isProduced))
  refine ⟨?_, ?_, ?_, ?_, ?_, ?_, ?_⟩
  · rintro key ⟨other, isDone, isOut⟩
    rw [objects_reverted]
    rcases mem_snoc.mp isDone with before | rfl
    · split
      case isTrue => rfl
      case isFalse => exact undone.deleted key ⟨other, before, isOut⟩
    · rw [if_pos isOut]
  · intro key stays
    obtain ⟨earlier, own⟩ := forall_mem_snoc.mp stays
    rw [objects_reverted, if_neg own]
    exact undone.kept key earlier
  · rintro objRef ⟨other, isDone, isProduced⟩
    rw [lookup]
    rcases mem_snoc.mp isDone with before | rfl
    · split
      case isTrue => rfl
      case isFalse =>
        rw [if_neg fun isConsumed => notProduced objRef isConsumed other before isProduced]
        exact undone.unlocked objRef ⟨other, before, isProduced⟩
    · rw [if_pos isProduced]
  · rintro objRef notBy ⟨other, isDone, isConsumed⟩
    obtain ⟨earlier, own⟩ := forall_mem_snoc.mp notBy
    rw [lookup, if_neg own]
    rcases mem_snoc.mp isDone with before | rfl
    · split
      case isTrue => rfl
      case isFalse => exact undone.locked objRef earlier ⟨other, before, isConsumed⟩
    · rw [if_pos isConsumed]
  · intro objRef notBy notOf
    obtain ⟨earlier, own⟩ := forall_mem_snoc.mp notBy
    obtain ⟨earlierOf, ownOf⟩ := forall_mem_snoc.mp notOf
    rw [lookup, if_neg own, if_neg ownOf]
    exact undone.same objRef earlier earlierOf
  · rintro digest ⟨other, isDone, rfl⟩
    rw [executedEffects_reverted, Map.getElem?_erase]
    split
    case isTrue => rfl
    case isFalse different =>
      refine undone.forgotten _ ⟨other, ?_, rfl⟩
      rcases mem_snoc.mp isDone with before | rfl
      · exact before
      · exact absurd rfl different
  · intro digest others
    obtain ⟨earlier, own⟩ := forall_mem_snoc.mp others
    rw [executedEffects_reverted, Map.getElem?_erase, if_neg own]
    exact undone.executed digest earlier

end Undone

/-- The transactions that are not reverted. -/
abbrev others (member : Execution → Bool) (executions : List Execution) : List Execution :=
  executions.filter fun execution => !member execution

namespace ExecutesAll

/-- What was modified is there unless an output of another transaction is deleted. -/
theorem modified_stay_iff {done : List Execution} (executes : ExecutesAll epoch store executions)
    (isSound : store.Sound) (listed : execution ∈ executions)
    (subset : ∀ other ∈ done, other ∈ executions) :
    (∀ key ∈ execution.effects.modifiedAtVersions, ∀ other ∈ done, key ∉ outKeys other.effects) ↔
      ∀ other ∈ done, ¬ execution.Consumes other := by
  have finalSound := executes.sound isSound
  constructor
  · rintro stay other isDone ⟨key, isModified, isNew⟩
    exact stay key isModified other isDone (mem_append_right _ isNew)
  · intro independent key isModified other isDone isOut
    rcases mem_append.mp isOut with isRemoved | isNew
    · have recorded := finalSound.recorded _ _ (executes.traced isSound listed).executed
      have otherRecorded := finalSound.recorded _ _
        (executes.traced isSound (subset other isDone)).executed
      obtain ⟨object, found⟩ := recorded.modified key isModified
      obtain ⟨row, isRow, isTombstone⟩ := otherRecorded.removed key isRemoved
      obtain rfl := Option.some.inj (isRow.symm.trans found)
      cases isTombstone
    · exact independent other isDone ⟨key, isModified, isNew⟩

/-- The next transaction can be reverted exactly when it modified no output of those that
were reverted before. -/
theorem revert_next_iff {after final : AuthorityStore}
    (executes : ExecutesAll epoch store executions) (isSound : store.Sound)
    (owned : execution.sharedObjects = []) (listed : execution ∈ executions)
    (subset : ∀ other ∈ done, other ∈ executions)
    (distinct : ∀ other ∈ done, other.transaction.digest ≠ execution.transaction.digest)
    (undone : Undone (writes epoch store executions) done after) :
    after.revertStateUpdate execution.transaction.digest = .ok final ↔
      (∀ other ∈ done, ¬ execution.Consumes other) ∧
        final = after.reverted execution.transaction.digest execution.effects := by
  have traced := executes.traced isSound listed
  have recorded := (executes.sound isSound).recorded _ _ traced.executed
  have executed : after.executedEffects[execution.transaction.digest]? = some execution.effects :=
    (undone.executed _ distinct).trans traced.executed
  rw [revertStateUpdate, executed]
  rw [revertEffects_eq_ok, ← executes.modified_stay_iff isSound listed subset]
  have newStay : ∀ key ∈ allNewObjectKeys execution.effects, after.Present key.1 key.2 := by
    intro key isNew
    have isOut : key ∈ outKeys execution.effects := mem_append_right _ isNew
    have stays := undone.kept key fun other isDone otherOut =>
      distinct other isDone (congrArg (fun execution => execution.transaction.digest)
        (executes.eq_of_outKey (subset other isDone) listed otherOut isOut))
    have present := recorded.present isOut
    rw [Present] at present ⊢
    rwa [stays]
  constructor
  · rintro ⟨_, modified, _, rfl⟩
    refine ⟨fun key isModified other isDone isOut => ?_, rfl⟩
    have present := modified key isModified
    rw [Present, undone.deleted key ⟨other, isDone, isOut⟩] at present
    cases present
  · rintro ⟨stay, rfl⟩
    refine ⟨owned, fun key isModified => ?_, newStay, rfl⟩
    obtain ⟨object, found⟩ := recorded.modified key isModified
    exact present_of_eq ((undone.kept key (stay key isModified)).trans found)

/-- Transactions can be reverted in an order exactly when each one comes before those whose
outputs it modified. -/
theorem revertAll_iff {done : List Execution} (executes : ExecutesAll epoch store executions)
    (isSound : store.Sound) (owned : ∀ execution ∈ executions, execution.sharedObjects = [])
    (subset : ∀ other ∈ done, other ∈ executions)
    (distinct : done.Pairwise fun first second =>
      first.transaction.digest ≠ second.transaction.digest) :
    (done.Pairwise (fun first later => ¬ later.Consumes first) →
      ∃ final, revertAll (writes epoch store executions)
        (done.map fun execution => execution.transaction.digest) = .ok final) ∧
    ∀ final, revertAll (writes epoch store executions)
        (done.map fun execution => execution.transaction.digest) = .ok final →
      done.Pairwise (fun first later => ¬ later.Consumes first) ∧
        Undone (writes epoch store executions) done final := by
  induction done using List.reverseRecOn with
  | nil =>
    refine ⟨fun _ => ⟨_, rfl⟩, fun final returned => ⟨.nil, ?_⟩⟩
    cases returned
    exact .nil _
  | append_singleton done execution ih =>
    obtain ⟨earlierDistinct, lastDistinct⟩ := pairwise_snoc.mp distinct
    obtain ⟨earlier, listed⟩ := forall_mem_snoc.mp subset
    obtain ⟨succeeds, inverted⟩ := ih earlier earlierDistinct
    have next := fun after final => @revert_next_iff epoch store executions execution done
      after final executes isSound (owned execution listed) listed earlier lastDistinct
    rw [map_append, revertAll, foldlM_append]
    constructor
    · intro ordered
      obtain ⟨earlierOrdered, independent⟩ := pairwise_snoc.mp ordered
      obtain ⟨after, returned⟩ := succeeds earlierOrdered
      have last := (next after _ (inverted after returned).2).mpr ⟨independent, rfl⟩
      exact ⟨_, bind_of returned (bind_of last rfl)⟩
    · intro final returned
      obtain ⟨after, first, rest⟩ := bind_eq_ok.mp returned
      obtain ⟨_, last, isFinal⟩ := bind_eq_ok.mp rest
      cases isFinal
      obtain ⟨earlierOrdered, undone⟩ := inverted after first
      obtain ⟨independent, rfl⟩ := (next after _ undone).mp last
      refine ⟨pairwise_snoc.mpr ⟨earlierOrdered, independent⟩, ?_⟩
      refine undone.snoc (executes.sound isSound)
        (fun other isDone => executes.traced isSound (earlier other isDone))
        (executes.traced isSound listed)
        ((executes.modified_stay_iff isSound listed earlier).mpr independent) ?_
      intro key isNew other isDone otherOut
      exact lastDistinct other isDone (congrArg (fun execution => execution.transaction.digest)
        (executes.eq_of_outKey (earlier other isDone) listed otherOut (mem_append_right _ isNew)))

section Others

variable {member : Execution → Bool} {order : List Execution} {final : AuthorityStore}
  (executes : ExecutesAll epoch store executions)
  (isOrder : order.Perm (executions.filter member))

include executes isOrder

omit executes in
theorem mem_order_iff : execution ∈ order ↔ execution ∈ executions ∧ member execution = true := by
  rw [isOrder.mem_iff, mem_filter]

omit executes in
/-- Every transaction is reverted or is one of the others. -/
theorem order_or_other (listed : execution ∈ executions) :
    execution ∈ order ∨ execution ∈ others member executions := by
  cases isMember : member execution with
  | true => exact .inl ((mem_order_iff isOrder).mpr ⟨listed, isMember⟩)
  | false => exact .inr (mem_filter.mpr ⟨listed, by rw [isMember]; rfl⟩)

omit executes in
theorem not_other (reverted : execution ∈ order)
    (other : execution ∈ others member executions) :
    False := by
  have isMember := ((mem_order_iff isOrder).mp reverted).2
  have notMember := (mem_filter.mp other).2
  rw [isMember] at notMember
  cases notMember

/-- A row of a transaction that is reverted is not there without it. -/
theorem objects_others (reverted : execution ∈ order) (isRow : entry ∈ execution.rows) :
    (writes epoch store (others member executions)).objects[entry.1]? = none := by
  have listed := ((mem_order_iff isOrder).mp reverted).1
  rw [objects_writes, getElem?_inserts_of_not_mem]
  · exact executes.rows_absent listed isRow
  · intro isWritten
    obtain ⟨other, isOther, same⟩ := mem_map.mp isWritten
    obtain ⟨second, isSecond, isRow'⟩ := mem_flatMap.mp isOther
    have isSame := executes.eq_of_row (mem_filter.mp isSecond).1 listed isRow' isRow same
    exact not_other isOrder reverted (isSame ▸ isSecond)

section

variable (undone : Undone (writes epoch store executions) order final)

include undone

/-- The rows are those of the others, except that tombstones of objects that were unwrapped
and then deleted stay. -/
theorem objects_undone_iff :
    final.objects = (writes epoch store (others member executions)).objects ↔
      ∀ execution ∈ order, execution.effects.unwrappedThenDeleted = [] := by
  constructor
  · intro same execution reverted
    have listed := ((mem_order_iff isOrder).mp reverted).1
    obtain ⟨_, isProper⟩ := executes.exists_executes listed
    refine eq_nil_iff_forall_not_mem.mpr fun objRef isDeleted => ?_
    obtain ⟨isRow, notOut⟩ := isProper.unwrappedThenDeleted isDeleted
    have absent := objects_others executes isOrder reverted isRow
    have present := executes.objects_row listed isRow
    rw [← same, undone.kept _ fun other isOther otherOut => ?_, present] at absent
    · cases absent
    · have otherListed := ((mem_order_iff isOrder).mp isOther).1
      obtain ⟨entry, isEntry, isKey⟩ := executes.row_of_outKey otherListed otherOut
      obtain rfl := executes.eq_of_row otherListed listed isEntry isRow isKey
      exact notOut otherOut
  · intro empty
    refine ExtTreeMap.ext_getElem? fun key => ?_
    rcases exists_or_forall_not order fun execution => key ∈ outKeys execution.effects with
      isOut | notOut
    · rw [undone.deleted key isOut]
      obtain ⟨execution, reverted, isKey⟩ := isOut
      have listed := ((mem_order_iff isOrder).mp reverted).1
      obtain ⟨entry, isRow, rfl⟩ := executes.row_of_outKey listed isKey
      exact (objects_others executes isOrder reverted isRow).symm
    · rw [undone.kept key notOut, objects_writes, objects_writes]
      refine getElem?_inserts_filter rows _ _ fun execution listed isMember isKey => ?_
      have reverted := (mem_order_iff isOrder).mpr ⟨listed, by simpa using isMember⟩
      obtain ⟨_, isProper⟩ := executes.exists_executes listed
      obtain ⟨entry, isRow, rfl⟩ := mem_map.mp isKey
      rcases mem_rows_cases isProper.proper isRow with inOut | ⟨objRef, isDeleted, _⟩
      · exact notOut execution reverted inOut
      · rw [empty execution reverted] at isDeleted
        cases isDeleted

/-- The effects are those of the others. -/
theorem executedEffects_undone :
    final.executedEffects = (writes epoch store (others member executions)).executedEffects := by
  refine ExtTreeMap.ext_getElem? fun digest => ?_
  rw [executedEffects_writes]
  rcases exists_or_forall_not order fun execution => execution.transaction.digest = digest with
    isReverted | notReverted
  · rw [undone.forgotten digest isReverted]
    obtain ⟨execution, reverted, rfl⟩ := isReverted
    have listed := ((mem_order_iff isOrder).mp reverted).1
    rw [getElem?_inserts_of_not_mem]
    · exact (executes.notExecuted listed).symm
    · intro isWritten
      obtain ⟨entry, isEntry, same⟩ := mem_map.mp isWritten
      obtain ⟨other, isOther, isSingle⟩ := mem_flatMap.mp isEntry
      obtain rfl := mem_singleton.mp isSingle
      have isSame := executes.eq_of_digest (mem_filter.mp isOther).1 listed same
      exact not_other isOrder reverted (isSame ▸ isOther)
  · rw [undone.executed digest notReverted, executedEffects_writes]
    refine getElem?_inserts_filter _ _ _ fun execution listed isMember isKey => ?_
    obtain ⟨entry, isSingle, rfl⟩ := mem_map.mp isKey
    obtain rfl := mem_singleton.mp isSingle
    exact notReverted _ ((mem_order_iff isOrder).mpr ⟨listed, by simpa using isMember⟩) rfl

end

/-- Without a reverted transaction there is no lock for its outputs. -/
theorem locks_others_of_produced (isSound : store.Sound) (reverted : execution ∈ order)
    (isProduced : objRef ∈ execution.produced) :
    (writes epoch store (others member executions)).ownedObjectTransactionLocks[objRef]? =
      none := by
  have listed := ((mem_order_iff isOrder).mp reverted).1
  obtain ⟨entry, isRow, isKey⟩ := executes.row_of_produced listed isProduced
  rcases exists_or_forall_not (others member executions) fun other => objRef ∈ other.consumed with
    ⟨other, isOther, isConsumed⟩ | kept
  · exact locks_writes_of_consumed (executes.consumed_once.sublist filter_sublist) isOther
      isConsumed
  · rw [(locks_writes_of_not_consumed kept).2]
    · by_contra isLocked
      rw [← ne_eq, Option.ne_none_iff_isSome] at isLocked
      obtain ⟨object, found, _⟩ := (isSound.lockable objRef isLocked).present
      have absent := executes.rows_absent listed isRow
      rw [isKey, found] at absent
      cases absent
    · intro other isOther isOtherProduced
      have otherListed := (mem_filter.mp isOther).1
      obtain ⟨otherEntry, isOtherRow, isOtherKey⟩ :=
        executes.row_of_produced otherListed isOtherProduced
      have isSame := executes.eq_of_row otherListed listed isOtherRow isRow
        (isOtherKey.trans isKey.symm)
      exact not_other isOrder reverted (isSame ▸ isOther)

/-- A lock is the one of the others unless a transaction that is reverted deleted it and
none set it up. -/
theorem locks_undone (isSound : store.Sound)
    (undone : Undone (writes epoch store executions) order final)
    (notReset : (∀ execution ∈ order, objRef ∉ execution.consumed) ∨
      ∃ execution ∈ order, objRef ∈ execution.produced) :
    final.ownedObjectTransactionLocks[objRef]? =
      (writes epoch store (others member executions)).ownedObjectTransactionLocks[objRef]? := by
  rcases exists_or_forall_not order fun execution => objRef ∈ execution.produced with
    isProduced | notProduced
  · rw [undone.unlocked objRef isProduced]
    obtain ⟨execution, reverted, isOutput⟩ := isProduced
    exact (locks_others_of_produced executes isOrder isSound reverted isOutput).symm
  · have notConsumed : ∀ execution ∈ order, objRef ∉ execution.consumed := by
      refine notReset.resolve_right ?_
      rintro ⟨execution, reverted, isOutput⟩
      exact notProduced execution reverted isOutput
    rw [undone.same objRef notProduced notConsumed]
    rcases exists_or_forall_not (others member executions) fun other => objRef ∈ other.consumed with
      ⟨other, isOther, isOf⟩ | kept
    · rw [locks_writes_of_consumed executes.consumed_once (mem_filter.mp isOther).1 isOf,
        locks_writes_of_consumed (executes.consumed_once.sublist filter_sublist) isOther isOf]
    · have all : ∀ execution ∈ executions, objRef ∉ execution.consumed := by
        intro execution listed
        rcases order_or_other isOrder listed with reverted | other
        · exact notConsumed execution reverted
        · exact kept execution other
      rcases exists_or_forall_not (others member executions) fun other => objRef ∈ other.produced
        with isOutput | unset
      · rw [(locks_writes_of_not_consumed kept).1 isOutput]
        obtain ⟨other, isOther, isOf⟩ := isOutput
        rw [(locks_writes_of_not_consumed all).1 ⟨other, (mem_filter.mp isOther).1, isOf⟩]
      · rw [(locks_writes_of_not_consumed kept).2 unset, (locks_writes_of_not_consumed all).2]
        intro execution listed
        rcases order_or_other isOrder listed with reverted | other
        · exact notProduced execution reverted
        · exact unset execution other

/-- The same locks exist as with the others only. -/
theorem locks_undone_isSome (isSound : store.Sound)
    (undone : Undone (writes epoch store executions) order final) (objRef : ObjectRef) :
    (final.ownedObjectTransactionLocks[objRef]?).isSome ↔ ((writes epoch store
        (others member executions)).ownedObjectTransactionLocks[objRef]?).isSome := by
  rcases exists_or_forall_not order fun execution => objRef ∈ execution.consumed with
    ⟨execution, reverted, isOf⟩ | notConsumed
  · have listed := ((mem_order_iff isOrder).mp reverted).1
    rcases exists_or_forall_not order fun producer => objRef ∈ producer.produced with
      isProduced | notProduced
    · rw [locks_undone executes isOrder isSound undone (.inr isProduced)]
    · rw [undone.locked objRef notProduced ⟨execution, reverted, isOf⟩]
      have kept : ∀ other ∈ others member executions, objRef ∉ other.consumed := by
        intro other isOther isOtherOf
        have isSame := eq_of_pairwise executes.consumed_once
          (mem_filter.mp isOther).1 listed (fun once => (once objRef isOtherOf).1 isOf)
          fun once => (once objRef isOf).1 isOtherOf
        exact not_other isOrder reverted (isSame ▸ isOther)
      obtain ⟨byOthers, before⟩ := @locks_writes_of_not_consumed epoch store _ objRef kept
      refine iff_of_true rfl ?_
      rcases exists_or_forall_not (others member executions) fun other => objRef ∈ other.produced
        with isOutput | unset
      · rw [byOthers isOutput]
        rfl
      · rw [before unset]
        rcases executes.locked_or_produced isSound listed isOf with isLocked |
          ⟨producer, isListed, isOutputOf⟩
        · exact isLocked
        · rcases order_or_other isOrder isListed with isReverted | isOther
          · exact absurd isOutputOf (notProduced producer isReverted)
          · exact absurd isOutputOf (unset producer isOther)
  · rw [locks_undone executes isOrder isSound undone (.inl notConsumed)]

end Others

end ExecutesAll

/-- In every store that is reached, a transaction without shared inputs can be committed and
reverted.  This restores the objects, the set of locks and the effects exactly when the
transaction did not unwrap and delete an object, and then all reads answer as before. -/
theorem revert_inverts_commit_iff {node : Node} {execution : Execution} (reachable : node.Reachable)
    (executes : execution.Executes node.store) (owned : execution.sharedObjects = []) :
    ∃ committed final, execution.commit node.store node.epoch = .ok committed ∧
      committed.revertStateUpdate execution.transaction.digest = .ok final ∧
      (Restored node.store final ↔ execution.effects.unwrappedThenDeleted = []) ∧
      (execution.effects.unwrappedThenDeleted = [] →
        (∀ id, final.getObject id = node.store.getObject id) ∧
        (∀ id version, final.getObjectByKey id version = node.store.getObjectByKey id version) ∧
        ∀ includeWrappedObject, final.iterLiveObjectSet includeWrappedObject =
          node.store.iterLiveObjectSet includeWrappedObject) := by
  have sound := reachable.sound.store
  have alone : ExecutesAll node.epoch node.store [execution] := ⟨executes, trivial⟩
  have isOrder : [execution].Perm ([execution].filter fun _ => true) := .refl _
  obtain ⟨succeeds, inverted⟩ := alone.revertAll_iff sound (forall_mem_singleton.mpr owned)
    (fun _ => id) (pairwise_singleton _ _)
  obtain ⟨final, returned⟩ := succeeds (pairwise_singleton _ _)
  obtain ⟨_, undone⟩ := inverted final returned
  obtain ⟨_, reverted, ⟨⟩⟩ := bind_eq_ok.mp returned
  have objects : final.objects = node.store.objects ↔ _ :=
    (alone.objects_undone_iff isOrder undone).trans forall_mem_singleton
  refine ⟨_, final, executes.commit_eq_ok sound, reverted, ?_, fun empty => ?_⟩
  · exact ⟨fun restored => objects.mp restored.objects, fun empty => ⟨objects.mpr empty,
      alone.locks_undone_isSome isOrder sound undone, alone.executedEffects_undone isOrder undone⟩⟩
  · have same := objects.mpr empty
    refine ⟨fun id => ?_, fun id version => ?_, fun includeWrappedObject => ?_⟩
    · rw [getObject, getObject, AuthorityStore.rows, AuthorityStore.rows, same]
    · rw [getObjectByKey, getObjectByKey, same]
    · rw [iterLiveObjectSet, iterLiveObjectSet, same]

/-- An object of an address that may have other objects inside. -/
def wrapper : Object := ⟨1, 1, 11, .addressOwner 7, false⟩

/-- A transaction that only modifies the object. -/
def touch : Execution where
  transaction := ⟨100, []⟩
  mutableInputs := [(1, (1, 11), .addressOwner 7)]
  sharedObjects := []
  lamportVersion := 2
  changes := [⟨1, some ((1, 11), .addressOwner 7), some ⟨1, 2, 12, .addressOwner 7, false⟩,
    false, false⟩]

/-- A transaction that takes an object out of the wrapper and deletes it. -/
def unwrapThenDelete : Execution :=
  { touch with changes := touch.changes ++ [⟨2, none, none, false, true⟩] }

/-- A commit that only mutates is undone. -/
theorem revert_inverts_commit_iff_touch :
    ∃ committed final, touch.commit (Node.genesis [wrapper]).store 0 = .ok committed ∧
      committed.revertStateUpdate 100 = .ok final ∧
      Restored (Node.genesis [wrapper]).store final := by
  have reachable : (genesis [wrapper]).Reachable := ⟨[wrapper], by decide, .refl⟩
  have executes : touch.Executes (genesis [wrapper]).store := by decide +kernel
  obtain ⟨committed, final, isCommitted, isReverted, restored, _⟩ :=
    revert_inverts_commit_iff reachable executes rfl
  exact ⟨committed, final, isCommitted, isReverted, restored.mpr (by decide +kernel)⟩

/-- The tombstone of the object that was in the wrapper is left. -/
theorem revert_leaves_tombstone :
    (Node.genesis [wrapper]).Reachable ∧ unwrapThenDelete.Executes (Node.genesis [wrapper]).store ∧
      unwrapThenDelete.sharedObjects = [] ∧
      (Node.genesis [wrapper]).store.objects[(2, 2)]? = none ∧
      (do
        let committed ← unwrapThenDelete.commit (Node.genesis [wrapper]).store 0
        let final ← committed.revertStateUpdate 100
        pure final.objects[(2, 2)]?).toOption = some (some .deleted) := by
  refine ⟨⟨[wrapper], by decide, .refl⟩, by decide +kernel, rfl, by decide +kernel, ?_⟩
  decide +kernel

/-- In every store that is reached, let transactions without shared inputs be executed and
committed one after the other, and let some of them be reverted in some order.  This
succeeds and gives back the objects, the set of locks and the effects that there are with
the other transactions only, exactly when every transaction is reverted before those whose
outputs it modified and none of them has unwrapped and deleted an object.  Then the locks
that are set up again are not set to a transaction, and the others are the same. -/
theorem revertAll_restores_iff {node : Node} {executions order : List Execution}
    {member : Execution → Bool} (reachable : node.Reachable)
    (executes : ExecutesAll node.epoch node.store executions)
    (owned : ∀ execution ∈ executions, execution.sharedObjects = [])
    (isOrder : order.Perm (executions.filter member)) :
    ∃ committed, commitAll node.epoch node.store executions = .ok committed ∧ ((∃ final,
        Node.revertAll committed (order.map fun execution => execution.transaction.digest) =
          .ok final ∧
        Restored (writes node.epoch node.store
          (executions.filter fun execution => !member execution)) final ∧
        (∀ objRef : ObjectRef, (∃ execution ∈ order, objRef ∈ execution.consumed) →
          (∀ execution ∈ order, objRef ∉ execution.produced) →
          final.ownedObjectTransactionLocks[objRef]? = some none) ∧
        ∀ objRef : ObjectRef, (∀ execution ∈ order, objRef ∉ execution.consumed) ∨
            (∃ execution ∈ order, objRef ∈ execution.produced) →
          final.ownedObjectTransactionLocks[objRef]? =
            (writes node.epoch node.store (executions.filter fun execution =>
              !member execution)).ownedObjectTransactionLocks[objRef]?) ↔
      order.Pairwise (fun first later => ¬ later.Consumes first) ∧
        ∀ execution ∈ order, execution.effects.unwrappedThenDeleted = []) := by
  have sound := reachable.sound.store
  have distinct : order.Pairwise fun first second =>
      first.transaction.digest ≠ second.transaction.digest :=
    (isOrder.pairwise_iff Ne.symm).mpr (executes.digests_distinct.sublist filter_sublist)
  obtain ⟨succeeds, inverted⟩ := executes.revertAll_iff sound owned
    (fun other isOther => ((ExecutesAll.mem_order_iff isOrder).mp isOther).1) distinct
  refine ⟨_, executes.commitAll_eq_ok sound, ?_, ?_⟩
  · rintro ⟨final, returned, restored, _⟩
    obtain ⟨ordered, undone⟩ := inverted final returned
    exact ⟨ordered, (ExecutesAll.objects_undone_iff executes isOrder undone).mp restored.objects⟩
  · rintro ⟨ordered, empty⟩
    obtain ⟨final, returned⟩ := succeeds ordered
    obtain ⟨_, undone⟩ := inverted final returned
    refine ⟨final, returned, ⟨?_, ?_, ?_⟩, ?_, fun objRef notReset => ?_⟩
    · exact (ExecutesAll.objects_undone_iff executes isOrder undone).mpr empty
    · exact ExecutesAll.locks_undone_isSome executes isOrder sound undone
    · exact ExecutesAll.executedEffects_undone executes isOrder undone
    · exact fun objRef isConsumed notProduced => undone.locked objRef notProduced isConsumed
    · exact ExecutesAll.locks_undone executes isOrder sound undone notReset

/-- A transaction that modifies what another one wrote. -/
def touchAgain : Execution where
  transaction := ⟨101, []⟩
  mutableInputs := [(1, (2, 12), .addressOwner 7)]
  sharedObjects := []
  lamportVersion := 3
  changes := [⟨1, some ((2, 12), .addressOwner 7), some ⟨1, 3, 13, .addressOwner 7, false⟩,
    false, false⟩]

/-- The second of two transactions is reverted first. -/
theorem revertAll_restores_iff_touch :
    ∃ committed final,
      commitAll 0 (Node.genesis [wrapper]).store [touch, touchAgain] = .ok committed ∧
        Node.revertAll committed [101, 100] = .ok final ∧
        Restored (Node.genesis [wrapper]).store final ∧
        final.ownedObjectTransactionLocks[(1, 1, 11)]? = some none := by
  have reachable : (genesis [wrapper]).Reachable := ⟨[wrapper], by decide, .refl⟩
  have executes : ExecutesAll 0 (genesis [wrapper]).store [touch, touchAgain] :=
    ⟨by decide +kernel, by decide +kernel, trivial⟩
  have isOrder : [touchAgain, touch].Perm ([touch, touchAgain].filter fun _ => true) :=
    List.Perm.swap touch touchAgain []
  obtain ⟨committed, isCommitted, restores⟩ :=
    revertAll_restores_iff reachable executes (by decide) isOrder
  obtain ⟨final, returned, restored, reset, _⟩ :=
    restores.mpr ⟨by decide +kernel, by decide +kernel⟩
  refine ⟨committed, final, isCommitted, returned, restored, reset (1, 1, 11) ?_ ?_⟩
  · exact ⟨touch, mem_cons_of_mem _ (mem_singleton_self _), by decide +kernel⟩
  · decide +kernel

/-- Reverting the first of two transactions first makes it impossible to revert the
second one. -/
theorem revertAll_producer_first :
    (Node.genesis [wrapper]).Reachable ∧
      ExecutesAll 0 (Node.genesis [wrapper]).store [touch, touchAgain] ∧
      touchAgain.Consumes touch ∧
      (do
        let committed ← commitAll 0 (Node.genesis [wrapper]).store [touch, touchAgain]
        match Node.revertAll committed [100, 101] with
        | .ok _ => pure none
        | .error error => pure (some error)).toOption =
        some (some (.olderObjectVersionNotFound (1, 2))) := by
  refine ⟨⟨[wrapper], by decide, .refl⟩, ⟨by decide +kernel, by decide +kernel, trivial⟩,
    ⟨(1, 2), by decide +kernel, by decide +kernel⟩, by decide +kernel⟩

end Execution

end Sui.Authority
