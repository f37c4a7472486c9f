import Sui.Authority.Node

/-!
# Transactions that are committed one after the other

Every transaction is executed on the store that the earlier ones leave.  Two of them write
different rows, a lock is deleted by one of them only, and the tables at the end can be
computed from the batches without looking at the stores in between.
-/

namespace Sui.Authority

open AuthorityStore ObjectChange
open Library (writeAll inserts deletes)

/-! ## Reverting what was just committed

The tombstones of objects that were unwrapped and then deleted are not reverted. -/

namespace Execution

variable {store : AuthorityStore} {execution : Execution} {epoch : EpochId}

/-- The rows that a commit writes. -/
def rows (execution : Execution) : List (ObjectKey × StoreObject) :=
  tombstones execution.effects ++ newObjects execution.inner

/-- What a revert computes from the rows is what the commit did to the locks. -/
structure Traced (store : AuthorityStore) (execution : Execution) : Prop where
  executed : store.executedEffects[execution.transaction.digest]? = some execution.effects
  old : ∀ objRef, objRef ∈ execution.effects.modifiedAtVersions.filterMap store.ownedRef ↔
    objRef ∈ execution.consumed
  new : ∀ objRef, objRef ∈ (allNewObjectKeys execution.effects).filterMap store.ownedRef ↔
    objRef ∈ execution.produced

section

variable (proper : ∀ change ∈ execution.changes, change.Proper execution.lamportVersion)

include proper

/-- Which changes unwrap an object and then delete it. -/
theorem mem_unwrappedThenDeleted (objRef : ObjectRef) :
    objRef ∈ execution.effects.unwrappedThenDeleted ↔
      ∃ change ∈ execution.changes, change.written = none ∧ change.modifiedAt = none ∧
        change.row execution.lamportVersion = some .deleted ∧
        objRef = (change.id, execution.lamportVersion, objectDigestDeleted) := by
  have merged : objRef ∈ execution.effects.unwrappedThenDeleted ↔ ∃ change ∈ execution.changes,
      ∃ class', change.changeClass execution.lamportVersion = some class' ∧
        class'.unwrappedThenDeleted? = some objRef := by
    simp only [effects, effectsOf, classes, List.mem_filterMap]
    grind
  rw [merged]
  refine exists_class proper fun change listed class' isClass => ?_
  rw [row, tombstone, isClass]
  obtain ⟨_, _, modified, written, rfl⟩ | ⟨_, modified, written, rfl | rfl⟩ |
      ⟨_, modified, written, rfl | rfl⟩ | ⟨modified, written, rfl | rfl⟩ :=
    (proper change listed).cases isClass <;>
    simp [ChangeClass.unwrappedThenDeleted?, written, modified, eq_comm]

/-- A row is deleted by a revert, or it is the tombstone of an object that was unwrapped and
then deleted. -/
theorem mem_rows_cases (listed : entry ∈ execution.rows) :
    entry.1 ∈ outKeys execution.effects ∨
      ∃ objRef ∈ execution.effects.unwrappedThenDeleted, entry.1 = (objRef.1, objRef.2.1) := by
  obtain ⟨change, isChange, isRow, isKey⟩ := (mem_rows proper entry.1 entry.2).mp listed
  by_cases exists' : change.written.isSome ∨ change.modifiedAt.isSome
  · exact .inl ((mem_outKeys proper _).mpr ⟨change, isChange, exists', isKey⟩)
  · rw [not_or, Option.not_isSome_iff_eq_none, Option.not_isSome_iff_eq_none] at exists'
    refine .inr ⟨_, (mem_unwrappedThenDeleted proper _).mpr
      ⟨change, isChange, exists'.1, exists'.2, ?_, rfl⟩, ?_⟩
    · obtain ⟨class', isClass⟩ := Option.isSome_iff_exists.mp (proper change isChange).possible
      obtain ⟨_, _, present, _⟩ | ⟨_, _, present, _⟩ | ⟨_, present, _⟩ | ⟨_, _, rfl | rfl⟩ :=
        (proper change isChange).cases isClass
      · cases exists'.2.symm.trans present
      · cases exists'.1.symm.trans present
      · cases exists'.2.symm.trans present
      · rw [row, exists'.1, tombstone, isClass]
      · rw [row, exists'.1, tombstone, isClass] at isRow
        cases isRow
    · rw [isKey, outKey, outVersion, exists'.1]

end

section Executes

variable (executes : execution.Executes store)

include executes

/-- The tombstone of an object that was unwrapped and then deleted stays. -/
theorem Executes.unwrappedThenDeleted (listed : objRef ∈ execution.effects.unwrappedThenDeleted) :
    ((objRef.1, objRef.2.1), .deleted) ∈ execution.rows ∧
      (objRef.1, objRef.2.1) ∉ outKeys execution.effects := by
  obtain ⟨change, isChange, written, modified, isRow, rfl⟩ :=
    (mem_unwrappedThenDeleted executes.proper objRef).mp listed
  refine ⟨(mem_rows executes.proper _ _).mpr ⟨change, isChange, isRow, ?_⟩, fun isOut => ?_⟩
  · rw [outKey, outVersion, written]
  · obtain ⟨other, isOther, exists', isKey⟩ := (mem_outKeys executes.proper _).mp isOut
    obtain rfl := executes.eq_of_id isOther isChange (congrArg Prod.fst isKey).symm
    simp [written, modified] at exists'

/-- No row is written where there is one. -/
theorem Executes.rows_absent (listed : entry ∈ execution.rows) :
    store.objects[entry.1]? = none := by
  obtain ⟨change, isChange, _, isKey⟩ := (mem_rows executes.proper entry.1 entry.2).mp listed
  by_contra present
  rw [← ne_eq, Option.ne_none_iff_isSome] at present
  exact executes.outKey_ne present isChange isKey

/-- After a commit, a revert finds the locks that the commit deleted and set up. -/
theorem Executes.traced : execution.Traced (store.write (execution.batch epoch)) where
  executed := by rw [executedEffects_write, Library.Map.getElem?_insert, if_pos rfl]
  old := by
    intro objRef
    rw [mem_filterMap_ownedRef, executes.mem_consumed]
    constructor
    · rintro ⟨key, isModified, object, isObject, owned, rfl⟩
      obtain ⟨change, listed, entry, modified, rfl⟩ :=
        (mem_modifiedAtVersions executes.proper key).mp isModified
      obtain ⟨found, isFound, isRef, isOwner⟩ := executes.found listed modified
      rw [executes.objects_write_of_present (present_of_eq isFound)] at isObject
      obtain ⟨rfl⟩ := StoreObject.value.inj (Option.some.inj (isFound.symm.trans isObject))
      exact ⟨change, listed, entry, modified, isOwner ▸ owned, isRef⟩
    · rintro ⟨change, listed, entry, modified, owned, rfl⟩
      obtain ⟨found, isFound, isRef, isOwner⟩ := executes.found listed modified
      exact ⟨_, (mem_modifiedAtVersions executes.proper _).mpr
          ⟨change, listed, entry, modified, rfl⟩, found,
        executes.found_write isFound,
        isOwner ▸ owned, isRef.symm⟩
  new := by
    intro objRef
    rw [mem_filterMap_ownedRef, mem_produced]
    have recorded : (store.write (execution.batch epoch)).Recorded _ := executes.recorded_self
    constructor
    · rintro ⟨key, isNew, object, isObject, owned, rfl⟩
      obtain ⟨entry, isChanged, rfl⟩ := List.mem_map.mp isNew
      obtain ⟨found, isFound, isEntry⟩ := recorded.changed entry isChanged
      obtain ⟨rfl⟩ := StoreObject.value.inj (Option.some.inj (isFound.symm.trans isObject))
      obtain ⟨change, listed, written, isWritten, isSame⟩ :=
        (mem_allChangedObjects executes.proper entry).mp isChanged
      obtain ⟨sameRef, sameOwner⟩ := Prod.mk.inj (isEntry.symm.trans isSame)
      exact ⟨change, listed, written, isWritten, sameOwner ▸ owned, sameRef⟩
    · rintro ⟨change, listed, object, written, owned, rfl⟩
      have isChanged := (mem_allChangedObjects executes.proper _).mpr
        ⟨change, listed, object, written, rfl⟩
      obtain ⟨found, isFound, isEntry⟩ := recorded.changed _ isChanged
      obtain ⟨sameRef, sameOwner⟩ := Prod.mk.inj isEntry
      exact ⟨_, List.mem_map_of_mem isChanged, found, isFound, sameOwner ▸ owned, sameRef⟩

end Executes

end Execution

/-- A store has the objects, the set of locks and the effects of another one. -/
structure Restored (before after : AuthorityStore) : Prop where
  objects : after.objects = before.objects
  locks : ∀ objRef : ObjectRef, (after.ownedObjectTransactionLocks[objRef]?).isSome ↔
    (before.ownedObjectTransactionLocks[objRef]?).isSome
  executedEffects : after.executedEffects = before.executedEffects

/-! ## Histories -/

open Library
open List hiding after
open AuthorityStore

namespace Execution

/-- Every transaction is executed on the store that the earlier ones leave. -/
def ExecutesAll (epoch : EpochId) : AuthorityStore → List Execution → Prop
  | _, [] => True
  | store, execution :: later =>
    execution.Executes store ∧ ExecutesAll epoch (store.write (execution.batch epoch)) later

/-- Commit transactions one after the other. -/
def commitAll (epoch : EpochId) (store : AuthorityStore) (executions : List Execution) :
    Except SuiError AuthorityStore :=
  executions.foldlM (fun store execution => execution.commit store epoch) store

/-- The store after the batches of some transactions. -/
def writes (epoch : EpochId) (store : AuthorityStore) (executions : List Execution) :
    AuthorityStore :=
  executions.foldl (fun store execution => store.write (execution.batch epoch)) store

/-- A transaction modified an output of another one. -/
def Consumes (consumer producer : Execution) : Prop :=
  ∃ key ∈ consumer.effects.modifiedAtVersions, key ∈ allNewObjectKeys producer.effects

instance (consumer producer : Execution) : Decidable (consumer.Consumes producer) :=
  inferInstanceAs (Decidable (∃ key ∈ consumer.effects.modifiedAtVersions, _))

variable {epoch : EpochId} {store : AuthorityStore} {executions : List Execution}
  {execution : Execution}

/-- A later commit does not change what a revert finds. -/
theorem Executes.traced_write {earlier : Execution} (executes : execution.Executes store)
    (sound : store.Sound) (traced : earlier.Traced store) :
    earlier.Traced (store.write (execution.batch epoch)) := by
  have recorded := sound.recorded _ _ traced.executed
  have sameRef : ∀ key, store.Present key.1 key.2 →
      (store.write (execution.batch epoch)).ownedRef key = store.ownedRef key := by
    intro key present
    rw [ownedRef, ownedRef, executes.objects_write_of_present present]
  refine ⟨?_, ?_, ?_⟩
  · rw [executedEffects_write, Map.getElem?_insert, if_neg]
    · exact traced.executed
    · intro same
      have impossible := traced.executed
      rw [← same, executes.notExecuted] at impossible
      cases impossible
  · intro objRef
    rw [← traced.old objRef, filterMap_congr fun key isModified => ?_]
    obtain ⟨object, found⟩ := recorded.modified key isModified
    exact sameRef key (present_of_eq found)
  · intro objRef
    rw [← traced.new objRef, filterMap_congr fun key isNew => ?_]
    exact sameRef key (recorded.present (mem_append_right _ isNew))

namespace ExecutesAll

variable (executes : ExecutesAll epoch store executions)

include executes

/-- The rows that are there stay. -/
theorem objects_of_present {key : ObjectKey} (present : store.Present key.1 key.2) :
    (writes epoch store executions).objects[key]? = store.objects[key]? := by
  induction executions generalizing store with
  | nil => rfl
  | cons execution later ih =>
    have same : (store.write (execution.batch epoch)).objects[key]? = store.objects[key]? :=
      executes.1.objects_write_of_present present
    exact (ih executes.2 (executes.1.present_write present)).trans same

section

variable (isSound : store.Sound)

include isSound

theorem sound : (writes epoch store executions).Sound := by
  induction executions generalizing store with
  | nil => exact isSound
  | cons execution later ih =>
    exact ih executes.2 (executes.1.sound_write isSound)

theorem commitAll_eq_ok :
    commitAll epoch store executions = .ok (writes epoch store executions) := by
  induction executions generalizing store with
  | nil => rfl
  | cons execution later ih =>
    rw [commitAll, foldlM_cons, executes.1.commit_eq_ok isSound, ok_bind]
    exact ih executes.2 (executes.1.sound_write isSound)

theorem traced_later {earlier : Execution} (traced : earlier.Traced store) :
    earlier.Traced (writes epoch store executions) := by
  induction executions generalizing store with
  | nil => exact traced
  | cons execution later ih =>
    exact ih executes.2 (executes.1.sound_write isSound) (executes.1.traced_write isSound traced)

/-- A revert finds for every transaction what its commit did. -/
theorem traced (listed : execution ∈ executions) :
    execution.Traced (writes epoch store executions) := by
  induction executions generalizing store with
  | nil => cases listed
  | cons first later ih =>
    have nextSound : (store.write (first.batch epoch)).Sound := executes.1.sound_write isSound
    rcases mem_cons.mp listed with rfl | isLater
    · exact executes.2.traced_later nextSound executes.1.traced
    · exact ih executes.2 nextSound isLater

end

section

variable (listed : execution ∈ executions)

include listed

/-- Every transaction is executed on some store. -/
theorem exists_executes : ∃ found : AuthorityStore, execution.Executes found := by
  induction executions generalizing store with
  | nil => cases listed
  | cons first later ih =>
    rcases mem_cons.mp listed with rfl | isLater
    · exact ⟨store, executes.1⟩
    · exact ih executes.2 isLater

/-- A lock that is set up belongs to a row that is written. -/
theorem row_of_produced (isProduced : objRef ∈ execution.produced) :
    ∃ entry ∈ execution.rows, entry.1 = (objRef.1, objRef.2.1) := by
  obtain ⟨_, proper⟩ := executes.exists_executes listed
  obtain ⟨change, isChange, object, written, _, rfl⟩ := (mem_produced objRef).mp isProduced
  exact ⟨_, (mem_rows proper.proper (change.outKey execution.lamportVersion) (.value object)).mpr
    ⟨change, isChange, by rw [ObjectChange.row, written], rfl⟩,
    (proper.proper change isChange).outKey_eq written⟩

/-- No row is written where there is one. -/
theorem rows_absent (isRow : entry ∈ execution.rows) : store.objects[entry.1]? = none := by
  induction executions generalizing store with
  | nil => cases listed
  | cons first later ih =>
    rcases mem_cons.mp listed with rfl | isLater
    · exact executes.1.rows_absent isRow
    · have absent : (store.write (first.batch epoch)).objects[entry.1]? = none :=
        ih executes.2 isLater
      by_contra present
      rw [← ne_eq, Option.ne_none_iff_isSome] at present
      rw [executes.1.objects_write_of_present present] at absent
      rw [absent] at present
      cases present

end

/-- Two transactions write different rows. -/
theorem rows_disjoint :
    executions.Pairwise fun first second =>
      ∀ entry ∈ first.rows, ∀ other ∈ second.rows, entry.1 ≠ other.1 := by
  induction executions generalizing store with
  | nil => exact .nil
  | cons first later ih =>
    refine .cons (fun second isLater entry isEntry other isOther same => ?_)
      (ih executes.2)
    obtain ⟨change, isChange, isRow, isKey⟩ :=
      (mem_rows executes.1.proper entry.1 entry.2).mp isEntry
    have written : (store.write (first.batch epoch)).objects[
        change.outKey first.lamportVersion]? = _ :=
      executes.1.objects_write_row isChange isRow
    have absent := executes.2.rows_absent isLater isOther
    rw [← same, isKey, written] at absent
    cases absent

/-- What was modified is not modified again. -/
theorem not_mem_consumed
    (notLatest : ¬ store.Latest objRef.1 objRef.2.1) (listed : execution ∈ executions) :
    objRef ∉ execution.consumed := by
  induction executions generalizing store with
  | nil => cases listed
  | cons first later ih =>
    rcases mem_cons.mp listed with rfl | isLater
    · intro isConsumed
      obtain ⟨change, isChange, entry, modified, _, rfl⟩ :=
        (executes.1.mem_consumed objRef).mp isConsumed
      exact notLatest ((executes.1.finds change isChange).latest entry modified)
    · refine ih executes.2 (fun latest => notLatest ?_) isLater
      exact fun version present => latest version (executes.1.present_write present)

/-- A lock is deleted once, and it is not set up afterwards. -/
theorem consumed_once :
    executions.Pairwise fun first second =>
      ∀ objRef ∈ first.consumed, objRef ∉ second.consumed ∧ objRef ∉ second.produced := by
  induction executions generalizing store with
  | nil => exact .nil
  | cons first later ih =>
    refine .cons (fun second isLater objRef isConsumed => ⟨?_, fun isProduced => ?_⟩)
      (ih executes.2)
    · exact executes.2.not_mem_consumed (executes.1.not_latest_of_mem_consumed isConsumed) isLater
    · obtain ⟨entry, isRow, isKey⟩ := executes.2.row_of_produced isLater isProduced
      have absent := executes.2.rows_absent isLater isRow
      have present : (store.write (first.batch epoch)).Present objRef.1 objRef.2.1 :=
        executes.1.present_write (executes.1.present_of_mem_consumed isConsumed)
      rw [Present, ← isKey, absent] at present
      cases present

/-- What is modified had a lock at the beginning or is an output of a transaction. -/
theorem locked_or_produced (isSound : store.Sound)
    (listed : execution ∈ executions) (isConsumed : objRef ∈ execution.consumed) :
    (store.ownedObjectTransactionLocks[objRef]?).isSome ∨
      ∃ producer ∈ executions, objRef ∈ producer.produced := by
  induction executions generalizing store with
  | nil => cases listed
  | cons first later ih =>
    rcases mem_cons.mp listed with rfl | isLater
    · exact .inl (executes.1.locked_of_mem_consumed isSound isConsumed)
    · rcases ih executes.2 (executes.1.sound_write isSound) isLater with
        isLocked | ⟨producer, isProducer, isProduced⟩
      · rw [locks_write] at isLocked
        split at isLocked
        case isTrue => cases isLocked
        case isFalse =>
          split at isLocked
          case isTrue isProduced =>
            exact .inr ⟨first, mem_cons_self, isProduced⟩
          case isFalse => exact .inl isLocked
      · exact .inr ⟨producer, mem_cons_of_mem _ isProducer, isProduced⟩

/-- The rows of a transaction are there at the end. -/
theorem objects_row {entry : ObjectKey × StoreObject} (listed : execution ∈ executions)
    (isRow : entry ∈ execution.rows) :
    (writes epoch store executions).objects[entry.1]? = some entry.2 := by
  induction executions generalizing store with
  | nil => cases listed
  | cons first later ih =>
    rcases mem_cons.mp listed with rfl | isLater
    · obtain ⟨change, isChange, isChangeRow, isKey⟩ :=
        (mem_rows executes.1.proper entry.1 entry.2).mp isRow
      have written : (store.write (execution.batch epoch)).objects[entry.1]? = some entry.2 := by
        rw [isKey]
        exact executes.1.objects_write_row isChange isChangeRow
      exact (executes.2.objects_of_present (present_of_eq written)).trans written
    · exact ih executes.2 isLater

/-- No transaction of the list is executed before. -/
theorem notExecuted (listed : execution ∈ executions) :
    store.executedEffects[execution.transaction.digest]? = none := by
  induction executions generalizing store with
  | nil => cases listed
  | cons first later ih =>
    rcases mem_cons.mp listed with rfl | isLater
    · exact executes.1.notExecuted
    · have absent := ih executes.2 isLater
      rw [executedEffects_write, Map.getElem?_insert] at absent
      split at absent
      case isTrue => cases absent
      case isFalse => exact absent

/-- No transaction is executed twice. -/
theorem digests_distinct :
    executions.Pairwise fun first second =>
      first.transaction.digest ≠ second.transaction.digest := by
  induction executions generalizing store with
  | nil => exact .nil
  | cons first later ih =>
    refine .cons (fun second isLater same => ?_) (ih executes.2)
    have absent := executes.2.notExecuted isLater
    rw [executedEffects_write, Map.getElem?_insert, if_pos same] at absent
    cases absent

end ExecutesAll

/-! ## The tables after many batches -/

theorem objects_writes :
    (writes epoch store executions).objects =
      writeAll store.objects (inserts (executions.flatMap rows)) := by
  induction executions generalizing store with
  | nil => rfl
  | cons execution later ih =>
    refine ih.trans ?_
    rw [objects_write, flatMap_cons, inserts_append execution.rows, writeAll_append]
    rfl

theorem executedEffects_writes :
    (writes epoch store executions).executedEffects =
      writeAll store.executedEffects (inserts (executions.flatMap fun execution =>
        [(execution.transaction.digest, execution.effects)])) := by
  induction executions generalizing store with
  | nil => rfl
  | cons execution later ih => exact ih

/-- A lock that is not deleted is there at the end if it was set up. -/
theorem locks_writes_of_not_consumed
    (kept : ∀ execution ∈ executions, objRef ∉ execution.consumed) :
    ((∃ execution ∈ executions, objRef ∈ execution.produced) →
      (writes epoch store executions).ownedObjectTransactionLocks[objRef]? = some none) ∧
    ((∀ execution ∈ executions, objRef ∉ execution.produced) →
      (writes epoch store executions).ownedObjectTransactionLocks[objRef]? =
        store.ownedObjectTransactionLocks[objRef]?) := by
  induction executions generalizing store with
  | nil => exact ⟨fun ⟨_, impossible, _⟩ => absurd impossible not_mem_nil, fun _ => rfl⟩
  | cons first later ih =>
    obtain ⟨notFirst, notLater⟩ := forall_mem_cons.mp kept
    obtain ⟨set, unset⟩ := @ih (store.write (first.batch epoch)) notLater
    constructor
    · rintro ⟨producer, listed, isProduced⟩
      by_cases later : ∃ execution ∈ later, objRef ∈ execution.produced
      · exact set later
      · rcases mem_cons.mp listed with rfl | isLater
        · refine (unset fun execution isLater isLaterProduced =>
            later ⟨execution, isLater, isLaterProduced⟩).trans ?_
          rw [locks_write, if_neg notFirst, if_pos isProduced]
        · exact absurd ⟨producer, isLater, isProduced⟩ later
    · intro notProduced
      obtain ⟨notByFirst, notByLater⟩ := forall_mem_cons.mp notProduced
      refine (unset notByLater).trans ?_
      rw [locks_write, if_neg notFirst, if_neg notByFirst]

/-- A lock that is deleted is not there at the end. -/
theorem locks_writes_of_consumed (once : executions.Pairwise fun first second =>
      ∀ objRef ∈ first.consumed, objRef ∉ second.consumed ∧ objRef ∉ second.produced)
    (listed : execution ∈ executions) (isConsumed : objRef ∈ execution.consumed) :
    (writes epoch store executions).ownedObjectTransactionLocks[objRef]? = none := by
  induction executions generalizing store with
  | nil => cases listed
  | cons first later ih =>
    obtain ⟨head, tail⟩ := pairwise_cons.mp once
    rcases mem_cons.mp listed with rfl | isLater
    · refine ((locks_writes_of_not_consumed fun second isLater =>
        (head second isLater objRef isConsumed).1).2 fun second isLater =>
          (head second isLater objRef isConsumed).2).trans ?_
      rw [locks_write, if_pos isConsumed]
    · exact ih tail isLater

namespace ExecutesAll

variable {first second : Execution}

variable (executes : ExecutesAll epoch store executions)

include executes

/-- A row is written by one execution only. -/
theorem eq_of_row (firstListed : first ∈ executions)
    (secondListed : second ∈ executions) (isEntry : entry ∈ first.rows)
    (isOther : other ∈ second.rows) (same : entry.1 = other.1) :
    first = second :=
  eq_of_pairwise executes.rows_disjoint firstListed secondListed
    (fun disjoint => disjoint entry isEntry other isOther same)
    fun disjoint => disjoint other isOther entry isEntry same.symm

/-- Every output key has a row. -/
theorem row_of_outKey (listed : execution ∈ executions) (isOut : key ∈ outKeys execution.effects) :
    ∃ entry ∈ execution.rows, entry.1 = key := by
  obtain ⟨_, proper⟩ := executes.exists_executes listed
  obtain ⟨change, isChange, exists', rfl⟩ := (mem_outKeys proper.proper key).mp isOut
  obtain ⟨row, isRow⟩ :=
    Option.isSome_iff_exists.mp ((proper.proper change isChange).row_isSome exists')
  exact ⟨_, (mem_rows proper.proper _ row).mpr ⟨change, isChange, isRow, rfl⟩, rfl⟩

/-- Two transactions never write one row. -/
theorem eq_of_outKey (firstListed : first ∈ executions) (secondListed : second ∈ executions)
    (firstOut : key ∈ outKeys first.effects) (secondOut : key ∈ outKeys second.effects) :
    first = second := by
  obtain ⟨entry, isEntry, isKey⟩ := executes.row_of_outKey firstListed firstOut
  obtain ⟨other, isOther, isSame⟩ := executes.row_of_outKey secondListed secondOut
  exact executes.eq_of_row firstListed secondListed isEntry isOther (isKey.trans isSame.symm)

theorem eq_of_digest (firstListed : first ∈ executions) (secondListed : second ∈ executions)
    (same : first.transaction.digest = second.transaction.digest) :
    first = second :=
  inj_on_of_nodup_map (pairwise_map.mpr executes.digests_distinct) firstListed secondListed same

end ExecutesAll

end Execution

end Sui.Authority
