import Sui.Authority.Store

/-!
# Executions

What the execution of a transaction hands to the store, and what the store relies on:
the changes start from the current versions of the objects, every written version is
higher than all earlier ones of its object, all mutable inputs are modified, and an
owned object is only modified as an input or as a received object.
-/

namespace Sui.Authority

open List hiding after
open ChangeClass EffectsObjectChange

/-- What an execution recorded about an object that it created, modified or deleted. -/
structure ObjectChange where
  id : ObjectID
  modifiedAt : Option ((SequenceNumber × ObjectDigest) × Owner)
  written : Option Object
  idCreated : Bool
  idDeleted : Bool

namespace ObjectChange

def effectsObjectChange (change : ObjectChange) : EffectsObjectChange :=
  .new change.modifiedAt change.written change.idCreated change.idDeleted

def changeClass (lamportVersion : SequenceNumber) (change : ObjectChange) :
    Option ChangeClass :=
  classify lamportVersion change.id change.effectsObjectChange

/-- The version that is written for the object, as a value or as a tombstone. -/
def outVersion (lamportVersion : SequenceNumber) (change : ObjectChange) : SequenceNumber :=
  match change.written with
  | some object => object.version
  | none => lamportVersion

/-- The tombstone that the change writes. -/
def tombstone (lamportVersion : SequenceNumber) (change : ObjectChange) : Option StoreObject :=
  match change.changeClass lamportVersion with
  | some (.deleted _ _) => some .deleted
  | some (.unwrappedThenDeleted _) => some .deleted
  | some (.wrapped _ _) => some .wrapped
  | _ => none

/-- The row that the change writes. -/
def row (lamportVersion : SequenceNumber) (change : ObjectChange) : Option StoreObject :=
  match change.written with
  | some object => some (.value object)
  | none => change.tombstone lamportVersion

/-- The key of the row that the change writes. -/
def outKey (lamportVersion : SequenceNumber) (change : ObjectChange) : ObjectKey :=
  (change.id, change.outVersion lamportVersion)

/-- A change that an execution can record. -/
@[mk_iff]
structure Proper (lamportVersion : SequenceNumber) (change : ObjectChange) : Prop where
  possible : (change.changeClass lamportVersion).isSome
  sameId : ∀ object ∈ change.written, object.id = change.id
  version : ∀ object ∈ change.written, object.isPackage = false → object.version = lamportVersion
  package : ∀ object ∈ change.written, object.isPackage = true → object.owner = .immutable

/-- A change that starts from the current version of the object. -/
@[mk_iff]
structure Finds (store : AuthorityStore) (lamportVersion : SequenceNumber)
    (change : ObjectChange) : Prop where
  present : ∀ entry ∈ change.modifiedAt, ∃ object,
    store.objects[(change.id, entry.1.1)]? = some (.value object) ∧
      object.computeObjectReference = (change.id, entry.1.1, entry.1.2) ∧
      object.owner = entry.2
  latest : ∀ entry ∈ change.modifiedAt, ∀ version : SequenceNumber,
    (store.objects[(change.id, version)]?).isSome → version ≤ entry.1.1
  absent : change.modifiedAt = none → store.getObject change.id = none
  created : change.idCreated = true → ∀ version : SequenceNumber,
    store.objects[(change.id, version)]? = none
  fresh : ∀ version : SequenceNumber, (store.objects[(change.id, version)]?).isSome →
    version < change.outVersion lamportVersion

end ObjectChange

/-- An executed transaction. -/
structure Execution where
  transaction : VerifiedTransaction
  mutableInputs : List (ObjectID × (SequenceNumber × ObjectDigest) × Owner)
  sharedObjects : List ObjectRef
  lamportVersion : SequenceNumber
  changes : List ObjectChange

namespace Execution

def inner (execution : Execution) : InnerTemporaryStore where
  mutableInputs := execution.mutableInputs
  written := execution.changes.filterMap fun change =>
    change.written.map fun object => (change.id, object)

def classes (execution : Execution) : List ChangeClass :=
  execution.changes.filterMap (ObjectChange.changeClass execution.lamportVersion)

def effects (execution : Execution) : TransactionEffects :=
  effectsOf execution.sharedObjects execution.transaction.digest execution.classes

/-- The effects are those that are recorded for the changes. -/
theorem newFromExecutionV2_eq {execution : Execution}
    (proper : ∀ change ∈ execution.changes, change.Proper execution.lamportVersion) :
    newFromExecutionV2 execution.sharedObjects execution.transaction.digest
        execution.lamportVersion
        (execution.changes.map fun change => (change.id, change.effectsObjectChange)) =
      some execution.effects := by
  have classes : execution.changes.mapM (ObjectChange.changeClass execution.lamportVersion) =
      some execution.classes :=
    Library.Map.mapM_eq_some_filterMap fun change listed => (proper change listed).possible
  rw [newFromExecutionV2, List.mapM_map]
  exact Option.bind_eq_some_iff.mpr ⟨_, classes, rfl⟩

/-- Commit an executed transaction. -/
def commit (execution : Execution) (store : AuthorityStore) (epoch : EpochId) :
    Except SuiError AuthorityStore :=
  store.updateState execution.inner execution.transaction execution.effects epoch

/-- What the store relies on when a transaction was executed on it. -/
@[mk_iff]
structure Executes (store : AuthorityStore) (execution : Execution) : Prop where
  notExecuted : store.executedEffects[execution.transaction.digest]? = none
  distinct : (execution.changes.map ObjectChange.id).Nodup
  proper : ∀ change ∈ execution.changes, change.Proper execution.lamportVersion
  finds : ∀ change ∈ execution.changes, change.Finds store execution.lamportVersion
  inputs : ∀ input ∈ execution.mutableInputs, ∃ change ∈ execution.changes,
    change.id = input.1 ∧ change.modifiedAt = some input.2
  owned : ∀ change ∈ execution.changes, ∀ entry ∈ change.modifiedAt, entry.2.isAddressOwned = true →
      (change.id, entry) ∈ execution.mutableInputs ∨
        (change.id, entry.1.1, entry.1.2) ∈ execution.transaction.receivingObjects
  /-- A received object that is modified is owned and has the digest that was given. -/
  received : ∀ objRef ∈ execution.transaction.receivingObjects,
    ∀ change ∈ execution.changes, ∀ entry ∈ change.modifiedAt,
      change.id = objRef.1 → entry.1.1 = objRef.2.1 →
        entry.1.2 = objRef.2.2 ∧ entry.2.isAddressOwned = true

end Execution

/-! ## The classes of changes -/

namespace ObjectChange

variable {lamportVersion : SequenceNumber} {change : ObjectChange} {class' : ChangeClass}

/-- The four ways in which an object can change. -/
theorem Proper.cases (proper : change.Proper lamportVersion)
    (isClass : change.changeClass lamportVersion = some class') :
    (∃ entry object, change.modifiedAt = some entry ∧ change.written = some object ∧
      class' = .mutated object.computeObjectReference object.owner entry.1.1) ∨
    (∃ object, change.modifiedAt = none ∧ change.written = some object ∧
      (class' = .created object.computeObjectReference object.owner ∨
        class' = .unwrapped object.computeObjectReference object.owner)) ∨
    (∃ entry, change.modifiedAt = some entry ∧ change.written = none ∧
      (class' = .deleted (change.id, lamportVersion, objectDigestDeleted) entry.1.1 ∨
        class' = .wrapped (change.id, lamportVersion, objectDigestWrapped) entry.1.1)) ∨
    change.modifiedAt = none ∧ change.written = none ∧
      (class' = .unwrappedThenDeleted (change.id, lamportVersion, objectDigestDeleted) ∨
        class' = .createdThenWrapped) := by
  obtain ⟨id, modifiedAt, written, idCreated, idDeleted⟩ := change
  obtain ⟨_, sameId, version, package⟩ := proper
  cases written with
  | none =>
    cases modifiedAt with
    | none =>
      refine .inr (.inr (.inr ⟨rfl, rfl, ?_⟩))
      cases idCreated <;> cases idDeleted <;>
        simp_all [changeClass, effectsObjectChange, new, classify]
    | some entry =>
      refine .inr (.inr (.inl ⟨_, rfl, rfl, ?_⟩))
      cases idCreated <;> cases idDeleted <;>
        simp_all [changeClass, effectsObjectChange, new, classify]
  | some object =>
    have isId : object.id = id := sameId object rfl
    have owner := package object rfl
    have isVersion := version object rfl
    cases modifiedAt with
    | none =>
      refine .inr (.inl ⟨object, rfl, rfl, ?_⟩)
      cases isPackage : object.isPackage <;> cases idCreated <;> cases idDeleted <;>
        simp_all [changeClass, effectsObjectChange, new, classify, Object.computeObjectReference]
    | some entry =>
      refine .inl ⟨_, object, rfl, rfl, ?_⟩
      cases isPackage : object.isPackage <;> cases idCreated <;> cases idDeleted <;>
        simp_all [changeClass, effectsObjectChange, new, classify, Object.computeObjectReference]

end ObjectChange

namespace Execution

open AuthorityStore

variable {execution : Execution}

/-- The objects that a transaction wrote. -/
def writtenObjects (execution : Execution) : List Object :=
  execution.changes.filterMap ObjectChange.written

section Proper

variable (proper : ∀ change ∈ execution.changes, change.Proper execution.lamportVersion)

include proper

/-- Selecting from the classes is selecting from the changes. -/
theorem filterMap_classes {select : ChangeClass → Option α} {view : ObjectChange → Option α}
    (same : ∀ change ∈ execution.changes, ∀ class',
      change.changeClass execution.lamportVersion = some class' → select class' = view change) :
    execution.classes.filterMap select = execution.changes.filterMap view := by
  rw [classes, filterMap_filterMap]
  refine filterMap_congr fun change listed => ?_
  obtain ⟨class', isClass⟩ := Option.isSome_iff_exists.mp (proper change listed).possible
  rw [isClass]
  exact same change listed class' isClass

/-- The changed objects are the written ones. -/
theorem allChangedObjects_perm :
    execution.effects.allChangedObjects.Perm
      (execution.writtenObjects.map fun object =>
        (object.computeObjectReference, object.owner)) := by
  have merged : execution.effects.allChangedObjects.Perm (execution.classes.filterMap fun class' =>
        (class'.mutated?.or class'.created?).or class'.unwrapped?) := by
    refine ((Library.filterMap_append_perm _ _ _ fun class' _ => ?_).append_right _).trans
      (Library.filterMap_append_perm _ _ _ fun class' _ => ?_)
    · cases class' <;> simp [mutated?, created?]
    · cases class' <;> simp [mutated?, created?, unwrapped?]
  refine merged.trans (.of_eq ?_)
  rw [writtenObjects, map_filterMap]
  refine filterMap_classes proper fun change listed class' isClass => ?_
  obtain ⟨_, object, _, written, rfl⟩ | ⟨object, _, written, rfl | rfl⟩ |
      ⟨_, _, written, rfl | rfl⟩ | ⟨_, written, rfl | rfl⟩ :=
    (proper change listed).cases isClass <;>
    rw [written] <;> rfl

/-- The changed objects are those that were written. -/
theorem mem_allChangedObjects (entry : ObjectRef × Owner) :
    entry ∈ execution.effects.allChangedObjects ↔
      ∃ change ∈ execution.changes, ∃ object, change.written = some object ∧
        entry = (object.computeObjectReference, object.owner) := by
  rw [(allChangedObjects_perm proper).mem_iff, writtenObjects, map_filterMap, mem_filterMap]
  simp only [Option.map_eq_some_iff, eq_comm (a := entry)]

/-- The modified versions are those that the changes record. -/
theorem modifiedAtVersions_perm :
    execution.effects.modifiedAtVersions.Perm
      (execution.changes.filterMap fun change =>
        change.modifiedAt.map fun entry => (change.id, entry.1.1)) := by
  have merged : execution.effects.modifiedAtVersions.Perm (execution.classes.filterMap fun class' =>
        class'.modifiedAt?.or class'.deletedAt?) := by
    refine Library.filterMap_append_perm _ _ _ fun class' _ => ?_
    cases class' <;> simp [modifiedAt?, deletedAt?]
  refine merged.trans (.of_eq (filterMap_classes proper fun change listed class' isClass => ?_))
  obtain ⟨_, object, modified, written, rfl⟩ | ⟨_, modified, _, rfl | rfl⟩ |
      ⟨_, modified, _, rfl | rfl⟩ | ⟨modified, _, rfl | rfl⟩ :=
    (proper change listed).cases isClass
  · rw [modified, ← (proper change listed).sameId object written]
    rfl
  all_goals
    rw [modified]
    rfl

theorem mem_modifiedAtVersions (key : ObjectKey) :
    key ∈ execution.effects.modifiedAtVersions ↔
      ∃ change ∈ execution.changes, ∃ entry, change.modifiedAt = some entry ∧
        key = (change.id, entry.1.1) := by
  rw [(modifiedAtVersions_perm proper).mem_iff, mem_filterMap]
  simp only [Option.map_eq_some_iff, eq_comm (a := key)]

/-- What holds of the class of a change can be said about the change. -/
theorem exists_class {property : ObjectChange → ChangeClass → Prop} {view : ObjectChange → Prop}
    (same : ∀ change ∈ execution.changes, ∀ class',
      change.changeClass execution.lamportVersion = some class' →
        (property change class' ↔ view change)) :
    (∃ change ∈ execution.changes, ∃ class',
      change.changeClass execution.lamportVersion = some class' ∧ property change class') ↔
      ∃ change ∈ execution.changes, view change := by
  refine exists_congr fun change => and_congr_right fun listed => ?_
  obtain ⟨class', isClass⟩ := Option.isSome_iff_exists.mp (proper change listed).possible
  rw [← same change listed class' isClass]
  simp [isClass]

/-- The tombstones that are reverted are those of objects that existed. -/
theorem mem_removedObjectKeys (key : ObjectKey) :
    key ∈ removedObjectKeys execution.effects ↔
      ∃ change ∈ execution.changes, change.written = none ∧
        change.modifiedAt.isSome ∧ key = (change.id, execution.lamportVersion) := by
  have merged : key ∈ removedObjectKeys execution.effects ↔ ∃ change ∈ execution.changes,
      ∃ class', change.changeClass execution.lamportVersion = some class' ∧
        ∃ objRef, (class'.deleted? = some objRef ∨ class'.wrapped? = some objRef) ∧
          (objRef.1, objRef.2.1) = key := by
    simp only [removedObjectKeys, TransactionEffects.allRemovedObjects, effects, effectsOf, classes,
      mem_map, mem_append, mem_filterMap]
    grind
  rw [merged]
  refine exists_class proper fun change listed class' isClass => ?_
  obtain ⟨_, _, _, written, rfl⟩ | ⟨_, _, written, rfl | rfl⟩ | ⟨_, modified, written, rfl | rfl⟩ |
      ⟨modified, written, rfl | rfl⟩ := (proper change listed).cases isClass <;>
    simp [deleted?, wrapped?, *, eq_comm]

/-- The tombstones are those of the changes that write nothing. -/
theorem mem_tombstones (key : ObjectKey) (row : StoreObject) :
    (key, row) ∈ tombstones execution.effects ↔
      ∃ change ∈ execution.changes, change.written = none ∧
        change.tombstone execution.lamportVersion = some row ∧
        key = (change.id, execution.lamportVersion) := by
  have merged : (key, row) ∈ tombstones execution.effects ↔ ∃ change ∈ execution.changes,
      ∃ class', change.changeClass execution.lamportVersion = some class' ∧
        ∃ objRef, (objRef.1, objRef.2.1) = key ∧
          ((class'.deleted? = some objRef ∨ class'.unwrappedThenDeleted? = some objRef) ∧
            .deleted = row ∨ class'.wrapped? = some objRef ∧ .wrapped = row) := by
    simp only [tombstones, effects, effectsOf, classes, mem_map, mem_append,
      mem_filterMap, Prod.mk.injEq]
    constructor
    · rintro (⟨objRef, ⟨class', ⟨change, listed, isClass⟩, selected⟩ |
        ⟨class', ⟨change, listed, isClass⟩, selected⟩, same, isRow⟩ |
        ⟨objRef, ⟨class', ⟨change, listed, isClass⟩, selected⟩, same, isRow⟩)
      · exact ⟨change, listed, class', isClass, objRef, same, .inl ⟨.inl selected, isRow⟩⟩
      · exact ⟨change, listed, class', isClass, objRef, same, .inl ⟨.inr selected, isRow⟩⟩
      · exact ⟨change, listed, class', isClass, objRef, same, .inr ⟨selected, isRow⟩⟩
    · rintro ⟨change, listed, class', isClass, objRef, same, ⟨selected | selected, isRow⟩ |
        ⟨selected, isRow⟩⟩
      · exact .inl ⟨objRef, .inl ⟨class', ⟨change, listed, isClass⟩, selected⟩, same, isRow⟩
      · exact .inl ⟨objRef, .inr ⟨class', ⟨change, listed, isClass⟩, selected⟩, same, isRow⟩
      · exact .inr ⟨objRef, ⟨class', ⟨change, listed, isClass⟩, selected⟩, same, isRow⟩
  rw [merged]
  refine exists_class proper fun change listed class' isClass => ?_
  rw [ObjectChange.tombstone, isClass]
  obtain ⟨_, _, _, written, rfl⟩ | ⟨_, _, written, rfl | rfl⟩ | ⟨_, modified, written, rfl | rfl⟩ |
      ⟨modified, written, rfl | rfl⟩ := (proper change listed).cases isClass <;>
    simp [deleted?, wrapped?, unwrappedThenDeleted?, written, eq_comm, and_comm]

/-- The rows that are written are those of the changes. -/
theorem mem_rows (key : ObjectKey) (row : StoreObject) :
    (key, row) ∈ tombstones execution.effects ++ newObjects execution.inner ↔
      ∃ change ∈ execution.changes,
        change.row execution.lamportVersion = some row ∧
          key = change.outKey execution.lamportVersion := by
  rw [mem_append, mem_tombstones proper]
  simp only [newObjects, inner, mem_map, mem_filterMap]
  constructor
  · rintro (⟨change, listed, written, isRow, rfl⟩ | ⟨_, ⟨change, listed, isWritten⟩, isEntry⟩)
    · exact ⟨change, listed, by rw [ObjectChange.row, written]; exact isRow,
        by rw [ObjectChange.outKey, ObjectChange.outVersion, written]⟩
    · obtain ⟨object, written, rfl⟩ := Option.map_eq_some_iff.mp isWritten
      obtain ⟨rfl, rfl⟩ := Prod.mk.inj isEntry
      exact ⟨change, listed, by rw [ObjectChange.row, written],
        by rw [ObjectChange.outKey, ObjectChange.outVersion, written]⟩
  · rintro ⟨change, listed, isRow, rfl⟩
    rw [ObjectChange.outKey, ObjectChange.outVersion]
    rw [ObjectChange.row] at isRow
    cases written : change.written with
    | none =>
      rw [written] at isRow
      exact .inl ⟨change, listed, written, isRow, rfl⟩
    | some object =>
      rw [written] at isRow
      exact .inr ⟨_, ⟨change, listed, by rw [written]; rfl⟩, by cases isRow; rfl⟩

end Proper

end Execution

/-! ## Commits

A commit writes a row for every changed object, above all rows that the object has. -/

open Library List

namespace ObjectChange

variable {lamportVersion : SequenceNumber} {change : ObjectChange}

/-- A change that wrote or modified an object writes a row. -/
theorem Proper.row_isSome (proper : change.Proper lamportVersion)
    (exists' : change.written.isSome ∨ change.modifiedAt.isSome) :
    (change.row lamportVersion).isSome := by
  obtain ⟨class', isClass⟩ := Option.isSome_iff_exists.mp proper.possible
  obtain ⟨_, object, _, written, _⟩ | ⟨object, _, written, _⟩ |
      ⟨_, _, written, rfl | rfl⟩ | ⟨modified, written, _⟩ := proper.cases isClass
  · simp [row, written]
  · simp [row, written]
  · simp [row, written, tombstone, isClass]
  · simp [row, written, tombstone, isClass]
  · simp [modified, written] at exists'

theorem row_eq_value (isRow : change.row lamportVersion = some (.value object)) :
    change.written = some object := by
  rw [row] at isRow
  cases written : change.written with
  | some other =>
    rw [written] at isRow
    cases isRow
    rfl
  | none =>
    rw [written] at isRow
    dsimp only [tombstone] at isRow
    split at isRow <;> cases isRow

theorem Proper.outKey_eq (proper : change.Proper lamportVersion)
    (written : change.written = some object) :
    change.outKey lamportVersion = (object.id, object.version) := by
  rw [outKey, outVersion, written, proper.sameId object written]

end ObjectChange

namespace Execution

open AuthorityStore

variable {store : AuthorityStore} {execution : Execution} {epoch : EpochId}

/-- The locks that a commit deletes. -/
def consumed (execution : Execution) : List ObjectRef :=
  ownedInputs execution.inner ++ receivedObjects execution.effects execution.transaction

/-- The locks that a commit sets up. -/
def produced (execution : Execution) : List ObjectRef :=
  newLocksToInit execution.inner

/-- The writes of a commit. -/
def batch (execution : Execution) (epoch : EpochId) : WriteBatch where
  objects := inserts (tombstones execution.effects) ++ inserts (newObjects execution.inner)
  locks := inserts (execution.produced.map fun objRef => (objRef, none)) ++
    deletes (ownedInputs execution.inner) ++
    deletes (receivedObjects execution.effects execution.transaction)
  executedEffects := [.insert execution.transaction.digest execution.effects]
  markers := inserts (markersToPlace execution.effects execution.transaction epoch)

theorem Executes.eq_of_id (executes : execution.Executes store)
    (firstListed : first ∈ execution.changes) (secondListed : second ∈ execution.changes)
    (same : first.id = second.id) :
    first = second :=
  inj_on_of_nodup_map executes.distinct firstListed secondListed same

/-! ## The locks -/

/-- The new locks are those of the owned objects that were written. -/
theorem mem_produced (objRef : ObjectRef) :
    objRef ∈ execution.produced ↔
      ∃ change ∈ execution.changes, ∃ object, change.written = some object ∧
        object.owner.isAddressOwned = true ∧ objRef = object.computeObjectReference := by
  simp only [produced, newLocksToInit, inner, mem_filterMap]
  constructor
  · rintro ⟨_, ⟨change, listed, isWritten⟩, isRef⟩
    obtain ⟨object, written, rfl⟩ := Option.map_eq_some_iff.mp isWritten
    split at isRef
    case isTrue owned => exact ⟨change, listed, object, written, owned, by cases isRef; rfl⟩
    case isFalse => cases isRef
  · rintro ⟨change, listed, object, written, owned, rfl⟩
    exact ⟨_, ⟨change, listed, by rw [written]; rfl⟩, by rw [if_pos owned]⟩

/-- The locks that are deleted are those of the owned objects that are modified. -/
theorem Executes.mem_consumed (executes : execution.Executes store) (objRef : ObjectRef) :
    objRef ∈ execution.consumed ↔
      ∃ change ∈ execution.changes, ∃ entry, change.modifiedAt = some entry ∧
        entry.2.isAddressOwned = true ∧ objRef = (change.id, entry.1.1, entry.1.2) := by
  simp only [consumed, mem_append, ownedInputs, receivedObjects, inner,
    mem_filterMap, mem_filter, decide_eq_true_eq]
  constructor
  · rintro (⟨input, listed, isRef⟩ | ⟨listed, modified⟩)
    · obtain ⟨change, isChange, same, modified⟩ := executes.inputs input listed
      split at isRef
      case isTrue owned =>
        exact ⟨change, isChange, _, modified, owned, by cases isRef; rw [same]⟩
      case isFalse => cases isRef
    · obtain ⟨change, isChange, entry, isEntry, same⟩ :=
        (mem_modifiedAtVersions executes.proper _).mp modified
      obtain ⟨sameId, sameVersion⟩ := Prod.mk.inj same
      obtain ⟨sameDigest, owned⟩ := executes.received objRef listed change isChange entry
        isEntry sameId.symm sameVersion.symm
      refine ⟨change, isChange, entry, isEntry, owned, ?_⟩
      rw [← sameId, ← sameVersion, sameDigest]
  · rintro ⟨change, isChange, entry, isEntry, owned, rfl⟩
    rcases executes.owned change isChange entry isEntry owned with isInput | isReceived
    · exact .inl ⟨_, isInput, by rw [if_pos owned]⟩
    · exact .inr ⟨isReceived,
        (mem_modifiedAtVersions executes.proper _).mpr ⟨change, isChange, entry, isEntry, rfl⟩⟩

/-- A commit deletes the locks of its inputs and sets up those of its outputs. -/
theorem locks_write (objRef : ObjectRef) :
    (store.write (execution.batch epoch)).ownedObjectTransactionLocks[objRef]? =
      if objRef ∈ execution.consumed then none
      else if objRef ∈ execution.produced then some none
      else store.ownedObjectTransactionLocks[objRef]? := by
  simp only [AuthorityStore.write, batch, writeAll_append, getElem?_deletes, consumed, mem_append]
  by_cases isReceived : objRef ∈ receivedObjects execution.effects execution.transaction
  · simp [isReceived]
  · by_cases isInput : objRef ∈ ownedInputs execution.inner
    · simp [isInput]
    · simp only [isReceived, isInput, if_false, or_self, getElem?_inserts_const]

/-! ## The rows -/

theorem objects_write :
    (store.write (execution.batch epoch)).objects = writeAll store.objects
        (inserts (tombstones execution.effects ++ newObjects execution.inner)) := by
  rw [inserts_append]
  rfl

variable (executes : execution.Executes store)

include executes

/-- The row of a change is in the store after the commit. -/
theorem Executes.objects_write_row
    (listed : change ∈ execution.changes) (isRow : change.row execution.lamportVersion = some row) :
    (store.write (execution.batch epoch)).objects[change.outKey execution.lamportVersion]? =
      some row := by
  have rows := mem_rows executes.proper
  have isListed := (rows _ _).mpr ⟨change, listed, isRow, rfl⟩
  rw [objects_write]
  refine getElem?_inserts_of_mem _ ?_ isListed
  rintro ⟨key, other⟩ otherListed same
  obtain ⟨second, secondListed, isOther, rfl⟩ := (rows _ _).mp otherListed
  obtain rfl := executes.eq_of_id secondListed listed (congrArg Prod.fst same)
  rw [Option.some.inj (isOther.symm.trans isRow)]

/-- A commit leaves every other row alone. -/
theorem Executes.objects_write_of_ne
    (other : ∀ change ∈ execution.changes, (change.row execution.lamportVersion).isSome →
      key ≠ change.outKey execution.lamportVersion) :
    (store.write (execution.batch epoch)).objects[key]? = store.objects[key]? := by
  have missing : key ∉ (tombstones execution.effects ++ newObjects execution.inner).map
      Prod.fst := by
    intro listed
    obtain ⟨⟨_, row⟩, isListed, rfl⟩ := mem_map.mp listed
    obtain ⟨change, isChange, isRow, same⟩ := (mem_rows executes.proper _ _).mp isListed
    exact other change isChange (Option.isSome_iff_exists.mpr ⟨row, isRow⟩) same
  rw [objects_write, getElem?_inserts_of_not_mem _ missing]

/-- No row is written where there is one. -/
theorem Executes.outKey_ne
    (present : (store.objects[key]?).isSome) (listed : change ∈ execution.changes) :
    key ≠ change.outKey execution.lamportVersion := by
  rintro rfl
  exact absurd ((executes.finds change listed).fresh _ present) (lt_irrefl _)

/-- The rows that are there stay. -/
theorem Executes.objects_write_of_present {key : ObjectKey}
    (present : (store.objects[key]?).isSome) :
    (store.write (execution.batch epoch)).objects[key]? = store.objects[key]? :=
  executes.objects_write_of_ne fun _ listed _ => executes.outKey_ne present listed

/-- Where the rows come from. -/
theorem Executes.objects_write_cases
    (found : (store.write (execution.batch epoch)).objects[key]? = some row) :
    store.objects[key]? = some row ∨
      ∃ change ∈ execution.changes, change.row execution.lamportVersion = some row ∧
        key = change.outKey execution.lamportVersion := by
  by_cases written : ∃ change ∈ execution.changes, (change.row execution.lamportVersion).isSome ∧
        key = change.outKey execution.lamportVersion
  · obtain ⟨change, listed, isSome, rfl⟩ := written
    obtain ⟨other, isRow⟩ := Option.isSome_iff_exists.mp isSome
    rw [executes.objects_write_row listed isRow] at found
    exact .inr ⟨change, listed, isRow.trans found, rfl⟩
  · rw [executes.objects_write_of_ne fun change listed isSome same =>
      written ⟨change, listed, isSome, same⟩] at found
    exact .inl found

end Execution

end Sui.Authority
