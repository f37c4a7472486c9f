import Sui.Authority.Execution

/-!
# What holds between the tables

Every row of an object that a transaction wrote has the version that the transaction
found as its next lower one.  The current version of an owned object has a lock, and
only versions that are in the table have one.
-/

namespace Sui.Authority

open Library
open List hiding after
open Std (ExtTreeMap)
open Option (isSome_iff_exists some)

namespace AuthorityStore

variable {store : AuthorityStore}

/-- An object has a row at a version. -/
def Present (store : AuthorityStore) (id : ObjectID) (version : SequenceNumber) : Prop :=
  (store.objects[(id, version)]?).isSome

/-- No row of an object is above a version. -/
def Latest (store : AuthorityStore) (id : ObjectID) (version : SequenceNumber) : Prop :=
  ∀ other, store.Present id other → other ≤ version

theorem present_of_eq {key : ObjectKey} (found : store.objects[key]? = some row) :
    store.Present key.1 key.2 :=
  isSome_iff_exists.mpr ⟨row, found⟩

theorem mem_rows_iff (id : ObjectID) (key : ObjectKey) (row : StoreObject) :
    (key, row) ∈ store.rows id ↔ store.objects[key]? = some row ∧ key.1 = id := by
  rw [rows, mem_filter, ExtTreeMap.mem_toList_iff_getElem?_eq_some, decide_eq_true_eq]

/-- The last row of an object is the latest version. -/
theorem getLast?_rows (id : ObjectID) (version : SequenceNumber) (row : StoreObject) :
    (store.rows id).getLast? = some ((id, version), row) ↔
      store.objects[(id, version)]? = some row ∧ store.Latest id version := by
  have ordered : (store.rows id).Pairwise fun first second =>
      compare first.1 second.1 = .lt :=
    ExtTreeMap.ordered_keys_toList.filter _
  have highest : ∀ last, (store.rows id).getLast? = some last → ∀ entry ∈ store.rows id,
      entry.1.2 ≤ last.1.2 := by
    intro last isLast entry listed
    obtain ⟨earlier, isRows⟩ := getLast?_eq_some_iff.mp isLast
    have sameId : last.1.1 = entry.1.1 :=
      ((mem_rows_iff id _ _).mp (mem_of_getLast? isLast)).2.trans
        ((mem_rows_iff id _ _).mp listed).2.symm
    rw [isRows] at ordered listed
    rcases mem_snoc.mp listed with before | isEntry
    · have below := pairwise_append.mp ordered |>.2.2 entry before last mem_cons_self
      rcases (Map.compare_eq_lt_iff _ _).mp below with lower | ⟨_, lower⟩
      · exact absurd sameId lower.ne'
      · exact lower.le
    · rw [isEntry]
  constructor
  · intro isLast
    refine ⟨((mem_rows_iff id _ _).mp (mem_of_getLast? isLast)).1, fun other present => ?_⟩
    obtain ⟨otherRow, found⟩ := isSome_iff_exists.mp present
    exact highest _ isLast _ ((mem_rows_iff id (id, other) otherRow).mpr ⟨found, rfl⟩)
  · rintro ⟨found, latest⟩
    have listed := (mem_rows_iff id (id, version) row).mpr ⟨found, rfl⟩
    obtain ⟨last, isLast⟩ := isSome_iff_exists.mp
      (getLast?_isSome.mpr (ne_nil_of_mem listed))
    obtain ⟨⟨lastId, lastVersion⟩, lastRow⟩ := last
    obtain ⟨lastFound, sameId⟩ := (mem_rows_iff id _ _).mp (mem_of_getLast? isLast)
    obtain rfl : lastId = id := sameId
    obtain rfl : lastVersion = version :=
      le_antisymm (latest _ (present_of_eq lastFound)) (highest _ isLast _ listed)
    obtain rfl := some.inj (lastFound.symm.trans found)
    exact isLast

theorem StoreObject.object_eq_some {row : StoreObject} {object : Object} :
    StoreObject.object row = some object ↔ row = .value object := by
  cases row <;> simp [StoreObject.object]

/-- An object is found at its latest version, unless that is a tombstone. -/
theorem getObject_eq_some_iff (id : ObjectID) (object : Object) :
    store.getObject id = some object ↔
      ∃ version, store.objects[(id, version)]? = some (.value object) ∧
        store.Latest id version := by
  rw [getObject, Option.bind_eq_some_iff]
  constructor
  · rintro ⟨⟨⟨rowId, version⟩, row⟩, isLast, isObject⟩
    obtain rfl : rowId = id := ((mem_rows_iff id _ _).mp (mem_of_getLast? isLast)).2
    obtain rfl := StoreObject.object_eq_some.mp isObject
    exact ⟨version, (getLast?_rows rowId version _).mp isLast⟩
  · rintro ⟨version, latest⟩
    exact ⟨_, (getLast?_rows id version _).mpr latest, rfl⟩

/-- The keys of the rows that are deleted when a transaction is reverted. -/
def outKeys (effects : TransactionEffects) : List ObjectKey :=
  removedObjectKeys effects ++ allNewObjectKeys effects

/-- A version of an object that may have a lock. -/
structure Lockable (store : AuthorityStore) (objRef : ObjectRef) : Prop where
  present : ∃ object, store.objects[(objRef.1, objRef.2.1)]? = some (.value object) ∧
    object.computeObjectReference = objRef
  owned : ∀ (digest : TransactionDigest) (effects : TransactionEffects),
    store.executedEffects[digest]? = some effects →
    ∀ entry ∈ effects.allChangedObjects, entry.1 = objRef → entry.2.isAddressOwned = true

/-- What the table of objects says about a transaction that was executed. -/
structure Recorded (store : AuthorityStore) (effects : TransactionEffects) : Prop where
  modified : ∀ key ∈ effects.modifiedAtVersions, ∃ object,
    store.objects[key]? = some (.value object)
  changed : ∀ entry ∈ effects.allChangedObjects, ∃ object,
    store.objects[(entry.1.1, entry.1.2.1)]? = some (.value object) ∧
      entry = (object.computeObjectReference, object.owner)
  removed : ∀ key ∈ removedObjectKeys effects, ∃ row,
    store.objects[key]? = some row ∧ StoreObject.object row = none
  distinct : ∀ first ∈ outKeys effects, ∀ second ∈ outKeys effects,
    first.1 = second.1 → first = second
  written : ∀ key ∈ effects.modifiedAtVersions, ∃ out ∈ outKeys effects,
    out.1 = key.1 ∧ key.2 < out.2
  below : ∀ out ∈ outKeys effects, ∀ key ∈ effects.modifiedAtVersions, key.1 = out.1 →
    ∀ version, store.Present out.1 version → version < out.2 → version ≤ key.2
  /-- If the object was not modified, the next lower version is a tombstone. -/
  absent : ∀ out ∈ outKeys effects, (∀ key ∈ effects.modifiedAtVersions, key.1 ≠ out.1) →
    ∀ (version : SequenceNumber) (object : Object),
      store.objects[(out.1, version)]? = some (.value object) → version < out.2 →
      ∃ higher, version < higher ∧ higher < out.2 ∧ store.Present out.1 higher

/-- What holds in every store that is reached. -/
structure Sound (store : AuthorityStore) : Prop where
  keyed : ∀ (key : ObjectKey) (object : Object), store.objects[key]? = some (.value object) →
    key = (object.id, object.version)
  locked : ∀ (key : ObjectKey) (object : Object), store.objects[key]? = some (.value object) →
    store.Latest key.1 key.2 → object.owner.isAddressOwned = true →
    (store.ownedObjectTransactionLocks[object.computeObjectReference]?).isSome
  lockable : ∀ objRef : ObjectRef, (store.ownedObjectTransactionLocks[objRef]?).isSome →
    store.Lockable objRef
  recorded : ∀ (digest : TransactionDigest) (effects : TransactionEffects),
    store.executedEffects[digest]? = some effects →
    store.Recorded effects
  separate : ∀ (first second : TransactionDigest) (firstEffects secondEffects : TransactionEffects),
    store.executedEffects[first]? = some firstEffects →
    store.executedEffects[second]? = some secondEffects →
      ∀ key ∈ outKeys firstEffects, key ∈ outKeys secondEffects → first = second

/-- The rows of recorded effects are present. -/
theorem Recorded.present {effects : TransactionEffects} (recorded : store.Recorded effects)
    (listed : key ∈ outKeys effects) :
    store.Present key.1 key.2 := by
  rcases mem_append.mp listed with isRemoved | isChanged
  · obtain ⟨row, found, _⟩ := recorded.removed key isRemoved
    exact present_of_eq found
  · obtain ⟨entry, isEntry, rfl⟩ := mem_map.mp isChanged
    obtain ⟨object, found, _⟩ := recorded.changed entry isEntry
    exact present_of_eq found

end AuthorityStore

/-! ## A commit keeps it -/

namespace Execution

open AuthorityStore

variable {store : AuthorityStore} {execution : Execution} {epoch : EpochId}

/-- The keys that a revert deletes are those of objects that exist before or after. -/
theorem mem_outKeys (proper : ∀ change ∈ execution.changes, change.Proper execution.lamportVersion)
    (key : ObjectKey) :
    key ∈ outKeys execution.effects ↔ ∃ change ∈ execution.changes,
        (change.written.isSome ∨ change.modifiedAt.isSome) ∧
          key = change.outKey execution.lamportVersion := by
  rw [outKeys, mem_append, mem_removedObjectKeys proper, allNewObjectKeys, mem_map]
  simp only [mem_allChangedObjects proper]
  constructor
  · rintro (⟨change, listed, written, modified, rfl⟩ |
      ⟨_, ⟨change, listed, object, written, rfl⟩, rfl⟩)
    · exact ⟨change, listed, .inr modified,
        by rw [ObjectChange.outKey, ObjectChange.outVersion, written]⟩
    · exact ⟨change, listed, .inl (by rw [written]; rfl),
        ((proper change listed).outKey_eq written).symm⟩
  · rintro ⟨change, listed, exists', rfl⟩
    cases written : change.written with
    | none =>
      have modified : change.modifiedAt.isSome := by simpa [written] using exists'
      exact .inl ⟨change, listed, written, modified,
        by rw [ObjectChange.outKey, ObjectChange.outVersion, written]⟩
    | some object =>
      exact .inr ⟨_, ⟨change, listed, object, written, rfl⟩,
        ((proper change listed).outKey_eq written).symm⟩

theorem executedEffects_write :
    (store.write (execution.batch epoch)).executedEffects =
      store.executedEffects.insert execution.transaction.digest execution.effects :=
  rfl

section Commit

variable (executes : execution.Executes store)

include executes

theorem Executes.found (listed : change ∈ execution.changes)
    (modified : change.modifiedAt = some entry) :
    ∃ object, store.objects[(change.id, entry.1.1)]? = some (.value object) ∧
      object.computeObjectReference = (change.id, entry.1.1, entry.1.2) ∧
      object.owner = entry.2 :=
  (executes.finds change listed).present entry modified

theorem Executes.found_write {key : ObjectKey} (found : store.objects[key]? = some row) :
    (store.write (execution.batch epoch)).objects[key]? = some row :=
  (executes.objects_write_of_present (present_of_eq found)).trans found

theorem Executes.present_write {id : ObjectID} (present : store.Present id version) :
    (store.write (execution.batch epoch)).Present id version := by
  rw [Present, executes.objects_write_of_present present]
  exact present

/-- A row is there before or it is written. -/
theorem Executes.present_write_cases {id : ObjectID}
    (present : (store.write (execution.batch epoch)).Present id version) :
    store.Present id version ∨
      ∃ change ∈ execution.changes, (change.row execution.lamportVersion).isSome ∧
        (id, version) = change.outKey execution.lamportVersion := by
  obtain ⟨row, found⟩ := isSome_iff_exists.mp present
  rcases executes.objects_write_cases found with before | ⟨change, listed, isRow, isKey⟩
  · exact .inl (present_of_eq before)
  · exact .inr ⟨change, listed, isSome_iff_exists.mpr ⟨row, isRow⟩, isKey⟩

/-- Below a row that is there, nothing is written. -/
theorem Executes.present_write_below {id : ObjectID}
    (present : (store.write (execution.batch epoch)).Present id version)
    (there : store.Present id bound) (below : version < bound) :
    store.Present id version := by
  rcases executes.present_write_cases present with before | ⟨change, listed, _, isKey⟩
  · exact before
  · obtain ⟨rfl, rfl⟩ := Prod.mk.inj isKey
    exact absurd ((executes.finds change listed).fresh _ there) (not_lt_of_gt below)

/-- Below a row that is written, nothing else is written. -/
theorem Executes.present_write_below_out (listed : change ∈ execution.changes)
    (present : (store.write (execution.batch epoch)).Present change.id version)
    (below : version < change.outVersion execution.lamportVersion) :
    store.Present change.id version := by
  rcases executes.present_write_cases present with before | ⟨other, otherListed, _, isKey⟩
  · exact before
  · obtain rfl := executes.eq_of_id listed otherListed (congrArg Prod.fst isKey)
    exact absurd (congrArg Prod.snd isKey) below.ne

/-- A commit keeps the record of earlier effects. -/
theorem Executes.recorded_write {effects : TransactionEffects} (recorded : store.Recorded effects) :
    (store.write (execution.batch epoch)).Recorded effects where
  modified := by
    intro key listed
    obtain ⟨object, found⟩ := recorded.modified key listed
    exact ⟨object, executes.found_write found⟩
  changed := by
    intro entry listed
    obtain ⟨object, found, isEntry⟩ := recorded.changed entry listed
    exact ⟨object, executes.found_write found, isEntry⟩
  removed := by
    intro key listed
    obtain ⟨row, found, isTombstone⟩ := recorded.removed key listed
    exact ⟨row, executes.found_write found, isTombstone⟩
  distinct := recorded.distinct
  written := recorded.written
  below out listed key modified same version present lower :=
    recorded.below out listed key modified same version
      (executes.present_write_below present (recorded.present listed) lower) lower
  absent := by
    intro out listed unmodified version object found lower
    have there := recorded.present listed
    have before := executes.present_write_below (present_of_eq found) there lower
    rw [executes.objects_write_of_present before] at found
    obtain ⟨higher, above, below, present⟩ :=
      recorded.absent out listed unmodified version object found lower
    exact ⟨higher, above, below, executes.present_write present⟩

/-- A transaction is recorded when it is committed. -/
theorem Executes.recorded_self :
    (store.write (execution.batch epoch)).Recorded execution.effects where
  modified := by
    intro key isModified
    obtain ⟨change, listed, entry, modified, rfl⟩ :=
      (mem_modifiedAtVersions executes.proper key).mp isModified
    obtain ⟨object, found, _⟩ := executes.found listed modified
    exact ⟨object, executes.found_write found⟩
  changed := by
    intro entry isChanged
    obtain ⟨change, listed, object, written, rfl⟩ :=
      (mem_allChangedObjects executes.proper entry).mp isChanged
    refine ⟨object, ?_, rfl⟩
    have row : change.row execution.lamportVersion = some (.value object) := by
      rw [ObjectChange.row, written]
    have found : (store.write (execution.batch epoch)).objects[
        change.outKey execution.lamportVersion]? = _ :=
      executes.objects_write_row listed row
    rwa [(executes.proper change listed).outKey_eq written] at found
  removed := by
    intro key isRemoved
    obtain ⟨change, listed, written, modified, rfl⟩ :=
      (mem_removedObjectKeys executes.proper key).mp isRemoved
    obtain ⟨row, isRow⟩ := isSome_iff_exists.mp
      ((executes.proper change listed).row_isSome (.inr modified))
    have found : (store.write (execution.batch epoch)).objects[
        change.outKey execution.lamportVersion]? = _ :=
      executes.objects_write_row listed isRow
    rw [ObjectChange.outKey, ObjectChange.outVersion, written] at found
    refine ⟨row, found, ?_⟩
    cases row with
    | value object => cases written.symm.trans (ObjectChange.row_eq_value isRow)
    | deleted => rfl
    | wrapped => rfl
  distinct := by
    intro first firstOut second secondOut same
    obtain ⟨change, listed, _, rfl⟩ := (mem_outKeys executes.proper first).mp firstOut
    obtain ⟨other, otherListed, _, rfl⟩ := (mem_outKeys executes.proper second).mp secondOut
    rw [executes.eq_of_id listed otherListed same]
  written := by
    intro key isModified
    obtain ⟨change, listed, entry, modified, rfl⟩ :=
      (mem_modifiedAtVersions executes.proper key).mp isModified
    obtain ⟨object, found, _⟩ := executes.found listed modified
    exact ⟨_, (mem_outKeys executes.proper _).mpr
        ⟨change, listed, .inr (by rw [modified]; rfl), rfl⟩, rfl,
      (executes.finds change listed).fresh _ (present_of_eq found)⟩
  below := by
    intro out isOut key isModified same version present lower
    obtain ⟨change, listed, _, rfl⟩ := (mem_outKeys executes.proper out).mp isOut
    obtain ⟨other, otherListed, entry, modified, rfl⟩ :=
      (mem_modifiedAtVersions executes.proper key).mp isModified
    obtain rfl := executes.eq_of_id otherListed listed same
    exact (executes.finds other listed).latest entry modified version
      (executes.present_write_below_out listed present lower)
  absent := by
    intro out isOut unmodified version object found lower
    obtain ⟨change, listed, _, rfl⟩ := (mem_outKeys executes.proper out).mp isOut
    have before : store.Present change.id version :=
      executes.present_write_below_out listed (present_of_eq found) lower
    replace found := (executes.objects_write_of_present before).symm.trans found
    have notModified : change.modifiedAt = none := by
      cases modified : change.modifiedAt with
      | none => rfl
      | some entry =>
        exact absurd rfl (unmodified (change.id, entry.1.1)
          ((mem_modifiedAtVersions executes.proper _).mpr ⟨change, listed, entry, modified, rfl⟩))
    have notAlive := (executes.finds change listed).absent notModified
    have notLatest : ¬ store.Latest change.id version := by
      intro latest
      rw [(getObject_eq_some_iff _ _).mpr ⟨version, found, latest⟩] at notAlive
      cases notAlive
    obtain ⟨higher, present, above⟩ : ∃ higher, store.Present change.id higher ∧
        version < higher := by
      simpa only [Latest, not_forall, not_le, exists_prop] using notLatest
    exact ⟨higher, above, (executes.finds change listed).fresh _ present,
      executes.present_write present⟩

/-- A lock that is deleted belongs to a row that is there. -/
theorem Executes.present_of_mem_consumed (isConsumed : objRef ∈ execution.consumed) :
    store.Present objRef.1 objRef.2.1 := by
  obtain ⟨change, listed, entry, modified, _, rfl⟩ := (executes.mem_consumed objRef).mp isConsumed
  obtain ⟨object, found, _⟩ := executes.found listed modified
  exact present_of_eq found

/-- Above a row whose lock is deleted, a row is written. -/
theorem Executes.not_latest_of_mem_consumed (isConsumed : objRef ∈ execution.consumed) :
    ¬ (store.write (execution.batch epoch)).Latest objRef.1 objRef.2.1 := by
  obtain ⟨change, listed, entry, modified, _, rfl⟩ := (executes.mem_consumed objRef).mp isConsumed
  have recorded : (store.write (execution.batch epoch)).Recorded _ := executes.recorded_self
  obtain ⟨out, isOut, sameId, above⟩ := recorded.written _
    ((mem_modifiedAtVersions executes.proper _).mpr ⟨change, listed, entry, modified, rfl⟩)
  have present := recorded.present isOut
  rw [sameId] at present
  exact fun latest => absurd (latest _ present) (not_le_of_gt above)

/-- A lock that is set up belongs to a row that is not there before. -/
theorem Executes.not_present_of_mem_produced (isProduced : objRef ∈ execution.produced) :
    ¬ store.Present objRef.1 objRef.2.1 := by
  obtain ⟨change, listed, object, written, _, rfl⟩ := (mem_produced objRef).mp isProduced
  intro present
  have fresh := executes.outKey_ne present listed
  exact fresh ((executes.proper change listed).outKey_eq written).symm

/-- What may have a lock keeps that. -/
theorem Executes.lockable_write (lockable : store.Lockable objRef) :
    (store.write (execution.batch epoch)).Lockable objRef where
  present := by
    obtain ⟨object, found, isRef⟩ := lockable.present
    exact ⟨object, executes.found_write found, isRef⟩
  owned := by
    intro digest effects executed entry isChanged isRef
    rcases Map.cases_of_getElem?_insert executed with ⟨rfl, rfl⟩ | ⟨_, before⟩
    · obtain ⟨change, listed, object, written, rfl⟩ :=
        (mem_allChangedObjects executes.proper entry).mp isChanged
      obtain ⟨other, found, _⟩ := lockable.present
      have fresh := executes.outKey_ne (present_of_eq found) listed
      rw [(executes.proper change listed).outKey_eq written, ← isRef] at fresh
      exact absurd rfl fresh
    · exact lockable.owned digest effects before entry isChanged isRef

section

variable (sound : store.Sound)

include sound

/-- A lock that is set up is one that there may be. -/
theorem Executes.lockable_produced (isProduced : objRef ∈ execution.produced) :
    (store.write (execution.batch epoch)).Lockable objRef where
  present := by
    obtain ⟨change, listed, object, written, _, rfl⟩ := (mem_produced objRef).mp isProduced
    obtain ⟨other, found, isEntry⟩ := executes.recorded_self.changed _
      ((mem_allChangedObjects executes.proper _).mpr ⟨change, listed, object, written, rfl⟩)
    exact ⟨other, found, (congrArg Prod.fst isEntry).symm⟩
  owned := by
    intro digest effects executed entry isChanged isRef
    rcases Map.cases_of_getElem?_insert executed with ⟨rfl, rfl⟩ | ⟨_, before⟩
    · obtain ⟨change, listed, object, written, rfl⟩ :=
        (mem_allChangedObjects executes.proper entry).mp isChanged
      obtain ⟨other, otherListed, produced, otherWritten, owned, rfl⟩ :=
        (mem_produced objRef).mp isProduced
      have same : change.id = other.id := by
        rw [← (executes.proper change listed).sameId object written,
          ← (executes.proper other otherListed).sameId produced otherWritten]
        exact congrArg Prod.fst isRef
      obtain rfl := executes.eq_of_id listed otherListed same
      obtain rfl := some.inj (written.symm.trans otherWritten)
      exact owned
    · obtain ⟨object, found, _⟩ := (sound.recorded digest effects before).changed entry isChanged
      refine absurd (present_of_eq found) ?_
      rw [isRef]
      exact executes.not_present_of_mem_produced isProduced

/-- A commit keeps what holds between the tables. -/
theorem Executes.sound_write :
    (store.write (execution.batch epoch)).Sound where
  keyed := by
    intro key object found
    rcases executes.objects_write_cases found with before | ⟨change, listed, isRow, rfl⟩
    · exact sound.keyed key object before
    · exact (executes.proper change listed).outKey_eq (ObjectChange.row_eq_value isRow)
  locked := by
    intro key object found latest owned
    rw [locks_write]
    rcases executes.objects_write_cases found with before | ⟨change, listed, isRow, rfl⟩
    · have hadLock := sound.locked key object before
        (fun other present => latest other (executes.present_write present)) owned
      have notConsumed : object.computeObjectReference ∉ execution.consumed := by
        intro isConsumed
        obtain rfl := sound.keyed key object before
        exact executes.not_latest_of_mem_consumed isConsumed latest
      rw [if_neg notConsumed]
      split
      case isTrue => rfl
      case isFalse => exact hadLock
    · have written := ObjectChange.row_eq_value isRow
      have isProduced : object.computeObjectReference ∈ execution.produced :=
        (mem_produced _).mpr ⟨change, listed, object, written, owned, rfl⟩
      rw [if_neg fun isConsumed => executes.not_present_of_mem_produced isProduced
        (executes.present_of_mem_consumed isConsumed), if_pos isProduced]
      rfl
  lockable := by
    intro objRef isLocked
    rw [locks_write] at isLocked
    split at isLocked
    case isTrue => cases isLocked
    case isFalse =>
      split at isLocked
      case isTrue isProduced => exact executes.lockable_produced sound isProduced
      case isFalse => exact executes.lockable_write (sound.lockable objRef isLocked)
  recorded := Map.forall_insert executes.recorded_self fun digest effects before =>
    executes.recorded_write (sound.recorded digest effects before)
  separate := by
    have apart : ∀ (digest : TransactionDigest) (effects : TransactionEffects),
        store.executedEffects[digest]? = some effects →
        ∀ key ∈ outKeys effects, key ∉ outKeys execution.effects := by
      intro digest effects executed key isOut isNew
      obtain ⟨change, listed, _, rfl⟩ := (mem_outKeys executes.proper key).mp isNew
      exact executes.outKey_ne ((sound.recorded digest effects executed).present isOut) listed rfl
    intro first second firstEffects secondEffects firstExecuted secondExecuted key firstOut
      secondOut
    rcases Map.cases_of_getElem?_insert firstExecuted with ⟨rfl, rfl⟩ | ⟨_, firstBefore⟩
    · rcases Map.cases_of_getElem?_insert secondExecuted with ⟨rfl, rfl⟩ | ⟨_, secondBefore⟩
      · rfl
      · exact absurd firstOut (apart _ _ secondBefore key secondOut)
    · rcases Map.cases_of_getElem?_insert secondExecuted with ⟨rfl, rfl⟩ | ⟨_, secondBefore⟩
      · exact absurd secondOut (apart _ _ firstBefore key firstOut)
      · exact sound.separate first second _ _ firstBefore secondBefore key firstOut secondOut

/-- The inputs that a transaction consumes have locks. -/
theorem Executes.locked_of_mem_consumed (isConsumed : objRef ∈ execution.consumed) :
    (store.ownedObjectTransactionLocks[objRef]?).isSome := by
  obtain ⟨change, listed, entry, modified, owned, rfl⟩ :=
    (executes.mem_consumed objRef).mp isConsumed
  obtain ⟨object, found, isRef, isOwner⟩ := executes.found listed modified
  rw [← isRef]
  exact sound.locked _ object found
    ((executes.finds change listed).latest entry modified) (by rw [isOwner]; exact owned)

/-- The locks that a commit needs exist, and it returns. -/
theorem Executes.commit_eq_ok :
    execution.commit store epoch = .ok (store.write (execution.batch epoch)) := by
  have exist : store.checkOwnedObjectLocksExist (ownedInputs execution.inner) = .ok () := by
    refine forM_eq_ok.mpr fun objRef isInput => ?_
    obtain ⟨lock, isLock⟩ := isSome_iff_exists.mp
      (executes.locked_of_mem_consumed sound (mem_append_left _ isInput))
    rw [isLock]
  have unset : store.initializeLocks (newLocksToInit execution.inner) false =
      .ok (inserts ((newLocksToInit execution.inner).map fun objRef =>
        (objRef, none))) := by
    have none' : (newLocksToInit execution.inner).filter (fun objRef =>
        (store.ownedObjectTransactionLocks[objRef]?.join).isSome) = [] := by
      refine filter_eq_nil_iff.mpr fun objRef isProduced isSet => ?_
      have isLocked : (store.ownedObjectTransactionLocks[objRef]?).isSome := by
        cases isLock : store.ownedObjectTransactionLocks[objRef]? with
        | none =>
          rw [isLock] at isSet
          cases isSet
        | some lock => rfl
      obtain ⟨object, found, _⟩ := (sound.lockable objRef isLocked).present
      exact executes.not_present_of_mem_produced isProduced (present_of_eq found)
    rw [initializeLocks, none']
    rfl
  rw [commit, updateState, updateObjectsAndLocks, exist, ok_bind, unset]
  rfl

end

end Commit

end Execution

/-! ## Checking an execution -/

namespace AuthorityStore

variable {store : AuthorityStore}

/-- A property of all versions of an object, over its rows. -/
theorem forall_mem_rows (id : ObjectID) (property : SequenceNumber → Prop) :
    (∀ row ∈ store.rows id, property row.1.2) ↔
      ∀ version : SequenceNumber, (store.objects[(id, version)]?).isSome → property version := by
  constructor
  · intro all version present
    obtain ⟨row, found⟩ := isSome_iff_exists.mp present
    exact all ((id, version), row) ((mem_rows_iff id _ _).mpr ⟨found, rfl⟩)
  · rintro all ⟨⟨rowId, version⟩, row⟩ listed
    obtain ⟨found, rfl⟩ := (mem_rows_iff id _ _).mp listed
    exact all version (present_of_eq found)

theorem getObjectByKey_eq_some (id : ObjectID) (version : SequenceNumber) (object : Object) :
    object ∈ store.getObjectByKey id version ↔
      store.objects[(id, version)]? = some (.value object) := by
  simp only [getObjectByKey, Option.mem_def, Option.bind_eq_some_iff, StoreObject.object_eq_some,
    exists_eq_right]

end AuthorityStore

open AuthorityStore

instance (lamportVersion : SequenceNumber) (change : ObjectChange) :
    Decidable (change.Proper lamportVersion) :=
  decidable_of_iff' _ (change.proper_iff lamportVersion)

instance (store : AuthorityStore) (lamportVersion : SequenceNumber) (change : ObjectChange) :
    Decidable (change.Finds store lamportVersion) :=
  decidable_of_iff
    ((∀ entry ∈ change.modifiedAt, ∃ object ∈ store.getObjectByKey change.id entry.1.1,
        object.computeObjectReference = (change.id, entry.1.1, entry.1.2) ∧
          object.owner = entry.2) ∧
      (∀ entry ∈ change.modifiedAt, ∀ row ∈ store.rows change.id, row.1.2 ≤ entry.1.1) ∧
      (change.modifiedAt = none → store.getObject change.id = none) ∧
      (change.idCreated = true → ∀ row ∈ store.rows change.id, False) ∧
      ∀ row ∈ store.rows change.id, row.1.2 < change.outVersion lamportVersion) <| by
    have rows := @forall_mem_rows store change.id
    simp only [change.finds_iff, getObjectByKey_eq_some, fun bound => rows (· ≤ bound),
      rows fun _ => False, fun bound => rows (· < bound), imp_false,
      Option.not_isSome_iff_eq_none]

set_option synthInstance.maxSize 512 in
instance (store : AuthorityStore) (execution : Execution) :
    Decidable (execution.Executes store) :=
  decidable_of_iff' _ (execution.executes_iff store)

end Sui.Authority
