import Sui.Authority.Sound

/-!
# What a revert does

A revert deletes the rows and the locks of the objects that the transaction wrote, and
sets up the locks of the objects that it modified.  It needs the rows of both.
-/

namespace Sui.Authority

open Library
open List hiding after

namespace AuthorityStore

variable {store : AuthorityStore}

/-- The owned object in a row. -/
def ownedRef (store : AuthorityStore) (key : ObjectKey) : Option ObjectRef :=
  match store.objects[key]? with
  | some (.value object) =>
    if object.owner.isAddressOwned then some object.computeObjectReference else none
  | _ => none

/-- The reference of an owned object in the store. -/
theorem ownedRef_eq_some (key : ObjectKey) (objRef : ObjectRef) :
    store.ownedRef key = some objRef ↔ ∃ object, store.objects[key]? = some (.value object) ∧
        object.owner.isAddressOwned = true ∧ objRef = object.computeObjectReference := by
  rw [ownedRef]
  cases found : store.objects[key]? with
  | none => simp
  | some row =>
    cases row with
    | value object =>
      by_cases owned : object.owner.isAddressOwned = true
      · simp [owned, eq_comm (a := objRef)]
      · simp [owned]
    | deleted => simp
    | wrapped => simp

/-- The lock of a row can be computed when the row is there. -/
theorem lockOfKey_eq_ok (key : ObjectKey) (lock : Option ObjectRef) :
    store.lockOfKey key = .ok lock ↔ store.Present key.1 key.2 ∧ lock = store.ownedRef key := by
  rw [lockOfKey, ownedRef, Present]
  cases store.objects[key]? with
  | none => simp
  | some row =>
    cases row with
    | value object =>
      cases isOwner : object.owner <;>
        simp [isOwner, Owner.isImmutable, Owner.isAddressOwned, eq_comm (b := lock)]
    | deleted => simp [eq_comm (b := lock)]
    | wrapped => simp [eq_comm (b := lock)]

/-- The locks of rows can be computed when all rows are there. -/
theorem getObjectsAndLocks_eq_ok (keys : List ObjectKey) (locks : List ObjectRef) :
    store.getObjectsAndLocks keys = .ok locks ↔
      (∀ key ∈ keys, store.Present key.1 key.2) ∧ locks = keys.filterMap store.ownedRef := by
  rw [getObjectsAndLocks]
  simp only [bind_eq_ok, pure_eq_ok, mapM_eq_ok, lockOfKey_eq_ok]
  constructor
  · rintro ⟨results, all, rfl⟩
    induction all with
    | nil => simp
    | cons first _ ih =>
      obtain ⟨present, rfl⟩ := first
      refine ⟨forall_mem_cons.mpr ⟨present, ih.1⟩, ?_⟩
      rw [filterMap_cons, filterMap_cons, ih.2]
      rfl
  · rintro ⟨present, rfl⟩
    refine ⟨keys.map store.ownedRef, ?_, by rw [filterMap_map]; rfl⟩
    rw [List.forall₂_map_right_iff, List.forall₂_same]
    exact fun key listed => ⟨present key listed, rfl⟩

/-- The store after a revert. -/
def reverted (store : AuthorityStore) (digest : TransactionDigest)
    (effects : TransactionEffects) : AuthorityStore :=
  store.write {
    objects := deletes (outKeys effects)
    locks := inserts ((effects.modifiedAtVersions.filterMap store.ownedRef).map
        fun objRef => (objRef, none)) ++
      deletes ((allNewObjectKeys effects).filterMap store.ownedRef)
    executedEffects := [.delete digest]
    markers := [] }

/-- When reverting succeeds, and with what. -/
theorem revertEffects_eq_ok (digest : TransactionDigest) (effects : TransactionEffects)
    (final : AuthorityStore) :
    store.revertEffects digest effects = .ok final ↔ effects.sharedObjects = [] ∧
        (∀ key ∈ effects.modifiedAtVersions, store.Present key.1 key.2) ∧
        (∀ key ∈ allNewObjectKeys effects, store.Present key.1 key.2) ∧
        final = store.reverted digest effects := by
  have forced : ∀ objects, store.initializeLocks objects true =
      .ok (inserts (objects.map fun objRef => (objRef, none))) := fun _ => rfl
  simp only [revertEffects, bind_eq_ok, require_eq_ok,
    getObjectsAndLocks_eq_ok, forced, pure_eq_ok, Except.ok.injEq]
  constructor
  · rintro ⟨_, owned, _, ⟨modified, rfl⟩, _, ⟨changed, rfl⟩, _, rfl, rfl⟩
    refine ⟨owned, modified, changed, ?_⟩
    rw [reverted, outKeys, deletes_append]
  · rintro ⟨owned, modified, changed, rfl⟩
    refine ⟨(), owned, _, ⟨modified, rfl⟩, _, ⟨changed, rfl⟩, _, rfl, ?_⟩
    rw [reverted, outKeys, deletes_append]

/-! ## The tables after a revert -/

variable {digest : TransactionDigest} {effects : TransactionEffects}

theorem objects_reverted (key : ObjectKey) :
    (store.reverted digest effects).objects[key]? =
      if key ∈ outKeys effects then none else store.objects[key]? :=
  getElem?_deletes _ _ _

theorem executedEffects_reverted :
    (store.reverted digest effects).executedEffects = store.executedEffects.erase digest :=
  rfl

/-- The locks after a transaction was reverted. -/
theorem locks_reverted (objRef : ObjectRef) :
    (store.reverted digest effects).ownedObjectTransactionLocks[objRef]? =
      if objRef ∈ (allNewObjectKeys effects).filterMap store.ownedRef then none
      else if objRef ∈ effects.modifiedAtVersions.filterMap store.ownedRef then some none
      else store.ownedObjectTransactionLocks[objRef]? := by
  simp only [reverted, AuthorityStore.write, writeAll_append, getElem?_deletes,
    getElem?_inserts_const]

theorem mem_filterMap_ownedRef (keys : List ObjectKey) (objRef : ObjectRef) :
    objRef ∈ keys.filterMap store.ownedRef ↔
      ∃ key ∈ keys, ∃ object, store.objects[key]? = some (.value object) ∧
        object.owner.isAddressOwned = true ∧ objRef = object.computeObjectReference := by
  simp only [mem_filterMap, ownedRef_eq_some]

theorem present_reverted (id : ObjectID) (version : SequenceNumber) :
    (store.reverted digest effects).Present id version ↔
      (id, version) ∉ outKeys effects ∧ store.Present id version := by
  rw [Present, objects_reverted]
  split
  case isTrue isOut => simp [isOut]
  case isFalse notOut => simp [notOut, Present]

theorem objects_reverted_eq_some (key : ObjectKey) (row : StoreObject) :
    (store.reverted digest effects).objects[key]? = some row ↔
      key ∉ outKeys effects ∧ store.objects[key]? = some row := by
  rw [objects_reverted]
  split
  case isTrue isOut => simp [isOut]
  case isFalse notOut => simp [notOut]

/-! ## A revert of what nothing builds on -/

section Revert

variable (sound : store.Sound) (executed : store.executedEffects[digest]? = some effects)

include sound executed

/-- The version that was modified is still there, and it is the highest one below. -/
theorem Sound.modified_reverted (isOut : out ∈ outKeys effects)
    (isModified : key ∈ effects.modifiedAtVersions) (same : key.1 = out.1) :
    (store.reverted digest effects).Present key.1 key.2 ∧
      ∀ version, store.Present out.1 version → version < out.2 → version ≤ key.2 := by
  have recorded := sound.recorded digest effects executed
  obtain ⟨object, found⟩ := recorded.modified key isModified
  obtain ⟨other, isOther, sameId, above⟩ := recorded.written key isModified
  obtain rfl := recorded.distinct other isOther out isOut (sameId.trans same)
  refine ⟨(present_reverted _ _).mpr ⟨fun isKey => ?_, present_of_eq found⟩,
    recorded.below other isOut key isModified same⟩
  exact absurd (congrArg Prod.snd (recorded.distinct key isKey other isOut same)) above.ne

/-- After a revert the current version of an owned object has a lock. -/
theorem Sound.locked_reverted {key : ObjectKey}
    (found : (store.reverted digest effects).objects[key]? = some (.value object))
    (latest : (store.reverted digest effects).Latest key.1 key.2)
    (owned : object.owner.isAddressOwned = true) :
    ((store.reverted digest effects).ownedObjectTransactionLocks[
      object.computeObjectReference]?).isSome := by
  have recorded := sound.recorded digest effects executed
  obtain ⟨notOut, before⟩ := (objects_reverted_eq_some key _).mp found
  rw [locks_reverted, if_neg]
  · split
    case isTrue => rfl
    case isFalse notOld =>
      refine sound.locked key object before (fun other present => ?_) owned
      by_contra above
      rw [not_le] at above
      -- Only a row that the transaction wrote can have been above.
      have isOut : (key.1, other) ∈ outKeys effects := by
        by_contra stays
        exact absurd (latest other ((present_reverted _ _).mpr ⟨stays, present⟩))
          (not_le_of_gt above)
      by_cases modified : ∃ old ∈ effects.modifiedAtVersions, old.1 = key.1
      · obtain ⟨old, isModified, same⟩ := modified
        obtain ⟨stays, below⟩ := sound.modified_reverted executed isOut isModified same
        have higher : key.2 ≤ old.2 := below key.2 (present_of_eq before) above
        rw [same] at stays
        obtain rfl : old = key := Prod.ext same (le_antisymm (latest _ stays) higher)
        exact notOld ((mem_filterMap_ownedRef _ _).mpr
          ⟨old, isModified, object, before, owned, rfl⟩)
      · obtain ⟨higher, isHigher, below, isPresent⟩ := recorded.absent _ isOut
          (fun old isModified same => modified ⟨old, isModified, same⟩) key.2 object before above
        have stays : (key.1, higher) ∉ outKeys effects := by
          intro isKey
          exact absurd (congrArg Prod.snd (recorded.distinct _ isKey _ isOut rfl)) below.ne
        exact absurd (latest higher ((present_reverted _ _).mpr ⟨stays, isPresent⟩))
          (not_le_of_gt isHigher)
  · intro isNew
    obtain ⟨out, isOut, other, otherFound, _, sameRef⟩ := (mem_filterMap_ownedRef _ _).mp isNew
    rw [sound.keyed key object before] at notOut
    rw [sound.keyed out other otherFound] at isOut
    have sameKey : (object.id, object.version) = (other.id, other.version) := by
      obtain ⟨sameId, sameRest⟩ := Prod.mk.inj sameRef
      rw [sameId, (Prod.mk.inj sameRest).1]
    rw [sameKey] at notOut
    exact notOut (mem_append_right _ isOut)

/-- An object in a row that a transaction wrote is one that it changed. -/
theorem Sound.exists_changed (isOut : key ∈ outKeys effects)
    (found : store.objects[key]? = some (.value object)) :
    ∃ entry ∈ effects.allChangedObjects, entry = (object.computeObjectReference, object.owner) := by
  have recorded := sound.recorded digest effects executed
  rcases mem_append.mp isOut with isRemoved | isNew
  · obtain ⟨row, isRow, isTombstone⟩ := recorded.removed key isRemoved
    obtain rfl := Option.some.inj (isRow.symm.trans found)
    cases isTombstone
  · obtain ⟨entry, isChanged, rfl⟩ := mem_map.mp isNew
    obtain ⟨other, otherFound, isEntry⟩ := recorded.changed entry isChanged
    obtain ⟨rfl⟩ := StoreObject.value.inj (Option.some.inj (otherFound.symm.trans found))
    exact ⟨entry, isChanged, isEntry⟩

/-- The lock that is set up for an object that was modified. -/
theorem Sound.lockable_of_modified
    (isOld : objRef ∈ effects.modifiedAtVersions.filterMap store.ownedRef) :
    store.Lockable objRef ∧ (objRef.1, objRef.2.1) ∉ outKeys effects := by
  have recorded := sound.recorded digest effects executed
  obtain ⟨key, isModified, object, found, owned, rfl⟩ := (mem_filterMap_ownedRef _ _).mp isOld
  obtain rfl := sound.keyed key object found
  refine ⟨⟨⟨object, found, rfl⟩, ?_⟩, ?_⟩
  · intro other otherEffects otherExecuted entry isChanged sameRef
    obtain ⟨changed, changedFound, rfl⟩ :=
      (sound.recorded other otherEffects otherExecuted).changed entry isChanged
    rw [sameRef] at changedFound
    obtain ⟨rfl⟩ := StoreObject.value.inj (Option.some.inj (changedFound.symm.trans found))
    exact owned
  · obtain ⟨out, isOut, sameId, _⟩ := recorded.written _ isModified
    exact ((present_reverted _ _).mp
      (sound.modified_reverted executed isOut isModified sameId.symm).1).1

/-- After a revert a lock belongs to a current version. -/
theorem Sound.lockable_reverted
    (isLocked : ((store.reverted digest effects).ownedObjectTransactionLocks[ objRef]?).isSome) :
    (store.reverted digest effects).Lockable objRef := by
  have recorded := sound.recorded digest effects executed
  have wasLockable : store.Lockable objRef ∧ (objRef.1, objRef.2.1) ∉ outKeys effects := by
    rw [locks_reverted] at isLocked
    split at isLocked
    case isTrue => cases isLocked
    case isFalse notNew =>
      split at isLocked
      case isTrue isOld =>
        exact sound.lockable_of_modified executed isOld
      case isFalse =>
        have lockable := sound.lockable objRef isLocked
        refine ⟨lockable, fun isOut => notNew ?_⟩
        obtain ⟨object, found, isRef⟩ := lockable.present
        obtain ⟨entry, isChanged, isEntry⟩ := sound.exists_changed executed isOut found
        obtain rfl : entry = (object.computeObjectReference, object.owner) := isEntry
        refine (mem_filterMap_ownedRef _ _).mpr ⟨_, mem_map_of_mem isChanged, object, ?_,
          lockable.owned digest effects executed _ isChanged isRef, isRef.symm⟩
        rw [← isRef] at found
        exact found
  obtain ⟨⟨⟨object, found, isRef⟩, owned⟩, notOut⟩ := wasLockable
  refine ⟨⟨object, (objects_reverted_eq_some _ _).mpr ⟨notOut, found⟩, isRef⟩, ?_⟩
  exact Map.forall_erase owned

/-- A revert of a transaction whose rows are the latest ones keeps what holds between the
tables. -/
theorem Sound.reverted (latest : ∀ key ∈ outKeys effects, store.Latest key.1 key.2) :
    (store.reverted digest effects).Sound := by
  have executedBefore : ∀ {other otherEffects},
      (store.reverted digest effects).executedEffects[other]? = some otherEffects →
        other ≠ digest ∧ store.executedEffects[other]? = some otherEffects := by
    intro other otherEffects otherExecuted
    exact Map.of_getElem?_erase otherExecuted
  -- A row at which another transaction stays, or below which it wrote, is not deleted.
  have stays : ∀ {other otherEffects}, other ≠ digest →
      store.executedEffects[other]? = some otherEffects →
      ∀ out ∈ outKeys otherEffects, ∀ version ≤ out.2, (out.1, version) ∉ outKeys effects := by
    intro other otherEffects different otherExecuted out isOut version below isKey
    have present := (sound.recorded other otherEffects otherExecuted).present isOut
    obtain rfl : version = out.2 := le_antisymm below (latest _ isKey _ present)
    exact different (sound.separate _ _ _ _ otherExecuted executed out isOut isKey)
  refine ⟨?_, ?_, ?_, ?_, ?_⟩
  · intro key object found
    exact sound.keyed key object ((objects_reverted_eq_some _ _).mp found).2
  · intro key object found isLatest owned
    exact sound.locked_reverted executed found isLatest owned
  · exact fun objRef isLocked => sound.lockable_reverted executed isLocked
  · intro other otherEffects otherExecuted
    obtain ⟨different, otherExecuted⟩ := executedBefore otherExecuted
    have recorded := sound.recorded other otherEffects otherExecuted
    have stay := stays different otherExecuted
    refine ⟨?_, ?_, ?_, recorded.distinct, recorded.written, ?_, ?_⟩
    · intro key isModified
      obtain ⟨object, found⟩ := recorded.modified key isModified
      obtain ⟨out, isOut, sameId, above⟩ := recorded.written key isModified
      have notOut := stay out isOut key.2 above.le
      rw [sameId] at notOut
      exact ⟨object, (objects_reverted_eq_some _ _).mpr ⟨notOut, found⟩⟩
    · intro entry isChanged
      obtain ⟨object, found, isEntry⟩ := recorded.changed entry isChanged
      have isOut : (entry.1.1, entry.1.2.1) ∈ outKeys otherEffects :=
        mem_append_right _ (mem_map_of_mem isChanged)
      exact ⟨object, (objects_reverted_eq_some _ _).mpr ⟨stay _ isOut _ le_rfl, found⟩, isEntry⟩
    · intro key isRemoved
      obtain ⟨row, found, isTombstone⟩ := recorded.removed key isRemoved
      have isOut : key ∈ outKeys otherEffects := mem_append_left _ isRemoved
      exact ⟨row, (objects_reverted_eq_some _ _).mpr ⟨stay _ isOut _ le_rfl, found⟩, isTombstone⟩
    · intro out isOut key isModified same version present
      exact recorded.below out isOut key isModified same version
        ((present_reverted _ _).mp present).2
    · intro out isOut unmodified version object found below
      obtain ⟨higher, above, isBelow, present⟩ := recorded.absent out isOut unmodified version
        object ((objects_reverted_eq_some _ _).mp found).2 below
      exact ⟨higher, above, isBelow,
        (present_reverted _ _).mpr ⟨stay out isOut higher isBelow.le, present⟩⟩
  · intro first second firstEffects secondEffects firstExecuted secondExecuted
    exact sound.separate first second firstEffects secondEffects
      (executedBefore firstExecuted).2 (executedBefore secondExecuted).2

end Revert

end AuthorityStore

end Sui.Authority
