import Sui.Library.Map
import Sui.Library.Checked

/-!
# Objects, the effects of transactions and the store

A transaction changes objects.  For every object that it creates, modifies or
deletes, the execution says in which state it found the object and in which state it
leaves it; the effects sort these changes into six classes.

The digest of an object stands for its contents.  The digests of deleted and of
wrapped objects are constants.
-/

namespace Sui.Authority

abbrev ObjectID := Nat

abbrev SequenceNumber := Nat

abbrev ObjectDigest := Nat

abbrev TransactionDigest := Nat

abbrev EpochId := Nat

/-- An object at a version. -/
abbrev ObjectKey := ObjectID × SequenceNumber

/-- An object at a version, with the digest of its contents. -/
abbrev ObjectRef := ObjectID × SequenceNumber × ObjectDigest

def objectDigestDeleted : ObjectDigest := 99

def objectDigestWrapped : ObjectDigest := 88

/-- Who may use an object. -/
inductive Owner
  | addressOwner (address : Nat)
  | objectOwner (id : ObjectID)
  | shared (initialSharedVersion : SequenceNumber)
  | immutable
  deriving DecidableEq

namespace Owner

def isAddressOwned : Owner → Bool
  | .addressOwner _ => true
  | _ => false

def isImmutable : Owner → Bool
  | .immutable => true
  | _ => false

def isChildObject : Owner → Bool
  | .objectOwner _ => true
  | _ => false

end Owner

/-- An object or a package. -/
structure Object where
  id : ObjectID
  version : SequenceNumber
  digest : ObjectDigest
  owner : Owner
  isPackage : Bool
  deriving DecidableEq

def Object.computeObjectReference (object : Object) : ObjectRef :=
  (object.id, object.version, object.digest)

/-! ## Changes of objects -/

/-- Whether an object exists before a transaction. -/
inductive ObjectIn
  | notExist
  | exist (version : SequenceNumber) (digest : ObjectDigest) (owner : Owner)
  deriving DecidableEq

/-- How a transaction leaves an object. -/
inductive ObjectOut
  | notExist
  | objectWrite (digest : ObjectDigest) (owner : Owner)
  | packageWrite (version : SequenceNumber) (digest : ObjectDigest)
  deriving DecidableEq

/-- Whether the identifier of an object is created or deleted. -/
inductive IDOperation
  | none
  | created
  | deleted
  deriving DecidableEq

structure EffectsObjectChange where
  inputState : ObjectIn
  outputState : ObjectOut
  idOperation : IDOperation
  deriving DecidableEq

/-- The change of an object, from what the execution recorded about it. -/
def EffectsObjectChange.new (modifiedAt : Option ((SequenceNumber × ObjectDigest) × Owner))
    (written : Option Object) (idCreated idDeleted : Bool) : EffectsObjectChange where
  inputState :=
    match modifiedAt with
    | some ((version, digest), owner) => .exist version digest owner
    | none => .notExist
  outputState :=
    match written with
    | some object =>
      if object.isPackage then .packageWrite object.version object.digest
      else .objectWrite object.digest object.owner
    | none => .notExist
  idOperation :=
    if idCreated then .created
    else if idDeleted then .deleted
    else .none

inductive ChangeClass
  | mutated (object : ObjectRef) (owner : Owner) (oldVersion : SequenceNumber)
  | created (object : ObjectRef) (owner : Owner)
  | unwrapped (object : ObjectRef) (owner : Owner)
  | deleted (object : ObjectRef) (oldVersion : SequenceNumber)
  | wrapped (object : ObjectRef) (oldVersion : SequenceNumber)
  | unwrappedThenDeleted (object : ObjectRef)
  | createdThenWrapped
  deriving DecidableEq

/-- The class of a change, unless the combination is impossible. -/
def classify (lamportVersion : SequenceNumber) (id : ObjectID)
    (change : EffectsObjectChange) : Option ChangeClass :=
  match change.inputState, change.outputState, change.idOperation with
  | .exist old _ _, .objectWrite digest owner, .none =>
    some (.mutated (id, lamportVersion, digest) owner old)
  | .exist old _ _, .packageWrite version digest, .none =>
    some (.mutated (id, version, digest) .immutable old)
  | .exist old _ _, .notExist, .deleted =>
    some (.deleted (id, lamportVersion, objectDigestDeleted) old)
  | .exist old _ _, .notExist, .none =>
    some (.wrapped (id, lamportVersion, objectDigestWrapped) old)
  | .notExist, .objectWrite digest owner, .created =>
    some (.created (id, lamportVersion, digest) owner)
  | .notExist, .packageWrite version digest, .created =>
    some (.created (id, version, digest) .immutable)
  | .notExist, .objectWrite digest owner, .none =>
    some (.unwrapped (id, lamportVersion, digest) owner)
  | .notExist, .notExist, .deleted =>
    some (.unwrappedThenDeleted (id, lamportVersion, objectDigestDeleted))
  | .notExist, .notExist, .created => some .createdThenWrapped
  | _, _, _ => none

/-! ## Effects -/

/-- The effects of a transaction, as far as the store uses them. -/
structure TransactionEffects where
  modifiedAtVersions : List ObjectKey
  sharedObjects : List ObjectRef
  transactionDigest : TransactionDigest
  created : List (ObjectRef × Owner)
  mutated : List (ObjectRef × Owner)
  unwrapped : List (ObjectRef × Owner)
  deleted : List ObjectRef
  unwrappedThenDeleted : List ObjectRef
  wrapped : List ObjectRef
  deriving DecidableEq

namespace ChangeClass

def mutated? : ChangeClass → Option (ObjectRef × Owner)
  | .mutated object owner _ => some (object, owner)
  | _ => none

def created? : ChangeClass → Option (ObjectRef × Owner)
  | .created object owner => some (object, owner)
  | _ => none

def unwrapped? : ChangeClass → Option (ObjectRef × Owner)
  | .unwrapped object owner => some (object, owner)
  | _ => none

def deleted? : ChangeClass → Option ObjectRef
  | .deleted object _ => some object
  | _ => none

def wrapped? : ChangeClass → Option ObjectRef
  | .wrapped object _ => some object
  | _ => none

def unwrappedThenDeleted? : ChangeClass → Option ObjectRef
  | .unwrappedThenDeleted object => some object
  | _ => none

/-- The version at which an object that is mutated was modified. -/
def modifiedAt? : ChangeClass → Option ObjectKey
  | .mutated object _ old => some (object.1, old)
  | _ => none

/-- The version at which an object that is deleted or wrapped was modified. -/
def deletedAt? : ChangeClass → Option ObjectKey
  | .deleted object old => some (object.1, old)
  | .wrapped object old => some (object.1, old)
  | _ => none

end ChangeClass

/-- The effects with given classes of changes. -/
def effectsOf (sharedObjects : List ObjectRef) (transactionDigest : TransactionDigest)
    (classes : List ChangeClass) : TransactionEffects where
  modifiedAtVersions :=
    classes.filterMap ChangeClass.modifiedAt? ++ classes.filterMap ChangeClass.deletedAt?
  sharedObjects := sharedObjects
  transactionDigest := transactionDigest
  created := classes.filterMap ChangeClass.created?
  mutated := classes.filterMap ChangeClass.mutated?
  unwrapped := classes.filterMap ChangeClass.unwrapped?
  deleted := classes.filterMap ChangeClass.deleted?
  unwrappedThenDeleted := classes.filterMap ChangeClass.unwrappedThenDeleted?
  wrapped := classes.filterMap ChangeClass.wrapped?

/-- The effects of an execution, whose changes are listed in the order of their
identifiers. -/
def newFromExecutionV2 (sharedObjects : List ObjectRef)
    (transactionDigest : TransactionDigest) (lamportVersion : SequenceNumber)
    (objectChanges : List (ObjectID × EffectsObjectChange)) : Option TransactionEffects := do
  let classes ← objectChanges.mapM fun change => classify lamportVersion change.1 change.2
  pure (effectsOf sharedObjects transactionDigest classes)

namespace TransactionEffects

/-- The objects that exist after the transaction. -/
def allChangedObjects (effects : TransactionEffects) : List (ObjectRef × Owner) :=
  effects.mutated ++ effects.created ++ effects.unwrapped

/-- The objects that existed before the transaction and do not any more.  Objects that
were unwrapped and then deleted are not among them. -/
def allRemovedObjects (effects : TransactionEffects) : List ObjectRef :=
  effects.deleted ++ effects.wrapped

end TransactionEffects

/-! ## The store

It keeps every version of every object, with a tombstone where an object is deleted or
wrapped, and a lock for every version of an owned object that may be used.  An executed
transaction is committed in one batch of writes; at the end of an epoch a transaction that
is in no checkpoint is reverted.

Events, the separate storage of large objects and the table of all transactions are left
out.  The digest of the effects of a transaction stands for the effects. -/

open Std (ExtTreeMap)
open Library (Write writeAll inserts deletes)
open Library.Map (lexPair)

/-- A version of an object in the store. -/
inductive StoreObject
  | value (object : Object)
  | deleted
  | wrapped
  deriving DecidableEq

/-- The transaction that a lock is set to. -/
structure LockDetails where
  epoch : EpochId
  txDigest : TransactionDigest
  deriving DecidableEq

/-- What is recorded about an object for the rest of an epoch. -/
inductive MarkerValue
  | received
  | ownedDeleted
  deriving DecidableEq

instance : Std.TransOrd ObjectRef := inferInstance

instance : LawfulBEq ObjectRef := inferInstance

/-- The tables of the store. -/
structure AuthorityStore where
  objects : ExtTreeMap ObjectKey StoreObject
  ownedObjectTransactionLocks : ExtTreeMap ObjectRef (Option LockDetails)
  executedEffects : ExtTreeMap TransactionDigest TransactionEffects
  objectPerEpochMarkerTable : ExtTreeMap (EpochId × ObjectKey) MarkerValue

/-- Writes to the tables that take effect at once. -/
structure WriteBatch where
  objects : List (Write ObjectKey StoreObject)
  locks : List (Write ObjectRef (Option LockDetails))
  executedEffects : List (Write TransactionDigest TransactionEffects)
  markers : List (Write (EpochId × ObjectKey) MarkerValue)

inductive SuiError
  | objectVersionUnavailableForConsumption (providedObjRef : ObjectRef)
      (currentVersion : SequenceNumber)
  | objectNotFound (objectId : ObjectID)
  | objectLockedAtFutureEpoch (objRefs : List ObjectRef) (lockedEpoch newEpoch : EpochId)
      (lockedByTx : TransactionDigest)
  | objectLockConflict (objRef : ObjectRef) (pendingTransaction : TransactionDigest)
  | objectLockAlreadyInitialized (refs : List ObjectRef)
  | sharedObjectReverted
  /-- A version of an object that must be present is missing. -/
  | olderObjectVersionNotFound (key : ObjectKey)
  deriving DecidableEq

/-- What an execution hands to the store. -/
structure InnerTemporaryStore where
  mutableInputs : List (ObjectID × (SequenceNumber × ObjectDigest) × Owner)
  written : List (ObjectID × Object)

structure VerifiedTransaction where
  digest : TransactionDigest
  receivingObjects : List ObjectRef

namespace AuthorityStore

/-- Apply a batch. -/
def write (store : AuthorityStore) (batch : WriteBatch) : AuthorityStore where
  objects := writeAll store.objects batch.objects
  ownedObjectTransactionLocks := writeAll store.ownedObjectTransactionLocks batch.locks
  executedEffects := writeAll store.executedEffects batch.executedEffects
  objectPerEpochMarkerTable := writeAll store.objectPerEpochMarkerTable batch.markers

/-! ## Locks -/

/-- The highest lock of an object. -/
def getLatestLockForObjectId (store : AuthorityStore) (objectId : ObjectID) :
    Except SuiError ObjectRef :=
  match (store.ownedObjectTransactionLocks.keys.filter fun key =>
      key.1 = objectId).getLast? with
  | some key => .ok key
  | none => .error (.objectNotFound objectId)

/-- The error about a lock that does not exist. -/
def missingLock (store : AuthorityStore) (objRef : ObjectRef) : Except SuiError Unit := do
  let latestLock ← store.getLatestLockForObjectId objRef.1
  .error (.objectVersionUnavailableForConsumption objRef latestLock.2.1)

def checkOwnedObjectLocksExist (store : AuthorityStore) (objects : List ObjectRef) :
    Except SuiError Unit :=
  objects.forM fun objRef =>
    match store.ownedObjectTransactionLocks[objRef]? with
    | none => store.missingLock objRef
    | some _ => .ok ()

/-- The writes that initialize locks. -/
def initializeLocks (store : AuthorityStore) (objects : List ObjectRef)
    (isForceReset : Bool) : Except SuiError (List (Write ObjectRef (Option LockDetails))) :=
  let existingLocks := objects.filter fun objRef =>
    (store.ownedObjectTransactionLocks[objRef]?.join).isSome
  if !isForceReset && !existingLocks.isEmpty then
    .error (.objectLockAlreadyInitialized existingLocks)
  else
    .ok (inserts (objects.map fun objRef => (objRef, none)))

/-- The write that sets one lock to a transaction, if it has to be written. -/
def lockToWrite (store : AuthorityStore) (epoch : EpochId) (ownedInputObjects : List ObjectRef)
    (txDigest : TransactionDigest) (objRef : ObjectRef) :
    Except SuiError (Option (ObjectRef × Option LockDetails)) :=
  match store.ownedObjectTransactionLocks[objRef]? with
  | none => do
    store.missingLock objRef
    pure none
  | some none => pure (some (objRef, some ⟨epoch, txDigest⟩))
  | some (some previous) =>
    if epoch < previous.epoch then
      .error (.objectLockedAtFutureEpoch ownedInputObjects previous.epoch epoch previous.txDigest)
    else if previous.epoch = epoch then
      if previous.txDigest ≠ txDigest then
        .error (.objectLockConflict objRef previous.txDigest)
      else
        pure none
    else
      pure (some (objRef, some ⟨epoch, txDigest⟩))

/-- The locks that a transaction has to write, read from the store. -/
def locksToWrite (store : AuthorityStore) (epoch : EpochId)
    (ownedInputObjects : List ObjectRef) (txDigest : TransactionDigest) :
    Except SuiError (List (ObjectRef × Option LockDetails)) := do
  let locks ← ownedInputObjects.mapM
    (store.lockToWrite epoch ownedInputObjects txDigest)
  pure (locks.filterMap id)

/-- Write the locks of a transaction. -/
def writeLocks (store : AuthorityStore) (locks : List (ObjectRef × Option LockDetails)) :
    AuthorityStore :=
  { store with
    ownedObjectTransactionLocks :=
      writeAll store.ownedObjectTransactionLocks (inserts locks) }

/-- Set the locks of some objects to a transaction, when nobody else writes in
between. -/
def acquireTransactionLocks (store : AuthorityStore) (epoch : EpochId)
    (ownedInputObjects : List ObjectRef) (txDigest : TransactionDigest) :
    Except SuiError AuthorityStore := do
  let locks ← store.locksToWrite epoch ownedInputObjects txDigest
  pure (store.writeLocks locks)

/-! ## Committing -/

/-- The objects that a transaction received. -/
def receivedObjects (effects : TransactionEffects) (transaction : VerifiedTransaction) :
    List ObjectRef :=
  transaction.receivingObjects.filter fun objRef =>
    (objRef.1, objRef.2.1) ∈ effects.modifiedAtVersions

/-- The owned inputs of a transaction. -/
def ownedInputs (inner : InnerTemporaryStore) : List ObjectRef :=
  inner.mutableInputs.filterMap fun input =>
    if input.2.2.isAddressOwned then some (input.1, input.2.1.1, input.2.1.2) else none

/-- The tombstones of a transaction. -/
def tombstones (effects : TransactionEffects) : List (ObjectKey × StoreObject) :=
  (effects.deleted ++ effects.unwrappedThenDeleted).map
      (fun objRef => ((objRef.1, objRef.2.1), .deleted)) ++
    effects.wrapped.map fun objRef => ((objRef.1, objRef.2.1), .wrapped)

/-- The objects that a transaction writes. -/
def newObjects (inner : InnerTemporaryStore) : List (ObjectKey × StoreObject) :=
  inner.written.map fun entry => ((entry.1, entry.2.version), .value entry.2)

/-- The locks of the objects that a transaction writes. -/
def newLocksToInit (inner : InnerTemporaryStore) : List ObjectRef :=
  inner.written.filterMap fun entry =>
    if entry.2.owner.isAddressOwned then some entry.2.computeObjectReference else none

/-- What is recorded about received and deleted objects. -/
def markersToPlace (effects : TransactionEffects) (transaction : VerifiedTransaction)
    (epoch : EpochId) : List ((EpochId × ObjectKey) × MarkerValue) :=
  (receivedObjects effects transaction).map
      (fun objRef => ((epoch, (objRef.1, objRef.2.1)), .received)) ++
    (effects.deleted ++ effects.wrapped ++ effects.unwrappedThenDeleted).map
      fun objRef => ((epoch, (objRef.1, objRef.2.1)), .ownedDeleted)

/-- The batch of a transaction. -/
def updateObjectsAndLocks (store : AuthorityStore) (inner : InnerTemporaryStore)
    (effects : TransactionEffects) (transaction : VerifiedTransaction) (epoch : EpochId) :
    Except SuiError WriteBatch := do
  store.checkOwnedObjectLocksExist (ownedInputs inner)
  let initialized ← store.initializeLocks (newLocksToInit inner) false
  pure {
    objects := inserts (tombstones effects) ++ inserts (newObjects inner)
    locks := initialized ++ deletes (ownedInputs inner) ++
      deletes (receivedObjects effects transaction)
    executedEffects := [.insert transaction.digest effects]
    markers := inserts (markersToPlace effects transaction epoch) }

/-- Commit an executed transaction. -/
def updateState (store : AuthorityStore) (inner : InnerTemporaryStore)
    (transaction : VerifiedTransaction) (effects : TransactionEffects) (epoch : EpochId) :
    Except SuiError AuthorityStore := do
  let batch ← store.updateObjectsAndLocks inner effects transaction epoch
  pure (store.write batch)

/-! ## Reverting -/

/-- The lock of an object that must be in the store, if it has one. -/
def lockOfKey (store : AuthorityStore) (key : ObjectKey) :
    Except SuiError (Option ObjectRef) :=
  match store.objects[key]? with
  | none => .error (.olderObjectVersionNotFound key)
  | some (.value object) =>
    if object.owner.isImmutable then
      pure none
    else if object.owner.isAddressOwned then
      pure (some object.computeObjectReference)
    else
      pure none
  | some _ => pure none

/-- The locks of objects that must be in the store. -/
def getObjectsAndLocks (store : AuthorityStore) (keys : List ObjectKey) :
    Except SuiError (List ObjectRef) := do
  let locks ← keys.mapM store.lockOfKey
  pure (locks.filterMap id)

/-- The keys of the objects that exist after a transaction. -/
def allNewObjectKeys (effects : TransactionEffects) : List ObjectKey :=
  effects.allChangedObjects.map fun entry => (entry.1.1, entry.1.2.1)

/-- The keys of the tombstones that are reverted. -/
def removedObjectKeys (effects : TransactionEffects) : List ObjectKey :=
  effects.allRemovedObjects.map fun objRef => (objRef.1, objRef.2.1)

/-- Revert a transaction that was executed. -/
def revertEffects (store : AuthorityStore) (txDigest : TransactionDigest)
    (effects : TransactionEffects) : Except SuiError AuthorityStore := do
  Library.require (effects.sharedObjects = []) .sharedObjectReverted
  let oldLocks ← store.getObjectsAndLocks effects.modifiedAtVersions
  let newLocks ← store.getObjectsAndLocks (allNewObjectKeys effects)
  let initialized ← store.initializeLocks oldLocks true
  pure (store.write {
    objects := deletes (removedObjectKeys effects) ++ deletes (allNewObjectKeys effects)
    locks := initialized ++ deletes newLocks
    executedEffects := [.delete txDigest]
    markers := [] })

/-- Revert a transaction, if it was executed. -/
def revertStateUpdate (store : AuthorityStore) (txDigest : TransactionDigest) :
    Except SuiError AuthorityStore :=
  match store.executedEffects[txDigest]? with
  | none => .ok store
  | some effects => store.revertEffects txDigest effects

/-! ## Reading -/

/-- The object in a row of the table. -/
def StoreObject.object : StoreObject → Option Object
  | .value object => some object
  | _ => none

/-- The rows of an object, by version. -/
def rows (store : AuthorityStore) (objectId : ObjectID) : List (ObjectKey × StoreObject) :=
  store.objects.toList.filter fun row => row.1.1 = objectId

/-- The object at its highest version. -/
def getObject (store : AuthorityStore) (objectId : ObjectID) : Option Object :=
  (store.rows objectId).getLast?.bind fun row => StoreObject.object row.2

/-- The object at a version. -/
def getObjectByKey (store : AuthorityStore) (objectId : ObjectID)
    (version : SequenceNumber) : Option Object :=
  store.objects[(objectId, version)]?.bind StoreObject.object

/-- An object that is alive. -/
inductive LiveObject
  | normal (object : Object)
  | wrapped (key : ObjectKey)
  deriving DecidableEq

def storeObjectToLiveObject (includeWrappedObject : Bool) (key : ObjectKey) :
    StoreObject → Option LiveObject
  | .value object => some (.normal object)
  | .wrapped => if includeWrappedObject then some (.wrapped key) else none
  | .deleted => none

/-- The last row of every object, from rows that are ordered by object and version.
The row before is kept until it is known whether it is the last one of its object. -/
def liveSetIter (includeWrappedObject : Bool) :
    Option (ObjectKey × StoreObject) → List (ObjectKey × StoreObject) → List LiveObject
  | none, [] => []
  | some (key, value), [] => (storeObjectToLiveObject includeWrappedObject key value).toList
  | none, next :: rows => liveSetIter includeWrappedObject (some next) rows
  | some (key, value), next :: rows =>
    if key.1 ≠ next.1.1 then
      (storeObjectToLiveObject includeWrappedObject key value).toList ++
        liveSetIter includeWrappedObject (some next) rows
    else
      liveSetIter includeWrappedObject (some next) rows

def iterLiveObjectSet (store : AuthorityStore) (includeWrappedObject : Bool) :
    List LiveObject :=
  liveSetIter includeWrappedObject none store.objects.toList

end AuthorityStore

end Sui.Authority
