import Sui.Authority.Store
import Sui.Library.Lru

/-!
# The transaction manager

Certified transactions are enqueued until their inputs are available and no other
transaction reads the inputs that they change.  A transaction waits for the locks of its
inputs.  When a transaction is committed, the objects that it wrote become available and
the read-only locks that it held are released; then the transactions that have all their
locks are sent to execution.

Enqueueing holds the lock of the manager twice: it first asks the cache which inputs are
available, then the database, without the lock, and takes the lock again to enqueue the
transactions.
-/

namespace Sui.TransactionManager

open Authority (ObjectID SequenceNumber TransactionDigest EpochId)
open Library (Lru)
open Option (map map_some getD_some)

/-! ## The cache of available objects

What is used least recently is forgotten, except while some caller needs all entries to
stay. -/

/-- A potential input to a transaction. -/
inductive InputKey
  | versionedObject (id : ObjectID) (version : SequenceNumber)
  | package (id : ObjectID)
  deriving DecidableEq

namespace InputKey

def id : InputKey → ObjectID
  | .versionedObject id _ => id
  | .package id => id

def version : InputKey → Option SequenceNumber
  | .versionedObject _ version => some version
  | .package _ => none

/-- Objects come before packages. -/
def rank : InputKey → Nat × ObjectID × SequenceNumber
  | .versionedObject id version => (0, id, version)
  | .package id => (1, id, 0)

instance : Ord InputKey :=
  ⟨compareOn rank⟩

instance : Std.TransOrd InputKey :=
  inferInstanceAs (Std.TransCmp (compareOn rank))

theorem rank_injective : Function.Injective rank := by
  intro left right same
  cases left with
  | versionedObject id version =>
    cases right with
    | versionedObject id' version' =>
      cases same
      rfl
    | package id' => cases same
  | package id =>
    cases right with
    | versionedObject id' version' => cases same
    | package id' =>
      cases same
      rfl

instance : Std.LawfulEqOrd InputKey where
  eq_of_compare {left right} same :=
    rank_injective
      (Std.LawfulEqOrd.eq_of_compare (show compare left.rank right.rank = .eq from same))

end InputKey

/-- Assertions and unwraps that end the process. -/
inductive Panic
  | sharedObjectLocksNotSet
  | unboundedCacheNotEnabled
  | entryMustAlreadyExist
  | objectNotChecked
  | inputCountIsZero
  | pendingCertificateMissing
  | lockNotWanted
  | lockAlreadyAcquired
  | lockAlreadyQueued
  | duplicatedPendingCertificate
  | locksIncomplete
  | alreadyExecuting
  | lockQueueMissing
  | notAmongReadonlyHolders
  deriving DecidableEq

/-! ## The entries -/

structure CacheInner where
  versionedCache : Lru ObjectID SequenceNumber
  unversionedCache : Lru ObjectID Unit
  maxSize : Nat

namespace CacheInner

def new (maxSize : Nat) : CacheInner where
  versionedCache := .unbounded
  unversionedCache := .unbounded
  maxSize := maxSize

def shrink (cache : CacheInner) : CacheInner :=
  { cache with
    versionedCache := cache.versionedCache.shrink cache.maxSize
    unversionedCache := cache.unversionedCache.shrink cache.maxSize }

def insert (cache : CacheInner) (object : InputKey) : CacheInner :=
  match object.version with
  | some version =>
    match cache.versionedCache.push object.id version with
    | (versionedCache, some (previousId, previousVersion)) =>
      -- The highest known version does not decrease.
      if previousId == object.id && decide (previousVersion > version) then
        { cache with versionedCache := (versionedCache.put object.id previousVersion).1 }
      else
        { cache with versionedCache := versionedCache }
    | (versionedCache, none) => { cache with versionedCache := versionedCache }
  | none =>
    { cache with unversionedCache := (cache.unversionedCache.push object.id ()).1 }

/-- A definitive answer, or none if the database has to be asked. -/
def isObjectAvailable (cache : CacheInner) (object : InputKey) :
    CacheInner × Option Bool :=
  match object.version with
  | some version =>
    match cache.versionedCache.get object.id with
    | (versionedCache, current) =>
      ({ cache with versionedCache := versionedCache },
        current.map fun current => decide (current ≥ version))
  | none =>
    match cache.unversionedCache.get object.id with
    | (unversionedCache, found) =>
      ({ cache with unversionedCache := unversionedCache }, found.map fun _ => true)

end CacheInner

structure AvailableObjectsCache where
  cache : CacheInner
  /-- How many callers need the entries to stay. -/
  unboundedCacheEnabled : Nat

namespace AvailableObjectsCache

def newWithSize (size : Nat) : AvailableObjectsCache where
  cache := .new size
  unboundedCacheEnabled := 0

def enableUnboundedCache (objects : AvailableObjectsCache) : AvailableObjectsCache :=
  { objects with unboundedCacheEnabled := objects.unboundedCacheEnabled + 1 }

def disableUnboundedCache (objects : AvailableObjectsCache) :
    Except Panic AvailableObjectsCache := do
  Library.require (objects.unboundedCacheEnabled > 0) .unboundedCacheNotEnabled
  return { objects with unboundedCacheEnabled := objects.unboundedCacheEnabled - 1 }

def insert (objects : AvailableObjectsCache) (object : InputKey) : AvailableObjectsCache :=
  if objects.unboundedCacheEnabled = 0 then
    { objects with cache := (objects.cache.insert object).shrink }
  else
    { objects with cache := objects.cache.insert object }

def isObjectAvailable (objects : AvailableObjectsCache) (object : InputKey) :
    AvailableObjectsCache × Option Bool :=
  match objects.cache.isObjectAvailable object with
  | (cache, answer) => ({ objects with cache := cache }, answer)

/-! ## What the cache says -/

/-- The highest version of an object that is cached. -/
def highest (objects : AvailableObjectsCache) (id : ObjectID) : Option SequenceNumber :=
  objects.cache.versionedCache.peek id

/-- The answer about an object, without using the entry. -/
def answer (objects : AvailableObjectsCache) : InputKey → Option Bool
  | .versionedObject id version =>
    (objects.highest id).map fun current => decide (current ≥ version)
  | .package id => (objects.cache.unversionedCache.peek id).map fun _ => true

variable (objects : AvailableObjectsCache)

include objects

@[simp] theorem isObjectAvailable_snd (object : InputKey) :
    (objects.isObjectAvailable object).2 = objects.answer object := by
  cases object with
  | versionedObject id version =>
    exact congrArg (map _) (Lru.get_snd objects.cache.versionedCache id)
  | package id =>
    exact congrArg (map _) (Lru.get_snd objects.cache.unversionedCache id)

@[simp] theorem highest_isObjectAvailable (object : InputKey) (id : ObjectID) :
    (objects.isObjectAvailable object).1.highest id = objects.highest id := by
  cases object with
  | versionedObject id' version => exact Lru.peek_get _ _ _
  | package id' => rfl

/-- A lookup does not change what the cache answers. -/
@[simp] theorem answer_isObjectAvailable (object lookup : InputKey) :
    (objects.isObjectAvailable object).1.answer lookup = objects.answer lookup := by
  cases lookup with
  | versionedObject id version =>
    simp only [answer, highest_isObjectAvailable]
  | package id =>
    cases object with
    | versionedObject id' version => rfl
    | package id' =>
      exact congrArg (map _) (Lru.peek_get objects.cache.unversionedCache id' id)

@[simp] theorem unboundedCacheEnabled_insert (object : InputKey) :
    (objects.insert object).unboundedCacheEnabled = objects.unboundedCacheEnabled := by
  unfold insert
  split <;> rfl

@[simp] theorem unboundedCacheEnabled_foldl_insert (keys : List InputKey) :
    (keys.foldl insert objects).unboundedCacheEnabled = objects.unboundedCacheEnabled := by
  induction keys generalizing objects with
  | nil => rfl
  | cons key keys ih =>
    rw [List.foldl_cons, ih, unboundedCacheEnabled_insert]

end AvailableObjectsCache

/-- The cache keeps the highest version of an object. -/
theorem CacheInner.peek_insert_versionedObject (cache : CacheInner) (id lookup : ObjectID)
    (version : SequenceNumber) :
    (cache.insert (.versionedObject id version)).versionedCache.peek lookup =
      if id = lookup then some (max version ((cache.versionedCache.peek id).getD 0))
      else cache.versionedCache.peek lookup := by
  cases previous : cache.versionedCache.peek id with
  | none =>
    simp [CacheInner.insert, InputKey.version, InputKey.id, Lru.push, previous]
  | some previousVersion =>
    by_cases higher : version < previousVersion
    · simp only [CacheInner.insert, InputKey.version, InputKey.id, Lru.push, Lru.put, previous,
        map_some, beq_self_eq_true, Bool.true_and, gt_iff_lt, higher, decide_true,
        ↓reduceIte, Lru.peek_touch, getD_some, max_eq_right higher.le]
      split <;> rfl
    · simp [CacheInner.insert, InputKey.version, InputKey.id, Lru.push, previous, higher,
        max_eq_left (not_lt.mp higher)]

namespace AvailableObjectsCache

variable {objects : AvailableObjectsCache}

section

variable (unbounded : objects.unboundedCacheEnabled ≠ 0)

include unbounded

/-- An answer that stays positive as long as nothing is forgotten. -/
theorem answer_insert_of_true (positive : objects.answer lookup = some true)
    (object : InputKey) :
    (objects.insert object).answer lookup = some true := by
  rw [insert, if_neg unbounded]
  cases object with
  | package id =>
    cases lookup with
    | versionedObject id' version => exact positive
    | package id' =>
      dsimp only [answer, CacheInner.insert, InputKey.version, InputKey.id, Lru.push]
      rw [Lru.peek_touch]
      split
      · rfl
      · exact positive
  | versionedObject id version =>
    cases lookup with
    | package id' =>
      have same : (objects.cache.insert (.versionedObject id version)).unversionedCache =
          objects.cache.unversionedCache := by
        unfold CacheInner.insert
        dsimp only [InputKey.version]
        split
        · split <;> rfl
        · rfl
      dsimp only [answer]
      rw [same]
      exact positive
    | versionedObject id' version' =>
      obtain ⟨current, found, high⟩ := Option.map_eq_some_iff.mp positive
      dsimp only [answer, highest]
      rw [CacheInner.peek_insert_versionedObject]
      unfold highest at found
      split
      · next same =>
        subst same
        rw [found, map_some, getD_some]
        have kept : max version current ≥ version' :=
          le_trans (of_decide_eq_true high) (le_max_right _ _)
        rw [decide_eq_true kept]
      · rw [found, map_some, high]

/-- What was just inserted is known to be available. -/
theorem answer_insert_self (object : InputKey) :
    (objects.insert object).answer object = some true := by
  rw [insert, if_neg unbounded]
  cases object with
  | package id =>
    dsimp only [answer, CacheInner.insert, InputKey.version, InputKey.id, Lru.push]
    rw [Lru.peek_touch, if_pos rfl]
    rfl
  | versionedObject id version =>
    dsimp only [answer, highest]
    rw [CacheInner.peek_insert_versionedObject, if_pos rfl, map_some,
      decide_eq_true (le_max_left _ _ : max version _ ≥ version)]

/-- Packages do not change what is known about objects. -/
theorem highest_insert_package (id lookup : ObjectID) :
    (objects.insert (.package id)).highest lookup = objects.highest lookup := by
  rw [insert, if_neg unbounded]
  rfl

end

end AvailableObjectsCache

end Sui.TransactionManager

/-! ## The manager -/

namespace Sui

namespace TransactionManager

open Authority (ObjectID SequenceNumber TransactionDigest EpochId ObjectRef)
open Std (ExtTreeMap ExtTreeSet)
open Library (require)

/-- How a transaction locks an input. -/
inductive LockMode
  /-- The input is available and nobody waits for or holds a read-only lock on it. -/
  | default
  | readOnly
  deriving DecidableEq

/-- The digest of the effects that are expected from a transaction. -/
abbrev TransactionEffectsDigest := Nat

inductive InputObjectKind
  | movePackage (id : ObjectID)
  | immOrOwnedMoveObject (objRef : ObjectRef)
  | sharedMoveObject (id : ObjectID) (initialSharedVersion : SequenceNumber) (mutable : Bool)
  deriving DecidableEq

structure VerifiedExecutableTransaction where
  digest : TransactionDigest
  epoch : EpochId
  inputObjects : List InputObjectKind
  receivingObjects : List ObjectRef
  deriving DecidableEq

/-- The mode in which every input is locked. -/
abbrev Locks := ExtTreeMap InputKey LockMode

structure PendingCertificate where
  certificate : VerifiedExecutableTransaction
  expectedEffectsDigest : Option TransactionEffectsDigest
  acquiringLocks : Locks
  acquiredLocks : Locks

/-! ## The queue of a lock -/

/-- The transactions that wait for or hold a lock on an object. -/
structure LockQueue where
  readonlyWaiters : ExtTreeSet TransactionDigest
  readonlyHolders : ExtTreeSet TransactionDigest
  defaultWaiters : ExtTreeSet TransactionDigest

namespace LockQueue

def empty : LockQueue :=
  ⟨∅, ∅, ∅⟩

def hasReadonly (queue : LockQueue) : Bool :=
  !(queue.readonlyWaiters.isEmpty && queue.readonlyHolders.isEmpty)

def isEmpty (queue : LockQueue) : Bool :=
  queue.readonlyWaiters.isEmpty && queue.readonlyHolders.isEmpty && queue.defaultWaiters.isEmpty

def waiters (queue : LockQueue) : LockMode → ExtTreeSet TransactionDigest
  | .default => queue.defaultWaiters
  | .readOnly => queue.readonlyWaiters

/-- The transactions that can acquire the lock, and what is left in the queue. -/
def takeWaiters (queue : LockQueue) : ExtTreeSet TransactionDigest × LockQueue :=
  if !queue.readonlyWaiters.isEmpty then
    (queue.readonlyWaiters,
      { queue with
        readonlyWaiters := ∅
        readonlyHolders := queue.readonlyHolders ∪ queue.readonlyWaiters })
  else if queue.readonlyHolders.isEmpty then
    (queue.defaultWaiters, { queue with defaultWaiters := ∅ })
  else
    (∅, queue)

/-- Wait for the lock. -/
def insertWaiter (queue : LockQueue) (digest : TransactionDigest) :
    LockMode → Except Panic LockQueue
  | .default => do
    require (digest ∉ queue.defaultWaiters) .lockAlreadyQueued
    return { queue with defaultWaiters := queue.defaultWaiters.insert digest }
  | .readOnly => do
    require (digest ∉ queue.readonlyWaiters) .lockAlreadyQueued
    return { queue with readonlyWaiters := queue.readonlyWaiters.insert digest }

/-- Hold the read-only lock. -/
def insertHolder (queue : LockQueue) (digest : TransactionDigest) : Except Panic LockQueue := do
  require (digest ∉ queue.readonlyHolders) .lockAlreadyQueued
  return { queue with readonlyHolders := queue.readonlyHolders.insert digest }

/-- Give up the read-only lock. -/
def removeHolder (queue : LockQueue) (digest : TransactionDigest) : Except Panic LockQueue := do
  require (digest ∈ queue.readonlyHolders) .notAmongReadonlyHolders
  return { queue with readonlyHolders := queue.readonlyHolders.erase digest }

end LockQueue

/-! ## The tables -/

abbrev PendingCertificates := ExtTreeMap TransactionDigest PendingCertificate

structure Inner where
  epoch : EpochId
  lockWaiters : ExtTreeMap InputKey LockQueue
  /-- How many locks on versions of an object are waited for. -/
  inputObjects : ExtTreeMap ObjectID Nat
  availableObjectsCache : AvailableObjectsCache
  pendingCertificates : PendingCertificates
  executingCertificates : ExtTreeMap TransactionDigest Locks

namespace Inner

def new (epoch : EpochId) (cacheSize : Nat) : Inner where
  epoch := epoch
  lockWaiters := ∅
  inputObjects := ∅
  availableObjectsCache := .newWithSize cacheSize
  pendingCertificates := ∅
  executingCertificates := ∅

/-- A waiter acquires the lock.  It is ready when it has all locks. -/
def acquireLock (inputKey : InputKey) :
    PendingCertificates × List PendingCertificate → TransactionDigest →
      Except Panic (PendingCertificates × List PendingCertificate)
  | (pendingCertificates, readyCertificates), digest =>
    match pendingCertificates[digest]? with
    | none => .error .pendingCertificateMissing
    | some pendingCert =>
      match pendingCert.acquiringLocks[inputKey]? with
      | none => .error .lockNotWanted
      | some lockMode => do
        require (pendingCert.acquiredLocks[inputKey]? = none) .lockAlreadyAcquired
        let acquired : PendingCertificate := { pendingCert with
          acquiringLocks := pendingCert.acquiringLocks.erase inputKey
          acquiredLocks := pendingCert.acquiredLocks.insert inputKey lockMode }
        if acquired.acquiringLocks.isEmpty then
          return (pendingCertificates.erase digest, readyCertificates ++ [acquired])
        else
          return (pendingCertificates.insert digest acquired, readyCertificates)

/-- Let the transactions that wait for a lock acquire it, if they can. -/
def tryAcquireLock (inner : Inner) (inputKey : InputKey) (updateCache : Bool) :
    Except Panic (Inner × List PendingCertificate) :=
  let inner := if updateCache then
      { inner with availableObjectsCache := inner.availableObjectsCache.insert inputKey }
    else
      inner
  match inner.lockWaiters[inputKey]? with
  | none => .ok (inner, [])
  | some lockQueue =>
    match lockQueue.takeWaiters with
    | (digests, lockQueue) => do
      let lockWaiters := if lockQueue.isEmpty then
          inner.lockWaiters.erase inputKey
        else
          inner.lockWaiters.insert inputKey lockQueue
      if digests.isEmpty then
        return ({ inner with lockWaiters := lockWaiters }, [])
      else
        match inner.inputObjects[inputKey.id]? with
        | none => .error .inputCountIsZero
        | some inputCount => do
          let inputCount ← Library.checkedSub .inputCountIsZero inputCount digests.size
          let inputObjects := if inputCount = 0 then
              inner.inputObjects.erase inputKey.id
            else
              inner.inputObjects.insert inputKey.id inputCount
          let (pendingCertificates, readyCertificates) ←
            digests.toList.foldlM (acquireLock inputKey) (inner.pendingCertificates, [])
          return ({ inner with
            lockWaiters := lockWaiters
            inputObjects := inputObjects
            pendingCertificates := pendingCertificates }, readyCertificates)

end Inner

end TransactionManager

/-- The tables of the manager, and all certificates that it has sent to execution. -/
structure TransactionManager where
  inner : TransactionManager.Inner
  txReadyCertificates : List (TransactionManager.VerifiedExecutableTransaction ×
    Option TransactionManager.TransactionEffectsDigest)

namespace TransactionManager

open Authority (ObjectID SequenceNumber TransactionDigest EpochId ObjectRef)
open Std (ExtTreeMap ExtTreeSet)
open Library (require)

/-- Send a ready certificate to execution. -/
def certificateReady (manager : TransactionManager) (pendingCertificate : PendingCertificate) :
    Except Panic TransactionManager := do
  let cert := pendingCertificate.certificate
  require (pendingCertificate.acquiredLocks.size =
    cert.inputObjects.length + cert.receivingObjects.length) .locksIncomplete
  require (manager.inner.executingCertificates[cert.digest]? = none) .alreadyExecuting
  return {
    inner := { manager.inner with
      executingCertificates := manager.inner.executingCertificates.insert cert.digest
        pendingCertificate.acquiredLocks }
    txReadyCertificates := manager.txReadyCertificates ++
      [(cert, pendingCertificate.expectedEffectsDigest)] }

/-- Give out a lock, and send the certificates that are ready then. -/
def acquireAndSend (manager : TransactionManager) (inputKey : InputKey) (updateCache : Bool) :
    Except Panic TransactionManager := do
  let (inner, readyCertificates) ← manager.inner.tryAcquireLock inputKey updateCache
  readyCertificates.foldlM certificateReady { manager with inner := inner }

/-! ## Enqueueing -/

/-- Add the lock of an input.  The versions of shared objects are assigned before. -/
def insertInputObjectLock (sharedLocks : ExtTreeMap ObjectID SequenceNumber) (locks : Locks) :
    InputObjectKind → Except Panic Locks
  | .sharedMoveObject id _ mutable =>
    match sharedLocks[id]? with
    | none => .error .sharedObjectLocksNotSet
    | some version =>
      .ok (locks.insert (.versionedObject id version) (if mutable then .default else .readOnly))
  | .movePackage id => .ok (locks.insert (.package id) .default)
  | .immOrOwnedMoveObject objRef =>
    .ok (locks.insert (.versionedObject objRef.1 objRef.2.1) .default)

def getInputObjectLocks (sharedLocks : ExtTreeMap ObjectID SequenceNumber)
    (objects : List InputObjectKind) : Except Panic Locks :=
  objects.foldlM (insertInputObjectLock sharedLocks) ∅

/-- The keys of the objects that a transaction receives. -/
def receivingKeys (cert : VerifiedExecutableTransaction) : List InputKey :=
  cert.receivingObjects.map fun entry => .versionedObject entry.1 entry.2.1

/-- The locks of the inputs and of the objects that are received. -/
def inputLocks (sharedLocks : ExtTreeMap ObjectID SequenceNumber)
    (cert : VerifiedExecutableTransaction) : Except Panic Locks := do
  let locks ← getInputObjectLocks sharedLocks cert.inputObjects
  return (receivingKeys cert).foldl (fun locks key => locks.insert key .default) locks

/-- A certificate to be enqueued, with the locks of its inputs. -/
abbrev Request :=
  VerifiedExecutableTransaction × Option TransactionEffectsDigest × Locks

/-- A call between the two times that it holds the lock of the manager. -/
structure EnqueueCall where
  certs : List Request
  receivingObjects : List InputKey
  /-- The inputs of all certificates, in the order in which the table of their
  availability is traversed. -/
  order : List InputKey
  objectAvailability : ExtTreeMap InputKey (Option Bool)
  cacheMissAvailability : List (Bool × InputKey)

namespace EnqueueCall

/-- The inputs about which the cache knows nothing. -/
def inputObjectCacheMisses (call : EnqueueCall) : List InputKey :=
  call.order.filter fun key => call.objectAvailability[key]? = some none

end EnqueueCall

/-- Ask the cache about an input. -/
def lookUpCache :
    AvailableObjectsCache × ExtTreeMap InputKey (Option Bool) → InputKey →
      AvailableObjectsCache × ExtTreeMap InputKey (Option Bool)
  | (objects, objectAvailability), key =>
    match objects.isObjectAvailable key with
    | (objects, some available) => (objects, objectAvailability.insert key (some available))
    | (objects, none) => (objects, objectAvailability)

/-- The first part of enqueueing: what was executed is skipped, the locks of the rest are
determined, and the cache is asked about the inputs. -/
def beginEnqueue (manager : TransactionManager) (isTxAlreadyExecuted : TransactionDigest → Bool)
    (getSharedLocks : TransactionDigest → ExtTreeMap ObjectID SequenceNumber)
    (certs : List (VerifiedExecutableTransaction × Option TransactionEffectsDigest))
    (order : List InputKey) : Except Panic (TransactionManager × EnqueueCall) := do
  let certs := certs.filter fun cert => !isTxAlreadyExecuted cert.1.digest
  let certs ← certs.mapM fun cert =>
    (fun locks => (cert.1, cert.2, locks)) <$> inputLocks (getSharedLocks cert.1.digest) cert.1
  let unknown := order.foldl (fun objectAvailability key => objectAvailability.insert key none)
    (∅ : ExtTreeMap InputKey (Option Bool))
  let (objects, objectAvailability) :=
    order.foldl lookUpCache (manager.inner.availableObjectsCache, unknown)
  return ({ manager with
      inner := { manager.inner with availableObjectsCache := objects.enableUnboundedCache } },
    { certs := certs
      receivingObjects := certs.flatMap fun cert => receivingKeys cert.1
      order := order
      objectAvailability := objectAvailability
      cacheMissAvailability := [] })

/-- Record an answer of the database.  Available packages are put into the cache. -/
def recordAvailability :
    AvailableObjectsCache × ExtTreeMap InputKey (Option Bool) → Bool × InputKey →
      Except Panic (AvailableObjectsCache × ExtTreeMap InputKey (Option Bool))
  | (objects, objectAvailability), (available, key) => do
    let inserted := if available && key.version.isNone then objects.insert key else objects
    require (objectAvailability[key]? ≠ none) .entryMustAlreadyExist
    return (inserted, objectAvailability.insert key (some available))

/-- Ask the cache again about an input that was not available. -/
def recheckAvailability :
    AvailableObjectsCache × ExtTreeMap InputKey (Option Bool) → InputKey →
      Except Panic (AvailableObjectsCache × ExtTreeMap InputKey (Option Bool))
  | (objects, objectAvailability), key =>
    match objectAvailability[key]? with
    | some (some true) => .ok (objects, objectAvailability)
    | some (some false) =>
      match objects.isObjectAvailable key with
      | (objects, some true) => .ok (objects, objectAvailability.insert key (some true))
      | (objects, _) => .ok (objects, objectAvailability)
    | _ => .error .objectNotChecked

def waitForLock (digest : TransactionDigest) (key : InputKey) (lockMode : LockMode)
    (inner : Inner) (pendingCert : PendingCertificate) :
    Except Panic (Inner × PendingCertificate) := do
  let lockQueue ← (inner.lockWaiters[key]?.getD .empty).insertWaiter digest lockMode
  let inputCount := inner.inputObjects[key.id]?.getD 0
  return ({ inner with
      lockWaiters := inner.lockWaiters.insert key lockQueue
      inputObjects := inner.inputObjects.insert key.id (inputCount + 1) },
    { pendingCert with acquiringLocks := pendingCert.acquiringLocks.insert key lockMode })

/-- Acquire a lock, or wait for it. -/
def enqueueLock (objectAvailability : ExtTreeMap InputKey (Option Bool))
    (digest : TransactionDigest) :
    Inner × PendingCertificate → InputKey × LockMode → Except Panic (Inner × PendingCertificate)
  | (inner, pendingCert), (key, lockMode) =>
    let acquired : PendingCertificate := { pendingCert with
      acquiredLocks := pendingCert.acquiredLocks.insert key lockMode }
    match objectAvailability[key]? with
    | some (some false) => waitForLock digest key lockMode inner pendingCert
    | some (some true) =>
      match lockMode with
      | .default =>
        -- All read-only locks have to be released first.
        if (inner.lockWaiters[key]?.getD .empty).hasReadonly then
          waitForLock digest key .default inner pendingCert
        else
          .ok (inner, acquired)
      | .readOnly => do
        let lockQueue ← (inner.lockWaiters[key]?.getD .empty).insertHolder digest
        return ({ inner with lockWaiters := inner.lockWaiters.insert key lockQueue }, acquired)
    | _ => .error .objectNotChecked

/-- Enqueue a certificate, or send it if it has all its locks.  A certificate of another
epoch, one that is enqueued and one that was executed is skipped. -/
def enqueueCertificate (isTxAlreadyExecuted : TransactionDigest → Bool)
    (objectAvailability : ExtTreeMap InputKey (Option Bool))
    (manager : TransactionManager) : Request → Except Panic TransactionManager
  | (cert, expectedEffectsDigest, inputObjectLocks) =>
    if manager.inner.epoch ≠ cert.epoch then
      .ok manager
    else if (manager.inner.pendingCertificates[cert.digest]?).isSome then
      .ok manager
    else if (manager.inner.executingCertificates[cert.digest]?).isSome then
      .ok manager
    else if isTxAlreadyExecuted cert.digest then
      .ok manager
    else do
      let (inner, pendingCert) ← inputObjectLocks.toList.foldlM
        (enqueueLock objectAvailability cert.digest)
        (manager.inner, ⟨cert, expectedEffectsDigest, ∅, ∅⟩)
      if pendingCert.acquiringLocks.isEmpty then
        certificateReady { manager with inner := inner } pendingCert
      else
        require (inner.pendingCertificates[cert.digest]? = none) .duplicatedPendingCertificate
        return { manager with
          inner := { inner with
            pendingCertificates := inner.pendingCertificates.insert cert.digest pendingCert } }

/-- The second part of enqueueing: what the cache was told since the first part is taken
into account, and the certificates are enqueued. -/
def endEnqueue (manager : TransactionManager) (isTxAlreadyExecuted : TransactionDigest → Bool)
    (call : EnqueueCall) : Except Panic TransactionManager := do
  let (objects, objectAvailability) ← call.cacheMissAvailability.foldlM recordAvailability
    (manager.inner.availableObjectsCache, call.objectAvailability)
  let (objects, objectAvailability) ←
    call.order.foldlM recheckAvailability (objects, objectAvailability)
  let objects ← objects.disableUnboundedCache
  call.certs.foldlM (enqueueCertificate isTxAlreadyExecuted objectAvailability)
    { manager with inner := { manager.inner with availableObjectsCache := objects } }

/-! ## Commits -/

def objectsAvailableLocked (manager : TransactionManager) (epoch : EpochId)
    (inputKeys : List InputKey) (updateCache : Bool) : Except Panic TransactionManager :=
  if manager.inner.epoch ≠ epoch then
    .ok manager
  else
    inputKeys.foldlM (fun manager inputKey => manager.acquireAndSend inputKey updateCache) manager

/-- Release a lock of a committed transaction.  Holders of default locks are not
tracked. -/
def releaseLock (digest : TransactionDigest) (manager : TransactionManager) :
    InputKey × LockMode → Except Panic TransactionManager
  | (_, .default) => .ok manager
  | (key, .readOnly) =>
    match manager.inner.lockWaiters[key]? with
    | none => .error .lockQueueMissing
    | some lockQueue => do
      let lockQueue ← lockQueue.removeHolder digest
      acquireAndSend { manager with
        inner := { manager.inner with
          lockWaiters := manager.inner.lockWaiters.insert key lockQueue } } key true

def notifyCommit (manager : TransactionManager) (digest : TransactionDigest)
    (outputObjectKeys : List InputKey) (epoch : EpochId) : Except Panic TransactionManager :=
  if manager.inner.epoch ≠ epoch then
    .ok manager
  else do
    let manager ← manager.objectsAvailableLocked epoch outputObjectKeys true
    match manager.inner.executingCertificates[digest]? with
    | none => return manager
    | some acquiredLocks =>
      acquiredLocks.toList.foldlM (releaseLock digest) { manager with
        inner := { manager.inner with
          executingCertificates := manager.inner.executingCertificates.erase digest } }

end TransactionManager

end Sui
