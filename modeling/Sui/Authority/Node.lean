import Sui.Authority.Revert
import Sui.Library.Run

/-!
# Signing and committing at the same time

Signing a transaction takes the locks of its owned inputs: the locks are read, and
written later.  The mutexes of the objects are held in between, so that no two calls
for one object overlap.  A commit does not take the mutexes.  It reads the locks of the
owned inputs, then those of the objects that it writes, and then writes one batch.

At the end of an epoch nothing is being committed, and some transactions are reverted.
-/

namespace Sui.Authority

open Library
open List hiding after
open AuthorityStore

/-- A call that has read the locks and has to write them. -/
structure Acquire where
  ownedInputObjects : List ObjectRef
  txDigest : TransactionDigest
  locksToWrite : List (ObjectRef × Option LockDetails)

/-- A lock that was given to a transaction. -/
structure Grant where
  epoch : EpochId
  objRef : ObjectRef
  txDigest : TransactionDigest
  deriving DecidableEq

/-- An authority, with the calls that are in progress. -/
structure Node where
  store : AuthorityStore
  epoch : EpochId
  acquiring : List Acquire
  /-- Commits that have found the locks of their owned inputs. -/
  checked : List Execution
  prepared : List Execution
  /-- The locks for which a call returned successfully. -/
  granted : List Grant
  committed : List Execution

inductive Action
  /-- Take the mutexes and read the locks. -/
  | beginAcquire (ownedInputObjects : List ObjectRef) (txDigest : TransactionDigest)
  /-- Write the locks and return. -/
  | endAcquire (index : Nat)
  | checkLocks (execution : Execution)
  /-- Check the locks of the objects that are written. -/
  | prepare (index : Nat)
  | write (index : Nat)
  /-- Revert transactions and start the next epoch. -/
  | reconfigure (reverted : List TransactionDigest)

namespace Node

/-- Some mutex that is needed is taken. -/
def blocked (node : Node) (ownedInputObjects : List ObjectRef) : Prop :=
  ∃ acquire ∈ node.acquiring, ∃ held ∈ acquire.ownedInputObjects,
    ∃ wanted ∈ ownedInputObjects, held.2.2 = wanted.2.2

instance (node : Node) (ownedInputObjects : List ObjectRef) :
    Decidable (node.blocked ownedInputObjects) :=
  inferInstanceAs (Decidable (∃ acquire ∈ node.acquiring, _))

/-- Revert transactions one after the other. -/
def revertAll (store : AuthorityStore) (digests : List TransactionDigest) :
    Except SuiError AuthorityStore :=
  digests.foldlM revertStateUpdate store

def perform (node : Node) : Action → Option Node
  | .beginAcquire ownedInputObjects txDigest =>
    if node.blocked ownedInputObjects then
      none
    else
      match node.store.locksToWrite node.epoch ownedInputObjects txDigest with
      | .ok locksToWrite =>
        some { node with
          acquiring := node.acquiring ++ [⟨ownedInputObjects, txDigest, locksToWrite⟩] }
      | .error _ => some node
  | .endAcquire index =>
    node.acquiring[index]?.map fun acquire =>
      { node with
        store := node.store.writeLocks acquire.locksToWrite
        acquiring := node.acquiring.eraseIdx index
        granted := node.granted ++ acquire.ownedInputObjects.map fun objRef =>
          ⟨node.epoch, objRef, acquire.txDigest⟩ }
  | .checkLocks execution =>
    match node.store.checkOwnedObjectLocksExist (ownedInputs execution.inner) with
    | .ok _ => some { node with checked := node.checked ++ [execution] }
    | .error _ => some node
  | .prepare index =>
    node.checked[index]?.map fun execution =>
      match node.store.initializeLocks (newLocksToInit execution.inner) false with
      | .ok _ =>
        { node with
          checked := node.checked.eraseIdx index
          prepared := node.prepared ++ [execution] }
      | .error _ => { node with checked := node.checked.eraseIdx index }
  | .write index =>
    node.prepared[index]?.map fun execution =>
      { node with
        store := node.store.write (execution.batch node.epoch)
        prepared := node.prepared.eraseIdx index
        committed := node.committed ++ [execution] }
  | .reconfigure reverted =>
    if node.checked.isEmpty && node.prepared.isEmpty then
      (revertAll node.store reverted).toOption.map fun store =>
        { node with
          store := store
          epoch := node.epoch + 1
          committed := node.committed.filter fun execution =>
            execution.transaction.digest ∉ reverted }
    else
      none

/-- A call whose locks are written before anybody else writes acquires them all. -/
theorem perform_acquireTransactionLocks {node : Node} {written : AuthorityStore}
    (free : ¬ node.blocked ownedInputObjects)
    (acquired : node.store.acquireTransactionLocks node.epoch ownedInputObjects txDigest =
      .ok written) :
    ∃ began ended, node.perform (.beginAcquire ownedInputObjects txDigest) = some began ∧
      began.perform (.endAcquire node.acquiring.length) = some ended ∧ ended.store = written ∧
      ended.acquiring = node.acquiring := by
  obtain ⟨locks, read, isWritten⟩ := bind_eq_ok.mp acquired
  cases isWritten
  have began : node.perform (.beginAcquire ownedInputObjects txDigest) = some { node with
      acquiring := node.acquiring ++ [⟨ownedInputObjects, txDigest, locks⟩] } := by
    rw [perform, if_neg free, read]
  refine ⟨_, _, began, congrArg (Option.map _) getElem?_concat_length, rfl, ?_⟩
  exact (eraseIdx_append_of_length_le le_rfl _).trans (by simp)

/-- No later transaction built on what is reverted: the rows of every transaction are
the latest ones when it is reverted. -/
def LatestFirst : AuthorityStore → List TransactionDigest → Prop
  | _, [] => True
  | store, digest :: digests =>
    match store.executedEffects[digest]? with
    | none => LatestFirst store digests
    | some effects =>
      (∀ key ∈ outKeys effects, ∀ row ∈ store.rows key.1, row.1.2 ≤ key.2) ∧
        LatestFirst (store.reverted digest effects) digests

instance decidableLatestFirst :
    (store : AuthorityStore) → (digests : List TransactionDigest) →
      Decidable (LatestFirst store digests)
  | _, [] => isTrue trivial
  | store, digest :: digests => by
      unfold LatestFirst
      exact
        match store.executedEffects[digest]? with
        | none => decidableLatestFirst store digests
        | some effects =>
          have := decidableLatestFirst (store.reverted digest effects) digests
          inferInstanceAs (Decidable (_ ∧ _))

/-- What the store relies on: a batch is written for an execution on the current store,
and at the end of an epoch no locks are being taken and only what nothing builds on is
reverted. -/
def Allowed (node : Node) : Action → Prop
  | .write index => ∀ execution ∈ node.prepared[index]?, execution.Executes node.store
  | .reconfigure reverted => node.acquiring.isEmpty ∧ LatestFirst node.store reverted
  | _ => True

instance (node : Node) : (action : Action) → Decidable (node.Allowed action)
  | .write index => inferInstanceAs (Decidable (∀ execution ∈ node.prepared[index]?,
      execution.Executes node.store))
  | .reconfigure reverted =>
    have := decidableLatestFirst node.store reverted
    inferInstanceAs (Decidable (_ ∧ _))
  | .beginAcquire _ _ | .endAcquire _ | .checkLocks _ | .prepare _ => isTrue trivial

/-- The objects of the first epoch.  All but child objects have a lock. -/
def genesisStore (objects : List Object) : AuthorityStore where
  objects := writeAll ∅ (inserts (objects.map fun object =>
    ((object.id, object.version), .value object)))
  ownedObjectTransactionLocks := writeAll ∅ (inserts
    ((objects.filter fun object => !object.owner.isChildObject).map fun object =>
      (object.computeObjectReference, none)))
  executedEffects := ∅
  objectPerEpochMarkerTable := ∅

def genesis (objects : List Object) : Node where
  store := genesisStore objects
  epoch := 0
  acquiring := []
  checked := []
  prepared := []
  granted := []
  committed := []

/-- A node that signing, committing and reconfiguring can lead to. -/
def Reachable (node : Node) : Prop :=
  ∃ objects : List Object, (objects.map Object.id).Nodup ∧
    Run perform Allowed (genesis objects) node

/-! ## What holds along every run -/

/-- The store is sound, and a lock is only written where there may be one. -/
structure Sound (node : Node) : Prop where
  store : node.store.Sound
  pending : ∀ acquire ∈ node.acquiring, ∀ entry ∈ acquire.locksToWrite, node.store.Lockable entry.1

variable {store : AuthorityStore}

/-- What is read before a lock is written. -/
theorem lockToWrite_eq_ok {epoch : EpochId}
    (returned : store.lockToWrite epoch ownedInputObjects txDigest objRef = .ok lock) :
    (store.ownedObjectTransactionLocks[objRef]?).isSome ∧
      (∀ other, store.ownedObjectTransactionLocks[objRef]? = some (some ⟨epoch, other⟩) →
        other = txDigest) ∧
      (lock = some (objRef, some ⟨epoch, txDigest⟩) ∨ lock = none ∧
          store.ownedObjectTransactionLocks[objRef]? = some (some ⟨epoch, txDigest⟩)) := by
  rw [lockToWrite] at returned
  cases isLock : store.ownedObjectTransactionLocks[objRef]? with
  | none =>
    rw [isLock] at returned
    obtain ⟨_, missing, _⟩ := bind_eq_ok.mp returned
    obtain ⟨_, _, impossible⟩ := bind_eq_ok.mp missing
    cases impossible
  | some previous =>
    rw [isLock] at returned
    cases previous with
    | none =>
      cases returned
      exact ⟨rfl, fun other impossible => (by cases impossible), .inl rfl⟩
    | some previous =>
      obtain ⟨previousEpoch, previousTx⟩ := previous
      dsimp only at returned
      split at returned
      case isTrue => cases returned
      case isFalse =>
        split at returned
        case isTrue sameEpoch =>
          split at returned
          case isTrue => cases returned
          case isFalse sameTx =>
            cases returned
            rw [not_not] at sameTx
            obtain rfl := sameEpoch
            obtain rfl := sameTx
            exact ⟨rfl, fun other same => (by cases same; rfl), .inr ⟨rfl, rfl⟩⟩
        case isFalse otherEpoch =>
          cases returned
          refine ⟨rfl, fun other same => ?_, .inl rfl⟩
          cases same
          exact absurd rfl otherEpoch

/-- What is read before locks are written. -/
theorem locksToWrite_eq_ok {epoch : EpochId}
    (returned : store.locksToWrite epoch ownedInputObjects txDigest = .ok locks) :
    (∀ entry ∈ locks, entry.1 ∈ ownedInputObjects ∧ entry.2 = some ⟨epoch, txDigest⟩) ∧
      ∀ objRef ∈ ownedInputObjects, (store.ownedObjectTransactionLocks[objRef]?).isSome ∧
          (∀ other, store.ownedObjectTransactionLocks[objRef]? = some (some ⟨epoch, other⟩) →
            other = txDigest) ∧
          ((objRef, some ⟨epoch, txDigest⟩) ∈ locks ∨
            store.ownedObjectTransactionLocks[objRef]? = some (some ⟨epoch, txDigest⟩)) := by
  obtain ⟨results, mapped, filtered⟩ := bind_eq_ok.mp returned
  obtain rfl := pure_eq_ok.mp filtered
  have all := mapM_eq_ok.mp mapped
  have flipped : List.Forall₂ (fun result objRef =>
      store.lockToWrite epoch ownedInputObjects txDigest objRef = .ok result) results
      ownedInputObjects := all.flip
  constructor
  · intro entry listed
    rw [mem_filterMap] at listed
    obtain ⟨result, isResult, rfl⟩ := listed
    obtain ⟨objRef, isObject, read⟩ := exists_of_forall₂ all isResult
    obtain ⟨_, _, same | ⟨impossible, _⟩⟩ := lockToWrite_eq_ok read
    · cases same
      exact ⟨isObject, rfl⟩
    · cases impossible
  · intro objRef isObject
    obtain ⟨result, isResult, read⟩ := exists_of_forall₂ flipped isObject
    obtain ⟨exists', same, written | ⟨_, kept⟩⟩ := lockToWrite_eq_ok read
    · exact ⟨exists', same, .inl (mem_filterMap.mpr ⟨result, isResult, written⟩)⟩
    · exact ⟨exists', same, .inr kept⟩

/-- Locks that are written where there may be some keep a store sound. -/
theorem sound_writeLocks (sound : store.Sound)
    (lockable : ∀ entry ∈ locks, store.Lockable entry.1) :
    (store.writeLocks locks).Sound where
  keyed := sound.keyed
  locked := by
    intro key object found latest owned
    exact (isSome_inserts _ _ _).mpr (.inr (sound.locked key object found latest owned))
  lockable := by
    intro objRef isLocked
    rcases (isSome_inserts _ _ _).mp isLocked with isWritten | before
    · obtain ⟨entry, isEntry, rfl⟩ := mem_map.mp isWritten
      exact { lockable entry isEntry with }
    · exact { sound.lockable objRef before with }
  recorded digest effects executed := { sound.recorded digest effects executed with }
  separate := sound.separate

/-- Reverting what nothing builds on keeps a store sound, and what every single
revert keeps. -/
theorem sound_revertAll {store final : AuthorityStore} (holds : AuthorityStore → Prop)
    (step : ∀ (store : AuthorityStore) (digest : TransactionDigest) effects, digest ∈ digests →
      store.Sound → store.executedEffects[digest]? = some effects →
      holds store → holds (store.reverted digest effects))
    (sound : store.Sound) (latest : LatestFirst store digests)
    (returned : revertAll store digests = .ok final) (start : holds store) :
    final.Sound ∧ holds final := by
  induction digests generalizing store with
  | nil =>
    cases returned
    exact ⟨sound, start⟩
  | cons digest digests ih =>
    obtain ⟨next, first, rest⟩ := bind_eq_ok.mp returned
    rw [revertStateUpdate] at first
    rw [LatestFirst] at latest
    have ih {store : AuthorityStore} := @ih store fun store digest effects listed =>
      step store digest effects (mem_cons_of_mem _ listed)
    cases executed : store.executedEffects[digest]? with
    | none =>
      rw [executed] at first latest
      cases first
      exact ih sound latest rest start
    | some effects =>
      rw [executed] at first latest
      obtain ⟨_, _, _, rfl⟩ := (revertEffects_eq_ok digest effects next).mp first
      refine ih (sound.reverted executed fun key isOut => ?_) latest.2 rest
        (step store digest effects mem_cons_self sound executed start)
      exact (forall_mem_rows key.1 (· ≤ key.2)).mp (latest.1 key isOut)

/-- The rows at genesis are the objects. -/
theorem objects_genesisStore {objects : List Object} (distinct : (objects.map Object.id).Nodup)
    (key : ObjectKey) (row : StoreObject) :
    (genesisStore objects).objects[key]? = some row ↔
      ∃ object ∈ objects, key = (object.id, object.version) ∧ row = .value object := by
  constructor
  · intro found
    rcases mem_of_getElem?_inserts found with isEntry | impossible
    · obtain ⟨object, listed, same⟩ := mem_map.mp isEntry
      obtain ⟨rfl, rfl⟩ := Prod.mk.inj same
      exact ⟨object, listed, rfl, rfl⟩
    · simp at impossible
  · rintro ⟨object, listed, rfl, rfl⟩
    have isEntry : ((object.id, object.version), StoreObject.value object) ∈
        objects.map fun object => ((object.id, object.version), StoreObject.value object) :=
      mem_map_of_mem listed
    refine getElem?_inserts_of_mem _ (fun other isOther same => ?_) isEntry
    obtain ⟨second, secondListed, rfl⟩ := mem_map.mp isOther
    rw [inj_on_of_nodup_map distinct secondListed listed (congrArg Prod.fst same)]

/-- The store of genesis is sound. -/
theorem sound_genesisStore {objects : List Object} (distinct : (objects.map Object.id).Nodup) :
    (genesisStore objects).Sound where
  keyed := by
    intro key object found
    obtain ⟨other, _, rfl, same⟩ := (objects_genesisStore distinct _ _).mp found
    cases same
    rfl
  locked := by
    intro key object found _ owned
    obtain ⟨other, listed, _, same⟩ := (objects_genesisStore distinct _ _).mp found
    cases same
    refine (isSome_inserts _ _ _).mpr (.inl ?_)
    rw [map_map]
    refine mem_map.mpr ⟨object, mem_filter.mpr ⟨listed, ?_⟩, rfl⟩
    cases isOwner : object.owner <;> simp_all [Owner.isAddressOwned, Owner.isChildObject]
  lockable := by
    intro objRef isLocked
    rcases (isSome_inserts _ _ _).mp isLocked with isWritten | impossible
    · rw [map_map] at isWritten
      obtain ⟨object, isObject, rfl⟩ := mem_map.mp isWritten
      refine ⟨⟨object, (objects_genesisStore distinct _ _).mpr
        ⟨object, (mem_filter.mp isObject).1, rfl, rfl⟩, rfl⟩, ?_⟩
      intro digest effects executed
      simp [genesisStore] at executed
    · simp at impossible
  recorded := by
    intro digest effects executed
    simp [genesisStore] at executed
  separate := by
    intro first second firstEffects secondEffects executed
    simp [genesisStore] at executed

/-- Every allowed action keeps the node sound. -/
theorem Sound.perform {node next : Node} (sound : node.Sound) (allowed : node.Allowed action)
    (performed : node.perform action = some next) :
    next.Sound := by
  cases action with
  | beginAcquire ownedInputObjects txDigest =>
    obtain ⟨_, performed⟩ := Option.ite_none_left_eq_some.mp performed
    split at performed
    case h_1 locks read =>
      cases performed
      refine ⟨sound.store, forall_mem_snoc.mpr ⟨sound.pending, fun entry isEntry => ?_⟩⟩
      obtain ⟨locked, exist⟩ := locksToWrite_eq_ok read
      exact sound.store.lockable entry.1 (exist entry.1 (locked entry isEntry).1).1
    case h_2 =>
      cases performed
      exact sound
  | endAcquire index =>
    obtain ⟨acquire, isAcquire, rfl⟩ := Option.map_eq_some_iff.mp performed
    have listed := mem_of_getElem? isAcquire
    refine ⟨sound_writeLocks sound.store (sound.pending acquire listed), ?_⟩
    intro other isOther entry isEntry
    exact { sound.pending other (mem_of_mem_eraseIdx isOther) entry isEntry with }
  | checkLocks execution =>
    simp only [Node.perform] at performed
    split at performed <;> cases performed
    · exact ⟨sound.store, sound.pending⟩
    · exact sound
  | prepare index =>
    obtain ⟨execution, isExecution, rfl⟩ := Option.map_eq_some_iff.mp performed
    split <;> exact { sound with }
  | write index =>
    obtain ⟨execution, isExecution, rfl⟩ := Option.map_eq_some_iff.mp performed
    have executes := allowed execution isExecution
    exact ⟨executes.sound_write sound.store, fun acquire listed entry isEntry =>
      executes.lockable_write (sound.pending acquire listed entry isEntry)⟩
  | reconfigure reverted =>
    obtain ⟨_, performed⟩ := Option.ite_none_right_eq_some.mp performed
    obtain ⟨store, returned, rfl⟩ := map_toOption_eq_some.mp performed
    refine ⟨(sound_revertAll (fun _ => True) (fun _ _ _ _ _ _ _ => trivial) sound.store allowed.2
      returned trivial).1, ?_⟩
    intro acquire listed
    rw [isEmpty_iff.mp allowed.1] at listed
    cases listed

theorem Reachable.sound {node : Node} (reachable : node.Reachable) : node.Sound := by
  obtain ⟨objects, distinct, run⟩ := reachable
  refine run.invariant Sound ⟨sound_genesisStore distinct, ?_⟩ ?_
  · exact nofun
  · exact fun state action next sound allowed performed => sound.perform allowed performed

end Node

end Sui.Authority
