import Sui.Authority.Node

/-!
# Safety of the locks

Within an epoch a lock is given to one transaction only, whatever is committed in
between.  The current version of an owned object always has a lock.  A version that a
committed transaction modified has none, provided that no call was about to write this
lock when the transaction was committed.
-/

namespace Sui.Authority.Node

open Library
open List hiding after
open AuthorityStore
open Option (some map_eq_some_iff)

variable {store : AuthorityStore}

/-- The locks after those of one transaction are written. -/
theorem locks_writeLocks {locks : List (ObjectRef × Option LockDetails)}
    {value : Option LockDetails} (same : ∀ entry ∈ locks, entry.2 = value) (objRef : ObjectRef) :
    (store.writeLocks locks).ownedObjectTransactionLocks[objRef]? =
      if objRef ∈ locks.map Prod.fst then some value
      else store.ownedObjectTransactionLocks[objRef]? := by
  split
  case isTrue isWritten =>
    obtain ⟨entry, listed, rfl⟩ := mem_map.mp isWritten
    rw [← same entry listed]
    refine getElem?_inserts_of_mem _ (fun other isOther sameRef => ?_) listed
    exact Prod.ext sameRef ((same other isOther).trans (same entry listed).symm)
  case isFalse notWritten => exact getElem?_inserts_of_not_mem _ notWritten

/-! ## One transaction for every lock -/

/-- The locks that were given in this epoch are set to their transactions or are
deleted, and so it will be with those that are being taken. -/
structure Exclusive (node : Node) : Prop where
  past : ∀ grant ∈ node.granted, grant.epoch ≤ node.epoch
  unique : ∀ first ∈ node.granted, ∀ second ∈ node.granted, first.epoch = second.epoch →
    first.objRef = second.objRef → first.txDigest = second.txDigest
  held : ∀ grant ∈ node.granted, grant.epoch = node.epoch →
    node.store.Present grant.objRef.1 grant.objRef.2.1 ∧
      ∀ lock, node.store.ownedObjectTransactionLocks[grant.objRef]? = some lock →
        lock = some ⟨node.epoch, grant.txDigest⟩
  written : ∀ acquire ∈ node.acquiring, ∀ entry ∈ acquire.locksToWrite,
    entry.1 ∈ acquire.ownedInputObjects ∧ entry.2 = some ⟨node.epoch, acquire.txDigest⟩
  pending : ∀ acquire ∈ node.acquiring, ∀ objRef ∈ acquire.ownedInputObjects,
    node.store.Present objRef.1 objRef.2.1 ∧ (objRef ∈ acquire.locksToWrite.map Prod.fst ∨
        ∀ lock, node.store.ownedObjectTransactionLocks[objRef]? = some lock →
          lock = some ⟨node.epoch, acquire.txDigest⟩)
  agreed : ∀ acquire ∈ node.acquiring, ∀ grant ∈ node.granted, grant.epoch = node.epoch →
    grant.objRef ∈ acquire.ownedInputObjects → grant.txDigest = acquire.txDigest
  apart : node.acquiring.Pairwise fun first second =>
    ∀ objRef ∈ first.ownedInputObjects, objRef ∉ second.ownedInputObjects

variable {node next : Node}

section

variable (exclusive : node.Exclusive)

include exclusive

/-- Reading locks under the mutexes keeps them exclusive. -/
theorem Exclusive.beginAcquire (sound : node.Sound)
    (free : ¬ node.blocked ownedInputObjects)
    (read : node.store.locksToWrite node.epoch ownedInputObjects txDigest = .ok locks) :
    Exclusive { node with
      acquiring := node.acquiring ++ [⟨ownedInputObjects, txDigest, locks⟩] } := by
  obtain ⟨written, found⟩ := locksToWrite_eq_ok read
  refine { exclusive with written := ?_, pending := ?_, agreed := ?_, apart := ?_ }
  · exact forall_mem_snoc.mpr ⟨exclusive.written, written⟩
  · refine forall_mem_snoc.mpr ⟨exclusive.pending, fun objRef isObject => ?_⟩
    obtain ⟨exists', _, toWrite⟩ := found objRef isObject
    obtain ⟨object, isRow, _⟩ := (sound.store.lockable objRef exists').present
    refine ⟨present_of_eq isRow, toWrite.imp (fun isEntry => ?_) fun kept lock isLock => ?_⟩
    · exact mem_map.mpr ⟨_, isEntry, rfl⟩
    · exact some.inj (isLock.symm.trans kept)
  · refine forall_mem_snoc.mpr ⟨exclusive.agreed, fun grant isGrant thisEpoch isObject => ?_⟩
    obtain ⟨exists', sameTx, _⟩ := found grant.objRef isObject
    obtain ⟨lock, isLock⟩ := Option.isSome_iff_exists.mp exists'
    have isSet := (exclusive.held grant isGrant thisEpoch).2 lock isLock
    rw [isSet] at isLock
    exact sameTx _ isLock
  · refine pairwise_snoc.mpr ⟨exclusive.apart, fun acquire listed objRef held wanted => ?_⟩
    exact free ⟨acquire, listed, objRef, held, objRef, wanted, rfl⟩

/-- Writing the locks that were read keeps them exclusive. -/
theorem Exclusive.endAcquire {index : Nat} {acquire : Acquire}
    (isAcquire : node.acquiring[index]? = some acquire) :
    Exclusive { node with
      store := node.store.writeLocks acquire.locksToWrite
      acquiring := node.acquiring.eraseIdx index
      granted := node.granted ++ acquire.ownedInputObjects.map fun objRef =>
        ⟨node.epoch, objRef, acquire.txDigest⟩ } := by
  have listed := mem_of_getElem? isAcquire
  have lookup := @locks_writeLocks node.store acquire.locksToWrite _ fun entry isEntry =>
    (exclusive.written acquire listed entry isEntry).2
  have isInput : ∀ objRef ∈ acquire.locksToWrite.map Prod.fst,
      objRef ∈ acquire.ownedInputObjects := by
    intro objRef isWritten
    obtain ⟨entry, isEntry, rfl⟩ := mem_map.mp isWritten
    exact (exclusive.written acquire listed entry isEntry).1
  have others : ∀ other ∈ node.acquiring.eraseIdx index, ∀ objRef ∈ other.ownedInputObjects,
      objRef ∉ acquire.ownedInputObjects := by
    intro other isOther objRef isObject isHeld
    have apart := (related_of_eraseIdx
      (fun first second disjoint objRef isSecond isFirst => disjoint objRef isFirst isSecond)
      exclusive.apart isAcquire).1 other isOther
    exact apart objRef isHeld isObject
  have agrees : ∀ grant ∈ node.granted, ∀ objRef ∈ acquire.ownedInputObjects,
      grant.epoch = node.epoch → grant.objRef = objRef → grant.txDigest = acquire.txDigest := by
    rintro grant isGrant objRef isObject thisEpoch rfl
    exact exclusive.agreed acquire listed grant isGrant thisEpoch isObject
  refine ⟨?_, ?_, ?_, ?_, ?_, ?_, ?_⟩
  · exact forall_mem_append.mpr ⟨exclusive.past, forall_mem_map.mpr fun _ _ => le_rfl⟩
  · intro first isFirst second isSecond sameEpoch sameRef
    rcases mem_append.mp isFirst with firstBefore | firstNew
    · rcases mem_append.mp isSecond with secondBefore | secondNew
      · exact exclusive.unique first firstBefore second secondBefore sameEpoch sameRef
      · obtain ⟨objRef, isObject, rfl⟩ := mem_map.mp secondNew
        exact agrees first firstBefore objRef isObject sameEpoch sameRef
    · obtain ⟨objRef, isObject, rfl⟩ := mem_map.mp firstNew
      rcases mem_append.mp isSecond with secondBefore | secondNew
      · exact (agrees second secondBefore objRef isObject sameEpoch.symm sameRef.symm).symm
      · obtain ⟨_, _, rfl⟩ := mem_map.mp secondNew
        rfl
  · intro grant isGrant thisEpoch
    rcases mem_append.mp isGrant with before | isNew
    · obtain ⟨present, set⟩ := exclusive.held grant before thisEpoch
      refine ⟨present, fun lock isLock => ?_⟩
      rw [lookup] at isLock
      split at isLock
      case isTrue isWritten =>
        rw [agrees grant before _ (isInput _ isWritten) thisEpoch rfl]
        exact (some.inj isLock).symm
      case isFalse => exact set lock isLock
    · obtain ⟨objRef, isObject, rfl⟩ := mem_map.mp isNew
      obtain ⟨present, set⟩ := exclusive.pending acquire listed objRef isObject
      refine ⟨present, fun lock isLock => ?_⟩
      rw [lookup] at isLock
      split at isLock
      case isTrue => exact (some.inj isLock).symm
      case isFalse notWritten => exact set.resolve_left notWritten lock isLock
  · intro other isOther
    exact exclusive.written other (mem_of_mem_eraseIdx isOther)
  · intro other isOther objRef isObject
    obtain ⟨present, set⟩ := exclusive.pending other (mem_of_mem_eraseIdx isOther) objRef isObject
    refine ⟨present, set.imp_right fun isSet lock isLock => ?_⟩
    rw [lookup, if_neg fun isWritten =>
      others other isOther objRef isObject (isInput objRef isWritten)] at isLock
    exact isSet lock isLock
  · intro other isOther grant isGrant thisEpoch isObject
    rcases mem_append.mp isGrant with before | isNew
    · exact exclusive.agreed other (mem_of_mem_eraseIdx isOther) grant before thisEpoch isObject
    · obtain ⟨objRef, isInput, rfl⟩ := mem_map.mp isNew
      exact absurd isInput (others other isOther objRef isObject)
  · exact exclusive.apart.sublist (eraseIdx_sublist _ _)

/-- A batch is written.  It sets up locks for rows that were not there. -/
theorem Exclusive.write (executes : execution.Executes node.store) :
    Exclusive { node with
      store := node.store.write (execution.batch node.epoch)
      prepared := node.prepared.eraseIdx index
      committed := node.committed ++ [execution] } := by
  have lookup : ∀ objRef : ObjectRef, node.store.Present objRef.1 objRef.2.1 → ∀ lock,
      (node.store.write (execution.batch node.epoch)).ownedObjectTransactionLocks[objRef]? =
        some lock → node.store.ownedObjectTransactionLocks[objRef]? = some lock := by
    intro objRef present lock isLock
    rw [Execution.locks_write] at isLock
    split at isLock
    case isTrue => cases isLock
    case isFalse =>
      rw [if_neg fun isProduced =>
        executes.not_present_of_mem_produced isProduced present] at isLock
      exact isLock
  refine { exclusive with held := ?_, pending := ?_ }
  · intro grant isGrant thisEpoch
    obtain ⟨present, set⟩ := exclusive.held grant isGrant thisEpoch
    exact ⟨executes.present_write present, fun lock isLock =>
      set lock (lookup _ present lock isLock)⟩
  · intro acquire listed objRef isObject
    obtain ⟨present, set⟩ := exclusive.pending acquire listed objRef isObject
    exact ⟨executes.present_write present, set.imp_right fun isSet lock isLock =>
      isSet lock (lookup _ present lock isLock)⟩

/-- Every allowed action keeps the locks exclusive. -/
theorem Exclusive.perform (sound : node.Sound)
    (allowed : node.Allowed action) (performed : node.perform action = some next) :
    next.Exclusive := by
  cases action with
  | beginAcquire ownedInputObjects txDigest =>
    obtain ⟨free, performed⟩ := Option.ite_none_left_eq_some.mp performed
    split at performed
    case h_1 locks read =>
      cases performed
      exact exclusive.beginAcquire sound free read
    case h_2 =>
      cases performed
      exact exclusive
  | endAcquire index =>
    obtain ⟨acquire, isAcquire, rfl⟩ := map_eq_some_iff.mp performed
    exact exclusive.endAcquire isAcquire
  | checkLocks execution =>
    simp only [Node.perform] at performed
    split at performed <;> cases performed
    · exact { exclusive with }
    · exact exclusive
  | prepare index =>
    obtain ⟨execution, isExecution, rfl⟩ := map_eq_some_iff.mp performed
    split <;> exact { exclusive with }
  | write index =>
    obtain ⟨execution, isExecution, rfl⟩ := map_eq_some_iff.mp performed
    exact exclusive.write (allowed execution isExecution)
  | reconfigure reverted =>
    obtain ⟨_, performed⟩ := Option.ite_none_right_eq_some.mp performed
    obtain ⟨store, returned, rfl⟩ := map_eq_some_iff.mp performed
    have nobody : ∀ acquire, acquire ∉ node.acquiring :=
      eq_nil_iff_forall_not_mem.mp (isEmpty_iff.mp allowed.1)
    refine { exclusive with past := ?_, held := ?_, written := ?_, pending := ?_, agreed := ?_ }
    · exact fun grant isGrant => (exclusive.past grant isGrant).trans (Nat.le_succ _)
    · intro grant isGrant thisEpoch
      have past := exclusive.past grant isGrant
      exact absurd thisEpoch (Nat.lt_succ_of_le past).ne
    all_goals exact fun acquire listed => absurd listed (nobody acquire)

end

/-! ## No lock for what was modified -/

/-- A batch is only written when no call is about to write a lock that it deletes. -/
def Undisturbed (node : Node) (action : Action) : Prop :=
  node.Allowed action ∧
    match action with
    | .write index => ∀ execution ∈ node.prepared[index]?, ∀ acquire ∈ node.acquiring,
        ∀ entry ∈ acquire.locksToWrite, entry.1 ∉ execution.consumed
    | _ => True

instance (node : Node) (action : Action) : Decidable (node.Undisturbed action) := by
  unfold Undisturbed
  cases action <;> infer_instance

/-- What a committed transaction modified has no lock, and nobody will write one. -/
structure Unlocked (node : Node) : Prop where
  executed : ∀ execution ∈ node.committed,
    node.store.executedEffects[execution.transaction.digest]? = some execution.effects
  modified : ∀ execution ∈ node.committed, ∀ objRef ∈ execution.consumed,
    (objRef.1, objRef.2.1) ∈ execution.effects.modifiedAtVersions
  unlocked : ∀ execution ∈ node.committed, ∀ objRef ∈ execution.consumed,
    node.store.ownedObjectTransactionLocks[objRef]? = none
  unwritten : ∀ execution ∈ node.committed, ∀ objRef ∈ execution.consumed,
    ∀ acquire ∈ node.acquiring, ∀ entry ∈ acquire.locksToWrite, entry.1 ≠ objRef

/-- A version is modified by at most one transaction. -/
theorem modified_once {first second : TransactionDigest}
    (sound : store.Sound) (firstExecuted : store.executedEffects[first]? = some firstEffects)
    (secondExecuted : store.executedEffects[second]? = some secondEffects)
    (firstModified : key ∈ firstEffects.modifiedAtVersions)
    (secondModified : key ∈ secondEffects.modifiedAtVersions) :
    first = second := by
  have firstRecorded := sound.recorded first _ firstExecuted
  have secondRecorded := sound.recorded second _ secondExecuted
  obtain ⟨out, isOut, sameId, above⟩ := firstRecorded.written key firstModified
  obtain ⟨other, isOther, sameOther, otherAbove⟩ := secondRecorded.written key secondModified
  have present := firstRecorded.present isOut
  have otherPresent := secondRecorded.present isOther
  rw [sameId, ← sameOther] at present
  rw [sameOther, ← sameId] at otherPresent
  -- The row of one of the two would be between the version and the row of the other.
  have sameVersion : out.2 = other.2 := by
    by_contra different
    rcases lt_or_gt_of_ne different with lower | higher
    · exact absurd above (not_lt_of_ge (secondRecorded.below other isOther key secondModified
        sameOther.symm _ present lower))
    · exact absurd otherAbove (not_lt_of_ge (firstRecorded.below out isOut key firstModified
        sameId.symm _ otherPresent higher))
  have same : out = other := Prod.ext (sameId.trans sameOther.symm) sameVersion
  rw [← same] at isOther
  exact sound.separate first second _ _ firstExecuted secondExecuted out isOut isOther

theorem executed_reverted (other : digest ≠ first)
    (executed : store.executedEffects[digest]? = some effects) :
    (store.reverted first firstEffects).executedEffects[digest]? = some effects := by
  rw [executedEffects_reverted, Map.getElem?_erase, if_neg (Ne.symm other)]
  exact executed

/-- A lock that a transaction deleted is not restored by reverting another one. -/
theorem unlocked_reverted (sound : store.Sound) (other : digest ≠ first)
    (executed : store.executedEffects[digest]? = some effects)
    (firstExecuted : store.executedEffects[first]? = some firstEffects) {objRef : ObjectRef}
    (isModified : (objRef.1, objRef.2.1) ∈ effects.modifiedAtVersions)
    (unlocked : store.ownedObjectTransactionLocks[objRef]? = none) :
    (store.reverted first firstEffects).ownedObjectTransactionLocks[objRef]? = none := by
  rw [locks_reverted]
  split
  case isTrue => rfl
  case isFalse =>
    rw [if_neg]
    · exact unlocked
    · intro isOld
      obtain ⟨key, firstModified, object, found, _, rfl⟩ := (mem_filterMap_ownedRef _ _).mp isOld
      obtain rfl := sound.keyed key object found
      exact other (modified_once sound executed firstExecuted isModified firstModified)

/-- A commit leaves no lock for what it modified. -/
theorem Unlocked.write (unlocked : node.Unlocked) (sound : node.Sound)
    (executes : execution.Executes node.store)
    (quiet : ∀ acquire ∈ node.acquiring, ∀ entry ∈ acquire.locksToWrite,
      entry.1 ∉ execution.consumed) :
    Unlocked { node with
      store := node.store.write (execution.batch node.epoch)
      prepared := node.prepared.eraseIdx index
      committed := node.committed ++ [execution] } := by
  refine ⟨?_, ?_, ?_, ?_⟩
  · intro committed isCommitted
    rw [Execution.executedEffects_write, Map.getElem?_insert]
    rcases mem_snoc.mp isCommitted with before | rfl
    · rw [if_neg]
      · exact unlocked.executed committed before
      · intro same
        have impossible := unlocked.executed committed before
        rw [← same, executes.notExecuted] at impossible
        cases impossible
    · rw [if_pos rfl]
  · refine forall_mem_snoc.mpr ⟨unlocked.modified, fun objRef isConsumed => ?_⟩
    obtain ⟨change, listed, entry, modified, _, rfl⟩ :=
      (executes.mem_consumed objRef).mp isConsumed
    exact (Execution.mem_modifiedAtVersions executes.proper _).mpr
      ⟨change, listed, entry, modified, rfl⟩
  · intro committed isCommitted objRef isConsumed
    rw [Execution.locks_write]
    rcases mem_snoc.mp isCommitted with before | rfl
    · split
      case isTrue => rfl
      case isFalse =>
        rw [if_neg]
        · exact unlocked.unlocked committed before objRef isConsumed
        · intro isProduced
          obtain ⟨object, found⟩ := (sound.store.recorded _ _
            (unlocked.executed committed before)).modified _
              (unlocked.modified committed before objRef isConsumed)
          exact executes.not_present_of_mem_produced isProduced (present_of_eq found)
    · rw [if_pos isConsumed]
  · refine forall_mem_snoc.mpr ⟨unlocked.unwritten, ?_⟩
    rintro _ isConsumed acquire listed entry isEntry rfl
    exact quiet acquire listed entry isEntry isConsumed

/-- Reverting leaves no lock for what the other transactions modified. -/
theorem Unlocked.reconfigure {store : AuthorityStore} {reverted : List TransactionDigest}
    (unlocked : node.Unlocked) (sound : node.Sound) (allowed : node.Allowed (.reconfigure reverted))
    (returned : revertAll node.store reverted = .ok store) :
    Unlocked { node with
      store := store
      epoch := node.epoch + 1
      committed := node.committed.filter fun execution =>
        execution.transaction.digest ∉ reverted } := by
  have stays : ∀ execution ∈ node.committed.filter (fun execution =>
      execution.transaction.digest ∉ reverted), execution ∈ node.committed ∧
        execution.transaction.digest ∉ reverted := by
    intro execution isCommitted
    obtain ⟨before, kept⟩ := mem_filter.mp isCommitted
    exact ⟨before, of_decide_eq_true kept⟩
  refine ⟨?_, ?_, ?_, ?_⟩
  · intro execution isCommitted
    obtain ⟨before, kept⟩ := stays execution isCommitted
    refine (sound_revertAll (·.executedEffects[execution.transaction.digest]? = some _) ?_
      sound.store allowed.2 returned (unlocked.executed execution before)).2
    exact fun _ digest _ listed _ _ => executed_reverted fun same => kept (same ▸ listed)
  · intro execution isCommitted
    exact unlocked.modified execution (stays execution isCommitted).1
  · intro execution isCommitted objRef isConsumed
    obtain ⟨before, kept⟩ := stays execution isCommitted
    refine (sound_revertAll (fun store =>
      store.executedEffects[execution.transaction.digest]? = some _ ∧
        store.ownedObjectTransactionLocks[objRef]? = none) ?_ sound.store allowed.2 returned
      ⟨unlocked.executed execution before,
        unlocked.unlocked execution before objRef isConsumed⟩).2.2
    rintro store digest effects listed sound executed ⟨stays, missing⟩
    have other := ne_of_mem_of_not_mem listed kept
    exact ⟨executed_reverted other.symm stays, unlocked_reverted sound other.symm stays executed
      (unlocked.modified execution before objRef isConsumed) missing⟩
  · intro execution isCommitted objRef isConsumed acquire listed
    rw [isEmpty_iff.mp allowed.1] at listed
    cases listed

/-- Every undisturbed step leaves no lock for what was modified. -/
theorem Unlocked.perform (unlocked : node.Unlocked) (sound : node.Sound)
    (undisturbed : node.Undisturbed action) (performed : node.perform action = some next) :
    next.Unlocked := by
  obtain ⟨allowed, quiet⟩ := undisturbed
  cases action with
  | beginAcquire ownedInputObjects txDigest =>
    obtain ⟨_, performed⟩ := Option.ite_none_left_eq_some.mp performed
    split at performed
    case h_2 =>
      cases performed
      exact unlocked
    case h_1 locks read =>
      cases performed
      refine { unlocked with unwritten := ?_ }
      intro execution isCommitted objRef isConsumed acquire listed
      rcases mem_snoc.mp listed with before | rfl
      · exact unlocked.unwritten execution isCommitted objRef isConsumed acquire before
      · rintro entry isEntry rfl
        obtain ⟨written, found⟩ := locksToWrite_eq_ok read
        have exists' := (found entry.1 (written entry isEntry).1).1
        rw [unlocked.unlocked execution isCommitted entry.1 isConsumed] at exists'
        cases exists'
  | endAcquire index =>
    obtain ⟨acquire, isAcquire, rfl⟩ := map_eq_some_iff.mp performed
    refine { unlocked with unlocked := ?_, unwritten := ?_ }
    · intro execution isCommitted objRef isConsumed
      refine (getElem?_inserts_of_not_mem _ fun isWritten => ?_).trans
        (unlocked.unlocked execution isCommitted objRef isConsumed)
      obtain ⟨entry, isEntry, same⟩ := mem_map.mp isWritten
      exact unlocked.unwritten execution isCommitted objRef isConsumed acquire
        (mem_of_getElem? isAcquire) entry isEntry same
    · intro execution isCommitted objRef isConsumed other isOther
      exact unlocked.unwritten execution isCommitted objRef isConsumed other
        (mem_of_mem_eraseIdx isOther)
  | checkLocks execution =>
    simp only [Node.perform] at performed
    split at performed <;> cases performed
    · exact { unlocked with }
    · exact unlocked
  | prepare index =>
    obtain ⟨execution, isExecution, rfl⟩ := map_eq_some_iff.mp performed
    split <;> exact { unlocked with }
  | write index =>
    obtain ⟨execution, isExecution, rfl⟩ := map_eq_some_iff.mp performed
    exact unlocked.write sound (allowed execution isExecution) (quiet _ isExecution)
  | reconfigure reverted =>
    obtain ⟨_, performed⟩ := Option.ite_none_right_eq_some.mp performed
    obtain ⟨store, returned, rfl⟩ := map_toOption_eq_some.mp performed
    exact unlocked.reconfigure sound allowed returned

/-- A missing lock makes the check fail. -/
theorem checkOwnedObjectLocksExist_error {objects : List ObjectRef}
    (listed : objRef ∈ objects) (unlocked : store.ownedObjectTransactionLocks[objRef]? = none) :
    ∃ error, store.checkOwnedObjectLocksExist objects = .error error := by
  cases checked : store.checkOwnedObjectLocksExist objects with
  | error error => exact ⟨error, rfl⟩
  | ok _ =>
    have found := forM_eq_ok.mp checked objRef listed
    rw [unlocked] at found
    obtain ⟨_, _, impossible⟩ := bind_eq_ok.mp found
    cases impossible

/-- In every run a lock is given to one transaction in an epoch, a call that fails changes
nothing, and the current version of every owned object has a lock.  In every run in which
no batch deletes a lock that is about to be written, no version that a committed
transaction modified has a lock, and a check for its lock fails. -/
theorem lock_safety {objects : List Object} {node : Node} (distinct : (objects.map Object.id).Nodup)
    (run : Run perform Allowed (genesis objects) node) :
    (∀ first ∈ node.granted, ∀ second ∈ node.granted, first.epoch = second.epoch →
      first.objRef = second.objRef → first.txDigest = second.txDigest) ∧
    (∀ ownedInputObjects txDigest error,
      node.store.locksToWrite node.epoch ownedInputObjects txDigest = .error error →
        ∀ next, node.perform (.beginAcquire ownedInputObjects txDigest) = some next →
          next = node) ∧
    (∀ id object, node.store.getObject id = some object → object.owner.isAddressOwned = true →
        (node.store.ownedObjectTransactionLocks[object.computeObjectReference]?).isSome) ∧
    (Run perform Undisturbed (genesis objects) node →
      ∀ execution ∈ node.committed, ∀ objRef ∈ execution.consumed,
        node.store.ownedObjectTransactionLocks[objRef]? = none ∧
          ∀ ownedInputs : List ObjectRef, objRef ∈ ownedInputs →
            ∃ error, node.store.checkOwnedObjectLocksExist ownedInputs = .error error) := by
  have soundAlways : ∀ {state}, Run perform Allowed (genesis objects) state →
      state.Sound := fun reached => Reachable.sound ⟨objects, distinct, reached⟩
  have sound := soundAlways run
  have exclusive : node.Sound ∧ node.Exclusive := by
    refine run.invariant (fun state => state.Sound ∧ state.Exclusive)
      ⟨soundAlways .refl, ?_⟩ ?_
    · constructor <;> simp [genesis]
    · exact fun state action next holds allowed performed =>
        ⟨holds.1.perform allowed performed, holds.2.perform holds.1 allowed performed⟩
  refine ⟨exclusive.2.unique, ?_, ?_, ?_⟩
  · intro ownedInputObjects txDigest error failed next performed
    rw [perform, failed] at performed
    exact (some.inj (Option.ite_none_left_eq_some.mp performed).2).symm
  · intro id object isObject owned
    obtain ⟨version, found, latest⟩ := (getObject_eq_some_iff id object).mp isObject
    exact sound.store.locked (id, version) object found latest owned
  · intro quiet execution isCommitted objRef isConsumed
    have unlocked : node.Sound ∧ node.Unlocked := by
      refine quiet.invariant (fun state => state.Sound ∧ state.Unlocked)
        ⟨soundAlways .refl, ?_⟩ ?_
      · constructor <;> simp [genesis]
      · exact fun state action next holds undisturbed performed =>
          ⟨holds.1.perform undisturbed.1 performed, holds.2.perform holds.1 undisturbed performed⟩
    have missing := unlocked.2.unlocked execution isCommitted objRef isConsumed
    exact ⟨missing, fun ownedInputs listed => checkOwnedObjectLocksExist_error listed missing⟩

/-- An object of an address. -/
def ownedObject : Object := ⟨1, 1, 11, .addressOwner 7, false⟩

/-- A transaction that modifies the object. -/
def modification : Execution where
  transaction := ⟨100, []⟩
  mutableInputs := [(1, (1, 11), .addressOwner 7)]
  sharedObjects := []
  lamportVersion := 2
  changes := [⟨1, some ((1, 11), .addressOwner 7), some ⟨1, 2, 12, .addressOwner 7, false⟩,
    false, false⟩]

/-- The object is locked, modified, and locked again in the next version. -/
theorem lock_safety_modification :
    ∃ node, Run perform Undisturbed (genesis [ownedObject]) node ∧
      (node.granted.length = 2 ∧ node.committed.length = 1) ∧
      (∀ first ∈ node.granted, ∀ second ∈ node.granted, first.epoch = second.epoch →
        first.objRef = second.objRef → first.txDigest = second.txDigest) ∧
      ∀ execution ∈ node.committed, ∀ objRef ∈ execution.consumed,
        node.store.ownedObjectTransactionLocks[objRef]? = none := by
  obtain ⟨node, quiet, holds⟩ := exists_run perform Undisturbed (genesis [ownedObject])
    [.beginAcquire [(1, 1, 11)] 100, .endAcquire 0, .checkLocks modification, .prepare 0,
      .write 0, .beginAcquire [(1, 2, 12)] 101, .endAcquire 0]
    (fun node : Node => node.granted.length = 2 ∧ node.committed.length = 1) (by decide +kernel)
  obtain ⟨unique, _, _, unlocked⟩ := lock_safety (by decide)
    (quiet.mono fun _ _ undisturbed => undisturbed.1)
  exact ⟨node, quiet, holds, unique, fun execution isCommitted objRef isConsumed =>
    (unlocked quiet execution isCommitted objRef isConsumed).1⟩

/-- A call that read the lock before the commit and writes it afterwards brings the lock of
the modified version back. -/
theorem lock_of_consumed_version_returns :
    ∃ node, Run perform Allowed (genesis [ownedObject]) node ∧
      ∃ execution ∈ node.committed, ∃ objRef ∈ execution.consumed,
        (node.store.ownedObjectTransactionLocks[objRef]?).isSome ∧
          (node.store.checkOwnedObjectLocksExist [objRef]).toOption = some () :=
  exists_run perform Allowed (genesis [ownedObject])
    [.beginAcquire [(1, 1, 11)] 101, .checkLocks modification, .prepare 0, .write 0, .endAcquire 0]
    (fun node => ∃ execution ∈ node.committed, ∃ objRef ∈ execution.consumed,
      (node.store.ownedObjectTransactionLocks[objRef]?).isSome ∧
        (node.store.checkOwnedObjectLocksExist [objRef]).toOption = some ()) (by decide +kernel)

end Sui.Authority.Node
