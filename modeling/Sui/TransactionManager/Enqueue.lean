import Sui.TransactionManager.Commit

/-!
# Enqueueing

A certificate acquires the locks of its inputs one after the other, or waits for them.  It
waits if an input is not available, or if it wants a default lock and there is a read-only
lock.  A certificate that has all its locks is sent at once.
-/

namespace Sui.TransactionManager

open Library
open List hiding after
open Authority (ObjectID TransactionDigest)
open Std (ExtTreeMap)
open TransactionManager.Inner (queue table)

/-! ## One lock -/

variable {column : Column}

theorem Column.ReadOnly.set (reads : column.ReadOnly reader)
    (unlocked : column digest = none) (lock : Option Lock) :
    (column.set digest lock).ReadOnly reader := by
  obtain ⟨held, readOnly⟩ := reads
  refine ⟨held, ?_⟩
  rw [Column.set, if_neg, readOnly]
  rintro rfl
  rw [unlocked] at readOnly
  cases readOnly

/-- A new lock on an input. -/
theorem Column.Settled.set_held (settled : column.Settled)
    (unlocked : column digest = none) (mode : LockMode) :
    (column.set digest (some ⟨mode, true⟩)).Settled := by
  intro other mode' waits
  unfold Column.set at waits
  split at waits
  · cases waits
  · obtain ⟨isDefault, reader, readOnly⟩ := settled other mode' waits
    exact ⟨isDefault, reader, readOnly.set unlocked _⟩

/-- A writer may wait behind a reader. -/
theorem Column.Settled.set_default (settled : column.Settled)
    (unlocked : column digest = none) (reads : ∃ reader, column.ReadOnly reader) :
    (column.set digest (some ⟨.default, false⟩)).Settled := by
  intro other mode waits
  unfold Column.set at waits
  split at waits
  · cases waits
    obtain ⟨reader, readOnly⟩ := reads
    exact ⟨rfl, reader, readOnly.set unlocked _⟩
  · obtain ⟨isDefault, reader, readOnly⟩ := settled other mode waits
    exact ⟨isDefault, reader, readOnly.set unlocked _⟩

theorem Column.sameQueue_set_default (unlocked : column digest = none) :
    column.SameQueue (column.set digest (some ⟨.default, true⟩)) := by
  intro other lock notDefault
  unfold Column.set
  split
  · next isDigest =>
    rw [isDigest, unlocked]
    simp [Ne.symm notDefault]
  · rfl

/-- A certificate that has asked for the locks on some of its inputs, and has to ask for the
others. -/
structure Asking (manager : TransactionManager)
    (objectAvailability : ExtTreeMap InputKey (Option Bool)) (digest : TransactionDigest)
    (cert : VerifiedExecutableTransaction) (total : Nat) (rest : List (InputKey × LockMode))
    (inner : Inner) (pendingCert : PendingCertificate) : Prop where
  samePending : inner.pendingCertificates = manager.inner.pendingCertificates
  sameExecuting : inner.executingCertificates = manager.inner.executingCertificates
  sameEpoch : inner.epoch = manager.inner.epoch
  sameCache : inner.availableObjectsCache = manager.inner.availableObjectsCache
  certificate : pendingCert.certificate = cert
  separate : ∀ (key : InputKey) mode, pendingCert.acquiringLocks[key]? = some mode →
    pendingCert.acquiredLocks[key]? = none
  size : pendingCert.acquiringLocks.size + pendingCert.acquiredLocks.size + rest.length = total
  distinct : (rest.map Prod.fst).Nodup
  unasked : ∀ key ∈ rest.map Prod.fst, pendingCert.acquiringLocks[key]? = none ∧
    pendingCert.acquiredLocks[key]? = none
  lists : ∀ key, (inner.queue key).Lists
    ((manager.inner.table.setRow digest pendingCert.lock).column key)
  nonempty : ∀ (key : InputKey) queue, inner.lockWaiters[key]? = some queue → queue.isEmpty = false
  counted : ∀ id : ObjectID, inner.inputObjects[id]? =
    if waiting manager.inner.pendingCertificates id + pendingCert.waits id = 0 then none
    else some (waiting manager.inner.pendingCertificates id + pendingCert.waits id)
  steps : manager.inner.table.Steps none (manager.inner.table.setRow digest pendingCert.lock)
  /-- Whoever waits for an available input waits for a reader. -/
  settled : ∀ key : InputKey, objectAvailability[key]? ≠ some (some false) →
    (manager.inner.table.column key).Settled →
    ((manager.inner.table.setRow digest pendingCert.lock).column key).Settled

section Asking

variable {manager : TransactionManager} {objectAvailability : ExtTreeMap InputKey (Option Bool)}
  {digest : TransactionDigest} {cert : VerifiedExecutableTransaction} {total : Nat}
  {rest : List (InputKey × LockMode)} {inner : Inner} {pendingCert : PendingCertificate}
  {key : InputKey} {mode : LockMode}

/-- Two rows that differ in one lock. -/
theorem setRow_eq_set {table : LockTable} {before after : InputKey → Option Lock}
    {lock : Option Lock}
    (changed : ∀ lookup, after lookup = if lookup = key then lock else before lookup) :
    table.setRow digest after = (table.setRow digest before).set digest key lock := by
  funext other lookup
  simp only [LockTable.setRow, LockTable.set, LockTable.setColumn, Column.set, LockTable.column,
    changed]
  by_cases isDigest : other = digest
  · simp [isDigest]
  · simp only [isDigest, ↓reduceIte]
    split
    · next same => rw [same]
    · rfl

/-- A queue in which somebody waits or reads is not empty. -/
theorem LockQueue.Lists.not_isEmpty {queue : LockQueue}
    (lists : queue.Lists (Column.set column digest (some lock)))
    (notDefault : lock ≠ ⟨.default, true⟩) :
    queue.isEmpty = false := by
  cases isEmpty : queue.isEmpty with
  | false => rfl
  | true => exact absurd (lists.isEmpty_iff.mp isEmpty digest lock (if_pos rfl)) notDefault

/-- The locks of a certificate that got one more. -/
theorem PendingCertificate.lock_hold (notAcquiring : pendingCert.acquiringLocks[key]? = none)
    (lookup : InputKey) :
    PendingCertificate.lock { pendingCert with
      acquiredLocks := pendingCert.acquiredLocks.insert key mode } lookup =
      if lookup = key then some ⟨mode, true⟩ else pendingCert.lock lookup := by
  unfold PendingCertificate.lock
  rw [Map.getElem?_insert]
  by_cases isKey : key = lookup
  · subst isKey
    rw [notAcquiring, if_pos rfl, if_pos rfl]
    rfl
  · rw [if_neg isKey, if_neg (Ne.symm isKey)]

section Next

variable (asking : Asking manager objectAvailability digest cert total ((key, mode) :: rest) inner
  pendingCert)

include asking

/-- Nothing is known yet about the lock on the next input. -/
theorem Asking.unlocked :
    (manager.inner.table.setRow digest pendingCert.lock).column key digest = none := by
  obtain ⟨notAcquiring, notAcquired⟩ := asking.unasked key mem_cons_self
  rw [LockTable.column, LockTable.setRow, if_pos rfl, PendingCertificate.lock, notAcquiring,
    notAcquired]
  rfl

/-- The certificate has got an answer for the lock on one more input. -/
theorem Asking.next
    {lockWaiters : ExtTreeMap InputKey LockQueue} {inputObjects : ExtTreeMap ObjectID Nat}
    {asked : PendingCertificate} (lock : Lock) (same : asked.certificate = pendingCert.certificate)
    (separate : ∀ (key : InputKey) mode, asked.acquiringLocks[key]? = some mode →
      asked.acquiredLocks[key]? = none)
    (size : asked.acquiringLocks.size + asked.acquiredLocks.size =
      pendingCert.acquiringLocks.size + pendingCert.acquiredLocks.size + 1)
    (others : ∀ other, other ≠ key →
      asked.acquiringLocks[other]? = pendingCert.acquiringLocks[other]? ∧
      asked.acquiredLocks[other]? = pendingCert.acquiredLocks[other]?)
    (changed : ∀ lookup, asked.lock lookup =
      if lookup = key then some lock else pendingCert.lock lookup)
    (lists : (lockWaiters[key]?.getD LockQueue.empty).Lists
      (((manager.inner.table.setRow digest pendingCert.lock).column key).set digest (some lock)))
    (nonempty : ∀ queue : LockQueue, lockWaiters[key]? = some queue → queue.isEmpty = false)
    (elsewhere : ∀ other : InputKey, other ≠ key → lockWaiters[other]? = inner.lockWaiters[other]?)
    (counted : ∀ id : ObjectID, inputObjects[id]? =
      if waiting manager.inner.pendingCertificates id + asked.waits id = 0 then none
      else some (waiting manager.inner.pendingCertificates id + asked.waits id))
    (guarded : lock = ⟨.default, true⟩ → ∀ other, ¬((manager.inner.table.setRow digest
      pendingCert.lock).column key).ReadOnly other)
    (settled : objectAvailability[key]? ≠ some (some false) →
      ((manager.inner.table.setRow digest pendingCert.lock).column key).Settled →
      (((manager.inner.table.setRow digest pendingCert.lock).column key).set digest
        (some lock)).Settled) :
    Asking manager objectAvailability digest cert total rest
      { inner with lockWaiters := lockWaiters, inputObjects := inputObjects } asked := by
  have table := @setRow_eq_set digest key manager.inner.table _ _ _ changed
  have distinct := asking.distinct
  rw [map_cons, nodup_cons] at distinct
  have columnHere : (manager.inner.table.setRow digest asked.lock).column key =
      ((manager.inner.table.setRow digest pendingCert.lock).column key).set digest (some lock) := by
    rw [table, LockTable.set, LockTable.column_setColumn]
  have columnElsewhere : ∀ other, other ≠ key →
      (manager.inner.table.setRow digest asked.lock).column other =
        (manager.inner.table.setRow digest pendingCert.lock).column other := by
    intro other different
    rw [table, LockTable.set, LockTable.column_setColumn_of_ne _ different]
  constructor
  · exact asking.samePending
  · exact asking.sameExecuting
  · exact asking.sameEpoch
  · exact asking.sameCache
  · exact same.trans asking.certificate
  · exact separate
  · have before := asking.size
    rw [length_cons] at before
    omega
  · exact distinct.2
  · intro other later
    have different : other ≠ key := fun isKey => distinct.1 (isKey ▸ later)
    rw [(others other different).1, (others other different).2]
    exact asking.unasked other (mem_cons_of_mem _ later)
  · intro other
    by_cases isKey : other = key
    · subst isKey
      rw [columnHere]
      exact lists
    · rw [columnElsewhere other isKey, queue, elsewhere other isKey]
      exact asking.lists other
  · intro other
    by_cases isKey : other = key
    · subst isKey
      exact nonempty
    · rw [elsewhere other isKey]
      exact asking.nonempty other
  · exact counted
  · refine asking.steps.tail ⟨digest, key, some lock, table, ?_, ?_⟩
    · have unlocked : manager.inner.table.setRow digest pendingCert.lock digest key = none :=
        asking.unlocked
      rw [unlocked]
      exact .join rfl lock
    · intro isDefault other _
      exact guarded (Option.some.inj isDefault) other
  · intro other available before
    by_cases isKey : other = key
    · subst isKey
      rw [columnHere]
      exact settled available (asking.settled other available before)
    · rw [columnElsewhere other isKey]
      exact asking.settled other available before

/-- A lock that is not available has to be waited for. -/
theorem Asking.wait (reason : objectAvailability[key]? = some (some false) ∨ mode = .default ∧
      ∃ reader, ((manager.inner.table.setRow digest pendingCert.lock).column key).ReadOnly reader) :
    ∃ result, waitForLock digest key mode inner pendingCert = .ok result ∧
      Asking manager objectAvailability digest cert total rest result.1 result.2 := by
  have unlocked := asking.unlocked
  obtain ⟨notAcquiring, notAcquired⟩ := asking.unasked key mem_cons_self
  obtain ⟨queue, inserted, lists⟩ := (asking.lists key).insertWaiter unlocked mode
  have queueHere : (inner.lockWaiters.insert key queue)[key]? = some queue := by
    rw [Map.getElem?_insert, if_pos rfl]
  have waits : ∀ id, PendingCertificate.waits { pendingCert with
      acquiringLocks := pendingCert.acquiringLocks.insert key mode } id =
      (if key.id = id then 1 else 0) + pendingCert.waits id := by
    intro id
    unfold PendingCertificate.waits
    rw [Map.total_insert, Map.erase_of_absent notAcquiring]
  refine ⟨_, bind_of inserted rfl, ?_⟩
  refine asking.next ⟨mode, false⟩ rfl ?_ ?_ ?_ ?_ ?_ ?_ ?_ ?_ ?_ ?_
  · intro other mode' found
    rw [Map.getElem?_insert] at found
    split at found
    · next isKey => rw [← isKey, notAcquired]
    · exact asking.separate other mode' found
  · dsimp only
    rw [Map.size_insert_of_absent notAcquiring]
    omega
  · intro other different
    exact ⟨(Map.getElem?_insert _ _ _ _).trans (if_neg different.symm), rfl⟩
  · intro lookup
    unfold PendingCertificate.lock
    rw [Map.getElem?_insert]
    by_cases isKey : key = lookup
    · rw [if_pos isKey, if_pos isKey.symm]
    · rw [if_neg isKey, if_neg (Ne.symm isKey)]
  · rw [queueHere]
    exact lists
  · intro found isFound
    rw [queueHere] at isFound
    cases isFound
    exact lists.not_isEmpty (by simp)
  · intro other different
    rw [Map.getElem?_insert, if_neg different.symm]
  · intro id
    rw [waits, Map.getElem?_insert]
    by_cases here : key.id = id
    · subst here
      have before : inner.inputObjects[key.id]?.getD 0 =
          waiting manager.inner.pendingCertificates key.id + pendingCert.waits key.id := by
        rw [asking.counted]
        split
        · next zero => exact zero.symm
        · rfl
      have positive : waiting manager.inner.pendingCertificates key.id +
          (1 + pendingCert.waits key.id) ≠ 0 := by omega
      simp only [↓reduceIte, before, positive, Option.some.injEq]
      omega
    · simp only [here, ↓reduceIte, Nat.zero_add]
      exact asking.counted id
  · exact nofun
  · intro available before
    obtain ⟨rfl, reads⟩ := reason.resolve_left available
    exact before.set_default unlocked reads

/-- A lock that is available is held. -/
theorem Asking.hold (lists : (lockWaiters[key]?.getD LockQueue.empty).Lists
      (((manager.inner.table.setRow digest pendingCert.lock).column key).set digest
        (some ⟨mode, true⟩)))
    (nonempty : ∀ queue : LockQueue, lockWaiters[key]? = some queue → queue.isEmpty = false)
    (elsewhere : ∀ other : InputKey, other ≠ key → lockWaiters[other]? = inner.lockWaiters[other]?)
    (guarded : mode = .default → ∀ other, ¬((manager.inner.table.setRow digest
      pendingCert.lock).column key).ReadOnly other) :
    Asking manager objectAvailability digest cert total rest
      { inner with lockWaiters := lockWaiters } { pendingCert with
        acquiredLocks := pendingCert.acquiredLocks.insert key mode } := by
  obtain ⟨notAcquiring, notAcquired⟩ := asking.unasked key mem_cons_self
  refine asking.next ⟨mode, true⟩ rfl ?_ ?_ ?_ ?_ lists nonempty elsewhere asking.counted ?_ ?_
  · intro other mode' found
    rw [Map.getElem?_insert, if_neg]
    · exact asking.separate other mode' found
    · rintro rfl
      rw [notAcquiring] at found
      cases found
  · dsimp only
    rw [Map.size_insert_of_absent notAcquired]
    omega
  · intro other different
    exact ⟨rfl, (Map.getElem?_insert _ _ _ _).trans (if_neg different.symm)⟩
  · exact PendingCertificate.lock_hold notAcquiring
  · intro isDefault
    exact guarded (by cases isDefault; rfl)
  · exact fun _ before => before.set_held asking.unlocked mode

/-- The certificate acquires the lock on the next input, or waits for it. -/
theorem Asking.enqueueLock (answered : objectAvailability[key]? = some (some available)) :
    ∃ result, enqueueLock objectAvailability digest (inner, pendingCert) (key, mode) = .ok result ∧
      Asking manager objectAvailability digest cert total rest result.1 result.2 := by
  have unlocked := asking.unlocked
  have lists := asking.lists key
  dsimp only [TransactionManager.enqueueLock]
  rw [answered]
  cases available with
  | false => exact asking.wait (.inl answered)
  | true =>
    cases mode with
    | default =>
      by_cases reads : (inner.queue key).hasReadonly = true
      · obtain ⟨result, performed, next⟩ := asking.wait (.inr ⟨rfl, lists.hasReadonly_iff.mp reads⟩)
        exact ⟨result, (if_pos reads).trans performed, next⟩
      · refine ⟨_, if_neg reads, asking.hold ?_ (asking.nonempty key) (fun _ _ => rfl) ?_⟩
        · exact lists.of_sameQueue (Column.sameQueue_set_default unlocked)
        · exact fun _ reader readOnly => reads (lists.hasReadonly_iff.mpr ⟨reader, readOnly⟩)
    | readOnly =>
      obtain ⟨queue, inserted, after⟩ := lists.insertHolder unlocked
      have queueHere : (inner.lockWaiters.insert key queue)[key]? = some queue := by
        rw [Map.getElem?_insert, if_pos rfl]
      refine ⟨_, bind_of inserted rfl, asking.hold ?_ ?_ ?_ ?_⟩
      · rw [queueHere]
        exact after
      · intro found isFound
        rw [queueHere] at isFound
        cases isFound
        exact after.not_isEmpty (by simp)
      · intro other different
        rw [Map.getElem?_insert, if_neg different.symm]
      · exact nofun

end Next

/-! ## One certificate -/

/-- What enqueueing changes: locks are only added, and whoever waits for an available input
waits for a reader. -/
structure Enqueues (manager : TransactionManager)
    (objectAvailability : ExtTreeMap InputKey (Option Bool)) (next : TransactionManager) :
    Prop where
  consistent : Consistent next
  epoch : next.inner.epoch = manager.inner.epoch
  cache : next.inner.availableObjectsCache = manager.inner.availableObjectsCache
  steps : manager.inner.table.Steps none next.inner.table
  settled : ∀ key : InputKey, objectAvailability[key]? ≠ some (some false) →
    (manager.inner.table.column key).Settled → (next.inner.table.column key).Settled
  executing : ∀ (other : TransactionDigest) locks,
    manager.inner.executingCertificates[other]? = some locks →
    next.inner.executingCertificates[other]? = some locks
  sent : ∀ other ∈ manager.sent, other ∈ next.sent
  fresh : ∀ other ∈ next.sent, other ∈ manager.sent ∨
    (next.inner.executingCertificates[other]?).isSome
  origin : ∀ (other : TransactionDigest) locks,
    next.inner.executingCertificates[other]? = some locks →
    manager.inner.executingCertificates[other]? = some locks ∨ other ∉ manager.sent

theorem Enqueues.refl (consistent : Consistent manager) :
    Enqueues manager objectAvailability manager where
  consistent := consistent
  epoch := rfl
  cache := rfl
  steps := .refl
  settled _ _ before := before
  executing _ _ found := found
  sent _ isSent := isSent
  fresh _ isSent := .inl isSent
  origin _ _ found := .inl found

/-- Enqueueing one batch after the other. -/
theorem Enqueues.trans {middle next : TransactionManager}
    (first : Enqueues manager objectAvailability middle)
    (second : Enqueues middle objectAvailability next) :
    Enqueues manager objectAvailability next where
  consistent := second.consistent
  epoch := second.epoch.trans first.epoch
  cache := second.cache.trans first.cache
  steps := Relation.ReflTransGen.trans first.steps second.steps
  settled key available before := second.settled key available (first.settled key available before)
  executing other locks found := second.executing other locks (first.executing other locks found)
  sent other isSent := second.sent other (first.sent other isSent)
  fresh other isSent := by
    rcases second.fresh other isSent with early | late
    · rcases first.fresh other early with earlier | executing
      · exact .inl earlier
      · exact .inr (isSome_of_kept (second.executing other) executing)
    · exact .inr late
  origin other locks found := by
    rcases second.origin other locks found with executing | notSent
    · exact first.origin other locks executing
    · exact .inr fun isSent => notSent (first.sent other isSent)

section Certificate

variable (consistent : Consistent manager)
  (notPending : manager.inner.pendingCertificates[digest]? = none)
  (notExecuting : manager.inner.executingCertificates[digest]? = none)
  (notSent : digest ∉ manager.sent)
  (isDigest : cert.digest = digest)

include notPending notExecuting in
theorem setRow_unknown (unlocked : ∀ key, row key = none) :
    manager.inner.table.setRow digest row = manager.inner.table := by
  funext other key
  unfold LockTable.setRow
  split
  · next same =>
    rw [unlocked, same, table, notPending, notExecuting]
    rfl
  · rfl

include consistent notPending notExecuting in
/-- A certificate that has not asked for any lock. -/
theorem asking_start (expectedEffectsDigest : Option TransactionEffectsDigest) (locks : Locks) :
    Asking manager objectAvailability digest cert locks.size locks.toList manager.inner
      ⟨cert, expectedEffectsDigest, ∅, ∅⟩ := by
  have row : manager.inner.table.setRow digest
      (PendingCertificate.lock ⟨cert, expectedEffectsDigest, ∅, ∅⟩) = manager.inner.table :=
    setRow_unknown notPending notExecuting fun _ => rfl
  constructor
  · rfl
  · rfl
  · rfl
  · rfl
  · rfl
  · exact nofun
  · simp
  · rw [ExtTreeMap.map_fst_toList_eq_keys]
    exact ExtTreeMap.nodup_keys
  · exact fun key _ => ⟨rfl, rfl⟩
  · rw [row]
    exact fun key => (consistent.queued key).lists
  · exact fun key => (consistent.queued key).nonempty
  · exact consistent.certified.counted
  · rw [row]
    exact .refl
  · rw [row]
    exact fun _ _ before => before

include consistent notPending notSent in
/-- The tables stay as they should when one more certificate is sent. -/
theorem Consistent.certified_send {next : TransactionManager}
    (samePending : next.inner.pendingCertificates = manager.inner.pendingCertificates)
    (elsewhere : ∀ other : TransactionDigest, other ≠ digest →
      next.inner.executingCertificates[other]? = manager.inner.executingCertificates[other]?)
    (sent : next.sent = manager.sent ++ [digest])
    (counted : ∀ id : ObjectID, next.inner.inputObjects[id]? =
      if waiting manager.inner.pendingCertificates id = 0 then none
      else some (waiting manager.inner.pendingCertificates id)) :
    Certified next := by
  constructor
  · intro other cert' found
    rw [samePending] at found
    rw [elsewhere, consistent.certified.disjoint other cert' found]
    rintro rfl
    rw [notPending] at found
    cases found
  · rw [samePending]
    exact consistent.certified.digest
  · rw [samePending]
    exact consistent.certified.proper
  · rw [samePending]
    exact consistent.certified.incomplete
  · rw [samePending]
    exact counted
  · rw [sent, ← concat_eq_append]
    exact consistent.certified.sentOnce.concat notSent
  · intro other cert' found isSent
    rw [samePending] at found
    rw [sent] at isSent
    rcases mem_snoc.mp isSent with early | late
    · exact consistent.certified.notSent other cert' found early
    · rw [late, notPending] at found
      cases found
  · intro other locks found
    rw [sent]
    by_cases same : other = digest
    · rw [same]
      exact mem_append_right _ (mem_singleton_self _)
    · rw [elsewhere other same] at found
      exact mem_append_left _ (consistent.certified.executing other locks found)

include consistent notPending notExecuting notSent isDigest in
/-- A certificate that has all its locks is sent. -/
theorem Asking.send (asking : Asking manager objectAvailability digest cert
      (cert.inputObjects.length + cert.receivingObjects.length) [] inner pendingCert)
    (complete : pendingCert.acquiringLocks.isEmpty = true) :
    ∃ next, certificateReady { manager with inner := inner } pendingCert = .ok next ∧
      Enqueues manager objectAvailability next := by
  have isCert := asking.certificate
  have proper : pendingCert.Proper := ⟨asking.separate, by rw [isCert]; exact asking.size⟩
  obtain ⟨next, performed, sends⟩ := @certificateReady_sends { manager with inner := inner }
    pendingCert proper complete (by
      rw [asking.sameExecuting, isCert, isDigest, notExecuting])
  have pendingAfter : next.inner.pendingCertificates = manager.inner.pendingCertificates :=
    ((congrArg Inner.pendingCertificates sends.inner).trans rfl).trans asking.samePending
  have executingHere : next.inner.executingCertificates[digest]? =
      some pendingCert.acquiredLocks := by
    have here := sends.executing pendingCert (mem_singleton_self _)
    rwa [isCert, isDigest] at here
  have executingElsewhere : ∀ other : TransactionDigest, other ≠ digest →
      next.inner.executingCertificates[other]? = manager.inner.executingCertificates[other]? := by
    intro other different
    rw [sends.others other, ← asking.sameExecuting]
    intro ready isReady
    rw [mem_singleton.mp isReady, isCert, isDigest]
    exact different.symm
  have sentAfter : next.sent = manager.sent ++ [digest] := by
    rw [sends.sent, map_singleton, isCert, isDigest]
    rfl
  have table : next.inner.table = manager.inner.table.setRow digest pendingCert.lock := by
    funext other key
    unfold LockTable.setRow
    split
    · next same =>
      rw [same, table, pendingAfter, notPending, executingHere,
        PendingCertificate.lock_of_complete complete]
      rfl
    · next different =>
      rw [table, table, pendingAfter, executingElsewhere other different]
  have queuesAfter : next.inner.lockWaiters = inner.lockWaiters :=
    (congrArg Inner.lockWaiters sends.inner).trans rfl
  have nothing : ∀ id, pendingCert.waits id = 0 := by
    intro id
    rw [PendingCertificate.waits, ExtTreeMap.isEmpty_iff.mp complete, Map.total_empty]
  refine ⟨next, performed, ?_⟩
  constructor
  · refine ⟨consistent.certified_send notPending notSent pendingAfter executingElsewhere sentAfter
      fun id => ?_, ?_⟩
    · have counted := asking.counted id
      rw [nothing, Nat.add_zero] at counted
      rw [congrArg Inner.inputObjects sends.inner]
      exact counted
    · intro key
      constructor
      · rw [queue, queuesAfter, table]
        exact asking.lists key
      · rw [queuesAfter]
        exact asking.nonempty key
  · exact ((congrArg Inner.epoch sends.inner).trans rfl).trans asking.sameEpoch
  · exact ((congrArg Inner.availableObjectsCache sends.inner).trans rfl).trans asking.sameCache
  · rw [table]
    exact asking.steps
  · rw [table]
    exact asking.settled
  · intro other locks found
    rw [executingElsewhere, found]
    rintro rfl
    rw [notExecuting] at found
    cases found
  · intro other isSent
    rw [sentAfter]
    exact mem_append_left _ isSent
  · exact fun other isSent => sends.fresh isSent
  · intro other locks found
    refine (sends.origin found).imp (asking.sameExecuting ▸ id) ?_
    rintro ⟨ready, isReady, rfl⟩
    rwa [mem_singleton.mp isReady, isCert, isDigest]

include consistent notPending notExecuting notSent isDigest in
/-- A certificate that waits for some lock is pending. -/
theorem Asking.insert (asking : Asking manager objectAvailability digest cert
      (cert.inputObjects.length + cert.receivingObjects.length) [] inner pendingCert)
    (incomplete : pendingCert.acquiringLocks.isEmpty = false) :
    Enqueues manager objectAvailability { manager with
      inner := { inner with
        pendingCertificates := inner.pendingCertificates.insert digest pendingCert } } := by
  have isCert := asking.certificate
  -- What holds of the new certificate and of the pending ones holds of all.
  have all {property : TransactionDigest → PendingCertificate → Prop}
      (new : property digest pendingCert) (old : ∀ other cert',
        manager.inner.pendingCertificates[other]? = some cert' → property other cert') :=
    Map.forall_insert new (asking.samePending.symm ▸ old)
  have table : table { inner with
      pendingCertificates := inner.pendingCertificates.insert digest pendingCert } =
      manager.inner.table.setRow digest pendingCert.lock := by
    funext other key
    unfold LockTable.setRow table
    rw [Map.getElem?_insert, asking.samePending, asking.sameExecuting]
    by_cases same : digest = other
    · rw [if_pos same, if_pos same.symm]
    · rw [if_neg same, if_neg (Ne.symm same)]
  have total : ∀ id, waiting (inner.pendingCertificates.insert digest pendingCert) id =
      waiting manager.inner.pendingCertificates id + pendingCert.waits id := by
    intro id
    unfold waiting
    rw [Map.total_insert, asking.samePending, Map.erase_of_absent notPending, Nat.add_comm]
  constructor
  · refine ⟨?_, ?_⟩
    · constructor
      · rw [asking.sameExecuting]
        exact all notExecuting consistent.certified.disjoint
      · exact all (by rw [isCert, isDigest]) consistent.certified.digest
      · exact all ⟨asking.separate, by rw [isCert]; exact asking.size⟩ consistent.certified.proper
      · exact all incomplete consistent.certified.incomplete
      · intro id
        rw [total]
        exact asking.counted id
      · exact consistent.certified.sentOnce
      · exact all notSent consistent.certified.notSent
      · rw [asking.sameExecuting]
        exact consistent.certified.executing
    · intro key
      constructor
      · rw [table]
        exact asking.lists key
      · exact asking.nonempty key
  · exact asking.sameEpoch
  · exact asking.sameCache
  · rw [table]
    exact asking.steps
  · rw [table]
    exact asking.settled
  · rw [asking.sameExecuting]
    exact fun _ _ found => found
  · exact fun _ isSent => isSent
  · exact fun _ isSent => .inl isSent
  · rw [asking.sameExecuting]
    exact fun _ _ found => .inl found

end Certificate

end Asking

end Sui.TransactionManager
