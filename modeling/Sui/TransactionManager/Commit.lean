import Sui.TransactionManager.Consistency

/-!
# Commits

When an input becomes available, or a read-only lock on it is released, the transactions
that wait for it acquire the lock: all that want to read the input, or, if nobody reads
it, all others.  Those that have all their locks then are sent to execution.

This never fails, it keeps the tables consistent, and whoever still waits afterwards wants
a default lock on an input for which there is a read-only lock.
-/

namespace Sui.TransactionManager

open Library
open List hiding after
open Authority (ObjectID TransactionDigest)
open Std (ExtTreeMap ExtTreeSet)

section

open Std.ExtTreeSet LockTable PendingCertificate
open TransactionManager.Inner (table)

/-- What giving out the lock on an input changes: some transactions acquire it, and those
that have all their locks are sent. -/
structure GivesOut (manager : TransactionManager) (key : InputKey)
    (digests : ExtTreeSet TransactionDigest) (next : TransactionManager) : Prop where
  epoch : next.inner.epoch = manager.inner.epoch
  cache : next.inner.availableObjectsCache = manager.inner.availableObjectsCache
  /-- Default locks are given out only when there is no read-only lock. -/
  possible : ∀ digest ∈ digests, ∃ mode,
    manager.inner.table.column key digest = some ⟨mode, false⟩ ∧
    (mode = .default → ∀ reader, ¬(manager.inner.table.column key).ReadOnly reader)
  table : next.inner.table = manager.inner.table.grant key digests
  settled : (next.inner.table.column key).Settled
  queued : next.inner.Queued key
  others : ∀ other : InputKey, other ≠ key →
    next.inner.lockWaiters[other]? = manager.inner.lockWaiters[other]?
  certified : Certified next
  pending : ∀ (digest : TransactionDigest) cert,
    next.inner.pendingCertificates[digest]? = some cert →
    (manager.inner.pendingCertificates[digest]?).isSome
  executing : ∀ (digest : TransactionDigest) locks,
    manager.inner.executingCertificates[digest]? = some locks →
    next.inner.executingCertificates[digest]? = some locks
  sent : ∀ digest ∈ manager.sent, digest ∈ next.sent
  fresh : ∀ digest ∈ next.sent, digest ∈ manager.sent ∨
    (next.inner.executingCertificates[digest]?).isSome
  origin : ∀ (digest : TransactionDigest) locks,
    next.inner.executingCertificates[digest]? = some locks →
    manager.inner.executingCertificates[digest]? = some locks ∨
      (manager.inner.pendingCertificates[digest]?).isSome

theorem Column.grant_empty (column : Column) : column.grant ∅ = column := by
  funext digest
  exact if_neg not_mem_empty

theorem LockTable.grant_empty (table : LockTable) (key : InputKey) : table.grant key ∅ = table := by
  rw [grant, Column.grant_empty, setColumn_self]

/-- A queue that is put back is found again; no empty queue is kept. -/
theorem Inner.putBack_self (inner : Inner) (key : InputKey) (queue : LockQueue) :
    let lockWaiters := if queue.isEmpty then inner.lockWaiters.erase key
      else inner.lockWaiters.insert key queue
    lockWaiters[key]?.getD .empty = queue ∧
      ∀ found : LockQueue, lockWaiters[key]? = some found → found.isEmpty = false := by
  dsimp only
  split
  · next isEmpty =>
    rw [Map.getElem?_erase, if_pos rfl, LockQueue.eq_empty_of_isEmpty isEmpty]
    exact ⟨rfl, nofun⟩
  · next nonempty =>
    rw [Map.getElem?_insert, if_pos rfl]
    refine ⟨rfl, ?_⟩
    rintro _ ⟨⟩
    exact Bool.eq_false_iff.mpr nonempty

theorem Inner.getElem?_putBack_of_ne (inner : Inner) (different : other ≠ key) (queue : LockQueue) :
    (if queue.isEmpty then inner.lockWaiters.erase key
      else inner.lockWaiters.insert key queue)[other]? = inner.lockWaiters[other]? := by
  split
  · rw [Map.getElem?_erase, if_neg different.symm]
  · rw [Map.getElem?_insert, if_neg different.symm]

theorem Inner.table_eq_waiting_iff {inner : Inner} {mode : LockMode} :
    inner.table digest key = some ⟨mode, false⟩ ↔
      ∃ cert, inner.pendingCertificates[digest]? = some cert ∧
        cert.acquiringLocks[key]? = some mode := by
  unfold table
  split
  · next cert found => simp [found, lock_eq_waiting_iff]
  · next absent => simp [absent, Option.bind_eq_some_iff]

variable {manager : TransactionManager} {key : InputKey}

section

variable (certified : Certified manager)

include certified

/-- The waiters of a queue are pending certificates. -/
theorem Certified.wants {digest : TransactionDigest}
    (waits : manager.inner.table.column key digest = some ⟨mode, false⟩) :
    Wants manager.inner.pendingCertificates key digest := by
  obtain ⟨cert, found, wanted⟩ := Inner.table_eq_waiting_iff.mp waits
  exact ⟨cert, mode, found, wanted, certified.proper digest cert found,
    certified.digest digest cert found⟩

/-- The table after the locks were granted. -/
theorem table_of_acquired {next : TransactionManager}
    (acquired : Acquired key digests.toList manager.inner.pendingCertificates
      next.inner.pendingCertificates ready)
    (sends : Sends middle ready next)
    (same : middle.inner.executingCertificates = manager.inner.executingCertificates) :
    next.inner.table = manager.inner.table.grant key digests := by
  funext digest lookup
  by_cases chosen : digest ∈ digests
  · obtain ⟨cert, mode, found, wanted, outcome⟩ := acquired.acquired digest (mem_toList.mpr chosen)
    have before : ∀ lookup, manager.inner.table digest lookup = cert.lock lookup := by
      intro lookup
      rw [table, found]
    have waits : cert.lock key = some ⟨mode, false⟩ := lock_eq_waiting_iff.mpr wanted
    have after : next.inner.table digest lookup = (cert.acquire key mode).lock lookup := by
      rcases outcome with ⟨kept, _⟩ | ⟨removed, isReady⟩
      · rw [table, kept]
      · have sent := sends.executing _ isReady
        have complete := (acquired.removed _ isReady).2.2
        have isDigest : (cert.acquire key mode).certificate.digest = digest :=
          certified.digest digest cert found
        rw [isDigest] at sent
        rw [table, removed, sent, lock_of_complete complete]
        rfl
    rw [after, lock_acquire, grant, setColumn, before]
    split
    · rw [Column.grant, if_pos chosen, column, before, waits]
      rfl
    · rfl
  · have notReady : ∀ cert ∈ ready, cert.certificate.digest ≠ digest := by
      rintro cert isReady rfl
      exact chosen (mem_toList.mp (acquired.removed cert isReady).1)
    have absent : digest ∉ digests.toList := mem_toList.not.mpr chosen
    have unchanged : next.inner.table digest lookup = manager.inner.table digest lookup := by
      rw [table, table, acquired.others digest absent, sends.others digest notReady, same]
    rw [unchanged, grant, setColumn, Column.grant, if_neg chosen]
    split
    · next same => rw [same, column]
    · rfl

/-- What is certified stays so when locks are granted. -/
theorem Certified.of_acquired {next : TransactionManager}
    (acquired : Acquired key digests manager.inner.pendingCertificates
      next.inner.pendingCertificates ready)
    (sends : Sends middle ready next)
    (same : middle.inner.executingCertificates = manager.inner.executingCertificates)
    (sameSent : middle.sent = manager.sent)
    (counted : ∀ id : ObjectID, next.inner.inputObjects[id]? =
      if waiting next.inner.pendingCertificates id = 0 then none
      else some (waiting next.inner.pendingCertificates id)) :
    Certified next := by
  have sent := sends.sent
  have others := sends.others
  rw [same] at others
  rw [sameSent] at sent
  -- A pending certificate was pending before, maybe with one lock less.
  have origin : ∀ (digest : TransactionDigest) cert,
      next.inner.pendingCertificates[digest]? = some cert →
      (∃ old, manager.inner.pendingCertificates[digest]? = some old ∧
        cert.certificate.digest = old.certificate.digest ∧ cert.Proper ∧
        cert.acquiringLocks.isEmpty = false) ∧
      ∀ other ∈ ready, other.certificate.digest ≠ digest := by
    intro digest cert found
    constructor
    · by_cases chosen : digest ∈ digests
      · obtain ⟨old, mode, isOld, wanted, outcome⟩ := acquired.acquired digest chosen
        rcases outcome with ⟨kept, incomplete⟩ | ⟨removed, _⟩
        · rw [kept] at found
          cases found
          exact ⟨old, isOld, rfl, (certified.proper digest old isOld).acquire wanted, incomplete⟩
        · rw [removed] at found
          cases found
      · rw [acquired.others digest chosen] at found
        exact ⟨cert, found, rfl, certified.proper digest cert found,
          certified.incomplete digest cert found⟩
    · rintro other isReady rfl
      rw [(acquired.removed other isReady).2.1] at found
      cases found
  constructor
  · intro digest cert found
    obtain ⟨⟨old, isOld, _⟩, notReady⟩ := origin digest cert found
    rw [others digest notReady, certified.disjoint digest old isOld]
  · intro digest cert found
    obtain ⟨⟨old, isOld, same, _⟩, _⟩ := origin digest cert found
    rw [same, certified.digest digest old isOld]
  · intro digest cert found
    obtain ⟨⟨old, _, _, proper, _⟩, _⟩ := origin digest cert found
    exact proper
  · intro digest cert found
    obtain ⟨⟨old, _, _, _, incomplete⟩, _⟩ := origin digest cert found
    exact incomplete
  · exact counted
  · rw [sent]
    refine nodup_append.mpr ⟨certified.sentOnce, acquired.distinct, ?_⟩
    rintro left isSent right isReady rfl
    obtain ⟨cert, listed, rfl⟩ := mem_map.mp isReady
    obtain ⟨old, _, isOld, _⟩ := acquired.origin cert listed
    exact certified.notSent _ old isOld isSent
  · intro digest cert found isSent
    obtain ⟨⟨old, isOld, _⟩, notReady⟩ := origin digest cert found
    rw [sent] at isSent
    rcases mem_append.mp isSent with early | late
    · exact certified.notSent digest old isOld early
    · obtain ⟨other, isReady, same⟩ := mem_map.mp late
      exact notReady other isReady same
  · intro digest locks found
    rw [sent, mem_append]
    by_cases isReady : ∃ cert ∈ ready, cert.certificate.digest = digest
    · obtain ⟨cert, listed, rfl⟩ := isReady
      exact .inr (mem_map_of_mem listed)
    · rw [others digest fun cert listed same => isReady ⟨cert, listed, same⟩] at found
      exact .inl (certified.executing digest locks found)

/-- If nobody can go on, nothing is given out. -/
theorem givesOut_of_nobody (settled : (manager.inner.table.column key).Settled)
    {lockWaiters : ExtTreeMap InputKey LockQueue}
    (lists : (lockWaiters[key]?.getD LockQueue.empty).Lists (manager.inner.table.column key))
    (nonempty : ∀ queue : LockQueue, lockWaiters[key]? = some queue → queue.isEmpty = false)
    (others : ∀ other : InputKey, other ≠ key →
      lockWaiters[other]? = manager.inner.lockWaiters[other]?) :
    GivesOut manager key ∅ { manager with
      inner := { manager.inner with lockWaiters := lockWaiters } } where
  epoch := rfl
  cache := rfl
  possible _ chosen := absurd chosen not_mem_empty
  table := (grant_empty _ _).symm
  settled := settled
  queued := ⟨lists, nonempty⟩
  others := others
  certified := { certified with }
  pending _ _ found := Option.isSome_of_eq_some found
  executing _ _ found := found
  sent _ isSent := isSent
  fresh _ isSent := .inl isSent
  origin _ _ found := .inl found

end

theorem nodup_toList (digests : ExtTreeSet TransactionDigest) : digests.toList.Nodup := by
  apply distinct_toList.imp
  rintro left right different rfl
  exact different Std.ReflOrd.compare_self

section

variable (certified : Certified manager)

include certified

/-- The tables when the waiters of a queue have acquired the lock. -/
def Inner.granted (inner : Inner) (key : InputKey) (queue : LockQueue)
    (after : PendingCertificates) : Inner :=
  { inner with
    lockWaiters := if queue.takeWaiters.2.isEmpty then inner.lockWaiters.erase key
      else inner.lockWaiters.insert key queue.takeWaiters.2
    inputObjects := if waiting after key.id = 0 then inner.inputObjects.erase key.id
      else inner.inputObjects.insert key.id (waiting after key.id)
    pendingCertificates := after }

/-- The waiters of a queue acquire the lock. -/
theorem exists_tryAcquireLock (lists : queue.Lists (manager.inner.table.column key))
    (found : manager.inner.lockWaiters[key]? = some queue)
    (somebody : queue.takeWaiters.1.isEmpty = false) :
    ∃ after ready, manager.inner.tryAcquireLock key false =
        .ok (manager.inner.granted key queue after, ready) ∧
      Acquired key queue.takeWaiters.1.toList manager.inner.pendingCertificates after ready := by
  obtain ⟨after, ready, performed, acquired⟩ := foldlM_acquireLock
    (nodup_toList queue.takeWaiters.1) (fun digest listed => by
      obtain ⟨mode, waits, _⟩ := lists.mem_takeWaiters (mem_toList.mp listed)
      exact certified.wants waits) []
  refine ⟨after, ready, ?_, acquired⟩
  have positive : 0 < queue.takeWaiters.1.size := by
    obtain ⟨first, isFirst⟩ := LockQueue.isEmpty_eq_false_iff.mp somebody
    have listed := length_pos_of_mem (mem_toList.mpr isFirst)
    rwa [length_toList] at listed
  have here := acquired.counted key.id
  rw [if_pos rfl, length_toList] at here
  have counter : manager.inner.inputObjects[key.id]? =
      some (waiting manager.inner.pendingCertificates key.id) := by
    rw [certified.counted, if_neg (by omega)]
  unfold Inner.tryAcquireLock
  dsimp only
  rw [if_neg Bool.false_ne_true, found]
  dsimp only
  rw [if_neg (Bool.eq_false_iff.mp somebody), counter]
  refine bind_eq_ok.mpr ⟨waiting after key.id, checkedSub_eq_ok.mpr ⟨by omega, by omega⟩, ?_⟩
  exact bind_of performed rfl

/-- The inputs are counted again. -/
theorem Inner.counted_granted (queue : LockQueue)
    (acquired : Acquired key digests manager.inner.pendingCertificates after ready)
    (id : ObjectID) :
    (manager.inner.granted key queue after).inputObjects[id]? =
      if waiting after id = 0 then none else some (waiting after id) := by
  have before := certified.counted id
  have change := acquired.counted id
  dsimp only [Inner.granted]
  by_cases same : key.id = id
  · subst same
    split
    · rw [Map.getElem?_erase, if_pos rfl]
    · rw [Map.getElem?_insert, if_pos rfl]
  · rw [if_neg same, Nat.add_zero] at change
    rw [← change, ← before]
    split
    · rw [Map.getElem?_erase, if_neg same]
    · rw [Map.getElem?_insert, if_neg same]

/-- The waiters that can go on get the lock, and those with all their locks are sent. -/
theorem exists_givesOut_of_waiters (lists : queue.Lists (manager.inner.table.column key))
    (found : manager.inner.lockWaiters[key]? = some queue)
    (somebody : queue.takeWaiters.1.isEmpty = false) :
    ∃ next, manager.acquireAndSend key false = .ok next ∧
      GivesOut manager key queue.takeWaiters.1 next := by
  obtain ⟨after, ready, tried, acquired⟩ := exists_tryAcquireLock certified lists found somebody
  obtain ⟨next, sending, sends⟩ := @foldlM_certificateReady
    { manager with inner := manager.inner.granted key queue after } ready acquired.distinct (by
      intro cert isReady
      obtain ⟨old, mode, isOld, wanted, rfl⟩ := acquired.origin cert isReady
      exact ⟨(certified.proper _ old isOld).acquire wanted, (acquired.removed _ isReady).2.2,
        certified.disjoint _ old isOld⟩)
  have pendingAfter : next.inner.pendingCertificates = after :=
    congrArg Inner.pendingCertificates sends.inner
  have queuesAfter := congrArg Inner.lockWaiters sends.inner
  have counted := Inner.counted_granted certified queue acquired
  rw [← pendingAfter] at acquired
  have table := table_of_acquired certified acquired sends rfl
  have column : next.inner.table.column key =
      (manager.inner.table.column key).grant queue.takeWaiters.1 := by
    rw [table, grant, column_setColumn]
  have putBack := manager.inner.putBack_self key queue.takeWaiters.2
  refine ⟨next, bind_of tried sending, ?_⟩
  constructor
  · exact (congrArg Inner.epoch sends.inner).trans rfl
  · exact (congrArg Inner.availableObjectsCache sends.inner).trans rfl
  · exact fun digest chosen => lists.mem_takeWaiters chosen
  · exact table
  · rw [column]
    exact lists.settled_takeWaiters
  · constructor
    · rw [column, Inner.queue, queuesAfter, Inner.granted, putBack.1]
      exact lists.takeWaiters
    · rw [queuesAfter]
      exact putBack.2
  · intro other different
    rw [queuesAfter]
    exact Inner.getElem?_putBack_of_ne _ different _
  · refine certified.of_acquired acquired sends rfl rfl fun id => ?_
    rw [congrArg Inner.inputObjects sends.inner, pendingAfter]
    exact counted id
  · intro digest cert isPending
    by_cases chosen : digest ∈ queue.takeWaiters.1.toList
    · obtain ⟨old, _, isOld, _⟩ := acquired.acquired digest chosen
      exact Option.isSome_of_eq_some isOld
    · rw [acquired.others digest chosen] at isPending
      exact Option.isSome_of_eq_some isPending
  · intro digest locks executing
    rw [sends.others digest]
    · exact executing
    · rintro cert isReady rfl
      obtain ⟨old, _, isOld, _⟩ := acquired.origin cert isReady
      rw [certified.disjoint _ old isOld] at executing
      cases executing
  · intro digest isSent
    rw [sends.sent]
    exact mem_append_left _ isSent
  · exact fun digest isSent => sends.fresh isSent
  · intro digest locks executing
    refine (sends.origin executing).imp_right ?_
    rintro ⟨cert, listed, rfl⟩
    obtain ⟨old, _, isOld, _⟩ := acquired.origin cert listed
    exact Option.isSome_of_eq_some isOld

/-- Giving out a lock never fails. -/
theorem exists_givesOut (lists : (manager.inner.queue key).Lists (manager.inner.table.column key)) :
    ∃ digests next, manager.acquireAndSend key false = .ok next ∧
      GivesOut manager key digests next := by
  cases found : manager.inner.lockWaiters[key]? with
  | none =>
    refine ⟨∅, manager, ?_, givesOut_of_nobody certified ?_ lists ?_ fun _ _ => rfl⟩
    · refine bind_eq_ok.mpr ⟨(manager.inner, []), ?_, rfl⟩
      unfold Inner.tryAcquireLock
      dsimp only
      rw [if_neg Bool.false_ne_true, found]
    · intro digest mode waits
      have listed := (lists.waiters digest mode).mpr waits
      rw [Inner.queue, found] at listed
      cases mode <;> exact absurd listed not_mem_empty
    · rw [found]
      exact nofun
  | some queue =>
    have isQueue : manager.inner.queue key = queue := by
      rw [Inner.queue, found]
      rfl
    rw [isQueue] at lists
    cases somebody : queue.takeWaiters.1.isEmpty with
    | false =>
      exact ⟨_, exists_givesOut_of_waiters certified lists found somebody⟩
    | true =>
      have settled := lists.settled_takeWaiters
      have left := lists.takeWaiters
      rw [isEmpty_iff.mp somebody, Column.grant_empty] at settled left
      have putBack := manager.inner.putBack_self key queue.takeWaiters.2
      refine ⟨∅, _, ?_, givesOut_of_nobody certified settled ?_ putBack.2 fun _ different =>
          Inner.getElem?_putBack_of_ne _ different queue.takeWaiters.2⟩
      · refine bind_eq_ok.mpr ⟨(_, []), ?_, rfl⟩
        unfold Inner.tryAcquireLock
        dsimp only
        rw [if_neg Bool.false_ne_true, found]
        dsimp only
        rw [if_pos somebody]
        rfl
      · rw [putBack.1]
        exact left

/-- The lock is given out, and the cache is told that the input is available. -/
theorem acquireAndSend_true
    (lists : (manager.inner.queue key).Lists (manager.inner.table.column key)) :
    ∃ digests next, manager.acquireAndSend key true = .ok next ∧
      GivesOut { manager with inner := { manager.inner with
        availableObjectsCache := manager.inner.availableObjectsCache.insert key } }
        key digests next := by
  have told : Certified { manager with inner := { manager.inner with
      availableObjectsCache := manager.inner.availableObjectsCache.insert key } } :=
    { certified with }
  obtain ⟨digests, next, performed, givesOut⟩ := exists_givesOut told lists
  refine ⟨digests, next, ?_, givesOut⟩
  exact performed

end

end

/-! ## What a commit gives out

A commit makes the objects available that the transaction wrote, and releases the
read-only locks that it held.  In both cases the lock on an input is given out. -/

open Std.ExtTreeMap

/-- The tables of the manager agree with each other. -/
structure Consistent (manager : TransactionManager) : Prop where
  certified : Certified manager
  queued : ∀ key, manager.inner.Queued key

/-- What giving out the locks on some inputs changes, one after the other. -/
structure Wakes (manager : TransactionManager) (keys : List InputKey)
    (next : TransactionManager) : Prop where
  consistent : Consistent next
  epoch : next.inner.epoch = manager.inner.epoch
  cache : next.inner.availableObjectsCache =
    keys.foldl AvailableObjectsCache.insert manager.inner.availableObjectsCache
  steps : ∀ committed, manager.inner.table.Steps committed next.inner.table
  settled : ∀ key ∈ keys, (next.inner.table.column key).Settled
  others : ∀ key, key ∉ keys → next.inner.table.column key = manager.inner.table.column key
  pending : ∀ (digest : TransactionDigest) cert,
    next.inner.pendingCertificates[digest]? = some cert →
    (manager.inner.pendingCertificates[digest]?).isSome
  executing : ∀ (digest : TransactionDigest) locks,
    manager.inner.executingCertificates[digest]? = some locks →
    next.inner.executingCertificates[digest]? = some locks
  sent : ∀ digest ∈ manager.sent, digest ∈ next.sent
  fresh : ∀ digest ∈ next.sent, digest ∈ manager.sent ∨
    (next.inner.executingCertificates[digest]?).isSome
  origin : ∀ (digest : TransactionDigest) locks,
    next.inner.executingCertificates[digest]? = some locks →
    manager.inner.executingCertificates[digest]? = some locks ∨
      (manager.inner.pendingCertificates[digest]?).isSome

theorem Wakes.refl (consistent : Consistent manager) :
    Wakes manager [] manager where
  consistent := consistent
  epoch := rfl
  cache := rfl
  steps _ := .refl
  settled := nofun
  others _ _ := rfl
  pending _ _ found := Option.isSome_of_eq_some found
  executing _ _ found := found
  sent _ isSent := isSent
  fresh _ isSent := .inl isSent
  origin _ _ found := .inl found

variable {next : TransactionManager}

/-- First the lock on one input is given out, then those on the others. -/
theorem Wakes.cons {keys : List InputKey} (one : GivesOut { manager with
      inner := { manager.inner with
        lockWaiters := lockWaiters
        availableObjectsCache := manager.inner.availableObjectsCache.insert key } }
      key digests middle)
    (many : Wakes middle keys next) :
    Wakes manager (key :: keys) next := by
  have table : middle.inner.table = manager.inner.table.grant key digests := one.table
  constructor
  · exact many.consistent
  · exact many.epoch.trans one.epoch
  · rw [many.cache, one.cache]
    rfl
  · intro committed
    refine Relation.ReflTransGen.trans ?_ (many.steps committed)
    rw [table]
    exact LockTable.steps_grant one.possible committed
  · intro other listed
    by_cases later : other ∈ keys
    · exact many.settled other later
    · rw [many.others other later]
      obtain rfl : other = key := (mem_cons.mp listed).resolve_right later
      exact one.settled
  · intro other absent
    rw [mem_cons, not_or] at absent
    rw [many.others other absent.2, table, LockTable.grant,
      LockTable.column_setColumn_of_ne _ absent.1]
  · intro digest cert found
    obtain ⟨cert', found'⟩ := Option.isSome_iff_exists.mp (many.pending digest cert found)
    exact one.pending digest cert' found'
  · exact fun digest locks found => many.executing digest locks (one.executing digest locks found)
  · exact fun digest isSent => many.sent digest (one.sent digest isSent)
  · intro digest isSent
    rcases many.fresh digest isSent with early | late
    · rcases one.fresh digest early with earlier | executing
      · exact .inl earlier
      · exact .inr (isSome_of_kept (many.executing digest) executing)
    · exact .inr late
  · intro digest locks found
    rcases many.origin digest locks found with executing | pending
    · exact one.origin digest locks executing
    · obtain ⟨cert, isPending⟩ := Option.isSome_iff_exists.mp pending
      exact .inr (one.pending digest cert isPending)

/-- Waking up others makes no certificate pending. -/
theorem Wakes.not_pending {keys : List InputKey}
    {digest : TransactionDigest} (wakes : Wakes manager keys next)
    (absent : manager.inner.pendingCertificates[digest]? = none) :
    next.inner.pendingCertificates[digest]? = none := by
  refine Option.eq_none_iff_forall_ne_some.mpr fun cert isPending => ?_
  have before := wakes.pending digest cert isPending
  rw [absent] at before
  cases before

/-- Giving out a lock leaves the manager consistent. -/
theorem GivesOut.consistent (givesOut : GivesOut manager key digests next)
    (queued : ∀ other, other ≠ key → manager.inner.Queued other) :
    Consistent next where
  certified := givesOut.certified
  queued other := by
    by_cases same : other = key
    · rw [same]
      exact givesOut.queued
    · have before := queued other same
      constructor
      · rw [Inner.queue, givesOut.others other same, givesOut.table, LockTable.grant,
          LockTable.column_setColumn_of_ne _ same]
        exact before.lists
      · rw [givesOut.others other same]
        exact before.nonempty

/-- Objects that become available wake up their waiters. -/
theorem objectsAvailableLocked_wakes (consistent : Consistent manager) (keys : List InputKey) :
    ∃ next, manager.objectsAvailableLocked manager.inner.epoch keys true = .ok next ∧
      Wakes manager keys next := by
  rw [objectsAvailableLocked, if_neg (not_not_intro rfl)]
  induction keys generalizing manager with
  | nil => exact ⟨manager, rfl, .refl consistent⟩
  | cons key keys ih =>
    obtain ⟨digests, middle, performed, one⟩ :=
      acquireAndSend_true consistent.certified (consistent.queued key).lists
    obtain ⟨next, completed, many⟩ :=
      ih (one.consistent fun other _ => { consistent.queued other with })
    refine ⟨next, ?_, Wakes.cons one many⟩
    exact bind_of performed completed

/-! ## Releasing read-only locks -/

/-- The inputs that are locked for reading. -/
def readOnlyKeys (locks : List (InputKey × LockMode)) : List InputKey :=
  (locks.filter fun lock => lock.2 = .readOnly).map Prod.fst

theorem mem_readOnlyKeys {key : InputKey} :
    key ∈ readOnlyKeys locks ↔ (key, LockMode.readOnly) ∈ locks := by
  unfold readOnlyKeys
  simp

/-- The read-only locks that are still to be released. -/
def leaving (locks : List (InputKey × LockMode)) (key : InputKey) : Option Lock :=
  if key ∈ readOnlyKeys locks then some ⟨.readOnly, true⟩ else none

/-- A transaction that is no longer executing has still to release some locks. -/
structure Leaves (digest : TransactionDigest) (locks : List (InputKey × LockMode))
    (manager : TransactionManager) : Prop where
  certified : Certified manager
  absent : ∀ key, manager.inner.table digest key = none
  lists : ∀ key, (manager.inner.queue key).Lists
    ((manager.inner.table.setRow digest (leaving locks)).column key)
  nonempty : ∀ (key : InputKey) queue, manager.inner.lockWaiters[key]? = some queue →
    queue.isEmpty = false

variable {digest : TransactionDigest} {locks : List (InputKey × LockMode)}
  {manager : TransactionManager}

/-- The locks on an input that the transaction does not hold any more. -/
theorem column_setRow_leaving {table : LockTable} (absent : ∀ key, table digest key = none)
    (released : key ∉ readOnlyKeys locks) :
    (table.setRow digest (leaving locks)).column key = table.column key := by
  funext other
  unfold LockTable.column LockTable.setRow
  split
  · next isDigest => rw [isDigest, absent, leaving, if_neg released]
  · rfl

theorem Leaves.consistent (leaves : Leaves digest [] manager) :
    Consistent manager where
  certified := leaves.certified
  queued key := by
    have lists := leaves.lists key
    rw [column_setRow_leaving leaves.absent not_mem_nil] at lists
    exact ⟨lists, leaves.nonempty key⟩

/-- A holder is removed from its queue. -/
theorem Leaves.removeHolder (leaves : Leaves digest ((key, .readOnly) :: locks) manager) :
    ∃ old queue, manager.inner.lockWaiters[key]? = some old ∧ old.removeHolder digest = .ok queue ∧
      queue.Lists (manager.inner.table.column key) := by
  have holds : (manager.inner.table.setRow digest
      (leaving ((key, .readOnly) :: locks))).column key digest = some ⟨.readOnly, true⟩ := by
    rw [LockTable.column, LockTable.setRow, if_pos rfl, leaving,
      if_pos (mem_readOnlyKeys.mpr mem_cons_self)]
  have column : ((manager.inner.table.setRow digest
      (leaving ((key, .readOnly) :: locks))).column key).set digest none =
      manager.inner.table.column key := by
    funext other
    unfold Column.set LockTable.column
    split
    · next isDigest => rw [isDigest, leaves.absent]
    · next different => rw [LockTable.setRow, if_neg different]
  have before := leaves.lists key
  obtain ⟨queue, removed, left⟩ := before.removeHolder holds
  rw [column] at left
  have listed := (before.holders digest).mpr holds
  unfold Inner.queue at listed removed
  cases found : manager.inner.lockWaiters[key]? with
  | none =>
    rw [found] at listed
    exact absurd listed ExtTreeSet.not_mem_empty
  | some old =>
    rw [found] at removed
    exact ⟨old, queue, rfl, removed, left⟩

/-- Releasing one lock gives it to the next waiters. -/
theorem Leaves.releaseLock (distinct : key ∉ locks.map Prod.fst)
    (leaves : Leaves digest ((key, .readOnly) :: locks) manager) :
    ∃ lockWaiters digests middle, manager.releaseLock digest (key, .readOnly) = .ok middle ∧
      GivesOut { manager with
        inner := { manager.inner with
          lockWaiters := lockWaiters
          availableObjectsCache := manager.inner.availableObjectsCache.insert key } }
        key digests middle ∧
      Leaves digest locks middle := by
  obtain ⟨old, queue, found, removed, left⟩ := leaves.removeHolder
  have shorter : Certified { manager with
      inner := { manager.inner with
        lockWaiters := manager.inner.lockWaiters.insert key queue } } :=
    { leaves.certified with }
  have inserted : (manager.inner.lockWaiters.insert key queue)[key]?.getD .empty = queue := by
    rw [Map.getElem?_insert, if_pos rfl]
    rfl
  obtain ⟨digests, middle, performed, one⟩ := @acquireAndSend_true _ key shorter
    (show ((manager.inner.lockWaiters.insert key queue)[key]?.getD .empty).Lists
      (manager.inner.table.column key) from inserted.symm ▸ left)
  have table : middle.inner.table = manager.inner.table.grant key digests := one.table
  have gone : ∀ lookup, middle.inner.table digest lookup = none := by
    intro lookup
    rw [table, LockTable.grant, LockTable.setColumn]
    split
    · rw [Column.grant, LockTable.column, leaves.absent]
      split <;> rfl
    · exact leaves.absent lookup
  have elsewhere : ∀ other, other ≠ key →
      middle.inner.lockWaiters[other]? = manager.inner.lockWaiters[other]? := by
    intro other different
    rw [one.others other different]
    exact (Map.getElem?_insert _ _ _ _).trans (if_neg different.symm)
  have released : key ∉ readOnlyKeys locks := fun listed =>
    distinct (mem_map_of_mem (mem_readOnlyKeys.mp listed))
  refine ⟨_, digests, middle, ?_, one, one.certified, gone, ?_, ?_⟩
  · dsimp only [TransactionManager.releaseLock]
    rw [found]
    exact bind_of removed performed
  · intro other
    by_cases same : other = key
    · subst same
      rw [column_setRow_leaving gone released]
      exact one.queued.lists
    · have still : other ∈ readOnlyKeys locks ↔
          other ∈ readOnlyKeys ((key, .readOnly) :: locks) := by
        rw [mem_readOnlyKeys, mem_readOnlyKeys, mem_cons]
        simp [same]
      have unchanged : (middle.inner.table.setRow digest (leaving locks)).column other =
          (manager.inner.table.setRow digest
            (leaving ((key, .readOnly) :: locks))).column other := by
        funext lookup
        simp only [LockTable.column, LockTable.setRow, table, LockTable.grant,
          LockTable.setColumn, same, ↓reduceIte, leaving, still]
      rw [unchanged, Inner.queue, elsewhere other same]
      exact leaves.lists other
  · intro other found'
    by_cases same : other = key
    · rw [same]
      exact one.queued.nonempty found'
    · rw [elsewhere other same]
      exact leaves.nonempty other found'

/-- Releasing all locks of a transaction wakes up their waiters. -/
theorem foldlM_releaseLock (distinct : (locks.map Prod.fst).Nodup)
    (leaves : Leaves digest locks manager) :
    ∃ next, locks.foldlM (releaseLock digest) manager = .ok next ∧
      Wakes manager (readOnlyKeys locks) next := by
  induction locks generalizing manager with
  | nil => exact ⟨manager, rfl, .refl leaves.consistent⟩
  | cons lock locks ih =>
    obtain ⟨key, mode⟩ := lock
    rw [map_cons, nodup_cons] at distinct
    cases mode with
    | default => exact ih distinct.2 { leaves with }
    | readOnly =>
      obtain ⟨lockWaiters, digests, middle, performed, one, left⟩ := leaves.releaseLock distinct.1
      obtain ⟨next, completed, many⟩ := ih distinct.2 left
      refine ⟨next, ?_, Wakes.cons one many⟩
      exact bind_of performed completed

/-! ## The whole commit -/

/-- Default locks that are held are not listed anywhere. -/
def Column.SameQueue (column other : Column) : Prop :=
  ∀ digest lock, lock ≠ ⟨.default, true⟩ → (column digest = some lock ↔ other digest = some lock)

theorem LockQueue.Lists.of_sameQueue {queue : LockQueue} (lists : queue.Lists column)
    (same : column.SameQueue other) :
    queue.Lists other where
  waiters digest mode := by
    rw [lists.waiters, same digest ⟨mode, false⟩ (by simp)]
  holders digest := by
    rw [lists.holders, same digest ⟨.readOnly, true⟩ (by simp)]

/-- What a commit changes. -/
structure Commits (manager : TransactionManager) (digest : TransactionDigest)
    (outputObjectKeys : List InputKey) (next : TransactionManager) : Prop where
  consistent : Consistent next
  epoch : next.inner.epoch = manager.inner.epoch
  /-- The outputs are put into the cache, and so are the inputs that were read. -/
  cache : ∃ released, next.inner.availableObjectsCache =
      (outputObjectKeys ++ released).foldl AvailableObjectsCache.insert
        manager.inner.availableObjectsCache ∧
    (∀ key ∈ outputObjectKeys ++ released, (next.inner.table.column key).Settled) ∧
    ∀ key, key ∉ outputObjectKeys ++ released →
      (manager.inner.table.column key).SameQueue (next.inner.table.column key)
  steps : manager.inner.table.Steps (some digest) next.inner.table
  executing : ∀ (other : TransactionDigest) locks, other ≠ digest →
    manager.inner.executingCertificates[other]? = some locks →
    next.inner.executingCertificates[other]? = some locks
  sent : ∀ other ∈ manager.sent, other ∈ next.sent
  fresh : ∀ other ∈ next.sent, other ≠ digest → other ∈ manager.sent ∨
    (next.inner.executingCertificates[other]?).isSome
  origin : ∀ (other : TransactionDigest) locks,
    next.inner.executingCertificates[other]? = some locks →
    manager.inner.executingCertificates[other]? = some locks ∨ other ∉ manager.sent
  left : manager.inner.pendingCertificates[digest]? = none →
    next.inner.executingCertificates[digest]? = none ∧
      next.inner.pendingCertificates[digest]? = none

theorem Column.SameQueue.settled {column other : Column} (same : column.SameQueue other)
    (settled : column.Settled) :
    other.Settled := by
  intro digest mode waits
  obtain ⟨isDefault, reader, held, readOnly⟩ :=
    settled digest mode ((same digest ⟨mode, false⟩ (by simp)).mpr waits)
  exact ⟨isDefault, reader, held, (same reader ⟨.readOnly, held⟩ (by simp)).mp readOnly⟩

/-- The tables without an executing transaction. -/
def finished (manager : TransactionManager) (digest : TransactionDigest) : TransactionManager :=
  { manager with
    inner := { manager.inner with
      executingCertificates := manager.inner.executingCertificates.erase digest } }

section Finished

variable {acquiredLocks : Locks} (consistent : Consistent manager)
  (found : manager.inner.executingCertificates[digest]? = some acquiredLocks)

include consistent found

theorem Consistent.not_pending_of_executing :
    manager.inner.pendingCertificates[digest]? = none := by
  refine Option.eq_none_iff_forall_ne_some.mpr fun cert isPending => ?_
  rw [consistent.certified.disjoint digest cert isPending] at found
  cases found

theorem table_of_executing (key : InputKey) :
    manager.inner.table digest key = acquiredLocks[key]?.map fun mode => ⟨mode, true⟩ := by
  rw [Inner.table, consistent.not_pending_of_executing found, found]
  rfl

/-- A finished transaction has no row in the table. -/
theorem table_finished :
    (finished manager digest).inner.table = manager.inner.table.setRow digest fun _ => none := by
  have notPending := consistent.not_pending_of_executing found
  funext other key
  unfold LockTable.setRow
  split
  · next isDigest =>
    subst isDigest
    dsimp only [Inner.table, finished]
    rw [notPending, Map.getElem?_erase, if_pos rfl]
    rfl
  · next different =>
    dsimp only [Inner.table, finished]
    rw [Map.getElem?_erase, if_neg (Ne.symm different)]

/-- Until it leaves, a finished transaction is queued where it was. -/
theorem sameQueue_finished (key : InputKey) :
    (manager.inner.table.column key).SameQueue
      (((finished manager digest).inner.table.setRow digest
        (leaving acquiredLocks.toList)).column key) := by
  intro other lock notDefault
  rw [table_finished consistent found]
  simp only [LockTable.column, LockTable.setRow]
  by_cases isDigest : other = digest
  · subst isDigest
    rw [if_pos rfl, table_of_executing consistent found, leaving]
    simp only [mem_readOnlyKeys, mem_toList_iff_getElem?_eq_some]
    cases acquiredLocks[key]? with
    | none => simp
    | some mode' =>
      cases mode' with
      | default =>
        simp only [Option.map_some, Option.some.injEq, reduceCtorEq, ↓reduceIte, iff_false]
        exact Ne.symm notDefault
      | readOnly => simp
  · rw [if_neg isDigest, if_neg isDigest]

/-- The queues still list the locks of a transaction that is no longer executing. -/
theorem leaves_finished :
    Leaves digest acquiredLocks.toList (finished manager digest) where
  certified := { consistent.certified with
    disjoint := by
      intro other cert isPending
      dsimp only [finished]
      rw [Map.getElem?_erase, consistent.certified.disjoint other cert isPending, ite_self]
    executing := Map.forall_erase consistent.certified.executing }
  absent key := by
    rw [table_finished consistent found]
    exact if_pos rfl
  lists key := (consistent.queued key).lists.of_sameQueue (sameQueue_finished consistent found key)
  nonempty key := (consistent.queued key).nonempty

/-- A transaction that is committed releases its locks. -/
theorem steps_finished :
    manager.inner.table.Steps (some digest) (finished manager digest).inner.table := by
  have once : (acquiredLocks.keys.map fun key => (digest, key)).Nodup :=
    nodup_keys.map fun _ _ same => (Prod.mk.inj same).2
  rw [table_finished consistent found]
  apply LockTable.steps_of_changes once
  · intro other key absent
    unfold LockTable.setRow
    split
    · next isDigest =>
      subst isDigest
      have notLocked : key ∉ acquiredLocks := fun present =>
        absent (mem_map_of_mem (mem_keys.mpr present))
      rw [table_of_executing consistent found, getElem?_eq_none notLocked]
      rfl
    · rfl
  · intro other key listed
    obtain ⟨_, locked, same⟩ := mem_map.mp listed
    cases same
    rw [LockTable.setRow, if_pos rfl, table_of_executing consistent found,
      getElem?_eq_some_getElem (mem_keys.mp locked)]
    exact .release rfl _
  · intro other key listed isDefault
    obtain ⟨_, _, same⟩ := mem_map.mp listed
    cases same
    rw [LockTable.setRow, if_pos rfl] at isDefault
    cases isDefault

end Finished

/-- A commit never fails, whatever the transaction wrote. -/
theorem notifyCommit_commits (consistent : Consistent manager) (digest : TransactionDigest)
    (outputObjectKeys : List InputKey) :
    ∃ next, manager.notifyCommit digest outputObjectKeys manager.inner.epoch = .ok next ∧
      Commits manager digest outputObjectKeys next := by
  obtain ⟨middle, performed, one⟩ := objectsAvailableLocked_wakes consistent outputObjectKeys
  have wasPending : ∀ other : TransactionDigest,
      (manager.inner.pendingCertificates[other]?).isSome → other ∉ manager.sent := by
    intro other isPending
    obtain ⟨cert, found⟩ := Option.isSome_iff_exists.mp isPending
    exact consistent.certified.notSent other cert found
  unfold notifyCommit
  rw [if_neg (not_not_intro rfl)]
  cases found : middle.inner.executingCertificates[digest]? with
  | none =>
    refine ⟨middle, bind_of performed ?_, ?_⟩
    · rw [found]
      rfl
    · constructor
      · exact one.consistent
      · exact one.epoch
      · refine ⟨[], ?_⟩
        rw [append_nil]
        refine ⟨one.cache, one.settled, fun key absent => ?_⟩
        rw [one.others key absent]
        exact fun _ _ _ => Iff.rfl
      · exact one.steps _
      · exact fun other locks _ => one.executing other locks
      · exact one.sent
      · exact fun other isSent _ => one.fresh other isSent
      · exact fun other locks executing =>
          (one.origin other locks executing).imp_right (wasPending other)
      · exact fun absent => ⟨found, one.not_pending absent⟩
  | some acquiredLocks =>
    have kept := one.consistent
    have distinct : (acquiredLocks.toList.map Prod.fst).Nodup := by
      rw [map_fst_toList_eq_keys]
      exact nodup_keys
    obtain ⟨next, completed, many⟩ := foldlM_releaseLock distinct (leaves_finished kept found)
    have released : ∀ key, key ∉ readOnlyKeys acquiredLocks.toList →
        (middle.inner.table.column key).SameQueue (next.inner.table.column key) := by
      intro key absent
      have same := sameQueue_finished kept found key
      rw [column_setRow_leaving (leaves_finished kept found).absent absent] at same
      rw [many.others key absent]
      exact same
    have stays : ∀ (other : TransactionDigest) locks, other ≠ digest →
        middle.inner.executingCertificates[other]? = some locks →
        next.inner.executingCertificates[other]? = some locks := by
      intro other locks different isExecuting
      apply many.executing other locks
      dsimp only [finished]
      rw [Map.getElem?_erase, if_neg (Ne.symm different)]
      exact isExecuting
    refine ⟨next, bind_of performed ?_, ?_⟩
    · rw [found]
      exact completed
    · constructor
      · exact many.consistent
      · exact many.epoch.trans one.epoch
      · refine ⟨readOnlyKeys acquiredLocks.toList, ?_, ?_, ?_⟩
        · rw [many.cache, foldl_append, ← one.cache]
          rfl
        · intro key listed
          by_cases isReleased : key ∈ readOnlyKeys acquiredLocks.toList
          · exact many.settled key isReleased
          · exact (released key isReleased).settled
              (one.settled key ((mem_append.mp listed).resolve_right isReleased))
        · intro key absent
          rw [mem_append, not_or] at absent
          rw [← one.others key absent.1]
          exact released key absent.2
      · exact ((one.steps _).trans (steps_finished kept found)).trans (many.steps _)
      · exact fun other locks different isExecuting =>
          stays other locks different (one.executing other locks isExecuting)
      · exact fun other isSent => many.sent other (one.sent other isSent)
      · intro other isSent different
        rcases many.fresh other isSent with early | late
        · rcases one.fresh other early with earlier | executing
          · exact .inl earlier
          · exact .inr (isSome_of_kept (fun locks => stays other locks different) executing)
        · exact .inr late
      · intro other locks executing
        rcases many.origin other locks executing with still | pending
        · exact (one.origin other locks (Map.of_getElem?_erase still).2).imp_right
            (wasPending other)
        · obtain ⟨cert, isPending⟩ := Option.isSome_iff_exists.mp pending
          exact .inr (wasPending other (one.pending other cert isPending))
      · intro absent
        have unlocked : (finished middle digest).inner.pendingCertificates[digest]? = none :=
          one.not_pending absent
        refine ⟨Option.eq_none_iff_forall_ne_some.mpr fun locks isExecuting => ?_,
          many.not_pending unlocked⟩
        rcases many.origin digest locks isExecuting with still | pending
        · exact (Map.of_getElem?_erase still).1 rfl
        · rw [unlocked] at pending
          cases pending

end Sui.TransactionManager
