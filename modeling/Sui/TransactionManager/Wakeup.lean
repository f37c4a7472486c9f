import Sui.TransactionManager.Node

/-!
# Wake-ups

A transaction waits for an input that is not available until the manager is notified of
the commit that makes it available.  So a wake-up is lost if a transaction starts to wait
for an input that is already available and of which the manager was told.

The cache remembers the highest version of an object of which it was told.  It answers that
a higher version is not available, without asking the database.  An entry can be evicted,
or be missing since the node was started, and an older version be inserted then, when a
transaction that has read it is committed.  After that the answer of the cache is wrong, and
transactions that need the later version wait forever.  No wake-up is lost as long as this
does not happen.
-/

namespace Sui.TransactionManager.Node

open Library AvailableObjectsCache Std.ExtTreeSet
open List hiding after
open Authority (ObjectID SequenceNumber TransactionDigest EpochId)
open Std (ExtTreeMap ExtTreeSet)

/-- Transactions that were sent to execution are executed once, and then their commit is
notified once, with their outputs. -/
def Scheduled (node : Node) (action : Action) : Prop :=
  node.Allowed action ∧
    match action with
    | .execute digest _ _ => (node.manager.inner.executingCertificates[digest]?).isSome = true
    | .notifyCommit digest outputs => (digest, outputs) ∈ node.committing
    | _ => True

instance (node : Node) (action : Action) : Decidable (node.Scheduled action) :=
  match action with
  | .beginEnqueue _ _ | .checkStorage _ _ | .endEnqueue _ =>
    inferInstanceAs (Decidable (_ ∧ True))
  | .execute _ _ _ => inferInstanceAs (Decidable (_ ∧ Option.isSome _ = true))
  | .notifyCommit _ _ => inferInstanceAs (Decidable (_ ∧ _ ∈ node.committing))

/-- An input is available, and no commit that announces it is still to be notified. -/
def Announced (node : Node) (key : InputKey) : Prop :=
  key ∈ node.storage.available ∧ ∀ commit ∈ node.committing, key ∉ commit.2

/-- No cached version of an object is lower than one that was announced. -/
def Fresh (node : Node) : Prop :=
  ∀ id version, node.manager.inner.availableObjectsCache.highest id = some version →
    ∀ later, version < later → ¬node.Announced (.versionedObject id later)

/-- An action that is scheduled, and asks the cache only while it is fresh. -/
def AsksFresh (node : Node) (action : Action) : Prop :=
  node.Scheduled action ∧
    match action with
    | .beginEnqueue _ _ => node.Fresh
    | _ => True

/-- No call is in progress, neither one that enqueues nor a commit. -/
def Quiescent (node : Node) : Prop :=
  node.calls = [] ∧ node.committing = []

/-- Every pending certificate waits for an input that is not available, or it needs a
default lock on an input and some transaction waits for or holds a read-only lock on it. -/
def NoLostWakeup (node : Node) : Prop :=
  ∀ (digest : TransactionDigest) cert (key : InputKey) mode,
    node.manager.inner.pendingCertificates[digest]? = some cert →
    cert.acquiringLocks[key]? = some mode →
    key ∉ node.storage.available ∨
      mode = .default ∧ ∃ reader, (node.manager.inner.table.column key).ReadOnly reader

/-! ## What is known in between -/

/-- Whoever waits for what was announced waits for a reader, and whatever a call was told to
be missing is not announced, or the cache knows that it is available. -/
structure Aware (node : Node) : Prop where
  settled : ∀ key, node.Announced key → (node.manager.inner.table.column key).Settled
  calls : ∀ call ∈ node.calls, ∀ key : InputKey, call.objectAvailability[key]? = some (some false) ∨
      (false, key) ∈ call.cacheMissAvailability →
    node.Announced key → node.manager.inner.availableObjectsCache.answer key = some true

variable {node next : Node}

/-- What the cache denies was not announced. -/
theorem Fresh.not_announced (fresh : node.Fresh) {key : InputKey}
    (negative : node.manager.inner.availableObjectsCache.answer key = some false) :
    ¬node.Announced key := by
  cases key with
  | package id =>
    obtain ⟨_, _, impossible⟩ := Option.map_eq_some_iff.mp negative
    cases impossible
  | versionedObject id version =>
    obtain ⟨current, found, lower⟩ := Option.map_eq_some_iff.mp negative
    exact fresh id current found version (not_le.mp (of_decide_eq_false lower))

/-- Announced objects are known to the cache. -/
theorem AvailableObjectsCache.answer_foldl_insert {objects : AvailableObjectsCache}
    (unbounded : objects.unboundedCacheEnabled ≠ 0) {keys : List InputKey} {key : InputKey}
    (known : key ∈ keys ∨ objects.answer key = some true) :
    (keys.foldl insert objects).answer key = some true := by
  induction keys generalizing objects with
  | nil => exact known.resolve_left not_mem_nil
  | cons first keys ih =>
    apply ih
    · rw [unboundedCacheEnabled_insert]
      exact unbounded
    · rcases known with listed | positive
      · rcases mem_cons.mp listed with rfl | later
        · exact .inr (answer_insert_self unbounded key)
        · exact .inl later
      · exact .inr (answer_insert_of_true unbounded positive first)

theorem mem_execute_available {storage : Storage} {key : InputKey} :
    key ∈ (storage.execute digest outputs removed).available ↔
      key ∈ outputs ∨ key ∈ storage.available :=
  Map.mem_foldl_insert outputs storage.available key

/-- An execution announces nothing. -/
theorem announced_of_execute {digest : TransactionDigest} {outputs : List InputKey}
    {removed : List (ObjectID × Option SequenceNumber)}
    (performs : node.Performs next (.execute digest outputs removed)) {key : InputKey}
    (announced : next.Announced key) :
    node.Announced key := by
  obtain rfl := performs
  obtain ⟨available, unannounced⟩ := announced
  constructor
  · refine (mem_execute_available.mp available).resolve_left ?_
    exact unannounced (digest, outputs) (mem_append_right _ (mem_singleton_self _))
  · exact (forall_mem_append.mp unannounced).1

/-- A commit announces its outputs. -/
theorem announced_of_notifyCommit {digest : TransactionDigest} {outputs : List InputKey}
    (performs : node.Performs next (.notifyCommit digest outputs)) {key : InputKey}
    (announced : next.Announced key) :
    key ∈ outputs ∨ node.Announced key := by
  obtain ⟨manager, rfl, _⟩ := performs
  obtain ⟨available, unannounced⟩ := announced
  by_cases isOutput : key ∈ outputs
  · exact .inl isOutput
  · refine .inr ⟨available, ?_⟩
    intro commit listed
    by_cases same : commit = (digest, outputs)
    · rw [same]
      exact isOutput
    · exact unannounced commit ((mem_erase_of_ne same).mpr listed)

/-- Everybody stays aware if the cache is fresh whenever a call asks it. -/
theorem Performs.aware {action : Action} (proper : node.Proper) (aware : node.Aware)
    (asks : node.AsksFresh action) (performs : node.Performs next action) :
    next.Aware := by
  cases action with
  | beginEnqueue certs order =>
    obtain ⟨objects, call, rfl, grows, _, unanswered, negative⟩ := performs
    refine ⟨aware.settled, ?_⟩
    intro other listed key missing announced
    rcases mem_snoc.mp listed with early | late
    · exact grows.positive key (aware.calls other early key missing announced)
    · rw [late, unanswered] at missing
      have isNegative := negative key (missing.resolve_right not_mem_nil)
      exact absurd announced (asks.2.not_announced isNegative)
  | checkStorage index key =>
    obtain ⟨call, isCall, _, rfl⟩ := performs
    refine ⟨aware.settled, ?_⟩
    intro other listed lookup missing announced
    rcases mem_or_eq_of_mem_set listed with early | rfl
    · exact aware.calls other early lookup missing announced
    · have before := aware.calls call (mem_of_getElem? isCall) lookup
      rcases missing with cached | answered
      · exact before (.inl cached) announced
      · rcases mem_snoc.mp answered with early | late
        · exact before (.inr early) announced
        · obtain ⟨notAvailable, rfl⟩ := Prod.mk.inj late
          have present : node.storage.available.contains lookup = true :=
            contains_iff_mem.mpr announced.1
          rw [Storage.inputObjectAvailable, present, Bool.true_or] at notAvailable
          cases notAvailable
  | endEnqueue index =>
    obtain ⟨call, objects, objectAvailability, manager, isCall, rfl, grows, _, missing,
      enqueues⟩ := performs
    refine ⟨?_, ?_⟩
    · intro key announced
      refine enqueues.settled key ?_ (aware.settled key announced)
      intro notAvailable
      obtain ⟨reason, notPositive⟩ := missing key notAvailable
      exact notPositive (aware.calls call (mem_of_getElem? isCall) key reason announced)
    · intro other listed key reason announced
      rw [enqueues.cache]
      exact grows.positive key (aware.calls other (mem_of_mem_eraseIdx listed) key reason announced)
  | execute digest outputs removed =>
    have before := fun key => @announced_of_execute node next digest outputs removed performs key
    obtain rfl := performs
    exact ⟨fun key announced => aware.settled key (before key announced),
      fun call listed key missing announced =>
        aware.calls call listed key missing (before key announced)⟩
  | notifyCommit digest outputs =>
    have before := fun key => @announced_of_notifyCommit node next digest outputs performs key
    obtain ⟨manager, rfl, commits⟩ := performs
    obtain ⟨released, cache, settled, others⟩ := commits.cache
    refine ⟨?_, ?_⟩
    · intro key announced
      by_cases isWoken : key ∈ outputs ++ released
      · exact settled key isWoken
      · have wasAnnounced := (before key announced).resolve_left fun isOutput =>
          isWoken (mem_append_left _ isOutput)
        exact (others key isWoken).settled (aware.settled key wasAnnounced)
    · intro call listed key missing announced
      have unbounded : node.manager.inner.availableObjectsCache.unboundedCacheEnabled ≠ 0 := by
        rw [proper.unbounded]
        exact (length_pos_of_mem listed).ne'
      rw [cache]
      apply AvailableObjectsCache.answer_foldl_insert unbounded
      rcases before key announced with isOutput | wasAnnounced
      · exact .inl (mem_append_left _ isOutput)
      · exact .inr (aware.calls call listed key missing wasAnnounced)

/-! ## Every run -/

theorem start_aware (epoch : EpochId) (cacheSize : Nat) (storage : Storage)
    (getSharedLocks : TransactionDigest → ExtTreeMap ObjectID SequenceNumber) :
    (start epoch cacheSize storage getSharedLocks).Aware where
  settled _ _ _ _ waits := by cases waits
  calls := nofun

/-- Every node of a run that asks fresh caches is aware. -/
theorem aware_of_run {storage : Storage}
    {getSharedLocks : TransactionDigest → ExtTreeMap ObjectID SequenceNumber}
    (run : Run step AsksFresh (start epoch cacheSize storage getSharedLocks) node) :
    node.Proper ∧ node.Aware := by
  apply run.invariant (fun node => node.Proper ∧ node.Aware)
    ⟨start_proper epoch cacheSize storage getSharedLocks,
      start_aware epoch cacheSize storage getSharedLocks⟩
  rintro state action next ⟨proper, aware⟩ asks performed
  have performs := proper.performs_of_step asks.1.1 performed
  exact ⟨performs.proper proper asks.1.1, performs.aware proper aware asks⟩

/-- As long as every call finds a fresh cache, no wake-up is lost. -/
theorem no_lost_wakeup {epoch : EpochId} {cacheSize : Nat} {storage : Storage}
    {getSharedLocks : TransactionDigest → ExtTreeMap ObjectID SequenceNumber}
    (run : Run step AsksFresh (start epoch cacheSize storage getSharedLocks) node)
    (quiescent : node.Quiescent) :
    node.NoLostWakeup := by
  obtain ⟨_, aware⟩ := aware_of_run run
  intro digest cert key mode isPending wanted
  by_cases available : key ∈ node.storage.available
  · have announced : node.Announced key := by
      refine ⟨available, ?_⟩
      rw [quiescent.2]
      exact nofun
    exact .inr (aware.settled key announced digest mode
      (Inner.table_eq_waiting_iff.mpr ⟨cert, isPending, wanted⟩))
  · exact .inl available

section Execution

instance (node : Node) : Decidable node.Quiescent :=
  decidable_of_iff (node.calls.isEmpty = true ∧ node.committing.isEmpty = true) (by
    rw [List.isEmpty_iff, List.isEmpty_iff]
    rfl)

/-- Freshness in terms of the entries of the cache. -/
theorem fresh_iff (node : Node) :
    node.Fresh ↔ ∀ entry ∈ node.manager.inner.availableObjectsCache.cache.versionedCache.entries,
        ∀ key ∈ node.storage.available.toList, key.id = entry.1 →
        (∃ version ∈ key.version, entry.2 < version) →
        ∃ commit ∈ node.committing, key ∈ commit.2 := by
  constructor
  · rintro fresh ⟨id, version⟩ cached key available same ⟨later, isVersion, higher⟩
    cases key with
    | package id' => cases isVersion
    | versionedObject id' version' =>
      cases isVersion
      cases same
      have notAnnounced := fresh _ version (Lru.peek_eq_some_iff.mpr cached) _ higher
      rw [Announced, not_and] at notAnnounced
      have unannounced := notAnnounced (mem_toList.mp available)
      push Not at unannounced
      exact unannounced
  · rintro listed id version cached later higher ⟨available, unannounced⟩
    obtain ⟨commit, isCommit, isOutput⟩ := listed (id, version)
      (Lru.peek_eq_some_iff.mp cached) _ (mem_toList.mpr available) rfl
      ⟨later, rfl, higher⟩
    exact unannounced commit isCommit isOutput

instance (node : Node) : Decidable node.Fresh :=
  decidable_of_iff _ node.fresh_iff.symm

instance (node : Node) (action : Action) : Decidable (node.AsksFresh action) :=
  match action with
  | .beginEnqueue _ _ => inferInstanceAs (Decidable (_ ∧ node.Fresh))
  | .checkStorage _ _ | .endEnqueue _ | .execute _ _ _ | .notifyCommit _ _ =>
    inferInstanceAs (Decidable (_ ∧ True))

end Execution

/-- A transaction is woken when the version that it needs was written. -/
theorem no_lost_wakeup_woken :
    ∃ node, (Run step AsksFresh
        (start 0 10 ⟨ExtTreeSet.ofList [InputKey.versionedObject 1 1], ∅, ∅, ∅⟩ fun _ => ∅) node ∧
        node.Quiescent ∧ node.manager.sent = [20, 30]) ∧
      node.NoLostWakeup := by
  obtain ⟨node, run, quiescent, isSent⟩ := exists_run step AsksFresh
    (start 0 10 ⟨ofList [InputKey.versionedObject 1 1], ∅, ∅, ∅⟩ fun _ => ∅)
    [.beginEnqueue [(⟨20, 0, [.immOrOwnedMoveObject (1, 1, 0)], []⟩, none),
        (⟨30, 0, [.immOrOwnedMoveObject (1, 2, 0)], []⟩, none)]
        [.versionedObject 1 2, .versionedObject 1 1], .checkStorage 0 (.versionedObject 1 1),
      .checkStorage 0 (.versionedObject 1 2), .endEnqueue 0, .execute 20 [.versionedObject 1 2] [],
      .notifyCommit 20 [.versionedObject 1 2]]
    (fun node => node.Quiescent ∧ node.manager.sent = [20, 30])
    (by decide +kernel)
  exact ⟨node, ⟨run, quiescent, isSent⟩, no_lost_wakeup run quiescent⟩

/-- A pending certificate waits for an available input although nobody reads it. -/
theorem not_noLostWakeup (proper : node.Proper)
    (waits : digest ∈ (node.manager.inner.queue key).defaultWaiters)
    (available : key ∈ node.storage.available)
    (unread : (node.manager.inner.queue key).hasReadonly = false) :
    ¬node.NoLostWakeup := by
  intro noLostWakeup
  have lists := (proper.consistent.queued key).lists
  obtain ⟨cert, isPending, wanted⟩ :=
    Inner.table_eq_waiting_iff.mp (lists.mem_defaultWaiters.mp waits)
  rcases noLostWakeup digest cert key .default isPending wanted with notAvailable | ⟨_, reads⟩
  · exact notAvailable available
  · rw [lists.hasReadonly_iff.mpr reads] at unread
    cases unread

/-- The versions of a shared object that two transactions and a third one use. -/
def sharedVersions (digest : TransactionDigest) : ExtTreeMap ObjectID SequenceNumber :=
  if digest = 30 then ExtTreeMap.ofList [(1, 2)] else ExtTreeMap.ofList [(1, 1)]

/-- Transaction 30 waits for a version that is available. -/
abbrev Stuck (node : Node) : Prop :=
  node.Quiescent ∧ 30 ∈ (node.manager.inner.queue (.versionedObject 1 2)).defaultWaiters ∧
    InputKey.versionedObject 1 2 ∈ node.storage.available ∧
    (node.manager.inner.queue (.versionedObject 1 2)).hasReadonly = false

/-- Transaction 20 changes a shared object that transaction 10 reads at the same version.
The entry of the new version is evicted, and committing transaction 10 inserts the old one.
Then transaction 30, which needs the new version, waits forever.  The same happens without
eviction when both versions are stored at the start. -/
theorem wakeup_lost :
    (∃ node, Run step Scheduled
      (start 0 1 ⟨ExtTreeSet.ofList [InputKey.versionedObject 1 1], ∅, ∅, ∅⟩ sharedVersions) node ∧
      node.Quiescent ∧ ¬node.NoLostWakeup) ∧
    ∃ node, Run step Scheduled
      (start 0 100000 ⟨ExtTreeSet.ofList [InputKey.versionedObject 1 1,
        InputKey.versionedObject 1 2], ∅, ∅, ∅⟩ sharedVersions) node ∧
      node.Quiescent ∧ ¬node.NoLostWakeup := by
  have lost (cacheSize : Nat) (storage : Storage) (node : Node)
      (run : Run step Scheduled (start 0 cacheSize storage sharedVersions) node)
      (stuck : node.Stuck) : node.Quiescent ∧ ¬node.NoLostWakeup := by
    obtain ⟨quiescent, waits, available, unread⟩ := stuck
    have proper := proper_of_run (run.mono fun _ _ scheduled => scheduled.1)
    exact ⟨quiescent, not_noLostWakeup proper waits available unread⟩
  constructor
  · obtain ⟨node, run, facts⟩ := exists_run step Scheduled
      (start 0 1 ⟨ofList [InputKey.versionedObject 1 1], ∅, ∅, ∅⟩ sharedVersions)
      [.beginEnqueue [(⟨20, 0, [.sharedMoveObject 1 1 true], []⟩, none)] [.versionedObject 1 1],
        .checkStorage 0 (.versionedObject 1 1), .endEnqueue 0,
        .beginEnqueue [(⟨10, 0, [.sharedMoveObject 1 1 false], []⟩, none)] [.versionedObject 1 1],
        .checkStorage 0 (.versionedObject 1 1), .endEnqueue 0,
        .execute 20 [.versionedObject 1 2, .versionedObject 2 1] [],
        .notifyCommit 20 [.versionedObject 1 2, .versionedObject 2 1], .execute 10 [] [],
        .notifyCommit 10 [],
        .beginEnqueue [(⟨30, 0, [.sharedMoveObject 1 1 true], []⟩, none)] [.versionedObject 1 2],
        .endEnqueue 0] Stuck (by decide +kernel)
    exact ⟨node, run, lost _ _ node run facts⟩
  · obtain ⟨node, run, facts⟩ := exists_run step Scheduled
      (start 0 100000 ⟨ofList [InputKey.versionedObject 1 1,
        InputKey.versionedObject 1 2], ∅, ∅, ∅⟩ sharedVersions)
      [.beginEnqueue [(⟨10, 0, [.sharedMoveObject 1 1 false], []⟩, none)] [.versionedObject 1 1],
        .checkStorage 0 (.versionedObject 1 1), .endEnqueue 0, .execute 10 [] [],
        .notifyCommit 10 [],
        .beginEnqueue [(⟨30, 0, [.sharedMoveObject 1 1 true], []⟩, none)] [.versionedObject 1 2],
        .endEnqueue 0] Stuck (by decide +kernel)
    exact ⟨node, run, lost _ _ node run facts⟩

end Sui.TransactionManager.Node
