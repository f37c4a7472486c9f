import Sui.Library.Run
import Sui.TransactionManager.Calls

/-!
# Enqueueing, executing and committing at the same time

Calls that enqueue certificates overlap with each other and with commits.  Between its two
parts a call asks the database about one input after the other, while transactions are
executed and committed.

The database is a growing set of available inputs.  When a transaction is executed, its
outputs become available; later the manager is notified of the commit.

Whatever the order, no assertion of the manager fails, its tables describe the same locks,
and no transaction is sent to execution twice.
-/

namespace Sui.TransactionManager

open Library
open Authority (ObjectID SequenceNumber TransactionDigest EpochId)
open Std (ExtTreeMap ExtTreeSet)

/-- What is in the database. -/
structure Storage where
  available : ExtTreeSet InputKey
  current : ExtTreeMap ObjectID SequenceNumber
  deleted : ExtTreeMap ObjectID SequenceNumber
  executed : ExtTreeSet TransactionDigest

namespace Storage

def isTxAlreadyExecuted (storage : Storage) (digest : TransactionDigest) : Bool :=
  storage.executed.contains digest

/-- An object exists at a later version, or was deleted later. -/
def haveAtVersionOrAfter (storage : Storage) (key : InputKey) : Bool :=
  key.version.any fun version =>
    (storage.current[key.id]?.any fun later => decide (later ≥ version)) ||
      storage.deleted[key.id]?.any fun later => decide (later ≥ version)

/-- An input exists at its version.  An object that is received may also have been used or
deleted since. -/
def inputObjectAvailable (storage : Storage) (receivingObjects : List InputKey)
    (key : InputKey) : Bool :=
  storage.available.contains key ||
    receivingObjects.contains key && storage.haveAtVersionOrAfter key

/-- The outputs of a transaction are written together with its effects.  Objects are
removed, and some of them marked as deleted. -/
def execute (storage : Storage) (digest : TransactionDigest) (outputs : List InputKey)
    (removed : List (ObjectID × Option SequenceNumber)) : Storage where
  available := outputs.foldl (fun available key => available.insert key) storage.available
  current := removed.foldl (fun current object => current.erase object.1)
    (outputs.foldl (fun current key => match key with
      | .versionedObject id version => current.insert id version
      | .package _ => current) storage.current)
  deleted := removed.foldl (fun deleted object => match object.2 with
    | some version => deleted.insert object.1 version
    | none => deleted) storage.deleted
  executed := storage.executed.insert digest

end Storage

/-- A manager with its database and the calls that are in progress. -/
structure Node where
  manager : TransactionManager
  storage : Storage
  getSharedLocks : TransactionDigest → ExtTreeMap ObjectID SequenceNumber
  calls : List EnqueueCall
  /-- Executed transactions of whose commit the manager is not notified yet. -/
  committing : List (TransactionDigest × List InputKey)
  /-- Transactions that were sent, and of whose commit the manager was notified. -/
  committed : List TransactionDigest

inductive Action
  | beginEnqueue (certs : List (VerifiedExecutableTransaction × Option TransactionEffectsDigest))
      (order : List InputKey)
  | checkStorage (index : Nat) (key : InputKey)
  | endEnqueue (index : Nat)
  | execute (digest : TransactionDigest) (outputs : List InputKey)
      (removed : List (ObjectID × Option SequenceNumber))
  | notifyCommit (digest : TransactionDigest) (outputs : List InputKey)

/-- The transaction that an action commits. -/
def Action.committed : Action → Option TransactionDigest
  | .notifyCommit digest _ => some digest
  | .beginEnqueue _ _ | .checkStorage _ _ | .endEnqueue _ | .execute _ _ _ => none

namespace Node

/-- A node whose manager is empty. -/
def start (epoch : EpochId) (cacheSize : Nat) (storage : Storage)
    (getSharedLocks : TransactionDigest → ExtTreeMap ObjectID SequenceNumber) : Node where
  manager := ⟨.new epoch cacheSize, []⟩
  storage := storage
  getSharedLocks := getSharedLocks
  calls := []
  committing := []
  committed := []

def perform (node : Node) : Action → Except Panic Node
  | .beginEnqueue certs order => do
    let (manager, call) ← node.manager.beginEnqueue node.storage.isTxAlreadyExecuted
      node.getSharedLocks certs order
    return { node with manager := manager, calls := node.calls ++ [call] }
  | .checkStorage index key =>
    .ok { node with
      calls := node.calls.modify index fun call =>
        { call with
          cacheMissAvailability := call.cacheMissAvailability ++
            [(node.storage.inputObjectAvailable call.receivingObjects key, key)] } }
  | .endEnqueue index =>
    match node.calls[index]? with
    | none => .ok node
    | some call => do
      let manager ← node.manager.endEnqueue node.storage.isTxAlreadyExecuted call
      return { node with manager := manager, calls := node.calls.eraseIdx index }
  | .execute digest outputs removed =>
    .ok { node with
      storage := node.storage.execute digest outputs removed
      committing := node.committing ++ [(digest, outputs)] }
  | .notifyCommit digest outputs => do
    let manager ← node.manager.notifyCommit digest outputs node.manager.inner.epoch
    return { node with
      manager := manager
      committing := node.committing.erase (digest, outputs)
      committed := if (node.manager.inner.executingCertificates[digest]?).isSome then
          node.committed ++ [digest]
        else
          node.committed }

/-- The inputs of the certificates that were not executed. -/
def wanted (node : Node)
    (certs : List (VerifiedExecutableTransaction × Option TransactionEffectsDigest)) :
    Option (List (List InputKey)) :=
  (certs.filter fun cert => !node.storage.isTxAlreadyExecuted cert.1.digest).mapM fun cert =>
    inputKeys (node.getSharedLocks cert.1.digest) cert.1

/-- The versions of shared inputs are assigned, the inputs of one transaction are pairwise
distinct, and the table of all inputs is traversed in some order. -/
def Enqueueable (node : Node)
    (certs : List (VerifiedExecutableTransaction × Option TransactionEffectsDigest))
    (order : List InputKey) : Prop :=
  ∃ keys ∈ node.wanted certs, (∀ inputs ∈ keys, inputs.Nodup) ∧ order.Nodup ∧
    (∀ key ∈ order, ∃ inputs ∈ keys, key ∈ inputs) ∧
    ∀ inputs ∈ keys, ∀ key ∈ inputs, key ∈ order

instance (node : Node)
    (certs : List (VerifiedExecutableTransaction × Option TransactionEffectsDigest))
    (order : List InputKey) : Decidable (node.Enqueueable certs order) :=
  inferInstanceAs (Decidable (∃ keys ∈ node.wanted certs, _ ∧ _ ∧ _ ∧ _))

/-- What callers may do: the database is asked once about everything that the cache does
not know, and commits are notified after the effects were written. -/
def Allowed (node : Node) : Action → Prop
  | .beginEnqueue certs order => node.Enqueueable certs order
  | .checkStorage index key => ∃ call ∈ node.calls[index]?,
      key ∈ call.inputObjectCacheMisses ∧ ∀ answer ∈ call.cacheMissAvailability, answer.2 ≠ key
  | .endEnqueue index => ∃ call ∈ node.calls[index]?, call.Answered
  | .execute digest _ _ => digest ∉ node.storage.executed
  | .notifyCommit digest _ => digest ∈ node.storage.executed

instance (call : EnqueueCall) : Decidable call.Answered :=
  inferInstanceAs (Decidable (∀ key ∈ call.inputObjectCacheMisses, _))

instance (node : Node) (action : Action) : Decidable (node.Allowed action) :=
  match action with
  | .beginEnqueue certs order => inferInstanceAs (Decidable (node.Enqueueable certs order))
  | .checkStorage index _ => inferInstanceAs (Decidable (∃ call ∈ node.calls[index]?, _ ∧ _))
  | .endEnqueue index => inferInstanceAs (Decidable (∃ call ∈ node.calls[index]?, call.Answered))
  | .execute digest _ _ => inferInstanceAs (Decidable (digest ∉ node.storage.executed))
  | .notifyCommit digest _ => inferInstanceAs (Decidable (digest ∈ node.storage.executed))

/-- Every input of the batch starts as unknown. -/
theorem getElem?_foldl_unknown (order : List InputKey) (start : ExtTreeMap InputKey (Option Bool))
    (key : InputKey) :
    (order.foldl (fun objectAvailability key => objectAvailability.insert key none) start)[key]? =
      if key ∈ order then some none else start[key]? := by
  induction order generalizing start with
  | nil => exact (if_neg List.not_mem_nil).symm
  | cons first order ih =>
    rw [List.foldl_cons, ih, Map.getElem?_insert]
    by_cases isFirst : key = first
    · simp [isFirst]
    · simp [isFirst, Ne.symm isFirst]

/-- The first part of a call never fails.  The call knows what the cache says. -/
theorem beginEnqueue_proper {node : Node} (enqueueable : node.Enqueueable certs order) :
    ∃ objects call, node.manager.beginEnqueue node.storage.isTxAlreadyExecuted
        node.getSharedLocks certs order =
        .ok ({ node.manager with
          inner := { node.manager.inner with
            availableObjectsCache := objects.enableUnboundedCache } }, call) ∧
      node.manager.inner.availableObjectsCache.Grows objects ∧
      call.Proper ∧ call.cacheMissAvailability = [] ∧
      ∀ key : InputKey, call.objectAvailability[key]? = some (some false) →
        node.manager.inner.availableObjectsCache.answer key = some false := by
  obtain ⟨keys, isWanted, distinct, _, _, covered⟩ := enqueueable
  let remaining := certs.filter fun cert => !node.storage.isTxAlreadyExecuted cert.1.digest
  have lockable : ∀ cert ∈ remaining, ∃ inputs ∈ keys, ∃ locks,
      inputLocks (node.getSharedLocks cert.1.digest) cert.1 = .ok locks ∧
      (∀ key : InputKey, (locks[key]?).isSome ↔ key ∈ inputs) ∧
      locks.size = cert.1.inputObjects.length + cert.1.receivingObjects.length := by
    intro cert listed
    obtain ⟨inputs, isInputs, found⟩ := exists_of_forall₂ (Map.forall₂_of_mapM isWanted) listed
    obtain ⟨locks, facts⟩ := inputLocks_adds found (distinct inputs isInputs)
    exact ⟨inputs, isInputs, locks, facts⟩
  have possible : ∀ cert ∈ remaining, ∃ request, (fun locks => (cert.1, cert.2, locks)) <$>
        inputLocks (node.getSharedLocks cert.1.digest) cert.1 = .ok request := by
    intro cert listed
    obtain ⟨_, _, locks, found, _⟩ := lockable cert listed
    exact ⟨_, map_eq_ok.mpr ⟨locks, found, rfl⟩⟩
  obtain ⟨requests, isRequests⟩ := exists_mapM possible
  have origin : ∀ request ∈ requests, ∃ inputs ∈ keys,
      (∀ key : InputKey, (request.2.2[key]?).isSome ↔ key ∈ inputs) ∧
      request.2.2.size = request.1.inputObjects.length + request.1.receivingObjects.length := by
    intro request listed
    obtain ⟨cert, isCert, locked⟩ := exists_of_forall₂ (mapM_eq_ok.mp isRequests) listed
    obtain ⟨inputs, isInputs, locks, found, facts⟩ := lockable cert isCert
    obtain ⟨locks', found', same⟩ := map_eq_ok.mp locked
    rw [found] at found'
    cases found'
    cases same
    exact ⟨inputs, isInputs, facts⟩
  obtain ⟨grows, entries⟩ := foldl_lookUpCache node.manager.inner.availableObjectsCache order
    (order.foldl (fun objectAvailability key => objectAvailability.insert key none) ∅)
  refine ⟨_, _, bind_of isRequests rfl, grows, ?_, rfl, ?_⟩
  · constructor
    · intro request listed key isLocked
      obtain ⟨inputs, isInputs, mem, _⟩ := origin request listed
      exact covered inputs isInputs key ((mem key).mp isLocked)
    · intro request listed
      obtain ⟨_, _, _, size⟩ := origin request listed
      exact size
    · intro key
      rw [entries, getElem?_foldl_unknown]
      by_cases listed : key ∈ order
      · split <;> simp [listed]
      · simp [listed]
    · exact nofun
  · intro key missing
    rw [entries, getElem?_foldl_unknown] at missing
    split at missing
    · exact Option.some.inj missing
    · split at missing <;> cases missing

/-! ## What every action does -/

/-- The tables of the manager agree with each other and with the calls in progress. -/
structure Proper (node : Node) : Prop where
  consistent : Consistent node.manager
  accounted : SentAccounted node.manager node.storage.isTxAlreadyExecuted
  calls : ∀ call ∈ node.calls, call.Proper
  unbounded : node.manager.inner.availableObjectsCache.unboundedCacheEnabled = node.calls.length
  committed : ∀ digest ∈ node.committed, digest ∈ node.manager.sent ∧
    node.manager.inner.executingCertificates[digest]? = none

/-- The outcome of an action. -/
def Performs (node : Node) (next : Node) : Action → Prop
  | .beginEnqueue _ _ => ∃ objects call,
      next = { node with
        manager := { node.manager with
          inner := { node.manager.inner with
            availableObjectsCache := objects.enableUnboundedCache } }
        calls := node.calls ++ [call] } ∧
      node.manager.inner.availableObjectsCache.Grows objects ∧
      call.Proper ∧ call.cacheMissAvailability = [] ∧
      ∀ key : InputKey, call.objectAvailability[key]? = some (some false) →
        node.manager.inner.availableObjectsCache.answer key = some false
  | .checkStorage index key => ∃ call, node.calls[index]? = some call ∧ key ∈ call.order ∧
      next = { node with
        calls := node.calls.set index { call with
          cacheMissAvailability := call.cacheMissAvailability ++
            [(node.storage.inputObjectAvailable call.receivingObjects key, key)] } }
  | .endEnqueue index => ∃ call objects objectAvailability manager, node.calls[index]? = some call ∧
      next = { node with manager := manager, calls := node.calls.eraseIdx index } ∧
      node.manager.inner.availableObjectsCache.Grows { objects with
        unboundedCacheEnabled :=
          node.manager.inner.availableObjectsCache.unboundedCacheEnabled } ∧
      objects.unboundedCacheEnabled + 1 =
        node.manager.inner.availableObjectsCache.unboundedCacheEnabled ∧
      (∀ key : InputKey, objectAvailability[key]? = some (some false) →
        (call.objectAvailability[key]? = some (some false) ∨
          (false, key) ∈ call.cacheMissAvailability) ∧
        node.manager.inner.availableObjectsCache.answer key ≠ some true) ∧
      Enqueues { node.manager with
        inner := { node.manager.inner with availableObjectsCache := objects } }
        objectAvailability manager
  | .execute digest outputs removed => next = { node with
      storage := node.storage.execute digest outputs removed
      committing := node.committing ++ [(digest, outputs)] }
  | .notifyCommit digest outputs => ∃ manager,
      next = { node with
        manager := manager
        committing := node.committing.erase (digest, outputs)
        committed := if (node.manager.inner.executingCertificates[digest]?).isSome then
            node.committed ++ [digest]
          else
            node.committed } ∧
      Commits node.manager digest outputs manager

/-- Every allowed action succeeds on a proper node. -/
theorem Proper.performs {node : Node} (proper : node.Proper) (allowed : node.Allowed action) :
    ∃ next, node.perform action = .ok next ∧ node.Performs next action := by
  cases action with
  | beginEnqueue certs order =>
    obtain ⟨objects, call, begun, facts⟩ := beginEnqueue_proper allowed
    exact ⟨_, bind_of begun rfl, objects, call, rfl, facts⟩
  | checkStorage index key =>
    obtain ⟨call, isCall, missing, _⟩ := allowed
    refine ⟨_, rfl, call, isCall, (List.mem_filter.mp missing).1, ?_⟩
    rw [List.modify_eq_set_getElem?, isCall]
    rfl
  | endEnqueue index =>
    obtain ⟨call, isCall, isAnswered⟩ := allowed
    have listed : call ∈ node.calls := List.mem_of_getElem? isCall
    have unbounded : node.manager.inner.availableObjectsCache.unboundedCacheEnabled ≠ 0 := by
      rw [proper.unbounded]
      exact (List.length_pos_of_mem listed).ne'
    obtain ⟨objects, objectAvailability, manager, ended, facts⟩ :=
      endEnqueue_enqueues (proper.calls call listed) isAnswered unbounded proper.consistent
        proper.accounted
    refine ⟨_, ?_, call, objects, objectAvailability, manager, isCall, rfl, facts⟩
    dsimp only [perform]
    rw [isCall]
    exact bind_of ended rfl
  | execute digest outputs removed => exact ⟨_, rfl, rfl⟩
  | notifyCommit digest outputs =>
    obtain ⟨manager, notified, commits⟩ := notifyCommit_commits proper.consistent digest outputs
    exact ⟨_, bind_of notified rfl, manager, rfl, commits⟩

end Node

/-! ## The tables agree -/

namespace Node

open List hiding after

variable {node next : Node}

theorem mem_execute_executed {storage : Storage}
    {removed : List (ObjectID × Option SequenceNumber)} :
    other ∈ (storage.execute digest outputs removed).executed ↔
      digest = other ∨ other ∈ storage.executed := by
  dsimp only [Storage.execute]
  rw [ExtTreeSet.mem_insert, Std.compare_eq_iff_eq]

/-- A transaction that was sent and does not execute any more does not execute again. -/
theorem not_executing {before after : Option Locks} {isSent : Prop}
    (origin : ∀ locks, after = some locks → before = some locks ∨ ¬isSent) (wasSent : isSent)
    (notExecuting : before = none) : after = none := by
  refine Option.eq_none_iff_forall_ne_some.mpr fun locks found => ?_
  have executing := (origin locks found).resolve_right (not_not.mpr wasSent)
  rw [notExecuting] at executing
  cases executing

/-- Every action keeps the tables in agreement. -/
theorem Performs.proper (proper : node.Proper) (allowed : node.Allowed action)
    (performs : node.Performs next action) :
    next.Proper := by
  cases action with
  | beginEnqueue certs order =>
    obtain ⟨objects, call, rfl, grows, isProper, _⟩ := performs
    constructor
    · exact ⟨{ proper.consistent.certified with }, fun key => { proper.consistent.queued key with }⟩
    · exact proper.accounted
    · exact forall_mem_snoc.mpr ⟨proper.calls, isProper⟩
    · dsimp only [AvailableObjectsCache.enableUnboundedCache]
      rw [grows.unbounded, proper.unbounded, length_append, length_singleton]
    · exact proper.committed
  | checkStorage index key =>
    obtain ⟨call, isCall, isInput, rfl⟩ := performs
    refine { proper with calls := ?_, unbounded := ?_ }
    · intro other listed
      rcases mem_or_eq_of_mem_set listed with early | rfl
      · exact proper.calls other early
      · have before := proper.calls call (mem_of_getElem? isCall)
        refine { before with asked := ?_ }
        exact forall_mem_snoc.mpr ⟨before.asked, isInput⟩
    · rw [length_set]
      exact proper.unbounded
  | endEnqueue index =>
    obtain ⟨call, objects, objectAvailability, manager, isCall, rfl, grows, fewer, _,
      enqueues⟩ := performs
    constructor
    · exact enqueues.consistent
    · exact enqueues.sentAccounted proper.accounted
    · exact fun other listed => proper.calls other (mem_of_mem_eraseIdx listed)
    · have one := List.length_eraseIdx_add_one (List.getElem?_eq_some_iff.mp isCall).1
      rw [enqueues.cache]
      dsimp only
      have before := proper.unbounded
      omega
    · intro digest isCommitted
      obtain ⟨isSent, notExecuting⟩ := proper.committed digest isCommitted
      exact ⟨enqueues.sent digest isSent,
        not_executing (enqueues.origin digest) isSent notExecuting⟩
  | execute digest outputs removed =>
    obtain rfl := performs
    refine { proper with accounted := ?_ }
    intro other isSent
    refine (proper.accounted other isSent).imp_right fun executed => ?_
    exact ExtTreeSet.contains_iff_mem.mpr (mem_execute_executed.mpr
      (.inr (ExtTreeSet.contains_iff_mem.mp executed)))
  | notifyCommit digest outputs =>
    obtain ⟨manager, rfl, commits⟩ := performs
    constructor
    · exact commits.consistent
    · intro other isSent
      by_cases isDigest : other = digest
      · rw [isDigest]
        exact .inr (ExtTreeSet.contains_iff_mem.mpr allowed)
      · rcases commits.fresh other isSent isDigest with early | executing
        · refine (proper.accounted other early).imp_left ?_
          exact isSome_of_kept fun locks => commits.executing other locks isDigest
        · exact .inl executing
    · exact proper.calls
    · obtain ⟨released, cache, _⟩ := commits.cache
      rw [cache, AvailableObjectsCache.unboundedCacheEnabled_foldl_insert]
      exact proper.unbounded
    · intro other isCommitted
      have before : other ∈ node.committed ∨ other = digest ∧
          (node.manager.inner.executingCertificates[digest]?).isSome := by
        split at isCommitted
        · next executing =>
          rcases mem_snoc.mp isCommitted with early | late
          · exact .inl early
          · exact .inr ⟨late, executing⟩
        · exact .inl isCommitted
      rcases before with early | ⟨rfl, executing⟩
      · obtain ⟨isSent, notExecuting⟩ := proper.committed other early
        exact ⟨commits.sent other isSent, not_executing (commits.origin other) isSent notExecuting⟩
      · obtain ⟨locks, found⟩ := Option.isSome_iff_exists.mp executing
        exact ⟨commits.sent other (proper.consistent.certified.executing other locks found),
          (commits.left (proper.consistent.not_pending_of_executing found)).1⟩

/-- Locks change one after the other, and default locks are acquired only when nobody
reads. -/
theorem Performs.steps (performs : node.Performs next action) :
    node.manager.inner.table.Steps action.committed next.manager.inner.table := by
  cases action with
  | beginEnqueue certs order =>
    obtain ⟨objects, call, rfl, _⟩ := performs
    exact .refl
  | checkStorage index key =>
    obtain ⟨call, _, _, rfl⟩ := performs
    exact .refl
  | endEnqueue index =>
    obtain ⟨call, objects, objectAvailability, manager, _, rfl, _, _, _, enqueues⟩ := performs
    exact enqueues.steps
  | execute digest outputs removed =>
    obtain rfl := performs
    exact .refl
  | notifyCommit digest outputs =>
    obtain ⟨manager, rfl, commits⟩ := performs
    exact commits.steps

/-! ## Every run -/

/-- An action of a node that did not fail. -/
def step (node : Node) (action : Action) : Option Node :=
  (node.perform action).toOption

theorem step_eq_some {action : Action} :
    node.step action = some next ↔ node.perform action = .ok next := by
  unfold step
  cases node.perform action <;> simp [Except.toOption]

/-- Nothing is waited for, held or known when the manager starts. -/
theorem start_proper (epoch : EpochId) (cacheSize : Nat) (storage : Storage)
    (getSharedLocks : TransactionDigest → ExtTreeMap ObjectID SequenceNumber) :
    (start epoch cacheSize storage getSharedLocks).Proper where
  consistent := {
    certified := {
      disjoint := nofun
      digest := nofun
      proper := nofun
      incomplete := nofun
      counted := fun _ => rfl
      sentOnce := nodup_nil
      notSent := nofun
      executing := nofun }
    queued := fun key => {
      lists := {
        waiters := fun digest mode => by
          cases mode <;> exact ⟨fun listed => absurd listed ExtTreeSet.not_mem_empty, nofun⟩
        holders := fun digest => ⟨fun listed => absurd listed ExtTreeSet.not_mem_empty, nofun⟩ }
      nonempty := nofun } }
  accounted := nofun
  calls := nofun
  unbounded := rfl
  committed := nofun

theorem Proper.performs_of_step (proper : node.Proper) (allowed : node.Allowed action)
    (performed : node.step action = some next) :
    node.Performs next action := by
  obtain ⟨next', performed', performs⟩ := proper.performs allowed
  rw [step_eq_some, performed'] at performed
  cases performed
  exact performs

/-- Every node of a run is proper. -/
theorem proper_of_run {storage : Storage}
    {getSharedLocks : TransactionDigest → ExtTreeMap ObjectID SequenceNumber}
    (run : Library.Run step Allowed (start epoch cacheSize storage getSharedLocks) node) :
    node.Proper := by
  apply run.invariant Proper (start_proper epoch cacheSize storage getSharedLocks)
  intro state action next proper allowed performed
  exact (proper.performs_of_step allowed performed).proper proper allowed

end Node

end Sui.TransactionManager
