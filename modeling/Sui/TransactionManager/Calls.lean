import Sui.TransactionManager.Enqueue

/-!
# The two parts of enqueueing

The first part asks the cache about every input.  What it does not know is asked of the
database, while the cache does not forget anything.  The second part asks the cache once
more about every input that was not available, so that an input counts as missing only if
the cache was not told in between that it became available.
-/

namespace Sui.TransactionManager

open Library AvailableObjectsCache
open List hiding after
open Authority (ObjectID SequenceNumber TransactionDigest)
open Std (ExtTreeMap)

/-! ## The locks of the inputs -/

/-- The input of a transaction that is to be locked, and how. -/
def inputLock (sharedLocks : ExtTreeMap ObjectID SequenceNumber) :
    InputObjectKind → Option (InputKey × LockMode)
  | .sharedMoveObject id _ mutable => (sharedLocks[id]?).map fun version =>
    (.versionedObject id version, if mutable then .default else .readOnly)
  | .movePackage id => some (.package id, .default)
  | .immOrOwnedMoveObject objRef => some (.versionedObject objRef.1 objRef.2.1, .default)

/-- The inputs of a transaction and the objects that it receives, if the versions of its
shared inputs are assigned. -/
def inputKeys (sharedLocks : ExtTreeMap ObjectID SequenceNumber)
    (cert : VerifiedExecutableTransaction) : Option (List InputKey) :=
  (cert.inputObjects.mapM (inputLock sharedLocks)).map fun locks =>
    locks.map Prod.fst ++ receivingKeys cert

/-- Locks on different inputs, added to others. -/
structure Adds (before : Locks) (keys : List InputKey) (after : Locks) : Prop where
  mem : ∀ key : InputKey, (after[key]?).isSome ↔ (before[key]?).isSome ∨ key ∈ keys
  size : after.size = before.size + keys.length

theorem insert_adds (absent : ¬(locks[key]?).isSome) (mode : LockMode) :
    Adds locks [key] (locks.insert key mode) where
  mem other := by
    rw [Map.getElem?_insert, mem_singleton]
    split
    · next same => simp [same]
    · next different => simp [Ne.symm different]
  size := by
    rw [Map.size_insert_of_absent (Option.not_isSome_iff_eq_none.mp absent)]
    rfl

theorem Adds.cons {keys : List InputKey} (one : Adds before [key] middle)
    (many : Adds middle keys after) :
    Adds before (key :: keys) after where
  mem other := by
    rw [many.mem, one.mem, mem_singleton, mem_cons, or_assoc]
  size := by
    rw [many.size, one.size, length_singleton, length_cons]
    omega

/-- Inserting fresh keys adds them. -/
theorem foldl_insert_adds {wanted : List (InputKey × LockMode)} {locks : Locks}
    (distinct : (wanted.map Prod.fst).Nodup)
    (fresh : ∀ key ∈ wanted.map Prod.fst, ¬(locks[key]?).isSome) :
    Adds locks (wanted.map Prod.fst)
      (wanted.foldl (fun locks lock => locks.insert lock.1 lock.2) locks) := by
  induction wanted generalizing locks with
  | nil => exact ⟨by simp, rfl⟩
  | cons lock wanted ih =>
    rw [map_cons, nodup_cons] at distinct
    have one := insert_adds (fresh lock.1 mem_cons_self) lock.2
    refine one.cons (ih distinct.2 ?_)
    intro other later
    rw [one.mem, mem_singleton, not_or]
    exact ⟨fresh other (mem_cons_of_mem _ later), fun same => distinct.1 (same ▸ later)⟩

variable {sharedLocks : ExtTreeMap ObjectID SequenceNumber}

/-- Collecting the locks of the inputs, if the shared versions are known. -/
theorem foldlM_insertInputObjectLock {objects : List InputObjectKind} {locks : Locks}
    (known : objects.mapM (inputLock sharedLocks) = some wanted) :
    objects.foldlM (insertInputObjectLock sharedLocks) locks =
      .ok (wanted.foldl (fun locks lock => locks.insert lock.1 lock.2) locks) := by
  induction objects generalizing wanted locks with
  | nil =>
    cases known
    rfl
  | cons kind objects ih =>
    rw [mapM_cons] at known
    obtain ⟨⟨key, mode⟩, isLock, rest⟩ := Option.bind_eq_some_iff.mp known
    obtain ⟨others, isOthers, isWanted⟩ := Option.bind_eq_some_iff.mp rest
    cases isWanted
    have inserted : insertInputObjectLock sharedLocks locks kind = .ok (locks.insert key mode) := by
      cases kind with
      | movePackage | immOrOwnedMoveObject =>
        cases isLock
        rfl
      | sharedMoveObject id initialSharedVersion mutable =>
        obtain ⟨version, found, same⟩ := Option.map_eq_some_iff.mp isLock
        cases same
        dsimp only [insertInputObjectLock]
        rw [found]
    exact bind_of inserted (ih isOthers)

/-- The locks of a certificate are one for each of its inputs. -/
theorem inputLocks_adds {cert : VerifiedExecutableTransaction} {keys : List InputKey}
    (known : inputKeys sharedLocks cert = some keys) (distinct : keys.Nodup) :
    ∃ locks, inputLocks sharedLocks cert = .ok locks ∧
      (∀ key : InputKey, (locks[key]?).isSome ↔ key ∈ keys) ∧
      locks.size = cert.inputObjects.length + cert.receivingObjects.length := by
  obtain ⟨wanted, isWanted, rfl⟩ := Option.map_eq_some_iff.mp known
  have adds := @foldl_insert_adds
    (wanted ++ (receivingKeys cert).map fun key => (key, .default)) ∅
    (by simpa [Function.comp_def] using distinct) (by simp)
  rw [foldl_append, foldl_map] at adds
  refine ⟨_, bind_of (foldlM_insertInputObjectLock isWanted) rfl, ?_, ?_⟩
  · intro key
    rw [adds.mem]
    simp
  · rw [adds.size]
    simp [receivingKeys, (Map.forall₂_of_mapM isWanted).length_eq]

/-! ## Asking the cache -/

/-- Nothing is forgotten, and no version of an object is added. -/
structure AvailableObjectsCache.Grows (before after : AvailableObjectsCache) : Prop where
  highest : ∀ id, after.highest id = before.highest id
  unbounded : after.unboundedCacheEnabled = before.unboundedCacheEnabled
  positive : ∀ key, before.answer key = some true → after.answer key = some true

theorem AvailableObjectsCache.Grows.refl (objects : AvailableObjectsCache) :
    objects.Grows objects :=
  ⟨fun _ => rfl, rfl, fun _ positive => positive⟩

theorem AvailableObjectsCache.Grows.trans {first second third : AvailableObjectsCache}
    (one : first.Grows second) (two : second.Grows third) :
    first.Grows third where
  highest id := (two.highest id).trans (one.highest id)
  unbounded := two.unbounded.trans one.unbounded
  positive key positive := two.positive key (one.positive key positive)

section

variable (objects : AvailableObjectsCache)

include objects

theorem AvailableObjectsCache.grows_isObjectAvailable (key : InputKey) :
    objects.Grows (objects.isObjectAvailable key).1 where
  highest _ := highest_isObjectAvailable _ _ _
  unbounded := rfl
  positive _ positive := (answer_isObjectAvailable _ _ _).trans positive

/-- What one lookup in the cache records. -/
theorem lookUpCache_eq (objectAvailability : ExtTreeMap InputKey (Option Bool)) (key : InputKey) :
    lookUpCache (objects, objectAvailability) key = ((objects.isObjectAvailable key).1,
        if objects.answer key = none then objectAvailability
        else objectAvailability.insert key (objects.answer key)) := by
  rw [← objects.isObjectAvailable_snd key]
  dsimp only [lookUpCache]
  generalize objects.isObjectAvailable key = result
  obtain ⟨objects', answer⟩ := result
  cases answer <;> rfl

/-- What the lookups in the cache record. -/
theorem foldl_lookUpCache (order : List InputKey)
    (objectAvailability : ExtTreeMap InputKey (Option Bool)) :
    objects.Grows (order.foldl lookUpCache (objects, objectAvailability)).1 ∧
    ∀ key : InputKey, (order.foldl lookUpCache (objects, objectAvailability)).2[key]? =
      if key ∈ order ∧ objects.answer key ≠ none then some (objects.answer key)
      else objectAvailability[key]? := by
  induction order generalizing objects objectAvailability with
  | nil => exact ⟨.refl _, fun key => (if_neg fun both => not_mem_nil both.1).symm⟩
  | cons first order ih =>
    rw [foldl_cons, lookUpCache_eq]
    obtain ⟨growsRest, entries⟩ := ih (objects.isObjectAvailable first).1
      (if objects.answer first = none then objectAvailability
        else objectAvailability.insert first (objects.answer first))
    refine ⟨(objects.grows_isObjectAvailable first).trans growsRest, ?_⟩
    intro key
    rw [entries]
    simp only [answer_isObjectAvailable, mem_cons]
    by_cases isFirst : key = first
    · subst isFirst
      cases objects.answer key with
      | none => simp
      | some available => simp
    · cases objects.answer first with
      | none => simp [isFirst]
      | some available => simp [isFirst, Ne.symm isFirst]

end

/-! ## The database and the cache again -/

/-- What the answers of the storage record. -/
theorem foldlM_recordAvailability {objects : AvailableObjectsCache}
    (unbounded : objects.unboundedCacheEnabled ≠ 0) {answers : List (Bool × InputKey)}
    {objectAvailability : ExtTreeMap InputKey (Option Bool)}
    (known : ∀ answer ∈ answers, objectAvailability[answer.2]? ≠ none) :
    ∃ objects' objectAvailability',
      answers.foldlM recordAvailability (objects, objectAvailability) =
        .ok (objects', objectAvailability') ∧
      objects.Grows objects' ∧
      (∀ key : InputKey, objectAvailability'[key]? = objectAvailability[key]? ∨
        ∃ available, (available, key) ∈ answers ∧
          objectAvailability'[key]? = some (some available)) ∧
      ∀ answer ∈ answers, ∃ available, objectAvailability'[answer.2]? = some (some available) := by
  induction answers generalizing objects objectAvailability with
  | nil =>
    exact ⟨objects, objectAvailability, rfl, .refl _, fun _ => .inl rfl, nofun⟩
  | cons first answers ih =>
    obtain ⟨available, key⟩ := first
    let inserted := if available && key.version.isNone then objects.insert key else objects
    have grows : objects.Grows inserted := by
      dsimp only [inserted]
      split
      · next isPackage =>
        cases key with
        | versionedObject id version => simp [InputKey.version] at isPackage
        | package id =>
          exact ⟨fun lookup => highest_insert_package unbounded id lookup,
            unboundedCacheEnabled_insert _ _, fun lookup positive =>
              answer_insert_of_true unbounded positive _⟩
      · exact .refl _
    obtain ⟨objects', objectAvailability', completed, growsRest, entries, answered⟩ :=
      @ih inserted (by rw [grows.unbounded]; exact unbounded)
        (objectAvailability.insert key (some available)) (by
          intro answer later
          rw [Map.getElem?_insert]
          split
          · exact Option.some_ne_none _
          · exact known answer (mem_cons_of_mem _ later))
    refine ⟨objects', objectAvailability', ?_, grows.trans growsRest, ?_, ?_⟩
    · refine bind_eq_ok.mpr ⟨_, ?_, completed⟩
      exact bind_of (require_of (known (available, key) mem_cons_self)) rfl
    · intro lookup
      rcases entries lookup with same | ⟨available', listed, found⟩
      · rw [Map.getElem?_insert] at same
        split at same
        · next isKey => exact .inr ⟨available, isKey ▸ mem_cons_self, same⟩
        · exact .inl same
      · exact .inr ⟨available', mem_cons_of_mem _ listed, found⟩
    · refine forall_mem_cons.mpr ⟨?_, answered⟩
      rcases entries key with same | ⟨available', _, found⟩
      · rw [Map.getElem?_insert, if_pos rfl] at same
        exact ⟨available, same⟩
      · exact ⟨available', found⟩

/-- A second look at a missing input. -/
theorem recheckAvailability_eq (objects : AvailableObjectsCache)
    (notAvailable : objectAvailability[key]? = some (some false)) :
    recheckAvailability (objects, objectAvailability) key = .ok ((objects.isObjectAvailable key).1,
        if objects.answer key = some true then objectAvailability.insert key (some true)
        else objectAvailability) := by
  rw [← objects.isObjectAvailable_snd key]
  unfold recheckAvailability
  dsimp only
  rw [notAvailable]
  generalize objects.isObjectAvailable key = result
  obtain ⟨objects', answer⟩ := result
  cases answer with
  | none => rfl
  | some available => cases available <;> rfl

/-- Asking the cache again about what was not available. -/
theorem foldlM_recheckAvailability {objects : AvailableObjectsCache} {order : List InputKey}
    {objectAvailability : ExtTreeMap InputKey (Option Bool)}
    (answered : ∀ key ∈ order, ∃ available, objectAvailability[key]? = some (some available)) :
    ∃ objects' objectAvailability', order.foldlM recheckAvailability (objects, objectAvailability) =
        .ok (objects', objectAvailability') ∧
      objects.Grows objects' ∧
      (∀ key : InputKey, objectAvailability'[key]? = objectAvailability[key]? ∨
        objectAvailability'[key]? = some (some true)) ∧
      ∀ key ∈ order, objectAvailability'[key]? = some (some false) →
        objects.answer key ≠ some true := by
  induction order generalizing objects objectAvailability with
  | nil =>
    exact ⟨objects, objectAvailability, rfl, .refl _, fun _ => .inl rfl, nofun⟩
  | cons first order ih =>
    obtain ⟨available, isAnswered⟩ := answered first mem_cons_self
    have later := (forall_mem_cons.mp answered).2
    cases available with
    | true =>
      obtain ⟨objects', objectAvailability', completed, grows, entries, missing⟩ :=
        @ih objects objectAvailability later
      refine ⟨objects', objectAvailability', ?_, grows, entries, ?_⟩
      · refine bind_eq_ok.mpr ⟨(objects, objectAvailability), ?_, completed⟩
        dsimp only [recheckAvailability]
        rw [isAnswered]
      · intro key listed notAvailable
        rcases mem_cons.mp listed with rfl | isLater
        · rcases entries key with same | found
          · rw [same, isAnswered] at notAvailable
            cases notAvailable
          · rw [found] at notAvailable
            cases notAvailable
        · exact missing key isLater notAvailable
    | false =>
      obtain ⟨objects', objectAvailability', completed, grows, entries, missing⟩ :=
        @ih (objects.isObjectAvailable first).1 (if objects.answer first = some true then
            objectAvailability.insert first (some true) else objectAvailability) (by
          intro key listed
          split
          · rw [Map.getElem?_insert]
            split
            · exact ⟨true, rfl⟩
            · exact later key listed
          · exact later key listed)
      refine ⟨objects', objectAvailability', ?_,
        (objects.grows_isObjectAvailable first).trans grows, ?_, ?_⟩
      · exact bind_of (recheckAvailability_eq objects isAnswered) completed
      · intro key
        rcases entries key with same | found
        · split at same
          · rw [Map.getElem?_insert] at same
            split at same
            · exact .inr same
            · exact .inl same
          · exact .inl same
        · exact .inr found
      · intro key listed notAvailable
        by_cases isLater : key ∈ order
        · have notKnown := missing key isLater notAvailable
          rwa [answer_isObjectAvailable] at notKnown
        · obtain rfl : key = first := (mem_cons.mp listed).resolve_right isLater
          intro known
          rcases entries key with same | found
          · rw [if_pos known, Map.getElem?_insert, if_pos rfl, notAvailable] at same
            cases same
          · rw [found] at notAvailable
            cases notAvailable

/-! ## The certificates of a call -/

/-- What is known about a call between its two parts. -/
structure EnqueueCall.Proper (call : EnqueueCall) : Prop where
  listed : ∀ request ∈ call.certs, ∀ key : InputKey, (request.2.2[key]?).isSome → key ∈ call.order
  complete : ∀ request ∈ call.certs, request.2.2.size =
    request.1.inputObjects.length + request.1.receivingObjects.length
  known : ∀ key : InputKey, call.objectAvailability[key]? ≠ none ↔ key ∈ call.order
  asked : ∀ answer ∈ call.cacheMissAvailability, answer.2 ∈ call.order

/-- The database has answered all questions. -/
def EnqueueCall.Answered (call : EnqueueCall) : Prop :=
  ∀ key ∈ call.inputObjectCacheMisses, ∃ answer ∈ call.cacheMissAvailability, answer.2 = key

variable {manager : TransactionManager} {isTxAlreadyExecuted : TransactionDigest → Bool}

/-- Every transaction that was sent is executing or was executed. -/
def SentAccounted (manager : TransactionManager)
    (isTxAlreadyExecuted : TransactionDigest → Bool) : Prop :=
  ∀ digest ∈ manager.sent, (manager.inner.executingCertificates[digest]?).isSome ∨
    isTxAlreadyExecuted digest = true

/-- Enqueueing keeps what was sent accounted for. -/
theorem Enqueues.sentAccounted {next : TransactionManager}
    (enqueues : Enqueues manager objectAvailability next)
    (accounted : SentAccounted manager isTxAlreadyExecuted) :
    SentAccounted next isTxAlreadyExecuted := by
  intro digest isSent
  rcases enqueues.fresh digest isSent with early | executing
  · exact (accounted digest early).imp_left (isSome_of_kept (enqueues.executing digest))
  · exact .inl executing

/-- One certificate is enqueued. -/
theorem enqueueCertificate_enqueues (consistent : Consistent manager)
    (accounted : SentAccounted manager isTxAlreadyExecuted)
    (complete : request.2.2.size =
      request.1.inputObjects.length + request.1.receivingObjects.length)
    (answered : ∀ key : InputKey, (request.2.2[key]?).isSome →
      ∃ available, objectAvailability[key]? = some (some available)) :
    ∃ next, enqueueCertificate isTxAlreadyExecuted objectAvailability manager request = .ok next ∧
      Enqueues manager objectAvailability next := by
  obtain ⟨cert, expectedEffectsDigest, locks⟩ := request
  dsimp only [enqueueCertificate]
  split
  · exact ⟨manager, rfl, .refl consistent⟩
  split
  · exact ⟨manager, rfl, .refl consistent⟩
  next notPending =>
  split
  · exact ⟨manager, rfl, .refl consistent⟩
  next notExecuting =>
  split
  · exact ⟨manager, rfl, .refl consistent⟩
  next notExecuted =>
  rw [Option.not_isSome_iff_eq_none] at notPending notExecuting
  have notSent : cert.digest ∉ manager.sent := by
    intro isSent
    rcases accounted cert.digest isSent with executing | executed
    · rw [notExecuting] at executing
      cases executing
    · exact notExecuted executed
  have start := @asking_start manager objectAvailability cert.digest cert consistent notPending
    notExecuting expectedEffectsDigest locks
  have asked : ∃ finish, locks.toList.foldlM (enqueueLock objectAvailability cert.digest)
        (manager.inner, ⟨cert, expectedEffectsDigest, ∅, ∅⟩) = .ok finish ∧
      Asking manager objectAvailability cert.digest cert locks.size [] finish.1 finish.2 ∧
      ∀ lock ∈ ([] : List (InputKey × LockMode)), ∃ available,
        objectAvailability[lock.1]? = some (some available) := by
    apply exists_foldlM fun rest (state : Inner × PendingCertificate) =>
      Asking manager objectAvailability cert.digest cert locks.size rest state.1 state.2 ∧
        ∀ lock ∈ rest, ∃ available, objectAvailability[lock.1]? = some (some available)
    · refine ⟨start, ?_⟩
      rintro ⟨key, mode⟩ listed
      exact answered key (Option.isSome_of_eq_some
        (ExtTreeMap.mem_toList_iff_getElem?_eq_some.mp listed))
    · rintro ⟨key, mode⟩ rest ⟨inner, pendingCert⟩ ⟨asking, known⟩
      obtain ⟨available, isAnswered⟩ := known (key, mode) mem_cons_self
      obtain ⟨result, performed, next⟩ := asking.enqueueLock isAnswered
      exact ⟨result, performed, next, (forall_mem_cons.mp known).2⟩
  obtain ⟨⟨inner, pendingCert⟩, performed, asking, _⟩ := asked
  rw [complete] at asking
  cases isComplete : pendingCert.acquiringLocks.isEmpty with
  | true =>
    obtain ⟨next, sending, enqueues⟩ :=
      asking.send consistent notPending notExecuting notSent rfl isComplete
    refine ⟨next, bind_of performed ?_, enqueues⟩
    exact (if_pos isComplete).trans sending
  | false =>
    refine ⟨_, bind_of performed ?_,
      asking.insert consistent notPending notExecuting notSent rfl isComplete⟩
    refine (if_neg (Bool.eq_false_iff.mp isComplete)).trans ?_
    refine bind_of (require_of ?_) rfl
    rw [asking.samePending]
    exact notPending

/-- All certificates of a batch are enqueued. -/
theorem foldlM_enqueueCertificate {certs : List Request}
    {objectAvailability : ExtTreeMap InputKey (Option Bool)}
    (complete : ∀ request ∈ certs, request.2.2.size =
      request.1.inputObjects.length + request.1.receivingObjects.length)
    (answered : ∀ request ∈ certs, ∀ key : InputKey, (request.2.2[key]?).isSome →
      ∃ available, objectAvailability[key]? = some (some available))
    (consistent : Consistent manager) (accounted : SentAccounted manager isTxAlreadyExecuted) :
    ∃ next, certs.foldlM (enqueueCertificate isTxAlreadyExecuted objectAvailability) manager =
        .ok next ∧
      Enqueues manager objectAvailability next := by
  induction certs generalizing manager with
  | nil => exact ⟨manager, rfl, .refl consistent⟩
  | cons request certs ih =>
    obtain ⟨middle, performed, one⟩ := enqueueCertificate_enqueues consistent accounted
      (complete request mem_cons_self) (answered request mem_cons_self)
    obtain ⟨next, completed, many⟩ := ih
      (forall_mem_cons.mp complete).2
      (forall_mem_cons.mp answered).2
      one.consistent (one.sentAccounted accounted)
    refine ⟨next, ?_, one.trans many⟩
    exact bind_of performed completed

/-! ## The two parts -/

/-- The second part of enqueueing never fails.  An input counts as missing only if the
cache or the database said so, and the cache was not told since that it is available. -/
theorem endEnqueue_enqueues {call : EnqueueCall} (proper : call.Proper) (isAnswered : call.Answered)
    (unbounded : manager.inner.availableObjectsCache.unboundedCacheEnabled ≠ 0)
    (consistent : Consistent manager) (accounted : SentAccounted manager isTxAlreadyExecuted) :
    ∃ objects objectAvailability next, manager.endEnqueue isTxAlreadyExecuted call = .ok next ∧
      manager.inner.availableObjectsCache.Grows { objects with
        unboundedCacheEnabled := manager.inner.availableObjectsCache.unboundedCacheEnabled } ∧
      objects.unboundedCacheEnabled + 1 =
        manager.inner.availableObjectsCache.unboundedCacheEnabled ∧
      (∀ key : InputKey, objectAvailability[key]? = some (some false) →
        (call.objectAvailability[key]? = some (some false) ∨
          (false, key) ∈ call.cacheMissAvailability) ∧
        manager.inner.availableObjectsCache.answer key ≠ some true) ∧
      Enqueues { manager with
        inner := { manager.inner with availableObjectsCache := objects } }
        objectAvailability next := by
  obtain ⟨recorded, recordedAvailability, recording, growsFirst, entries, answers⟩ :=
    foldlM_recordAvailability unbounded fun answer listed =>
      (proper.known answer.2).mpr (proper.asked answer listed)
  have allAnswered : ∀ key ∈ call.order, ∃ available,
      recordedAvailability[key]? = some (some available) := by
    intro key listed
    rcases entries key with same | ⟨available, _, found⟩
    · cases before : call.objectAvailability[key]? with
      | none => exact absurd before ((proper.known key).mpr listed)
      | some answer =>
        cases answer with
        | some available => exact ⟨available, same.trans before⟩
        | none =>
          obtain ⟨answer, isListed, rfl⟩ := isAnswered key
            (mem_filter.mpr ⟨listed, decide_eq_true before⟩)
          exact answers answer isListed
    · exact ⟨available, found⟩
  obtain ⟨rechecked, objectAvailability, rechecking, growsSecond, later, missing⟩ :=
    foldlM_recheckAvailability allAnswered
  have grows := growsFirst.trans growsSecond
  have positive : rechecked.unboundedCacheEnabled > 0 := by
    rw [grows.unbounded]
    exact Nat.pos_of_ne_zero unbounded
  let objects : AvailableObjectsCache := { rechecked with
    unboundedCacheEnabled := rechecked.unboundedCacheEnabled - 1 }
  have known : ∀ request ∈ call.certs, ∀ key : InputKey, (request.2.2[key]?).isSome →
      ∃ available, objectAvailability[key]? = some (some available) := by
    intro request isRequest key isLocked
    obtain ⟨available, found⟩ := allAnswered key (proper.listed request isRequest key isLocked)
    rcases later key with same | changed
    · exact ⟨available, same.trans found⟩
    · exact ⟨true, changed⟩
  obtain ⟨next, enqueued, enqueues⟩ := @foldlM_enqueueCertificate { manager with
      inner := { manager.inner with availableObjectsCache := objects } } isTxAlreadyExecuted
    call.certs objectAvailability proper.complete known
    ⟨{ consistent.certified with }, fun key => { consistent.queued key with }⟩ accounted
  refine ⟨objects, objectAvailability, next, ?_, ?_, ?_, ?_, enqueues⟩
  · refine bind_of recording ?_
    refine bind_of rechecking ?_
    refine bind_eq_ok.mpr ⟨objects, ?_, enqueued⟩
    exact bind_of (require_of positive) rfl
  · exact ⟨grows.highest, rfl, grows.positive⟩
  · dsimp only [objects]
    have same := grows.unbounded
    omega
  · intro key notAvailable
    have before : recordedAvailability[key]? = some (some false) := by
      rcases later key with same | changed
      · exact same.symm.trans notAvailable
      · rw [changed] at notAvailable
        cases notAvailable
    have reason : call.objectAvailability[key]? = some (some false) ∨
        (false, key) ∈ call.cacheMissAvailability := by
      rcases entries key with same | ⟨available, listed, found⟩
      · exact .inl (same.symm.trans before)
      · rw [before] at found
        cases found
        exact .inr listed
    refine ⟨reason, fun isPositive => ?_⟩
    have listed : key ∈ call.order := by
      rcases reason with cached | answered
      · exact (proper.known key).mp (cached ▸ Option.some_ne_none _)
      · exact proper.asked _ answered
    exact missing key listed notAvailable (growsFirst.positive key isPositive)

end Sui.TransactionManager
