import Sui.Narwhal.Consensus.Agreement
import Sui.Narwhal.Primary.Tracked

/-!
# The synchronizer

Two tasks of the synchronizer accept certificates.  The acceptor processes the
certificates that are received or fetched, one at a time.  Garbage collection
publishes a new round and accepts the suspended certificates that wait for
collected ones.  Both write certificates to the store and send them to the
consensus under one lock.

Two things happen outside the lock: the acceptor looks the certificate up in the
store before it takes the lock, and garbage collection publishes its round before
it takes the lock.  So a certificate that garbage collection accepts in between
is accepted again by the acceptor, and a fetched certificate that is suspended
makes the acceptor panic.  Every run without these two races is safe.
-/

namespace Sui.Narwhal

open List hiding after
open SynchronizerState
open CertificateStore (write contains_write)

/-- Who holds the lock of the synchronizer, and the certificates that the holder
is about to accept. -/
inductive Lock
  | free
  | acceptor (queue : List Certificate)
  | collector (round : Nat) (queue : List Certificate)
  deriving DecidableEq

namespace Lock

/-- The certificates that are about to be accepted. -/
def queue : Lock → List Certificate
  | free => []
  | acceptor queue => queue
  | collector _ queue => queue

/-- Whether the acceptor holds the lock. -/
def isAcceptor : Lock → Bool
  | acceptor _ => true
  | _ => false

/-- Whether garbage collection holds the lock. -/
def isCollector : Lock → Bool
  | collector _ _ => true
  | _ => false

/-- The round up to which suspended certificates may miss parents that they do
not wait for. -/
def gone : Lock → Nat
  | free => 0
  | acceptor _ => 0
  | collector round _ => round + 1

end Lock

/-- The synchronizer with its two tasks. -/
structure Synchronizer where
  store : CertificateStore
  state : SynchronizerState
  /-- The published garbage collection round. -/
  gcRound : Nat
  /-- The certificates that were written to the store and sent to the consensus,
  with the garbage collection round at that time. -/
  sent : List (Certificate × Nat)
  /-- The certificate with which the acceptor waits for the lock, and whether it
  returns early if the certificate is suspended. -/
  pending : Option (Certificate × Bool)
  /-- The published round with which garbage collection waits for the lock. -/
  collecting : Option Nat
  lock : Lock

namespace Synchronizer

/-- A synchronizer over the certificates that were recovered from the store. -/
def new (recovered : List Certificate) (gcRound : Nat) : Synchronizer where
  store := recovered.foldl CertificateStore.write .empty
  state := .empty
  gcRound := gcRound
  sent := []
  pending := none
  collecting := none
  lock := .free

/-- The parents that are not stored.  In the first round the parents have to be
genesis certificates instead. -/
def getMissingParents (genesis : List CertificateDigest) (store : CertificateStore)
    (certificate : Certificate) : Option (List CertificateDigest) :=
  if certificate.round = 1 then
    if certificate.parents.all genesis.contains then some [] else none
  else
    some (certificate.parents.filter fun parent => !store.contains parent)

/-- Write a certificate to the store and send it to the consensus. -/
def acceptCertificateInternal (synchronizer : Synchronizer) (certificate : Certificate)
    (lock : Lock) : Except SynchronizerPanic Synchronizer :=
  let absent :=
    if synchronizer.gcRound + 1 < certificate.round then
      certificate.parents.find? fun parent => !synchronizer.store.contains parent
    else
      none
  match absent with
  | some parent => .error (.parentNotFound parent certificate)
  | none =>
    .ok { synchronizer with
      store := synchronizer.store.write certificate
      sent := synchronizer.sent ++ [(certificate, synchronizer.gcRound)]
      lock := lock }

/-- Collect the certificates that can be accepted with a certificate. -/
def queueWithChildren (synchronizer : Synchronizer) (order : HashOrder)
    (certificate : Certificate) : Except SynchronizerPanic Synchronizer :=
  match synchronizer.state.acceptChildren order certificate.round
      certificate.digest with
  | .error panic => .error panic
  | .ok (state, children) =>
    .ok { synchronizer with
      state := state
      pending := none
      lock := .acceptor (certificate :: children) }

/-- What the acceptor does right after it takes the lock: suspend the certificate
or collect what can be accepted with it. -/
def processCertificateWithLock (order : HashOrder) (genesis : List CertificateDigest)
    (synchronizer : Synchronizer) (certificate : Certificate)
    (earlySuspend : Bool) : Except SynchronizerPanic Synchronizer :=
  if earlySuspend && synchronizer.state.suspended.contains certificate.digest then
    .ok { synchronizer with pending := none }
  else
    let missingParents :=
      if synchronizer.gcRound + 1 < certificate.round then
        getMissingParents genesis synchronizer.store certificate
      else
        some []
    match missingParents with
    | none => .ok { synchronizer with pending := none }
    | some (parent :: parents) =>
      match synchronizer.state.insert certificate (parent :: parents)
          (!earlySuspend) with
      | .error panic => .error panic
      | .ok state => .ok { synchronizer with state := state, pending := none }
    | some [] => synchronizer.queueWithChildren order certificate

/-- One turn of the garbage collection loop. -/
def collectGarbage (order : HashOrder) (synchronizer : Synchronizer)
    (gcRound : Nat) : Except SynchronizerPanic Synchronizer :=
  match synchronizer.state.runGcOnce gcRound with
  | none => .ok { synchronizer with lock := .free }
  | some ((round, digest), suspended, state) =>
    if gcRound < round then
      .error (.collectedAboveGcRound round)
    else
      match state.acceptChildren order round digest with
      | .error panic => .error panic
      | .ok (state, children) =>
        .ok { synchronizer with
          state := state
          lock := .collector gcRound (suspended.toList ++ children) }

/-! ## Interleavings of the two tasks -/

/-- What one of the tasks does next. -/
inductive Action
  /-- The acceptor takes the next certificate and looks it up in the store. -/
  | check (certificate : Certificate) (earlySuspend : Bool)
  | process
  | accept
  | release
  | publish (round : Nat)
  | acquire
  /-- Garbage collection takes the lowest missing certificate, or releases the
  lock. -/
  | collect

/-- Perform an action unless the task is elsewhere or has to wait for the lock. -/
def perform (order : HashOrder) (genesis : List CertificateDigest) (synchronizer : Synchronizer) :
    Action → Option (Except SynchronizerPanic Synchronizer)
  | .check certificate earlySuspend =>
    if synchronizer.pending = none ∧ synchronizer.lock.isAcceptor = false then
      if synchronizer.store.contains certificate.digest then
        some (.ok synchronizer)
      else
        some (.ok { synchronizer with
          pending := some (certificate, earlySuspend) })
    else
      none
  | .process =>
    match synchronizer.pending, synchronizer.lock with
    | some (certificate, earlySuspend), .free =>
      some (synchronizer.processCertificateWithLock order genesis certificate earlySuspend)
    | _, _ => none
  | .accept =>
    match synchronizer.lock with
    | .acceptor (certificate :: queue) =>
      some (synchronizer.acceptCertificateInternal certificate (.acceptor queue))
    | .collector round (certificate :: queue) =>
      some (synchronizer.acceptCertificateInternal certificate (.collector round queue))
    | _ => none
  | .release =>
    match synchronizer.lock with
    | .acceptor [] => some (.ok { synchronizer with lock := .free })
    | _ => none
  | .publish round =>
    if synchronizer.gcRound ≤ round ∧ synchronizer.collecting = none ∧
        synchronizer.lock.isCollector = false then
      some (.ok { synchronizer with
        gcRound := round
        collecting := some round })
    else
      none
  | .acquire =>
    match synchronizer.collecting, synchronizer.lock with
    | some round, .free =>
      some (.ok { synchronizer with
        collecting := none
        lock := .collector round [] })
    | _, _ => none
  | .collect =>
    match synchronizer.lock with
    | .collector round [] => some (synchronizer.collectGarbage order round)
    | _ => none

/-- The certificates come from the set, and the acceptor takes the lock only when
the predicate `admits` holds. -/
def Allowed (history : CertificateSet) (admits : Synchronizer → Certificate → Bool → Prop)
    (synchronizer : Synchronizer) : Action → Prop
  | .check certificate _ => certificate ∈ history
  | .process => ∀ certificate earlySuspend,
      synchronizer.pending = some (certificate, earlySuspend) →
        admits synchronizer certificate earlySuspend
  | _ => True

/-- One allowed action, which may end in a panic. -/
def Step (order : HashOrder) (genesis : List CertificateDigest) (history : CertificateSet)
    (admits : Synchronizer → Certificate → Bool → Prop) (synchronizer : Synchronizer)
    (outcome : Except SynchronizerPanic Synchronizer) : Prop :=
  ∃ action, synchronizer.Allowed history admits action ∧
    synchronizer.perform order genesis action = some outcome

/-- The synchronizer after an action that does not panic. -/
def next (order : HashOrder) (genesis : List CertificateDigest) (synchronizer : Synchronizer)
    (action : Action) : Option Synchronizer :=
  match synchronizer.perform order genesis action with
  | some (.ok next) => some next
  | _ => none

theorem perform_of_next {synchronizer after : Synchronizer}
    (isNext : synchronizer.next order genesis action = some after) :
    synchronizer.perform order genesis action = some (.ok after) := by
  unfold next at isNext
  split at isNext
  · next after' performed =>
    cases isNext
    exact performed
  · cases isNext

/-- The synchronizers that a run without panic leads to. -/
def Reachable (order : HashOrder) (genesis : List CertificateDigest) (history : CertificateSet)
    (admits : Synchronizer → Certificate → Bool → Prop) (recovered : List Certificate)
    (gcRound : Nat) : Synchronizer → Prop :=
  Library.Run (next order genesis) (Allowed history admits)
    (new recovered gcRound)

/-- Garbage collection did not interfere since the acceptor looked up the
certificate: it is still not stored, and a fetched certificate whose parents are
garbage collected is not suspended. -/
def Undisturbed (synchronizer : Synchronizer) (certificate : Certificate)
    (earlySuspend : Bool) : Prop :=
  synchronizer.store.contains certificate.digest = false ∧ (earlySuspend = false →
      certificate.round ≤ synchronizer.gcRound + 1 →
        synchronizer.state.suspended[certificate.digest]? = none)

/-- The acceptor may always take the lock. -/
def Unrestricted (_ : Synchronizer) (_ : Certificate) (_ : Bool) : Prop :=
  True

/-- What was written to the store and sent to the consensus, which starts from
the recovered certificates. -/
structure Delivered
    (recovered : List Certificate)
    (store : CertificateStore)
    (sent : List (Certificate × Nat)) : Prop where
  once : (sent.map fun entry => entry.1.digest).Nodup
  fresh : ∀ entry ∈ sent, entry.1.digest ∉ recovered.map Certificate.digest
  stored : ∀ digest, store.contains digest = true ↔ digest ∈ recovered.map Certificate.digest ∨
      digest ∈ sent.map fun entry => entry.1.digest
  /-- A certificate whose parents are not garbage collected is sent after all of
  them. -/
  causal : ∀ before certificate gcRound after, sent = before ++ (certificate, gcRound) :: after →
      gcRound + 1 < certificate.round → ∀ parent ∈ certificate.parents,
        parent ∈ recovered.map Certificate.digest ∨ parent ∈ before.map fun entry => entry.1.digest

/-- What the consensus relies on, and the consistency of the two maps. -/
structure Safe
    (recovered : List Certificate)
    (synchronizer : Synchronizer) : Prop where
  delivered : Delivered recovered synchronizer.store synchronizer.sent
  waits_iff : ∀ round parent child, synchronizer.state.Waits round parent child ↔
      ∃ entry, synchronizer.state.suspended[child]? = some entry ∧
        entry.certificate.round = round + 1 ∧ parent ∈ entry.missingParents
  suspended : ∀ (digest : CertificateDigest) entry,
    synchronizer.state.suspended[digest]? = some entry →
      entry.missingParents ≠ ∅ ∧ synchronizer.store.contains digest = false

/-! ## The invariant of undisturbed runs -/

/-- What holds of a synchronizer in a run without races. -/
structure Coherent
    (history : CertificateSet)
    (recovered : List Certificate)
    (synchronizer : Synchronizer) : Prop where
  delivered : Delivered recovered synchronizer.store synchronizer.sent
  tracked : Tracked history synchronizer.store synchronizer.gcRound
    synchronizer.lock.gone synchronizer.state.Waits synchronizer.state.suspended
    synchronizer.lock.queue []
  awaited : synchronizer.state.Awaited
  pending : ∀ certificate earlySuspend, synchronizer.pending = some (certificate, earlySuspend) →
      certificate ∈ history
  collecting : ∀ round, synchronizer.collecting = some round → synchronizer.gcRound = round
  collector : ∀ round queue, synchronizer.lock = .collector round queue →
    synchronizer.gcRound = round

/-- The store after certificates were recovered. -/
theorem contains_foldl_write (recovered : List Certificate) (store : CertificateStore)
    (digest : CertificateDigest) :
    (recovered.foldl write store).contains digest = true ↔
      digest ∈ recovered.map Certificate.digest ∨ store.contains digest = true := by
  induction recovered generalizing store with
  | nil => simp
  | cons certificate recovered ih =>
    rw [foldl_cons, ih, map_cons, mem_cons, contains_write, Bool.or_eq_true, decide_eq_true_iff]
    tauto

namespace Delivered

theorem recovered (recovered : List Certificate) :
    Delivered recovered (recovered.foldl CertificateStore.write .empty) [] where
  once := nodup_nil
  fresh := by simp
  stored digest := by
    rw [contains_foldl_write]
    simp [CertificateStore.contains, CertificateStore.empty]
  causal := by simp

/-- A certificate is delivered that is not stored, but its parents are unless
they are garbage collected. -/
theorem deliver {recovered : List Certificate} {store : CertificateStore}
    {sent : List (Certificate × Nat)} (delivered : Delivered recovered store sent) {gcRound : Nat}
    (notStored : store.contains certificate.digest = false)
    (parentsStored : gcRound + 1 < certificate.round →
      ∀ parent ∈ certificate.parents, store.contains parent = true) :
    Delivered recovered (store.write certificate)
      (sent ++ [(certificate, gcRound)]) := by
  have notSent : ¬ (certificate.digest ∈ recovered.map Certificate.digest ∨
      certificate.digest ∈ sent.map fun entry => entry.1.digest) := by
    rw [← delivered.stored, notStored]
    exact Bool.false_ne_true
  refine ⟨?_, ?_, ?_, ?_⟩
  · simp only [map_append, map_cons, map_nil]
    refine nodup_append.mpr ⟨delivered.once, nodup_singleton _, ?_⟩
    intro digest isSent other isLast same
    rw [same, mem_singleton.mp isLast] at isSent
    exact notSent (.inr isSent)
  · exact Library.forall_mem_snoc.mpr
      ⟨delivered.fresh, fun isRecovered => notSent (.inl isRecovered)⟩
  · intro digest
    simp only [contains_write, Bool.or_eq_true,
      decide_eq_true_iff, delivered.stored, map_append, map_cons,
      map_nil, mem_append, mem_singleton]
    grind
  · intro before other gcRound after split above parent isParent
    rcases eq_nil_or_concat' after with rfl | ⟨front, last, rfl⟩
    · obtain ⟨rfl, same⟩ := append_inj' split rfl
      cases same
      exact (delivered.stored parent).mp (parentsStored above parent isParent)
    · rw [← cons_append, ← append_assoc] at split
      obtain ⟨earlier, _⟩ := append_inj' split rfl
      exact delivered.causal before other gcRound front earlier above parent isParent

end Delivered

namespace Coherent

variable {history : CertificateSet} {recovered : List Certificate}
  {synchronizer : Synchronizer}

/-- A new synchronizer is coherent. -/
theorem new (history : CertificateSet) (recovered : List Certificate) (gcRound : Nat) :
    (Synchronizer.new recovered gcRound).Coherent history recovered where
  delivered := .recovered recovered
  tracked := .empty history _ gcRound 0
  awaited := by simp [SynchronizerState.Awaited, Synchronizer.new, empty]
  pending := by simp [Synchronizer.new]
  collecting := by simp [Synchronizer.new]
  collector := by simp [Synchronizer.new]

theorem getMissingParents_eq (genesis : List CertificateDigest) (store : CertificateStore)
    {gcRound : Nat} (above : gcRound + 1 < certificate.round) :
    getMissingParents genesis store certificate =
      some (certificate.parents.filter fun parent => !store.contains parent) := by
  unfold getMissingParents
  rw [if_neg (by omega)]

variable (coherent : synchronizer.Coherent history recovered)

include coherent

theorem safe :
    synchronizer.Safe recovered where
  delivered := coherent.delivered
  waits_iff := coherent.tracked.waits_iff
  suspended digest entry found :=
    ⟨coherent.tracked.nonempty digest entry found,
      (coherent.tracked.unaccepted digest entry found).1⟩

/-- Accepting the next certificate of the queue. -/
theorem acceptCertificateInternal_spec {lock : Lock}
    (first : synchronizer.lock.queue = certificate :: lock.queue)
    (sameGone : synchronizer.lock.gone = lock.gone)
    (collector : ∀ round queue, lock = .collector round queue → synchronizer.gcRound = round) :
    ∃ next, synchronizer.acceptCertificateInternal certificate lock = .ok next ∧
      next.Coherent history recovered := by
  have tracked := coherent.tracked
  rw [first, sameGone] at tracked
  -- Nothing comes earlier in the queue, so the parents are stored.
  have parentsStored : synchronizer.gcRound + 1 < certificate.round →
      ∀ parent ∈ certificate.parents, synchronizer.store.contains parent = true := by
    intro above parent isParent
    rcases tracked.causal [] certificate _ rfl above parent isParent with stored | earlier
    · exact stored
    · cases earlier
  have notStored := (tracked.queued certificate mem_cons_self).2
  have allPresent : (if synchronizer.gcRound + 1 < certificate.round then
      certificate.parents.find? fun parent => !synchronizer.store.contains parent
    else none) = none := by
    split
    · next above =>
      rw [find?_eq_none]
      intro parent isParent
      simp [parentsStored above parent isParent]
    · rfl
  unfold acceptCertificateInternal
  rw [allPresent]
  exact ⟨_, rfl, coherent.delivered.deliver notStored parentsStored,
    tracked.write, coherent.awaited, coherent.pending, coherent.collecting, collector⟩

/-- No certificate without missing parents is suspended when the acceptor takes
the lock. -/
theorem unsuspended (free : synchronizer.lock = .free) (member : certificate ∈ history)
    (complete : certificate.parents.filter
      (fun parent => !synchronizer.store.contains parent) = []) :
    synchronizer.state.suspended[certificate.digest]? = none := by
  have tracked := coherent.tracked
  rw [free] at tracked
  cases found : synchronizer.state.suspended[certificate.digest]? with
  | none => rfl
  | some entry =>
    have missing := missingParents_eq tracked member found
    rw [complete] at missing
    exact absurd missing (tracked.nonempty _ entry found)

/-- The acceptor queues a certificate with the ones that wait for it alone. -/
theorem queueWithChildren_spec (order : HashOrder) (free : synchronizer.lock = .free)
    (member : certificate ∈ history)
    (notStored : synchronizer.store.contains certificate.digest = false)
    (unsuspended : synchronizer.state.suspended[certificate.digest]? = none)
    (complete : synchronizer.gcRound + 1 < certificate.round → ∀ parent ∈ certificate.parents,
        synchronizer.store.contains parent = true) :
    ∃ next, synchronizer.queueWithChildren order certificate = .ok next ∧
      next.Coherent history recovered := by
  have tracked := coherent.tracked
  rw [free] at tracked
  obtain ⟨state, children, accepted, fewer, tracked⟩ :=
    acceptChildren_spec order (Nat.zero_le _)
      (tracked.enqueue member notStored unsuspended complete) (.inl (by simp))
  unfold queueWithChildren
  rw [accepted]
  refine ⟨_, rfl, coherent.delivered, tracked, ?_, by simp, coherent.collecting, by simp⟩
  intro key children found
  exact coherent.awaited key children (fewer key children found)

/-- The acceptor takes the lock, and garbage collection did not interfere. -/
theorem processCertificateWithLock_spec (order : HashOrder) (genesis : List CertificateDigest)
    (free : synchronizer.lock = .free) {certificate : Certificate}
    (isPending : synchronizer.pending = some (certificate, earlySuspend))
    (undisturbed : synchronizer.Undisturbed certificate earlySuspend) :
    ∃ next, synchronizer.processCertificateWithLock order genesis certificate
        earlySuspend = .ok next ∧
      next.Coherent history recovered := by
  have tracked := coherent.tracked
  rw [free] at tracked
  have member := coherent.pending _ _ isPending
  obtain ⟨notStored, notFetched⟩ := undisturbed
  have dropped : ({ synchronizer with pending := none } :
      Synchronizer).Coherent history recovered :=
    { coherent with pending := by simp }
  unfold processCertificateWithLock
  split
  · exact ⟨_, rfl, dropped⟩
  next notEarly =>
  have notReceived : earlySuspend = true →
      synchronizer.state.suspended[certificate.digest]? = none := by
    rintro rfl
    simpa using notEarly
  by_cases above : synchronizer.gcRound + 1 < certificate.round
  · rw [if_pos above, getMissingParents_eq genesis synchronizer.store above]
    dsimp only
    split
    · next impossible => cases impossible
    · next parent parents missing =>
      have missing := (Option.some.inj missing).symm
      have allowed : (!earlySuspend) = false →
          synchronizer.state.suspended[certificate.digest]? = none := by
        simpa using notReceived
      obtain ⟨state, inserted, awaited, tracked⟩ :=
        insert_spec tracked coherent.awaited member above
          notStored missing (cons_ne_nil _ _) allowed
      rw [inserted]
      refine ⟨_, rfl, coherent.delivered, ?_, awaited, by simp,
        coherent.collecting, coherent.collector⟩
      rwa [free]
    · next complete =>
      have complete := Option.some.inj complete
      exact coherent.queueWithChildren_spec order free member notStored
        (coherent.unsuspended free member complete) (fun _ => by simpa using complete)
  · rw [if_neg above]
    have unsuspended : synchronizer.state.suspended[certificate.digest]? = none := by
      cases earlySuspend with
      | true => exact notReceived rfl
      | false => exact notFetched rfl (by omega)
    exact coherent.queueWithChildren_spec order free member notStored unsuspended
      (fun isAbove => absurd isAbove above)

/-- Collecting garbage never fails. -/
theorem collectGarbage_spec (order : HashOrder) {gcRound : Nat}
    (held : synchronizer.lock = .collector gcRound []) :
    ∃ next, synchronizer.collectGarbage order gcRound = .ok next ∧
      next.Coherent history recovered := by
  have published := coherent.collector gcRound [] held
  have tracked := coherent.tracked
  rw [held] at tracked
  unfold collectGarbage
  rcases runGcOnce_spec tracked coherent.awaited gcRound
    with ⟨finished, higher⟩ | ⟨round, digest, found, below, unsuspended⟩
  · rw [finished]
    exact ⟨_, rfl, coherent.delivered, tracked.tighten higher 0,
      coherent.awaited, coherent.pending, coherent.collecting, by simp⟩
  · rw [found]
    dsimp only
    rw [if_neg (by omega)]
    have bounded : Lock.gone (.collector gcRound []) ≤ synchronizer.gcRound + 1 := by
      rw [published]
      exact le_rfl
    have excused : round + 1 ≤ Lock.gone (.collector gcRound []) := Nat.succ_le_succ below
    obtain ⟨state, children, accepted, fewer, tracked⟩ :=
      acceptChildren_spec order bounded
        (tracked.visit round unsuspended) (.inr excused)
    rw [accepted]
    refine ⟨_, rfl, coherent.delivered, tracked, ?_, coherent.pending, coherent.collecting, ?_⟩
    · intro key children found
      exact coherent.awaited key children (fewer key children found)
    · rintro _ _ ⟨⟩
      exact published

/-- Every undisturbed action returns and keeps the state coherent. -/
theorem perform_spec (allowed : synchronizer.Allowed history Undisturbed action)
    (performed : synchronizer.perform order genesis action = some outcome) :
    ∃ next, outcome = .ok next ∧ next.Coherent history recovered := by
  have tracked := coherent.tracked
  revert performed
  cases action with
  | check certificate earlySuspend =>
    dsimp only [perform]
    split
    · split
      · rintro ⟨⟩
        exact ⟨_, rfl, coherent⟩
      · rintro ⟨⟩
        refine ⟨_, rfl, { coherent with pending := ?_ }⟩
        rintro _ _ ⟨⟩
        exact allowed
    · rintro ⟨⟩
  | process =>
    dsimp only [perform]
    split
    · next certificate earlySuspend isPending free =>
      rintro ⟨⟩
      exact coherent.processCertificateWithLock_spec order genesis free
        isPending (allowed _ _ isPending)
    · rintro ⟨⟩
  | accept =>
    dsimp only [perform]
    split
    · next held =>
      rintro ⟨⟩
      exact coherent.acceptCertificateInternal_spec (by rw [held]; rfl)
        (by rw [held]; rfl) (by simp)
    · next held =>
      rintro ⟨⟩
      refine coherent.acceptCertificateInternal_spec (by rw [held]; rfl)
        (by rw [held]; rfl) ?_
      rintro _ _ ⟨⟩
      exact coherent.collector _ _ held
    · rintro ⟨⟩
  | release =>
    dsimp only [perform]
    split
    · next held =>
      rintro ⟨⟩
      rw [held] at tracked
      exact ⟨_, rfl, { coherent with
        tracked := tracked
        collector := by simp }⟩
    · rintro ⟨⟩
  | publish round =>
    dsimp only [perform]
    split
    · next idle =>
      rintro ⟨⟩
      refine ⟨_, rfl, { coherent with
        tracked := tracked.raise idle.1
        collecting := by simp
        collector := ?_ }⟩
      intro gcRound queue held
      have notHeld := idle.2.2
      rw [held] at notHeld
      cases notHeld
    · rintro ⟨⟩
  | acquire =>
    dsimp only [perform]
    split
    · next round waiting free =>
      rintro ⟨⟩
      rw [free] at tracked
      refine ⟨_, rfl, { coherent with
        tracked := tracked.loosen (Nat.zero_le (round + 1))
        collecting := by simp
        collector := ?_ }⟩
      rintro _ _ ⟨⟩
      exact coherent.collecting round waiting
    · rintro ⟨⟩
  | collect =>
    dsimp only [perform]
    split
    · next held =>
      rintro ⟨⟩
      exact coherent.collectGarbage_spec order held
    · rintro ⟨⟩

end Coherent

/-- Every reachable synchronizer is coherent if garbage collection never
interferes. -/
theorem Reachable.coherent {gcRound : Nat}
    (reachable : Reachable order genesis history Undisturbed recovered gcRound synchronizer) :
    synchronizer.Coherent history recovered := by
  refine Library.Run.invariant reachable _ (.new history recovered gcRound) ?_
  intro before action after coherent allowed isNext
  obtain ⟨_, ⟨⟩, coherent⟩ := coherent.perform_spec allowed (perform_of_next isNext)
  exact coherent

/-! ## Runs of the committee of one -/

/-- Iteration in the order of the digests. -/
def ascending : HashOrder where
  list set := set.sort (· ≤ ·)
  nodup set := Finset.sort_nodup set _
  mem_iff _ _ := Finset.mem_sort (· ≤ ·)

instance : DecidablePred (· ∈ soloHistory) := fun certificate =>
  decidable_of_iff
    (0 < certificate.round ∧ certificate = soloCertificate certificate.round) (by
      constructor
      · rintro ⟨positive, same⟩
        refine ⟨certificate.round - 1, ?_⟩
        rwa [Nat.sub_add_cancel positive]
      · rintro ⟨round, rfl⟩
        exact ⟨Nat.succ_pos round, rfl⟩)

instance (synchronizer : Synchronizer) (certificate : Certificate) (earlySuspend : Bool) :
    Decidable (synchronizer.Undisturbed certificate earlySuspend) :=
  inferInstanceAs (Decidable (_ ∧ _))

instance (synchronizer : Synchronizer) (certificate : Certificate) (earlySuspend : Bool) :
    Decidable (synchronizer.Unrestricted certificate earlySuspend) :=
  .isTrue trivial

instance (admits : Synchronizer → Certificate → Bool → Prop)
    [∀ synchronizer certificate earlySuspend,
      Decidable (admits synchronizer certificate earlySuspend)]
    (synchronizer : Synchronizer) (action : Action) :
    Decidable (synchronizer.Allowed soloHistory admits action) :=
  match action with
  | .check certificate _ => inferInstanceAs (Decidable (certificate ∈ soloHistory))
  | .process =>
    match isPending : synchronizer.pending with
    | none => .isTrue (by simp [Allowed, isPending])
    | some (certificate, earlySuspend) =>
      decidable_of_iff (admits synchronizer certificate earlySuspend)
        (by simp [Allowed, isPending])
  | .accept | .release | .publish _ | .acquire | .collect => .isTrue trivial

/-- The panic of an action. -/
def panicOf : Option (Except SynchronizerPanic Synchronizer) → Option SynchronizerPanic
  | some (.error panic) => some panic
  | _ => none

theorem eq_error_of_panicOf {panic : SynchronizerPanic} (panicked : panicOf outcome = some panic) :
    outcome = some (.error panic) := by
  unfold panicOf at panicked
  split at panicked
  · cases panicked
    rfl
  · cases panicked

/-! ## Safety without races -/

/-- In every run in which garbage collection does not interfere, certificates are
delivered once and in causal order, the two maps are consistent, and no step
panics. -/
theorem safe_of_undisturbed (order : HashOrder) (genesis : List CertificateDigest)
    (history : CertificateSet) (recovered : List Certificate) (gcRound : Nat)
    (synchronizer : Synchronizer)
    (reachable : Reachable order genesis history Undisturbed recovered gcRound synchronizer) :
    synchronizer.Safe recovered ∧
      ∀ outcome, Step order genesis history Undisturbed synchronizer outcome →
        ∃ next, outcome = .ok next := by
  have coherent := reachable.coherent
  refine ⟨coherent.safe, ?_⟩
  rintro outcome ⟨action, allowed, performed⟩
  obtain ⟨next, same, _⟩ := coherent.perform_spec allowed performed
  exact ⟨next, same⟩

/-- The certificate of the third round waits for the one of the second round and
is sent after it. -/
theorem safe_of_undisturbed_solo :
    ∃ synchronizer, Reachable ascending [0] soloHistory Undisturbed [soloCertificate 1] 0
        synchronizer ∧
      (synchronizer.sent.map fun entry => entry.1.digest) = [2, 3] ∧
      synchronizer.Safe [soloCertificate 1] ∧
        ∀ outcome, Step ascending [0] soloHistory Undisturbed synchronizer outcome →
          ∃ next, outcome = .ok next := by
  obtain ⟨synchronizer, reachable, sent⟩ := Library.exists_run
    (next ascending [0]) (Allowed soloHistory Undisturbed) (new [soloCertificate 1] 0)
    [.check (soloCertificate 3) true, .process, .check (soloCertificate 2) false,
      .process, .accept, .publish 1, .accept, .release, .acquire, .collect] (fun synchronizer =>
      (synchronizer.sent.map fun entry => entry.1.digest) = [2, 3])
    (by decide +kernel)
  exact ⟨synchronizer, reachable, sent, safe_of_undisturbed ascending [0] soloHistory
    [soloCertificate 1] 0 synchronizer reachable⟩

/-- Two races.  In the first one the certificate of the third round is suspended,
garbage collection publishes the second round, and the acceptor panics when the
certificate is fetched again.  In the second one garbage collection accepts the
certificate while the acceptor waits for the lock with it, so it is sent twice. -/
theorem races_break_safety :
    (∃ synchronizer, Reachable ascending [0] soloHistory Unrestricted [] 0 synchronizer ∧
      Step ascending [0] soloHistory Unrestricted synchronizer
        (.error (.stillSuspended (soloCertificate 3)))) ∧
    ∃ synchronizer, Reachable ascending [0] soloHistory Unrestricted [] 0
        synchronizer ∧
      synchronizer.sent = [(soloCertificate 3, 2), (soloCertificate 3, 2)] := by
  constructor
  · obtain ⟨synchronizer, reachable, panics⟩ := Library.exists_run
      (next ascending [0]) (Allowed soloHistory Unrestricted) (new [] 0)
      [.check (soloCertificate 3) true, .process, .publish 2, .check (soloCertificate 3) false]
      (fun synchronizer =>
        panicOf (synchronizer.perform ascending [0] .process) =
          some (.stillSuspended (soloCertificate 3)))
      (by decide +kernel)
    exact ⟨synchronizer, reachable, .process, fun _ _ _ => trivial, eq_error_of_panicOf panics⟩
  · exact Library.exists_run (next ascending [0]) (Allowed soloHistory Unrestricted) (new [] 0)
      [.check (soloCertificate 3) true, .process, .check (soloCertificate 3) false,
        .publish 2, .acquire, .collect, .accept, .collect, .process, .accept]
      (fun synchronizer => synchronizer.sent =
        [(soloCertificate 3, 2), (soloCertificate 3, 2)]) (by decide +kernel)

end Synchronizer

end Sui.Narwhal
