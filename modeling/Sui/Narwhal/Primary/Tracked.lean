import Sui.Narwhal.Storage.CachedStore
import Sui.Narwhal.Consensus.View

/-!
# Suspended certificates

A certificate with missing parents is suspended.  Two maps keep track of it: one
from the certificate to its missing parents, and one from each missing parent to
the certificates that wait for it.  When a certificate is accepted, the
certificates that waited for it alone are accepted after it, and so on in breadth
first order.  Garbage collection treats the lowest missing certificates as if
they were accepted.
-/

namespace Sui.Narwhal

open Std (ExtTreeMap)

/-- The order in which a hash set is iterated. -/
structure HashOrder where
  list : Finset CertificateDigest → List CertificateDigest
  nodup : ∀ set, (list set).Nodup
  mem_iff : ∀ set digest, digest ∈ list set ↔ digest ∈ set

/-- A failed assertion or `expect` of the synchronizer. -/
inductive SynchronizerPanic
  | inconsistentMissingParents (certificate : Certificate)
  | alreadySuspended (certificate : Certificate)
  | alreadyMissing (parent child : CertificateDigest)
  | stillSuspended (certificate : Certificate)
  | inconsistencyFound (child : CertificateDigest)
  | parentNotFound (parent : CertificateDigest) (certificate : Certificate)
  | collectedAboveGcRound (round : Nat)
  /-- The bound of a loop was too small; no run meets this. -/
  | outOfFuel
  deriving DecidableEq

structure SuspendedCertificate where
  certificate : Certificate
  missingParents : Finset CertificateDigest

/-- The suspended certificates and what they wait for. -/
structure SynchronizerState where
  suspended : ExtTreeMap CertificateDigest SuspendedCertificate
  /-- The certificates that wait for a missing one, which is given by its round
  and digest. -/
  missing : ExtTreeMap (Nat × CertificateDigest) (Finset CertificateDigest)

namespace SynchronizerState

/-- Nothing is suspended. -/
def empty : SynchronizerState :=
  ⟨∅, ∅⟩

/-- Let a certificate wait for its missing parents. -/
def insertMissing (child : CertificateDigest) (missingRound : Nat) :
    List CertificateDigest → SynchronizerState → Except SynchronizerPanic SynchronizerState
  | [], state => .ok state
  | parent :: parents, state =>
    let children := state.missing.getD (missingRound, parent) ∅
    if child ∈ children then
      .error (.alreadyMissing parent child)
    else
      insertMissing child missingRound parents
        { state with
          missing := state.missing.insert (missingRound, parent)
            (Insert.insert child children) }

/-- Suspend a certificate.  A certificate that is already suspended may be
suspended again if the caller allows it and its missing parents are the same. -/
def insert (state : SynchronizerState) (certificate : Certificate)
    (missingParents : List CertificateDigest)
    (allowReinsert : Bool) : Except SynchronizerPanic SynchronizerState :=
  match state.suspended[certificate.digest]? with
  | some suspended =>
    if allowReinsert then
      if suspended.missingParents ≠ missingParents.toFinset then
        .error (.inconsistentMissingParents certificate)
      else
        .ok state
    else
      .error (.alreadySuspended certificate)
  | none =>
    insertMissing certificate.digest (certificate.round - 1) missingParents
      { state with
        suspended := state.suspended.insert certificate.digest
          ⟨certificate, missingParents.toFinset⟩ }

/-- Tell waiting certificates that a parent is accepted.  Those that wait for
nothing else are no longer suspended. -/
def acceptEach (parent : CertificateDigest) :
    List CertificateDigest → SynchronizerState →
      Except SynchronizerPanic (SynchronizerState × List Certificate)
  | [], state => .ok (state, [])
  | child :: children, state =>
    match state.suspended[child]? with
    | none => .error (.inconsistencyFound child)
    | some suspended =>
      let missingParents := suspended.missingParents.erase parent
      if missingParents = ∅ then
        match acceptEach parent children
            { state with suspended := state.suspended.erase child } with
        | .error panic => .error panic
        | .ok (state, accepted) =>
          .ok (state, suspended.certificate :: accepted)
      else
        acceptEach parent children
          { state with
            suspended := state.suspended.insert child
              ⟨suspended.certificate, missingParents⟩ }

/-- The breadth first traversal from accepted certificates. -/
def traverse (order : HashOrder) :
    Nat → List (Nat × CertificateDigest) → SynchronizerState →
      Except SynchronizerPanic (SynchronizerState × List Certificate)
  | _, [], state => .ok (state, [])
  | 0, _ :: _, _ => .error .outOfFuel
  | fuel + 1, (round, digest) :: toTraverse, state =>
    match state.missing[(round, digest)]? with
    | none => traverse order fuel toTraverse state
    | some children =>
      match acceptEach digest (order.list children)
          { state with missing := state.missing.erase (round, digest) } with
      | .error panic => .error panic
      | .ok (state, accepted) =>
        match traverse order fuel (toTraverse ++ accepted.map
            fun certificate => (certificate.round, certificate.digest))
            state with
        | .error panic => .error panic
        | .ok (state, later) => .ok (state, accepted ++ later)

/-- The suspended certificates that can be accepted after a certificate.  The
traversal visits the certificate and at most the suspended ones. -/
def acceptChildren (order : HashOrder) (state : SynchronizerState) (round : Nat)
    (digest : CertificateDigest) :
    Except SynchronizerPanic (SynchronizerState × List Certificate) :=
  match state.suspended[digest]? with
  | some suspended => .error (.stillSuspended suspended.certificate)
  | none =>
    traverse order (state.suspended.size + 1) [(round, digest)] state

/-- The lowest missing certificate, if it is garbage collected.  It is returned
with the certificate itself in case it is suspended. -/
def runGcOnce (state : SynchronizerState) (gcRound : Nat) :
    Option ((Nat × CertificateDigest) × Option Certificate × SynchronizerState) :=
  match state.missing.toList.head? with
  | none => none
  | some ((round, digest), _) =>
    if gcRound < round then
      none
    else
      some ((round, digest), state.suspended[digest]?.map SuspendedCertificate.certificate,
        { state with suspended := state.suspended.erase digest })

end SynchronizerState

/-! ## Tracking suspended certificates

The two maps of the synchronizer are inverse to each other, and the certificates
that it accepts come in causal order.  Both are stated for a queue of certificates
that are about to be written to the store, because the maps change before the
store does. -/

open Library Map
open List hiding after
open SynchronizerState (mk)

namespace SynchronizerState

/-- A certificate waits for a missing one. -/
def Waits (state : SynchronizerState) (round : Nat) (parent child : CertificateDigest) : Prop :=
  ∃ children, state.missing[(round, parent)]? = some children ∧ child ∈ children

end SynchronizerState

/-! ## The invariant of the two maps -/

/-- The suspended certificates are tracked, with respect to the store and to the
queue of certificates that are about to be written to it.

The relation `waits` is the second map.  The list `visiting` holds the queued
certificates of which the waiting ones have not been told yet, and certificates
up to the round `gone` may miss parents that nobody waits for. -/
structure Tracked
    (history : CertificateSet)
    (store : CertificateStore)
    (gcRound gone : Nat)
    (waits : Nat → CertificateDigest → CertificateDigest → Prop)
    (suspended : ExtTreeMap CertificateDigest SuspendedCertificate)
    (queue : List Certificate)
    (visiting : List (Nat × CertificateDigest)) : Prop where
  member : ∀ (digest : CertificateDigest) entry, suspended[digest]? = some entry →
      entry.certificate ∈ history ∧ entry.certificate.digest = digest ∧ 2 ≤ entry.certificate.round
  unaccepted : ∀ (digest : CertificateDigest) entry, suspended[digest]? = some entry →
      store.contains digest = false ∧ digest ∉ queue.map Certificate.digest
  nonempty : ∀ (digest : CertificateDigest) entry,
    suspended[digest]? = some entry → entry.missingParents ≠ ∅
  parents : ∀ (digest : CertificateDigest) entry, suspended[digest]? = some entry →
      ∀ parent ∈ entry.missingParents, parent ∈ entry.certificate.parents
  /-- The second map is the inverse of the first. -/
  waits_iff : ∀ round parent child, waits round parent child ↔
    ∃ entry, suspended[child]? = some entry ∧
      entry.certificate.round = round + 1 ∧ parent ∈ entry.missingParents
  /-- Every parent is missing, stored, queued or garbage collected. -/
  accounted : ∀ (digest : CertificateDigest) entry, suspended[digest]? = some entry →
      ∀ parent ∈ entry.certificate.parents,
        parent ∈ entry.missingParents ∨ store.contains parent = true ∨
          parent ∈ queue.map Certificate.digest ∨
          entry.certificate.round ≤ gone
  /-- A missing parent is not stored, and queued only until it is visited. -/
  absent : ∀ (digest : CertificateDigest) entry,
    suspended[digest]? = some entry → ∀ parent ∈ entry.missingParents,
      store.contains parent = false ∧ (parent ∈ queue.map Certificate.digest →
          parent ∈ visiting.map Prod.snd)
  queued : ∀ certificate ∈ queue, certificate ∈ history ∧ store.contains certificate.digest = false
  distinct : (queue.map Certificate.digest).Nodup
  /-- Above garbage collection, parents are stored or earlier in the queue. -/
  causal : ∀ before certificate after, queue = before ++ certificate :: after →
    gcRound + 1 < certificate.round → ∀ parent ∈ certificate.parents,
      store.contains parent = true ∨ parent ∈ before.map Certificate.digest
  visits : ∀ visit ∈ visiting, ∀ certificate ∈ queue,
    certificate.digest = visit.2 → certificate.round = visit.1
  unsuspended : ∀ visit ∈ visiting, suspended[visit.2]? = none

namespace Tracked

variable {history : CertificateSet} {store : CertificateStore}
  {gcRound gone : Nat}
  {waits : Nat → CertificateDigest → CertificateDigest → Prop}
  {suspended : ExtTreeMap CertificateDigest SuspendedCertificate}
  {queue : List Certificate} {visiting : List (Nat × CertificateDigest)}

theorem empty (history : CertificateSet) (store : CertificateStore) (gcRound gone : Nat) :
    Tracked history store gcRound gone SynchronizerState.empty.Waits ∅ [] [] := by
  constructor <;> simp [SynchronizerState.empty, SynchronizerState.Waits]

section

variable (tracked : Tracked history store gcRound gone waits suspended queue visiting)

include tracked

theorem congr_waits
    (same : ∀ round parent child, waits' round parent child ↔ waits round parent child) :
    Tracked history store gcRound gone waits' suspended queue visiting :=
  { tracked with
    waits_iff := fun round parent child =>
      (same round parent child).trans (tracked.waits_iff round parent child) }

/-- A missing parent is one round below. -/
theorem round_of_missing {digest : CertificateDigest} (found : suspended[digest]? = some entry)
    (member : parent ∈ history) (missing : parent.digest ∈ entry.missingParents) :
    parent.round + 1 = entry.certificate.round := by
  obtain ⟨isMember, _, above⟩ := tracked.member digest entry found
  obtain ⟨other, otherMember, sameDigest, below⟩ := history.parentsPresent
    entry.certificate isMember above parent.digest (tracked.parents digest entry found _ missing)
  rw [history.collisionFree parent member other otherMember sameDigest.symm]
  exact below

end

/-- A visited certificate for which nobody waits is done. -/
theorem visited {round : Nat} (tracked : Tracked history store gcRound gone waits suspended queue
      ((round, digest) :: visiting))
    (nobody : ∀ child, ¬ waits round digest child) :
    Tracked history store gcRound gone waits suspended queue visiting := by
  refine { tracked with absent := ?_, visits := ?_, unsuspended := ?_ }
  · intro child entry found parent missing
    obtain ⟨notStored, visit⟩ := tracked.absent child entry found parent missing
    refine ⟨notStored, fun isQueued => ?_⟩
    rcases mem_cons.mp (visit isQueued) with rfl | later
    · obtain ⟨certificate, listed, rfl⟩ := mem_map.mp isQueued
      have sameRound := tracked.visits (round, certificate.digest)
        mem_cons_self certificate listed rfl
      have below := tracked.round_of_missing found (tracked.queued certificate listed).1 missing
      exact absurd ((tracked.waits_iff round _ child).mpr
        ⟨entry, found, by rw [← below, sameRound], missing⟩) (nobody child)
    · exact later
  · exact (forall_mem_cons.mp tracked.visits).2
  · exact (forall_mem_cons.mp tracked.unsuspended).2

section

variable (tracked : Tracked history store gcRound gone waits suspended queue visiting)

include tracked

/-- Garbage collection advances. -/
theorem raise (higher : gcRound ≤ gcRound') :
    Tracked history store gcRound' gone waits suspended queue visiting :=
  { tracked with
    causal := fun before certificate after split above =>
      tracked.causal before certificate after split (by omega) }

/-- More certificates may miss parents that nobody waits for. -/
theorem loosen (higher : gone ≤ gone') :
    Tracked history store gcRound gone' waits suspended queue visiting := by
  refine { tracked with accounted := ?_ }
  intro digest entry found parent isParent
  have accounted := tracked.accounted digest entry found parent isParent
  exact accounted.imp_right (·.imp_right (·.imp_right (·.trans higher)))

/-- No certificate may miss a parent that nobody waits for, once the lower ones
are accepted. -/
theorem tighten (higher : ∀ (digest : CertificateDigest) entry,
      suspended[digest]? = some entry → gone < entry.certificate.round)
    (gone' : Nat) :
    Tracked history store gcRound gone' waits suspended queue visiting := by
  refine { tracked with accounted := ?_ }
  intro digest entry found parent isParent
  have isHigher := higher digest entry found
  have accounted := tracked.accounted digest entry found parent isParent
  exact accounted.imp_right (·.imp_right (·.imp_right fun isGone => by omega))

end

section

variable (tracked : Tracked history store gcRound gone waits suspended [] [])

include tracked

/-- A certificate that is not suspended is queued, to be visited. -/
theorem enqueue
    (member : certificate ∈ history) (notStored : store.contains certificate.digest = false)
    (unsuspended : suspended[certificate.digest]? = none)
    (complete : gcRound + 1 < certificate.round →
      ∀ parent ∈ certificate.parents, store.contains parent = true) :
    Tracked history store gcRound gone waits suspended [certificate]
      [(certificate.round, certificate.digest)] := by
  refine ⟨tracked.member, ?_, tracked.nonempty, tracked.parents,
    tracked.waits_iff, ?_, ?_, ?_, by simp, ?_, ?_, ?_⟩
  · intro digest entry found
    refine ⟨(tracked.unaccepted digest entry found).1, ?_⟩
    intro isQueued
    obtain rfl : digest = certificate.digest := by simpa using isQueued
    rw [unsuspended] at found
    cases found
  · intro digest entry found parent isParent
    have accounted := tracked.accounted digest entry found parent isParent
    exact accounted.imp_right (·.imp_right (·.imp_left (absurd · not_mem_nil)))
  · intro digest entry found parent missing
    exact ⟨(tracked.absent digest entry found parent missing).1, by simp⟩
  · exact forall_mem_singleton.mpr ⟨member, notStored⟩
  · intro before other after split above parent isParent
    rcases append_eq_singleton_iff.mp split.symm with ⟨rfl, ⟨⟩⟩ | ⟨_, ⟨⟩⟩
    exact .inl (complete above parent isParent)
  · exact forall_mem_singleton.mpr (forall_mem_singleton.mpr fun _ => rfl)
  · exact forall_mem_singleton.mpr unsuspended

/-- A garbage collected certificate that is not suspended is visited. -/
theorem visit (round : Nat)
    (unsuspended : suspended[digest]? = none) :
    Tracked history store gcRound gone waits suspended [] [(round, digest)] := by
  refine { tracked with absent := ?_, visits := by simp, unsuspended := ?_ }
  · intro child entry found parent missing
    exact ⟨(tracked.absent child entry found parent missing).1, by simp⟩
  · exact forall_mem_singleton.mpr unsuspended

end

/-- The first certificate of the queue is written to the store. -/
theorem write
    (tracked : Tracked history store gcRound gone waits suspended (certificate :: queue) []) :
    Tracked history (store.write certificate) gcRound gone waits suspended
      queue [] := by
  obtain ⟨notLater, distinct⟩ := nodup_cons.mp tracked.distinct
  refine ⟨tracked.member, ?_, tracked.nonempty, tracked.parents,
    tracked.waits_iff, ?_, ?_, ?_, distinct, ?_, by simp, by simp⟩
  · intro digest entry found
    obtain ⟨notStored, notQueued⟩ := tracked.unaccepted digest entry found
    rw [map_cons, mem_cons, not_or] at notQueued
    refine ⟨?_, notQueued.2⟩
    simp [notStored, Ne.symm notQueued.1]
  · intro digest entry found parent isParent
    rcases tracked.accounted digest entry found parent isParent
      with missing | stored | isQueued | isGone
    · exact .inl missing
    · exact .inr (.inl (by simp [stored]))
    · rcases mem_cons.mp isQueued with rfl | later
      · exact .inr (.inl (by simp))
      · exact .inr (.inr (.inl later))
    · exact .inr (.inr (.inr isGone))
  · intro digest entry found parent missing
    obtain ⟨notStored, visit⟩ := tracked.absent digest entry found parent missing
    have notQueued : parent ∉ (certificate :: queue).map Certificate.digest :=
      fun isQueued => not_mem_nil (visit isQueued)
    rw [map_cons, mem_cons, not_or] at notQueued
    refine ⟨by simp [notStored, Ne.symm notQueued.1], ?_⟩
    exact fun isQueued => absurd isQueued notQueued.2
  · intro other later
    obtain ⟨member, notStored⟩ := tracked.queued other (mem_cons_of_mem _ later)
    refine ⟨member, ?_⟩
    have different : certificate.digest ≠ other.digest := by
      intro same
      exact notLater (same ▸ mem_map_of_mem later)
    simp [notStored, different]
  · intro before other after split above parent isParent
    rcases tracked.causal (certificate :: before) other after
      (by rw [split]; rfl) above parent isParent with stored | earlier
    · exact .inl (by simp [stored])
    · rcases mem_cons.mp earlier with rfl | later
      · exact .inl (by simp)
      · exact .inr later

section

variable (tracked : Tracked history store gcRound gone waits suspended queue visiting)

include tracked

/-- A certificate is told that a parent is accepted or garbage collected, and
still misses another one. -/
theorem tell (found : suspended[child]? = some entry)
    (excused : store.contains parent = true ∨
      parent ∈ queue.map Certificate.digest ∨ entry.certificate.round ≤ gone)
    (misses : entry.missingParents.erase parent ≠ ∅) :
    Tracked history store gcRound gone
      (fun round parent' child' => waits round parent' child' ∧
        ¬ (parent' = parent ∧ child' = child))
      (suspended.insert child ⟨entry.certificate, entry.missingParents.erase parent⟩)
      queue visiting := by
  -- Every entry of the new map is an old one, with no more missing parents.
  have old : ∀ (digest : CertificateDigest) entry', (suspended.insert child ⟨entry.certificate,
        entry.missingParents.erase parent⟩)[digest]? = some entry' →
      ∃ before, suspended[digest]? = some before ∧ before.certificate = entry'.certificate ∧
        entry'.missingParents ⊆ before.missingParents := by
    refine forall_insert ⟨entry, found, rfl, Finset.erase_subset _ _⟩ ?_
    exact fun digest entry' before => ⟨entry', before, rfl, Finset.Subset.refl _⟩
  refine ⟨?_, ?_, ?_, ?_, ?_, ?_, ?_, tracked.queued, tracked.distinct,
    tracked.causal, tracked.visits, ?_⟩
  · intro digest entry' present
    obtain ⟨before, wasFound, same, _⟩ := old digest entry' present
    rw [← same]
    exact tracked.member digest before wasFound
  · intro digest entry' present
    obtain ⟨before, wasFound, _⟩ := old digest entry' present
    exact tracked.unaccepted digest before wasFound
  · exact forall_insert misses tracked.nonempty
  · intro digest entry' present missing isMissing
    obtain ⟨before, wasFound, same, subset⟩ := old digest entry' present
    rw [← same]
    exact tracked.parents digest before wasFound missing (subset isMissing)
  · intro round parent' child'
    rw [Map.getElem?_insert, tracked.waits_iff]
    by_cases same : child = child'
    · subst same
      simp only [found, if_true, Option.some.injEq, exists_eq_left', Finset.mem_erase, and_true]
      tauto
    · simp only [same, Ne.symm same, if_false, and_false, not_false_eq_true, and_true]
  · refine forall_insert (fun missing isParent => ?_) tracked.accounted
    by_cases told : missing = parent
    · subst told
      exact .inr excused
    · exact (tracked.accounted child entry found missing isParent).imp_left
        fun isMissing => Finset.mem_erase.mpr ⟨told, isMissing⟩
  · intro digest entry' present missing isMissing
    obtain ⟨before, wasFound, _, subset⟩ := old digest entry' present
    exact tracked.absent digest before wasFound missing (subset isMissing)
  · intro visit listed
    have unsuspended := tracked.unsuspended visit listed
    rw [Map.getElem?_insert, if_neg, unsuspended]
    rintro rfl
    rw [found] at unsuspended
    cases unsuspended

/-- A certificate is told that its last missing parent is accepted or garbage
collected, and joins the queue. -/
theorem release (bounded : gone ≤ gcRound + 1) (found : suspended[child]? = some entry)
    (excused : store.contains parent = true ∨
      parent ∈ queue.map Certificate.digest ∨ entry.certificate.round ≤ gone)
    (complete : entry.missingParents.erase parent = ∅) :
    Tracked history store gcRound gone
      (fun round parent' child' => waits round parent' child' ∧
        ¬ (parent' = parent ∧ child' = child))
      (suspended.erase child)
      (queue ++ [entry.certificate])
      (visiting ++ [(entry.certificate.round, entry.certificate.digest)]) := by
  obtain ⟨member, sameDigest, _⟩ := tracked.member child entry found
  obtain ⟨notStored, notQueued⟩ := tracked.unaccepted child entry found
  have told : ∀ missing ∈ entry.missingParents, missing = parent := by
    intro missing isMissing
    by_contra notTold
    have stillMissing := Finset.mem_erase.mpr ⟨notTold, isMissing⟩
    rw [complete] at stillMissing
    cases stillMissing
  have queuedDigests : (queue ++ [entry.certificate]).map Certificate.digest =
      queue.map Certificate.digest ++ [child] := by
    simp [sameDigest]
  refine ⟨?_, ?_, ?_, ?_, ?_, ?_, ?_, ?_, ?_, ?_, ?_, ?_⟩
  · exact forall_erase tracked.member
  · intro digest entry' present
    obtain ⟨different, stays⟩ := of_getElem?_erase present
    obtain ⟨notStored', notQueued'⟩ := tracked.unaccepted digest entry' stays
    refine ⟨notStored', ?_⟩
    rw [queuedDigests]
    simp [notQueued', different]
  · exact forall_erase tracked.nonempty
  · exact forall_erase tracked.parents
  · intro round parent' child'
    rw [getElem?_erase, tracked.waits_iff]
    by_cases same : child = child'
    · subst same
      simp only [found, if_true, Option.some.injEq, exists_eq_left', and_true,
        reduceCtorEq, false_and, exists_false, iff_false, not_and, not_not]
      exact fun waiting => told _ waiting.2
    · simp only [same, Ne.symm same, if_false, and_false, not_false_eq_true, and_true]
  · refine forall_erase fun digest entry' present missing isParent => ?_
    rw [queuedDigests, mem_append]
    have := tracked.accounted digest entry' present missing isParent
    tauto
  · refine forall_erase fun digest entry' present missing isMissing => ?_
    obtain ⟨notStored', visit⟩ := tracked.absent digest entry' present missing isMissing
    refine ⟨notStored', ?_⟩
    rw [queuedDigests, map_append, mem_append, mem_append]
    rintro (isQueued | isChild)
    · exact .inl (visit isQueued)
    · right
      simpa [sameDigest] using isChild
  · exact forall_mem_snoc.mpr ⟨tracked.queued, member, by rw [sameDigest]; exact notStored⟩
  · rw [queuedDigests]
    exact tracked.distinct.append (nodup_singleton _) (by simpa using notQueued)
  · intro before certificate after split above missing isParent
    rcases eq_nil_or_concat' after with rfl | ⟨rest, last, rfl⟩
    · obtain ⟨rfl, ⟨⟩⟩ := append_inj' split rfl
      rcases tracked.accounted child entry found missing isParent
        with isMissing | stored | isQueued | isGone
      · obtain rfl := told missing isMissing
        rcases excused with stored | isQueued | isGone
        · exact .inl stored
        · exact .inr isQueued
        · omega
      · exact .inl stored
      · exact .inr isQueued
      · omega
    · rw [← cons_append, ← append_assoc] at split
      have same := (append_inj' split rfl).1
      exact tracked.causal before certificate rest same above missing isParent
  · intro visit isVisit certificate listed sameVisit
    rcases mem_append.mp isVisit with earlierVisit | lastVisit <;>
      rcases mem_append.mp listed with earlier | last
    · exact tracked.visits visit earlierVisit certificate earlier sameVisit
    · obtain rfl := mem_singleton.mp last
      have unsuspended := tracked.unsuspended visit earlierVisit
      rw [← sameVisit, sameDigest, found] at unsuspended
      cases unsuspended
    · obtain rfl := mem_singleton.mp lastVisit
      exact congrArg Certificate.round (history.collisionFree certificate
        (tracked.queued certificate earlier).1 entry.certificate member sameVisit)
    · obtain rfl := mem_singleton.mp lastVisit
      obtain rfl := mem_singleton.mp last
      rfl
  · intro visit isVisit
    rw [getElem?_erase]
    split
    · rfl
    · next different =>
      rcases mem_snoc.mp isVisit with earlier | rfl
      · exact tracked.unsuspended visit earlier
      · exact absurd sameDigest.symm different

end

end Tracked

namespace SynchronizerState

variable {history : CertificateSet} {store : CertificateStore}
  {gcRound gone : Nat} {queue : List Certificate}
  {visiting : List (Nat × CertificateDigest)}

/-- The visit that an accepted certificate gives rise to. -/
def visit (certificate : Certificate) : Nat × CertificateDigest :=
  (certificate.round, certificate.digest)

/-- Releasing the children of a certificate one after the other. -/
theorem acceptEach_spec (bounded : gone ≤ gcRound + 1) {round : Nat} (nodup : children.Nodup)
    (tracked : Tracked history store gcRound gone
      (fun round' parent' child => state.Waits round' parent' child ∨
        round' = round ∧ parent' = parent ∧ child ∈ children)
      state.suspended queue visiting)
    (closed : state.missing[(round, parent)]? = none)
    (excused : store.contains parent = true ∨
      parent ∈ queue.map Certificate.digest ∨ round + 1 ≤ gone) :
    ∃ after accepted, acceptEach parent children state = .ok (after, accepted) ∧
      after.missing = state.missing ∧
      after.suspended.size + accepted.length = state.suspended.size ∧
      Tracked history store gcRound gone after.Waits after.suspended
        (queue ++ accepted) (visiting ++ accepted.map visit) := by
  induction children generalizing state queue visiting with
  | nil =>
    refine ⟨state, [], rfl, rfl, rfl, ?_⟩
    simpa using tracked
  | cons child children ih =>
    obtain ⟨notLater, nodup⟩ := nodup_cons.mp nodup
    obtain ⟨entry, found, above, _⟩ := (tracked.waits_iff round parent child).mp
      (.inr ⟨rfl, rfl, mem_cons_self⟩)
    have childExcused : store.contains parent = true ∨ parent ∈ queue.map Certificate.digest ∨
        entry.certificate.round ≤ gone := by
      rw [above]
      exact excused
    -- The relation of the rest of the list, for either new state.
    have rest : ∀ (suspended : ExtTreeMap CertificateDigest
          SuspendedCertificate) round' parent' child',
        ((mk suspended state.missing).Waits round' parent'
            child' ∨ round' = round ∧ parent' = parent ∧ child' ∈ children) ↔
          (state.Waits round' parent' child' ∨ round' = round ∧
            parent' = parent ∧ child' ∈ child :: children) ∧
          ¬ (parent' = parent ∧ child' = child) := by
      intro suspended round' parent' child'
      constructor
      · rintro (waits | ⟨sameRound, sameParent, later⟩)
        · refine ⟨.inl waits, ?_⟩
          rintro ⟨rfl, rfl⟩
          obtain ⟨entry', found', above', _⟩ :=
            (tracked.waits_iff round' parent' child').mp (.inl waits)
          rw [found] at found'
          cases found'
          obtain rfl : round' = round := by omega
          obtain ⟨_, listed, _⟩ := waits
          rw [closed] at listed
          cases listed
        · refine ⟨.inr ⟨sameRound, sameParent, mem_cons_of_mem _ later⟩, ?_⟩
          rintro ⟨_, rfl⟩
          exact notLater later
      · rintro ⟨waits | ⟨sameRound, sameParent, listed⟩, notHere⟩
        · exact .inl waits
        · rcases mem_cons.mp listed with rfl | later
          · exact absurd ⟨sameParent, rfl⟩ notHere
          · exact .inr ⟨sameRound, sameParent, later⟩
    unfold acceptEach
    simp only [found]
    split
    · next complete =>
      have released := (tracked.release bounded found childExcused
        complete).congr_waits (rest (state.suspended.erase child))
      obtain ⟨after, accepted, told, sameMissing, sizes, afterTracked⟩ :=
        ih nodup released closed (by
          rw [map_append, mem_append]
          tauto)
      refine ⟨after, entry.certificate :: accepted, by rw [told], sameMissing, ?_, ?_⟩
      · have smaller := size_erase_add_one found
        change _ = (state.suspended.erase child).size at sizes
        simp only [length_cons]
        omega
      · simpa [visit] using afterTracked
    · next misses =>
      have stays := (tracked.tell found childExcused misses).congr_waits
        (rest (state.suspended.insert child ⟨entry.certificate, entry.missingParents.erase parent⟩))
      obtain ⟨after, accepted, told, sameMissing, sizes, afterTracked⟩ :=
        ih nodup stays closed excused
      exact ⟨after, accepted, told, sameMissing,
        sizes.trans (size_insert_of_present found _), afterTracked⟩

variable {state : SynchronizerState}

/-- Before its waiting certificates are told, a parent is taken from the second
map. -/
theorem tracked_erase (order : HashOrder)
    (tracked : Tracked history store gcRound gone state.Waits state.suspended queue visiting)
    {round : Nat} (found : state.missing[(round, digest)]? = some children) :
    Tracked history store gcRound gone
      (fun round' parent child =>
        (mk state.suspended
          (state.missing.erase (round, digest))).Waits round' parent child ∨
        round' = round ∧ parent = digest ∧ child ∈ order.list children)
      state.suspended queue visiting := by
  apply tracked.congr_waits
  intro round' parent child
  simp only [Waits, getElem?_erase, order.mem_iff, Prod.mk.injEq]
  by_cases same : round = round' ∧ digest = parent
  · obtain ⟨rfl, rfl⟩ := same
    simp [found]
  · have notHere : ¬ (round' = round ∧ parent = digest ∧ child ∈ children) := by
      rintro ⟨rfl, rfl, _⟩
      exact same ⟨rfl, rfl⟩
    rw [if_neg same, or_iff_left notHere]

/-- The traversal ends, and queues what can be accepted in causal order. -/
theorem traverse_spec (order : HashOrder) (bounded : gone ≤ gcRound + 1)
    (tracked : Tracked history store gcRound gone state.Waits state.suspended queue visiting)
    (enough : visiting.length + state.suspended.size ≤ fuel)
    (excused : ∀ visit ∈ visiting, store.contains visit.2 = true ∨
      visit.2 ∈ queue.map Certificate.digest ∨ visit.1 + 1 ≤ gone) :
    ∃ after accepted, traverse order fuel visiting state = .ok (after, accepted) ∧
      (∀ (key : Nat × CertificateDigest) children, after.missing[key]? = some children →
          state.missing[key]? = some children) ∧
      Tracked history store gcRound gone after.Waits after.suspended
        (queue ++ accepted) [] := by
  induction fuel generalizing state queue visiting with
  | zero =>
    obtain rfl : visiting = [] := length_eq_zero_iff.mp (by omega)
    exact ⟨state, [], by simp [traverse], fun _ _ => id, by simpa using tracked⟩
  | succ fuel ih =>
    cases visiting with
    | nil => exact ⟨state, [], rfl, fun _ _ => id, by simpa using tracked⟩
    | cons first visiting =>
      obtain ⟨round, digest⟩ := first
      unfold traverse
      cases found : state.missing[(round, digest)]? with
      | none =>
        have nobody : ∀ child, ¬ state.Waits round digest child := by
          rintro child ⟨_, listed, _⟩
          rw [found] at listed
          cases listed
        simp only [length_cons] at enough
        exact ih (tracked.visited nobody) (by omega)
          (forall_mem_cons.mp excused).2
      | some children =>
        have closed : (state.missing.erase (round, digest))[(round, digest)]? = none := by simp
        obtain ⟨told, accepted, acceptedEach, sameMissing, sizes,
            toldTracked⟩ := acceptEach_spec bounded (order.nodup children)
          (tracked_erase order tracked found) closed (excused (round, digest) mem_cons_self)
        have nobody : ∀ child, ¬ told.Waits round digest child := by
          rintro child ⟨_, listed, _⟩
          rw [sameMissing, closed] at listed
          cases listed
        simp only [length_cons, cons_append] at enough toldTracked
        obtain ⟨after, later, traversed, fewer, afterTracked⟩ :=
          ih (toldTracked.visited nobody) (by
              simp only [length_append, length_map]
              change _ = state.suspended.size at sizes
              omega)
            (by
              intro visit listed
              rw [map_append, mem_append]
              rcases mem_append.mp listed with earlier | new
              · have := excused visit (mem_cons_of_mem _ earlier)
                tauto
              · obtain ⟨certificate, isAccepted, rfl⟩ := mem_map.mp new
                exact .inr (.inl (.inr (mem_map_of_mem isAccepted))))
        refine ⟨after, accepted ++ later, ?_, ?_, by simpa using afterTracked⟩
        · simp only [acceptedEach]
          unfold visit at traversed
          rw [traversed]
        · intro key children' present
          have kept := fewer key children' present
          rw [sameMissing] at kept
          exact (of_getElem?_erase kept).2

/-- Accepting a certificate that is queued alone, or visiting one that is garbage
collected. -/
theorem acceptChildren_spec (order : HashOrder) (bounded : gone ≤ gcRound + 1)
    {round : Nat}
    (tracked : Tracked history store gcRound gone state.Waits state.suspended
      queue [(round, digest)])
    (excused : digest ∈ queue.map Certificate.digest ∨ round + 1 ≤ gone) :
    ∃ after accepted, state.acceptChildren order round digest = .ok (after, accepted) ∧
      (∀ (key : Nat × CertificateDigest) children, after.missing[key]? = some children →
          state.missing[key]? = some children) ∧
      Tracked history store gcRound gone after.Waits after.suspended
        (queue ++ accepted) [] := by
  have unsuspended := tracked.unsuspended _ mem_cons_self
  unfold acceptChildren
  rw [unsuspended]
  apply traverse_spec order bounded tracked
  · simp only [length_singleton]
    omega
  · exact forall_mem_singleton.mpr (.inr excused)

/-- Every key of the second map has a waiting certificate. -/
def Awaited (state : SynchronizerState) : Prop :=
  ∀ (key : Nat × CertificateDigest) children,
    state.missing[key]? = some children → children.Nonempty

/-- Letting a new certificate wait for its missing parents. -/
theorem insertMissing_spec (nodup : parents.Nodup) (awaited : state.Awaited)
    (fresh : ∀ parent ∈ parents, ¬ state.Waits missingRound parent child) :
    ∃ after, insertMissing child missingRound parents state = .ok after ∧
      after.suspended = state.suspended ∧ after.Awaited ∧
      ∀ round parent child', after.Waits round parent child' ↔ state.Waits round parent child' ∨
          round = missingRound ∧ parent ∈ parents ∧ child' = child := by
  induction parents generalizing state with
  | nil => exact ⟨state, rfl, rfl, awaited, by simp⟩
  | cons first parents ih =>
    obtain ⟨notLater, nodup⟩ := nodup_cons.mp nodup
    set children := state.missing.getD (missingRound, first) ∅ with childrenDefinition
    have waits_first : ∀ child', state.Waits missingRound first child' ↔ child' ∈ children := by
      intro child'
      rw [childrenDefinition, ExtTreeMap.getD_eq_getD_getElem?]
      unfold Waits
      cases state.missing[(missingRound, first)]? <;> simp
    have notWaiting : child ∉ children := fun waiting =>
      fresh first mem_cons_self ((waits_first child).mpr waiting)
    let next : SynchronizerState := ⟨state.suspended,
      state.missing.insert (missingRound, first) (Insert.insert child children)⟩
    have next_waits : ∀ round parent child', next.Waits round parent child' ↔
        state.Waits round parent child' ∨
          round = missingRound ∧ parent = first ∧ child' = child := by
      intro round parent child'
      by_cases same : (missingRound, first) = (round, parent)
      · obtain ⟨rfl, rfl⟩ := Prod.mk.inj same
        rw [waits_first child']
        simp only [Waits, next, Map.getElem?_insert, if_true,
          Option.some.injEq, exists_eq_left', Finset.mem_insert, true_and]
        exact or_comm
      · have notFirst : ¬ (round = missingRound ∧ parent = first ∧ child' = child) := by
          rintro ⟨rfl, rfl, _⟩
          exact same rfl
        rw [or_iff_left notFirst]
        simp only [Waits, next, Map.getElem?_insert, if_neg same]
    have next_awaited : next.Awaited := Map.forall_insert (Finset.insert_nonempty _ _) awaited
    obtain ⟨after, inserted, sameSuspended, afterAwaited, after_waits⟩ :=
      ih nodup next_awaited (by
        intro parent later
        rw [next_waits]
        rintro (waits | ⟨_, rfl, _⟩)
        · exact fresh parent (mem_cons_of_mem _ later) waits
        · exact notLater later)
    refine ⟨after, ?_, sameSuspended, afterAwaited, ?_⟩
    · rw [insertMissing, ← childrenDefinition, if_neg notWaiting]
      exact inserted
    · intro round parent child'
      rw [after_waits, next_waits, mem_cons]
      tauto

section

variable (tracked : Tracked history store gcRound 0 state.Waits state.suspended [] [])

include tracked

/-- The missing parents are those not in the store. -/
theorem missingParents_eq
    (member : certificate ∈ history) (found : state.suspended[certificate.digest]? = some entry) :
    entry.missingParents = (certificate.parents.filter fun parent =>
      !store.contains parent).toFinset := by
  obtain ⟨entryMember, sameDigest, above⟩ := tracked.member _ entry found
  obtain rfl := history.collisionFree _ entryMember certificate member sameDigest
  ext parent
  simp only [toFinset_filter, Finset.mem_filter, mem_toFinset, Bool.not_eq_true']
  constructor
  · intro missing
    exact ⟨tracked.parents _ entry found parent missing,
      (tracked.absent _ entry found parent missing).1⟩
  · rintro ⟨isParent, notStored⟩
    rcases tracked.accounted _ entry found parent isParent with missing | stored | isQueued | isGone
    · exact missing
    · rw [notStored] at stored
      cases stored
    · cases isQueued
    · omega

/-- Suspending a certificate. -/
theorem insert_spec
    (awaited : state.Awaited) {certificate : Certificate} (member : certificate ∈ history)
    (above : gcRound + 1 < certificate.round)
    (notStored : store.contains certificate.digest = false)
    (missing : missingParents = certificate.parents.filter fun parent =>
      !store.contains parent)
    (nonempty : missingParents ≠ [])
    (allowed : allowReinsert = false → state.suspended[certificate.digest]? = none) :
    ∃ after, state.insert certificate missingParents allowReinsert = .ok after ∧ after.Awaited ∧
      Tracked history store gcRound 0 after.Waits after.suspended [] [] := by
  unfold insert
  split
  · next entry found =>
    have reinsert : allowReinsert = true := by
      cases allowReinsert with
      | true => rfl
      | false =>
        rw [allowed rfl] at found
        cases found
    have same : entry.missingParents = missingParents.toFinset := by
      rw [missing]
      exact missingParents_eq tracked member found
    rw [reinsert, if_pos rfl, if_neg (not_not.mpr same)]
    exact ⟨state, rfl, awaited, tracked⟩
  · next unsuspended =>
    have isMissing : ∀ parent, parent ∈ missingParents ↔
        parent ∈ certificate.parents ∧ store.contains parent = false := by
      intro parent
      rw [missing, mem_filter, Bool.not_eq_true']
    have nodup : missingParents.Nodup := by
      rw [missing]
      exact certificate.nodup_parents.filter _
    have fresh : ∀ round parent, ¬ state.Waits round parent certificate.digest := by
      intro round parent waits
      obtain ⟨entry, found, _⟩ := (tracked.waits_iff _ _ _).mp waits
      rw [unsuspended] at found
      cases found
    have listedAwaited : SynchronizerState.Awaited ⟨state.suspended.insert certificate.digest
          ⟨certificate, missingParents.toFinset⟩, state.missing⟩ := awaited
    obtain ⟨after, inserted, sameSuspended, afterAwaited, after_waits⟩ :=
      insertMissing_spec nodup listedAwaited fun parent _ => fresh _ parent
    refine ⟨after, inserted, afterAwaited, ?_⟩
    rw [sameSuspended]
    refine ⟨?_, ?_, ?_, ?_, ?_, ?_, ?_, tracked.queued, tracked.distinct,
      tracked.causal, tracked.visits, by simp⟩
    · refine forall_insert ⟨member, rfl, ?_⟩ tracked.member
      change 2 ≤ certificate.round
      omega
    · exact forall_insert ⟨notStored, by simp⟩ tracked.unaccepted
    · exact forall_insert (by simpa using nonempty) tracked.nonempty
    · refine forall_insert (fun parent listed => ?_) tracked.parents
      exact ((isMissing parent).mp (mem_toFinset.mp listed)).1
    · intro round parent child
      rw [after_waits]
      change (state.Waits round parent child ∨ _) ↔ ∃ entry,
        (state.suspended.insert certificate.digest
          ⟨certificate, missingParents.toFinset⟩)[child]? = some entry ∧ _
      rw [Map.getElem?_insert]
      by_cases same : certificate.digest = child
      · subst same
        have sameRound : certificate.round = round + 1 ↔ round = certificate.round - 1 := by omega
        simp [fresh round parent, sameRound]
      · simp only [same, Ne.symm same, if_false, and_false, or_false]
        exact tracked.waits_iff round parent child
    · refine forall_insert (fun parent isParent => ?_) tracked.accounted
      cases stored : store.contains parent with
      | true => exact .inr (.inl rfl)
      | false => exact .inl (mem_toFinset.mpr ((isMissing parent).mpr ⟨isParent, stored⟩))
    · refine forall_insert (fun parent listed => ⟨?_, by simp⟩) tracked.absent
      exact ((isMissing parent).mp (mem_toFinset.mp listed)).2

end

/-- The lowest missing certificate is not suspended itself. -/
theorem runGcOnce_spec
    (tracked : Tracked history store gcRound gone state.Waits state.suspended [] [])
    (awaited : state.Awaited) (bound : Nat) :
    (state.runGcOnce bound = none ∧ ∀ (digest : CertificateDigest) entry,
      state.suspended[digest]? = some entry → bound + 1 < entry.certificate.round) ∨
    ∃ round digest, state.runGcOnce bound = some ((round, digest), none, state) ∧
      round ≤ bound ∧ state.suspended[digest]? = none := by
  -- A suspended certificate waits for a key one round below it.
  have key : ∀ (digest : CertificateDigest) entry, state.suspended[digest]? = some entry →
        ∃ (parent : CertificateDigest) (children : Finset CertificateDigest),
        state.missing[(entry.certificate.round - 1, parent)]? = some children := by
    intro digest entry found
    obtain ⟨parent, isMissing⟩ :=
      Finset.nonempty_iff_ne_empty.mpr (tracked.nonempty digest entry found)
    have above := (tracked.member digest entry found).2.2
    obtain ⟨children, listed, _⟩ := (tracked.waits_iff
      (entry.certificate.round - 1) parent digest).mpr ⟨entry, found, by omega, isMissing⟩
    exact ⟨parent, children, listed⟩
  unfold runGcOnce
  cases head : state.missing.toList.head? with
  | none =>
    left
    refine ⟨rfl, ?_⟩
    intro digest entry found
    obtain ⟨parent, children, listed⟩ := key digest entry found
    have present := ExtTreeMap.mem_toList_iff_getElem?_eq_some.mpr listed
    rw [head?_eq_none_iff.mp head] at present
    cases present
  | some first =>
    obtain ⟨⟨round, digest⟩, children⟩ := first
    dsimp only
    split
    · next aboveBound =>
      left
      refine ⟨rfl, ?_⟩
      intro other entry found
      obtain ⟨parent, children', listed⟩ := key other entry found
      have lowest : round ≤ entry.certificate.round - 1 := fst_le_of_head? head listed
      omega
    · next notAbove =>
      right
      have unsuspended : state.suspended[digest]? = none := by
        cases found : state.suspended[digest]? with
        | none => rfl
        | some entry =>
          exfalso
          have firstListed : state.missing[(round, digest)]? = some children := by
            apply ExtTreeMap.mem_toList_iff_getElem?_eq_some.mp
            exact mem_of_head? head
          obtain ⟨child, isChild⟩ := awaited _ _ firstListed
          obtain ⟨childEntry, childFound, childRound, childMisses⟩ :=
            (tracked.waits_iff round digest child).mp ⟨children, firstListed, isChild⟩
          obtain ⟨member, sameDigest, above⟩ := tracked.member digest entry found
          rw [← sameDigest] at childMisses
          have below := tracked.round_of_missing childFound member childMisses
          obtain ⟨parent, children', listed⟩ := key digest entry found
          have lowest : round ≤ entry.certificate.round - 1 := fst_le_of_head? head listed
          omega
      refine ⟨round, digest, ?_, by omega, unsuspended⟩
      rw [unsuspended, erase_of_absent unsuspended]
      rfl

end SynchronizerState

end Sui.Narwhal
