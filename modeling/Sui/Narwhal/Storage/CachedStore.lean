import Sui.Narwhal.Types
import Sui.Library.Lru

/-!
# The certificate store and the consensus store

Certificates by digest, with two indices by round and by origin.  A write
inserts in all three in one atomic batch.  The read cache only holds certificates of
the tables; the store with its cache and its deletions is modelled on top of them.
Every lookup by digest goes to the cache first, writes fill it and deletions clear it.
-/

namespace Sui.Narwhal

open Std (ExtTreeMap)

/-- The durable store of certificates. -/
structure CertificateStore where
  certificatesById : ExtTreeMap CertificateDigest Certificate
  certificateIdByRound : ExtTreeMap (Nat × AuthorityIdentifier) CertificateDigest
  certificateIdByOrigin : ExtTreeMap (AuthorityIdentifier × Nat) CertificateDigest

namespace CertificateStore

/-- The store without certificates. -/
def empty : CertificateStore :=
  ⟨∅, ∅, ∅⟩

/-- Insert a certificate. -/
def write (store : CertificateStore) (certificate : Certificate) :
    CertificateStore where
  certificatesById :=
    store.certificatesById.insert certificate.digest certificate
  certificateIdByRound := store.certificateIdByRound.insert
    (certificate.round, certificate.origin) certificate.digest
  certificateIdByOrigin := store.certificateIdByOrigin.insert
    (certificate.origin, certificate.round) certificate.digest

/-- The certificate with a digest. -/
def read (store : CertificateStore) (digest : CertificateDigest) :
    Option Certificate :=
  store.certificatesById[digest]?

/-- Whether a certificate with a digest is stored. -/
def contains (store : CertificateStore) (digest : CertificateDigest) : Bool :=
  store.certificatesById.contains digest

/-- The certificates from a round on, in the order of round and origin.  An
indexed digest without certificate is an error. -/
def afterRound (store : CertificateStore) (round : Nat) :
    Option (List Certificate) :=
  ((store.certificateIdByRound.toList.filter fun entry =>
    decide (round ≤ entry.1.1)).map Prod.snd).mapM store.read

@[simp] theorem contains_write (store : CertificateStore) (certificate : Certificate)
    (digest : CertificateDigest) :
    (store.write certificate).contains digest =
      (decide (certificate.digest = digest) || store.contains digest) := by
  unfold contains write
  rw [ExtTreeMap.contains_insert, Bool.eq_iff_iff]
  simp

end CertificateStore

/-! ## The consensus store

Sub-dags refer to certificates by digest.  An older table of sub-dags without timestamps is
read when the current one is empty. -/

/-- A committed sub-dag in the older format. -/
structure CommittedSubDagShell where
  certificates : List CertificateDigest
  leader : CertificateDigest
  leaderRound : Nat
  subDagIndex : Nat
  reputationScore : ReputationScores

/-- A committed sub-dag in the current format. -/
structure ConsensusCommitV2 where
  certificates : List CertificateDigest
  leader : CertificateDigest
  leaderRound : Nat
  subDagIndex : Nat
  reputationScore : ReputationScores
  commitTimestamp : Nat

/-- The stored form of a sub-dag. -/
def ConsensusCommitV2.fromSubDag (subDag : CommittedSubDag) :
    ConsensusCommitV2 where
  certificates := subDag.certificates.map Certificate.digest
  leader := subDag.leader.digest
  leaderRound := subDag.leader.round
  subDagIndex := subDag.subDagIndex
  reputationScore := subDag.reputationScore
  commitTimestamp := subDag.commitTimestamp

/-- A stored sub-dag of either format. -/
inductive ConsensusCommit
  | v1 (subDag : CommittedSubDagShell)
  | v2 (subDag : ConsensusCommitV2)

namespace ConsensusCommit

/-- The digests of the committed certificates. -/
def certificates : ConsensusCommit → List CertificateDigest
  | v1 subDag => subDag.certificates
  | v2 subDag => subDag.certificates

/-- The digest of the leader. -/
def leader : ConsensusCommit → CertificateDigest
  | v1 subDag => subDag.leader
  | v2 subDag => subDag.leader

def leaderRound : ConsensusCommit → Nat
  | v1 subDag => subDag.leaderRound
  | v2 subDag => subDag.leaderRound

/-- The position in the global sequence. -/
def subDagIndex : ConsensusCommit → Nat
  | v1 subDag => subDag.subDagIndex
  | v2 subDag => subDag.subDagIndex

/-- The scores after the commit. -/
def reputationScore : ConsensusCommit → ReputationScores
  | v1 subDag => subDag.reputationScore
  | v2 subDag => subDag.reputationScore

/-- The time of the commit, which the older format does not have. -/
def commitTimestamp : ConsensusCommit → Nat
  | v1 _ => 0
  | v2 subDag => subDag.commitTimestamp

end ConsensusCommit

/-- The sub-dag of a stored commit, given its certificates. -/
def CommittedSubDag.fromCommit (commit : ConsensusCommit) (certificates : List Certificate)
    (leader : Certificate) : CommittedSubDag where
  certificates := certificates
  leader := leader
  subDagIndex := commit.subDagIndex
  reputationScore := commit.reputationScore
  commitTimestamp := commit.commitTimestamp

/-- The durable store of the consensus. -/
structure ConsensusStore where
  lastCommitted : ExtTreeMap AuthorityIdentifier Nat
  committedSubDagsByIndex : ExtTreeMap Nat CommittedSubDagShell
  committedSubDagsByIndexV2 : ExtTreeMap Nat ConsensusCommit

namespace ConsensusStore

/-- The store without commits. -/
def empty : ConsensusStore :=
  ⟨∅, ∅, ∅⟩

/-- Persist a commit.  Existing rounds are overwritten. -/
def writeConsensusState (store : ConsensusStore)
    (lastCommitted : ExtTreeMap AuthorityIdentifier Nat)
    (subDag : CommittedSubDag) : ConsensusStore :=
  { store with
    lastCommitted := store.lastCommitted ∪ lastCommitted
    committedSubDagsByIndexV2 := store.committedSubDagsByIndexV2.insert
      subDag.subDagIndex (.v2 (.fromSubDag subDag)) }

/-- The last committed round of each authority. -/
def readLastCommitted (store : ConsensusStore) :
    ExtTreeMap AuthorityIdentifier Nat :=
  store.lastCommitted

/-- The sub-dag with the highest index, from the current table if it has one. -/
def getLatestSubDag (store : ConsensusStore) : Option ConsensusCommit :=
  match store.committedSubDagsByIndexV2.toList.getLast? with
  | some (_, commit) => some commit
  | none =>
    store.committedSubDagsByIndex.toList.getLast?.map fun entry =>
      .v1 entry.2

/-- The latest sub-dag with the final scores of a schedule. -/
def readLatestCommitWithFinalReputationScores (store : ConsensusStore) :
    Option ConsensusCommit :=
  (store.committedSubDagsByIndexV2.toList.map Prod.snd).reverse.find?
    fun commit => commit.reputationScore.finalOfSchedule

end ConsensusStore

/-! ## The store with its cache -/

open Library (Lru)

/-- The largest round number, of 64 bits. -/
def roundMax : Nat :=
  2 ^ 64 - 1

/-- The cache of certificates.  Without capacity it holds nothing, which is the store
with caching disabled. -/
structure CertificateStoreCache where
  capacity : Nat
  cache : Lru CertificateDigest Certificate

namespace CertificateStoreCache

/-- The cache without certificates. -/
def new (capacity : Nat) : CertificateStoreCache :=
  ⟨capacity, .unbounded⟩

/-- Insert a certificate, and forget the one used least recently if there are too
many. -/
def write (store : CertificateStoreCache) (certificate : Certificate) :
    CertificateStoreCache :=
  { store with
    cache := (store.cache.touch certificate.digest certificate).shrink store.capacity }

/-- Insert several certificates. -/
def writeAll (store : CertificateStoreCache) (certificates : List Certificate) :
    CertificateStoreCache :=
  certificates.foldl write store

/-- What the cache reports for a digest. -/
def peek (store : CertificateStoreCache) (digest : CertificateDigest) :
    Option Certificate :=
  store.cache.peek digest

/-- Look a certificate up, which marks it as used. -/
def read (store : CertificateStoreCache) (digest : CertificateDigest) :
    CertificateStoreCache × Option Certificate :=
  ({ store with cache := (store.cache.get digest).1 }, (store.cache.get digest).2)

/-- Look several certificates up, in the order of the digests. -/
def readAll (store : CertificateStoreCache) :
    List CertificateDigest → CertificateStoreCache × List (CertificateDigest × Option Certificate)
  | [] => (store, [])
  | digest :: digests =>
    let (store, found) := store.read digest
    let (store, others) := store.readAll digests
    (store, (digest, found) :: others)

/-- Whether a digest is cached, without marking it as used. -/
def contains (store : CertificateStoreCache) (digest : CertificateDigest) : Bool :=
  (store.peek digest).isSome

/-- Remove a certificate. -/
def remove (store : CertificateStoreCache) (digest : CertificateDigest) :
    CertificateStoreCache :=
  { store with cache := (store.cache.pop digest).1 }

/-- Remove several certificates. -/
def removeAll (store : CertificateStoreCache) (digests : List CertificateDigest) :
    CertificateStoreCache :=
  digests.foldl remove store

section

variable (store : CertificateStoreCache)

include store

@[simp] theorem peek_read (digest lookup : CertificateDigest) :
    (store.read digest).1.peek lookup = store.peek lookup := by
  simp [read, peek]

@[simp] theorem read_snd (digest : CertificateDigest) :
    (store.read digest).2 = store.peek digest := by
  simp [read, peek]

/-- Lookups of several digests answer each one, and forget nothing. -/
theorem readAll_spec (digests : List CertificateDigest) :
    (∀ lookup, (store.readAll digests).1.peek lookup = store.peek lookup) ∧
      (store.readAll digests).2 = digests.map fun digest => (digest, store.peek digest) := by
  induction digests generalizing store with
  | nil => simp [readAll]
  | cons digest digests ih =>
    obtain ⟨peeked, answers⟩ := ih (store.read digest).1
    simp only [readAll, peeked, answers, peek_read, read_snd, List.map_cons, and_true]
    exact fun _ => trivial

@[simp] theorem peek_remove (digest lookup : CertificateDigest) :
    (store.remove digest).peek lookup =
      if digest = lookup then none else store.peek lookup := by
  simp [remove, peek]

/-- The cache after certificates were removed. -/
theorem peek_removeAll (digests : List CertificateDigest) (lookup : CertificateDigest) :
    (store.removeAll digests).peek lookup =
      if lookup ∈ digests then none else store.peek lookup := by
  unfold removeAll
  induction digests generalizing store with
  | nil => simp
  | cons digest digests ih =>
    rw [List.foldl_cons, ih, peek_remove]
    by_cases here : lookup = digest
    · simp [here]
    · simp [here, Ne.symm here]

end

theorem peek_write {store : CertificateStoreCache}
    (found : (store.write written).peek lookup = some certificate) :
    (if written.digest = lookup then some written else store.peek lookup) =
      some certificate := by
  have kept := Lru.peek_shrink found
  rwa [Lru.peek_touch] at kept

end CertificateStoreCache

namespace CertificateStore

/-- Insert several certificates in one batch: first all by digest, then all in the
index by round, then all in the index by origin. -/
def writeAll (store : CertificateStore) (certificates : List Certificate) :
    CertificateStore where
  certificatesById := certificates.foldl
    (fun table certificate => table.insert certificate.digest certificate)
    store.certificatesById
  certificateIdByRound := certificates.foldl
    (fun table certificate =>
      table.insert (certificate.round, certificate.origin) certificate.digest)
    store.certificateIdByRound
  certificateIdByOrigin := certificates.foldl
    (fun table certificate =>
      table.insert (certificate.origin, certificate.round) certificate.digest)
    store.certificateIdByOrigin

/-- Delete digests and keys of the index by round in one batch.  The index by origin
is left as it is. -/
def deleteBatch (store : CertificateStore) (ids : List CertificateDigest)
    (keysByRound : List (Nat × AuthorityIdentifier)) : CertificateStore :=
  { store with
    certificatesById := ids.foldl (fun table id => table.erase id) store.certificatesById
    certificateIdByRound :=
      keysByRound.foldl (fun table key => table.erase key) store.certificateIdByRound }

/-- Walk back from the last entry of the index by round until a round is more than one
below the last one.  A round of zero stands for a last round that is not known yet. -/
def lastTwoRoundsFrom (store : CertificateStore) (round : Nat) :
    List ((Nat × AuthorityIdentifier) × CertificateDigest) → Option (List Certificate)
  | [] => some []
  | ((certificateRound, _), digest) :: entries =>
    if round = 0 then do
      let certificate ← store.certificatesById[digest]?
      let certificates ← store.lastTwoRoundsFrom certificateRound entries
      return certificate :: certificates
    else if certificateRound < round - 1 then some []
    else do
      let certificate ← store.certificatesById[digest]?
      let certificates ← store.lastTwoRoundsFrom round entries
      return certificate :: certificates

end CertificateStore

/-- The certificate store: the tables and the cache. -/
structure CachedStore where
  tables : CertificateStore
  cache : CertificateStoreCache

namespace CachedStore

/-- The store without certificates. -/
def new (capacity : Nat) : CachedStore :=
  ⟨.empty, .new capacity⟩

/-- Insert a certificate. -/
def write (store : CachedStore) (certificate : Certificate) : CachedStore where
  tables := store.tables.write certificate
  cache := store.cache.write certificate

/-- Insert several certificates. -/
def writeAll (store : CachedStore) (certificates : List Certificate) : CachedStore where
  tables := store.tables.writeAll certificates
  cache := store.cache.writeAll certificates

/-- The certificate with a digest, from the cache if it is there. -/
def read (store : CachedStore) (id : CertificateDigest) :
    CachedStore × Option Certificate :=
  match store.cache.read id with
  | (cache, some certificate) => ({ store with cache := cache }, some certificate)
  | (cache, none) => ({ store with cache := cache }, store.tables.read id)

/-- The certificate of an origin and a round. -/
def readByIndex (store : CachedStore) (origin : AuthorityIdentifier)
    (round : Nat) : CachedStore × Option Certificate :=
  match store.tables.certificateIdByOrigin[(origin, round)]? with
  | some digest => store.read digest
  | none => (store, none)

/-- Whether a digest is stored. -/
def contains (store : CachedStore) (digest : CertificateDigest) : Bool :=
  store.cache.contains digest || store.tables.contains digest

/-- Add the certificates that were found to a map. -/
def gather (found : ExtTreeMap CertificateDigest Certificate)
    (answers : List (CertificateDigest × Option Certificate)) :
    ExtTreeMap CertificateDigest Certificate :=
  answers.foldl (fun found answer =>
    match answer.2 with
    | some certificate => found.insert answer.1 certificate
    | none => found) found

/-- The certificates with some digests in the order of the digests: those the cache has,
and from the tables those it misses. -/
def readAll (store : CachedStore) (ids : List CertificateDigest) :
    CachedStore × List (Option Certificate) :=
  let (cache, answers) := store.cache.readAll ids
  let missing := (answers.filter fun answer => answer.2.isNone).map Prod.fst
  let found := gather (gather ∅ answers)
    (missing.map fun id => (id, store.tables.read id))
  ({ store with cache := cache }, ids.map fun id => found[id]?)

/-- Delete a certificate. -/
def delete (store : CachedStore) (id : CertificateDigest) : CachedStore :=
  match store.read id with
  | (store, none) => store
  | (store, some certificate) =>
    { tables := store.tables.deleteBatch [id] [(certificate.round, certificate.origin)]
      cache := store.cache.remove id }

/-- Delete several certificates. -/
def deleteAll (store : CachedStore) (ids : List CertificateDigest) : CachedStore :=
  let (store, certificates) := store.readAll ids
  let keysByRound := certificates.filterMap fun certificate =>
    certificate.map fun certificate => (certificate.round, certificate.origin)
  if keysByRound.isEmpty then store
  else
    { tables := store.tables.deleteBatch ids keysByRound
      cache := store.cache.removeAll ids }

/-- The certificates from a round on, by ascending round. -/
def afterRound (store : CachedStore) (round : Nat) : Option (List Certificate) :=
  store.tables.afterRound round

/-- The certificates of the last round and the round before, last first. -/
def lastTwoRoundsCerts (store : CachedStore) : Option (List Certificate) :=
  store.tables.lastTwoRoundsFrom 0 store.tables.certificateIdByRound.toList.reverse

/-- The last entry of an origin in the index by origin. -/
def lastEntry (store : CachedStore) (origin : AuthorityIdentifier) :
    Option (Nat × CertificateDigest) :=
  match Library.Map.skipPriorTo store.tables.certificateIdByOrigin (origin, roundMax) with
  | some ((name, round), digest) => if name = origin then some (round, digest) else none
  | none => none

/-- The last certificate of an origin. -/
def lastRound (store : CachedStore) (origin : AuthorityIdentifier) :
    CachedStore × Option Certificate :=
  match store.lastEntry origin with
  | some (_, digest) => store.read digest
  | none => (store, none)

/-- The highest round of the store, zero if it has no certificate. -/
def highestRoundNumber (store : CachedStore) : Nat :=
  match store.tables.certificateIdByRound.toList.getLast? with
  | some ((round, _), _) => round
  | none => 0

/-- The last round of an origin. -/
def lastRoundNumber (store : CachedStore) (origin : AuthorityIdentifier) : Option Nat :=
  (store.lastEntry origin).map Prod.fst

/-- The next round of an origin above a round.  The successor of the round wraps
around. -/
def nextRoundNumber (store : CachedStore) (origin : AuthorityIdentifier)
    (round : Nat) : Option Nat :=
  match (Library.Map.skipTo store.tables.certificateIdByOrigin
      (origin, (round + 1) % 2 ^ 64)).head? with
  | some ((name, round), _) => if name = origin then some round else none
  | none => none

/-- The cache is written as the tables are, one certificate after the other. -/
theorem writeAll_eq_foldl (store : CachedStore) (certificates : List Certificate) :
    store.writeAll certificates = certificates.foldl write store := by
  unfold writeAll CertificateStoreCache.writeAll
  induction certificates generalizing store with
  | nil => rfl
  | cons certificate certificates ih =>
    simp only [List.foldl_cons]
    rw [← ih]
    rfl

/-- A lookup by digest changes the order of use in the cache only. -/
theorem read_fst (store : CachedStore) (id : CertificateDigest) :
    (store.read id).1 = { store with cache := (store.cache.read id).1 } := by
  unfold read
  split
  · next cache certificate found => rw [found]
  · next cache found => rw [found]

/-- A lookup by digest answers from the cache, and from the tables otherwise. -/
theorem read_snd (store : CachedStore) (id : CertificateDigest) :
    (store.read id).2 = (store.cache.peek id).or (store.tables.read id) := by
  rw [← CertificateStoreCache.read_snd]
  unfold read
  split
  · next cache certificate found => simp [found]
  · next cache found => simp [found]

/-- What gathering finds. -/
theorem getElem?_gather (found : ExtTreeMap CertificateDigest Certificate)
    (lookup : CertificateDigest → Option Certificate) (digests : List CertificateDigest)
    (digest : CertificateDigest) :
    (gather found (digests.map fun digest => (digest, lookup digest)))[digest]? =
      if digest ∈ digests then (lookup digest).or found[digest]? else found[digest]? := by
  unfold gather
  induction digests generalizing found with
  | nil => simp
  | cons first digests ih =>
    rw [List.map_cons, List.foldl_cons, ih]
    cases answer : lookup first with
    | none =>
      by_cases here : digest = first
      · simp [here, answer]
      · simp [here]
    | some certificate =>
      by_cases here : digest = first
      · simp [here, answer]
      · simp [here, Ne.symm here]

end CachedStore

end Sui.Narwhal
