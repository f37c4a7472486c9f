import Sui.Narwhal.Storage.CachedStore

/-!
# The certificate store and a plain map

What the certificate store is for: a map from digests to certificates.  The queries by
round and by origin are answered by looking at all certificates of the map.
-/

namespace Sui.Narwhal

open Std (ExtTreeMap)

namespace Certificate

/-- The order of certificates by round, and by origin in one round. -/
def Before (left right : Certificate) : Prop :=
  left.round < right.round ∨ left.round = right.round ∧ left.origin ≤ right.origin

instance : DecidableRel Before := fun _ _ =>
  inferInstanceAs (Decidable (_ ∨ _ ∧ _))

instance : Std.Total Before :=
  ⟨fun left right => by
    unfold Before
    grind⟩

instance : IsTrans Certificate Before :=
  ⟨fun first second third => by
    unfold Before
    grind⟩

end Certificate

/-- A map from digests to certificates. -/
@[ext] structure PlainStore where
  byDigest : ExtTreeMap CertificateDigest Certificate

namespace PlainStore

/-- The map without certificates. -/
def empty : PlainStore :=
  ⟨∅⟩

def write (plain : PlainStore) (certificate : Certificate) : PlainStore :=
  ⟨plain.byDigest.insert certificate.digest certificate⟩

def delete (plain : PlainStore) (digest : CertificateDigest) : PlainStore :=
  ⟨plain.byDigest.erase digest⟩

def read (plain : PlainStore) (digest : CertificateDigest) : Option Certificate :=
  plain.byDigest[digest]?

def contains (plain : PlainStore) (digest : CertificateDigest) : Bool :=
  (plain.read digest).isSome

/-- All certificates, by round and origin. -/
def certificates (plain : PlainStore) : List Certificate :=
  (Library.Map.values plain.byDigest).insertionSort Certificate.Before

/-- The certificates of an origin. -/
def ofOrigin (plain : PlainStore) (origin : AuthorityIdentifier) : List Certificate :=
  plain.certificates.filter fun certificate => certificate.origin = origin

def readByIndex (plain : PlainStore) (origin : AuthorityIdentifier)
    (round : Nat) : Option Certificate :=
  (plain.ofOrigin origin).find? fun certificate => certificate.round = round

/-- The certificates from a round on. -/
def afterRound (plain : PlainStore) (round : Nat) : List Certificate :=
  plain.certificates.filter fun certificate => round ≤ certificate.round

def highestRoundNumber (plain : PlainStore) : Nat :=
  (plain.certificates.map Certificate.round).max?.getD 0

/-- The certificates of the highest round and the round before, last first. -/
def lastTwoRoundsCerts (plain : PlainStore) : List Certificate :=
  plain.certificates.reverse.filter fun certificate =>
    plain.highestRoundNumber ≤ certificate.round + 1

/-- The highest round of an origin. -/
def lastRoundNumber (plain : PlainStore) (origin : AuthorityIdentifier) : Option Nat :=
  ((plain.ofOrigin origin).map Certificate.round).max?

/-- The certificate of an origin in its highest round. -/
def lastRound (plain : PlainStore) (origin : AuthorityIdentifier) : Option Certificate :=
  (plain.lastRoundNumber origin).bind (plain.readByIndex origin)

/-- The lowest round of an origin above a round. -/
def nextRoundNumber (plain : PlainStore) (origin : AuthorityIdentifier)
    (round : Nat) : Option Nat :=
  (((plain.ofOrigin origin).map Certificate.round).filter fun other =>
    round < other).min?

@[simp] theorem mem_certificates_iff (plain : PlainStore) (certificate : Certificate) :
    certificate ∈ plain.certificates ↔ ∃ digest, plain.read digest = some certificate := by
  unfold certificates read
  rw [List.mem_insertionSort, Library.Map.mem_values_iff]

theorem certificates_ordered (plain : PlainStore) :
    plain.certificates.Pairwise Certificate.Before :=
  List.pairwise_insertionSort _ _

@[simp] theorem mem_ofOrigin_iff (plain : PlainStore) (origin : AuthorityIdentifier)
    (certificate : Certificate) :
    certificate ∈ plain.ofOrigin origin ↔
      (∃ digest, plain.read digest = some certificate) ∧ certificate.origin = origin := by
  simp [ofOrigin]

/-- The plain map after deletions. -/
theorem read_foldl_delete (plain : PlainStore) (digests : List CertificateDigest)
    (lookup : CertificateDigest) :
    (digests.foldl delete plain).read lookup =
      if lookup ∈ digests then none else plain.read lookup := by
  induction digests generalizing plain with
  | nil => simp
  | cons digest digests ih =>
    rw [List.foldl_cons, ih]
    by_cases here : lookup = digest
    · simp [here, delete, read]
    · simp [here, delete, read, Ne.symm here]

theorem foldl_delete_of_absent (plain : PlainStore) {digests : List CertificateDigest}
    (absent : ∀ digest ∈ digests, plain.read digest = none) :
    digests.foldl delete plain = plain := by
  ext digest certificate
  change (digests.foldl delete plain).read digest = some certificate ↔
    plain.read digest = some certificate
  rw [read_foldl_delete]
  split
  · next listed => simp [absent digest listed]
  · rfl

end PlainStore

/-! ## Runs

The table by digest, the index by round and the cache follow the plain map through every
call.  The index by origin follows the writes only: a deletion leaves its entry. -/

open Library
open List hiding after

namespace CachedStore

/-- A call of the store.  Lookups count as calls because they change the cache. -/
inductive Action where
  | write (certificate : Certificate)
  | writeAll (certificates : List Certificate)
  | delete (id : CertificateDigest)
  | deleteAll (ids : List CertificateDigest)
  | read (id : CertificateDigest)
  | readAll (ids : List CertificateDigest)
  | readByIndex (origin : AuthorityIdentifier) (round : Nat)
  | lastRound (origin : AuthorityIdentifier)

/-- The store after a call. -/
def perform (store : CachedStore) : Action → CachedStore
  | .write certificate => store.write certificate
  | .writeAll certificates => store.writeAll certificates
  | .delete id => store.delete id
  | .deleteAll ids => store.deleteAll ids
  | .read id => (store.read id).1
  | .readAll ids => (store.readAll ids).1
  | .readByIndex origin round => (store.readByIndex origin round).1
  | .lastRound origin => (store.lastRound origin).1

/-- The certificates that a call writes. -/
def Action.written : Action → List Certificate
  | .write certificate => [certificate]
  | .writeAll certificates => certificates
  | _ => []

/-- The certificates that a run writes. -/
def written (actions : List Action) : List Certificate :=
  actions.flatMap Action.written

/-- The store after a run of calls. -/
def run (capacity : Nat) (actions : List Action) : CachedStore :=
  actions.foldl perform (.new capacity)

end CachedStore

/-- The plain map after a call. -/
def PlainStore.perform (plain : PlainStore) : CachedStore.Action → PlainStore
  | .write certificate => plain.write certificate
  | .writeAll certificates => certificates.foldl write plain
  | .delete id => plain.delete id
  | .deleteAll ids => ids.foldl delete plain
  | _ => plain

/-- The plain map after a run of calls. -/
def PlainStore.run (actions : List CachedStore.Action) : PlainStore :=
  actions.foldl perform .empty

/-- Certificates of which none equivocates: origin and round determine the digest, and
the digest determines them.  The signatures may differ. -/
structure NonEquivocating (certificates : List Certificate) : Prop where
  determined : ∀ left ∈ certificates, ∀ right ∈ certificates,
    left.origin = right.origin ∧ left.round = right.round ↔ left.digest = right.digest
  bounded : ∀ certificate ∈ certificates, certificate.round ≤ roundMax

namespace CachedStore

/-- How a store relates to the plain map and to the certificates written so far.  All of
them are among the certificates of a run. -/
structure Tracks
    (world written : List Certificate)
    (store : CachedStore)
    (plain : PlainStore) : Prop where
  within : ∀ certificate ∈ written, certificate ∈ world
  byDigest : store.tables.certificatesById = plain.byDigest
  cached : ∀ digest certificate, store.cache.peek digest = some certificate →
    plain.read digest = some certificate
  filed : ∀ digest certificate, plain.read digest = some certificate →
    certificate.digest = digest ∧ certificate ∈ written
  byRound : ∀ round origin digest,
    store.tables.certificateIdByRound[(round, origin)]? = some digest ↔
      ∃ certificate, plain.read digest = some certificate ∧
        certificate.round = round ∧ certificate.origin = origin
  /-- The index by origin lists what was written, deleted or not. -/
  byOrigin : ∀ origin round digest,
    store.tables.certificateIdByOrigin[(origin, round)]? = some digest ↔
      ∃ certificate ∈ written, certificate.digest = digest ∧
        certificate.round = round ∧ certificate.origin = origin

namespace Tracks

variable {world written : List Certificate} {store : CachedStore} {plain : PlainStore}

theorem read_tables (tracks : Tracks world written store plain) (digest : CertificateDigest) :
    store.tables.read digest = plain.read digest := by
  simp [CertificateStore.read, PlainStore.read, tracks.byDigest]

/-! ## Lookups -/

section

variable (tracks : Tracks world written store plain)

include tracks

theorem read_snd (digest : CertificateDigest) : (store.read digest).2 = plain.read digest := by
  rw [CachedStore.read_snd, tracks.read_tables]
  cases found : store.cache.peek digest with
  | none => simp
  | some certificate => simp [tracks.cached digest certificate found]

/-- Only the cache may change, and it may not gain certificates. -/
theorem of_cache {cache : CertificateStoreCache}
    (peeked : ∀ digest, cache.peek digest = store.cache.peek digest) :
    Tracks world written { store with cache := cache } plain :=
  { tracks with
    cached := fun digest certificate found =>
      tracks.cached digest certificate (by rwa [← peeked digest]) }

theorem read (digest : CertificateDigest) : Tracks world written (store.read digest).1 plain := by
  rw [read_fst]
  apply tracks.of_cache
  simp

/-- Reading several digests. -/
theorem readAll_snd (ids : List CertificateDigest) :
    (store.readAll ids).2 = ids.map plain.read := by
  obtain ⟨_, answers⟩ := store.cache.readAll_spec ids
  unfold CachedStore.readAll
  simp only [answers]
  apply map_congr_left
  intro id listed
  rw [getElem?_gather, getElem?_gather, if_pos listed]
  cases found : store.cache.peek id with
  | some certificate =>
    have isRead := tracks.cached id certificate found
    simp [tracks.read_tables, isRead]
  | none =>
    have missing : id ∈ List.map Prod.fst (List.filter (fun answer => answer.2.isNone)
        (ids.map fun id => (id, store.cache.peek id))) := by
      simp [listed, found]
    simp [missing, tracks.read_tables]

theorem readAll (ids : List CertificateDigest) : Tracks world written (store.readAll ids).1 plain :=
  tracks.of_cache (store.cache.readAll_spec ids).1

theorem readByIndex (origin : AuthorityIdentifier) (round : Nat) :
    Tracks world written (store.readByIndex origin round).1 plain := by
  unfold CachedStore.readByIndex
  split
  · exact tracks.read _
  · exact tracks

theorem lastRound (origin : AuthorityIdentifier) :
    Tracks world written (store.lastRound origin).1 plain := by
  unfold CachedStore.lastRound
  split
  · exact tracks.read _
  · exact tracks

end

/-! ## Writes -/

/-- Writing keeps track of the plain map. -/
theorem write (tracks : Tracks world written store plain) (nonEquivocating : NonEquivocating world)
    (inWorld : certificate ∈ world) :
    Tracks world (written ++ [certificate]) (store.write certificate)
      (plain.write certificate) where
  within other listed := by
    rcases mem_snoc.mp listed with earlier | isLast
    · exact tracks.within other earlier
    · rwa [isLast]
  byDigest := by
    simp [CachedStore.write, CertificateStore.write, PlainStore.write, tracks.byDigest]
  cached digest other found := by
    have kept := CertificateStoreCache.peek_write found
    simp only [PlainStore.read, PlainStore.write, Map.getElem?_insert]
    split at kept
    · next same => rwa [if_pos same]
    · next different =>
      rw [if_neg different]
      exact tracks.cached digest other kept
  filed := by
    refine Map.forall_insert ⟨rfl, by simp⟩ fun digest other found => ?_
    obtain ⟨isDigest, listed⟩ := tracks.filed digest other found
    exact ⟨isDigest, mem_append_left _ listed⟩
  byRound round origin digest := by
    simp only [CachedStore.write, CertificateStore.write, PlainStore.read, PlainStore.write,
      Map.getElem?_insert, Prod.mk.injEq]
    by_cases sameDigest : certificate.digest = digest
    · have others : ∀ other, plain.read digest = some other →
          certificate.origin = other.origin ∧ certificate.round = other.round := by
        intro other found
        obtain ⟨isDigest, listed⟩ := tracks.filed digest other found
        exact (nonEquivocating.determined _ inWorld _ (tracks.within _ listed)).mpr
          (sameDigest.trans isDigest.symm)
      by_cases sameKey : certificate.round = round ∧ certificate.origin = origin
      · simp [sameDigest, sameKey]
      · simp only [sameKey, if_false, sameDigest, if_true, Option.some.injEq, tracks.byRound]
        constructor
        · rintro ⟨other, found, rfl, rfl⟩
          exact absurd ⟨(others other found).2, (others other found).1⟩ sameKey
        · rintro ⟨_, rfl, isRound, isOrigin⟩
          exact absurd ⟨isRound, isOrigin⟩ sameKey
    · rw [if_neg sameDigest]
      by_cases sameKey : certificate.round = round ∧ certificate.origin = origin
      · simp only [sameKey, and_self, if_true, Option.some.injEq, sameDigest, false_iff]
        rintro ⟨other, found, isRound, isOrigin⟩
        obtain ⟨isDigest, listed⟩ := tracks.filed digest other found
        apply sameDigest
        rw [← isDigest]
        exact (nonEquivocating.determined _ inWorld _ (tracks.within _ listed)).mp
          ⟨sameKey.2.trans isOrigin.symm, sameKey.1.trans isRound.symm⟩
      · rw [if_neg sameKey]
        exact tracks.byRound round origin digest
  byOrigin origin round digest := by
    simp only [CachedStore.write, CertificateStore.write, Map.getElem?_insert, Prod.mk.injEq]
    by_cases sameKey : certificate.origin = origin ∧ certificate.round = round
    · rw [if_pos sameKey, Option.some.injEq]
      constructor
      · rintro rfl
        exact ⟨certificate, by simp, rfl, sameKey.2, sameKey.1⟩
      · rintro ⟨other, listed, rfl, isRound, isOrigin⟩
        rcases mem_snoc.mp listed with earlier | isLast
        · exact (nonEquivocating.determined _ inWorld _ (tracks.within _ earlier)).mp
            ⟨sameKey.1.trans isOrigin.symm, sameKey.2.trans isRound.symm⟩
        · rw [isLast]
    · rw [if_neg sameKey, tracks.byOrigin]
      constructor
      · rintro ⟨other, listed, isEntry⟩
        exact ⟨other, mem_append_left _ listed, isEntry⟩
      · rintro ⟨other, listed, isDigest, isRound, isOrigin⟩
        rcases mem_snoc.mp listed with earlier | rfl
        · exact ⟨other, earlier, isDigest, isRound, isOrigin⟩
        · exact absurd ⟨isOrigin, isRound⟩ sameKey

/-- Writing several certificates keeps track of the plain map. -/
theorem writeAll (tracks : Tracks world written store plain)
    (nonEquivocating : NonEquivocating world)
    (inWorld : ∀ certificate ∈ certificates, certificate ∈ world) :
    Tracks world (written ++ certificates) (store.writeAll certificates)
      (certificates.foldl PlainStore.write plain) := by
  rw [writeAll_eq_foldl]
  induction certificates generalizing written store plain with
  | nil => simpa using tracks
  | cons certificate certificates ih =>
    have next := ih (tracks.write nonEquivocating (inWorld certificate mem_cons_self))
      (forall_mem_cons.mp inWorld).2
    simpa using next

/-! ## Deletions -/

variable (tracks : Tracks world written store plain) (nonEquivocating : NonEquivocating world)

include tracks nonEquivocating

/-- A batch of deletions keeps track of the plain map. -/
theorem deleteBatch (ids : List CertificateDigest)
    (keysByRound : List (Nat × AuthorityIdentifier))
    (keys : ∀ key, key ∈ keysByRound ↔ ∃ id ∈ ids, ∃ certificate,
      plain.read id = some certificate ∧ (certificate.round, certificate.origin) = key)
    {cache : CertificateStoreCache}
    (removed : ∀ digest, cache.peek digest =
      if digest ∈ ids then none else store.cache.peek digest) :
    Tracks world written
      { tables := store.tables.deleteBatch ids keysByRound, cache := cache }
      (ids.foldl PlainStore.delete plain) where
  within := tracks.within
  byDigest := by
    apply ExtTreeMap.ext_getElem?
    intro digest
    have deleted := plain.read_foldl_delete ids digest
    simp only [PlainStore.read, ← tracks.byDigest] at deleted
    rw [deleted]
    simp only [CertificateStore.deleteBatch, Map.getElem?_foldl_erase]
  cached digest certificate found := by
    rw [removed] at found
    rw [PlainStore.read_foldl_delete]
    split at found
    · cases found
    · next kept =>
      rw [if_neg kept]
      exact tracks.cached digest certificate found
  filed digest certificate found := by
    rw [PlainStore.read_foldl_delete] at found
    split at found
    · cases found
    · exact tracks.filed digest certificate found
  byRound round origin digest := by
    simp only [CertificateStore.deleteBatch, Map.getElem?_foldl_erase, PlainStore.read_foldl_delete]
    by_cases isKey : (round, origin) ∈ keysByRound
    · rw [if_pos isKey]
      obtain ⟨id, listed, certificate, found, same⟩ := (keys _).mp isKey
      obtain ⟨rfl, rfl⟩ := Prod.mk.inj same
      simp only [reduceCtorEq, false_iff]
      rintro ⟨other, found', isRound, isOrigin⟩
      split at found'
      · cases found'
      · next kept =>
        obtain ⟨isDigest, inWritten⟩ := tracks.filed digest other found'
        obtain ⟨isId, inWritten'⟩ := tracks.filed id certificate found
        apply kept
        rw [← isDigest, (nonEquivocating.determined _ (tracks.within _ inWritten) _
          (tracks.within _ inWritten')).mp ⟨isOrigin, isRound⟩, isId]
        exact listed
    · rw [if_neg isKey, tracks.byRound]
      refine exists_congr fun certificate => and_congr_left fun isEntry => ?_
      split
      · next isId =>
        simp only [reduceCtorEq, iff_false]
        intro found
        exact isKey ((keys _).mpr ⟨digest, isId, certificate, found, by
          rw [isEntry.1, isEntry.2]⟩)
      · rfl
  byOrigin := tracks.byOrigin

/-- Deleting keeps track of the plain map. -/
theorem delete (id : CertificateDigest) :
    Tracks world written (store.delete id) (plain.delete id) := by
  have answered := tracks.read_snd id
  have kept := tracks.read id
  unfold CachedStore.delete
  split
  · next store' isRead =>
    rw [isRead] at answered kept
    have same : [id].foldl PlainStore.delete plain = plain :=
      plain.foldl_delete_of_absent (by simpa using answered.symm)
    rwa [← same] at kept
  · next store' certificate isRead =>
    rw [isRead] at answered kept
    apply kept.deleteBatch nonEquivocating [id]
    · simp [← answered, eq_comm]
    · intro digest
      simp [eq_comm]

/-- Deleting several digests keeps track of the plain map. -/
theorem deleteAll (ids : List CertificateDigest) :
    Tracks world written (store.deleteAll ids) (ids.foldl PlainStore.delete plain) := by
  unfold CachedStore.deleteAll
  simp only [tracks.readAll_snd]
  split
  · next nothing =>
    rw [plain.foldl_delete_of_absent]
    · exact tracks.readAll ids
    · simpa using nothing
  · apply (tracks.readAll ids).deleteBatch nonEquivocating ids
    · simp
    · exact (store.readAll ids).1.cache.peek_removeAll ids

/-- Every call keeps the store on the track of the plain map. -/
theorem perform (inWorld : ∀ certificate ∈ action.written, certificate ∈ world) :
    Tracks world (written ++ action.written) (store.perform action)
      (plain.perform action) := by
  have nothingWritten : ∀ {store' plain'}, Tracks world written store' plain' →
      Tracks world (written ++ []) store' plain' := by simp
  cases action with
  | write certificate =>
    exact tracks.write nonEquivocating (inWorld certificate mem_cons_self)
  | writeAll certificates => exact tracks.writeAll nonEquivocating inWorld
  | delete id => exact nothingWritten (tracks.delete nonEquivocating id)
  | deleteAll ids => exact nothingWritten (tracks.deleteAll nonEquivocating ids)
  | read id => exact nothingWritten (tracks.read id)
  | readAll ids => exact nothingWritten (tracks.readAll ids)
  | readByIndex origin round => exact nothingWritten (tracks.readByIndex origin round)
  | lastRound origin => exact nothingWritten (tracks.lastRound origin)

/-- A run of calls keeps track of the plain map. -/
theorem foldl_perform (inWorld : ∀ certificate ∈ CachedStore.written actions, certificate ∈ world) :
    Tracks world (written ++ CachedStore.written actions)
      (actions.foldl CachedStore.perform store) (actions.foldl PlainStore.perform plain) := by
  induction actions generalizing written store plain with
  | nil => simpa [CachedStore.written] using tracks
  | cons action actions ih =>
    unfold CachedStore.written at inWorld ⊢
    rw [flatMap_cons] at inWorld ⊢
    rw [← append_assoc]
    apply ih
    · apply tracks.perform nonEquivocating
      exact (forall_mem_append.mp inWorld).1
    · exact (forall_mem_append.mp inWorld).2

end Tracks

/-- The empty stores are in track. -/
theorem tracks_new (world : List Certificate) (capacity : Nat) :
    Tracks world [] (.new capacity) .empty where
  within := by simp
  byDigest := rfl
  cached digest certificate found := by
    simp [new, CertificateStoreCache.new, CertificateStoreCache.peek] at found
  filed digest certificate found := by
    simp [PlainStore.read, PlainStore.empty] at found
  byRound := by simp [new, CertificateStore.empty, PlainStore.read, PlainStore.empty]
  byOrigin := by simp [new, CertificateStore.empty]

theorem tracks_run (capacity : Nat) (nonEquivocating : NonEquivocating (written actions)) :
    Tracks (written actions) (written actions) (run capacity actions)
      (PlainStore.run actions) :=
  (tracks_new (written actions) capacity).foldl_perform nonEquivocating fun _ => id

end CachedStore

end Sui.Narwhal
