import Sui.Narwhal.Consensus.Agreement
import Sui.Narwhal.Storage.CachedStore

/-!
# Restoring the consensus from the stores

A validator that restarts is rebuilt from the last committed rounds, the latest
sub-dag, the latest final scores and the stored certificates above garbage
collection.  Certificates are read in the order of their rounds, so the parents
of each certificate are in memory before it.
-/

namespace Sui.Narwhal

open List hiding after
open Library (Emit)

/-- The swap table of the latest final scores, or none to swap. -/
def LeaderSchedule.fromStore (bullshark : Bullshark)
    (store : ConsensusStore) : Except Failure LeaderSwapTable :=
  if bullshark.newLeaderElectionSchedule then
    match store.readLatestCommitWithFinalReputationScores with
    | none => .ok LeaderSwapTable.default
    | some commit =>
      LeaderSwapTable.new bullshark.committee commit.leaderRound
        commit.reputationScore bullshark.badNodesStakeThreshold
  else
    .ok LeaderSwapTable.default

namespace ConsensusState

/-- Insert certificates one after the other. -/
def insertCertificates (lastCommitted : LastCommitted) (gcRound : Nat) :
    List Certificate → Dag → Except Failure Dag
  | [], dag => .ok dag
  | certificate :: certificates, dag =>
    match tryInsertInDag dag lastCommitted gcRound certificate with
    | .error failure => .error failure
    | .ok (dag, _) =>
      insertCertificates lastCommitted gcRound certificates dag

/-- The graph of the stored certificates above garbage collection. -/
def constructDagFromCertStore (certStore : CertificateStore) (lastCommitted : LastCommitted)
    (gcRound : Nat) : Except Failure Dag :=
  match certStore.afterRound (gcRound + 1) with
  | none => .error (.panic .certificateStoreInvariant)
  | some certificates => insertCertificates lastCommitted gcRound certificates ∅

/-- The sub-dag of a stored commit, with its certificates read back. -/
def readSubDag (certStore : CertificateStore)
    (commit : ConsensusCommit) : Except Failure CommittedSubDag :=
  match commit.certificates.mapM certStore.read, certStore.read commit.leader with
  | some certificates, some leader =>
    .ok (CommittedSubDag.fromCommit commit certificates leader)
  | _, _ => .error (.panic .certificateNotStored)

/-- The latest sub-dag with its certificates, if there is one. -/
def readLatestSubDag (certStore : CertificateStore) :
    Option ConsensusCommit → Except Failure (Option CommittedSubDag)
  | none => .ok none
  | some commit =>
    match readSubDag certStore commit with
    | .error failure => .error failure
    | .ok subDag => .ok (some subDag)

/-- The consensus state of a validator that restarts. -/
def newFromStore (lastCommittedRound gcDepth : Nat) (recoveredLastCommitted : LastCommitted)
    (latestSubDag : Option ConsensusCommit)
    (certStore : CertificateStore) : Except Failure ConsensusState :=
  let lastRound := ConsensusRound.newWithGcDepth lastCommittedRound gcDepth
  match constructDagFromCertStore certStore recoveredLastCommitted
      lastRound.gcRound with
  | .error failure => .error failure
  | .ok dag =>
    match readLatestSubDag certStore latestSubDag with
    | .error failure => .error failure
    | .ok lastCommittedSubDag =>
      .ok {
        lastRound := lastRound
        gcDepth := gcDepth
        lastCommitted := recoveredLastCommitted
        lastCommittedSubDag := lastCommittedSubDag
        dag := dag }

end ConsensusState

/-- The highest last committed round. -/
def highestCommittedRound (lastCommitted : LastCommitted) : Nat :=
  (Library.Map.values lastCommitted).foldl max 0

namespace Bullshark

/-- Start the consensus of a validator from its stores. -/
def spawn (bullshark : Bullshark) (gcDepth : Nat) (store : ConsensusStore)
    (certStore : CertificateStore) : Except Failure Node :=
  match LeaderSchedule.fromStore bullshark store with
  | .error failure => .error failure
  | .ok table =>
    let recoveredLastCommitted := store.readLastCommitted
    let lastCommittedRound := highestCommittedRound recoveredLastCommitted
    let latestSubDag := store.getLatestSubDag
    match latestSubDag.filter fun subDag =>
        subDag.leaderRound != lastCommittedRound with
    | some subDag =>
      .error (.panic (.latestSubDagRound subDag.leaderRound lastCommittedRound))
    | none =>
      match ConsensusState.newFromStore lastCommittedRound gcDepth
          recoveredLastCommitted latestSubDag certStore with
      | .error failure => .error failure
      | .ok state =>
        .ok {
          state := state
          leaderSwapTable := table
          maxInsertedCertificateRound := 0 }

end Bullshark

/-! ## The certificates of a store -/

/-- A certificate can be read from the store. -/
def CertificateStore.Stored (store : CertificateStore) (certificate : Certificate) : Prop :=
  store.read certificate.digest = some certificate

/-- The store holds certificates of the set, and its index by round lists exactly
these. -/
structure CertificateStore.Sound
    (history : CertificateSet)
    (store : CertificateStore) : Prop where
  filed : ∀ digest certificate, store.read digest = some certificate →
    certificate ∈ history ∧ certificate.digest = digest
  indexed : ∀ round origin digest, store.certificateIdByRound[(round, origin)]? = some digest →
      ∃ certificate, store.read digest = some certificate ∧
        certificate.round = round ∧ certificate.origin = origin
  listed : ∀ certificate, store.Stored certificate →
    store.certificateIdByRound[(certificate.round, certificate.origin)]? = some certificate.digest

namespace CertificateStore

variable {history : CertificateSet} {store : CertificateStore}

theorem sound_empty (history : CertificateSet) : empty.Sound history where
  filed := by simp [empty, read]
  indexed := by simp [empty]
  listed := by simp [empty, Stored, read]

theorem read_write (store : CertificateStore) (certificate : Certificate)
    (digest : CertificateDigest) :
    (store.write certificate).read digest =
      if certificate.digest = digest then some certificate
      else store.read digest :=
  Library.Map.getElem?_insert _ _ _ _

variable (sound : store.Sound history)

include sound

theorem Sound.mem (stored : store.Stored certificate) : certificate ∈ history :=
  (sound.filed _ _ stored).1

/-- What is stored after a write. -/
theorem Sound.stored_write_iff (member : certificate ∈ history) (other : Certificate) :
    (store.write certificate).Stored other ↔ store.Stored other ∨ other = certificate := by
  rw [Stored, read_write]
  split
  · next same =>
    constructor
    · rintro ⟨⟩
      exact .inr rfl
    · rintro (stored | rfl)
      · rw [history.collisionFree certificate member other (sound.mem stored) same]
      · rfl
  · next different =>
    constructor
    · exact .inl
    · rintro (stored | rfl)
      · exact stored
      · exact absurd rfl different

/-- A write keeps the store sound. -/
theorem Sound.write (member : certificate ∈ history) :
    (store.write certificate).Sound history where
  filed := by
    intro digest other found
    rw [read_write] at found
    split at found
    · next same =>
      cases found
      exact ⟨member, same⟩
    · exact sound.filed digest other found
  indexed := by
    intro round origin digest found
    rcases Library.Map.cases_of_getElem?_insert found with ⟨⟨⟩, rfl⟩ | ⟨_, found⟩
    · exact ⟨certificate, by rw [read_write, if_pos rfl], rfl, rfl⟩
    · obtain ⟨other, found, sameRound, sameOrigin⟩ := sound.indexed round origin digest found
      have stored : (store.write certificate).Stored other := by
        apply (sound.stored_write_iff member other).mpr
        left
        rw [Stored, (sound.filed digest other found).2]
        exact found
      rw [Stored, (sound.filed digest other found).2] at stored
      exact ⟨other, stored, sameRound, sameOrigin⟩
  listed := by
    intro other stored
    change (store.certificateIdByRound.insert _ _)[_]? = _
    rw [Library.Map.getElem?_insert]
    split
    · next same =>
      have equal := history.determined other
        (((sound.stored_write_iff member other).mp stored).elim sound.mem
          fun same => same ▸ member) certificate member
        (congrArg Prod.snd same).symm (congrArg Prod.fst same).symm
      rw [equal]
    · next different =>
      rcases (sound.stored_write_iff member other).mp stored with earlier | rfl
      · exact sound.listed other earlier
      · exact absurd rfl different

/-- The certificates from a round on, in the order of rounds. -/
theorem Sound.afterRound_spec (round : Nat) :
    ∃ certificates, store.afterRound round = some certificates ∧
      (certificates.Pairwise fun left right => left.round ≤ right.round) ∧
      ∀ certificate, certificate ∈ certificates ↔
        store.Stored certificate ∧ round ≤ certificate.round := by
  set entries := store.certificateIdByRound.toList.filter fun entry =>
    decide (round ≤ entry.1.1) with entriesDefinition
  have entry_iff : ∀ key digest, (key, digest) ∈ entries ↔
      store.certificateIdByRound[key]? = some digest ∧ round ≤ key.1 := by
    intro key digest
    rw [entriesDefinition, mem_filter,
      Std.ExtTreeMap.mem_toList_iff_getElem?_eq_some, decide_eq_true_iff]
  have read_entry : ∀ key digest, (key, digest) ∈ entries →
      ∃ certificate, store.read digest = some certificate ∧
        certificate.round = key.1 ∧ certificate.origin = key.2 :=
    fun key digest listed =>
      sound.indexed key.1 key.2 digest ((entry_iff key digest).mp listed).1
  have readable : ∀ digest ∈ entries.map Prod.snd, (store.read digest).isSome := by
    intro digest listed
    obtain ⟨⟨key, _⟩, entryListed, rfl⟩ := mem_map.mp listed
    obtain ⟨certificate, found, _⟩ := read_entry key _ entryListed
    exact Option.isSome_iff_exists.mpr ⟨certificate, found⟩
  refine ⟨_, Library.Map.mapM_eq_some_filterMap readable, ?_, ?_⟩
  · rw [filterMap_map, pairwise_filterMap]
    have ordered : entries.Pairwise fun left right =>
        compare left.1 right.1 = .lt :=
      Std.ExtTreeMap.ordered_keys_toList.filter _
    apply ordered.imp_of_mem
    rintro ⟨leftKey, leftDigest⟩ ⟨rightKey, rightDigest⟩ leftListed rightListed
      below left leftFound right rightFound
    obtain ⟨_, found, leftRound, _⟩ := read_entry _ _ leftListed
    cases found.symm.trans leftFound
    obtain ⟨_, found', rightRound, _⟩ := read_entry _ _ rightListed
    cases found'.symm.trans rightFound
    rw [leftRound, rightRound]
    exact Library.Map.fst_le_of_compare_eq_lt below
  · intro certificate
    rw [mem_filterMap]
    constructor
    · rintro ⟨digest, listed, found⟩
      obtain ⟨⟨key, _⟩, entryListed, rfl⟩ := mem_map.mp listed
      obtain ⟨_, found', sameRound, _⟩ := read_entry key _ entryListed
      cases found.symm.trans found'
      refine ⟨?_, sameRound ▸ ((entry_iff key _).mp entryListed).2⟩
      rw [Stored, (sound.filed _ _ found).2]
      exact found
    · rintro ⟨stored, above⟩
      exact ⟨certificate.digest, mem_map.mpr ⟨_, (entry_iff _ _).mpr
        ⟨sound.listed certificate stored, above⟩, rfl⟩, stored⟩

end CertificateStore

/-! ## Restoring the graph -/

namespace ConsensusState

variable {history : CertificateSet} {gcRound : Nat}

/-- Certificates in the order of their rounds, with their parents among them or
already in memory, can all be inserted. -/
theorem insertCertificates_spec (lastCommitted : LastCommitted) {dag : Dag}
    (view : history.View gcRound dag)
    (sorted : certificates.Pairwise fun left right => left.round ≤ right.round)
    (members : ∀ certificate ∈ certificates, certificate ∈ history)
    (closed : ∀ certificate ∈ certificates, gcRound + 1 < certificate.round →
      ∀ parent, history.Parent certificate parent → InDag dag parent ∨ parent ∈ certificates) :
    ∃ inserted, insertCertificates lastCommitted gcRound certificates dag = .ok inserted ∧
      history.View gcRound inserted ∧
      ∀ other, InDag inserted other ↔ InDag dag other ∨
        (other ∈ certificates ∧ gcRound < other.round) := by
  induction certificates generalizing dag with
  | nil => exact ⟨dag, rfl, view, by simp⟩
  | cons certificate certificates ih =>
    obtain ⟨first, rest⟩ := pairwise_cons.mp sorted
    have inMemory : gcRound + 1 < certificate.round →
        ∀ parent, history.Parent certificate parent → InDag dag parent := by
      intro above parent step
      have below := step.below
      -- A parent is of a lower round, so it does not come later in the list.
      rcases closed certificate mem_cons_self above parent step with inside | listed
      · exact inside
      · rcases mem_cons.mp listed with rfl | later
        · omega
        · have := first parent later
          omega
    obtain ⟨next, inserted, nextView, present⟩ := view.tryInsertInDag_spec
      (members certificate mem_cons_self) inMemory lastCommitted
    obtain ⟨final, insertedRest, finalView, finalPresent⟩ :=
      ih nextView rest (forall_mem_cons.mp members).2
        (by
          intro other later above parent step
          have below := step.below
          rcases closed other (mem_cons_of_mem _ later) above parent step with inside | listed
          · exact .inl ((present parent).mpr (.inl inside))
          · rcases mem_cons.mp listed with rfl | later
            · exact .inl ((present parent).mpr (.inr ⟨rfl, by omega⟩))
            · exact .inr later)
    refine ⟨final, ?_, finalView, ?_⟩
    · rw [insertCertificates, inserted]
      exact insertedRest
    · intro other
      rw [finalPresent, present, mem_cons]
      constructor
      · rintro ((inside | ⟨rfl, above⟩) | ⟨later, above⟩)
        · exact .inl inside
        · exact .inr ⟨.inl rfl, above⟩
        · exact .inr ⟨.inr later, above⟩
      · rintro (inside | ⟨rfl | later, above⟩)
        · exact .inl (.inl inside)
        · exact .inl (.inr ⟨rfl, above⟩)
        · exact .inr ⟨later, above⟩

/-- The restored graph holds exactly the stored certificates above garbage
collection. -/
theorem constructDagFromCertStore_spec (sound : certStore.Sound history)
    (lastCommitted : LastCommitted)
    (closed : ∀ certificate, certStore.Stored certificate →
      gcRound + 1 < certificate.round → ∀ parent,
        history.Parent certificate parent → certStore.Stored parent) :
    ∃ dag, constructDagFromCertStore certStore lastCommitted gcRound = .ok dag ∧
      history.View gcRound dag ∧
      ∀ certificate, InDag dag certificate ↔
        certStore.Stored certificate ∧ gcRound < certificate.round := by
  obtain ⟨certificates, found, sorted, listed⟩ := sound.afterRound_spec (gcRound + 1)
  obtain ⟨dag, inserted, view, present⟩ := insertCertificates_spec lastCommitted
    CertificateSet.View.empty sorted
    (fun certificate isListed => sound.mem ((listed certificate).mp isListed).1)
    (by
      intro certificate isListed above parent step
      have below := step.below
      right
      exact (listed parent).mpr ⟨closed certificate
        ((listed certificate).mp isListed).1 above parent step, by omega⟩)
  refine ⟨dag, ?_, view, ?_⟩
  · rw [constructDagFromCertStore, found]
    exact inserted
  · intro certificate
    rw [present, listed]
    simp only [InDag, dagEntry_empty, reduceCtorEq, false_or]
    constructor
    · rintro ⟨⟨stored, _⟩, above⟩
      exact ⟨stored, above⟩
    · rintro ⟨stored, above⟩
      exact ⟨⟨stored, above⟩, above⟩

/-- A stored sub-dag is read back. -/
theorem readSubDag_spec (stored : ∀ certificate ∈ subDag.certificates, certStore.Stored certificate)
    (leader : subDag.leader ∈ subDag.certificates) :
    readSubDag certStore (.v2 (.fromSubDag subDag)) = .ok subDag := by
  have certificates : (subDag.certificates.map Certificate.digest).mapM
      certStore.read = some subDag.certificates := by
    rw [Library.Map.mapM_eq_some_filterMap]
    · rw [filterMap_map]
      congr 1
      calc subDag.certificates.filterMap (certStore.read ∘ Certificate.digest)
          = subDag.certificates.filterMap some :=
            filterMap_congr stored
        _ = subDag.certificates := filterMap_some
    · intro digest listed
      obtain ⟨certificate, isCommitted, rfl⟩ := mem_map.mp listed
      exact Option.isSome_iff_exists.mpr ⟨certificate, stored _ isCommitted⟩
  have leaderFound : certStore.read subDag.leader.digest = some subDag.leader :=
    stored subDag.leader leader
  simp only [readSubDag, ConsensusCommit.certificates, ConsensusCommit.leader,
    ConsensusCommitV2.fromSubDag, certificates, leaderFound]
  rfl

end ConsensusState

end Sui.Narwhal
