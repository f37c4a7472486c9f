import Sui.Narwhal.Consensus.Restore

/-!
# Crash recovery

A validator may crash at any time, also between two durable writes of one
certificate, and restart from its stores.  The writes of all its lives together
are one trace of the commit relation: the stores determine the ledger at the end
of that trace, a restart rebuilds this ledger and a graph that is sound for the
stored certificates, and from there the next life continues the trace.
-/

namespace Sui.Narwhal

open Library LeaderSchedule
open List hiding after
open Std (ExtTreeMap)

/-- Persist commits one after the other. -/
def ConsensusStore.persist (store : ConsensusStore)
    (commits : List CommitRecord) : ConsensusStore :=
  commits.foldl (fun store commit =>
    store.writeConsensusState commit.lastCommitted commit.subDag) store

/-- The rounds of the state after a sequence of commits. -/
def lastRoundAfter (commits : List CommitRecord) : ConsensusRound :=
  commits.getLast?.elim ConsensusRound.default CommitRecord.lastRound

/-- The sub-dag committed last. -/
def lastSubDagAfter (commits : List CommitRecord) : Option CommittedSubDag :=
  commits.getLast?.map CommitRecord.subDag

/-- The swap table after a sequence of commits, each of which may replace it. -/
def Bullshark.swapTableAfter (bullshark : Bullshark)
    (commits : List CommitRecord) : Except Failure LeaderSwapTable :=
  commits.foldlM (fun table commit => Prod.fst <$>
    bullshark.updateLeaderSchedule table commit.subDag.leader.round
      commit.subDag.reputationScore) LeaderSwapTable.default

/-- The entry of a commit in the table of sub-dags. -/
def CommitRecord.entry (commit : CommitRecord) : Nat × ConsensusCommit :=
  (commit.subDag.subDagIndex, .v2 (.fromSubDag commit.subDag))

/-- The highest committed round, given a bound that is reached. -/
theorem highestCommittedRound_eq (bounded : ∀ id, lastCommitted.getD id 0 ≤ bound)
    (reached : ∃ id, lastCommitted.getD id 0 = bound) :
    highestCommittedRound lastCommitted = bound := by
  apply Map.foldl_max_eq
  · intro round listed
    obtain ⟨id, found⟩ := (Map.mem_values_iff _ _).mp listed
    have below := bounded id
    rwa [ExtTreeMap.getD_eq_getD_getElem?, found] at below
  · exact Nat.zero_le bound
  · obtain ⟨id, atBound⟩ := reached
    rw [ExtTreeMap.getD_eq_getD_getElem?] at atBound
    cases found : lastCommitted[id]? with
    | none => exact .inl (by simpa [found] using atBound)
    | some round =>
      right
      rw [found] at atBound
      cases atBound
      exact (Map.mem_values_iff _ _).mpr ⟨id, found⟩

/-- Recording keeps the authorities that have a last committed round. -/
theorem Ledger.isSome_foldl_update {sequence : List Certificate} {id : AuthorityIdentifier}
    (present : (ledger.lastCommitted[id]?).isSome) :
    ((sequence.foldl update ledger).lastCommitted[id]?).isSome := by
  induction sequence generalizing ledger with
  | nil => exact present
  | cons certificate sequence ih =>
    apply ih
    rw [update, Map.getElem?_alter]
    split
    · split <;> rfl
    · exact present

namespace Bullshark

variable {bullshark : Bullshark} {history : CertificateSet} {gcDepth : Nat}

/-- What the store holds after a sequence of commits that led to a ledger. -/
structure Persisted
    (bullshark : Bullshark)
    (history : CertificateSet)
    (gcDepth : Nat)
    (commits : List CommitRecord)
    (ledger : Ledger) : Prop where
  recorded : Recorded history gcDepth commits ledger
  sane : ledger.Sane bullshark.committee
  lastRound : ledger.lastRound = lastRoundAfter commits
  lastSubDag : ledger.lastCommittedSubDag = lastSubDagAfter commits
  swapTable : bullshark.swapTableAfter commits = .ok ledger.leaderSwapTable
  reached : ∃ id, ledger.lastCommitted.getD id 0 = ledger.lastRound.committedRound
  storedLastCommitted :
    (ConsensusStore.empty.persist commits).lastCommitted = ledger.lastCommitted
  storedSubDags :
    (ConsensusStore.empty.persist commits).committedSubDagsByIndexV2.toList =
      commits.map CommitRecord.entry
  /-- The older table stays empty. -/
  storedOlder :
    (ConsensusStore.empty.persist commits).committedSubDagsByIndex = ∅
  storedSwapTable : LeaderSchedule.fromStore bullshark
    (ConsensusStore.empty.persist commits) = .ok ledger.leaderSwapTable

/-- Nothing is persisted at the start. -/
theorem persisted_new (bullshark : Bullshark) (history : CertificateSet) (depth : 0 < gcDepth) :
    bullshark.Persisted history gcDepth [] (Ledger.new gcDepth) where
  recorded := recorded_new history gcDepth
  sane := Ledger.sane_new bullshark.committee depth
  lastRound := rfl
  lastSubDag := rfl
  swapTable := rfl
  reached := ⟨0, by simp [Ledger.new, ConsensusRound.default]⟩
  storedLastCommitted := rfl
  storedSubDags := rfl
  storedOlder := rfl
  storedSwapTable := by
    unfold fromStore
    split <;> rfl

theorem persist_snoc (store : ConsensusStore) (commits : List CommitRecord)
    (commit : CommitRecord) :
    store.persist (commits ++ [commit]) =
      (store.persist commits).writeConsensusState commit.lastCommitted
        commit.subDag := by
  simp [ConsensusStore.persist]

/-- The table that is restored after one more commit. -/
theorem fromStore_write {commit : CommitRecord} {next : LeaderSwapTable}
    (lastListed : (store.writeConsensusState commit.lastCommitted
        commit.subDag).committedSubDagsByIndexV2.toList =
      store.committedSubDagsByIndexV2.toList ++ [commit.entry])
    (restored : fromStore bullshark store = .ok table)
    (scheduled : bullshark.updateLeaderSchedule table commit.subDag.leader.round
      commit.subDag.reputationScore = .ok (next, changed)) :
    fromStore bullshark (store.writeConsensusState
      commit.lastCommitted commit.subDag) = .ok next := by
  unfold fromStore at restored ⊢
  unfold updateLeaderSchedule at scheduled
  have latest : (store.writeConsensusState commit.lastCommitted
      commit.subDag).readLatestCommitWithFinalReputationScores =
        if commit.subDag.reputationScore.finalOfSchedule then
          some (.v2 (.fromSubDag commit.subDag))
        else store.readLatestCommitWithFinalReputationScores := by
    unfold ConsensusStore.readLatestCommitWithFinalReputationScores
    rw [lastListed, map_append, reverse_append]
    split
    · next final => exact find?_cons_of_pos final
    · next notFinal => exact find?_cons_of_neg notFinal
  rw [latest]
  split at scheduled
  · next both =>
    obtain ⟨enabled, final⟩ := Bool.and_eq_true_iff.mp both
    rw [if_pos enabled, if_pos final]
    split at scheduled
    · cases scheduled
    · next built =>
      cases scheduled
      exact built
  · next keeps =>
    cases scheduled
    rw [← restored]
    grind

/-- The next commit is persisted. -/
theorem Persisted.step {commits : List CommitRecord}
    (persisted : bullshark.Persisted history gcDepth commits before)
    (next : bullshark.NextCommit history before commit after) :
    bullshark.Persisted history gcDepth (commits ++ [commit]) after := by
  have recorded := persisted.recorded.step next
  have sane := next.sane
  obtain ⟨leader, sequence, scores, table, commits', rfl, isCommit⟩ := next.exists_commits
  obtain ⟨changed, scheduled⟩ := commits'.scheduled
  have lastListed : ((ConsensusStore.empty.persist commits).writeConsensusState
      commit.lastCommitted commit.subDag).committedSubDagsByIndexV2.toList =
      (ConsensusStore.empty.persist commits).committedSubDagsByIndexV2.toList ++
        [commit.entry] := by
    apply Map.toList_insert_of_lt
    intro entry listed
    rw [persisted.storedSubDags] at listed
    obtain ⟨earlier, isEarlier, rfl⟩ := mem_map.mp listed
    have numbered : earlier.subDag.subDagIndex ∈ List.range' 1 commits.length := by
      rw [← persisted.recorded.wellFormed.numbered]
      exact mem_map_of_mem isEarlier
    have index : commit.subDag.subDagIndex = commits.length + 1 := by
      rw [isCommit, ← persisted.recorded.nextIndex]
      rfl
    rw [mem_range'_1] at numbered
    exact Nat.compare_eq_lt.mpr (by
      change earlier.subDag.subDagIndex < commit.subDag.subDagIndex
      omega)
  subst isCommit
  refine ⟨recorded, sane, ?_, ?_, ?_, ?_, ?_, ?_, ?_, ?_⟩
  · simp [lastRoundAfter]
  · simp [lastSubDagAfter, Ledger.commit]
  · have earlier := persisted.swapTable
    unfold swapTableAfter at earlier ⊢
    rw [foldlM_append, earlier]
    change (Prod.fst <$> bullshark.updateLeaderSchedule before.leaderSwapTable
      leader.round scores) >>= pure = _
    rw [scheduled]
    rfl
  · refine ⟨leader.origin, le_antisymm (sane.bounded _) ?_⟩
    change (sequence.foldl Ledger.update before).lastRound.committedRound ≤ _
    rw [commits'.committedRound]
    exact Ledger.round_le_foldl_update commits'.flattened.leaderFound
  · rw [persist_snoc]
    change (ConsensusStore.empty.persist commits).lastCommitted ∪ _ = _
    rw [persisted.storedLastCommitted]
    exact Map.union_eq_right fun _ => Ledger.isSome_foldl_update
  · rw [persist_snoc, lastListed, persisted.storedSubDags, map_append]
    rfl
  · rw [persist_snoc]
    exact persisted.storedOlder
  · rw [persist_snoc]
    exact fromStore_write lastListed persisted.storedSwapTable scheduled

/-- Everything in the store follows from the trace of the commits. -/
theorem persisted_of_trace (depth : 0 < gcDepth)
    (trace : Trace (bullshark.NextCommit history) (Ledger.new gcDepth) commits ledger) :
    bullshark.Persisted history gcDepth commits ledger := by
  have preserved := trace.preserve (bullshark.Persisted history gcDepth)
    (fun _ _ _ _ persisted next => persisted.step next)
    (persisted_new bullshark history depth)
  simpa using preserved

section

variable (persisted : bullshark.Persisted history gcDepth commits ledger)

include persisted

theorem Persisted.getLatestSubDag_eq :
    (ConsensusStore.empty.persist commits).getLatestSubDag =
      ledger.lastCommittedSubDag.map fun subDag => .v2 (.fromSubDag subDag) := by
  rw [ConsensusStore.getLatestSubDag, persisted.storedSubDags,
    persisted.storedOlder, persisted.lastSubDag, lastSubDagAfter, getLast?_map]
  cases commits.getLast? <;> rfl

/-- A restart rebuilds the ledger and a graph of all stored certificates. -/
theorem Persisted.spawn_spec (sound : certStore.Sound history)
    (closed : ∀ certificate, certStore.Stored certificate →
      ledger.lastRound.gcRound + 1 < certificate.round → ∀ parent,
        history.Parent certificate parent → certStore.Stored parent)
    (stored : ∀ commit ∈ commits, ∀ certificate ∈ commit.subDag.certificates,
      certStore.Stored certificate) :
    ∃ node, bullshark.spawn gcDepth (ConsensusStore.empty.persist commits)
        certStore = .ok node ∧
      node.ledger = ledger ∧
      node.Sound bullshark history {certificate | certStore.Stored certificate} := by
  have highest : highestCommittedRound (ConsensusStore.empty.persist commits).readLastCommitted =
        ledger.lastRound.committedRound := by
    rw [ConsensusStore.readLastCommitted, persisted.storedLastCommitted]
    exact highestCommittedRound_eq persisted.sane.bounded persisted.reached
  have rounds : ConsensusRound.newWithGcDepth ledger.lastRound.committedRound
      gcDepth = ledger.lastRound := by
    rw [ConsensusRound.newWithGcDepth, ← persisted.recorded.depth, ← persisted.sane.gc]
  have noMismatch : ((ConsensusStore.empty.persist commits).getLatestSubDag.filter
      fun subDag => subDag.leaderRound != ledger.lastRound.committedRound) =
        none := by
    rw [persisted.getLatestSubDag_eq, Option.filter_eq_none_iff]
    intro commit isLatest
    obtain ⟨subDag, isLast, rfl⟩ := Option.map_eq_some_iff.mp isLatest
    have sameRound := (persisted.sane.last subDag isLast).1
    simpa [ConsensusCommit.leaderRound, ConsensusCommitV2.fromSubDag] using sameRound
  have latest : ConsensusState.readLatestSubDag certStore
      (ConsensusStore.empty.persist commits).getLatestSubDag = .ok ledger.lastCommittedSubDag := by
    rw [persisted.getLatestSubDag_eq, persisted.lastSubDag, lastSubDagAfter]
    cases last : commits.getLast? with
    | none => rfl
    | some commit =>
      have isCommit : commit ∈ commits := mem_of_getLast? last
      have leader := mem_of_getLast?
        (persisted.recorded.wellFormed.endsWithLeader commit isCommit).last
      change ConsensusState.readLatestSubDag certStore (some (.v2 (.fromSubDag commit.subDag))) = _
      rw [ConsensusState.readLatestSubDag, ConsensusState.readSubDag_spec
        (stored commit isCommit) leader]
      rfl
  obtain ⟨dag, restored, view, present⟩ :=
    ConsensusState.constructDagFromCertStore_spec sound ledger.lastCommitted closed
  refine ⟨⟨ledger.state dag, ledger.leaderSwapTable, 0⟩, ?_, rfl, persisted.sane, view, ?_, ?_⟩
  · unfold spawn
    simp only [persisted.storedSwapTable, highest, noMismatch]
    unfold ConsensusState.newFromStore
    simp only [rounds, latest, ConsensusStore.readLastCommitted,
      persisted.storedLastCommitted, restored]
    rw [← persisted.recorded.depth]
    rfl
  · exact fun certificate isStored above =>
      (present certificate).mpr ⟨isStored, above⟩
  · exact fun certificate inside => ((present certificate).mp inside).1

end

end Bullshark

/-! ## Crashes and restarts -/

def CertificateStore.certificates (store : CertificateStore) : List Certificate :=
  Map.values store.certificatesById

/-- A validator with its two stores.  `commits` is what it has ever persisted,
and a live validator comes with the certificates that its consensus has been
given. -/
structure Validator where
  certStore : CertificateStore
  store : ConsensusStore
  commits : List CommitRecord
  live : Option (Node × List Certificate)

namespace Validator

/-- A validator that has not been started yet. -/
def new : Validator :=
  ⟨CertificateStore.empty, ConsensusStore.empty, [], none⟩

/-- The garbage collection round that the store implies. -/
def gcRound (gcDepth : Nat) (validator : Validator) : Nat :=
  Narwhal.gcRound (highestCommittedRound validator.store.readLastCommitted) gcDepth

/-- The validator after some commits were persisted. -/
def persist (validator : Validator) (commits : List CommitRecord)
    (live : Option (Node × List Certificate)) : Validator where
  certStore := validator.certStore
  store := validator.store.persist commits
  commits := validator.commits ++ commits
  live := live

/-- What can happen to a validator. -/
inductive Step
    (bullshark : Bullshark)
    (history : CertificateSet)
    (gcDepth : Nat) : Validator → Validator → Prop
  /-- A certificate is stored, after its parents unless they are garbage
  collected. -/
  | store {validator : Validator} {certificate : Certificate} :
      certificate ∈ history →
      (validator.gcRound gcDepth + 1 < certificate.round →
        ∀ parent, history.Parent certificate parent → validator.certStore.Stored parent) →
      Step bullshark history gcDepth validator
        { validator with certStore := validator.certStore.write certificate }
  | process {validator : Validator} {node next : Node}
      {known : List Certificate} {certificate : Certificate}
      {outcome : Outcome} :
      validator.live = some (node, known) →
      validator.certStore.Stored certificate →
      (node.state.lastRound.gcRound + 1 < certificate.round →
        ∀ parent, history.Parent certificate parent → parent ∈ known) →
      (bullshark.processCertificate certificate node).result = .ok (outcome, next) →
      Step bullshark history gcDepth validator (validator.persist
        (bullshark.processCertificate certificate node).emitted
        (some (next, certificate :: known)))
  /-- The validator stops while it processes a certificate, because it crashes
  or panics.  Only some of the commits are persisted. -/
  | interrupt {validator : Validator} {node : Node} {known : List Certificate}
      {certificate : Certificate} (count : Nat) :
      validator.live = some (node, known) →
      validator.certStore.Stored certificate →
      (node.state.lastRound.gcRound + 1 < certificate.round →
        ∀ parent, history.Parent certificate parent → parent ∈ known) →
      Step bullshark history gcDepth validator (validator.persist
        ((bullshark.processCertificate certificate node).emitted.take count)
        none)
  | crash {validator : Validator} :
      Step bullshark history gcDepth validator { validator with live := none }
  | restart {validator : Validator} {node : Node} :
      validator.live = none →
      bullshark.spawn gcDepth validator.store validator.certStore = .ok node →
      Step bullshark history gcDepth validator
        { validator with live := some (node, validator.certStore.certificates) }

/-- The validators that crashes and restarts lead to. -/
def Reachable (bullshark : Bullshark) (history : CertificateSet)
    (gcDepth : Nat) : Validator → Prop :=
  Relation.ReflTransGen (Step bullshark history gcDepth) new

variable {bullshark : Bullshark} {history : CertificateSet} {gcDepth : Nat}

/-- What holds of a validator whose commits led to a ledger. -/
structure Consistent
    (bullshark : Bullshark)
    (history : CertificateSet)
    (gcDepth : Nat)
    (validator : Validator)
    (ledger : Ledger) : Prop where
  sound : validator.certStore.Sound history
  closed : ∀ certificate, validator.certStore.Stored certificate →
    ledger.lastRound.gcRound + 1 < certificate.round → ∀ parent,
      history.Parent certificate parent → validator.certStore.Stored parent
  persisted : validator.store = ConsensusStore.empty.persist validator.commits
  trace : Trace (bullshark.NextCommit history) (Ledger.new gcDepth)
    validator.commits ledger
  committed : ∀ commit ∈ validator.commits, ∀ certificate ∈ commit.subDag.certificates,
      validator.certStore.Stored certificate
  running : ∀ node known, validator.live = some (node, known) →
    node.Sound bullshark history {certificate | certificate ∈ known} ∧ node.ledger = ledger ∧
      ∀ certificate ∈ known, validator.certStore.Stored certificate

/-- A new validator is consistent. -/
theorem consistent_new (bullshark : Bullshark) (history : CertificateSet) (gcDepth : Nat) :
    new.Consistent bullshark history gcDepth (Ledger.new gcDepth) where
  sound := CertificateStore.sound_empty history
  closed := by
    intro certificate stored
    simp [new, CertificateStore.empty, CertificateStore.Stored, CertificateStore.read] at stored
  persisted := rfl
  trace := .nil _
  committed := by simp [new]
  running := by simp [new]

/-- Garbage collection advances with every commit. -/
theorem gcRound_le_of_trace {commits : List CommitRecord}
    (trace : Trace (bullshark.NextCommit history) before commits after) :
    before.lastRound.gcRound ≤ after.lastRound.gcRound := by
  apply trace.invariant (fun ledger => before.lastRound.gcRound ≤ ledger.lastRound.gcRound) _ le_rfl
  intro middle commit next reached step
  have sane := step.sane
  obtain ⟨leader, sequence, scores, table, commits, rfl, rfl⟩ := step.exists_commits
  rw [sane.gc]
  change _ ≤ Narwhal.gcRound (sequence.foldl Ledger.update middle).lastRound.committedRound
    (sequence.foldl Ledger.update middle).gcDepth
  rw [commits.committedRound, Ledger.foldl_update_gcDepth]
  exact le_trans reached commits.gc_le

namespace Consistent

variable {validator : Validator} {ledger : Ledger}

variable (consistent : validator.Consistent bullshark history gcDepth ledger)

include consistent

theorem gcRound_eq (depth : 0 < gcDepth) :
    validator.gcRound gcDepth = ledger.lastRound.gcRound := by
  have persisted := Bullshark.persisted_of_trace depth consistent.trace
  rw [gcRound, consistent.persisted, ConsensusStore.readLastCommitted,
    persisted.storedLastCommitted, persisted.sane.gc, persisted.recorded.depth,
    highestCommittedRound_eq persisted.sane.bounded persisted.reached]

/-- A restart succeeds with the ledger of the commits. -/
theorem spawn_spec (depth : 0 < gcDepth) :
    ∃ node, bullshark.spawn gcDepth validator.store validator.certStore = .ok node ∧
      node.ledger = ledger ∧
      node.Sound bullshark history
        {certificate | validator.certStore.Stored certificate} := by
  rw [consistent.persisted]
  exact (Bullshark.persisted_of_trace depth consistent.trace).spawn_spec
    consistent.sound consistent.closed consistent.committed

/-- Storing a certificate keeps the validator consistent. -/
theorem store (member : certificate ∈ history)
    (parents : ledger.lastRound.gcRound + 1 < certificate.round →
      ∀ parent, history.Parent certificate parent → validator.certStore.Stored parent) :
    Consistent bullshark history gcDepth
      { validator with certStore := validator.certStore.write certificate }
      ledger := by
  have stored_iff := consistent.sound.stored_write_iff member
  have kept : ∀ other, validator.certStore.Stored other →
      (validator.certStore.write certificate).Stored other :=
    fun other stored => (stored_iff other).mpr (.inl stored)
  refine ⟨consistent.sound.write member, ?_, consistent.persisted, consistent.trace, ?_, ?_⟩
  · intro other stored above parent step
    apply kept
    rcases (stored_iff other).mp stored with earlier | rfl
    · exact consistent.closed other earlier above parent step
    · exact parents above parent step
  · exact fun commit isCommit other listed =>
      kept other (consistent.committed commit isCommit other listed)
  · intro node known live
    obtain ⟨sound, sameLedger, stored⟩ := consistent.running node known live
    exact ⟨sound, sameLedger, fun other isKnown => kept other (stored other isKnown)⟩

/-- Persisting commits keeps the validator consistent. -/
theorem persist {commits : List CommitRecord}
    (delivered_stored : ∀ certificate ∈ delivered, validator.certStore.Stored certificate)
    (trace : Trace (bullshark.NextCommitFrom history delivered) ledger commits after)
    {live : Option (Node × List Certificate)}
    (running : ∀ node known, live = some (node, known) →
      node.Sound bullshark history {certificate | certificate ∈ known} ∧ node.ledger = after ∧
        ∀ certificate ∈ known, validator.certStore.Stored certificate) :
    (validator.persist commits live).Consistent bullshark history gcDepth
      after := by
  have next : Trace (bullshark.NextCommit history) ledger commits after :=
    trace.mono fun _ _ _ step => step.1
  have stored : ∀ commit ∈ commits, ∀ certificate ∈ commit.subDag.certificates,
      certificate ∈ delivered :=
    trace.forall_mem fun _ _ _ step => step.2
  have advances := gcRound_le_of_trace next
  refine ⟨consistent.sound, ?_, ?_, consistent.trace.append next, ?_, running⟩
  · exact fun certificate isStored above =>
      consistent.closed certificate isStored (by omega)
  · change validator.store.persist commits = _
    rw [consistent.persisted]
    exact (foldl_append ..).symm
  · exact forall_mem_append.mpr ⟨consistent.committed, fun commit later certificate listed =>
      delivered_stored certificate (stored commit later certificate listed)⟩

/-- The certificate that is processed next, with those that the running
consensus was given. -/
theorem delivered_stored
    (live : validator.live = some (node, known)) (stored : validator.certStore.Stored certificate) :
    ∀ other ∈ insert certificate {certificate | certificate ∈ known},
      validator.certStore.Stored other := by
  rintro other (rfl | isKnown)
  · exact stored
  · exact (consistent.running node known live).2.2 other isKnown

/-- A running validator emits the next commits. -/
theorem processCertificate_follows
    (live : validator.live = some (node, known)) (stored : validator.certStore.Stored certificate)
    (parents : node.state.lastRound.gcRound + 1 < certificate.round →
      ∀ parent, history.Parent certificate parent → parent ∈ known) :
    Emit.Follows (bullshark.NextCommitFrom history
        (insert certificate {certificate | certificate ∈ known})) ledger
      (bullshark.processCertificate certificate node)
      (fun result after => result.2.Sound bullshark history
          (insert certificate {certificate | certificate ∈ known}) ∧
        result.2.ledger = after)
      (fun failure _ => bullshark.Excused history failure) := by
  obtain ⟨sound, rfl, _⟩ := consistent.running node known live
  exact Bullshark.processCertificate_follows sound (consistent.sound.mem stored) parents

/-- Everything that happens to a consistent validator leaves it consistent. -/
theorem step (depth : 0 < gcDepth) {next : Validator}
    (step : Step bullshark history gcDepth validator next) :
    ∃ after, next.Consistent bullshark history gcDepth after := by
  cases step with
  | store member parents =>
    rw [consistent.gcRound_eq depth] at parents
    exact ⟨ledger, consistent.store member parents⟩
  | @process node next known certificate outcome live stored parents processed =>
    obtain ⟨after, trace, onReturn, _⟩ := consistent.processCertificate_follows live stored parents
    obtain ⟨sound, sameLedger⟩ := onReturn _ processed
    have delivered := consistent.delivered_stored live stored
    refine ⟨after, consistent.persist delivered trace ?_⟩
    intro node' known' isLive
    cases isLive
    have sameSet : insert certificate {certificate | certificate ∈ known} =
        {other | other ∈ certificate :: known} := by
      ext other
      simp
    rw [sameSet] at sound delivered
    exact ⟨sound, sameLedger, delivered⟩
  | interrupt count live stored parents =>
    obtain ⟨_, trace, _⟩ := consistent.processCertificate_follows live stored parents
    obtain ⟨after, taken⟩ := trace.take count
    refine ⟨after, consistent.persist (consistent.delivered_stored live stored) taken ?_⟩
    intro node' known' isLive
    cases isLive
  | crash =>
    exact ⟨ledger, { consistent with running := by simp }⟩
  | @restart node dead spawned =>
    obtain ⟨node', spawned', sameLedger, sound⟩ := consistent.spawn_spec depth
    rw [spawned] at spawned'
    cases spawned'
    have stored_iff : ∀ certificate, certificate ∈ validator.certStore.certificates ↔
          validator.certStore.Stored certificate := by
      intro certificate
      rw [CertificateStore.certificates, Map.mem_values_iff]
      constructor
      · rintro ⟨digest, found⟩
        obtain rfl := (consistent.sound.filed digest certificate found).2
        exact found
      · exact fun stored => ⟨certificate.digest, stored⟩
    refine ⟨ledger, { consistent with running := ?_ }⟩
    intro node' known isLive
    cases isLive
    refine ⟨?_, sameLedger, fun certificate listed =>
      (stored_iff certificate).mp listed⟩
    simpa only [stored_iff] using sound

end Consistent

theorem Reachable.consistent {validator : Validator}
    (reachable : validator.Reachable bullshark history gcDepth) (depth : 0 < gcDepth) :
    ∃ ledger, validator.Consistent bullshark history gcDepth ledger := by
  induction reachable with
  | refl => exact ⟨_, consistent_new bullshark history gcDepth⟩
  | tail _ step ih =>
    obtain ⟨_, consistent⟩ := ih
    exact consistent.step depth step

end Validator

/-- The consensus is in the state right after a sequence of commits. -/
structure Node.HoldsCommits
    (bullshark : Bullshark)
    (commits : List CommitRecord)
    (node : Node) : Prop where
  lastCommitted : node.state.lastCommitted = lastCommittedAfter commits
  lastRound : node.state.lastRound = lastRoundAfter commits
  lastCommittedSubDag : node.state.lastCommittedSubDag = lastSubDagAfter commits
  nextSubDagIndex : node.state.nextSubDagIndex = commits.length + 1
  leaderSwapTable : bullshark.swapTableAfter commits = .ok node.leaderSwapTable

/-- What is persisted is what a restarted validator reads. -/
theorem Bullshark.Persisted.holdsCommits {node : Node}
    (persisted : bullshark.Persisted history gcDepth commits node.ledger) :
    node.HoldsCommits bullshark commits where
  lastCommitted := persisted.recorded.lastCommitted
  lastRound := persisted.lastRound
  lastCommittedSubDag := persisted.lastSubDag
  nextSubDagIndex := persisted.recorded.nextIndex
  leaderSwapTable := persisted.swapTable

namespace Bullshark

/-- At any time a restart would put a validator in the state right after its last
persisted commit.  A running consensus is in that state too, and all commits that
the validator has ever persisted agree with a validator that never crashed. -/
theorem spawn_holdsCommits (bullshark : Bullshark) (history : CertificateSet)
    (quorum : history.HasQuorumParents bullshark.committee) (gcDepth : Nat) (depth : 1 ≤ gcDepth)
    (validator : Validator) (reachable : validator.Reachable bullshark history gcDepth) :
    (∃ node, bullshark.spawn gcDepth validator.store validator.certStore =
        .ok node ∧ node.HoldsCommits bullshark validator.commits) ∧
    (∀ node known, validator.live = some (node, known) →
      node.HoldsCommits bullshark validator.commits) ∧
    ∀ deliveries, history.CausallyOrdered deliveries → validator.commits.map CommitRecord.subDag <+:
          bullshark.outputs deliveries (Node.new gcDepth) ∨
        bullshark.outputs deliveries (Node.new gcDepth) <+:
          validator.commits.map CommitRecord.subDag := by
  obtain ⟨ledger, consistent⟩ := reachable.consistent depth
  have persisted := persisted_of_trace depth consistent.trace
  refine ⟨?_, ?_, ?_⟩
  · obtain ⟨node, spawned, rfl, _⟩ := consistent.spawn_spec depth
    exact ⟨node, spawned, persisted.holdsCommits⟩
  · intro node known live
    obtain ⟨_, rfl, _⟩ := consistent.running node known live
    exact persisted.holdsCommits
  · intro deliveries ordered
    obtain ⟨_, trace⟩ := run_trace bullshark ordered depth
    have written := outputs_isPrefix_run bullshark deliveries (Node.new gcDepth)
    rcases consistent.trace.prefix_or_prefix (nextCommit_functional quorum) trace
      with shorter | longer
    · exact prefix_or_prefix_of_prefix (shorter.map CommitRecord.subDag) written
    · exact .inr (written.trans (longer.map CommitRecord.subDag))

/-- The validator of the committee of one with the certificates of the first
rounds in its store. -/
def soloStored (rounds : Nat) : Validator :=
  { Validator.new with
    certStore := (soloDeliveries rounds).foldl CertificateStore.write .empty }

theorem soloStored_certStore_succ (rounds : Nat) :
    (soloStored (rounds + 1)).certStore =
      (soloStored rounds).certStore.write (soloCertificate (rounds + 1)) := by
  simp [soloStored, soloDeliveries, range_succ]

/-- The certificates of the first rounds are stored. -/
theorem soloStored_stored {round rounds : Nat} (below : round < rounds) :
    (soloStored rounds).certStore.Stored (soloCertificate (round + 1)) := by
  induction rounds with
  | zero => omega
  | succ rounds ih =>
    rw [CertificateStore.Stored, soloStored_certStore_succ, CertificateStore.read_write]
    split
    · next same =>
      exact congrArg (fun digest => some (soloCertificate digest)) same
    · next different =>
      apply ih
      have : rounds ≠ round := by
        rintro rfl
        exact different rfl
      omega

/-- The certificates can be stored one after the other. -/
theorem soloStored_reachable (rounds : Nat) :
    (soloStored rounds).Reachable soloBullshark soloHistory 4 := by
  induction rounds with
  | zero => exact .refl
  | succ rounds ih =>
    refine ih.tail ?_
    have step : Validator.Step soloBullshark soloHistory 4 (soloStored rounds)
        { soloStored rounds with certStore := (soloStored
          rounds).certStore.write (soloCertificate (rounds + 1)) } := by
      refine .store ⟨rounds, rfl⟩ ?_
      rintro _ parent step
      obtain ⟨round, rfl⟩ := step.mem
      have below : round + 1 + 1 = rounds + 1 := step.below
      exact soloStored_stored (by omega)
    rwa [← soloStored_certStore_succ] at step

/-- The consensus restarted with the certificates of the first rounds. -/
def soloRestarted (rounds : Nat) : Node :=
  (soloBullshark.spawn 4 (soloStored rounds).store (soloStored rounds).certStore).toOption.getD
    (Node.new 4)

/-- The validator after a crash while it processes the last certificate once more and has
persisted some commits. -/
def soloCrashed (rounds count : Nat) : Validator :=
  (soloStored rounds).persist ((soloBullshark.processCertificate (soloCertificate rounds)
    (soloRestarted rounds)).emitted.take count) none

/-- The validator can crash after any of its commits. -/
theorem soloCrashed_reachable (rounds count : Nat) :
    (soloCrashed (rounds + 1) count).Reachable soloBullshark soloHistory 4 := by
  obtain ⟨_, consistent⟩ := (soloStored_reachable (rounds + 1)).consistent (by decide)
  obtain ⟨node, spawned, _⟩ := consistent.spawn_spec (by decide)
  have restarted : soloRestarted (rounds + 1) = node := by
    rw [soloRestarted, spawned]
    rfl
  refine ((soloStored_reachable (rounds + 1)).tail (.restart rfl spawned)).tail ?_
  rw [soloCrashed, restarted]
  refine .interrupt count rfl (soloStored_stored (Nat.lt_succ_self rounds)) ?_
  intro _ parent step
  obtain ⟨round, rfl⟩ := step.mem
  have below : round + 1 + 1 = rounds + 1 := step.below
  exact (Map.mem_values_iff _ _).mpr ⟨round + 1, soloStored_stored (by omega)⟩

/-- A crash right after the first commit of the committee of one. -/
theorem spawn_holdsCommits_solo :
    (soloCrashed 3 1).commits.length = 1 ∧
    ∃ node, soloBullshark.spawn 4 (soloCrashed 3 1).store (soloCrashed 3 1).certStore =
      .ok node ∧ node.HoldsCommits soloBullshark (soloCrashed 3 1).commits :=
  ⟨by decide +kernel, (spawn_holdsCommits soloBullshark soloHistory
    soloHistory_hasQuorumParents 4 (by decide) (soloCrashed 3 1) (soloCrashed_reachable 2 1)).1⟩

/-- Whatever the crashes of two validators, the commits of one continue those of the
other, and no restart repeats or skips a commit. -/
theorem commits_agree_of_reachable (bullshark : Bullshark) (history : CertificateSet)
    (quorum : history.HasQuorumParents bullshark.committee) (gcDepth : Nat) (depth : 1 ≤ gcDepth)
    (left right : Validator) (leftReachable : left.Reachable bullshark history gcDepth)
    (rightReachable : right.Reachable bullshark history gcDepth) :
    (left.commits <+: right.commits ∨ right.commits <+: left.commits) ∧
      WellFormedCommits history gcDepth left.commits := by
  obtain ⟨_, leftConsistent⟩ := leftReachable.consistent depth
  obtain ⟨_, rightConsistent⟩ := rightReachable.consistent depth
  constructor
  · apply leftConsistent.trace.prefix_or_prefix (nextCommit_functional quorum)
    exact rightConsistent.trace
  · exact (recorded_of_trace leftConsistent.trace).wellFormed

/-- One life ends after three commits, the other one has fewer certificates and ends after its
only commit. -/
theorem commits_agree_of_reachable_solo :
    (soloCrashed 7 3).commits.length = 3 ∧ (soloCrashed 3 1).commits.length = 1 ∧
      (soloCrashed 7 3).Reachable soloBullshark soloHistory 4 ∧
      (soloCrashed 3 1).Reachable soloBullshark soloHistory 4 ∧
      ((soloCrashed 7 3).commits <+: (soloCrashed 3 1).commits ∨
        (soloCrashed 3 1).commits <+: (soloCrashed 7 3).commits) ∧
      WellFormedCommits soloHistory 4 (soloCrashed 7 3).commits :=
  ⟨by decide +kernel, by decide +kernel, soloCrashed_reachable 6 3, soloCrashed_reachable 2 1,
    commits_agree_of_reachable soloBullshark soloHistory soloHistory_hasQuorumParents 4 (by decide)
      (soloCrashed 7 3) (soloCrashed 3 1) (soloCrashed_reachable 6 3) (soloCrashed_reachable 2 1)⟩

end Bullshark

end Sui.Narwhal
