import Sui.Library.Worklist
import Sui.Narwhal.Types
import Sui.Library.Run

/-!
# The consensus state and Bullshark

The in-memory certificate graph, the record of what has been committed, the
insertion of a certificate and the flattening of the graph below a leader.

The iteration orders of the source's hash maps do not show: every loop over the
certificates of a round either sums, tests membership or searches for a digest.
-/

namespace Sui.Narwhal

open Std (ExtTreeMap)

/-- A failed `expect`, `unwrap` or assertion. -/
inductive Panic
  | parentDigestNotFound (parent : CertificateDigest) (certificate : Certificate)
  | parentRoundNotFound (certificate : Certificate)
  | leaderOfRoundZero
  /-- Flattening does not find a parent. -/
  | orderedParentNotFound (parent : CertificateDigest) (certificate : Certificate)
  | supportingRoundNotFound (round : Nat)
  | linkingRoundNotFound (round : Nat)
  /-- Scores are carried over from a sub-dag that does not exist. -/
  | lastSubDagNotFound
  | scoresOutsideCommittee
  | oddLeaderRound (round : Nat)
  | authorityNotFound (authority : AuthorityIdentifier)
  /-- The share of bad nodes is above a third. -/
  | badNodesStakeThreshold (threshold : Nat)
  | scoresNotFinal
  | noGoodNode
  | latestSubDagRound (leaderRound committedRound : Nat)
  | certificateNotStored
  | certificateStoreInvariant
  deriving DecidableEq

/-- The ways in which a consensus function does not return. -/
inductive Failure
  | panic (reason : Panic)
  | certificateEquivocation (certificate existing : Certificate)
  /-- The bound of a loop was too small; no run meets this. -/
  | outOfFuel
  deriving DecidableEq

/-- The certificates of one round by origin, with their digests. -/
abbrev RoundTable :=
  ExtTreeMap AuthorityIdentifier (CertificateDigest × Certificate)

/-- The certificates in memory by round. -/
abbrev Dag := ExtTreeMap Nat RoundTable

/-- The last committed round of each authority. -/
abbrev LastCommitted := ExtTreeMap AuthorityIdentifier Nat

/-- The round up to which certificates are garbage collected. -/
def gcRound (commitRound gcDepth : Nat) : Nat :=
  commitRound - gcDepth

/-- The last committed round and the garbage collection round it implies. -/
structure ConsensusRound where
  committedRound : Nat
  /-- The round up to which certificates are garbage collected. -/
  gcRound : Nat
  deriving DecidableEq

namespace ConsensusRound

/-- No round is committed. -/
def default : ConsensusRound :=
  ⟨0, 0⟩

/-- The rounds after a commit at `committedRound`. -/
def newWithGcDepth (committedRound gcDepth : Nat) : ConsensusRound :=
  ⟨committedRound, Narwhal.gcRound committedRound gcDepth⟩

/-- The rounds after one more certificate is committed. -/
def update (last : ConsensusRound) (newCommittedRound gcDepth : Nat) :
    ConsensusRound :=
  newWithGcDepth (max last.committedRound newCommittedRound) gcDepth

end ConsensusRound

structure ConsensusState where
  lastRound : ConsensusRound
  /-- The number of rounds kept below the committed round. -/
  gcDepth : Nat
  lastCommitted : LastCommitted
  lastCommittedSubDag : Option CommittedSubDag
  dag : Dag

namespace ConsensusState

/-- The state before anything is committed. -/
def new (gcDepth : Nat) : ConsensusState where
  lastRound := ConsensusRound.default
  gcDepth := gcDepth
  lastCommitted := ∅
  lastCommittedSubDag := none
  dag := ∅

/-- Panic unless the parents of a certificate are in the graph.  Parents that
are garbage collected and genesis parents are not checked. -/
def checkParents (certificate : Certificate) (dag : Dag) (gcRound : Nat) : Except Failure Unit :=
  if certificate.round ≤ gcRound + 1 then
    .ok ()
  else
    match dag[certificate.round - 1]? with
    | none => .error (.panic (.parentRoundNotFound certificate))
    | some roundTable =>
      let storeParents := (Library.Map.values roundTable).map Prod.fst
      match certificate.parents.find? fun parent =>
          !storeParents.contains parent with
      | some parent =>
        .error (.panic (.parentDigestNotFound parent certificate))
      | none => .ok ()

/-- Insert a certificate in a graph.  The flag tells whether the certificate is
above the last committed round of its origin. -/
def tryInsertInDag (dag : Dag) (lastCommitted : LastCommitted) (gcRound : Nat)
    (certificate : Certificate) : Except Failure (Dag × Bool) :=
  if certificate.round ≤ gcRound then
    .ok (dag, false)
  else
    match checkParents certificate dag gcRound with
    | .error failure => .error failure
    | .ok () =>
      let roundTable := dag.getD certificate.round ∅
      let inserted := dag.insert certificate.round
        (roundTable.insert certificate.origin (certificate.digest, certificate))
      let above :=
        decide (lastCommitted.getD certificate.origin 0 < certificate.round)
      match roundTable[certificate.origin]? with
      | some (_, existing) =>
        if existing.digest ≠ certificate.digest then
          .error (.certificateEquivocation certificate existing)
        else
          .ok (inserted, above)
      | none => .ok (inserted, above)

/-- Insert a certificate in the graph of the state. -/
def tryInsert (state : ConsensusState) (certificate : Certificate) :
    Except Failure (ConsensusState × Bool) :=
  match tryInsertInDag state.dag state.lastCommitted state.lastRound.gcRound
      certificate with
  | .error failure => .error failure
  | .ok (dag, inserted) => .ok ({ state with dag := dag }, inserted)

/-- Record a committed certificate and purge what is garbage collected. -/
def update (state : ConsensusState) (certificate : Certificate) :
    ConsensusState :=
  let lastRound := state.lastRound.update certificate.round state.gcDepth
  { state with
    lastCommitted := state.lastCommitted.alter certificate.origin fun
      | some round => some (max round certificate.round)
      | none => some certificate.round
    lastRound := lastRound
    dag := state.dag.filter fun round _ => decide (lastRound.gcRound < round) }

/-- The index of the next committed sub-dag. -/
def nextSubDagIndex (state : ConsensusState) : Nat :=
  state.lastCommittedSubDag.elim 0 CommittedSubDag.subDagIndex + 1

end ConsensusState

/-! ## Flattening the graph below a leader -/

/-- The certificate with a given digest in the round below `child`. -/
def findParent (dag : Dag) (child : Certificate)
    (parent : CertificateDigest) : Option (CertificateDigest × Certificate) :=
  dag[child.round - 1]?.bind fun roundTable =>
    (Library.Map.values roundTable).find? fun entry => entry.1 == parent

/-- Whether a certificate is at or below the last committed round of its
origin. -/
def alreadyCommitted (lastCommitted : LastCommitted) (certificate : Certificate) : Bool :=
  match lastCommitted[certificate.origin]? with
  | some round => decide (certificate.round ≤ round)
  | none => false

/-- Push the parents of `child` that are neither discovered nor committed.  The
result lists the pushed certificates from the top of the stack down. -/
def pushParents (state : ConsensusState) (child : Certificate) :
    List CertificateDigest → List Certificate → List CertificateDigest →
      Except Failure (List Certificate × List CertificateDigest)
  | [], pushed, alreadyOrdered => .ok (pushed, alreadyOrdered)
  | parent :: parents, pushed, alreadyOrdered =>
    match findParent state.dag child parent with
    | none => .error (.panic (.orderedParentNotFound parent child))
    | some (digest, certificate) =>
      if alreadyOrdered.contains digest ||
          alreadyCommitted state.lastCommitted certificate then
        pushParents state child parents pushed alreadyOrdered
      else
        pushParents state child parents (certificate :: pushed)
          (digest :: alreadyOrdered)

/-- Replace a certificate on the stack by its parents, unless these are garbage
collected. -/
def expandParents (state : ConsensusState) (gcRound : Nat) (alreadyOrdered : List CertificateDigest)
    (certificate : Certificate) :
    Except Failure (List Certificate × List CertificateDigest) :=
  if certificate.round = gcRound + 1 then
    .ok ([], alreadyOrdered)
  else
    pushParents state certificate certificate.parents [] alreadyOrdered

/-- The digests of all certificates in memory. -/
def dagDigests (dag : Dag) : List CertificateDigest :=
  (Library.Map.values dag).flatMap fun roundTable =>
    (Library.Map.values roundTable).map Prod.fst

/-- The certificates that a leader commits, by depth-first search from the
leader and then in the order of their rounds.  Each certificate in memory is
pushed at most once, which bounds the search. -/
def orderDag (leader : Certificate) (state : ConsensusState) :
    Except Failure (List Certificate) :=
  if leader.round = 0 then
    .error (.panic .leaderOfRoundZero)
  else
    match Library.drain .outOfFuel
        (expandParents state (gcRound leader.round state.gcDepth))
        ((dagDigests state.dag).length + 2) [leader] [] with
    | .error failure => .error failure
    | .ok ordered =>
      .ok (ordered.insertionSort fun left right => left.round ≤ right.round)

/-! ## Leaders

Leaders are elected by a stake-weighted choice that the round seeds.  A leader of the swap
table is replaced by one of the authorities with the best scores. -/

/-- The two seeded random choices.  Both are deterministic functions of their
seed, and choose among the given authorities. -/
structure Election where
  /-- The stake-weighted choice of an authority of the committee. -/
  leader : Committee → Nat → Authority
  leader_mem : ∀ committee seed, leader committee seed ∈ committee.authorities
  /-- The uniform choice of an element of a slice. -/
  choose : List Authority → Nat → Option Authority
  choose_mem : ∀ nodes seed node, choose nodes seed = some node → node ∈ nodes
  choose_isSome : ∀ nodes seed, nodes ≠ [] → (choose nodes seed).isSome

/-- The authorities to swap out of the schedule and those to swap in. -/
structure LeaderSwapTable where
  /-- The round from which the table is in effect. -/
  round : Nat
  goodNodes : List Authority
  badNodes : ExtTreeMap AuthorityIdentifier Authority

namespace LeaderSwapTable

/-- The table that swaps nothing. -/
def default : LeaderSwapTable :=
  ⟨0, [], ∅⟩

/-- The first authorities whose accumulated stake stays within a percentage of
the total stake. -/
def retrieveFirstNodes (committee : Committee) (stakeThreshold : Nat) :
    Nat → List (AuthorityIdentifier × Nat) → Except Failure (List Authority)
  | _, [] => .ok []
  | stake, (id, _) :: authorities =>
    let stake := stake + committee.stakeById id
    if stakeThreshold * committee.totalStake / 100 < stake then
      .ok []
    else
      match committee.authority id with
      | none => .error (.panic (.authorityNotFound id))
      | some authority =>
        match retrieveFirstNodes committee stakeThreshold stake
            authorities with
        | .error failure => .error failure
        | .ok nodes => .ok (authority :: nodes)

/-- The table for the final scores of a schedule. -/
def new (committee : Committee) (round : Nat) (reputationScores : ReputationScores)
    (badNodesStakeThreshold : Nat) : Except Failure LeaderSwapTable :=
  if ¬ badNodesStakeThreshold ≤ 33 then
    .error (.panic (.badNodesStakeThreshold badNodesStakeThreshold))
  else if reputationScores.finalOfSchedule = false then
    .error (.panic .scoresNotFinal)
  else
    match retrieveFirstNodes committee badNodesStakeThreshold 0
        reputationScores.authoritiesByScoreDesc with
    | .error failure => .error failure
    | .ok goodNodes =>
      match retrieveFirstNodes committee badNodesStakeThreshold 0
          reputationScores.authoritiesByScoreDesc.reverse with
      | .error failure => .error failure
      | .ok badNodes =>
        .ok {
          round := round
          goodNodes := goodNodes
          badNodes := .ofList
            (badNodes.map fun authority => (authority.id, authority)) }

/-- The authority to take the place of a leader, if the leader is bad. -/
def swap (election : Election) (table : LeaderSwapTable) (leader : AuthorityIdentifier)
    (leaderRound : Nat) : Except Failure (Option Authority) :=
  if table.badNodes.contains leader then
    match election.choose table.goodNodes leaderRound with
    | some goodNode => .ok (some goodNode)
    | none => .error (.panic .noGoodNode)
  else
    .ok none

end LeaderSwapTable

namespace LeaderSchedule

/-- The leader of an even round. -/
def leader (committee : Committee) (election : Election) (table : LeaderSwapTable)
    (round : Nat) : Except Failure Authority :=
  if round % 2 ≠ 0 then
    .error (.panic (.oddLeaderRound round))
  else
    let leader := election.leader committee round
    match table.swap election leader.id round with
    | .error failure => .error failure
    | .ok swapped => .ok (swapped.getD leader)

/-- The leader of an even round with its certificate, if that is in memory. -/
def leaderCertificate (committee : Committee) (election : Election) (table : LeaderSwapTable)
    (round : Nat) (dag : Dag) : Except Failure (Authority × Option Certificate) :=
  match leader committee election table round with
  | .error failure => .error failure
  | .ok leader =>
    .ok (leader, (dag[round]?.bind fun roundTable =>
      roundTable[leader.id]?).map Prod.snd)

end LeaderSchedule

namespace LowScoring

/-- The authorities that are flagged, from the lowest score on.  The loop goes on after the
first one that is not. -/
def flagged (committee : Committee) (stakeThreshold : Nat) :
    Nat → List (AuthorityIdentifier × Nat) → Except Failure (List (PublicKey × Nat))
  | _, [] => .ok []
  | totalStake, (id, score) :: authorities =>
    match committee.authority id with
    | none => .error (.panic (.authorityNotFound id))
    | some authority =>
      let totalStake := totalStake + authority.stake
      match flagged committee stakeThreshold totalStake authorities with
      | .error failure => .error failure
      | .ok rest =>
        .ok (if totalStake ≤ stakeThreshold * committee.totalStake / 100 then
          (authority.protocolKey, score) :: rest else rest)

/-- The authorities with low scores, by their keys. -/
def updateLowScoringAuthorities (lowScoringAuthorities : ExtTreeMap PublicKey Nat)
    (committee : Committee) (reputationScores : ReputationScores)
    (badNodesStakeThreshold : Nat) : Except Failure (ExtTreeMap PublicKey Nat) :=
  if ¬ badNodesStakeThreshold ≤ 33 then
    .error (.panic (.badNodesStakeThreshold badNodesStakeThreshold))
  else if reputationScores.finalOfSchedule = false then
    .ok lowScoringAuthorities
  else
    match flagged committee badNodesStakeThreshold 0
        reputationScores.authoritiesByScoreDesc.reverse with
    | .error failure => .error failure
    | .ok lowScoring => .ok (.ofList lowScoring)

end LowScoring

/-! ## The commit rule

A certificate of an odd round lets the leader of the round below commit when enough stake of
the odd round supports it.  All earlier leaders that the committed leader is linked to commit
first, and each leader commits the part of its history that is not committed yet.  The writes
to the durable store are what a run emits; a write that precedes a panic stays. -/

open Library (Emit)

/-- The parameters of a Bullshark instance that never change. -/
structure Bullshark where
  committee : Committee
  election : Election
  /-- Whether the protocol version swaps leaders by their scores. -/
  newLeaderElectionSchedule : Bool
  /-- The percentage of stake that counts as badly performing. -/
  badNodesStakeThreshold : Nat
  numSubDagsPerSchedule : Nat
  thresholdInRange : badNodesStakeThreshold ≤ 33
  schedulePositive : 0 < numSubDagsPerSchedule

/-- The parts of a validator's consensus that change. -/
structure Node where
  state : ConsensusState
  leaderSwapTable : LeaderSwapTable
  maxInsertedCertificateRound : Nat

/-- One commit.  The last committed rounds and the sub-dag are written to the
store in one atomic batch; the rounds are those of the state after it. -/
structure CommitRecord where
  lastCommitted : LastCommitted
  subDag : CommittedSubDag
  lastRound : ConsensusRound

/-- What processing a certificate came to. -/
inductive Outcome
  | certificateBelowCommitRound
  | noLeaderElectedForOddRound
  | leaderBelowCommitRound
  | leaderNotFound
  | notEnoughSupportForLeader
  | scheduleChanged
  | commit
  deriving DecidableEq, Repr

namespace Bullshark

/-- The scores that a new sub-dag starts from: zero at the start of a schedule,
and those of the previous sub-dag within it. -/
def startingScores (bullshark : Bullshark) (lastCommittedSubDag : Option CommittedSubDag)
    (subDagIndex : Nat) : Except Failure ReputationScores :=
  if subDagIndex = 1 ∨ subDagIndex % bullshark.numSubDagsPerSchedule = 0 then
    .ok (ReputationScores.new bullshark.committee)
  else
    match lastCommittedSubDag with
    | some last => .ok last.reputationScore
    | none => .error (.panic .lastSubDagNotFound)

/-- One point for every committed certificate that voted for the previous
leader. -/
def addVotes (lastCommittedSubDag : Option CommittedSubDag) (committedSequence : List Certificate)
    (scores : ReputationScores) : ReputationScores :=
  match lastCommittedSubDag with
  | none => scores
  | some last =>
    committedSequence.foldl (fun scores certificate =>
      if certificate.parents.contains last.leader.digest then
        scores.addScore certificate.origin 1
      else
        scores) scores

/-- The scores to store with a new sub-dag. -/
def resolveReputationScore (bullshark : Bullshark) (lastCommittedSubDag : Option CommittedSubDag)
    (committedSequence : List Certificate) (subDagIndex : Nat) : Except Failure ReputationScores :=
  match bullshark.startingScores lastCommittedSubDag subDagIndex with
  | .error failure => .error failure
  | .ok scores =>
    let scores := { addVotes lastCommittedSubDag committedSequence scores with
      finalOfSchedule :=
        (subDagIndex + 1) % bullshark.numSubDagsPerSchedule == 0 }
    if scores.totalAuthorities ≠ bullshark.committee.size then
      .error (.panic .scoresOutsideCommittee)
    else
      .ok scores

/-- Replace the swap table when the scores of a schedule are final.  The flag
tells whether it was replaced. -/
def updateLeaderSchedule (bullshark : Bullshark) (table : LeaderSwapTable) (leaderRound : Nat)
    (reputationScores : ReputationScores) :
    Except Failure (LeaderSwapTable × Bool) :=
  if bullshark.newLeaderElectionSchedule && reputationScores.finalOfSchedule then
    match LeaderSwapTable.new bullshark.committee leaderRound reputationScores
        bullshark.badNodesStakeThreshold with
    | .error failure => .error failure
    | .ok table => .ok (table, true)
  else
    .ok (table, false)

/-- One step of the search for a path: the certificates of a round that are
parents of the given certificates. -/
def linkedRound (dag : Dag) (parents : List Certificate)
    (round : Nat) : Except Failure (List Certificate) :=
  match dag[round]? with
  | none => .error (.panic (.linkingRoundNotFound round))
  | some roundTable =>
    .ok (((Library.Map.values roundTable).filter fun entry =>
      parents.any fun child => child.parents.contains entry.1).map Prod.snd)

/-- The search for a path through the given number of rounds below `round`. -/
def linkedRounds (dag : Dag) :
    Nat → Nat → List Certificate → Except Failure (List Certificate)
  | 0, _, parents => .ok parents
  | rounds + 1, round, parents =>
    match linkedRound dag parents (round - 1) with
    | .error failure => .error failure
    | .ok parents => linkedRounds dag rounds (round - 1) parents

/-- Whether there is a path between two leaders. -/
def linked (leader prevLeader : Certificate) (dag : Dag) : Except Failure Bool :=
  match linkedRounds dag (leader.round - prevLeader.round) leader.round
      [leader] with
  | .error failure => .error failure
  | .ok parents => .ok (parents.any fun parent => parent.eq prevLeader)

/-- The rounds of possible earlier leaders, from the latest down. -/
def pastLeaderRounds (committedRound leaderRound : Nat) : List Nat :=
  (List.range ((leaderRound - (committedRound + 2)) / 2)).map fun index =>
    leaderRound - 2 - 2 * index

/-- Walk down the rounds of possible leaders and put each leader that the last
one is linked to in front. -/
def collectLeaders (bullshark : Bullshark) (table : LeaderSwapTable) (dag : Dag) :
    List Nat → Certificate → List Certificate → Except Failure (List Certificate)
  | [], _, toCommit => .ok toCommit
  | round :: rounds, leader, toCommit =>
    match LeaderSchedule.leaderCertificate bullshark.committee
        bullshark.election table round dag with
    | .error failure => .error failure
    | .ok (_, none) => collectLeaders bullshark table dag rounds leader toCommit
    | .ok (_, some prevLeader) =>
      match linked leader prevLeader dag with
      | .error failure => .error failure
      | .ok true =>
        collectLeaders bullshark table dag rounds prevLeader
          (prevLeader :: toCommit)
      | .ok false => collectLeaders bullshark table dag rounds leader toCommit

/-- The leaders to commit, from the oldest to the given one. -/
def orderLeaders (bullshark : Bullshark) (leader : Certificate)
    (node : Node) : Except Failure (List Certificate) :=
  if leader.round % 2 ≠ 0 then
    .error (.panic (.oddLeaderRound leader.round))
  else
    match collectLeaders bullshark node.leaderSwapTable node.state.dag
        (pastLeaderRounds node.state.lastRound.committedRound leader.round)
        leader [leader] with
    | .error failure => .error failure
    | .ok toCommit =>
      match toCommit.find? fun certificate =>
          (bullshark.committee.authority certificate.origin).isNone with
      | some certificate =>
        .error (.panic (.authorityNotFound certificate.origin))
      | none => .ok toCommit

/-- Flatten the history of a leader and record it in the state.  The result is
the write that makes the commit durable, with the state after it. -/
def commitSubDag (bullshark : Bullshark) (leader : Certificate)
    (state : ConsensusState) : Except Failure (CommitRecord × ConsensusState) :=
  let subDagIndex := state.nextSubDagIndex
  match orderDag leader state with
  | .error failure => .error failure
  | .ok sequence =>
    let state := sequence.foldl ConsensusState.update state
    match bullshark.resolveReputationScore state.lastCommittedSubDag sequence
        subDagIndex with
    | .error failure => .error failure
    | .ok reputationScore =>
      let subDag := CommittedSubDag.new sequence leader subDagIndex
        reputationScore state.lastCommittedSubDag
      .ok (⟨state.lastCommitted, subDag, state.lastRound⟩,
        { state with lastCommittedSubDag := some subDag })

/-- Commit a queue of leaders, until the schedule changes under the rest of the
queue. -/
def commitLeaders (bullshark : Bullshark) :
    List Certificate → Node → Emit CommitRecord Failure (Outcome × Node)
  | [], node => pure (.commit, node)
  | leader :: leadersToCommit, node => do
    let (write, state) ←
      Emit.ofExcept (bullshark.commitSubDag leader node.state)
    Emit.emit write
    let (table, changed) ← Emit.ofExcept (bullshark.updateLeaderSchedule
      node.leaderSwapTable leader.round write.subDag.reputationScore)
    let node := { node with state := state, leaderSwapTable := table }
    if changed && !leadersToCommit.isEmpty then
      pure (.scheduleChanged, node)
    else
      commitLeaders bullshark leadersToCommit node

/-- The stake of the certificates of a round that have a leader as parent. -/
def support (bullshark : Bullshark) (leader : Certificate) (roundTable : RoundTable) : Nat :=
  (((Library.Map.values roundTable).filter fun entry =>
    entry.2.parents.contains leader.digest).map fun entry =>
      bullshark.committee.stakeById entry.2.origin).sum

/-- Commit the leader of a round, and before it the earlier leaders that are not
committed and that it is linked to. -/
def commitLeader (bullshark : Bullshark) (leaderRound : Nat)
    (node : Node) : Emit CommitRecord Failure (Outcome × Node) := do
  let (_, certificate) ← Emit.ofExcept (LeaderSchedule.leaderCertificate
    bullshark.committee bullshark.election node.leaderSwapTable leaderRound
    node.state.dag)
  match certificate with
  | none => pure (.leaderNotFound, node)
  | some leader =>
    match node.state.dag[leaderRound + 1]? with
    | none =>
      Emit.ofExcept
        (.error (.panic (.supportingRoundNotFound (leaderRound + 1))))
    | some roundTable =>
      if bullshark.support leader roundTable <
          bullshark.committee.validityThreshold then
        pure (.notEnoughSupportForLeader, node)
      else do
        let leadersToCommit ←
          Emit.ofExcept (bullshark.orderLeaders leader node)
        bullshark.commitLeaders leadersToCommit node

/-- Commit a leader again for as long as the schedule changes.  Every change of
the schedule commits a leader of a higher round, which bounds the loop. -/
def commitUntilScheduleStable (bullshark : Bullshark) (leaderRound : Nat) :
    Nat → Node → Emit CommitRecord Failure (Outcome × Node)
  | 0, _ => Emit.ofExcept (.error .outOfFuel)
  | fuel + 1, node => do
    let (outcome, node) ← bullshark.commitLeader leaderRound node
    if outcome = .scheduleChanged then
      commitUntilScheduleStable bullshark leaderRound fuel node
    else
      pure (outcome, node)

/-- The report on the leader of the last round elects that leader. -/
def reportLeaderOnTime (bullshark : Bullshark) (certificateRound : Nat)
    (node : Node) : Except Failure Node :=
  let reported :=
    { node with
      maxInsertedCertificateRound :=
        max node.maxInsertedCertificateRound certificateRound }
  if node.maxInsertedCertificateRound < certificateRound ∧
      certificateRound % 2 = 0 ∧ 2 < certificateRound then
    match LeaderSchedule.leader bullshark.committee bullshark.election
        node.leaderSwapTable (certificateRound - 2) with
    | .error failure => .error failure
    | .ok _ => .ok reported
  else
    .ok reported

/-- Insert a certificate and commit what it lets commit. -/
def processCertificate (bullshark : Bullshark) (certificate : Certificate)
    (node : Node) : Emit CommitRecord Failure (Outcome × Node) := do
  let (state, inserted) ← Emit.ofExcept (node.state.tryInsert certificate)
  let node := { node with state := state }
  if inserted = false then
    pure (.certificateBelowCommitRound, node)
  else do
    let node ← Emit.ofExcept (bullshark.reportLeaderOnTime certificate.round node)
    let leaderRound := certificate.round - 1
    if leaderRound % 2 ≠ 0 ∨ leaderRound < 2 then
      pure (.noLeaderElectedForOddRound, node)
    else if leaderRound ≤ node.state.lastRound.committedRound then
      pure (.leaderBelowCommitRound, node)
    else
      let committed :=
        bullshark.commitUntilScheduleStable leaderRound (leaderRound + 1) node
      let (outcome, node) ← committed
      pure (if committed.emitted.isEmpty then outcome else .commit, node)

end Bullshark

end Sui.Narwhal
