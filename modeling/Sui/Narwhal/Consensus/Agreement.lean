import Sui.Narwhal.Consensus.Process

/-!
# Agreement and the sequence of commits

Validators that process causally ordered deliveries of one certificate set
output sequences of committed sub-dags of which one is a prefix of the other.
Their writes are traces of the commit relation from one ledger, and that
relation is functional.
-/

namespace Sui.Narwhal

open List hiding after
open Library (Emit)
open CommitRecord (subDag)

/-- A validator before it is given any certificate. -/
def Node.new (gcDepth : Nat) : Node where
  state := ConsensusState.new gcDepth
  leaderSwapTable := LeaderSwapTable.default
  maxInsertedCertificateRound := 0

/-- Certificates of the set, each after its parents. -/
def CertificateSet.CausallyOrdered (history : CertificateSet)
    (deliveries : List Certificate) : Prop :=
  ∀ before certificate after, deliveries = before ++ certificate :: after → certificate ∈ history ∧
      (2 ≤ certificate.round → ∀ parent, history.Parent certificate parent → parent ∈ before)

namespace Bullshark

/-- Process deliveries one after the other, up to the first failure. -/
def run (bullshark : Bullshark) :
    List Certificate → Node → Emit CommitRecord Failure Node
  | [], node => pure node
  | certificate :: deliveries, node => do
    let (_, node) ← bullshark.processCertificate certificate node
    run bullshark deliveries node

/-- The sub-dags that processing the deliveries returns.  A call that fails
returns none, even if it has written some. -/
def outputs (bullshark : Bullshark) :
    List Certificate → Node → List CommittedSubDag
  | [], _ => []
  | certificate :: deliveries, node =>
    let processed := bullshark.processCertificate certificate node
    match processed.result with
    | .ok (_, node) =>
      processed.emitted.map CommitRecord.subDag ++ outputs bullshark deliveries node
    | .error _ => []

variable {bullshark : Bullshark} {history : CertificateSet}

/-- Everything output has been written. -/
theorem outputs_isPrefix_run (bullshark : Bullshark) (deliveries : List Certificate) (node : Node) :
    bullshark.outputs deliveries node <+:
      (bullshark.run deliveries node).emitted.map subDag := by
  induction deliveries generalizing node with
  | nil => exact nil_prefix
  | cons certificate deliveries ih =>
    rw [outputs, run]
    cases result : (bullshark.processCertificate certificate node).result with
    | ok returned =>
      rw [Emit.bind_eq_of_ok _ result, map_append]
      exact (prefix_append_right_inj _).mpr (ih returned.2)
    | error failure => exact nil_prefix

theorem sound_new (bullshark : Bullshark) (history : CertificateSet) (depth : 0 < gcDepth) :
    (Node.new gcDepth).Sound bullshark history ∅ where
  sane := Ledger.sane_new bullshark.committee depth
  view := CertificateSet.View.empty
  complete := by simp
  within := by simp [InDag, Node.new, ConsensusState.new]

/-- A run emits the next commits and keeps the node sound. -/
theorem run_follows (ordered : history.CausallyOrdered (delivered ++ deliveries))
    (sound : node.Sound bullshark history {certificate | certificate ∈ delivered}) :
    Emit.Follows (bullshark.NextCommit history) node.ledger
      (bullshark.run deliveries node)
      (fun result ledger => result.ledger = ledger ∧ result.Sound bullshark
        history {certificate | certificate ∈ delivered ++ deliveries})
      (fun failure _ => bullshark.Excused history failure) := by
  induction deliveries generalizing delivered node with
  | nil => exact Emit.Follows.pure ⟨rfl, by simpa using sound⟩
  | cons certificate deliveries ih =>
    obtain ⟨member, parents⟩ := ordered delivered certificate deliveries rfl
    have processed := processCertificate_follows sound member
      fun above parent step => parents (by omega) parent step
    apply Emit.Follows.bind (processed.mono_step fun _ _ _ next => next.1)
    rintro ⟨outcome, next⟩ ledger ⟨nextSound, rfl⟩
    have sameSet : insert certificate {certificate | certificate ∈ delivered} =
        {other | other ∈ delivered ++ [certificate]} := by
      ext other
      simp [or_comm]
    have assoc : delivered ++ certificate :: deliveries =
        (delivered ++ [certificate]) ++ deliveries := by simp
    rw [sameSet] at nextSound
    rw [assoc] at ordered ⊢
    exact ih ordered nextSound

/-- The commits of a run form a trace. -/
theorem run_trace (bullshark : Bullshark) (ordered : history.CausallyOrdered deliveries)
    (depth : 0 < gcDepth) :
    ∃ final, Library.Trace (bullshark.NextCommit history) (Ledger.new gcDepth)
      (bullshark.run deliveries (Node.new gcDepth)).emitted final := by
  have sound : (Node.new gcDepth).Sound bullshark history
      {certificate | certificate ∈ []} := by
    simpa using sound_new bullshark history depth
  obtain ⟨final, trace, _⟩ := run_follows (by simpa using ordered) sound
  exact ⟨final, trace⟩

end Bullshark

/-! ## A committee of one

The smallest instance: one authority certifies one header in every round. -/

/-- The committee of one authority. -/
def soloCommittee : Committee where
  authorities := [⟨0, 0, 1, 0⟩]
  epoch := 0
  ids := rfl
  keys := by decide
  positive := by decide

/-- The election that always takes the first authority. -/
def firstElection : Election where
  leader committee _ := committee.authorities.head (by
    intro empty
    have positive := committee.positive
    simp [empty] at positive)
  leader_mem committee _ := List.head_mem _
  choose nodes _ := nodes.head?
  choose_mem _ _ _ := List.mem_of_head?
  choose_isSome _ _ := by simp

/-- The consensus of the committee of one, with a schedule of two sub-dags. -/
def soloBullshark : Bullshark where
  committee := soloCommittee
  election := firstElection
  newLeaderElectionSchedule := true
  badNodesStakeThreshold := 20
  numSubDagsPerSchedule := 2
  thresholdInRange := by decide
  schedulePositive := by decide

/-- The certificate of a round. -/
def soloCertificate (round : Nat) : Certificate where
  header :=
    { author := 0
      round := round
      epoch := 0
      createdAt := round
      payload := []
      parents := [round - 1]
      digest := round
      sorted := List.pairwise_singleton _ _ }
  signedAuthorities := [0]
  aggregatedSignature := 0

/-- The certificates of all rounds from the first. -/
def soloHistory : CertificateSet where
  certificates := {certificate | ∃ round, certificate = soloCertificate (round + 1)}
  determined := by
    rintro _ ⟨left, rfl⟩ _ ⟨right, rfl⟩ _ sameRound
    exact congrArg soloCertificate sameRound
  collisionFree := by
    rintro _ ⟨left, rfl⟩ _ ⟨right, rfl⟩ sameDigest
    exact congrArg soloCertificate sameDigest
  parentsPresent := by
    rintro _ ⟨round, rfl⟩ above digest listed
    change 2 ≤ round + 1 at above
    obtain ⟨lower, rfl⟩ := Nat.exists_eq_add_of_le' (show 1 ≤ round by omega)
    obtain rfl := List.mem_singleton.mp listed
    exact ⟨soloCertificate (lower + 1), ⟨lower, rfl⟩, rfl, rfl⟩
  parentsNonempty := by
    rintro _ ⟨round, rfl⟩ _
    exact List.cons_ne_nil _ _

theorem soloHistory_parent (round : Nat) :
    soloHistory.Parent (soloCertificate (round + 2))
      (soloCertificate (round + 1)) :=
  ⟨⟨round, rfl⟩, mem_singleton.mpr rfl, rfl⟩

/-- The only authority is a quorum of parents. -/
theorem soloHistory_hasQuorumParents : soloHistory.HasQuorumParents soloCommittee := by
  rintro _ ⟨round, rfl⟩ above
  change 2 ≤ round + 1 at above
  obtain ⟨lower, rfl⟩ := Nat.exists_eq_add_of_le' (show 1 ≤ round by omega)
  refine ⟨[soloCertificate (lower + 1)], ?_, ?_, ?_⟩
  · exact forall_mem_singleton.mpr (soloHistory_parent lower)
  · exact nodup_singleton _
  · exact (by decide : soloCommittee.quorumThreshold ≤ 1)

/-- The certificates of the first rounds in their order. -/
def soloDeliveries (rounds : Nat) : List Certificate :=
  (List.range rounds).map fun round => soloCertificate (round + 1)

/-- The certificates in their order are causally ordered. -/
theorem soloDeliveries_causallyOrdered (rounds : Nat) :
    soloHistory.CausallyOrdered (soloDeliveries rounds) := by
  intro before certificate after split
  have position : certificate = soloCertificate (before.length + 1) ∧
      before = soloDeliveries before.length := by
    have length : (soloDeliveries rounds).length = rounds := by
      simp [soloDeliveries]
    have inside : before.length < rounds := by
      rw [← length, split]
      simp
    constructor
    · have here : (soloDeliveries rounds)[before.length]? = some certificate := by
        rw [split]
        simp
      simp only [soloDeliveries, getElem?_map, getElem?_range inside,
        Option.map_some, Option.some.injEq] at here
      exact here.symm
    · have taken : (soloDeliveries rounds).take before.length = before := by
        rw [split]
        simp
      rw [← taken, length_take, length, min_eq_left inside.le]
      simp [soloDeliveries, ← map_take, take_range, inside.le]
  obtain ⟨rfl, beforeEq⟩ := position
  refine ⟨⟨_, rfl⟩, ?_⟩
  intro above parent step
  obtain ⟨round, rfl⟩ := step.mem
  have below : round + 1 + 1 = before.length + 1 := step.below
  rw [beforeEq]
  exact mem_map.mpr ⟨round, mem_range.mpr (by omega), rfl⟩

namespace Bullshark

/-- Any two validators output sequences of which one is a prefix of the
other. -/
theorem outputs_prefix_or_prefix (bullshark : Bullshark) (history : CertificateSet)
    (quorum : history.HasQuorumParents bullshark.committee) (gcDepth : Nat) (depth : 1 ≤ gcDepth)
    (left right : List Certificate) (leftOrdered : history.CausallyOrdered left)
    (rightOrdered : history.CausallyOrdered right) :
    bullshark.outputs left (Node.new gcDepth) <+:
        bullshark.outputs right (Node.new gcDepth) ∨
      bullshark.outputs right (Node.new gcDepth) <+:
        bullshark.outputs left (Node.new gcDepth) := by
  obtain ⟨_, leftTrace⟩ := run_trace bullshark leftOrdered depth
  obtain ⟨_, rightTrace⟩ := run_trace bullshark rightOrdered depth
  have leftWritten := outputs_isPrefix_run bullshark left (Node.new gcDepth)
  have rightWritten := outputs_isPrefix_run bullshark right (Node.new gcDepth)
  rcases leftTrace.prefix_or_prefix (nextCommit_functional quorum) rightTrace with shorter | longer
  · exact prefix_or_prefix_of_prefix
      (leftWritten.trans (shorter.map subDag)) rightWritten
  · exact prefix_or_prefix_of_prefix leftWritten
      (rightWritten.trans (longer.map subDag))

/-- Validators of the committee of one that received three and five rounds. -/
theorem outputs_prefix_or_prefix_solo :
    (soloBullshark.outputs (soloDeliveries 3) (Node.new 1)).length = 1 ∧
    (soloBullshark.outputs (soloDeliveries 5) (Node.new 1)).length = 2 ∧
    (soloBullshark.outputs (soloDeliveries 3) (Node.new 1) <+:
        soloBullshark.outputs (soloDeliveries 5) (Node.new 1) ∨
      soloBullshark.outputs (soloDeliveries 5) (Node.new 1) <+:
        soloBullshark.outputs (soloDeliveries 3) (Node.new 1)) :=
  ⟨by decide +kernel, by decide +kernel, outputs_prefix_or_prefix soloBullshark soloHistory
      soloHistory_hasQuorumParents 1 le_rfl (soloDeliveries 3) (soloDeliveries 5)
      (soloDeliveries_causallyOrdered 3) (soloDeliveries_causallyOrdered 5)⟩

end Bullshark

/-! ## The sequence of commits

What holds of the commits of a run is an invariant of the commit relation. -/

open Library

namespace CertificateSet

/-- Every author of the set is a member of the committee. -/
def FromCommittee (history : CertificateSet) (committee : Committee) : Prop :=
  ∀ certificate ∈ history, certificate.origin < committee.size

end CertificateSet

/-- The last committed rounds after a sequence of commits. -/
def lastCommittedAfter (commits : List CommitRecord) : LastCommitted :=
  commits.getLast?.elim ∅ CommitRecord.lastCommitted

/-- A sub-dag is in the order of its rounds and ends with its leader, which is
the only certificate of the highest round. -/
structure CommittedSubDag.EndsWithLeader (subDag : CommittedSubDag) : Prop where
  even : subDag.leader.round % 2 = 0
  sorted : subDag.certificates.Pairwise fun left right => left.round ≤ right.round
  last : subDag.certificates.getLast? = some subDag.leader
  highest : ∀ certificate ∈ subDag.certificates,
    certificate = subDag.leader ∨ certificate.round < subDag.leader.round

/-- A well-formed sequence of commits. -/
structure WellFormedCommits
    (history : CertificateSet)
    (gcDepth : Nat)
    (commits : List CommitRecord) : Prop where
  numbered : commits.map (fun commit => commit.subDag.subDagIndex) = List.range' 1 commits.length
  endsWithLeader : ∀ commit ∈ commits, commit.subDag.EndsWithLeader
  committedRound : ∀ commit ∈ commits, commit.lastRound.committedRound = commit.subDag.leader.round
  ascending : commits.Pairwise fun earlier later =>
    earlier.subDag.leader.round < later.subDag.leader.round
  distinct : (commits.flatMap fun commit =>
    commit.subDag.certificates.map Certificate.digest).Nodup
  /-- A parent above garbage collection is committed no later than its child, or
  it was overtaken by a commit of its own author before. -/
  complete : ∀ before commit after, commits = before ++ commit :: after →
    ∀ child ∈ commit.subDag.certificates, ∀ parent, history.Parent child parent →
      commit.subDag.leader.round < parent.round + gcDepth → (∃ earlier ∈ before ++ [commit],
          parent ∈ earlier.subDag.certificates) ∨
        parent.round ≤ (lastCommittedAfter before).getD parent.origin 0

theorem round_le_of_alreadyCommitted
    (committed : alreadyCommitted lastCommitted certificate = true) :
    certificate.round ≤ lastCommitted.getD certificate.origin 0 := by
  unfold alreadyCommitted at committed
  rw [Std.ExtTreeMap.getD_eq_getD_getElem?]
  split at committed
  · next round found =>
    rw [found]
    exact of_decide_eq_true committed
  · cases committed

/-- What is not committed is above the last committed round. -/
theorem lt_round_of_not_alreadyCommitted (positive : 0 < certificate.round)
    (uncommitted : alreadyCommitted lastCommitted certificate = false) :
    lastCommitted.getD certificate.origin 0 < certificate.round := by
  unfold alreadyCommitted at uncommitted
  rw [Std.ExtTreeMap.getD_eq_getD_getElem?]
  split at uncommitted
  · next round found =>
    rw [found]
    exact Nat.lt_of_not_le (of_decide_eq_false uncommitted)
  · next absent =>
    rw [absent]
    exact positive

namespace Bullshark

variable {bullshark : Bullshark} {history : CertificateSet}

namespace Commits

variable {before : Ledger} {leader : Certificate} {sequence : List Certificate}
  {scores : ReputationScores} {table : LeaderSwapTable}

variable (commits : bullshark.Commits history before leader sequence scores table)

include commits

section

variable (listed : certificate ∈ sequence)

include listed

theorem lastCommitted_lt : before.lastCommitted.getD certificate.origin 0 < certificate.round := by
  have above := (commits.flattened.path certificate listed).2
  rcases commits.flattened.fresh certificate listed with rfl | uncommitted
  · exact lt_of_le_of_lt (commits.sane.bounded _) commits.next.above
  · exact lt_round_of_not_alreadyCommitted (by omega) uncommitted

theorem mem_history : certificate ∈ history :=
  (commits.flattened.path certificate listed).1.mem commits.next.isLeader.mem

theorem eq_or_round_lt : certificate = leader ∨ certificate.round < leader.round := by
  obtain ⟨path, _⟩ := commits.flattened.path certificate listed
  rcases Nat.lt_or_ge certificate.round leader.round with lower | notLower
  · exact .inr lower
  · exact .inl (path.eq_of_round_le notLower).symm

end

/-- A sub-dag ends with its leader. -/
theorem endsWithLeader :
    (committedSubDag before leader sequence scores).EndsWithLeader where
  even := commits.next.isLeader.even
  sorted := commits.flattened.sorted
  last := by
    change sequence.getLast? = some leader
    obtain ⟨front, back, rfl⟩ := append_of_mem commits.flattened.leaderFound
    -- Nothing can follow the leader: it would have to be of the same round.
    cases back with
    | nil => simp
    | cons next back =>
      have order : leader.round ≤ next.round := by
        have sorted := commits.flattened.sorted
        rw [pairwise_append] at sorted
        exact rel_of_pairwise_cons sorted.2.1 mem_cons_self
      have notLeader : next ≠ leader := by
        have nodup := commits.flattened.nodup
        rw [nodup_append] at nodup
        rintro rfl
        exact (nodup_cons.mp nodup.2.1).1 mem_cons_self
      have listed : next ∈ front ++ leader :: next :: back := by simp
      rcases commits.eq_or_round_lt listed with same | lower
      · exact absurd same notLeader
      · omega
  highest := fun _ listed => commits.eq_or_round_lt listed

/-- A parent above garbage collection is in the sequence or committed. -/
theorem parent_mem_or_le (listed : child ∈ sequence) (step : history.Parent child parent)
    (above : leader.round < parent.round + before.gcDepth) :
    parent ∈ sequence ∨ parent.round ≤ before.lastCommitted.getD parent.origin 0 := by
  rcases Nat.eq_zero_or_pos parent.round with genesis | positive
  · right
    omega
  · have below := step.below
    have childAbove : gcRound leader.round before.gcDepth + 1 < child.round := by
      rw [gcRound]
      omega
    rcases commits.flattened.covered child listed childAbove parent step with found | committed
    · exact .inl found
    · exact .inr (round_le_of_alreadyCommitted committed)

end Commits

/-- The commits that led to a ledger. -/
structure Recorded
    (history : CertificateSet)
    (gcDepth : Nat)
    (commits : List CommitRecord)
    (ledger : Ledger) : Prop where
  wellFormed : WellFormedCommits history gcDepth commits
  depth : ledger.gcDepth = gcDepth
  nextIndex : ledger.nextSubDagIndex = commits.length + 1
  lastCommitted : ledger.lastCommitted = lastCommittedAfter commits
  leaderBelow : ∀ commit ∈ commits, commit.subDag.leader.round ≤ ledger.lastRound.committedRound
  recorded : ∀ commit ∈ commits, ∀ certificate ∈ commit.subDag.certificates, certificate ∈ history ∧
      certificate.round ≤ ledger.lastCommitted.getD certificate.origin 0

theorem recorded_new (history : CertificateSet) (gcDepth : Nat) :
    Recorded history gcDepth [] (Ledger.new gcDepth) where
  wellFormed := ⟨rfl, by simp, by simp, by simp, by simp, by simp⟩
  depth := rfl
  nextIndex := rfl
  lastCommitted := rfl
  leaderBelow := by simp
  recorded := by simp

namespace Recorded

variable {gcDepth : Nat} {commits : List CommitRecord} {before : Ledger}
  {leader : Certificate} {sequence : List Certificate}
  {scores : ReputationScores} {table : LeaderSwapTable} {commit : CommitRecord}

variable (recorded : Recorded history gcDepth commits before)

include recorded

section

variable (commits' : bullshark.Commits history before leader sequence scores table)

include commits'

/-- A new sub-dag repeats no digest. -/
theorem digests_disjoint :
    ∀ earlier ∈ commits, ∀ old ∈ earlier.subDag.certificates,
      ∀ new ∈ sequence, old.digest ≠ new.digest := by
  intro earlier earlierListed old oldListed new newListed same
  obtain ⟨oldMember, oldRecorded⟩ := recorded.recorded earlier earlierListed old oldListed
  obtain rfl := history.collisionFree old oldMember new (commits'.mem_history newListed) same
  have above := commits'.lastCommitted_lt newListed
  omega

/-- One more commit keeps the sequence well-formed. -/
theorem wellFormed_snoc (committedRound : lastRound.committedRound = leader.round) :
    WellFormedCommits history gcDepth (commits ++
      [⟨committed, committedSubDag before leader sequence scores, lastRound⟩]) where
  numbered := by
    rw [map_append, recorded.wellFormed.numbered, length_append, length_singleton, range'_1_concat]
    change _ ++ [before.nextSubDagIndex] = _
    rw [recorded.nextIndex, Nat.add_comm]
  endsWithLeader := forall_mem_snoc.mpr
    ⟨recorded.wellFormed.endsWithLeader, commits'.endsWithLeader⟩
  committedRound := forall_mem_snoc.mpr
    ⟨recorded.wellFormed.committedRound, committedRound⟩
  ascending := by
    refine pairwise_snoc.mpr ⟨recorded.wellFormed.ascending, fun earlier listed => ?_⟩
    exact lt_of_le_of_lt (recorded.leaderBelow earlier listed) commits'.next.above
  distinct := by
    rw [flatMap_append, nodup_append]
    refine ⟨recorded.wellFormed.distinct, ?_, ?_⟩
    · rw [flatMap_singleton]
      apply commits'.flattened.nodup.map_on
      intro left leftListed right rightListed same
      exact history.collisionFree left (commits'.mem_history leftListed) right
        (commits'.mem_history rightListed) same
    · intro digest old digest' new
      rw [flatMap_singleton] at new
      obtain ⟨earlier, listed, oldListed⟩ := mem_flatMap.mp old
      obtain ⟨oldCertificate, oldMember, rfl⟩ := mem_map.mp oldListed
      obtain ⟨newCertificate, newMember, rfl⟩ := mem_map.mp new
      exact recorded.digests_disjoint commits' earlier listed oldCertificate
        oldMember newCertificate newMember
  complete := by
    intro earlier other later split child childListed parent step above
    rcases eq_nil_or_concat' later with rfl | ⟨rest, last, rfl⟩
    · obtain ⟨rfl, ⟨⟩⟩ := append_inj' split rfl
      rw [← recorded.lastCommitted]
      rcases commits'.parent_mem_or_le childListed step
        (by rw [recorded.depth]; exact above) with found | overtaken
      · exact .inl ⟨_, mem_concat_self, found⟩
      · exact .inr overtaken
    · rw [← cons_append, ← append_assoc] at split
      have same := (append_inj' split rfl).1
      exact recorded.wellFormed.complete earlier other rest same child childListed parent step above

end

/-- The next commit is recorded. -/
theorem step (next : bullshark.NextCommit history before commit after) :
    Recorded history gcDepth (commits ++ [commit]) after := by
  obtain ⟨leader, sequence, scores, table, commits', rfl, rfl⟩ := next.exists_commits
  have committedRound := commits'.committedRound
  refine ⟨recorded.wellFormed_snoc commits' committedRound, ?_, ?_, ?_, ?_, ?_⟩
  · exact (Ledger.foldl_update_gcDepth sequence before).trans recorded.depth
  · rw [length_append, length_singleton]
    exact congrArg (· + 1) recorded.nextIndex
  · simp [lastCommittedAfter]
  · intro other listed
    apply le_trans _ committedRound.ge
    rcases mem_snoc.mp listed with earlier | rfl
    · exact le_trans (recorded.leaderBelow other earlier) commits'.next.above.le
    · exact le_rfl
  · refine forall_mem_snoc.mpr ⟨fun other earlier certificate listed => ?_,
      fun certificate listed => ?_⟩
    · obtain ⟨member, below⟩ := recorded.recorded other earlier certificate listed
      exact ⟨member, le_trans below (Ledger.getD_le_foldl_update _)⟩
    · exact ⟨commits'.mem_history listed, Ledger.round_le_foldl_update listed⟩

end Recorded

/-- Every trace of the commit relation is a well-formed sequence of commits. -/
theorem recorded_of_trace
    (trace : Library.Trace (bullshark.NextCommit history) (Ledger.new gcDepth) commits final) :
    Recorded history gcDepth commits final := by
  have preserved := trace.preserve (Recorded history gcDepth)
    (fun _ _ _ _ recorded next => recorded.step next)
    (recorded_new history gcDepth)
  simpa using preserved

/-- In every run the only panic that can be reached is the one of an election
without a good node, and the commits are well-formed. -/
theorem run_wellFormedCommits (bullshark : Bullshark) (history : CertificateSet)
    (members : history.FromCommittee bullshark.committee) (gcDepth : Nat) (depth : 1 ≤ gcDepth)
    (deliveries : List Certificate) (ordered : history.CausallyOrdered deliveries) :
    (∀ failure, (bullshark.run deliveries (Node.new gcDepth)).result =
      .error failure → failure = .panic .noGoodNode) ∧
    WellFormedCommits history gcDepth
      (bullshark.run deliveries (Node.new gcDepth)).emitted := by
  have sound : (Node.new gcDepth).Sound bullshark history
      {certificate | certificate ∈ []} := by
    simpa using sound_new bullshark history depth
  obtain ⟨final, trace, _, onFailure⟩ := run_follows (by simpa using ordered) sound
  refine ⟨?_, (recorded_of_trace trace).wellFormed⟩
  intro failure failed
  rcases onFailure failure failed with noGoodNode | ⟨_, outsider, member, outside⟩
  · exact noGoodNode
  · exact absurd (members outsider member) outside

/-- Five rounds of the committee of one. -/
theorem run_wellFormedCommits_solo :
    (soloBullshark.run (soloDeliveries 5) (Node.new 1)).emitted.length = 2 ∧
    WellFormedCommits soloHistory 1
      (soloBullshark.run (soloDeliveries 5) (Node.new 1)).emitted := by
  have members : soloHistory.FromCommittee soloCommittee := by
    rintro _ ⟨round, rfl⟩
    exact Nat.zero_lt_one
  exact ⟨by decide +kernel, (run_wellFormedCommits soloBullshark soloHistory
    members 1 le_rfl (soloDeliveries 5) (soloDeliveries_causallyOrdered 5)).2⟩

end Bullshark

end Sui.Narwhal
