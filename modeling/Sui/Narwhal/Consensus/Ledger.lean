import Sui.Narwhal.Consensus.Flatten
import Sui.Narwhal.Consensus.Scores

/-!
# The next commit

The abstract commit rule.  A ledger is what a validator has committed, without
the certificates that it holds in memory.  Over a certificate set, the ledger
determines the next leader to commit: descend from any supported leader along
the latest earlier leaders in its history, until none is left above the last
commit.  All supported leaders lead to the same one, because each of them is in
the history of all leaders above it.

Since flattening does not depend on the view either, the relation `NextCommit`
between a ledger, the next durable write and the ledger after it is functional.
-/

namespace Sui.Narwhal

open Std (ExtTreeMap)

/-- The committed part of a validator's consensus. -/
structure Ledger where
  lastRound : ConsensusRound
  gcDepth : Nat
  lastCommitted : LastCommitted
  lastCommittedSubDag : Option CommittedSubDag
  leaderSwapTable : LeaderSwapTable

namespace Ledger

/-- The ledger before anything is committed. -/
def new (gcDepth : Nat) : Ledger where
  lastRound := ConsensusRound.default
  gcDepth := gcDepth
  lastCommitted := ∅
  lastCommittedSubDag := none
  leaderSwapTable := LeaderSwapTable.default

/-- Record a committed certificate. -/
def update (ledger : Ledger) (certificate : Certificate) : Ledger :=
  { ledger with
    lastRound := ledger.lastRound.update certificate.round ledger.gcDepth
    lastCommitted := ledger.lastCommitted.alter certificate.origin fun
      | some round => some (max round certificate.round)
      | none => some certificate.round }

/-- The index of the next committed sub-dag. -/
def nextSubDagIndex (ledger : Ledger) : Nat :=
  ledger.lastCommittedSubDag.elim 0 CommittedSubDag.subDagIndex + 1

/-- The ledger after a sub-dag is committed. -/
def commit (ledger : Ledger) (subDag : CommittedSubDag) (table : LeaderSwapTable) : Ledger :=
  { subDag.certificates.foldl update ledger with
    lastCommittedSubDag := some subDag
    leaderSwapTable := table }

/-- The consensus state of a ledger with a graph in memory. -/
def state (ledger : Ledger) (dag : Dag) : ConsensusState where
  lastRound := ledger.lastRound
  gcDepth := ledger.gcDepth
  lastCommitted := ledger.lastCommitted
  lastCommittedSubDag := ledger.lastCommittedSubDag
  dag := dag

end Ledger

/-- The ledger of a consensus state with a swap table. -/
def ConsensusState.ledger (state : ConsensusState) (table : LeaderSwapTable) : Ledger where
  lastRound := state.lastRound
  gcDepth := state.gcDepth
  lastCommitted := state.lastCommitted
  lastCommittedSubDag := state.lastCommittedSubDag
  leaderSwapTable := table

/-- The ledger of a validator. -/
def Node.ledger (node : Node) : Ledger :=
  node.state.ledger node.leaderSwapTable

namespace Bullshark

variable (bullshark : Bullshark) (history : CertificateSet)

/-- A certificate of the set is the one of the leader of its round. -/
structure IsLeader (table : LeaderSwapTable) (certificate : Certificate) :
    Prop where
  mem : certificate ∈ history
  elected : ∃ authority, LeaderSchedule.leader bullshark.committee
    bullshark.election table certificate.round = .ok authority ∧ authority.id = certificate.origin

/-- The latest leader in the history of a certificate, below it and above the
last commit. -/
structure PrevLeader
    (table : LeaderSwapTable)
    (committedRound : Nat)
    (leader prevLeader : Certificate) : Prop where
  isLeader : bullshark.IsLeader history table prevLeader
  above : committedRound < prevLeader.round
  below : prevLeader.round < leader.round
  path : history.Path leader prevLeader
  latest : ∀ other, bullshark.IsLeader history table other →
    prevLeader.round < other.round → other.round < leader.round → ¬ history.Path leader other

/-- A leader above the last commit that can be committed by itself. -/
structure Anchor
    (table : LeaderSwapTable)
    (committedRound : Nat)
    (leader : Certificate) : Prop where
  isLeader : bullshark.IsLeader history table leader
  above : committedRound < leader.round
  supported : history.Supported bullshark.committee leader

/-- The next leader to commit: the end of the descent from a supported
leader. -/
def NextLeader (table : LeaderSwapTable) (committedRound : Nat) (leader : Certificate) : Prop :=
  ∃ anchor, bullshark.Anchor history table committedRound anchor ∧
    Relation.ReflTransGen (bullshark.PrevLeader history table committedRound)
      anchor leader ∧
    ∀ prevLeader, ¬ bullshark.PrevLeader history table committedRound leader prevLeader

variable {bullshark history}

theorem even_of_leader_eq_ok {committee : Committee} {election : Election} {round : Nat}
    (elected : LeaderSchedule.leader committee election table round = .ok authority) :
    round % 2 = 0 := by
  rw [LeaderSchedule.leader] at elected
  split at elected
  · cases elected
  · omega

namespace IsLeader

variable {table : LeaderSwapTable}

theorem even (leader : bullshark.IsLeader history table certificate) :
    certificate.round % 2 = 0 := by
  obtain ⟨_, elected, _⟩ := leader.elected
  exact even_of_leader_eq_ok elected

/-- A round has one leader. -/
theorem unique (leftLeader : bullshark.IsLeader history table left)
    (rightLeader : bullshark.IsLeader history table right) (sameRound : left.round = right.round) :
    left = right := by
  obtain ⟨_, leftElected, leftOrigin⟩ := leftLeader.elected
  obtain ⟨_, rightElected, rightOrigin⟩ := rightLeader.elected
  rw [sameRound, rightElected] at leftElected
  cases leftElected
  exact history.determined left leftLeader.mem right rightLeader.mem
    (leftOrigin.symm.trans rightOrigin) sameRound

end IsLeader

section Descent

variable {table : LeaderSwapTable} {committedRound : Nat}

/-- The previous leader is unique. -/
theorem prevLeader_rightUnique :
    Relator.RightUnique (bullshark.PrevLeader history table committedRound) := by
  intro leader left right leftPrev rightPrev
  rcases lt_trichotomy left.round right.round with lower | same | higher
  · exact absurd rightPrev.path (leftPrev.latest right rightPrev.isLeader lower rightPrev.below)
  · exact leftPrev.isLeader.unique rightPrev.isLeader same
  · exact absurd leftPrev.path (rightPrev.latest left leftPrev.isLeader higher leftPrev.below)

/-- A linked leader below has a previous leader above it. -/
theorem exists_prevLeader (earlierLeader : bullshark.IsLeader history table earlier)
    (above : committedRound < earlier.round) (below : earlier.round < leader.round)
    (path : history.Path leader earlier) :
    ∃ prevLeader, bullshark.PrevLeader history table committedRound leader prevLeader ∧
        earlier.round ≤ prevLeader.round := by
  obtain ⟨gap, distance⟩ := Nat.exists_eq_add_of_lt below
  induction gap using Nat.strong_induction_on generalizing earlier with
  | _ gap ih =>
    by_cases latest : ∀ other, bullshark.IsLeader history table other →
        earlier.round < other.round → other.round < leader.round → ¬ history.Path leader other
    · exact ⟨earlier, ⟨earlierLeader, above, below, path, latest⟩, le_rfl⟩
    · push Not at latest
      obtain ⟨later, laterLeader, higher, laterBelow, laterPath⟩ := latest
      obtain ⟨prevLeader, isPrev, notBelow⟩ := ih
        (leader.round - later.round - 1) (by omega) laterLeader (by omega)
        laterBelow laterPath (by omega)
      exact ⟨prevLeader, isPrev, by omega⟩

/-- The descent from a leader passes through every supported leader below. -/
theorem descends_to_anchor (quorum : history.HasQuorumParents bullshark.committee)
    (isAnchor : bullshark.Anchor history table committedRound anchor)
    (isLeader : bullshark.IsLeader history table leader) (notAbove : anchor.round ≤ leader.round) :
    Relation.ReflTransGen (bullshark.PrevLeader history table committedRound)
      leader anchor := by
  obtain ⟨gap, distance⟩ := Nat.exists_eq_add_of_le notAbove
  induction gap using Nat.strong_induction_on generalizing leader with
  | _ gap ih =>
    rcases Nat.eq_zero_or_pos gap with same | apart
    · obtain rfl := isLeader.unique isAnchor.isLeader (by omega)
      exact .refl
    · have leaderEven := isLeader.even
      have anchorEven := isAnchor.isLeader.even
      -- Leaders are two rounds apart, so the quorum argument applies.
      have path := history.path_of_supported quorum isAnchor.supported isLeader.mem (by omega)
      obtain ⟨prevLeader, isPrev, notBelow⟩ := exists_prevLeader
        isAnchor.isLeader isAnchor.above (by omega) path
      have below := isPrev.below
      exact (ih (prevLeader.round - anchor.round) (by omega)
        isPrev.isLeader notBelow (by omega)).head isPrev

/-- The descent from a leader ends at one place. -/
theorem terminal_unique (leftDescent : Relation.ReflTransGen
      (bullshark.PrevLeader history table committedRound) start left)
    (rightDescent : Relation.ReflTransGen
      (bullshark.PrevLeader history table committedRound) start right)
    (leftEnd : ∀ next, ¬ bullshark.PrevLeader history table committedRound left next)
    (rightEnd : ∀ next, ¬ bullshark.PrevLeader history table committedRound right next) :
    left = right := by
  rcases leftDescent.total_of_right_unique prevLeader_rightUnique rightDescent with onward | onward
  · exact (Relation.reflTransGen_iff_eq leftEnd).mp onward |>.symm
  · exact (Relation.reflTransGen_iff_eq rightEnd).mp onward

/-- The next leader does not depend on the supported leader that the descent
starts from. -/
theorem nextLeader_unique (quorum : history.HasQuorumParents bullshark.committee)
    (leftNext : bullshark.NextLeader history table committedRound left)
    (rightNext : bullshark.NextLeader history table committedRound right) :
    left = right := by
  obtain ⟨leftAnchor, isLeft, leftDescent, leftEnd⟩ := leftNext
  obtain ⟨rightAnchor, isRight, rightDescent, rightEnd⟩ := rightNext
  rcases Nat.le_total leftAnchor.round rightAnchor.round with lower | higher
  · have between := descends_to_anchor quorum isLeft isRight.isLeader lower
    exact terminal_unique (between.trans leftDescent) rightDescent leftEnd rightEnd
  · have between := descends_to_anchor quorum isRight isLeft.isLeader higher
    exact terminal_unique leftDescent (between.trans rightDescent) leftEnd rightEnd

end Descent

section

variable (next : bullshark.NextLeader history table committedRound leader)

include next

theorem NextLeader.isLeader : bullshark.IsLeader history table leader := by
  obtain ⟨anchor, isAnchor, descent, _⟩ := next
  cases descent with
  | refl => exact isAnchor.isLeader
  | tail _ step => exact step.isLeader

theorem NextLeader.above : committedRound < leader.round := by
  obtain ⟨anchor, isAnchor, descent, _⟩ := next
  cases descent with
  | refl => exact isAnchor.above
  | tail _ step => exact step.above

end

end Bullshark

/-! ## Recording a sequence -/

namespace Ledger

@[simp] theorem update_gcDepth (ledger : Ledger) (certificate : Certificate) :
    (ledger.update certificate).gcDepth = ledger.gcDepth := rfl

@[simp] theorem update_lastCommittedSubDag (ledger : Ledger) (certificate : Certificate) :
    (ledger.update certificate).lastCommittedSubDag = ledger.lastCommittedSubDag := rfl

theorem update_gcRound (ledger : Ledger) (certificate : Certificate) :
    (ledger.update certificate).lastRound.gcRound =
      gcRound (ledger.update certificate).lastRound.committedRound
        (ledger.update certificate).gcDepth := rfl

/-- The last committed round of an authority after an update. -/
theorem update_getD (ledger : Ledger) (certificate : Certificate) (id : AuthorityIdentifier) :
    (ledger.update certificate).lastCommitted.getD id 0 =
      if certificate.origin = id then
        max (ledger.lastCommitted.getD id 0) certificate.round
      else ledger.lastCommitted.getD id 0 := by
  rw [ExtTreeMap.getD_eq_getD_getElem?, ExtTreeMap.getD_eq_getD_getElem?, update,
    Library.Map.getElem?_alter]
  by_cases same : certificate.origin = id
  · subst same
    cases ledger.lastCommitted[certificate.origin]? <;> simp
  · simp [same]

variable (sequence : List Certificate) (ledger : Ledger)

@[simp] theorem foldl_update_gcDepth : (sequence.foldl update ledger).gcDepth = ledger.gcDepth := by
  induction sequence generalizing ledger with
  | nil => rfl
  | cons certificate sequence ih =>
    rw [List.foldl_cons, ih, update_gcDepth]

@[simp] theorem foldl_update_lastCommittedSubDag :
    (sequence.foldl update ledger).lastCommittedSubDag = ledger.lastCommittedSubDag := by
  induction sequence generalizing ledger with
  | nil => rfl
  | cons certificate sequence ih =>
    rw [List.foldl_cons, ih, update_lastCommittedSubDag]

variable {sequence ledger}

/-- The committed round after a sub-dag is that of its leader. -/
theorem foldl_update_committedRound (listed : leader ∈ sequence)
    (highest : ∀ certificate ∈ sequence, certificate.round ≤ leader.round)
    (above : ledger.lastRound.committedRound ≤ leader.round) :
    (sequence.foldl update ledger).lastRound.committedRound = leader.round := by
  have folded : ∀ (rest : List Certificate) (start : Ledger),
      (rest.foldl update start).lastRound.committedRound =
        (rest.map Certificate.round).foldl max start.lastRound.committedRound := by
    intro rest
    induction rest with
    | nil => exact fun _ => rfl
    | cons certificate rest ih =>
      exact fun start => ih (start.update certificate)
  rw [folded]
  apply Library.Map.foldl_max_eq _ above
  · exact .inr (List.mem_map_of_mem listed)
  · intro round isRound
    obtain ⟨certificate, isListed, rfl⟩ := List.mem_map.mp isRound
    exact highest certificate isListed

/-- The garbage collection round follows the committed round. -/
theorem foldl_update_gcRound (consistent : ledger.lastRound.gcRound =
      gcRound ledger.lastRound.committedRound ledger.gcDepth) :
    (sequence.foldl update ledger).lastRound.gcRound =
      gcRound (sequence.foldl update ledger).lastRound.committedRound
        (sequence.foldl update ledger).gcDepth := by
  induction sequence generalizing ledger with
  | nil => exact consistent
  | cons certificate sequence ih =>
    exact ih (update_gcRound ledger certificate)

/-- Recording never lowers a last committed round. -/
theorem getD_le_foldl_update (id : AuthorityIdentifier) :
    ledger.lastCommitted.getD id 0 ≤ (sequence.foldl update ledger).lastCommitted.getD id 0 := by
  induction sequence generalizing ledger with
  | nil => exact le_rfl
  | cons certificate sequence ih =>
    refine le_trans ?_ ih
    rw [update_getD]
    split
    · exact le_max_left _ _
    · exact le_rfl

/-- What is committed is at most the last committed round. -/
theorem round_le_foldl_update (listed : certificate ∈ sequence) :
    certificate.round ≤ (sequence.foldl update ledger).lastCommitted.getD certificate.origin 0 := by
  induction sequence generalizing ledger with
  | nil => cases listed
  | cons first sequence ih =>
    rcases List.mem_cons.mp listed with rfl | later
    · have here : certificate.round ≤ (ledger.update certificate).lastCommitted.getD
            certificate.origin 0 := by
        rw [update_getD, if_pos rfl]
        exact le_max_right _ _
      exact le_trans here (getD_le_foldl_update certificate.origin)
    · exact ih later

/-- Recording stays within a bound on the rounds. -/
theorem foldl_update_getD_le (below : ∀ certificate ∈ sequence, certificate.round ≤ bound)
    (id : AuthorityIdentifier) (start : ledger.lastCommitted.getD id 0 ≤ bound) :
    (sequence.foldl update ledger).lastCommitted.getD id 0 ≤ bound := by
  induction sequence generalizing ledger with
  | nil => exact start
  | cons certificate sequence ih =>
    have first := below certificate List.mem_cons_self
    apply ih
    · exact (List.forall_mem_cons.mp below).2
    · rw [update_getD]
      split
      · exact max_le start first
      · exact start

end Ledger

/-! ## The commit relation -/

/-- What holds of a ledger between commits. -/
structure Ledger.Sane (committee : Committee) (ledger : Ledger) : Prop where
  depth : 0 < ledger.gcDepth
  gc : ledger.lastRound.gcRound = gcRound ledger.lastRound.committedRound ledger.gcDepth
  even : ledger.lastRound.committedRound % 2 = 0
  bounded : ∀ id, ledger.lastCommitted.getD id 0 ≤ ledger.lastRound.committedRound
  first : ledger.lastCommittedSubDag = none → ledger.lastRound.committedRound = 0
  last : ∀ subDag ∈ ledger.lastCommittedSubDag,
    subDag.leader.round = ledger.lastRound.committedRound ∧
      subDag.reputationScore.ForCommittee committee
  table : ledger.leaderSwapTable.ForCommittee committee

theorem Ledger.Sane.gcRound_le {ledger : Ledger} (sane : ledger.Sane committee) :
    ledger.lastRound.gcRound ≤ ledger.lastRound.committedRound :=
  sane.gc.trans_le (Nat.sub_le _ _)

theorem Ledger.sane_new (committee : Committee) {gcDepth : Nat} (depth : 0 < gcDepth) :
    (Ledger.new gcDepth).Sane committee where
  depth := depth
  gc := by simp [Ledger.new, ConsensusRound.default, gcRound]
  even := rfl
  bounded := by simp [Ledger.new, ConsensusRound.default]
  first := fun _ => rfl
  last := by simp [Ledger.new]
  table := LeaderSwapTable.forCommittee_default

namespace Bullshark

variable (bullshark : Bullshark) (history : CertificateSet)

/-- The next commit of a ledger: its leader, the flattened sequence, the scores
and the swap table after it. -/
structure Commits
    (before : Ledger)
    (leader : Certificate)
    (sequence : List Certificate)
    (scores : ReputationScores)
    (table : LeaderSwapTable) : Prop where
  sane : before.Sane bullshark.committee
  next : bullshark.NextLeader history before.leaderSwapTable
    before.lastRound.committedRound leader
  /-- The sequence is what flattening returns in some view. -/
  ordered : ∃ dag, history.View before.lastRound.gcRound dag ∧
    InDag dag leader ∧ orderDag leader (before.state dag) = .ok sequence
  scored : bullshark.resolveReputationScore before.lastCommittedSubDag sequence
    before.nextSubDagIndex = .ok scores
  scheduled : ∃ changed, bullshark.updateLeaderSchedule before.leaderSwapTable
    leader.round scores = .ok (table, changed)

/-- The sub-dag of a commit. -/
def committedSubDag (before : Ledger) (leader : Certificate) (sequence : List Certificate)
    (scores : ReputationScores) : CommittedSubDag :=
  CommittedSubDag.new sequence leader before.nextSubDagIndex scores
    before.lastCommittedSubDag

/-- The next commit of a ledger, as the write that makes it durable and the
ledger after it. -/
def NextCommit (before : Ledger) (write : CommitRecord) (after : Ledger) : Prop :=
  ∃ leader sequence scores table, bullshark.Commits history before leader sequence scores table ∧
    write.subDag = committedSubDag before leader sequence scores ∧
    write.lastCommitted = after.lastCommitted ∧
    write.lastRound = after.lastRound ∧
    after = before.commit write.subDag table

variable {bullshark history}

namespace Commits

variable {before : Ledger} {leader : Certificate} {sequence : List Certificate}
  {scores : ReputationScores} {table : LeaderSwapTable}

section

variable (commits : bullshark.Commits history before leader sequence scores table)

include commits

theorem gc_le : before.lastRound.gcRound ≤ gcRound leader.round before.gcDepth := by
  have above := commits.next.above
  rw [commits.sane.gc, gcRound, gcRound]
  omega

/-- The sequence of a commit is flattened. -/
theorem flattened :
    history.Flattened before.lastCommitted
      (gcRound leader.round before.gcDepth) leader sequence := by
  obtain ⟨dag, view, present, ordered⟩ := commits.ordered
  have stateView : history.View before.lastRound.gcRound (before.state dag).dag := view
  have positive := commits.next.above
  obtain ⟨sequence', ordered', flattened⟩ := stateView.orderDag_spec present
    (by omega) commits.sane.depth commits.gc_le
  rw [ordered] at ordered'
  cases ordered'
  exact flattened

theorem round_le (certificate : Certificate) (listed : certificate ∈ sequence) :
    certificate.round ≤ leader.round :=
  (commits.flattened.path certificate listed).1.round_le

end

/-- The next commit of a ledger is unique. -/
theorem unique (quorum : history.HasQuorumParents bullshark.committee)
    (commits : bullshark.Commits history before leader sequence scores table)
    (commits' : bullshark.Commits history before leader' sequence' scores' table') :
    leader = leader' ∧ sequence = sequence' ∧ scores = scores' ∧ table = table' := by
  obtain rfl := nextLeader_unique quorum commits.next commits'.next
  obtain ⟨dag, view, present, ordered⟩ := commits.ordered
  obtain ⟨dag', view', present', ordered'⟩ := commits'.ordered
  have stateView : history.View before.lastRound.gcRound (before.state dag).dag := view
  have stateView' : history.View before.lastRound.gcRound (before.state dag').dag := view'
  obtain rfl : sequence = sequence' := stateView.orderDag_congr stateView'
    present present' rfl rfl commits.gc_le commits.gc_le commits.sane.depth ordered ordered'
  have scored := commits.scored
  rw [commits'.scored] at scored
  cases scored
  obtain ⟨changed, scheduled⟩ := commits.scheduled
  obtain ⟨changed', scheduled'⟩ := commits'.scheduled
  rw [scheduled'] at scheduled
  cases scheduled
  exact ⟨rfl, rfl, rfl, rfl⟩

variable (commits : bullshark.Commits history before leader sequence scores table)

include commits

/-- The scores of a commit are for the committee. -/
theorem scores_forCommittee : scores.ForCommittee bullshark.committee := by
  have first : before.lastCommittedSubDag = none → before.nextSubDagIndex = 1 := by
    intro absent
    simp [Ledger.nextSubDagIndex, absent]
  rcases resolveReputationScore_spec sequence first
      (fun last present => (commits.sane.last last present).2)
    with ⟨scores', resolved, forCommittee, _⟩ | ⟨failed, _⟩
  · rw [commits.scored] at resolved
    cases resolved
    exact forCommittee
  · rw [commits.scored] at failed
    cases failed

theorem table_forCommittee : table.ForCommittee bullshark.committee := by
  obtain ⟨changed, scheduled⟩ := commits.scheduled
  obtain ⟨table', changed', scheduled', forCommittee, _⟩ :=
    updateLeaderSchedule_spec leader.round commits.scores_forCommittee commits.sane.table
  rw [scheduled] at scheduled'
  cases scheduled'
  exact forCommittee

theorem committedRound :
    (sequence.foldl Ledger.update before).lastRound.committedRound = leader.round :=
  Ledger.foldl_update_committedRound commits.flattened.leaderFound
    commits.round_le commits.next.above.le

/-- A commit keeps the ledger sane. -/
theorem sane_commit :
    (before.commit (committedSubDag before leader sequence scores) table).Sane
      bullshark.committee where
  depth := by
    change 0 < (sequence.foldl Ledger.update before).gcDepth
    rw [Ledger.foldl_update_gcDepth]
    exact commits.sane.depth
  gc := Ledger.foldl_update_gcRound commits.sane.gc
  even := by
    change (sequence.foldl Ledger.update before).lastRound.committedRound % 2 = 0
    rw [commits.committedRound]
    exact commits.next.isLeader.even
  bounded := by
    intro id
    change (sequence.foldl Ledger.update before).lastCommitted.getD id 0 ≤
      (sequence.foldl Ledger.update before).lastRound.committedRound
    rw [commits.committedRound]
    exact Ledger.foldl_update_getD_le commits.round_le id
      (le_trans (commits.sane.bounded id) commits.next.above.le)
  first := by
    intro absent
    cases absent
  last := by
    intro subDag present
    cases present
    exact ⟨commits.committedRound.symm, commits.scores_forCommittee⟩
  table := commits.table_forCommittee

end Commits

/-- The ledger and what is committed determine the write and the ledger after it. -/
theorem NextCommit.exists_commits (next : bullshark.NextCommit history before write after) :
    ∃ leader sequence scores table, bullshark.Commits history before leader sequence scores table ∧
      after = before.commit (committedSubDag before leader sequence scores) table ∧
      write = ⟨after.lastCommitted, committedSubDag before leader sequence scores,
        after.lastRound⟩ := by
  obtain ⟨_, _, _⟩ := write
  obtain ⟨leader, sequence, scores, table, commits, rfl, committed, rounds, rfl⟩ := next
  exact ⟨leader, sequence, scores, table, commits, rfl, by congr⟩

/-- The ledger determines the next commit. -/
theorem nextCommit_functional (quorum : history.HasQuorumParents bullshark.committee) :
    Library.Functional (bullshark.NextCommit history) := by
  intro before write after write' after' next next'
  obtain ⟨leader, sequence, scores, table, commits, rfl, rfl⟩ := next.exists_commits
  obtain ⟨_, _, _, _, commits', rfl, rfl⟩ := next'.exists_commits
  obtain ⟨rfl, rfl, rfl, rfl⟩ := commits.unique quorum commits'
  exact ⟨rfl, rfl⟩

theorem NextCommit.sane (next : bullshark.NextCommit history before write after) :
    after.Sane bullshark.committee := by
  obtain ⟨leader, sequence, scores, table, commits, rfl, rfl⟩ := next.exists_commits
  exact commits.sane_commit

end Bullshark

end Sui.Narwhal
