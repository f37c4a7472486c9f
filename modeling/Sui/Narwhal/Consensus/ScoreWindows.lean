import Sui.Narwhal.Consensus.Recovery

/-!
# Reputation scores of a window

The scores of a sub-dag are built from those of the sub-dag before.  Over whole
runs, with crashes and restarts, they count the votes for committed leaders since
the last reset, and the swap table in use is the one of the last final scores.
-/

namespace Sui.Narwhal

open Library
open List hiding after
open Finset (Icc)
open Std (ExtTreeMap)

/-- The first sub-dag of the window of a sub-dag: the last multiple of the length
of a schedule, or the first sub-dag of all. -/
def windowStart (numSubDagsPerSchedule index : Nat) : Nat :=
  max 1 (index / numSubDagsPerSchedule * numSubDagsPerSchedule)

/-- The certificates of an authority in a sub-dag that vote for a leader. -/
def CommittedSubDag.votes (subDag : CommittedSubDag) (leader : Certificate)
    (authority : AuthorityIdentifier) : Nat :=
  subDag.certificates.countP fun certificate =>
    certificate.parents.contains leader.digest && certificate.origin == authority

/-- The votes of an authority in the sub-dag with an index for the leader of the
sub-dag before. -/
def leaderSupport (subDags : List CommittedSubDag) (authority : AuthorityIdentifier) : Nat → Nat
  | index + 2 => match subDags[index]?, subDags[index + 1]? with
    | some previous, some subDag => subDag.votes previous.leader authority
    | _, _ => 0
  | _ => 0

/-- What the scores of a sub-dag say, given the sub-dags before it. -/
structure CommittedSubDag.Scored
    (bullshark : Bullshark)
    (earlier : List CommittedSubDag)
    (subDag : CommittedSubDag) : Prop where
  index : subDag.subDagIndex = earlier.length + 1
  listed : subDag.reputationScore.ForCommittee bullshark.committee
  score : ∀ authority, subDag.reputationScore.scoresPerAuthority.getD authority 0 =
    ∑ index ∈ Icc (windowStart bullshark.numSubDagsPerSchedule subDag.subDagIndex)
      subDag.subDagIndex, leaderSupport (earlier ++ [subDag]) authority index
  final : subDag.reputationScore.finalOfSchedule = true ↔
    bullshark.numSubDagsPerSchedule ∣ subDag.subDagIndex + 1

/-- The swap table of the last sub-dag that ends a schedule. -/
def Bullshark.scheduleAfter (bullshark : Bullshark) (commits : List CommitRecord) :
    Except Failure LeaderSwapTable :=
  match commits.reverse.find? fun commit => commit.subDag.reputationScore.finalOfSchedule,
      bullshark.newLeaderElectionSchedule with
  | some commit, true => LeaderSwapTable.new bullshark.committee commit.subDag.leader.round
      commit.subDag.reputationScore bullshark.badNodesStakeThreshold
  | _, _ => .ok LeaderSwapTable.default

theorem windowStart_of_reset {length index : Nat} (positive : 0 < index)
    (reset : index = 1 ∨ index % length = 0) : windowStart length index = index := by
  rcases reset with rfl | multiple
  · exact max_eq_left (Nat.div_mul_le_self 1 length)
  · rw [windowStart, Nat.div_mul_cancel (Nat.dvd_of_mod_eq_zero multiple), max_eq_right positive]

theorem windowStart_succ {length index : Nat}
    (within : ¬ (index + 1 = 1 ∨ (index + 1) % length = 0)) :
    windowStart length (index + 1) = windowStart length index := by
  have notReset : ¬ length ∣ index + 1 := fun reset =>
    within (.inr (Nat.mod_eq_zero_of_dvd reset))
  rw [windowStart, Nat.succ_div_of_not_dvd notReset, windowStart]

section

variable (earlier : List CommittedSubDag) (subDag : CommittedSubDag)
  (authority : AuthorityIdentifier)

theorem leaderSupport_append (inside : index ≤ earlier.length) :
    leaderSupport (earlier ++ [subDag]) authority index =
      leaderSupport earlier authority index := by
  match index with
  | 0 | 1 => rfl
  | index + 2 => grind [leaderSupport]

/-- The support in the sub-dag committed last. -/
theorem leaderSupport_last :
    leaderSupport (earlier ++ [subDag]) authority (earlier.length + 1) =
      earlier.getLast?.elim 0 fun previous => subDag.votes previous.leader authority := by
  cases earlier using List.reverseRecOn with
  | nil => rfl
  | append_singleton front previous => simp [leaderSupport]

end

namespace ReputationScores

/-- New scores are zero. -/
theorem getD_new (committee : Committee) (authority : AuthorityIdentifier) :
    (new committee).scoresPerAuthority.getD authority 0 = 0 := by
  by_cases member : authority < committee.size
  · have distinct : (committee.authorities.map Authority.id).Nodup := committee.ids ▸ nodup_range
    have listed : authority ∈ committee.authorities.map Authority.id :=
      committee.ids ▸ mem_range.mpr member
    obtain ⟨entry, inside, rfl⟩ := mem_map.mp listed
    apply ExtTreeMap.getD_ofList_of_mem (k := entry.id) (compare_eq_iff_eq.mpr rfl)
    · rw [pairwise_map]
      exact (pairwise_map.mp distinct).imp fun different same =>
        different (compare_eq_iff_eq.mp same)
    · exact mem_map_of_mem inside
  · have absent := mt (forCommittee_new authority).mp member
    exact ExtTreeMap.getD_eq_fallback absent

/-- Adding to the score of an authority. -/
theorem getD_addScore (scores : ReputationScores) (authority other : AuthorityIdentifier)
    (score : Nat) :
    (scores.addScore authority score).scoresPerAuthority.getD other 0 =
      scores.scoresPerAuthority.getD other 0 + if authority = other then score else 0 := by
  simp only [addScore, ExtTreeMap.getD_eq_getD_getElem?, Map.getElem?_alter]
  split
  · next same =>
    subst same
    cases scores.scoresPerAuthority[authority]? <;> simp
  · rfl

end ReputationScores

namespace Bullshark

variable {bullshark : Bullshark} {history : CertificateSet} {gcDepth : Nat}

/-- The votes that are added to the scores. -/
theorem getD_addVotes (last : Option CommittedSubDag) (subDag : CommittedSubDag)
    (scores : ReputationScores) (authority : AuthorityIdentifier) :
    (addVotes last subDag.certificates scores).scoresPerAuthority.getD authority 0 =
      scores.scoresPerAuthority.getD authority 0 +
        last.elim 0 fun previous => subDag.votes previous.leader authority := by
  cases last with
  | none => rfl
  | some previous =>
    rw [addVotes, Option.elim_some, CommittedSubDag.votes]
    generalize subDag.certificates = sequence
    induction sequence generalizing scores with
    | nil => rfl
    | cons certificate sequence ih =>
      rw [foldl_cons, ih, countP_cons]
      by_cases votes : previous.leader.digest ∈ certificate.parents
      · simp [votes, ReputationScores.getD_addScore]
        omega
      · simp [votes]

variable {earlier : List CommittedSubDag} {subDag : CommittedSubDag}

section

variable (scored : ∀ front previous, earlier = front ++ [previous] →
  previous.Scored bullshark front)

include scored

/-- The scores that a sub-dag starts from count the votes of its window before
it. -/
theorem getD_startingScores
    (started : bullshark.startingScores earlier.getLast? (earlier.length + 1) = .ok scores)
    (authority : AuthorityIdentifier) :
    scores.scoresPerAuthority.getD authority 0 +
        leaderSupport (earlier ++ [subDag]) authority (earlier.length + 1) =
      ∑ index ∈ Icc (windowStart bullshark.numSubDagsPerSchedule (earlier.length + 1))
        (earlier.length + 1), leaderSupport (earlier ++ [subDag]) authority index := by
  unfold startingScores at started
  split at started
  · next reset =>
    cases started
    rw [ReputationScores.getD_new, zero_add, windowStart_of_reset (Nat.succ_pos _) reset,
      Finset.Icc_self, Finset.sum_singleton]
  · next within =>
    cases earlier using List.reverseRecOn with
    | nil => cases started
    | append_singleton front previous =>
      rw [getLast?_concat] at started
      cases started
      have before := scored front previous rfl
      have length : (front ++ [previous]).length = previous.subDagIndex := by
        rw [before.index, length_append, length_singleton]
      rw [length] at within ⊢
      have start : windowStart bullshark.numSubDagsPerSchedule (previous.subDagIndex + 1) ≤ _ :=
        max_le (Nat.succ_pos _) (Nat.div_mul_le_self _ _)
      rw [before.score, Finset.sum_Icc_succ_top start, windowStart_succ within]
      congr 1
      refine Finset.sum_congr rfl fun index inside => ?_
      exact (leaderSupport_append _ _ _ (length ▸ (Finset.mem_Icc.mp inside).2)).symm

/-- The scores of the next sub-dag. -/
theorem scored_of_resolve (index : subDag.subDagIndex = earlier.length + 1)
    (listed : subDag.reputationScore.ForCommittee bullshark.committee)
    (resolved : bullshark.resolveReputationScore earlier.getLast? subDag.certificates
      subDag.subDagIndex = .ok subDag.reputationScore) :
    subDag.Scored bullshark earlier := by
  unfold resolveReputationScore at resolved
  split at resolved
  · cases resolved
  · next scores started =>
    dsimp only at resolved
    split at resolved
    · cases resolved
    · have same := Except.ok.inj resolved
      refine ⟨index, listed, ?_, ?_⟩
      · intro authority
        rw [index] at started ⊢
        rw [← same, ← getD_startingScores scored started, leaderSupport_last]
        exact getD_addVotes _ _ _ _
      · rw [← same, Nat.dvd_iff_mod_eq_zero]
        exact beq_iff_eq

end

/-- Every sub-dag is scored after those before it. -/
def AllScored (bullshark : Bullshark) (commits : List CommitRecord) : Prop :=
  ∀ earlier commit, earlier ++ [commit] <+: commits →
    commit.subDag.Scored bullshark (earlier.map CommitRecord.subDag)

/-- The scores of the next commit count its window. -/
theorem AllScored.step {commits : List CommitRecord} (scored : bullshark.AllScored commits)
    (persisted : bullshark.Persisted history gcDepth commits before)
    (next : bullshark.NextCommit history before commit after) :
    bullshark.AllScored (commits ++ [commit]) := by
  have sane := next.sane
  obtain ⟨leader, sequence, scores, table, commits', rfl, rfl⟩ := next.exists_commits
  intro earlier last cut
  rcases prefix_concat_iff.mp cut with whole | inside
  · obtain ⟨rfl, ⟨⟩⟩ := append_inj' whole rfl
    apply scored_of_resolve
    · intro front previous isLast
      obtain ⟨front, rest, rfl, rfl, isPrevious⟩ := map_eq_append_iff.mp isLast
      obtain ⟨previous, rfl, rfl⟩ := map_eq_singleton_iff.mp isPrevious
      exact scored front previous prefix_rfl
    · rw [length_map]
      exact persisted.recorded.nextIndex
    · exact (sane.last _ rfl).2
    · rw [getLast?_map, ← lastSubDagAfter, ← persisted.lastSubDag]
      exact commits'.scored
  · exact scored earlier last inside

/-- The table in use is that of the last final scores. -/
theorem Persisted.scheduleAfter_eq
    (persisted : bullshark.Persisted history gcDepth commits ledger) :
    bullshark.scheduleAfter commits = .ok ledger.leaderSwapTable := by
  have latest : (ConsensusStore.empty.persist commits).readLatestCommitWithFinalReputationScores =
      (commits.reverse.find? fun commit => commit.subDag.reputationScore.finalOfSchedule).map
        fun commit => .v2 (.fromSubDag commit.subDag) := by
    rw [ConsensusStore.readLatestCommitWithFinalReputationScores, persisted.storedSubDags,
      map_map, ← map_reverse, find?_map]
    rfl
  rw [← persisted.storedSwapTable, LeaderSchedule.fromStore, latest, scheduleAfter]
  cases bullshark.newLeaderElectionSchedule <;> cases commits.reverse.find? _ <;> rfl

/-- At any time, the scores of every sub-dag that a validator has persisted count
the votes of its window, and its swap table is that of the last sub-dag that ended
a schedule. -/
theorem scores_of_reachable (bullshark : Bullshark) (history : CertificateSet) (gcDepth : Nat)
    (depth : 1 ≤ gcDepth) (validator : Validator)
    (reachable : validator.Reachable bullshark history gcDepth) :
    bullshark.AllScored validator.commits ∧ ∀ node known, validator.live = some (node, known) →
      bullshark.scheduleAfter validator.commits = .ok node.leaderSwapTable := by
  obtain ⟨ledger, consistent⟩ := reachable.consistent depth
  have start : bullshark.Persisted history gcDepth [] (Ledger.new gcDepth) ∧
      bullshark.AllScored [] := ⟨persisted_new bullshark history depth, by simp [AllScored]⟩
  obtain ⟨persisted, scored⟩ := consistent.trace.preserve
    (fun commits ledger => bullshark.Persisted history gcDepth commits ledger ∧
      bullshark.AllScored commits)
    (fun _ _ _ _ before next => ⟨before.1.step next, before.2.step before.1 next⟩) start
  refine ⟨scored, ?_⟩
  intro node known live
  obtain ⟨_, rfl, _⟩ := consistent.running node known live
  exact persisted.scheduleAfter_eq

/-- Four commits of the committee of one.  The second and the fourth start a window. -/
theorem scores_of_reachable_solo :
    ((soloCrashed 9 4).commits.map fun commit =>
        (commit.subDag.reputationScore.scoresPerAuthority.getD 0 0,
          commit.subDag.reputationScore.finalOfSchedule)) =
      [(0, true), (1, false), (2, true), (1, false)] ∧
    soloBullshark.AllScored (soloCrashed 9 4).commits :=
  ⟨by decide +kernel, (scores_of_reachable soloBullshark soloHistory 4 (by decide)
    (soloCrashed 9 4) (soloCrashed_reachable 8 4)).1⟩

/-- Without the new election schedule the final scores of a schedule leave the
table as it is. -/
theorem schedule_unchanged :
    let bullshark := { soloBullshark with newLeaderElectionSchedule := false }
    let run := bullshark.run (soloDeliveries 3) (Node.new 1)
    run.emitted.map (fun commit => commit.subDag.reputationScore.finalOfSchedule) = [true] ∧
    run.result.toOption.map (fun node => node.leaderSwapTable.round) = some 0 := by
  decide +kernel

end Bullshark

end Sui.Narwhal
