import Sui.Narwhal.Consensus.Bullshark

/-!
# Scores and swap tables stay within the committee

The scores of every committed sub-dag have exactly the members of the committee
as keys, and the swap tables built from them name members only.  So building a
swap table never panics, and the score check panics only when a committed
certificate has an author outside the committee.
-/

namespace Sui.Narwhal

open List hiding after
open Std (ExtTreeMap)
open ReputationScores LowScoring LeaderSwapTable

namespace ReputationScores

/-- The scores have exactly the committee as keys. -/
def ForCommittee (committee : Committee) (scores : ReputationScores) : Prop :=
  ∀ id, id ∈ scores.scoresPerAuthority ↔ id < committee.size

/-- The scores have at least the committee as keys. -/
def Cover (committee : Committee) (scores : ReputationScores) : Prop :=
  ∀ id, id < committee.size → id ∈ scores.scoresPerAuthority

variable {committee : Committee} {scores : ReputationScores}

theorem forCommittee_new : (new committee).ForCommittee committee := by
  intro id
  rw [new, ExtTreeMap.mem_ofList]
  simp only [map_map, Function.comp_def, contains_iff_mem,
    show (committee.authorities.map fun authority => authority.id) =
      List.range committee.size from committee.ids, mem_range]

/-- Who is listed after a score was added. -/
theorem mem_addScore_iff (authority : AuthorityIdentifier) (score : Nat)
    (id : AuthorityIdentifier) :
    id ∈ (scores.addScore authority score).scoresPerAuthority ↔
      id ∈ scores.scoresPerAuthority ∨ id = authority := by
  rw [ExtTreeMap.mem_iff_isSome_getElem?, ExtTreeMap.mem_iff_isSome_getElem?, addScore,
    Library.Map.getElem?_alter]
  by_cases same : authority = id
  · subst same
    cases scores.scoresPerAuthority[authority]? <;> simp
  · simp [same, Ne.symm same]

/-- Scores are for the committee if they list enough members. -/
theorem forCommittee_iff_totalAuthorities_eq (cover : scores.Cover committee) :
    scores.ForCommittee committee ↔ scores.totalAuthorities = committee.size := by
  have nodup : scores.scoresPerAuthority.keys.Nodup :=
    ExtTreeMap.distinct_keys.imp fun different same =>
      different (by simp [same])
  have subperm : (List.range committee.size).Subperm scores.scoresPerAuthority.keys := by
    apply nodup_range.subperm
    intro id inside
    exact ExtTreeMap.mem_keys.mpr (cover id (mem_range.mp inside))
  constructor
  · intro forCommittee
    have reverse : scores.scoresPerAuthority.keys.Subperm (List.range committee.size) := by
      apply nodup.subperm
      intro id inside
      exact mem_range.mpr ((forCommittee id).mp (ExtTreeMap.mem_keys.mp inside))
    have lengths := (subperm.antisymm reverse).length_eq
    rw [totalAuthorities, ← ExtTreeMap.length_keys, ← lengths, length_range]
  · intro sameSize id
    have permuted := subperm.perm_of_length_le (by
      rw [ExtTreeMap.length_keys, length_range]
      exact sameSize.le)
    rw [← ExtTreeMap.mem_keys, ← permuted.mem_iff, mem_range]

end ReputationScores

namespace Bullshark

variable {bullshark : Bullshark}

/-- Who is listed after votes were added. -/
theorem mem_addVotes_iff (lastCommittedSubDag : Option CommittedSubDag)
    (sequence : List Certificate) (scores : ReputationScores) (id : AuthorityIdentifier) :
    id ∈ (addVotes lastCommittedSubDag sequence scores).scoresPerAuthority ↔
      id ∈ scores.scoresPerAuthority ∨ ∃ last ∈ lastCommittedSubDag, ∃ certificate ∈ sequence,
          last.leader.digest ∈ certificate.parents ∧ certificate.origin = id := by
  cases lastCommittedSubDag with
  | none => simp [addVotes]
  | some last =>
    simp only [addVotes, Option.mem_def, Option.some.injEq, exists_eq_left']
    induction sequence generalizing scores with
    | nil => simp
    | cons certificate sequence ih =>
      rw [foldl_cons, ih]
      by_cases votes : last.leader.digest ∈ certificate.parents
      · simp only [contains_iff_mem, votes, if_true,
          mem_addScore_iff, mem_cons, exists_eq_or_imp, true_and]
        rw [or_assoc, eq_comm]
      · simp [votes]

/-- The scores that a sub-dag starts from. -/
theorem startingScores_spec (first : lastCommittedSubDag = none → subDagIndex = 1)
    (previous : ∀ last ∈ lastCommittedSubDag,
      last.reputationScore.ForCommittee bullshark.committee) :
    ∃ scores, bullshark.startingScores lastCommittedSubDag subDagIndex = .ok scores ∧
      scores.ForCommittee bullshark.committee := by
  unfold startingScores
  split
  · exact ⟨_, rfl, forCommittee_new⟩
  · next notReset =>
    cases lastCommittedSubDag with
    | none => exact absurd (.inl (first rfl)) notReset
    | some last => exact ⟨_, rfl, previous last rfl⟩

/-- The scores of a sub-dag. -/
theorem resolveReputationScore_spec (sequence : List Certificate)
    (first : lastCommittedSubDag = none → subDagIndex = 1)
    (previous : ∀ last ∈ lastCommittedSubDag,
      last.reputationScore.ForCommittee bullshark.committee) :
    (∃ scores, bullshark.resolveReputationScore lastCommittedSubDag sequence
        subDagIndex = .ok scores ∧
      scores.ForCommittee bullshark.committee ∧
      scores.finalOfSchedule = ((subDagIndex + 1) % bullshark.numSubDagsPerSchedule == 0)) ∨
    (bullshark.resolveReputationScore lastCommittedSubDag sequence subDagIndex =
        .error (.panic .scoresOutsideCommittee) ∧
      ∃ certificate ∈ sequence, ¬ certificate.origin < bullshark.committee.size) := by
  obtain ⟨start, started, forCommittee⟩ := startingScores_spec first previous
  set voted := addVotes lastCommittedSubDag sequence start with votedDefinition
  have cover : voted.Cover bullshark.committee := by
    intro id inside
    rw [votedDefinition, mem_addVotes_iff]
    exact .inl ((forCommittee id).mpr inside)
  have sameTotal := forCommittee_iff_totalAuthorities_eq cover
  rw [resolveReputationScore, started]
  by_cases allMembers : voted.ForCommittee bullshark.committee
  · left
    have total : voted.totalAuthorities = bullshark.committee.size := sameTotal.mp allMembers
    refine ⟨_, if_neg (not_not.mpr total), allMembers, rfl⟩
  · right
    have total : voted.totalAuthorities ≠ bullshark.committee.size :=
      fun same => allMembers (sameTotal.mpr same)
    refine ⟨if_pos total, ?_⟩
    by_contra noOutsider
    push Not at noOutsider
    apply allMembers
    intro id
    refine ⟨?_, cover id⟩
    rw [votedDefinition, mem_addVotes_iff]
    rintro (member | ⟨_, _, certificate, listed, _, rfl⟩)
    · exact (forCommittee id).mp member
    · exact noOutsider certificate listed

end Bullshark

namespace LeaderSwapTable

variable {committee : Committee}

/-- All good nodes of a table are members of the committee. -/
def ForCommittee (committee : Committee) (table : LeaderSwapTable) : Prop :=
  ∀ node ∈ table.goodNodes, node ∈ committee.authorities

theorem forCommittee_default : default.ForCommittee committee := by
  intro node listed
  cases listed

end LeaderSwapTable

/-- The stake that the nodes of one kind may have. -/
abbrev Committee.share (committee : Committee) (threshold : Nat) : Nat :=
  threshold * committee.totalStake / 100

section Selection

variable {committee : Committee}

/-- The stake of the authorities of some scores. -/
def stakeOf (committee : Committee) (authorities : List (AuthorityIdentifier × Nat)) : Nat :=
  (authorities.map fun entry => committee.stakeById entry.1).sum

/-- What is selected from the front of a list of authorities, within a share of the stake. -/
structure Selection (committee : Committee) (threshold stake : Nat)
    (authorities first : List (AuthorityIdentifier × Nat)) (nodes : List Authority)
    (flags : List (PublicKey × Nat)) : Prop where
  retrieved : LeaderSwapTable.retrieveFirstNodes committee threshold stake authorities = .ok nodes
  flagged : LowScoring.flagged committee threshold stake authorities = .ok flags
  front : ∃ rest, authorities = first ++ rest
  members : ∀ node ∈ nodes, node ∈ committee.authorities
  ids : nodes.map Authority.id = first.map Prod.fst
  keys : flags.map Prod.fst = nodes.map Authority.protocolKey
  light : stakeOf committee first ≤ committee.share threshold - stake
  isEmpty : nodes = [] ↔
    ∀ entry ∈ authorities.head?, committee.share threshold < stake + committee.stakeById entry.1

/-- Beyond the share nobody is flagged. -/
theorem flagged_of_share_lt (members : ∀ entry ∈ authorities, entry.1 < committee.size)
    (beyond : committee.share threshold < stake) :
    flagged committee threshold stake authorities = .ok [] := by
  induction authorities generalizing stake with
  | nil => rfl
  | cons entry authorities ih =>
    obtain ⟨inside, members⟩ := forall_mem_cons.mp members
    obtain ⟨authority, found⟩ := Option.isSome_iff_exists.mp
      ((committee.authority_isSome_iff entry.1).mpr inside)
    have still : committee.share threshold < stake + authority.stake := by omega
    simp only [flagged, found, ih members still, if_neg (not_le.mpr still)]

/-- Bad nodes and authorities with low scores are selected alike. -/
theorem exists_selection (threshold stake : Nat)
    (members : ∀ entry ∈ authorities, entry.1 < committee.size) :
    ∃ first nodes flags, Selection committee threshold stake authorities first nodes flags := by
  induction authorities generalizing stake with
  | nil =>
    exact ⟨[], [], [], rfl, rfl, ⟨[], rfl⟩, nofun, rfl, rfl, Nat.zero_le _, by simp⟩
  | cons entry authorities ih =>
    obtain ⟨inside, members⟩ := forall_mem_cons.mp members
    obtain ⟨authority, found⟩ := Option.isSome_iff_exists.mp
      ((committee.authority_isSome_iff entry.1).mpr inside)
    have stakeEq : committee.stakeById entry.1 = authority.stake := by
      rw [Committee.stakeById, found]
    by_cases beyond : committee.share threshold < stake + authority.stake
    · refine ⟨[], [], [], ?_, ?_, ⟨_, rfl⟩, nofun, rfl, rfl, Nat.zero_le _, ?_⟩
      · rw [retrieveFirstNodes, stakeEq, if_pos beyond]
      · simp only [flagged, found, flagged_of_share_lt members beyond, if_neg (not_le.mpr beyond)]
      · simp [stakeEq, beyond]
    · obtain ⟨first, nodes, flags, selected⟩ := ih (stake + authority.stake) members
      obtain ⟨rest, front⟩ := selected.front
      refine ⟨entry :: first, authority :: nodes, (authority.protocolKey, entry.2) :: flags, ?_, ?_,
        ⟨rest, congrArg _ front⟩, forall_mem_cons.mpr ⟨mem_of_getElem? found, selected.members⟩,
        ?_, congrArg _ selected.keys, ?_, by simp [stakeEq, beyond]⟩
      · simp only [retrieveFirstNodes, stakeEq, if_neg beyond, found, selected.retrieved]
      · simp only [flagged, found, selected.flagged, if_pos (not_lt.mp beyond)]
      · rw [map_cons, map_cons, selected.ids, committee.id_of_authority_eq_some found]
      · have light := selected.light
        simp only [stakeOf, map_cons, sum_cons, stakeEq] at light ⊢
        omega

end Selection

namespace ReputationScores

variable {committee : Committee} {scores : ReputationScores}

theorem mem_authoritiesByScoreDesc :
    entry ∈ scores.authoritiesByScoreDesc ↔ scores.scoresPerAuthority[entry.1]? = some entry.2 := by
  rw [authoritiesByScoreDesc, mem_insertionSort]
  exact ExtTreeMap.mem_toList_iff_getElem?_eq_some

theorem ForCommittee.members (forCommittee : scores.ForCommittee committee) :
    ∀ entry ∈ scores.authoritiesByScoreDesc, entry.1 < committee.size := by
  intro entry listed
  apply (forCommittee entry.1).mp
  rw [ExtTreeMap.mem_iff_isSome_getElem?, mem_authoritiesByScoreDesc.mp listed]
  rfl

end ReputationScores

/-- The swap table of final scores. -/
theorem LeaderSwapTable.new_spec {committee : Committee} (round : Nat) (inRange : threshold ≤ 33)
    (final : scores.finalOfSchedule = true) (forCommittee : scores.ForCommittee committee) :
    ∃ table, new committee round scores threshold = .ok table ∧ table.ForCommittee committee := by
  obtain ⟨_, good, _, goodSelected⟩ := exists_selection threshold 0 forCommittee.members
  obtain ⟨_, bad, _, badSelected⟩ := exists_selection threshold 0 fun entry listed =>
    forCommittee.members entry (mem_reverse.mp listed)
  rw [new, if_neg (not_not.mpr inRange), if_neg (by simp [final]), goodSelected.retrieved]
  simp only [badSelected.retrieved]
  exact ⟨_, rfl, goodSelected.members⟩

/-- The swap table after a commit is for the committee, and it is replaced
exactly by final scores under the new schedule. -/
theorem Bullshark.updateLeaderSchedule_spec {bullshark : Bullshark} (leaderRound : Nat)
    (forCommittee : scores.ForCommittee bullshark.committee)
    (tableForCommittee : table.ForCommittee bullshark.committee) :
    ∃ next changed, bullshark.updateLeaderSchedule table leaderRound scores = .ok (next, changed) ∧
      next.ForCommittee bullshark.committee ∧
      (changed = false → next = table) := by
  unfold updateLeaderSchedule
  split
  · next replaced =>
    rw [Bool.and_eq_true] at replaced
    obtain ⟨next, built, nextForCommittee⟩ := new_spec
      leaderRound bullshark.thresholdInRange replaced.2 forCommittee
    rw [built]
    exact ⟨next, true, rfl, nextForCommittee, by simp⟩
  · exact ⟨table, false, rfl, tableForCommittee, fun _ => rfl⟩

/-- A swap leaves the leader, finds a good node, or has none to swap with. -/
theorem LeaderSwapTable.swap_cases (election : Election) (table : LeaderSwapTable)
    (leader : AuthorityIdentifier) (round : Nat) :
    table.swap election leader round = .ok none ∨
    (∃ node ∈ table.goodNodes, table.swap election leader round = .ok (some node)) ∨
    table.swap election leader round = .error (.panic .noGoodNode) := by
  unfold swap
  split
  · cases chosen : election.choose table.goodNodes round with
    | none => exact .inr (.inr rfl)
    | some node =>
      exact .inr (.inl ⟨node, election.choose_mem _ _ _ chosen, rfl⟩)
  · exact .inl rfl

/-- The leader of an even round is a member of the committee; its election can
only fail because no good node is left. -/
theorem LeaderSchedule.leader_spec (election : Election)
    (forCommittee : table.ForCommittee committee) {round : Nat} (even : round % 2 = 0) :
    (∃ authority, leader committee election table round = .ok authority ∧
      authority ∈ committee.authorities) ∨
    leader committee election table round = .error (.panic .noGoodNode) := by
  unfold leader
  rw [if_neg (by omega)]
  rcases table.swap_cases election (election.leader committee round).id round
    with kept | ⟨node, good, swapped⟩ | failed
  · simp only [kept]
    exact .inl ⟨_, rfl, election.leader_mem committee round⟩
  · simp only [swapped]
    exact .inl ⟨_, rfl, forCommittee node good⟩
  · simp only [failed]
    exact .inr trivial

end Sui.Narwhal
