import Sui.Narwhal.Consensus.Agreement

/-!
# What a swap table is safe for

The good and the bad nodes of a swap table are cut off both ends of one order of scores,
each within a share of the stake.  So they are disjoint and the bad nodes score no better,
whatever the stakes are.  But a best node that has more than the share alone leaves no good
nodes, and then no bad leader can be replaced.
-/

namespace Sui.Narwhal

open Library ReputationScores
open List hiding after
open Std (ExtTreeMap)

variable {committee : Committee} {scores : ReputationScores}

/-- What is cut off both ends of an order does not overlap if it is lighter than the whole. -/
theorem apart {relation : AuthorityIdentifier × Nat → AuthorityIdentifier × Nat → Prop}
    (ordered : order.Pairwise relation) (front : ∃ rest, order = good ++ rest)
    (back : ∃ rest, order.reverse = bad ++ rest)
    (light : stakeOf committee good + stakeOf committee bad < stakeOf committee order) :
    ∀ best ∈ good, ∀ worst ∈ bad, relation best worst := by
  obtain ⟨rest, rfl⟩ := front
  obtain ⟨others, back⟩ := back
  have ends : good ++ rest = others.reverse ++ bad.reverse := by
    rw [← reverse_append, ← back, reverse_reverse]
  rcases append_eq_append_iff.mp ends with ⟨middle, _, rfl⟩ | ⟨middle, rfl, overlap⟩
  · intro best isGood worst isBad
    exact (pairwise_append.mp ordered).2.2 best isGood worst
      (mem_append_right _ (mem_reverse.mpr isBad))
  · have reversed : stakeOf committee bad = stakeOf committee bad.reverse := by
      simp [stakeOf, sum_reverse]
    rw [reversed, overlap] at light
    simp only [stakeOf, map_append, sum_append] at light
    omega

namespace ReputationScores

theorem nodup_authoritiesByScoreDesc (scores : ReputationScores) :
    (scores.authoritiesByScoreDesc.map Prod.fst).Nodup := by
  refine ((perm_insertionSort _ _).map Prod.fst).nodup_iff.mpr ?_
  rw [ExtTreeMap.map_fst_toList_eq_keys]
  exact ExtTreeMap.distinct_keys.imp fun different same => different (by simp [same])

/-- The authorities are listed by descending scores, each once. -/
theorem pairwise_authoritiesByScoreDesc (scores : ReputationScores) :
    scores.authoritiesByScoreDesc.Pairwise fun best worst =>
      worst.2 ≤ best.2 ∧ best.1 ≠ worst.1 := by
  have : Std.Total Precedes := ⟨by grind [Precedes]⟩
  have : IsTrans _ Precedes := ⟨by grind [Precedes]⟩
  have ordered := pairwise_insertionSort Precedes scores.scoresPerAuthority.toList
  exact (ordered.imp (by grind [Precedes])).and
    (pairwise_map.mp scores.nodup_authoritiesByScoreDesc)

/-- Stake can be summed up over the scores. -/
theorem weight_eq_stakeOf (distinct : (entries.map Prod.fst).Nodup)
    (listed : ∀ id, id ∈ ids ↔ id ∈ entries.map Prod.fst) :
    weight committee.stakeById ids = stakeOf committee entries := by
  have same : ids = (entries.map Prod.fst).toFinset := by
    ext id
    rw [listed, mem_toFinset]
  rw [same, weight, sum_toFinset _ distinct, map_map]
  rfl

/-- The listed authorities have all the stake. -/
theorem ForCommittee.stakeOf_eq (forCommittee : scores.ForCommittee committee) :
    stakeOf committee scores.authoritiesByScoreDesc = committee.totalStake := by
  rw [← committee.weight_range_size]
  refine (weight_eq_stakeOf scores.nodup_authoritiesByScoreDesc fun id => ?_).symm
  rw [Finset.mem_range, ← forCommittee id, ExtTreeMap.mem_iff_isSome_getElem?,
    Option.isSome_iff_exists, mem_map]
  constructor
  · exact fun ⟨score, found⟩ => ⟨(id, score), mem_authoritiesByScoreDesc.mpr found, rfl⟩
  · rintro ⟨entry, listed, rfl⟩
    exact ⟨entry.2, mem_authoritiesByScoreDesc.mp listed⟩

end ReputationScores

namespace LeaderSwapTable

/-- What a table is for, whether it has good nodes or not. -/
structure Separates (committee : Committee) (scores : ReputationScores) (threshold : Nat)
    (table : LeaderSwapTable) : Prop where
  disjoint : ∀ good ∈ table.goodNodes, good.id ∉ table.badNodes
  goodStake : (table.goodNodes.map fun good => committee.stakeById good.id).sum ≤
    committee.share threshold
  badStake : weight committee.stakeById
    {id ∈ Finset.range committee.size | id ∈ table.badNodes} ≤ committee.share threshold
  ordered : ∀ good ∈ table.goodNodes, ∀ bad ∈ table.badNodes,
    scores.scoresPerAuthority[bad]?.getD 0 ≤ scores.scoresPerAuthority[good.id]?.getD 0
  leader : ∀ election round leader,
    LeaderSchedule.leader committee election table round = .ok leader → leader.id ∉ table.badNodes
  /-- The bad nodes are those that score low. -/
  flags : ∀ previous, ∃ flagged,
    LowScoring.updateLowScoringAuthorities previous committee scores threshold = .ok flagged ∧
    ∀ name, name ∈ flagged ↔
      ∃ node ∈ committee.authorities, node.id ∈ table.badNodes ∧ node.protocolKey = name

/-- The best authority fits into the share, or the worst one does not. -/
def Replaceable (committee : Committee) (scores : ReputationScores) (threshold : Nat) : Prop :=
  (∃ best ∈ scores.authoritiesByScoreDesc.head?,
    committee.stakeById best.1 ≤ committee.share threshold) ∨
  ∀ worst ∈ scores.authoritiesByScoreDesc.getLast?,
    committee.share threshold < committee.stakeById worst.1

section Swap

variable {table : LeaderSwapTable} {election : Election} {leaderRound : Nat}

/-- A swap fails only for a bad leader without a good node. -/
theorem exists_swap_iff :
    (∃ swapped, table.swap election leader leaderRound = .ok swapped) ↔
      (leader ∈ table.badNodes → table.goodNodes ≠ []) := by
  rw [← ExtTreeMap.contains_iff_mem, swap]
  split
  · next isBad =>
    cases chosen : election.choose table.goodNodes leaderRound with
    | none =>
      have empty : table.goodNodes = [] := by
        by_contra nonempty
        simpa [chosen] using election.choose_isSome _ leaderRound nonempty
      simp [isBad, empty]
    | some good => simp [isBad, ne_nil_of_mem (election.choose_mem _ _ _ chosen)]
  · next notBad => simp [notBad]

/-- A leader is either not bad itself or replaced by a good node. -/
theorem leader_not_bad (disjoint : ∀ good ∈ table.goodNodes, good.id ∉ table.badNodes)
    (elected : LeaderSchedule.leader committee election table leaderRound = .ok leader) :
    leader.id ∉ table.badNodes := by
  unfold LeaderSchedule.leader swap at elected
  grind [election.choose_mem]

end Swap

/-- A table separates the good and the bad nodes for all stakes and scores, and no swap and no
election panics exactly if a good node is left or there is no bad one. -/
theorem new_separates (election : Election) (round : Nat) (inRange : threshold ≤ 33)
    (final : scores.finalOfSchedule = true) (forCommittee : scores.ForCommittee committee) :
    ∃ table, new committee round scores threshold = .ok table ∧
      table.Separates committee scores threshold ∧
      ((∀ leader leaderRound, ∃ swapped, table.swap election leader leaderRound = .ok swapped) ∧
        (∀ leaderRound, leaderRound % 2 = 0 →
          ∃ leader, LeaderSchedule.leader committee election table leaderRound = .ok leader) ↔
        Replaceable committee scores threshold) := by
  obtain ⟨good, goodNodes, _, isGood⟩ := exists_selection threshold 0 forCommittee.members
  obtain ⟨bad, badNodes, flags, isBad⟩ := exists_selection threshold 0 fun entry listed =>
    forCommittee.members entry (mem_reverse.mp listed)
  have total := forCommittee.stakeOf_eq
  have positive : 0 < committee.totalStake := committee.positive
  have third : committee.share threshold ≤ 33 * committee.totalStake / 100 :=
    Nat.div_le_div_right (Nat.mul_le_mul_right _ inRange)
  have goodLight := isGood.light
  have badLight := isBad.light
  have light : stakeOf committee good + stakeOf committee bad <
      stakeOf committee scores.authoritiesByScoreDesc := by omega
  have ordered := scores.pairwise_authoritiesByScoreDesc
  have separate := apart ordered isGood.front isBad.front light
  set table : LeaderSwapTable := ⟨round, goodNodes,
    .ofList (badNodes.map fun authority => (authority.id, authority))⟩ with tableEq
  have memBad : ∀ id, id ∈ table.badNodes ↔ id ∈ bad.map Prod.fst := by
    intro id
    rw [tableEq, ExtTreeMap.mem_ofList, contains_iff_mem, map_map, ← isBad.ids]
    rfl
  have memGood : ∀ node ∈ goodNodes, ∃ entry ∈ good, entry.1 = node.id := by
    intro node listed
    exact mem_map.mp (isGood.ids ▸ mem_map_of_mem listed)
  have disjoint : ∀ node ∈ goodNodes, node.id ∉ table.badNodes := by
    intro node listed inBad
    obtain ⟨best, isBest, same⟩ := memGood node listed
    obtain ⟨worst, isWorst, equal⟩ := mem_map.mp ((memBad _).mp inBad)
    exact (separate best isBest worst isWorst).2 (same.trans equal.symm)
  refine ⟨table, ?_, ⟨disjoint, ?_, ?_, ?_, ?_, ?_⟩, ?_⟩
  · simp [new, inRange, final, isGood.retrieved, isBad.retrieved, tableEq]
  · have stakes := congrArg (map committee.stakeById) isGood.ids
    rw [map_map, map_map] at stakes
    exact le_of_eq_of_le (congrArg sum stakes) goodLight
  · obtain ⟨rest, back⟩ := isBad.front
    have distinct : (bad.map Prod.fst).Nodup := by
      have nodup := nodup_reverse.mpr scores.nodup_authoritiesByScoreDesc
      rw [← map_reverse, back, map_append] at nodup
      exact (nodup_append.mp nodup).1
    rw [weight_eq_stakeOf distinct]
    · exact badLight
    · intro id
      rw [Finset.mem_filter, memBad, and_iff_right_iff_imp, ← isBad.ids]
      rintro listed
      obtain ⟨node, isNode, rfl⟩ := mem_map.mp listed
      exact Finset.mem_range.mpr (committee.id_lt_size (isBad.members node isNode))
  · intro node listed id inBad
    obtain ⟨best, isBest, same⟩ := memGood node listed
    obtain ⟨worst, isWorst, rfl⟩ := mem_map.mp ((memBad _).mp inBad)
    obtain ⟨_, front⟩ := isGood.front
    obtain ⟨_, back⟩ := isBad.front
    have bestScore := mem_authoritiesByScoreDesc.mp
      (front ▸ mem_append_left _ isBest : best ∈ scores.authoritiesByScoreDesc)
    have worstScore := mem_authoritiesByScoreDesc.mp
      (mem_reverse.mp (back ▸ mem_append_left _ isWorst))
    rw [← same, bestScore, worstScore]
    exact (separate best isBest worst isWorst).1
  · exact fun _ _ _ => leader_not_bad disjoint
  · intro previous
    refine ⟨.ofList flags, ?_, ?_⟩
    · simp [LowScoring.updateLowScoringAuthorities, inRange, final, isBad.flagged]
    · intro name
      rw [ExtTreeMap.mem_ofList, contains_iff_mem, isBad.keys, mem_map]
      constructor
      · rintro ⟨node, isNode, rfl⟩
        exact ⟨node, isBad.members node isNode,
          (memBad _).mpr (isBad.ids ▸ mem_map_of_mem isNode), rfl⟩
      · rintro ⟨node, member, inBad, rfl⟩
        rw [memBad, ← isBad.ids, mem_map] at inBad
        obtain ⟨other, isOther, same⟩ := inBad
        have found := committee.authority_id_eq_some (isBad.members other isOther)
        rw [same, committee.authority_id_eq_some member] at found
        exact ⟨other, isOther, congrArg Authority.protocolKey (Option.some.inj found).symm⟩
  · have replaceable : Replaceable committee scores threshold ↔ goodNodes ≠ [] ∨ badNodes = [] := by
      rw [Ne, isGood.isEmpty, isBad.isEmpty, Replaceable, head?_reverse]
      push Not
      simp
    rw [replaceable]
    constructor
    · rintro ⟨swaps, _⟩
      by_contra stuck
      push Not at stuck
      obtain ⟨worst, isWorst⟩ := exists_mem_of_ne_nil _ stuck.2
      exact exists_swap_iff.mp (swaps worst.id 0)
        ((memBad _).mpr (isBad.ids ▸ mem_map_of_mem isWorst)) stuck.1
    · intro usable
      have swaps : ∀ leader leaderRound, ∃ swapped,
          table.swap election leader leaderRound = .ok swapped := by
        refine fun leader leaderRound => exists_swap_iff.mpr fun inBad => usable.resolve_right ?_
        rw [memBad, ← isBad.ids] at inBad
        exact ne_nil_of_mem inBad ∘ congrArg (map Authority.id)
      refine ⟨swaps, fun leaderRound even => ?_⟩
      obtain ⟨swapped, swaps⟩ := swaps (election.leader committee leaderRound).id leaderRound
      simp [LeaderSchedule.leader, even, swaps]

/-- The best of three authorities can replace a bad leader. -/
theorem new_separates_three :
    let committee : Committee :=
      ⟨[⟨0, 0, 30, 0⟩, ⟨1, 1, 40, 1⟩, ⟨2, 2, 30, 2⟩], 0, rfl, by decide, by decide⟩
    let scores : ReputationScores := ⟨.ofList [(0, 2), (1, 1), (2, 0)], true⟩
    ∃ table, new committee 2 scores 33 = .ok table ∧ table.Separates committee scores 33 ∧
      ∀ leader leaderRound, ∃ swapped,
        table.swap firstElection leader leaderRound = .ok swapped := by
  intro committee scores
  have inRange : 33 ≤ 33 := le_rfl
  have forCommittee : scores.ForCommittee committee := by
    intro id
    rw [ExtTreeMap.mem_ofList]
    simp [committee, Committee.size]
    grind
  obtain ⟨table, created, separates, usable⟩ :=
    new_separates firstElection 2 inRange rfl forCommittee
  exact ⟨table, created, separates, (usable.mpr (.inl ⟨(0, 2), rfl, by decide⟩)).1⟩

/-- The best authority has most of the stake, so no good node is left for the other one. -/
theorem bad_leader_not_replaced :
    let committee : Committee := ⟨[⟨0, 0, 10, 0⟩, ⟨1, 1, 90, 1⟩], 0, rfl, by decide, by decide⟩
    let scores : ReputationScores := ⟨.ofList [(0, 0), (1, 5)], true⟩
    scores.ForCommittee committee ∧ ∃ table, new committee 2 scores 33 = .ok table ∧
      table.swap firstElection 0 2 = .error (.panic .noGoodNode) := by
  refine ⟨?_, _, rfl, rfl⟩
  intro id
  rw [ExtTreeMap.mem_ofList]
  simp [Committee.size]
  grind

end LeaderSwapTable

end Sui.Narwhal
