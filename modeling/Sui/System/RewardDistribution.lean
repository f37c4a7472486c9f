import Sui.System.Reports

/-!
# The rewards are never overdrawn

The staking rewards are shared by voting power and the storage fund rewards by head.  Both
are shares by some weight: a validator gets its share, less a cut if it is slashed, and the
unslashed validators share what is cut by the same weight.
-/

namespace Sui.System.ValidatorSet

open Library Validator VotingPower U64 VecMap
open List hiding after

/-! ## Shares by weight -/

/-- What a slashed validator loses of a reward. -/
def cutOf (rate reward : Nat) : Nat :=
  reward * rate / basisPointDenominator

/-- The sum over some validators. -/
def sumOver (chosen : Validator → Bool) (amount : Validator → Nat) (validators : List Validator) :
    Nat :=
  ((validators.filter chosen).map amount).sum

/-- The share of a validator. -/
def shareOf (weight : Validator → Nat) (validators : List Validator) (total : Nat)
    (validator : Validator) : Nat :=
  weight validator * total / (validators.map weight).sum

/-- The share of an unslashed validator in what is cut. -/
def bonusOf (slashed : Validator → Bool) (rate : Nat) (weight : Validator → Nat)
    (validators : List Validator) (total : Nat) (validator : Validator) : Nat :=
  sumOver slashed (fun other => cutOf rate (shareOf weight validators total other)) validators *
    weight validator / sumOver (fun other => !slashed other) weight validators

/-- The reward of a validator. -/
def rewardOf (slashed : Validator → Bool) (rate : Nat) (weight : Validator → Nat)
    (validators : List Validator) (total : Nat) (validator : Validator) : Nat :=
  if slashed validator then
    shareOf weight validators total validator -
      cutOf rate (shareOf weight validators total validator)
  else
    shareOf weight validators total validator +
      bonusOf slashed rate weight validators total validator

theorem cutOf_le (small : rate ≤ basisPointDenominator) (reward : Nat) :
    cutOf rate reward ≤ reward :=
  Nat.div_le_of_le_mul (by rw [Nat.mul_comm]; exact Nat.mul_le_mul_right reward small)

/-- Quotients that are rounded down are at most the quotient of the sum. -/
theorem sum_div_le (amount : α → Nat) (divisor : Nat) (items : List α) :
    (items.map fun item => amount item / divisor).sum ≤ (items.map amount).sum / divisor := by
  induction items with
  | nil => exact Nat.zero_le _
  | cons item items ih =>
    exact (Nat.add_le_add_left ih _).trans Nat.div_add_div_le_add_div

theorem sum_weighted_le (factor : Nat) (weight : α → Nat) (items : List α) :
    (items.map fun item => factor * weight item / (items.map weight).sum).sum ≤ factor := by
  refine (sum_div_le _ _ items).trans ?_
  rw [sum_map_mul_left]
  exact Nat.div_le_of_le_mul (by rw [Nat.mul_comm])

theorem sum_shareOf_le (weight : Validator → Nat) (validators : List Validator) (total : Nat) :
    (validators.map (shareOf weight validators total)).sum ≤ total := by
  unfold shareOf
  simpa only [Nat.mul_comm] using sum_weighted_le total weight validators

/-- What is cut is taken from the shares and the bonus is added to them. -/
theorem sum_adjusted (chosen : α → Bool) {share cut : α → Nat} (bonus : α → Nat)
    (less : ∀ item, cut item ≤ share item) (items : List α) :
    (items.map fun item =>
          if chosen item then share item - cut item else share item + bonus item).sum +
        ((items.filter chosen).map cut).sum =
      (items.map share).sum + ((items.filter fun item => !chosen item).map bonus).sum := by
  induction items with
  | nil => rfl
  | cons item items ih =>
    have fits := less item
    cases isChosen : chosen item <;>
      simp only [map_cons, sum_cons, filter_cons, isChosen, Bool.not_true,
        Bool.not_false, if_true, if_false, Bool.false_eq_true] <;>
      omega

theorem sumOver_add (chosen : Validator → Bool) (amount : Validator → Nat)
    (validators : List Validator) :
    sumOver chosen amount validators + sumOver (fun other => !chosen other) amount validators =
      (validators.map amount).sum := by
  have split := ((filter_append_perm chosen validators).map amount).sum_eq
  simpa [sumOver] using split

variable {slashed : Validator → Bool} {weight : Validator → Nat} {validators : List Validator}

/-- The rewards are not above what is distributed. -/
theorem sum_rewardOf_le (small : rate ≤ basisPointDenominator) (total : Nat) :
    (validators.map (rewardOf slashed rate weight validators total)).sum ≤ total := by
  have balanced := sum_adjusted slashed (bonusOf slashed rate weight validators total)
    (fun validator => cutOf_le small (shareOf weight validators total validator)) validators
  have shares := sum_shareOf_le weight validators total
  have bonuses : ((validators.filter fun other => !slashed other).map
        (bonusOf slashed rate weight validators total)).sum ≤ ((validators.filter slashed).map
        fun other => cutOf rate (shareOf weight validators total other)).sum :=
    sum_weighted_le _ weight _
  unfold rewardOf
  omega

/-! ## The computed rewards -/

/-- Every validator gets the share of its power, and an equal share of the storage fund. -/
theorem computeUnadjustedRewardDistribution_eq
    (powers : (validators.map votingPower).sum = totalVotingPower)
    (stakingFits : stakingReward < 2 ^ 64) :
    computeUnadjustedRewardDistribution validators stakingReward storageFundReward =
      .ok (validators.map (shareOf votingPower validators stakingReward),
        validators.map (shareOf (fun _ => 1) validators storageFundReward)) := by
  have nonempty : validators.length ≠ 0 := by
    intro empty
    rw [length_eq_zero_iff.mp empty] at powers
    cases powers
  have shares : validators.mapM (fun validator => cast
      (validator.votingPower * stakingReward / totalVotingPower)) =
        .ok (validators.map (shareOf votingPower validators stakingReward)) := by
    rw [mapM_eq_ok, forall₂_map_right_iff, forall₂_same]
    intro validator listed
    rw [cast_eq_ok, shareOf, powers]
    refine ⟨lt_of_le_of_lt ?_ stakingFits, rfl⟩
    have whole := sum_shareOf_le votingPower validators stakingReward
    have part := le_sum_of_mem (mem_map_of_mem listed (f :=
      shareOf votingPower validators stakingReward))
    rw [shareOf, powers] at part
    exact part.trans whole
  have divided : div storageFundReward validators.length =
      .ok (storageFundReward / validators.length) := if_neg nonempty
  have heads : validators.map (shareOf (fun _ => 1) validators storageFundReward) =
      replicate validators.length (storageFundReward / validators.length) := by
    simp [map_eq_replicate_iff, shareOf]
  rw [computeUnadjustedRewardDistribution, divided, ok_bind, shares, ok_bind, heads]
  rfl

/-- The adjustments after some validators are slashed. -/
def adjustmentsOf (rate : Nat) (staking storage : Validator → Nat)
    (entries : List (Validator × Nat)) : RewardAdjustments :=
  ⟨(entries.map fun entry => cutOf rate (staking entry.1)).sum,
    entries.map fun entry => (entry.2, cutOf rate (staking entry.1)),
    (entries.map fun entry => cutOf rate (storage entry.1)).sum,
    entries.map fun entry => (entry.2, cutOf rate (storage entry.1))⟩

theorem keys_entries (amount : Validator → Nat) (entries : List (Validator × Nat)) :
    keys (entries.map fun entry => (entry.2, amount entry.1)) = entries.map Prod.snd := by
  simp [VecMap.keys]

variable {entries : List (Validator × Nat)}

/-- Slashing one more validator adds its cut to the adjustments. -/
theorem slash_eq (placed : entry ∈ validators.zipIdx)
    (new : entry.2 ∉ entries.map Prod.snd)
    (stakingFits : (adjustmentsOf rate staking storage (entries ++ [entry])).totalStaking < 2 ^ 64)
    (storageFits :
      (adjustmentsOf rate staking storage (entries ++ [entry])).totalStorageFund < 2 ^ 64) :
    (adjustmentsOf rate staking storage entries).slash rate (validators.map staking)
        (validators.map storage) entry.2 =
      .ok (adjustmentsOf rate staking storage (entries ++ [entry])) := by
  have isEntry := mem_zipIdx_iff_getElem?.mp placed
  have sums (amount : Validator → Nat) : ((entries ++ [entry]).map fun other =>
      cutOf rate (amount other.1)).sum =
        (entries.map fun other => cutOf rate (amount other.1)).sum +
          cutOf rate (amount entry.1) := by
    simp
  simp only [adjustmentsOf, sums] at stakingFits storageFits
  simp only [RewardAdjustments.slash, getElem?_map, isEntry, Option.map_some, adjustmentsOf,
    sums, bind_eq_ok, cast_eq_ok, add_eq_ok, insert_eq_ok, pure_eq_ok]
  refine ⟨_, ⟨?_, rfl⟩, _, ⟨?_, rfl⟩, _, ⟨stakingFits, rfl⟩, _, ⟨?_, rfl⟩, _, ⟨?_, rfl⟩, _,
    ⟨storageFits, rfl⟩, ?_⟩
  · exact (Nat.le_add_left _ _).trans_lt stakingFits
  · rw [keys_entries fun validator => cutOf rate (staking validator)]
    exact new
  · exact (Nat.le_add_left _ _).trans_lt storageFits
  · rw [keys_entries fun validator => cutOf rate (storage validator)]
    exact new
  · simp [cutOf]

/-- The adjustments after all slashed validators. -/
theorem foldlM_slash (done : List (Validator × Nat))
    (placed : entries ⊆ validators.zipIdx) (distinct : ((done ++ entries).map Prod.snd).Nodup)
    (stakingFits : (adjustmentsOf rate staking storage (done ++ entries)).totalStaking < 2 ^ 64)
    (storageFits :
      (adjustmentsOf rate staking storage (done ++ entries)).totalStorageFund < 2 ^ 64) :
    (entries.map Prod.snd).foldlM (RewardAdjustments.slash rate (validators.map staking)
        (validators.map storage)) (adjustmentsOf rate staking storage done) =
      .ok (adjustmentsOf rate staking storage (done ++ entries)) := by
  induction entries generalizing done with
  | nil => simp
  | cons entry entries ih =>
    obtain ⟨isPlaced, othersPlaced⟩ := cons_subset.mp placed
    rw [append_cons] at distinct stakingFits storageFits ⊢
    have new : entry.2 ∉ done.map Prod.snd := by
      rw [map_append, map_append] at distinct
      intro listed
      exact disjoint_of_nodup_append distinct.of_append_left listed (by simp)
    have stakingLess : (adjustmentsOf rate staking storage (done ++ [entry])).totalStaking ≤
        (adjustmentsOf rate staking storage (done ++ [entry] ++ entries)).totalStaking := by
      simp only [adjustmentsOf, map_append, sum_append]
      omega
    have storageLess : (adjustmentsOf rate staking storage (done ++ [entry])).totalStorageFund ≤
        (adjustmentsOf rate staking storage (done ++ [entry] ++ entries)).totalStorageFund := by
      simp only [adjustmentsOf, map_append, sum_append]
      omega
    rw [map_cons, foldlM_cons, slash_eq isPlaced new (stakingLess.trans_lt stakingFits)
      (storageLess.trans_lt storageFits), ok_bind]
    exact ih _ othersPlaced distinct stakingFits storageFits

section Entries

variable {entries : List (Validator × Nat)} {left right : Validator × Nat}

theorem entry_of_index (leftPlaced : left ∈ validators.zipIdx)
    (rightPlaced : right ∈ validators.zipIdx) (same : left.2 = right.2) : left = right := by
  have leftAt := mem_zipIdx_iff_getElem?.mp leftPlaced
  have rightAt := mem_zipIdx_iff_getElem?.mp rightPlaced
  rw [same, rightAt] at leftAt
  exact Prod.ext (Option.some.inj leftAt).symm same

/-- An account has one position. -/
theorem entry_of_address (distinct : Distinct validators) (leftPlaced : left ∈ validators.zipIdx)
    (rightPlaced : right ∈ validators.zipIdx)
    (same : left.1.suiAddress = right.1.suiAddress) : left = right := by
  have addresses : (validators.zipIdx.map (suiAddress ∘ Prod.fst)).Nodup := by
    rw [← map_map, zipIdx_map_fst]
    exact distinct
  exact inj_on_of_nodup_map addresses leftPlaced rightPlaced same

/-- The indices of the listed accounts. -/
theorem getValidatorIndices_eq (distinct : Distinct validators)
    (placed : entries ⊆ validators.zipIdx) :
    getValidatorIndices validators (entries.map fun entry => entry.1.suiAddress) =
      .ok (entries.map Prod.snd) := by
  rw [getValidatorIndices, mapM_eq_ok, List.forall₂_map_left_iff, List.forall₂_map_right_iff,
    List.forall₂_same]
  intro entry listed
  obtain ⟨inside, isEntry⟩ :=
    List.getElem?_eq_some_iff.mp (List.mem_zipIdx_iff_getElem?.mp (placed listed))
  have found : findValidator validators entry.1.suiAddress = some entry.2 := by
    rw [findValidator, List.findIdx?_eq_some_iff_getElem]
    refine ⟨inside, by simp [isEntry], fun earlier before same => ?_⟩
    have isEarlier : (validators[earlier], earlier) ∈ validators.zipIdx :=
      mem_zipIdx_iff_getElem?.mpr (getElem?_eq_getElem _)
    have isSame := entry_of_address distinct isEarlier (placed listed) (by simpa using same)
    exact before.ne (congrArg Prod.snd isSame)
  rw [found]
  rfl

/-- Active accounts have positions. -/
theorem exists_entries (active : addresses ⊆ validators.map suiAddress) :
    ∃ entries ⊆ validators.zipIdx, entries.map (fun entry => entry.1.suiAddress) = addresses := by
  induction addresses with
  | nil => exact ⟨[], nil_subset _, rfl⟩
  | cons address addresses ih =>
    obtain ⟨first, others⟩ := cons_subset.mp active
    obtain ⟨validator, listed, rfl⟩ := mem_map.mp first
    obtain ⟨index, found⟩ := getElem?_of_mem listed
    obtain ⟨entries, placed, rfl⟩ := ih others
    exact ⟨(validator, index) :: entries,
      cons_subset.mpr ⟨mem_zipIdx_iff_getElem?.mpr found, placed⟩, rfl⟩

/-- The positions of the slashed validators. -/
structure Slashed (slashed : Validator → Bool) (validators : List Validator)
    (entries : List (Validator × Nat)) : Prop where
  distinct : Distinct validators
  placed : entries ⊆ validators.zipIdx
  unique : (entries.map fun entry => entry.1.suiAddress).Nodup
  listed : ∀ validator, slashed validator = true ↔
    validator.suiAddress ∈ entries.map fun entry => entry.1.suiAddress

variable (positions : Slashed slashed validators entries)

include positions

/-- An index is listed exactly if the validator is slashed. -/
theorem Slashed.mem_indices (isEntry : entry ∈ validators.zipIdx) :
    entry.2 ∈ entries.map Prod.snd ↔ slashed entry.1 = true := by
  rw [positions.listed]
  constructor
  · intro isListed
    obtain ⟨other, isOther, same⟩ := mem_map.mp isListed
    rw [← entry_of_index (positions.placed isOther) isEntry same]
    exact mem_map_of_mem isOther
  · intro isListed
    obtain ⟨other, isOther, same⟩ := mem_map.mp isListed
    rw [← entry_of_address positions.distinct (positions.placed isOther) isEntry same]
    exact mem_map_of_mem isOther

/-- Sums over the positions are sums over the slashed validators. -/
theorem Slashed.perm : (entries.map Prod.fst).Perm (validators.filter slashed) := by
  have inEntries : (entries.map Prod.fst).Nodup := by
    apply List.Nodup.of_map suiAddress
    rw [map_map]
    exact positions.unique
  rw [perm_ext_iff_of_nodup inEntries (positions.distinct.of_map _ |>.filter _)]
  intro validator
  rw [mem_filter, positions.listed]
  constructor
  · intro isListed
    obtain ⟨entry, isEntry, rfl⟩ := mem_map.mp isListed
    have isAt := mem_zipIdx_iff_getElem?.mp (positions.placed isEntry)
    exact ⟨mem_of_getElem? isAt, mem_map_of_mem isEntry⟩
  · rintro ⟨isValidator, isListed⟩
    obtain ⟨entry, isEntry, same⟩ := mem_map.mp isListed
    have isAt := mem_zipIdx_iff_getElem?.mp (positions.placed isEntry)
    rw [← inj_on_of_nodup_map positions.distinct (mem_of_getElem? isAt) isValidator same]
    exact mem_map_of_mem isEntry

theorem Slashed.sum_eq (amount : Validator → Nat) :
    (entries.map fun entry => amount entry.1).sum = sumOver slashed amount validators := by
  rw [sumOver, ← (positions.perm.map amount).sum_eq, map_map]
  rfl

theorem Slashed.reverse :
    Slashed slashed validators entries.reverse where
  distinct := positions.distinct
  placed := by simpa using positions.placed
  unique := by simpa using positions.unique
  listed := by simpa using positions.listed

/-- A slashed validator loses its cut, any other gets the bonus. -/
theorem Slashed.adjustReward_eq (isEntry : entry ∈ validators.zipIdx) (share : Validator → Nat)
    (small : rate ≤ basisPointDenominator)
    (added : slashed entry.1 = false → bonus = .ok extra ∧ share entry.1 + extra < 2 ^ 64) :
    adjustReward (entries.map fun other => (other.2, cutOf rate (share other.1))) entry.2
        (share entry.1) bonus =
      .ok (if slashed entry.1 then share entry.1 - cutOf rate (share entry.1)
        else share entry.1 + extra) := by
  have bound := positions.mem_indices isEntry
  rw [← keys_entries fun validator => cutOf rate (share validator)] at bound
  rw [adjustReward]
  cases isSlashed : slashed entry.1 with
  | true =>
    obtain ⟨cut, isCut⟩ := exists_get (bound.mpr isSlashed)
    obtain ⟨other, isOther, same⟩ := mem_map.mp (mem_of_get isCut)
    obtain ⟨sameIndex, rfl⟩ := Prod.mk.inj same
    rw [entry_of_index (positions.placed isOther) isEntry sameIndex] at isCut
    rw [if_pos (contains_eq_true.mpr (bound.mpr isSlashed)), isCut, ok_bind]
    exact sub_eq_ok.mpr ⟨cutOf_le small _, rfl⟩
  | false =>
    obtain ⟨isBonus, fits⟩ := added isSlashed
    have absent := mt bound.mp (Bool.eq_false_iff.mp isSlashed)
    rw [if_neg (mt contains_eq_true.mp absent), isBonus, ok_bind]
    exact add_eq_ok.mpr ⟨fits, rfl⟩

/-- The adjustments are the cuts of the slashed validators. -/
theorem Slashed.computeRewardAdjustments_eq
    (stakingFits : sumOver slashed (fun validator => cutOf rate (staking validator)) validators <
      2 ^ 64)
    (storageFits : sumOver slashed (fun validator => cutOf rate (storage validator)) validators <
      2 ^ 64) :
    computeRewardAdjustments (entries.map Prod.snd) rate (validators.map staking)
        (validators.map storage) = .ok (adjustmentsOf rate staking storage entries.reverse) := by
  have indices : (entries.reverse.map Prod.snd).Nodup := by
    rw [map_reverse, nodup_reverse]
    apply (positions.unique.of_map _).map_on
    exact fun left isLeft right isRight =>
      entry_of_index (positions.placed isLeft) (positions.placed isRight)
  rw [computeRewardAdjustments, ← map_reverse]
  apply foldlM_slash []
  · exact fun entry listed => positions.placed (mem_reverse.mp listed)
  · exact indices
  · rw [← positions.reverse.sum_eq] at stakingFits
    exact stakingFits
  · rw [← positions.reverse.sum_eq] at storageFits
    exact storageFits

/-- The adjusted distribution in closed form. -/
theorem Slashed.computeAdjustedRewardDistribution_eq
    (powers : (validators.map votingPower).sum = totalVotingPower)
    (powered : ∀ validator ∈ validators, slashed validator = false →
      0 < sumOver (fun other => !slashed other) votingPower validators)
    (small : rate ≤ basisPointDenominator) (stakingFits : stakingReward < 2 ^ 64)
    (storageFits : storageFundReward < 2 ^ 64) :
    computeAdjustedRewardDistribution validators
        (sumOver slashed votingPower validators)
        (validators.map (shareOf votingPower validators stakingReward))
        (validators.map (shareOf (fun _ => 1) validators storageFundReward))
        (adjustmentsOf rate (shareOf votingPower validators stakingReward)
          (shareOf (fun _ => 1) validators storageFundReward) entries) =
      .ok (validators.map (rewardOf slashed rate votingPower validators stakingReward),
        validators.map (rewardOf slashed rate (fun _ => 1) validators storageFundReward)) := by
  have power := sumOver_add slashed votingPower validators
  have heads := sumOver_add slashed (fun _ => 1) validators
  have slashedHeads := positions.sum_eq fun _ => 1
  simp only [map_const', sum_replicate, smul_eq_mul, mul_one] at heads slashedHeads
  have fits {weight : Validator → Nat} {total : Nat} (totalFits : total < 2 ^ 64)
      {validator : Validator} (isValidator : validator ∈ validators)
      (isUnslashed : slashed validator = false) : shareOf weight validators total validator +
        bonusOf slashed rate weight validators total validator < 2 ^ 64 := by
    have part := le_sum_of_mem (mem_map_of_mem (f := rewardOf slashed rate weight
      validators total) isValidator)
    have isReward : rewardOf slashed rate weight validators total validator =
        shareOf weight validators total validator +
          bonusOf slashed rate weight validators total validator :=
      if_neg (by simp [isUnslashed])
    rw [isReward] at part
    exact (part.trans (sum_rewardOf_le small total)).trans_lt totalFits
  have unslashedPower : sub totalVotingPower
      (sumOver slashed votingPower validators) =
        .ok (sumOver (fun other => !slashed other) votingPower validators) :=
    sub_eq_ok.mpr ⟨by omega, by omega⟩
  have unslashedHeads : sub validators.length entries.length =
      .ok (sumOver (fun other => !slashed other) (fun _ => 1) validators) :=
    sub_eq_ok.mpr ⟨by omega, by omega⟩
  rw [computeAdjustedRewardDistribution, unslashedPower, ok_bind]
  simp only [adjustmentsOf, length_map, unslashedHeads, ok_bind,
    fun share : Validator → Nat => positions.sum_eq fun validator => cutOf rate (share validator)]
  refine bind_eq_ok.mpr ⟨validators.zipIdx.map fun entry =>
    (rewardOf slashed rate votingPower validators stakingReward entry.1,
      rewardOf slashed rate (fun _ => 1) validators storageFundReward entry.1),
    mapM_eq_ok.mpr ?_, ?_⟩
  · rw [forall₂_map_right_iff, forall₂_same]
    intro entry isEntry
    have isAt := mem_zipIdx_iff_getElem?.mp isEntry
    have isValidator := mem_of_getElem? isAt
    simp only [getElem?_map, isAt, Option.map_some]
    refine bind_of (positions.adjustReward_eq isEntry _ small fun isUnslashed =>
      ⟨?_, fits stakingFits isValidator isUnslashed⟩)
      (bind_of (positions.adjustReward_eq isEntry _ small fun isUnslashed =>
        ⟨?_, fits storageFits isValidator isUnslashed⟩) rfl)
    · have positive := powered entry.1 isValidator isUnslashed
      rw [div, checkedDiv, if_neg positive.ne', ok_bind]
      exact cast_eq_ok.mpr ⟨(Nat.le_add_left _ _).trans_lt
        (fits stakingFits isValidator isUnslashed), rfl⟩
    · have positive : 0 < sumOver (fun other => !slashed other) (fun _ => 1) validators :=
        le_sum_of_mem (mem_map_of_mem (f := fun _ => 1)
          (mem_filter.mpr ⟨isValidator, by simp [isUnslashed]⟩))
      rw [div, checkedDiv, if_neg positive.ne', bonusOf, mul_one]
  · have maps (amount : Validator → Nat) :
        validators.zipIdx.map (fun entry => amount entry.1) = validators.map amount := by
      conv_rhs => rw [← zipIdx_map_fst 0 validators, map_map]
      rfl
    rw [map_map, map_map]
    exact congrArg Except.ok (congrArg₂ Prod.mk
      (maps (rewardOf slashed rate votingPower validators stakingReward))
      (maps (rewardOf slashed rate (fun _ => 1) validators storageFundReward)))

end Entries

/-! ## Balances -/

/-- Splitting amounts off a balance that is large enough. -/
theorem foldlM_splitBalance {amounts : List Nat} (enough : amounts.sum ≤ balance) :
    amounts.foldlM splitBalance balance = .ok (balance - amounts.sum) := by
  induction amounts generalizing balance with
  | nil => rfl
  | cons amount amounts ih =>
    rw [sum_cons] at enough ⊢
    have first : splitBalance balance amount = .ok (balance - amount) :=
      splitBalance_eq_ok.mpr ⟨by omega, rfl⟩
    rw [foldlM_cons, first, ok_bind, ih (by omega), Nat.sub_sub]

/-- What a validator takes of the rewards of its stakers. -/
theorem splitBalance_commission (small : rate ≤ basisPointDenominator) (reward : Nat) :
    splitBalance reward (reward * rate / basisPointDenominator) =
      .ok (reward - reward * rate / basisPointDenominator) :=
  splitBalance_eq_ok.mpr ⟨cutOf_le small reward, rfl⟩

/-- The rewards are computed without failure and sum to at most the balances they are split
from.  Slashing takes from the slashed validators and gives to the other ones. -/
theorem rewards_never_overdrawn (validators : List Validator) (slashed : List Address)
    (rewardSlashingRate stakingReward storageFundReward : Nat) (distinct : Distinct validators)
    (powers : (validators.map Validator.votingPower).sum = VotingPower.totalVotingPower)
    (slashedDistinct : slashed.Nodup) (active : slashed ⊆ validators.map Validator.suiAddress)
    (powered : ∀ validator ∈ validators, validator.suiAddress ∉ slashed →
      ∃ other ∈ validators, other.suiAddress ∉ slashed ∧ 0 < other.votingPower)
    (rate : rewardSlashingRate ≤ basisPointDenominator)
    (commissions : ∀ validator ∈ validators, validator.commissionRate ≤ basisPointDenominator)
    (stakingFits : stakingReward < 2 ^ 64) (storageFits : storageFundReward < 2 ^ 64) :
    ∃ stakings storages slashedPower indices adjustments adjustedStakings adjustedStorages,
      computeUnadjustedRewardDistribution validators stakingReward storageFundReward =
        .ok (stakings, storages) ∧
      sumVotingPowerByAddresses validators slashed = .ok slashedPower ∧
      getValidatorIndices validators slashed = .ok indices ∧
      computeRewardAdjustments indices rewardSlashingRate stakings storages = .ok adjustments ∧
      computeAdjustedRewardDistribution validators slashedPower stakings storages adjustments =
        .ok (adjustedStakings, adjustedStorages) ∧
      adjustedStakings.sum ≤ stakingReward ∧ adjustedStorages.sum ≤ storageFundReward ∧
      (∃ rest, adjustedStakings.foldlM splitBalance stakingReward = .ok rest) ∧
      (∃ rest, adjustedStorages.foldlM splitBalance storageFundReward = .ok rest) ∧
      ∀ (index : Nat) (validator : Validator), validators[index]? = some validator →
        ∃ staking storage adjustedStaking adjustedStorage,
          stakings[index]? = some staking ∧ storages[index]? = some storage ∧
          adjustedStakings[index]? = some adjustedStaking ∧
          adjustedStorages[index]? = some adjustedStorage ∧
          (∃ rest, splitBalance adjustedStaking
            (adjustedStaking * validator.commissionRate / basisPointDenominator) = .ok rest) ∧
          (validator.suiAddress ∈ slashed → adjustedStaking ≤ staking ∧ adjustedStorage ≤ storage) ∧
          (validator.suiAddress ∉ slashed →
            staking ≤ adjustedStaking ∧ storage ≤ adjustedStorage) := by
  obtain ⟨entries, placed, rfl⟩ := exists_entries active
  set isSlashed : Validator → Bool := fun validator =>
    decide (validator.suiAddress ∈ entries.map fun entry => entry.1.suiAddress) with isIsSlashed
  have positions : Slashed isSlashed validators entries :=
    ⟨distinct, placed, slashedDistinct, fun validator => by simp [isSlashed]⟩
  have power : sumVotingPowerByAddresses validators (entries.map fun entry => entry.1.suiAddress) =
      .ok (sumOver isSlashed votingPower validators) := by
    rw [sumVotingPowerByAddresses_eq distinct (by rw [powers]; decide) slashedDistinct active,
      ← positions.sum_eq, map_map]
    refine congrArg Except.ok (congrArg sum (map_congr_left fun entry listed => ?_))
    have isAt := mem_zipIdx_iff_getElem?.mp (placed listed)
    rw [Function.comp_apply, powerOf, distinct.find?_eq_some (mem_of_getElem? isAt)]
    rfl
  have unslashed : ∀ validator ∈ validators, isSlashed validator = false →
      0 < sumOver (fun other => !isSlashed other) votingPower validators := by
    intro validator isValidator isUnslashed
    obtain ⟨other, isOther, otherUnslashed, positive⟩ :=
      powered validator isValidator (of_decide_eq_false isUnslashed)
    exact positive.trans_le (le_sum_of_mem (mem_map_of_mem (f := votingPower)
      (mem_filter.mpr ⟨isOther, by simpa [isSlashed] using otherUnslashed⟩)))
  have cutFits {weight : Validator → Nat} {total : Nat} (totalFits : total < 2 ^ 64) :
      sumOver isSlashed (fun other => cutOf rewardSlashingRate
        (shareOf weight validators total other)) validators < 2 ^ 64 := by
    have balanced := sum_adjusted isSlashed (fun _ => 0)
      (fun validator => cutOf_le rate (shareOf weight validators total validator)) validators
    have shares := sum_shareOf_le weight validators total
    simp only [map_const', sum_replicate, smul_zero] at balanced
    rw [sumOver]
    omega
  refine ⟨_, _, _, _, _, _, _, computeUnadjustedRewardDistribution_eq powers stakingFits, power,
    getValidatorIndices_eq distinct placed,
    positions.computeRewardAdjustments_eq (cutFits stakingFits) (cutFits storageFits),
    positions.reverse.computeAdjustedRewardDistribution_eq powers unslashed rate stakingFits
      storageFits, sum_rewardOf_le rate _, sum_rewardOf_le rate _,
    ⟨_, foldlM_splitBalance (sum_rewardOf_le rate _)⟩,
    ⟨_, foldlM_splitBalance (sum_rewardOf_le rate _)⟩, fun index validator isAt => ?_⟩
  simp only [getElem?_map, isAt, Option.map_some]
  refine ⟨_, _, _, _, rfl, rfl, rfl, rfl,
    ⟨_, splitBalance_commission (commissions validator (mem_of_getElem? isAt)) _⟩, ?_, ?_⟩
  · intro listed
    have slashes : isSlashed validator = true := decide_eq_true listed
    simp [rewardOf, slashes]
  · intro unlisted
    have spares : isSlashed validator = false := decide_eq_false unlisted
    simp [rewardOf, spares]

/-- Two validators, of which the first one is slashed.  It loses half of its rewards to the
other one. -/
theorem rewards_never_overdrawn_two :
    let validators := [sampleValidator 1 0 6000, sampleValidator 2 0 4000]
    computeUnadjustedRewardDistribution validators 1000 77 = .ok ([600, 400], [38, 38]) ∧
      ∃ adjustments, computeRewardAdjustments [0] 5000 [600, 400] [38, 38] = .ok adjustments ∧
        computeAdjustedRewardDistribution validators 6000 [600, 400] [38, 38] adjustments =
          .ok ([300, 700], [19, 57]) ∧
        ∃ rest, [300, 700].foldlM splitBalance 1000 = .ok rest := by
  have shares : computeUnadjustedRewardDistribution
      [sampleValidator 1 0 6000, sampleValidator 2 0 4000] 1000 77 =
        .ok ([600, 400], [38, 38]) := by decide
  have amounts : (computeRewardAdjustments [0] 5000 [600, 400] [38, 38] >>=
      computeAdjustedRewardDistribution [sampleValidator 1 0 6000, sampleValidator 2 0 4000]
        6000 [600, 400] [38, 38]) = .ok ([300, 700], [19, 57]) := by decide
  obtain ⟨_, _, _, _, adjustments, _, _, unadjusted, power, indices, isAdjustments, adjusted, _, _,
      splits, _⟩ :=
    rewards_never_overdrawn
      [sampleValidator 1 0 6000, sampleValidator 2 0 4000] [1] 5000 1000 77
      (by unfold Distinct; decide) (by decide) (by decide) (by decide) (by decide) (by decide)
      (by decide) (by decide) (by decide)
  cases shares.symm.trans unadjusted
  cases (by decide : sumVotingPowerByAddresses _ [1] = .ok 6000).symm.trans power
  cases (by decide : getValidatorIndices _ [1] = .ok [0]).symm.trans indices
  rw [isAdjustments, ok_bind, adjusted] at amounts
  cases amounts
  exact ⟨shares, adjustments, isAdjustments, adjusted, splits⟩

/-- If the slashed validator has all the power, then the power of the other one is divided by
zero. -/
theorem rewards_divided_by_zero :
    let validators := [VotingPower.sampleValidator 1 0 10000, VotingPower.sampleValidator 2 0 0]
    Distinct validators ∧
      (validators.map Validator.votingPower).sum = VotingPower.totalVotingPower ∧
      computeUnadjustedRewardDistribution validators 1000 10 = .ok ([1000, 0], [5, 5]) ∧
      sumVotingPowerByAddresses validators [1] = .ok 10000 ∧
      getValidatorIndices validators [1] = .ok [0] ∧
      (computeRewardAdjustments [0] 5000 [1000, 0] [5, 5]).isOk = true ∧
      (computeRewardAdjustments [0] 5000 [1000, 0] [5, 5] >>=
        computeAdjustedRewardDistribution validators 10000 [1000, 0] [5, 5]) =
          .error .arithmetic := by
  unfold Distinct
  decide

end Sui.System.ValidatorSet
