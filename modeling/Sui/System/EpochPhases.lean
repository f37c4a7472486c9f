import Sui.System.Solvency
import Sui.System.SystemState

/-!
# The phases of an epoch change

What the three phases of an epoch change do to the validator set.  When the epoch
is entered, active validators stay the same ones and pending validators are
activated.  Then validators leave one by one.  In the end, the voting power and
the staged metadata of the remaining ones are set.
-/

namespace Sui.System

open Library Validator VotingPower

/-- The account and the pool of a validator. -/
def Validator.identity (validator : Validator) : Address × ID :=
  (validator.suiAddress, validator.stakingPoolId)

theorem Validator.Same.identity {before after : Validator} (same : before.Same after) :
    after.identity = before.identity :=
  Prod.ext same.suiAddress same.life.id

/-- Activation leaves the identity and ends the candidacy. -/
theorem Validator.identity_of_activate {before after : Validator}
    (activated : before.activate activationEpoch = .ok after) :
    after.metadata = before.metadata ∧ after.identity = before.identity ∧
      after.isPreactive = false ∧ after.stakingPool.deactivationEpoch = none := by
  obtain ⟨stakingPool, poolActivated, rfl⟩ := activate_eq_ok.mp activated
  obtain ⟨_, running, rfl⟩ := StakingPool.activateStakingPool_spec poolActivated
  exact ⟨rfl, rfl, rfl, running⟩

/-- Deactivation changes the deactivation epoch only. -/
theorem Validator.identity_of_deactivate {before after : Validator}
    (deactivated : before.deactivate deactivationEpoch = .ok after) :
    after.identity = before.identity ∧ after.isPreactive = before.isPreactive ∧ after.stakingPool =
        { before.stakingPool with deactivationEpoch := some deactivationEpoch } := by
  obtain ⟨stakingPool, poolDeactivated, rfl⟩ := deactivate_eq_ok.mp deactivated
  obtain ⟨_, rfl⟩ := StakingPool.deactivateStakingPool_spec poolDeactivated
  exact ⟨rfl, rfl, rfl⟩

namespace ValidatorSet

/-! ## Entering -/

/-- Rewards keep the validator the same; its new stake is in its own pool. -/
theorem distributeRewardTo_spec
    (distributed : distributeRewardTo validator stakingReward storageFundReward
      epoch = .ok (stakes, after)) :
    validator.Same after ∧ ∀ stake ∈ stakes, stake.poolId = validator.stakingPoolId := by
  simp only [distributeRewardTo, bind_eq_ok, pure_eq_ok, Prod.exists, Prod.mk.injEq] at distributed
  obtain ⟨_, _, _, _, _, _, _, _, staked, _, deposited, rfl, rfl⟩ := distributed
  have kept := Validator.Same.depositStakeRewards deposited
  unfold stakeValidatorReward at staked
  split at staked
  · obtain ⟨⟨stake, _⟩, requested, same⟩ := bind_eq_ok.mp staked
    cases same
    refine ⟨(Validator.Same.requestAddStake requested).trans kept, ?_⟩
    intro other listed
    rw [List.mem_singleton.mp listed]
    exact poolId_of_requestAddStake requested
  · cases staked
    exact ⟨kept, by simp⟩

/-- Distributing rewards keeps the validators the same. -/
theorem distributeRewards_spec (distributed : distributeRewards epoch validators stakings storages
      stakingBalance storageBalance = .ok (stakes, after)) :
    List.Forall₂ Validator.Same validators after ∧ ∀ stake ∈ stakes, ∃ validator ∈ validators,
        stake.poolId = validator.stakingPoolId := by
  induction validators generalizing stakings storages stakingBalance storageBalance
      stakes after with
  | nil =>
    cases distributed
    exact ⟨.nil, by simp⟩
  | cons validator validators ih =>
    cases stakings with
    | nil => cases distributed
    | cons staking stakings =>
      cases storages with
      | nil => cases distributed
      | cons storage storages =>
        simp only [distributeRewards, bind_eq_ok, pure_eq_ok,
          Prod.exists, Prod.mk.injEq] at distributed
        obtain ⟨_, _, _, _, own, _, paid, others, _, rest, rfl, rfl⟩ := distributed
        obtain ⟨same, ownPool⟩ := distributeRewardTo_spec paid
        obtain ⟨restSame, restPool⟩ := ih rest
        refine ⟨.cons same restSame, ?_⟩
        intro stake listed
        rcases List.mem_append.mp listed with isOwn | isOther
        · exact ⟨validator, List.mem_cons_self, ownPool stake isOwn⟩
        · obtain ⟨other, isListed, samePool⟩ := restPool stake isOther
          exact ⟨other, List.mem_cons_of_mem _ isListed, samePool⟩

/-- What the first phase of an epoch change does to the active and the pending validators. -/
theorem enterEpoch_spec {set entered : ValidatorSet}
    (done : set.enterEpoch records computationReward storageFundReward
      rewardSlashingRate epoch = .ok (stakes, entered)) :
    ∃ active joining, List.Forall₂ Validator.Same set.activeValidators active ∧ List.Forall₂
        (fun before after => before.activate (epoch + 1) = .ok after)
        set.pendingActiveValidators.reverse joining ∧
      entered =
        { set with
          activeValidators := active ++ joining
          pendingActiveValidators := [] } ∧
      ∀ stake ∈ stakes, ∃ validator ∈ set.activeValidators,
        stake.poolId = validator.stakingPoolId := by
  simp only [enterEpoch, distributeReward, bind_eq_ok,
    require_eq_ok, pure_eq_ok, mapM_eq_ok, Prod.exists, Prod.mk.injEq] at done
  obtain ⟨_, _, _, _, paid, ⟨_, _, distributed⟩, active, processed, joining,
    activated, rfl, rfl⟩ := done
  obtain ⟨same, pools⟩ := distributeRewards_spec distributed
  refine ⟨active, joining, forall₂_comp ?_ same
    (List.forall₂_map_left_iff.mp processed), activated, rfl, pools⟩
  intro validator before after isSame isProcessed
  have adjusted : before.Same before.adjustStakeAndGasPrice := ⟨rfl, rfl, .refl _⟩
  exact isSame.trans (adjusted.trans (.processPendingStakesAndWithdraws isProcessed))

/-! ## Leaving -/

/-- Which validator is removed, and what else changes. -/
theorem removeActive_spec {set after : ValidatorSet}
    (removed : set.removeActive records epoch index = .ok (after, cleaned)) :
    ∃ validator inactive atRisk totalStake,
      set.activeValidators[index]? = some validator ∧
      validator.deactivate (epoch + 1) = .ok inactive ∧
      cleanReportRecordsLeavingValidator records validator.suiAddress = .ok cleaned ∧
      set.atRiskValidators.removeIfContains validator.suiAddress = .ok atRisk ∧
      after =
        { set with
          totalStake := totalStake
          activeValidators := set.activeValidators.eraseIdx index
          stakingPoolMappings :=
            set.stakingPoolMappings.erase validator.stakingPoolId
          inactiveValidators :=
            set.inactiveValidators.insert validator.stakingPoolId inactive
          atRiskValidators := atRisk } := by
  unfold removeActive at removed
  split at removed
  · cases removed
  · next validator found =>
    simp only [processValidatorDeparture, bind_eq_ok, Table.remove_eq_ok,
      Table.add_eq_ok, U64.sub_eq_ok, pure_eq_ok, Prod.exists, Prod.mk.injEq] at removed
    obtain ⟨_, _, ⟨_, rfl⟩, atRisk, forgotten, _, ⟨_, rfl⟩, _, isCleaned, inactive,
      deactivated, _, ⟨_, rfl⟩, rfl, rfl⟩ := removed
    exact ⟨validator, inactive, atRisk, _, found, deactivated, isCleaned, forgotten, rfl⟩

/-- A property of the set and the records that holds when validators leave. -/
structure KeptByLeaving (epoch : Nat)
    (property : ValidatorSet → ReportRecords → Prop) : Prop where
  atRisk : ∀ set records atRisk, property set records →
    property { set with atRiskValidators := atRisk } records
  removed : ∀ set records index after cleaned, property set records →
    set.removeActive records epoch index = .ok (after, cleaned) → property after cleaned

namespace KeptByLeaving

variable {epoch : Nat} {property : ValidatorSet → ReportRecords → Prop}

variable (kept : KeptByLeaving epoch property)

include kept

variable {set after : ValidatorSet}

theorem processPendingRemovals (holds : property { set with pendingRemovals := [] } records)
    (processed : set.processPendingRemovals records epoch = .ok (after, cleaned)) :
    property after cleaned :=
  foldlM_invariant (fun state => property state.1 state.2) processed holds
    fun _ _ _ _ before removed => kept.removed _ _ _ _ _ before removed

/-- Processing one validator with low stake keeps such a property. -/
theorem processLowStake (holds : property set records)
    (processed : ValidatorSet.processLowStake parameters set records epoch index =
      .ok (after, cleaned)) :
    property after cleaned := by
  unfold ValidatorSet.processLowStake at processed
  split at processed
  · cases processed
  · dsimp only at processed
    split at processed
    · obtain ⟨_, _, same⟩ := bind_eq_ok.mp processed
      cases same
      exact kept.atRisk set records _ holds
    · split at processed
      · obtain ⟨⟨epochs, atRisk⟩, _, rest⟩ := bind_eq_ok.mp processed
        split at rest
        · exact kept.removed _ _ _ _ _ (kept.atRisk set records atRisk holds) rest
        · cases rest
          exact kept.atRisk set records atRisk holds
      · exact kept.removed _ _ _ _ _ holds processed

/-- Processing all validators with low stake keeps such a property. -/
theorem updateAndProcessLowStakeDepartures (holds : property set records)
    (processed : ValidatorSet.updateAndProcessLowStakeDepartures parameters epoch
      count set records = .ok (after, cleaned)) :
    property after cleaned := by
  induction count generalizing set records with
  | zero =>
    cases processed
    exact holds
  | succ count ih =>
    obtain ⟨⟨middle, middleRecords⟩, first, rest⟩ := bind_eq_ok.mp processed
    exact ih (kept.processLowStake holds first) rest

theorem leaveEpoch (holds : property { set with pendingRemovals := [] } records)
    (left : ValidatorSet.leaveEpoch parameters set records epoch = .ok (after, cleaned)) :
    property after cleaned := by
  obtain ⟨⟨middle, middleRecords⟩, first, rest⟩ := bind_eq_ok.mp left
  exact kept.updateAndProcessLowStakeDepartures (kept.processPendingRemovals holds first) rest

end KeptByLeaving

/-! ## Settling -/

/-- The end of an epoch keeps a validator with some of its keys and addresses. -/
structure Settled (before after : Validator) : Prop where
  within : after.metadata.Within before.metadata
  suiAddress : after.suiAddress = before.suiAddress
  stakingPool : after.stakingPool = before.stakingPool

theorem Settled.identity (settled : Settled before after) : after.identity = before.identity :=
  Prod.ext settled.suiAddress (congrArg StakingPool.id settled.stakingPool)

/-- The last phase settles the active validators and checks the total voting power. -/
theorem settleEpoch_spec {set after : ValidatorSet} (settled : set.settleEpoch = .ok after) :
    ∃ active totalStake, List.Forall₂ Settled set.activeValidators active ∧
      sumVotingPower active = .ok totalVotingPower ∧
      after =
        { set with activeValidators := active, totalStake := totalStake } := by
  simp only [settleEpoch, bind_eq_ok, pure_eq_ok, mapM_eq_ok] at settled
  obtain ⟨totalStake, _, powered, set, active, effectuated, rfl⟩ := settled
  obtain ⟨samePower, summed⟩ := setVotingPower_spec set
  refine ⟨active, totalStake, ?_, ?_, rfl⟩
  · refine forall₂_comp ?_ samePower effectuated
    intro before middle after powers isEffectuated
    obtain ⟨within, address, unchanged⟩ := effectuateStagedMetadata_spec isEffectuated
    rw [powers] at within address unchanged
    exact ⟨within, address, by rw [unchanged]⟩
  · rw [← summed]
    apply sumVotingPower_congr
    refine map_eq_of_forall₂ ?_ effectuated
    intro before after isEffectuated
    obtain ⟨_, _, unchanged⟩ := effectuateStagedMetadata_spec isEffectuated
    rw [unchanged]

end ValidatorSet

end Sui.System
