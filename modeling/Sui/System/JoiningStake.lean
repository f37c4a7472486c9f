import Sui.System.ValidatorPlaces

/-!
# The stake of candidates

Stake that is added to a pool before it is active is processed at once, but
withdrawals from it are only queued.  So the stake that counts for joining is the
sum of the outstanding principals and of everything that was withdrawn since the
validator was registered.
-/

namespace Sui.System

open Library ValidatorSet
open List hiding after

/-- A pool that was never active holds the outstanding principals and the
withdrawals that are queued. -/
structure StakingPool.Gathered (pool : StakingPool) (stakes : List StakedSui) :
    Prop where
  pendingStake : pool.pendingStake = 0
  rewardsPool : pool.rewardsPool = 0
  suiBalance : pool.suiBalance = pool.pendingTotalSuiWithdraw + principalOf stakes pool.id

namespace StakingPool.Gathered

variable {pool after : StakingPool} {stakes : List StakedSui}

theorem new (unused : ∀ stake ∈ stakes, stake.poolId ≠ poolId) :
    (StakingPool.new poolId).Gathered stakes := by
  have nothing : principalOf stakes poolId = 0 := groupWeight_eq_zero unused
  refine ⟨rfl, rfl, ?_⟩
  rw [show (StakingPool.new poolId).id = poolId from rfl, nothing]
  rfl

section

variable (gathered : pool.Gathered stakes)

include gathered

theorem congr (same : principalOf stakes' pool.id = principalOf stakes pool.id) :
    pool.Gathered stakes' :=
  ⟨gathered.pendingStake, gathered.rewardsPool, by rw [same, gathered.suiBalance]⟩

/-- A stake in a pool before its activation is gathered. -/
theorem addStake {amount activationEpoch : Nat} (preactive : pool.isPreactive = true)
    (requested : pool.requestAddStake amount activationEpoch = .ok (stake, queued))
    (processed : queued.processIfPreactive = .ok after) :
    after.Gathered (stake :: stakes) := by
  obtain ⟨_, _, _, rfl, rfl⟩ := requestAddStake_eq_ok.mp requested
  rw [processIfPreactive, if_pos (by exact preactive)] at processed
  obtain ⟨_, _, rfl⟩ := processPendingStake_eq_ok.mp processed
  refine ⟨rfl, gathered.rewardsPool, ?_⟩
  simp only [principalOf, groupWeight_cons, gathered.pendingStake, gathered.suiBalance, if_true]
  omega

/-- A withdrawal is only queued, unless the pool is inactive. -/
theorem withdrawStake (listed : stake ∈ stakes)
    (requested : pool.requestWithdrawStake stake epoch = .ok (amount, after)) :
    after.Gathered (stakes.erase stake) := by
  obtain ⟨samePool, rate, reward, _, ⟨_, _, clamped⟩, _, processed⟩ :=
    requestWithdrawStake_spec requested
  have noReward : reward = 0 := by
    rw [clamped, gathered.rewardsPool, Nat.min_zero]
  have principal : principalOf stakes pool.id =
      stake.principal + principalOf (stakes.erase stake) pool.id := by
    rw [principalOf, groupWeight_erase listed, if_pos samePool]
    rfl
  have balance := gathered.suiBalance
  have rewards := gathered.rewardsPool
  have pending := gathered.pendingStake
  unfold processIfInactive queueWithdraw at processed
  split at processed
  · obtain ⟨_, _, rfl⟩ := processPendingStakeWithdraw_eq_ok.mp processed
    exact ⟨pending, by simp [rewards], by simp only; omega⟩
  · cases processed
    exact ⟨pending, by simp [rewards], by simp only; omega⟩

end

end StakingPool.Gathered

namespace ValidatorSet

variable {set after : ValidatorSet} {stakes : List StakedSui} {registered : List ID}

/-- Where the stake of validators that were never active is. -/
structure Backed (set : ValidatorSet) (stakes : List StakedSui)
    (registered : List ID) : Prop where
  activated : ∀ validator ∈ set.activeValidators, validator.isPreactive = false
  gathered : ∀ place validator, set.validatorAt place = some validator →
    validator.isPreactive = true → validator.stakingPool.Gathered stakes
  stakes : ∀ stake ∈ stakes, stake.poolId ∈ registered

section

variable (backed : set.Backed stakes registered)

include backed

/-- A validator is replaced while other pools keep their stakes. -/
theorem Backed.replaced
    (sound : (set.roster registered).Sound) (replaced : set.Replaced old new after)
    (preactive : new.isPreactive = old.isPreactive)
    (own : old.isPreactive = true → old.stakingPool.Gathered stakes →
      new.stakingPool.Gathered stakes')
    (others : ∀ poolId, poolId ≠ old.stakingPoolId →
      principalOf stakes' poolId = principalOf stakes poolId)
    (known : ∀ stake ∈ stakes', stake.poolId ∈ registered) :
    after.Backed stakes' registered := by
  obtain ⟨changed, isOld, places⟩ := replaced.validatorAt
  refine ⟨fun validator listed => ?_, fun place validator found never => ?_, known⟩
  · obtain ⟨index, found⟩ := mem_iff_getElem?.mp listed
    rcases places (.active index) validator found with ⟨rfl, rfl⟩ | ⟨_, unchanged⟩
    · rw [preactive]
      exact backed.activated old (mem_of_getElem? isOld)
    · exact backed.activated validator (mem_of_getElem? unchanged)
  · rcases places place validator found with ⟨rfl, rfl⟩ | ⟨different, unchanged⟩
    · rw [preactive] at never
      exact own never (backed.gathered place old isOld never)
    · apply (backed.gathered place validator unchanged never).congr
      apply others
      exact fun samePool => different (place_of_pool sound unchanged isOld samePool)

/-- A new candidate starts with an empty pool. -/
theorem Backed.register (newPool : poolId ∉ registered)
    (isPool : validator.stakingPool = .new poolId) :
    Backed
      { set with
        stakingPoolMappings :=
          set.stakingPoolMappings.insert poolId validator.suiAddress
        validatorCandidates :=
          set.validatorCandidates.insert validator.suiAddress validator }
      stakes (poolId :: registered) where
  activated := backed.activated
  gathered place other found never := by
    cases place with
    | active index => exact backed.gathered (.active index) other found never
    | pending index => exact backed.gathered (.pending index) other found never
    | inactive poolId => exact backed.gathered (.inactive poolId) other found never
    | candidate address =>
      rcases Map.cases_of_getElem?_insert found with ⟨rfl, rfl⟩ | ⟨_, found⟩
      · rw [isPool]
        exact .new fun stake listed samePool =>
          newPool (samePool ▸ backed.stakes stake listed)
      · exact backed.gathered (.candidate address) other found never
  stakes stake listed := mem_cons_of_mem _ (backed.stakes stake listed)

/-- A candidate departs with its pool. -/
theorem Backed.unregister (isCandidate : set.validatorCandidates[sender]? = some validator)
    (deactivated : validator.deactivate epoch = .ok inactive) :
    Backed
      { set with
        validatorCandidates := set.validatorCandidates.erase sender
        stakingPoolMappings :=
          set.stakingPoolMappings.erase validator.stakingPoolId
        inactiveValidators :=
          set.inactiveValidators.insert validator.stakingPoolId inactive }
      stakes registered where
  activated := backed.activated
  gathered place other found never := by
    cases place with
    | active index => exact backed.gathered (.active index) other found never
    | pending index => exact backed.gathered (.pending index) other found never
    | candidate address =>
      exact backed.gathered (.candidate address) other (Map.of_getElem?_erase found).2 never
    | inactive poolId =>
      rcases Map.cases_of_getElem?_insert found with ⟨rfl, rfl⟩ | ⟨_, found⟩
      · obtain ⟨_, samePreactive, isPool⟩ := Validator.identity_of_deactivate deactivated
        rw [samePreactive] at never
        have gathered := backed.gathered (.candidate sender) validator isCandidate never
        rw [isPool]
        exact { gathered with }
      · exact backed.gathered (.inactive poolId) other found never
  stakes := backed.stakes

/-- A candidate that joins brings its stakes along. -/
theorem Backed.join (isCandidate : set.validatorCandidates[sender]? = some validator) :
    Backed
      { set with
        validatorCandidates := set.validatorCandidates.erase sender
        pendingActiveValidators := set.pendingActiveValidators ++ [validator] }
      stakes registered where
  activated := backed.activated
  gathered place other found never := by
    cases place with
    | active index => exact backed.gathered (.active index) other found never
    | inactive poolId => exact backed.gathered (.inactive poolId) other found never
    | pending index =>
      rcases mem_snoc.mp (mem_of_getElem? found) with old | rfl
      · obtain ⟨before, isBefore⟩ := mem_iff_getElem?.mp old
        exact backed.gathered (.pending before) other isBefore never
      · exact backed.gathered (.candidate sender) other isCandidate never
    | candidate address =>
      exact backed.gathered (.candidate address) other (Map.of_getElem?_erase found).2 never
  stakes := backed.stakes

end

/-! ## The end of an epoch -/

/-- All members are active, and no other validator that was never active has
appeared. -/
structure Members (set after : ValidatorSet) : Prop where
  activated : ∀ validator ∈ after.activeValidators, validator.isPreactive = false
  noPending : after.pendingActiveValidators = []
  candidates : after.validatorCandidates = set.validatorCandidates
  inactive : ∀ (poolId : ID) (validator : Validator),
    after.inactiveValidators[poolId]? = some validator → validator.isPreactive = true →
        set.inactiveValidators[poolId]? = some validator

/-- Departures leave active members only. -/
theorem Members.keptByLeaving (set : ValidatorSet) (epoch : Nat) :
    KeptByLeaving epoch fun reached _ => set.Members reached where
  atRisk _ _ _ members := { members with }
  removed reached records index after cleaned members removed := by
    obtain ⟨validator, inactive, _, _, found, deactivated, _, _, rfl⟩ := removeActive_spec removed
    refine ⟨fun other listed => ?_, members.noPending, members.candidates,
      fun poolId other isOther never => ?_⟩
    · exact members.activated other (mem_of_mem_eraseIdx listed)
    · rcases Map.cases_of_getElem?_insert isOther with ⟨rfl, rfl⟩ | ⟨_, isOther⟩
      · rw [(Validator.identity_of_deactivate deactivated).2.1,
          members.activated validator (mem_of_getElem? found)] at never
        cases never
      · exact members.inactive poolId other isOther never

/-- Only members change when an epoch ends. -/
theorem members_of_phases
    (activated : ∀ validator ∈ set.activeValidators, validator.isPreactive = false)
    (hasEntered : set.enterEpoch records computationReward storageFundReward
      rewardSlashingRate epoch = .ok (newStakes, entered))
    (hasLeft : leaveEpoch parameters entered records epoch = .ok (left, cleaned))
    (hasSettled : left.settleEpoch = .ok settled) :
    set.Members settled := by
  obtain ⟨active, joining, sameActive, sameJoining, rfl, _⟩ := enterEpoch_spec hasEntered
  have members : set.Members
      { set with
        activeValidators := active ++ joining
        pendingActiveValidators := []
        pendingRemovals := [] } := by
    refine ⟨fun validator listed => ?_, rfl, rfl, fun _ _ found _ => found⟩
    rcases mem_append.mp listed with isActive | isJoining
    · obtain ⟨before, isBefore, same⟩ := exists_of_forall₂ sameActive isActive
      rw [same.isPreactive]
      exact activated before isBefore
    · obtain ⟨_, _, isActivated⟩ := exists_of_forall₂ sameJoining isJoining
      exact (Validator.identity_of_activate isActivated).2.2.1
  have leftMembers := (Members.keptByLeaving set epoch).leaveEpoch members hasLeft
  obtain ⟨final, _, sameFinal, _, rfl⟩ := settleEpoch_spec hasSettled
  refine { leftMembers with activated := fun validator listed => ?_ }
  obtain ⟨before, isBefore, same⟩ := exists_of_forall₂ sameFinal listed
  rw [Validator.isPreactive, same.stakingPool]
  exact leftMembers.activated before isBefore

/-- The rewards of active validators do not touch the pools of others. -/
theorem Backed.advance (backed : set.Backed stakes registered)
    (sound : (set.roster registered).Sound) (members : set.Members after)
    (pools : ∀ stake ∈ newStakes, ∃ validator ∈ set.activeValidators,
      stake.poolId = validator.stakingPoolId) :
    after.Backed (newStakes ++ stakes) registered := by
  have others {place : Place} {validator : Validator}
      (found : set.validatorAt place = some validator) (never : validator.isPreactive = true) :
      validator.stakingPool.Gathered (newStakes ++ stakes) := by
    apply (backed.gathered place validator found never).congr
    have noReward : principalOf newStakes validator.stakingPool.id = 0 := by
      apply groupWeight_eq_zero
      intro stake isNew samePool
      obtain ⟨active, isActive, activePool⟩ := pools stake isNew
      obtain ⟨index, activeFound⟩ := mem_iff_getElem?.mp isActive
      have activeFound : set.validatorAt (.active index) = some active := activeFound
      have isPlace := place_of_pool sound found activeFound (samePool.symm.trans activePool)
      rw [isPlace, activeFound] at found
      cases found
      rw [backed.activated _ isActive] at never
      cases never
    unfold principalOf at noReward ⊢
    rw [groupWeight_append, noReward, Nat.zero_add]
  refine ⟨members.activated, fun place validator found never => ?_, ?_⟩
  · cases place with
    | active index =>
      have isActive := members.activated validator (mem_of_getElem? found)
      rw [isActive] at never
      cases never
    | pending index => simp [validatorAt, members.noPending] at found
    | candidate address =>
      have isCandidate : set.validatorAt (.candidate address) = some validator := by
        rw [← found]
        exact congrArg (·[address]?) members.candidates.symm
      exact others isCandidate never
    | inactive poolId =>
      have isInactive : set.validatorAt (.inactive poolId) = some validator :=
        members.inactive poolId validator found never
      exact others isInactive never
  · refine forall_mem_append.mpr ⟨fun stake isNew => ?_, backed.stakes⟩
    obtain ⟨validator, isActive, samePool⟩ := pools stake isNew
    obtain ⟨index, found⟩ := mem_iff_getElem?.mp isActive
    have found : set.validatorAt (.active index) = some validator := found
    rw [samePool]
    exact registered_of_validatorAt sound found

end ValidatorSet

namespace SystemLedger

variable {natives : Natives} {ledger next : SystemLedger} {action : Action}

/-- The stake of the ledger is where it belongs. -/
def Backed (ledger : SystemLedger) : Prop :=
  ledger.validators.Backed ledger.stakes ledger.registered

/-- Every effect keeps the joining stakes backed. -/
theorem backed_of_effect (placed : ledger.Placed) (backed : ledger.Backed)
    (effect : Effect ledger action next) :
    next.Backed := by
  have edited {old new : Validator} {set : ValidatorSet}
      (replaced : ledger.validators.Replaced old new set) (isEdited : old.Edited new) :
      set.Backed ledger.stakes ledger.registered := by
    apply ValidatorSet.Backed.replaced backed placed.sound replaced
    · rw [Validator.isPreactive, isEdited.stakingPool]
      rfl
    · rw [isEdited.stakingPool]
      exact fun _ gathered => gathered
    · exact fun _ _ => rfl
    · exact backed.stakes
  cases effect with
  | edited replaced harmless later => exact edited replaced harmless.1
  | staged replaced isEdited unique => exact edited replaced isEdited
  | overwritten sender update replaced preactive isEdited who =>
    exact edited replaced isEdited
  | @addedStake _ old new set amount stake replaced requested =>
    obtain ⟨changed, isOld, _⟩ := replaced.validatorAt
    have samePool := Validator.poolId_of_requestAddStake requested
    apply ValidatorSet.Backed.replaced backed placed.sound replaced
    · exact (Validator.Same.requestAddStake requested).isPreactive
    · intro never gathered
      obtain ⟨queued, stakingPool, added, processed, rfl⟩ :=
        Validator.requestAddStake_spec requested
      exact gathered.addStake never added processed
    · intro poolId different
      rw [principalOf, groupWeight_cons, samePool, if_neg different.symm, Nat.zero_add]
      rfl
    · refine forall_mem_cons.mpr ⟨?_, backed.stakes⟩
      rw [samePool]
      exact registered_of_validatorAt placed.sound isOld
  | @withdrew _ old new set amount stake listed replaced requested =>
    obtain ⟨stakingPool, paid, _, isNew⟩ := Validator.requestWithdrawStake_spec requested
    apply ValidatorSet.Backed.replaced backed placed.sound replaced
    · exact (Validator.Same.requestWithdrawStake requested).isPreactive
    · intro _ gathered
      rw [isNew]
      exact gathered.withdrawStake listed paid
    · intro poolId different
      have samePool : stake.poolId = old.stakingPoolId :=
        (StakingPool.requestWithdrawStake_spec paid).1
      rw [principalOf, principalOf, groupWeight_erase listed, samePool,
        if_neg different.symm, Nat.zero_add]
    · exact fun other isOther =>
        backed.stakes other (mem_of_mem_erase isOther)
  | regrouped same pools =>
    refine ⟨backed.activated, fun place validator found never => ?_, ?_⟩
    · exact (backed.gathered place validator found never).congr (same _)
    · intro stake listed
      obtain ⟨other, isOther, samePool⟩ := pools stake listed
      rw [samePool]
      exact backed.stakes other isOther
  | registered pool notActive notPending noCandidate =>
    exact ValidatorSet.Backed.register backed (fun used => (placed.fresh _ used).false) pool
  | unregistered sender found deactivated =>
    exact ValidatorSet.Backed.unregister backed found deactivated
  | joined sender found notActive notPending enough =>
    exact ValidatorSet.Backed.join backed found
  | asked | reported | undone | safeMode =>
      exact { backed with }
  | advanced hasEntered hasLeft hasSettled =>
    obtain ⟨_, _, _, _, _, pools⟩ := enterEpoch_spec hasEntered
    exact ValidatorSet.Backed.advance backed placed.sound
      (members_of_phases backed.activated hasEntered hasLeft hasSettled) pools

/-- The stakes of genesis are backed. -/
theorem backed_of_genesis
    (started : genesis natives parameters genesisValidators allocations = some ledger) :
    ledger.Backed := by
  obtain ⟨founded, registered⟩ := founded_of_genesis started
  refine ⟨founded.active, fun place validator found never => ?_, fun stake listed => ?_⟩
  · cases place with
    | active index =>
      rw [founded.active validator (mem_of_getElem? found)] at never
      cases never
    | pending index =>
      simp [validatorAt, validators, founded.pending] at found
    | candidate address =>
      simp [validatorAt, validators, founded.candidates] at found
    | inactive poolId =>
      simp [validatorAt, validators, founded.inactive] at found
  · obtain ⟨validator, isValidator, samePool⟩ := founded.stakes stake listed
    rw [registered, samePool]
    exact mem_map_of_mem isValidator

/-- The joining stakes are backed in every reachable ledger. -/
theorem backed_of_reachable (reachable : Reachable natives allowed ledger) : ledger.Backed := by
  obtain ⟨_, _, _, start, started, run⟩ := reachable
  have both := run.invariant (fun ledger => ledger.Placed ∧ ledger.Backed)
    ⟨placed_of_genesis started, backed_of_genesis started⟩ fun _ _ _ before _ performed =>
      ⟨before.1.perform performed, backed_of_effect before.1 before.2 (effect_of_perform performed)⟩
  exact both.2

/-! ## Joining -/

/-- The stake of a validator that was never active consists of the outstanding
principals and the rewards exactly if no withdrawal is queued.  If none is, a
candidate that joins has the stake that is needed to join. -/
theorem totalStakeAmount_eq_iff (natives : Natives) (allowed : SystemLedger → Action → Prop)
    (ledger : SystemLedger) (reachable : Reachable natives allowed ledger) :
    (∀ place validator, ledger.validators.validatorAt place = some validator →
      validator.isPreactive = true → (validator.totalStakeAmount =
            principalOf ledger.stakes validator.stakingPoolId + validator.stakingPool.rewardsPool ↔
          validator.stakingPool.pendingTotalSuiWithdraw = 0)) ∧
      ∀ sender validator next, ledger.validators.validatorCandidates[sender]? = some validator →
        ledger.perform natives (.requestAddValidator sender) = some next →
        validator.stakingPool.pendingTotalSuiWithdraw = 0 →
          ledger.state.parameters.minValidatorJoiningStake ≤
            principalOf ledger.stakes validator.stakingPoolId := by
  have backed := backed_of_reachable reachable
  have balance {place : Place} {validator : Validator}
      (found : ledger.validators.validatorAt place = some validator)
      (never : validator.isPreactive = true) : validator.totalStakeAmount =
        validator.stakingPool.pendingTotalSuiWithdraw +
          principalOf ledger.stakes validator.stakingPoolId :=
    (backed.gathered place validator found never).suiBalance
  refine ⟨fun place validator found never => ?_,
    fun sender validator next found performed noWithdraw => ?_⟩
  · have rewards := (backed.gathered place validator found never).rewardsPool
    rw [balance found never, rewards]
    omega
  · obtain ⟨joining, isJoining, _, _, never, enough, _⟩ := requestAddValidator_spec performed
    rw [found] at isJoining
    cases isJoining
    have found : ledger.validators.validatorAt (.candidate sender) = some validator := found
    rw [balance found never, noWithdraw, Nat.zero_add] at enough
    exact enough

/-- A candidate joins with stake that nobody withdraws. -/
theorem totalStakeAmount_eq_iff_staked :
    ∃ (ledger next : SystemLedger) (candidate : Validator),
      Reachable .accepting (fun _ _ => True) ledger ∧
      ledger.validators.validatorCandidates[2]? = some candidate ∧
      ledger.perform .accepting (.requestAddValidator 2) = some next ∧
      ledger.state.parameters.minValidatorJoiningStake ≤
        principalOf ledger.stakes candidate.stakingPoolId := by
  obtain ⟨ledger, reachable, isSome, joins⟩ := exists_reachable (fun _ _ => True)
    [.requestAddValidatorCandidate 2 (.uniform 2) 1 0, .requestAddStake 5000000000 2] (fun ledger =>
      (ledger.validators.validatorCandidates[2]?.any fun candidate =>
        candidate.stakingPool.pendingTotalSuiWithdraw = 0) = true ∧
      (ledger.perform .accepting (.requestAddValidator 2)).isSome = true)
    (by decide +kernel)
  obtain ⟨candidate, found, noWithdraw⟩ := (Option.any_eq_true _ _).mp isSome
  obtain ⟨next, performed⟩ := Option.isSome_iff_exists.mp joins
  exact ⟨ledger, next, candidate, reachable, found, performed,
    (totalStakeAmount_eq_iff .accepting _ ledger reachable).2 2 candidate next found
      performed (of_decide_eq_true noWithdraw)⟩

/-- A candidate gets stake, which is withdrawn in the next epoch.  It can join
although nothing is staked with it. -/
theorem joins_without_stake :
    ∃ (ledger next : SystemLedger) (candidate : Validator),
      Reachable .accepting (fun _ _ => True) ledger ∧
      ledger.validators.validatorCandidates[2]? = some candidate ∧
      ledger.perform .accepting (.requestAddValidator 2) = some next ∧
      principalOf ledger.stakes candidate.stakingPoolId = 0 ∧
      candidate.isPreactive = true ∧
      candidate.stakingPool.rewardsPool = 0 ∧
      candidate.totalStakeAmount = 5000000000 ∧
      ledger.state.parameters.minValidatorJoiningStake = 3000000000 := by
  obtain ⟨ledger, reachable, isSome, joins, needed⟩ :=
    exists_reachable (fun _ _ => True)
      [.requestAddValidatorCandidate 2 (.uniform 2) 1 0,
        .requestAddStake 5000000000 2, .advanceEpoch 0 0 0,
        .requestWithdrawStake ⟨4, 1, 5000000000⟩] (fun ledger =>
        (ledger.validators.validatorCandidates[2]?.any fun candidate =>
          principalOf ledger.stakes candidate.stakingPoolId = 0 ∧ candidate.isPreactive = true ∧
            candidate.stakingPool.rewardsPool = 0 ∧
            candidate.totalStakeAmount = 5000000000) = true ∧
        (ledger.perform .accepting (.requestAddValidator 2)).isSome = true ∧
        ledger.state.parameters.minValidatorJoiningStake = 3000000000)
      (by decide +kernel)
  obtain ⟨candidate, found, holds⟩ := (Option.any_eq_true _ _).mp isSome
  obtain ⟨unstaked, never, noRewards, stake⟩ := of_decide_eq_true holds
  obtain ⟨next, performed⟩ := Option.isSome_iff_exists.mp joins
  exact ⟨ledger, next, candidate, reachable, found, performed, unstaked, never,
    noRewards, stake, needed⟩

end SystemLedger

end Sui.System
