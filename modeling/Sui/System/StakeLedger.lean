import Sui.Library.Run
import Sui.System.Solvency

/-!
# A validator and its stakers

One validator runs with all the stakes in its pool, over any number of epochs.
Stakers add, withdraw, split and join stakes in any order; the validator is
activated and deactivated, and pending stake is processed at the end of every
epoch in which it is active.

The pool stays solvent.  It can nevertheless fail to be processed: when little
SUI backs many pool tokens, which rounding can cause, the tokens for a large
deposit do not fit in an integer.
-/

namespace Sui.System

open Library StakingPool
open Option (ite_none_right_eq_some isNone_iff_eq_none)

/-- A validator with the stakes in its pool. -/
structure StakeLedger where
  epoch : Nat
  validator : Validator
  stakes : List StakedSui

namespace StakeLedger

/-- What happens to the validator and its stakes. -/
inductive Action
  | addStake (amount : Nat)
  | addStakeAtGenesis (amount : Nat)
  | withdrawStake (stake : StakedSui)
  | split (stake : StakedSui) (amount : Nat)
  | join (left right : StakedSui)
  | depositRewards (amount : Nat)
  /-- The validator is activated at genesis, which knows genesis stake only. -/
  | activateAtGenesis
  | removeCandidate
  /-- The epoch ends.  The validator may join the active ones or leave them. -/
  | advance (joins leaves : Bool)

/-- The validator at the end of an epoch, before validators leave. -/
def enterEpoch (ledger : StakeLedger) (joins : Bool) : Program Validator :=
  if ledger.validator.stakingPool.isActive then
    ledger.validator.processPendingStakesAndWithdraws ledger.epoch
  else if joins then
    ledger.validator.activate (ledger.epoch + 1)
  else
    pure ledger.validator

/-- The validator at the end of an epoch. -/
def endEpoch (ledger : StakeLedger) (joins leaves : Bool) : Program Validator := do
  let validator ← ledger.enterEpoch joins
  if validator.stakingPool.isActive && leaves then
    validator.deactivate (ledger.epoch + 1)
  else
    pure validator

/-- Perform an action.  If it aborts, nothing happens. -/
def perform (ledger : StakeLedger) : Action → Option StakeLedger
  | .addStake amount =>
    (ledger.validator.requestAddStake amount ledger.epoch).toOption.map
      fun (stakedSui, validator) =>
        { ledger with
          validator := validator
          stakes := stakedSui :: ledger.stakes }
  | .addStakeAtGenesis amount =>
    if ledger.validator.isPreactive then
      (ledger.validator.requestAddStakeAtGenesis amount
        ledger.epoch).toOption.map fun (stakedSui, validator) =>
          { ledger with
            validator := validator
            stakes := stakedSui :: ledger.stakes }
    else
      none
  | .withdrawStake stake =>
    if stake ∈ ledger.stakes ∧ stake.stakeActivationEpoch ≤ ledger.epoch then
      (ledger.validator.requestWithdrawStake stake ledger.epoch).toOption.map
        fun (_, validator) =>
          { ledger with
            validator := validator
            stakes := ledger.stakes.erase stake }
    else
      none
  | .split stake amount =>
    if stake ∈ ledger.stakes then
      (stake.split amount).toOption.map fun (rest, part) =>
        { ledger with stakes := rest :: part :: ledger.stakes.erase stake }
    else
      none
  | .join left right =>
    if left ∈ ledger.stakes ∧ right ∈ ledger.stakes.erase left then
      (left.joinStakedSui right).toOption.map fun joined =>
        { ledger with
          stakes := joined :: (ledger.stakes.erase left).erase right }
    else
      none
  | .depositRewards amount =>
    if ledger.validator.stakingPool.isActive then
      (ledger.validator.depositStakeRewards amount).toOption.map
        fun validator => { ledger with validator := validator }
    else
      none
  | .activateAtGenesis =>
    if ledger.epoch = 0 ∧
        ∀ stake ∈ ledger.stakes, stake.stakeActivationEpoch = 0 then
      (ledger.validator.activate 0).toOption.map
        fun validator => { ledger with validator := validator }
    else
      none
  | .removeCandidate =>
    if ledger.validator.isPreactive then
      (ledger.validator.deactivate ledger.epoch).toOption.map
        fun validator => { ledger with validator := validator }
    else
      none
  | .advance joins leaves =>
    (ledger.endEpoch joins leaves).toOption.map fun validator =>
      { ledger with epoch := ledger.epoch + 1, validator := validator }

/-- A validator that was just created. -/
structure Fresh (validator : Validator) : Prop where
  pool : validator.stakingPool = .new validator.stakingPoolId
  noStake : validator.nextEpochStake = 0

/-- The states of a validator that is created in some epoch. -/
def Reachable (ledger : StakeLedger) : Prop :=
  ∃ epoch validator, Fresh validator ∧ Run perform (fun _ _ => True) ⟨epoch, validator, []⟩ ledger

/-! ## What an action can do -/

/-- The stakes that were withdrawn since the current exchange rate took effect, after
an action.  A pool that is inactive keeps its last rate. -/
def withdrawnAfter (ledger : StakeLedger) (withdrawn : List StakedSui) : Action → List StakedSui
  | .withdrawStake stake => stake :: withdrawn
  | .activateAtGenesis => []
  | .advance _ _ => if ledger.validator.stakingPool.isInactive then withdrawn else []
  | _ => withdrawn

/-- The ledger after stake or rewards were moved. -/
def moved (ledger : StakeLedger) (stakingPool : StakingPool) (nextEpochStake : Nat)
    (stakes : List StakedSui) : StakeLedger :=
  { ledger with
    validator :=
      { ledger.validator with stakingPool := stakingPool, nextEpochStake := nextEpochStake }
    stakes := stakes }

/-- The ledger in an epoch with another pool. -/
def entered (ledger : StakeLedger) (epoch : Nat) (stakingPool : StakingPool) : StakeLedger :=
  { ledger with
    epoch := epoch
    validator := { ledger.validator with stakingPool := stakingPool } }

/-- What can happen to a ledger and to the stakes that were withdrawn since the
current exchange rate took effect. -/
inductive Step (ledger : StakeLedger) (withdrawn : List StakedSui) :
    StakeLedger → List StakedSui → Prop
  /-- Stake is added to a pool that was never active, and processed at once. -/
  | addPreactive (preactive : ledger.validator.stakingPool.activationEpoch = none)
      (early : stakeActivationEpoch ≤ ledger.epoch + 1)
      (added : ledger.validator.stakingPool.requestAddStake amount stakeActivationEpoch =
        .ok (stakedSui, queued))
      (processed : queued.processPendingStake = .ok stakingPool) :
      Step ledger withdrawn (ledger.moved stakingPool
        (ledger.validator.nextEpochStake + amount) (stakedSui :: ledger.stakes)) withdrawn
  | addActive (active : ledger.validator.stakingPool.isActive = true)
      (added : ledger.validator.stakingPool.requestAddStake amount (ledger.epoch + 1) =
        .ok (stakedSui, stakingPool)) :
      Step ledger withdrawn (ledger.moved stakingPool
        (ledger.validator.nextEpochStake + amount) (stakedSui :: ledger.stakes)) withdrawn
  | withdraw (listed : stake ∈ ledger.stakes) (active : stake.stakeActivationEpoch ≤ ledger.epoch)
      (paid : ledger.validator.stakingPool.requestWithdrawStake stake ledger.epoch =
        .ok (amount, stakingPool))
      (enough : amount ≤ ledger.validator.nextEpochStake) :
      Step ledger withdrawn (ledger.moved stakingPool
        (ledger.validator.nextEpochStake - amount) (ledger.stakes.erase stake))
        (stake :: withdrawn)
  /-- Stakes are regrouped, such that the stake of each epoch stays the same. -/
  | regroup {stakes : List StakedSui}
      (early : ∀ stake ∈ stakes, stake.stakeActivationEpoch ≤ ledger.epoch + 1)
      (same : ∀ epoch, principalAt stakes epoch = principalAt ledger.stakes epoch) :
      Step ledger withdrawn { ledger with stakes := stakes } withdrawn
  | deposit (active : ledger.validator.stakingPool.isActive = true)
      (added : ledger.validator.stakingPool.depositRewards amount = .ok stakingPool) :
      Step ledger withdrawn (ledger.moved stakingPool
        (ledger.validator.nextEpochStake + amount) ledger.stakes) withdrawn
  | activate {epoch : Nat} (early : ∀ stake ∈ ledger.stakes, stake.stakeActivationEpoch ≤ epoch)
      (activated : ledger.validator.stakingPool.activateStakingPool epoch = .ok stakingPool) :
      Step ledger withdrawn (ledger.entered epoch stakingPool) []
  | settle (active : ledger.validator.stakingPool.isActive = true) :
      Step ledger withdrawn (ledger.entered (ledger.epoch + 1)
        (ledger.validator.stakingPool.settled ledger.epoch)) []
  | tick (notActive : ledger.validator.stakingPool.isActive = false) :
      Step ledger withdrawn { ledger with epoch := ledger.epoch + 1 }
        (if ledger.validator.stakingPool.isInactive then withdrawn else [])
  | remove (preactive : ledger.validator.stakingPool.activationEpoch = none)
      (removed : ledger.validator.stakingPool.deactivateStakingPool ledger.epoch =
        .ok stakingPool) :
      Step ledger withdrawn (ledger.entered ledger.epoch stakingPool) withdrawn
  | leave (step : Step ledger withdrawn next [])
      (early : ∀ stake ∈ next.stakes, stake.stakeActivationEpoch ≤ next.epoch)
      (left : next.validator.stakingPool.deactivateStakingPool next.epoch = .ok stakingPool) :
      Step ledger withdrawn (next.entered next.epoch stakingPool) []

section

variable {ledger : StakeLedger}
    (early : ∀ stake ∈ ledger.stakes, stake.stakeActivationEpoch ≤ ledger.epoch + 1)

include early

/-- Splitting a stake is a step. -/
theorem step_of_split {amount : Nat}
    (performed : ledger.perform (.split stake amount) = some next) :
    ledger.Step withdrawn next withdrawn := by
  obtain ⟨listed, performed⟩ := ite_none_right_eq_some.mp performed
  obtain ⟨⟨rest, part⟩, divided, rfl⟩ := map_toOption_eq_some.mp performed
  obtain ⟨enough, rfl, rfl⟩ := StakedSui.split_spec divided
  refine .regroup ?_ fun epoch => ?_
  · simp only [List.forall_mem_cons]
    exact ⟨early stake listed, early stake listed,
      fun other isOther => early other (List.mem_of_mem_erase isOther)⟩
  · simp only [principalAt, groupWeight_cons, groupWeight_erase listed epoch]
    split <;> omega

/-- Joining two stakes is a step. -/
theorem step_of_join {left right : StakedSui}
    (performed : ledger.perform (.join left right) = some next) :
    ledger.Step withdrawn next withdrawn := by
  obtain ⟨listed, performed⟩ := ite_none_right_eq_some.mp performed
  obtain ⟨joined, together, rfl⟩ := map_toOption_eq_some.mp performed
  obtain ⟨_, sameEpoch, rfl⟩ := StakedSui.joinStakedSui_spec together
  refine .regroup ?_ fun epoch => ?_
  · refine List.forall_mem_cons.mpr ⟨early left listed.1, fun other isOther => ?_⟩
    exact early other (List.mem_of_mem_erase (List.mem_of_mem_erase isOther))
  · simp only [principalAt, groupWeight_cons, groupWeight_erase listed.1 epoch,
      groupWeight_erase listed.2 epoch, sameEpoch]
    split <;> omega

/-- The end of an epoch, before validators leave.  A pool that is inactive stays
so. -/
theorem step_of_enterEpoch (withdrawn : List StakedSui)
    (isEntered : ledger.enterEpoch joins = .ok after) :
    ledger.Step withdrawn ⟨ledger.epoch + 1, after, ledger.stakes⟩
        (if ledger.validator.stakingPool.isInactive then withdrawn else []) ∧
      (after.stakingPool.isActive = true → ledger.validator.stakingPool.isInactive = false) := by
  unfold enterEpoch at isEntered
  split at isEntered
  · next active =>
    obtain ⟨stakingPool, processed, _, rfl⟩ :=
      Validator.processPendingStakesAndWithdraws_eq_ok.mp isEntered
    obtain ⟨_, _, _, _, _, _, rfl⟩ := processPendingStakesAndWithdraws_eq_ok.mp processed
    have running := (activated_of_isActive active).2
    rw [isInactive, running]
    exact ⟨.settle active, fun _ => rfl⟩
  · next notActive =>
    split at isEntered
    · obtain ⟨stakingPool, activated, rfl⟩ := Validator.activate_eq_ok.mp isEntered
      have running := (activateStakingPool_spec activated).2.1
      rw [isInactive, running]
      exact ⟨.activate early activated, fun _ => rfl⟩
    · cases isEntered
      exact ⟨.tick (Bool.eq_false_iff.mpr notActive), fun active => absurd active notActive⟩

/-- Every action is a step. -/
theorem step_of_perform (withdrawn : List StakedSui)
    (performed : ledger.perform action = some next) :
    ledger.Step withdrawn next (ledger.withdrawnAfter withdrawn action) := by
  cases action with
  | addStake amount =>
    obtain ⟨⟨stakedSui, after⟩, requested, rfl⟩ := map_toOption_eq_some.mp performed
    obtain ⟨queued, stakingPool, added, processed, rfl⟩ := Validator.requestAddStake_spec requested
    have unchanged : queued.activationEpoch = ledger.validator.stakingPool.activationEpoch := by
      obtain ⟨_, _, _, _, rfl⟩ := requestAddStake_eq_ok.mp added
      rfl
    unfold processIfPreactive at processed
    split at processed
    · next preactive =>
      rw [isPreactive, isNone_iff_eq_none, unchanged] at preactive
      exact .addPreactive preactive le_rfl added processed
    · next activated =>
      cases processed
      have running := (requestAddStake_eq_ok.mp added).1
      rw [isPreactive, unchanged, ← isPreactive] at activated
      exact .addActive (by simp [isActive, activated, running]) added
  | addStakeAtGenesis amount =>
    obtain ⟨preactive, performed⟩ := ite_none_right_eq_some.mp performed
    obtain ⟨⟨stakedSui, after⟩, requested, rfl⟩ := map_toOption_eq_some.mp performed
    obtain ⟨_, queued, stakingPool, added, processed, rfl⟩ :=
      Validator.requestAddStakeAtGenesis_spec requested
    exact .addPreactive (isNone_iff_eq_none.mp preactive) (Nat.zero_le _) added processed
  | withdrawStake stake =>
    obtain ⟨held, performed⟩ := ite_none_right_eq_some.mp performed
    obtain ⟨⟨amount, after⟩, requested, rfl⟩ := map_toOption_eq_some.mp performed
    obtain ⟨stakingPool, paid, enough, rfl⟩ := Validator.requestWithdrawStake_spec requested
    exact .withdraw held.1 held.2 paid enough
  | split => exact step_of_split early performed
  | join => exact step_of_join early performed
  | depositRewards amount =>
    obtain ⟨active, performed⟩ := ite_none_right_eq_some.mp performed
    obtain ⟨after, requested, rfl⟩ := map_toOption_eq_some.mp performed
    obtain ⟨stakingPool, added, rfl⟩ := Validator.depositStakeRewards_spec requested
    exact .deposit active added
  | activateAtGenesis =>
    obtain ⟨atGenesis, performed⟩ := ite_none_right_eq_some.mp performed
    obtain ⟨after, requested, rfl⟩ := map_toOption_eq_some.mp performed
    obtain ⟨stakingPool, activated, rfl⟩ := Validator.activate_eq_ok.mp requested
    have now : ledger.Step withdrawn (ledger.entered 0 stakingPool) [] :=
      .activate (fun stake listed => (atGenesis.2 stake listed).le) activated
    rw [← atGenesis.1] at now
    exact now
  | removeCandidate =>
    obtain ⟨preactive, performed⟩ := ite_none_right_eq_some.mp performed
    obtain ⟨after, requested, rfl⟩ := map_toOption_eq_some.mp performed
    obtain ⟨stakingPool, removed, rfl⟩ := Validator.deactivate_eq_ok.mp requested
    exact .remove (isNone_iff_eq_none.mp preactive) removed
  | advance joins leaves =>
    obtain ⟨after, ended, rfl⟩ := map_toOption_eq_some.mp performed
    obtain ⟨middle, isEntered, left⟩ := bind_eq_ok.mp ended
    obtain ⟨step, running⟩ := step_of_enterEpoch early withdrawn isEntered
    split at left
    · next leaving =>
      obtain ⟨stakingPool, deactivated, rfl⟩ := Validator.deactivate_eq_ok.mp left
      have notInactive := Bool.eq_false_iff.mp (running (Bool.and_eq_true_iff.mp leaving).1)
      rw [if_neg notInactive] at step
      rw [withdrawnAfter, if_neg notInactive]
      exact .leave step early deactivated
    · cases left
      exact step

end

/-- The invariant: the pool is solvent, and the validator knows its stake. -/
structure Balanced (ledger : StakeLedger) : Prop where
  solvent : ledger.validator.stakingPool.Solvent ledger.epoch ledger.stakes
  nextEpochStake : ledger.validator.nextEpochStake =
    ledger.validator.stakingPool.rewardsPool + totalPrincipal ledger.stakes

namespace Balanced

variable {ledger next : StakeLedger}

theorem fresh {validator : Validator} (isFresh : Fresh validator) (epoch : Nat) :
    Balanced ⟨epoch, validator, []⟩ := by
  constructor
  · rw [isFresh.pool]
    exact .new _ _
  · rw [isFresh.pool, isFresh.noStake]
    rfl

/-- Every step keeps the ledger balanced. -/
theorem step (balanced : ledger.Balanced) (step : ledger.Step withdrawn next kept) :
    next.Balanced := by
  have known := balanced.nextEpochStake
  have more (amount : Nat) : ledger.validator.nextEpochStake + amount =
      ledger.validator.stakingPool.rewardsPool + (amount + totalPrincipal ledger.stakes) := by
    omega
  induction step with
  | @addPreactive _ amount stakedSui _ _ preactive early added processed =>
    refine ⟨balanced.solvent.addStake_of_preactive preactive early added processed, ?_⟩
    obtain ⟨_, _, _, rfl, rfl⟩ := requestAddStake_eq_ok.mp added
    obtain ⟨_, _, rfl⟩ := processPendingStake_eq_ok.mp processed
    exact more amount
  | @addActive amount _ _ active added =>
    refine ⟨balanced.solvent.addStake_of_active active added, ?_⟩
    obtain ⟨_, _, _, rfl, rfl⟩ := requestAddStake_eq_ok.mp added
    exact more amount
  | withdraw listed active paid enough =>
    obtain ⟨solvent, total⟩ := balanced.solvent.withdraw listed active paid
    refine ⟨solvent, ?_⟩
    dsimp only [moved]
    omega
  | regroup early same =>
    refine ⟨balanced.solvent.regroup early same, ?_⟩
    rw [known, totalPrincipal_congr early balanced.solvent.early same]
  | deposit active added =>
    refine ⟨balanced.solvent.deposit active added, ?_⟩
    obtain rfl := depositRewards_spec added
    dsimp only [moved]
    omega
  | activate early activated =>
    refine ⟨balanced.solvent.activate early activated, ?_⟩
    obtain ⟨_, _, rfl⟩ := activateStakingPool_spec activated
    exact known
  | settle active => exact ⟨balanced.solvent.settled active, known⟩
  | tick notActive => exact ⟨balanced.solvent.tick notActive, known⟩
  | remove preactive removed =>
    refine ⟨balanced.solvent.deactivate (fun active => ?_) removed, ?_⟩
    · obtain ⟨⟨_, activated⟩, _⟩ := activated_of_isActive active
      exact nomatch preactive.symm.trans activated
    · obtain ⟨_, rfl⟩ := deactivateStakingPool_spec removed
      exact known
  | leave _ early left ih =>
    refine ⟨ih.solvent.deactivate (fun _ => early) left, ?_⟩
    obtain ⟨_, rfl⟩ := deactivateStakingPool_spec left
    exact ih.nextEpochStake

theorem perform (balanced : ledger.Balanced) (performed : ledger.perform action = some next) :
    next.Balanced :=
  balanced.step (step_of_perform balanced.solvent.early [] performed)

end Balanced

variable {ledger : StakeLedger}

theorem Reachable.balanced (reachable : ledger.Reachable) : ledger.Balanced := by
  obtain ⟨epoch, validator, isFresh, run⟩ := reachable
  exact run.invariant Balanced (.fresh isFresh epoch)
    fun _ _ _ balanced _ performed => balanced.perform performed

/-! ## Solvency of every reachable pool -/

/-- The stakes that the pool has processed. -/
def processedStakes (ledger : StakeLedger) : List StakedSui :=
  ledger.stakes.filter fun stake =>
    stake.stakeActivationEpoch ∈
      Finset.range (ledger.validator.stakingPool.horizon ledger.epoch + 1)

/-- The tokens that the pool has after the end of the epoch: those that are not
redeemed keep their value, and the pending stake adds its share. -/
def issuedTokens (pool : StakingPool) : Nat :=
  PoolTokenExchangeRate.tokens
    ⟨pool.suiBalance - pool.pendingTotalSuiWithdraw,
      pool.poolTokenBalance - pool.pendingPoolTokenWithdraw⟩
    (pool.suiBalance - pool.pendingTotalSuiWithdraw + pool.pendingStake)

/-- The pool owes what it has, its tokens cover its stakes, and it can be
processed unless the new tokens do not fit. -/
structure Sound (ledger : StakeLedger) (pool : StakingPool) : Prop where
  enough : pool.pendingTotalSuiWithdraw ≤ pool.suiBalance + pool.pendingStake
  balance :
    pool.suiBalance + pool.pendingStake - pool.pendingTotalSuiWithdraw =
      pool.rewardsPool + totalPrincipal ledger.stakes
  nextEpochStake :
    pool.suiBalance + pool.pendingStake - pool.pendingTotalSuiWithdraw =
      ledger.validator.nextEpochStake
  rates : ∀ stake ∈ ledger.processedStakes,
    pool.poolTokenExchangeRateAtEpoch stake.stakeActivationEpoch =
      .ok (pool.rateAt stake.stakeActivationEpoch)
  covered :
    (ledger.processedStakes.map fun stake =>
        (pool.rateAt stake.stakeActivationEpoch).tokens stake.principal).sum +
      pool.pendingPoolTokenWithdraw ≤ pool.poolTokenBalance
  /-- The pool can be processed unless the new tokens do not fit. -/
  processable : pool.isActive = true →
    ((∃ after, ledger.validator.processPendingStakesAndWithdraws ledger.epoch =
      .ok after) ↔ issuedTokens pool < 2 ^ 64)

/-- The epoch of an active pool can be processed unless its tokens overflow. -/
theorem Balanced.processable (balanced : ledger.Balanced)
    (bounded : ledger.validator.stakingPool.rewardsPool + totalPrincipal ledger.stakes < 2 ^ 64)
    (active : ledger.validator.stakingPool.isActive = true) :
    (∃ after, ledger.validator.processPendingStakesAndWithdraws ledger.epoch =
      .ok after) ↔ issuedTokens ledger.validator.stakingPool < 2 ^ 64 := by
  obtain ⟨_, total⟩ := balanced.solvent.enough active
  constructor
  · rintro ⟨after, processed⟩
    obtain ⟨stakingPool, poolProcessed, _, _⟩ :=
      Validator.processPendingStakesAndWithdraws_eq_ok.mp processed
    exact ((balanced.solvent.processPendingStakesAndWithdraws_eq_ok active
      bounded).mp poolProcessed).1
  · intro fits
    refine ⟨_, Validator.processPendingStakesAndWithdraws_eq_ok.mpr
      ⟨_, (balanced.solvent.processPendingStakesAndWithdraws_eq_ok active
        bounded).mpr ⟨fits, rfl⟩, ?_, rfl⟩⟩
    rw [total, balanced.nextEpochStake]

/-- The tokens of all processed stakes are issued. -/
theorem Balanced.covered (balanced : ledger.Balanced) :
    (ledger.processedStakes.map fun stake =>
        (ledger.validator.stakingPool.rateAt stake.stakeActivationEpoch).tokens
          stake.principal).sum +
      ledger.validator.stakingPool.pendingPoolTokenWithdraw ≤
        ledger.validator.stakingPool.poolTokenBalance := by
  have together := sum_value_le_sum_group StakedSui.stakeActivationEpoch StakedSui.principal
    (fun epoch => (ledger.validator.stakingPool.rateAt epoch).tokens)
    (fun epoch => PoolTokenExchangeRate.tokens_superadditive _)
    ledger.stakes (Finset.range (ledger.validator.stakingPool.horizon ledger.epoch + 1))
  have covered := balanced.solvent.covered
  unfold redeemable principalAt at covered
  unfold processedStakes
  omega

/-- Every reachable pool owes what it has, its tokens cover its stakes, and it
can be processed exactly if the new tokens fit. -/
theorem sound_of_reachable (ledger : StakeLedger) (reachable : ledger.Reachable)
    (bounded : ledger.validator.stakingPool.rewardsPool + totalPrincipal ledger.stakes < 2 ^ 63) :
    ledger.Sound ledger.validator.stakingPool := by
  have balanced := reachable.balanced
  have balance := balanced.solvent.balance
  have known := balanced.nextEpochStake
  refine ⟨by omega, by omega, by omega, ?_, balanced.covered, balanced.processable (by omega)⟩
  intro stake processed
  apply balanced.solvent.poolTokenExchangeRateAtEpoch_eq
  have listed := (List.mem_filter.mp processed).2
  simpa [Nat.lt_succ_iff] using listed

/-- A new validator without metadata. -/
def anonymous : Validator :=
  .newFromMetadata (.newMetadata 0 ⟨[], [], [], [], [], [], [], [], [], [], [], []⟩)
    0 0 0 0

/-- After a reward of one unit, stake is added in six parts and withdrawn again.
Every part redeems a little less than its share of the tokens. -/
def leaveDust : List Action :=
  [.addStakeAtGenesis 1000000000, .activateAtGenesis, .depositRewards 1, .advance false false] ++
  List.replicate 6 (.addStake 1500000000) ++
  [.advance false false] ++
  List.replicate 6 (.withdrawStake ⟨0, 2, 1500000000⟩) ++
  [.advance false false]

/-- A run that leaves dust in the pool. -/
theorem sound_of_reachable_leaveDust :
    ∃ ledger : StakeLedger, ledger.Reachable ∧ ledger.validator.stakingPool.isActive = true ∧
        ledger.stakes ≠ [] ∧ ledger.Sound ledger.validator.stakingPool := by
  obtain ⟨ledger, run, bounded, active, nonempty⟩ := exists_run perform
    (fun _ _ => True) ⟨0, anonymous, []⟩ leaveDust
    (fun ledger => ledger.validator.stakingPool.rewardsPool +
        totalPrincipal ledger.stakes < 2 ^ 63 ∧
      ledger.validator.stakingPool.isActive = true ∧ ledger.stakes ≠ []) (by decide +kernel)
  have reachable : ledger.Reachable := ⟨0, anonymous, ⟨rfl, rfl⟩, run⟩
  exact ⟨ledger, reachable, active, nonempty, sound_of_reachable ledger reachable bounded⟩

/-- When the genesis stake is withdrawn as well, one unit backs three tokens.  The
tokens for a deposit of more than six billion SUI do not fit then. -/
theorem processing_overflows :
    ∃ ledger : StakeLedger, ledger.Reachable ∧
      ledger.validator.stakingPool.rewardsPool + totalPrincipal ledger.stakes < 2 ^ 63 ∧
      ledger.validator.stakingPool.isActive = true ∧
      ledger.validator.processPendingStakesAndWithdraws ledger.epoch = .error .arithmetic := by
  obtain ⟨ledger, run, bounded, active, aborted⟩ := exists_run perform
    (fun _ _ => True) ⟨0, anonymous, []⟩
    (leaveDust ++ [.withdrawStake ⟨0, 0, 1000000000⟩, .addStake 6200000000000000000])
    (fun ledger => ledger.validator.stakingPool.rewardsPool +
        totalPrincipal ledger.stakes < 2 ^ 63 ∧ ledger.validator.stakingPool.isActive = true ∧
      failure (ledger.validator.processPendingStakesAndWithdraws ledger.epoch) =
          some .arithmetic) (by decide +kernel)
  exact ⟨ledger, ⟨0, anonymous, ⟨rfl, rfl⟩, run⟩, bounded, active, failure_eq_some.mp aborted⟩

end StakeLedger

end Sui.System
