import Sui.System.StakeLedger

/-!
# Why rewards are cut

A withdrawal pays the share of a stake at the current exchange rate, but no more
rewards than the pool has left.  Shares are rounded down, and a stake whose share
is less than its principal gets its principal nevertheless.  What such stakes get
beyond their shares is all that the other stakes can lack.

A ledger records which stakes were withdrawn since the current rate took effect.
-/

namespace Sui.System

open Library StakingPool PoolTokenExchangeRate StakingPool.SameLife
open List hiding after

namespace PoolTokenExchangeRate

/-- The two sides of a rate are alike. -/
theorem worth_eq_tokens (rate : PoolTokenExchangeRate) (tokenAmount : Nat) :
    rate.worth tokenAmount = tokens ⟨rate.poolTokenAmount, rate.suiAmount⟩ tokenAmount := by
  simp only [worth, tokens, or_comm]

@[simp] theorem worth_initial (tokenAmount : Nat) : initial.worth tokenAmount = tokenAmount := by
  simp [worth, initial]

section

variable (rate : PoolTokenExchangeRate)

include rate

theorem worth_superadditive (left right : Nat) :
    rate.worth left + rate.worth right ≤ rate.worth (left + right) := by
  simp only [worth_eq_tokens]
  exact tokens_superadditive _ left right

theorem worth_mono (atMost : left ≤ right) : rate.worth left ≤ rate.worth right := by
  obtain ⟨rest, rfl⟩ := Nat.exists_eq_add_of_le atMost
  exact (Nat.le_add_right _ _).trans (rate.worth_superadditive left rest)

/-- Tokens in parts are worth at most what they are worth together. -/
theorem sum_worth_le (amounts : List Nat) :
    (amounts.map rate.worth).sum ≤ rate.worth amounts.sum := by
  induction amounts with
  | nil => exact Nat.zero_le _
  | cons amount amounts ih =>
    exact (Nat.add_le_add_left ih _).trans (rate.worth_superadditive _ _)

end

/-- Tokens are never worth more than the pool holds. -/
theorem worth_le {sui poolTokens : Nat} (covered : amount ≤ poolTokens)
    (empty : sui = 0 → amount = 0) : worth ⟨sui, poolTokens⟩ amount ≤ sui := by
  unfold worth
  split
  · rcases ‹_ ∨ _› with noSui | noTokens
    · exact (empty noSui).trans_le (Nat.zero_le _)
    · exact covered.trans (noTokens.trans_le (Nat.zero_le _))
  · exact Nat.div_le_of_le_mul (Nat.mul_comm sui amount ▸ Nat.mul_le_mul_right sui covered)

end PoolTokenExchangeRate

/-- The stakes that are active in an epoch. -/
def activeStakes (stakes : List StakedSui) (epoch : Nat) : List StakedSui :=
  stakes.filter fun stake => stake.stakeActivationEpoch ≤ epoch

theorem activeStakes_eq (stakes : List StakedSui) (epoch : Nat) :
    activeStakes stakes epoch = stakes.filter fun stake =>
      stake.stakeActivationEpoch ∈ Finset.range (epoch + 1) := by
  simp only [activeStakes, Finset.mem_range, Nat.lt_succ_iff]

namespace StakingPool

/-- The pool tokens of a stake. -/
def tokensOf (pool : StakingPool) (stake : StakedSui) : Nat :=
  (pool.rateAt stake.stakeActivationEpoch).tokens stake.principal

/-- What the pool tokens of a stake are worth in an epoch. -/
def share (pool : StakingPool) (epoch : Nat) (stake : StakedSui) : Nat :=
  (pool.rateAt epoch).worth (pool.tokensOf stake)

/-- What a stake lacks of its principal. -/
def deficit (pool : StakingPool) (epoch : Nat) (stake : StakedSui) : Nat :=
  stake.principal - pool.share epoch stake

/-- What a stake is paid at most. -/
def payment (pool : StakingPool) (epoch : Nat) (stake : StakedSui) : Nat :=
  pool.share epoch stake + pool.deficit epoch stake

theorem sum_payment (pool : StakingPool) (epoch : Nat) (stakes : List StakedSui) :
    (stakes.map (pool.payment epoch)).sum =
      (stakes.map (pool.share epoch)).sum + (stakes.map (pool.deficit epoch)).sum :=
  sum_map_add

/-- All that the stakes could be redeemed for when the rate took effect is in the
pool or was paid. -/
structure Backed (pool : StakingPool) (epoch : Nat)
    (stakes withdrawn : List StakedSui) : Prop where
  pending : pool.pendingStake = principalAt stakes (epoch + 1)
  value : (pool.rateAt epoch).worth
        (pool.redeemable stakes epoch + (withdrawn.map pool.tokensOf).sum) +
      pool.pendingTotalSuiWithdraw ≤
    pool.suiBalance + (withdrawn.map (pool.payment epoch)).sum

namespace Backed

variable {pool : StakingPool} {epoch : Nat} {stakes withdrawn : List StakedSui}

section

variable (backed : pool.Backed epoch stakes withdrawn)

include backed

/-- The shares of all stakes, also of those that were withdrawn. -/
theorem sum_share_le :
    ((activeStakes stakes epoch ++ withdrawn).map (pool.share epoch)).sum +
        pool.pendingTotalSuiWithdraw ≤
      pool.suiBalance + (withdrawn.map (pool.payment epoch)).sum := by
  have redeemed := sum_value_le_sum_group StakedSui.stakeActivationEpoch StakedSui.principal
    (fun other => (pool.rateAt other).tokens)
    (fun other => tokens_superadditive _) stakes (Finset.range (epoch + 1))
  rw [← activeStakes_eq] at redeemed
  have parts := (pool.rateAt epoch).sum_worth_le
    ((activeStakes stakes epoch ++ withdrawn).map pool.tokensOf)
  rw [map_map, map_append (f := pool.tokensOf), sum_append] at parts
  have whole := (pool.rateAt epoch).worth_mono (Nat.add_le_add_right redeemed
    (withdrawn.map pool.tokensOf).sum)
  exact (Nat.add_le_add_right (parts.trans whole) _).trans backed.value

/-- A reward is bounded by the rewards and the deficits of the others. -/
theorem reward_le (solvent : pool.Solvent epoch stakes) (listed : stake ∈ stakes)
    (active : stake.stakeActivationEpoch ≤ epoch) :
    pool.share epoch stake - stake.principal ≤ pool.rewardsPool +
      ((activeStakes (stakes.erase stake) epoch ++ withdrawn).map (pool.deficit epoch)).sum := by
  have shares := backed.sum_share_le
  have taken : (activeStakes stakes epoch).Perm
      (stake :: activeStakes (stakes.erase stake) epoch) := by
    have filtered := (perm_cons_erase listed).filter
      fun other => decide (other.stakeActivationEpoch ≤ epoch)
    rwa [filter_cons_of_pos (by simpa using active)] at filtered
  have balance := solvent.balance
  have principals : totalPrincipal stakes =
      (stake.principal + totalPrincipal (activeStakes (stakes.erase stake) epoch)) +
        principalAt stakes (epoch + 1) := by
    rw [totalPrincipal_eq_sum fun other isOther => Nat.lt_succ_of_le (solvent.early other isOther),
      Finset.sum_range_succ]
    unfold principalAt
    rw [← sum_filter_eq_sum_group, ← activeStakes_eq, (taken.map _).sum_eq]
    rfl
  have others : totalPrincipal (activeStakes (stakes.erase stake) epoch) ≤
      ((activeStakes (stakes.erase stake) epoch).map (pool.payment epoch)).sum :=
    sum_le_sum fun other _ => le_add_tsub
  have pending := backed.pending
  rw [map_append, sum_append, (taken.map _).sum_eq, map_cons, sum_cons] at shares
  rw [sum_payment] at shares others
  rw [map_append, sum_append]
  omega

/-- Stakes are regrouped, such that the stake of each epoch stays the same. -/
theorem regroup (same : ∀ other, principalAt stakes' other = principalAt stakes other) :
    pool.Backed epoch stakes' withdrawn := by
  refine ⟨backed.pending.trans (same _).symm, ?_⟩
  rw [redeemable_congr (fun _ _ => rfl) fun other _ => same other]
  exact backed.value

theorem deposit (deposited : pool.depositRewards rewards = .ok after) :
    after.Backed epoch stakes withdrawn := by
  obtain rfl := depositRewards_spec deposited
  refine ⟨backed.pending, backed.value.trans ?_⟩
  exact Nat.add_le_add_right (Nat.le_add_right _ _) _

/-- A new stake keeps the pool backed. -/
theorem addStake (request : pool.requestAddStake stake (epoch + 1) = .ok (stakedSui, after)) :
    after.Backed epoch (stakedSui :: stakes) withdrawn := by
  obtain ⟨_, _, _, rfl, rfl⟩ := requestAddStake_eq_ok.mp request
  constructor
  · have pending := backed.pending
    unfold principalAt at pending ⊢
    rw [groupWeight_cons, if_pos rfl, ← pending]
    exact Nat.add_comm _ _
  · rw [redeemable_cons (Nat.lt_succ_self epoch)]
    exact backed.value

/-- A stake is withdrawn, and counts as such from now on. -/
theorem withdraw (solvent : pool.Solvent epoch stakes) (listed : stake ∈ stakes)
    (active : stake.stakeActivationEpoch ≤ epoch)
    (paid : pool.requestWithdrawStake stake epoch = .ok (amount, after)) :
    after.Backed epoch (stakes.erase stake) (stake :: withdrawn) := by
  have processed : epoch ≤ pool.horizon epoch := by
    unfold horizon
    split <;> omega
  obtain ⟨_, rate, reward, atActivation, ⟨current, now, clamped⟩, rfl, queued⟩ :=
    requestWithdrawStake_spec paid
  rw [solvent.poolTokenExchangeRateAtEpoch_eq (active.trans processed)] at atActivation
  rw [solvent.poolTokenExchangeRateAtEpoch_eq processed] at now
  cases atActivation
  cases now
  have atMost : stake.principal + reward ≤ pool.payment epoch stake := by
    have bound : reward ≤ pool.share epoch stake - stake.principal :=
      clamped.trans_le (min_le_left _ _)
    unfold payment deficit
    omega
  have fewer : (pool.rateAt epoch).worth (pool.redeemable (stakes.erase stake) epoch +
        (pool.tokensOf stake + (withdrawn.map pool.tokensOf).sum)) ≤ (pool.rateAt epoch).worth
        (pool.redeemable stakes epoch + (withdrawn.map pool.tokensOf).sum) := by
    rw [← Nat.add_assoc]
    exact (pool.rateAt epoch).worth_mono
      (Nat.add_le_add_right (redeemable_erase pool listed active) _)
  have value := backed.value
  have pending : pool.pendingStake = principalAt (stakes.erase stake) (epoch + 1) := by
    rw [backed.pending, principalAt, principalAt, groupWeight_erase listed,
      if_neg (show ¬ stake.stakeActivationEpoch = epoch + 1 by omega), Nat.zero_add]
  unfold processIfInactive at queued
  split at queued
  · obtain ⟨enough, _, rfl⟩ := processPendingStakeWithdraw_eq_ok.mp queued
    refine ⟨pending, ?_⟩
    change (pool.rateAt epoch).worth (pool.redeemable (stakes.erase stake) epoch +
        (pool.tokensOf stake + (withdrawn.map pool.tokensOf).sum)) + 0 ≤
      pool.suiBalance - (pool.pendingTotalSuiWithdraw + (stake.principal + reward)) +
        (pool.payment epoch stake + (withdrawn.map (pool.payment epoch)).sum)
    omega
  · cases queued
    refine ⟨pending, ?_⟩
    change (pool.rateAt epoch).worth (pool.redeemable (stakes.erase stake) epoch +
        (pool.tokensOf stake + (withdrawn.map pool.tokensOf).sum)) +
        (pool.pendingTotalSuiWithdraw + (stake.principal + reward)) ≤
      pool.suiBalance + (pool.payment epoch stake + (withdrawn.map (pool.payment epoch)).sum)
    omega

/-- An epoch passes for a pool that was deactivated. -/
theorem tick (solvent : pool.Solvent epoch stakes) {activationEpoch : Nat}
    (activated : pool.activationEpoch = some activationEpoch) (notActive : pool.isActive = false) :
    pool.Backed (epoch + 1) stakes withdrawn := by
  have none : pool.pendingStake = 0 := by
    rw [solvent.pending, notActive, if_neg Bool.false_ne_true]
  have sameRate : pool.rateAt (epoch + 1) = pool.rateAt epoch := by
    obtain ⟨below, reached, _, _⟩ := solvent.recorded activationEpoch activated
    cases deactivated : pool.deactivationEpoch with
    | none =>
      rw [isActive_of_activated activated deactivated] at notActive
      cases notActive
    | some deactivationEpoch =>
      rw [deactivated, Option.getD_some] at below reached
      simp only [rateAt, isPreactiveAtEpoch, activated, deactivated, Option.getD_some,
        min_eq_left reached, min_eq_left (Nat.le_succ_of_le reached),
        Nat.not_lt.mpr (below.trans reached),
        Nat.not_lt.mpr (below.trans (Nat.le_succ_of_le reached))]
  refine ⟨none.trans (principalAt_eq_zero solvent.early (Nat.lt_succ_self _)).symm, ?_⟩
  unfold payment deficit share redeemable
  rw [sameRate, Finset.sum_range_succ, ← backed.pending, none, tokens_zero]
  exact backed.value

end

/-- The pool is deactivated when a rate took effect, which it keeps. -/
theorem deactivate (backed : pool.Backed epoch stakes [])
    (deactivated : pool.deactivateStakingPool epoch = .ok after) :
    after.Backed epoch stakes [] := by
  obtain ⟨running, rfl⟩ := deactivateStakingPool_spec deactivated
  refine ⟨backed.pending, ?_⟩
  rw [redeemable_congr (fun _ => rateAt_deactivated running) fun _ _ => rfl,
    rateAt_deactivated running le_rfl]
  exact backed.value

/-- Settling an epoch keeps the pool backed. -/
theorem settled (solvent : pool.Solvent epoch stakes) (active : pool.isActive = true) :
    (pool.settled epoch).Backed (epoch + 1) stakes [] := by
  have settled := solvent.settled active
  have stillActive : (pool.settled epoch).isActive = true := active
  have pending := settled.pending
  rw [stillActive, if_pos rfl] at pending
  have covered := settled.covered
  rw [horizon, stillActive, if_pos rfl] at covered
  refine ⟨pending, ?_⟩
  rw [solvent.rateAt_settled active]
  refine worth_le covered fun empty => ?_
  have balance := settled.balance
  exact redeemable_eq_zero settled.early (by omega)

/-- A pool is backed when it is activated. -/
theorem activate {activationEpoch : Nat} (solvent : pool.Solvent epoch stakes)
    (early : ∀ stake ∈ stakes, stake.stakeActivationEpoch ≤ activationEpoch)
    (activated : pool.activateStakingPool activationEpoch = .ok after) :
    after.Backed activationEpoch stakes [] := by
  have now := solvent.activate early activated
  obtain ⟨preactive, running, same⟩ := activateStakingPool_spec activated
  obtain ⟨_, even, evenPending, _⟩ := solvent.preactive preactive
  have active : after.isActive = true := by
    rw [same]
    exact isActive_of_activated rfl running
  have initial : after.rateAt activationEpoch = .initial := by
    simp [same, rateAt, isPreactiveAtEpoch, running]
  have pending := now.pending
  rw [active, if_pos rfl] at pending
  have covered := now.covered
  rw [horizon, active, if_pos rfl] at covered
  refine ⟨pending, ?_⟩
  rw [initial, worth_initial, map_nil, map_nil, sum_nil]
  simp only [same] at covered ⊢
  omega

end Backed

end StakingPool

/-- A ledger with the stakes that were withdrawn since the current exchange rate
took effect. -/
structure RateLedger where
  ledger : StakeLedger
  withdrawn : List StakedSui

namespace RateLedger

abbrev pool (state : RateLedger) : StakingPool :=
  state.ledger.validator.stakingPool

/-- Perform an action. -/
def perform (state : RateLedger) (action : StakeLedger.Action) : Option RateLedger :=
  (state.ledger.perform action).map fun next =>
    ⟨next, state.ledger.withdrawnAfter state.withdrawn action⟩

/-- The states of a validator that is created in some epoch. -/
def Reachable (state : RateLedger) : Prop :=
  ∃ epoch validator, StakeLedger.Fresh validator ∧
    Run perform (fun _ _ => True) ⟨⟨epoch, validator, []⟩, []⟩ state

/-- The other stakes that are active, or were withdrawn at the current rate. -/
def others (state : RateLedger) (stake : StakedSui) : List StakedSui :=
  activeStakes (state.ledger.stakes.erase stake) state.ledger.epoch ++ state.withdrawn

/-- The invariant, which is about pools that were activated. -/
def Backed (state : RateLedger) : Prop :=
  state.pool.activationEpoch ≠ none →
    state.pool.Backed state.ledger.epoch state.ledger.stakes state.withdrawn

/-- Every step keeps the pool backed. -/
theorem Backed.step {ledger next : StakeLedger} {withdrawn : List StakedSui}
    (backed : Backed ⟨ledger, withdrawn⟩) (balanced : ledger.Balanced)
    (step : ledger.Step withdrawn next kept) :
    Backed ⟨next, kept⟩ := by
  intro activated
  induction step with
  | addPreactive preactive _ added processed =>
    have same := (requestAddStake added).trans (.processPendingStake processed)
    exact absurd (same.activationEpoch.trans preactive) activated
  | addActive _ added =>
    have same := requestAddStake added
    exact (backed (same.activationEpoch ▸ activated)).addStake added
  | withdraw listed active paid _ =>
    have same := requestWithdrawStake paid
    exact (backed (same.activationEpoch ▸ activated)).withdraw balanced.solvent listed active paid
  | regroup _ same => exact (backed activated).regroup same
  | deposit active added =>
    obtain ⟨⟨_, isActivated⟩, _⟩ := activated_of_isActive active
    exact (backed (isActivated ▸ Option.some_ne_none _)).deposit added
  | activate early started => exact .activate balanced.solvent early started
  | settle active => exact .settled balanced.solvent active
  | tick notActive =>
    change ledger.validator.stakingPool.activationEpoch ≠ none at activated
    obtain ⟨epoch, isActivated⟩ := Option.ne_none_iff_exists'.mp activated
    have inactive : ledger.validator.stakingPool.isInactive = true := by
      simpa [isActive, isPreactive, isActivated] using notActive
    rw [if_pos inactive]
    exact (backed activated).tick balanced.solvent isActivated notActive
  | remove preactive removed =>
    obtain ⟨_, rfl⟩ := deactivateStakingPool_spec removed
    exact absurd preactive activated
  | leave _ _ left ih =>
    refine (ih ?_).deactivate left
    obtain ⟨_, rfl⟩ := deactivateStakingPool_spec left
    exact activated

/-- The pool is backed in every reachable ledger. -/
theorem Reachable.backed {state : RateLedger} (reachable : state.Reachable) :
    state.ledger.Balanced ∧ state.Backed := by
  obtain ⟨epoch, validator, isFresh, run⟩ := reachable
  refine run.invariant (fun state => state.ledger.Balanced ∧ state.Backed)
    ⟨.fresh isFresh epoch, fun activated => ?_⟩ ?_
  · rw [pool, isFresh.pool] at activated
    exact absurd rfl activated
  · rintro state action next ⟨balanced, backed⟩ _ performed
    obtain ⟨ledger, isNext, rfl⟩ := Option.map_eq_some_iff.mp performed
    exact ⟨balanced.perform isNext, backed.step balanced
      (StakeLedger.step_of_perform balanced.solvent.early _ isNext)⟩

/-- What a reward exceeds the rewards pool by is at most what other stakes lack. -/
theorem Reachable.reward_le {state : RateLedger} (reachable : state.Reachable)
    (listed : stake ∈ state.ledger.stakes)
    (active : stake.stakeActivationEpoch ≤ state.ledger.epoch) :
    let pool := state.pool
    pool.share state.ledger.epoch stake - stake.principal ≤ pool.rewardsPool +
      ((state.others stake).map (pool.deficit state.ledger.epoch)).sum := by
  obtain ⟨balanced, backed⟩ := reachable.backed
  by_cases preactive : state.pool.activationEpoch = none
  · dsimp only
    rw [share, tokensOf, rateAt_of_preactive preactive,
      rateAt_of_preactive preactive, tokens_initial,
      worth_initial, Nat.sub_self]
    exact Nat.zero_le _
  · exact (backed preactive).reward_le balanced.solvent listed active

/-- A reward is cut by at most what the other stakes lack of their principals.  It
is not cut if they lack nothing. -/
theorem reward_cut_le (state : RateLedger) (reachable : state.Reachable) (stake : StakedSui)
    (listed : stake ∈ state.ledger.stakes)
    (active : stake.stakeActivationEpoch ≤ state.ledger.epoch)
    (poolTokens principal reward : Nat) (after : StakingPool)
    (redeemed : state.pool.withdrawFromPrincipal stake = .ok (poolTokens, principal))
    (withdrawn : state.pool.withdrawRewards principal poolTokens state.ledger.epoch =
      .ok (reward, after)) :
    reward = min (state.pool.share state.ledger.epoch stake - stake.principal)
      state.pool.rewardsPool ∧
    state.pool.share state.ledger.epoch stake - stake.principal - reward ≤
      ((state.others stake).map (state.pool.deficit state.ledger.epoch)).sum ∧
    ((∀ other ∈ state.others stake, state.pool.deficit state.ledger.epoch other = 0) →
      reward = state.pool.share state.ledger.epoch stake - stake.principal) := by
  have solvent := reachable.backed.1.solvent
  have bound := reachable.reward_le listed active
  have processed : state.ledger.epoch ≤ state.pool.horizon state.ledger.epoch := by
    unfold horizon
    split <;> omega
  obtain ⟨_, rfl, rate, atActivation, rfl⟩ := withdrawFromPrincipal_spec redeemed
  obtain ⟨⟨current, now, clamped⟩, _⟩ := withdrawRewards_spec withdrawn
  rw [solvent.poolTokenExchangeRateAtEpoch_eq (active.trans processed)] at atActivation
  rw [solvent.poolTokenExchangeRateAtEpoch_eq processed] at now
  cases atActivation
  cases now
  change reward = min (state.pool.share state.ledger.epoch stake - stake.principal) _ at clamped
  refine ⟨clamped, by omega, fun none => ?_⟩
  have noDeficit : ((state.others stake).map (state.pool.deficit state.ledger.epoch)).sum = 0 := by
    refine sum_eq_zero fun lacking isLacking => ?_
    obtain ⟨other, isOther, rfl⟩ := mem_map.mp isLacking
    exact none other isOther
  omega

/-- The tokens of a second stake are rounded down, which it gets back from the
rewards of the first one. -/
theorem reward_cut_le_two :
    ∃ (state : RateLedger) (stake : StakedSui) (reward : Nat), state.Reachable ∧
      let pool := state.pool
      reward + 1 = pool.share state.ledger.epoch stake - stake.principal ∧
      1 ≤ ((state.others stake).map (pool.deficit state.ledger.epoch)).sum := by
  obtain ⟨state, run, listed, active, redeemed, paid, cut⟩ := exists_run perform
    (fun _ _ => True) ⟨⟨0, StakeLedger.anonymous, []⟩, []⟩
    [.addStakeAtGenesis 1000000000, .activateAtGenesis, .depositRewards 2000000017,
      .advance false false, .addStake 1000000000, .advance false false,
      .withdrawStake ⟨0, 2, 1000000000⟩]
    (fun state => ⟨0, 0, 1000000000⟩ ∈ state.ledger.stakes ∧ 0 ≤ state.ledger.epoch ∧
      state.pool.withdrawFromPrincipal ⟨0, 0, 1000000000⟩ = .ok (1000000000, 1000000000) ∧
      ((state.pool.withdrawRewards 1000000000 1000000000
        state.ledger.epoch).toOption.map Prod.fst) = some 2000000017 ∧
      state.pool.share state.ledger.epoch ⟨0, 0, 1000000000⟩ = 3000000018) (by decide +kernel)
  have reachable : state.Reachable := ⟨0, StakeLedger.anonymous, ⟨rfl, rfl⟩, run⟩
  obtain ⟨⟨reward, after⟩, withdrawn, isReward⟩ := Option.map_eq_some_iff.mp paid
  obtain ⟨_, bound, _⟩ := reward_cut_le state reachable ⟨0, 0, 1000000000⟩ listed active _ _ _ _
    redeemed (toOption_eq_some.mp withdrawn)
  refine ⟨state, ⟨0, 0, 1000000000⟩, reward, reachable, ?_, ?_⟩
  · dsimp only at isReward ⊢
    omega
  · dsimp only at isReward bound ⊢
    omega

end RateLedger

end Sui.System
