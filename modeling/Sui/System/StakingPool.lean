import Sui.System.Move

/-!
# Staking pools

A staking pool holds the stake of one validator.  Stakers keep their principal in
their own objects, and the pool keeps the rewards.  Pool tokens measure the shares
of the stakers: they are issued for all stake of an epoch together, at the
exchange rate at its end, and redeemed for each stake on its own, at the exchange
rate that was recorded for the epoch in which the stake became active.

Deposits and withdrawals of an epoch are processed at its end.  A pool is
pre-active until its validator joins the active ones, and inactive after the
validator has left.

Epochs are natural numbers.
-/

namespace Sui.System

open Library
open Std (ExtTreeMap)

/-- The value of the pool tokens at the beginning of an epoch. -/
structure PoolTokenExchangeRate where
  suiAmount : Nat
  poolTokenAmount : Nat
  deriving DecidableEq

/-- The pool of one validator. -/
structure StakingPool where
  id : ID
  activationEpoch : Option Nat
  deactivationEpoch : Option Nat
  /-- The SUI of the pool at the beginning of the epoch, with all principals. -/
  suiBalance : Nat
  rewardsPool : Nat
  poolTokenBalance : Nat
  exchangeRates : ExtTreeMap Nat PoolTokenExchangeRate
  pendingStake : Nat
  /-- The SUI that was withdrawn in this epoch, principals and rewards. -/
  pendingTotalSuiWithdraw : Nat
  pendingPoolTokenWithdraw : Nat

/-- The stake of a staker. -/
structure StakedSui where
  poolId : ID
  stakeActivationEpoch : Nat
  principal : Nat
  deriving DecidableEq

/-- The least amount that a stake can be split into. -/
def minStakingThreshold : Nat :=
  1000000000

namespace PoolTokenExchangeRate

/-- The rate of a pool without stake, one to one. -/
def initial : PoolTokenExchangeRate :=
  ⟨0, 0⟩

/-- The SUI that pool tokens are worth.  If one side is empty there is no stake,
and what is on the other side is dust. -/
def getSuiAmount (rate : PoolTokenExchangeRate) (tokenAmount : Nat) :
    Program Nat :=
  if rate.suiAmount = 0 ∨ rate.poolTokenAmount = 0 then
    pure tokenAmount
  else
    U64.cast (rate.suiAmount * tokenAmount / rate.poolTokenAmount)

/-- The pool tokens that SUI is worth. -/
def getTokenAmount (rate : PoolTokenExchangeRate) (suiAmount : Nat) :
    Program Nat :=
  if rate.suiAmount = 0 ∨ rate.poolTokenAmount = 0 then
    pure suiAmount
  else
    U64.cast (rate.poolTokenAmount * suiAmount / rate.suiAmount)

end PoolTokenExchangeRate

namespace StakedSui

/-- Split off a part of a stake, which is returned second. -/
def split (stake : StakedSui) (splitAmount : Nat) :
    Program (StakedSui × StakedSui) := do
  require (splitAmount ≤ stake.principal) (Abort.stakingPool 3)
  let remainingAmount := stake.principal - splitAmount
  require (minStakingThreshold ≤ remainingAmount) (Abort.stakingPool 18)
  require (minStakingThreshold ≤ splitAmount) (Abort.stakingPool 18)
  pure ({ stake with principal := remainingAmount },
    { stake with principal := splitAmount })

/-- Whether two stakes differ in their principals only. -/
def isEqualStakingMetadata (left right : StakedSui) : Bool :=
  left.poolId == right.poolId &&
    left.stakeActivationEpoch == right.stakeActivationEpoch

/-- Join two stakes. -/
def joinStakedSui (left right : StakedSui) : Program StakedSui := do
  require (left.isEqualStakingMetadata right = true) (Abort.stakingPool 12)
  let principal ← U64.add left.principal right.principal
  pure { left with principal := principal }

end StakedSui

namespace StakingPool

/-- A new, empty pool. -/
def new (id : ID) : StakingPool where
  id := id
  activationEpoch := none
  deactivationEpoch := none
  suiBalance := 0
  rewardsPool := 0
  poolTokenBalance := 0
  exchangeRates := ∅
  pendingStake := 0
  pendingTotalSuiWithdraw := 0
  pendingPoolTokenWithdraw := 0

/-- Whether the pool was never active. -/
def isPreactive (pool : StakingPool) : Bool :=
  pool.activationEpoch.isNone

/-- Whether the pool is no longer active. -/
def isInactive (pool : StakingPool) : Bool :=
  pool.deactivationEpoch.isSome

/-! ## Exchange rates -/

/-- Whether the pool was not active yet in an epoch. -/
def isPreactiveAtEpoch (pool : StakingPool) (epoch : Nat) : Bool :=
  match pool.activationEpoch with
  | none => true
  | some activationEpoch => epoch < activationEpoch

/-- The latest rate from an epoch down to the activation. -/
def findRate (exchangeRates : ExtTreeMap Nat PoolTokenExchangeRate) (activationEpoch : Nat) :
    Nat → Program PoolTokenExchangeRate
  | 0 =>
    if activationEpoch ≤ 0 then
      match exchangeRates[0]? with
      | some rate => pure rate
      | none => .error .arithmetic
    else
      pure .initial
  | epoch + 1 =>
    if activationEpoch ≤ epoch + 1 then
      match exchangeRates[epoch + 1]? with
      | some rate => pure rate
      | none => findRate exchangeRates activationEpoch epoch
    else
      pure .initial

def poolTokenExchangeRateAtEpoch (pool : StakingPool) (epoch : Nat) :
    Program PoolTokenExchangeRate :=
  if pool.isPreactiveAtEpoch epoch then
    pure .initial
  else
    match pool.activationEpoch with
    | none => .error .indexOutOfBounds
    | some activationEpoch =>
      findRate pool.exchangeRates activationEpoch
        (min (pool.deactivationEpoch.getD epoch) epoch)

/-! ## Requests of stakers -/

/-- Add stake, which becomes active in an epoch. -/
def requestAddStake (pool : StakingPool)
    (stake stakeActivationEpoch : Nat) : Program (StakedSui × StakingPool) := do
  require (pool.isInactive = false) (Abort.stakingPool 10)
  require (0 < stake) (Abort.stakingPool 17)
  let pendingStake ← U64.add pool.pendingStake stake
  pure (⟨pool.id, stakeActivationEpoch, stake⟩,
    { pool with pendingStake := pendingStake })

/-- Redeem the pool tokens of a stake at the rate of its activation. -/
def withdrawFromPrincipal (pool : StakingPool) (stakedSui : StakedSui) :
    Program (Nat × Nat) := do
  require (stakedSui.poolId = pool.id) (Abort.stakingPool 1)
  let rate ← pool.poolTokenExchangeRateAtEpoch stakedSui.stakeActivationEpoch
  let poolTokenWithdrawAmount ← rate.getTokenAmount stakedSui.principal
  pure (poolTokenWithdrawAmount, stakedSui.principal)

/-- Take the rewards of redeemed pool tokens out of the rewards pool. -/
def withdrawRewards (pool : StakingPool)
    (principalWithdrawAmount poolTokenWithdrawAmount epoch : Nat) :
    Program (Nat × StakingPool) := do
  let rate ← pool.poolTokenExchangeRateAtEpoch epoch
  let totalSuiWithdrawAmount ← rate.getSuiAmount poolTokenWithdrawAmount
  let rewardWithdrawAmount :=
    min (totalSuiWithdrawAmount - principalWithdrawAmount) pool.rewardsPool
  let rewardsPool ← splitBalance pool.rewardsPool rewardWithdrawAmount
  pure (rewardWithdrawAmount, { pool with rewardsPool := rewardsPool })

/-- Take the withdrawals out of the balances. -/
def processPendingStakeWithdraw (pool : StakingPool) : Program StakingPool := do
  let suiBalance ← U64.sub pool.suiBalance pool.pendingTotalSuiWithdraw
  let poolTokenBalance ←
    U64.sub pool.poolTokenBalance pool.pendingPoolTokenWithdraw
  pure { pool with
    suiBalance := suiBalance
    poolTokenBalance := poolTokenBalance
    pendingTotalSuiWithdraw := 0
    pendingPoolTokenWithdraw := 0 }

/-- An inactive pool processes withdrawals at once. -/
def processIfInactive (pool : StakingPool) : Program StakingPool :=
  if pool.isInactive then pool.processPendingStakeWithdraw else pure pool

/-- Withdraw a stake with its rewards.  The withdrawal is processed at the end of
the epoch, or at once if the pool is inactive. -/
def requestWithdrawStake (pool : StakingPool) (stakedSui : StakedSui)
    (epoch : Nat) : Program (Nat × StakingPool) := do
  let (poolTokenWithdrawAmount, principalWithdrawAmount) ←
    pool.withdrawFromPrincipal stakedSui
  let (rewardsWithdraw, pool) ← pool.withdrawRewards principalWithdrawAmount
    poolTokenWithdrawAmount epoch
  let totalSuiWithdrawAmount ← U64.add principalWithdrawAmount rewardsWithdraw
  let pendingTotalSuiWithdraw ←
    U64.add pool.pendingTotalSuiWithdraw totalSuiWithdrawAmount
  let pendingPoolTokenWithdraw ←
    U64.add pool.pendingPoolTokenWithdraw poolTokenWithdrawAmount
  let pool ← processIfInactive
    { pool with
      pendingTotalSuiWithdraw := pendingTotalSuiWithdraw
      pendingPoolTokenWithdraw := pendingPoolTokenWithdraw }
  pure (totalSuiWithdrawAmount, pool)

/-! ## Epoch boundaries -/

/-- Add rewards. -/
def depositRewards (pool : StakingPool) (rewards : Nat) :
    Program StakingPool := do
  let suiBalance ← U64.add pool.suiBalance rewards
  let rewardsPool ← U64.add pool.rewardsPool rewards
  pure { pool with suiBalance := suiBalance, rewardsPool := rewardsPool }

/-- Add the pending stake to the balances, at the current rate. -/
def processPendingStake (pool : StakingPool) : Program StakingPool := do
  let latestExchangeRate : PoolTokenExchangeRate :=
    ⟨pool.suiBalance, pool.poolTokenBalance⟩
  let suiBalance ← U64.add pool.suiBalance pool.pendingStake
  let poolTokenBalance ← latestExchangeRate.getTokenAmount suiBalance
  pure { pool with
    suiBalance := suiBalance
    poolTokenBalance := poolTokenBalance
    pendingStake := 0 }

/-- A pre-active pool processes stake at once. -/
def processIfPreactive (pool : StakingPool) : Program StakingPool :=
  if pool.isPreactive then pool.processPendingStake else pure pool

/-- The balances have the recorded ratio. -/
def checkBalanceInvariants (pool : StakingPool) (epoch : Nat) :
    Program Unit := do
  let rate ← pool.poolTokenExchangeRateAtEpoch epoch
  let expected ← rate.getTokenAmount pool.suiBalance
  require (expected = pool.poolTokenBalance) (Abort.stakingPool 9)

/-- Process the withdrawals and then the stake of an epoch, and record the rate
of the next one. -/
def processPendingStakesAndWithdraws (pool : StakingPool) (epoch : Nat) :
    Program StakingPool := do
  let pool ← pool.processPendingStakeWithdraw
  let pool ← pool.processPendingStake
  let exchangeRates ← Table.add pool.exchangeRates (epoch + 1)
    ⟨pool.suiBalance, pool.poolTokenBalance⟩
  let pool := { pool with exchangeRates := exchangeRates }
  pool.checkBalanceInvariants (epoch + 1)
  pure pool

def activateStakingPool (pool : StakingPool) (activationEpoch : Nat) :
    Program StakingPool := do
  let exchangeRates ← Table.add pool.exchangeRates activationEpoch .initial
  require (pool.isPreactive = true) (Abort.stakingPool 14)
  require (pool.isInactive = false) (Abort.stakingPool 16)
  pure { pool with
    exchangeRates := exchangeRates
    activationEpoch := some activationEpoch }

def deactivateStakingPool (pool : StakingPool) (deactivationEpoch : Nat) :
    Program StakingPool := do
  require (pool.isInactive = false) (Abort.stakingPool 11)
  pure { pool with deactivationEpoch := some deactivationEpoch }

end StakingPool

/-! ## Exchange rates as natural numbers -/

namespace PoolTokenExchangeRate

/-- The pool tokens that SUI is worth, which may not fit in an integer. -/
def tokens (rate : PoolTokenExchangeRate) (suiAmount : Nat) : Nat :=
  if rate.suiAmount = 0 ∨ rate.poolTokenAmount = 0 then
    suiAmount
  else
    rate.poolTokenAmount * suiAmount / rate.suiAmount

variable {rate : PoolTokenExchangeRate}

theorem getTokenAmount_eq_ok {suiAmount tokenAmount : Nat} (fits : suiAmount < 2 ^ 64) :
    rate.getTokenAmount suiAmount = .ok tokenAmount ↔
      rate.tokens suiAmount < 2 ^ 64 ∧ rate.tokens suiAmount = tokenAmount := by
  unfold getTokenAmount tokens
  split
  · simp only [pure_eq_ok, fits, true_and]
  · simp only [U64.cast_eq_ok]

theorem tokens_of_getTokenAmount {suiAmount tokenAmount : Nat}
    (redeemed : rate.getTokenAmount suiAmount = .ok tokenAmount) :
    tokenAmount = rate.tokens suiAmount := by
  unfold getTokenAmount at redeemed
  unfold tokens
  split_ifs at redeemed ⊢
  · exact (pure_eq_ok.mp redeemed).symm
  · exact (U64.cast_eq_ok.mp redeemed).2.symm

/-- The SUI that pool tokens are worth, which may not fit in an integer. -/
def worth (rate : PoolTokenExchangeRate) (tokenAmount : Nat) : Nat :=
  if rate.suiAmount = 0 ∨ rate.poolTokenAmount = 0 then
    tokenAmount
  else
    rate.suiAmount * tokenAmount / rate.poolTokenAmount

theorem worth_of_getSuiAmount {tokenAmount suiAmount : Nat}
    (redeemed : rate.getSuiAmount tokenAmount = .ok suiAmount) :
    suiAmount = rate.worth tokenAmount := by
  unfold getSuiAmount at redeemed
  unfold worth
  split_ifs at redeemed ⊢
  · exact (pure_eq_ok.mp redeemed).symm
  · exact (U64.cast_eq_ok.mp redeemed).2.symm

@[simp] theorem tokens_zero (rate : PoolTokenExchangeRate) : rate.tokens 0 = 0 := by
  simp [tokens]

@[simp] theorem tokens_initial (suiAmount : Nat) : initial.tokens suiAmount = suiAmount := by
  simp [tokens, initial]

/-- Two stakes are worth at most what they are worth together. -/
theorem tokens_superadditive (rate : PoolTokenExchangeRate) (left right : Nat) :
    rate.tokens left + rate.tokens right ≤ rate.tokens (left + right) := by
  unfold tokens
  split
  · exact le_rfl
  · rw [Nat.mul_add]
    exact Nat.div_add_div_le_add_div

/-- At a rate of one to one, SUI is worth as many tokens. -/
theorem tokens_of_even (amount suiAmount : Nat) :
    tokens ⟨amount, amount⟩ suiAmount = suiAmount := by
  unfold tokens
  split
  · rfl
  · next positive =>
    rw [not_or] at positive
    exact Nat.mul_div_cancel_left _ (Nat.pos_of_ne_zero positive.1)

/-- When tokens are issued for pending stake, they cover what all of the pending
stake can redeem at the new rate, besides what could be redeemed before. -/
theorem tokens_issued (covered : redeemable ≤ poolTokens) (empty : sui = 0 → redeemable = 0) :
    redeemable + tokens
        ⟨sui + pending, tokens ⟨sui, poolTokens⟩ (sui + pending)⟩ pending ≤
      tokens ⟨sui, poolTokens⟩ (sui + pending) := by
  rcases Nat.eq_zero_or_pos sui with rfl | suiPositive
  · have issued : tokens ⟨0, poolTokens⟩ (0 + pending) = 0 + pending := by
      simp [tokens]
    rw [issued, empty rfl, tokens_of_even]
  rcases Nat.eq_zero_or_pos poolTokens with rfl | tokensPositive
  · have issued : tokens ⟨sui, 0⟩ (sui + pending) = sui + pending := by
      simp [tokens]
    rw [issued, tokens_of_even]
    omega
  have issued : tokens ⟨sui, poolTokens⟩ (sui + pending) = poolTokens * (sui + pending) / sui := by
    simp [tokens, suiPositive.ne', tokensPositive.ne']
  rw [issued]
  set total := poolTokens * (sui + pending) / sui with totalDefinition
  -- The issued tokens are less than one token short of the exact share.
  have nearly : poolTokens * (sui + pending) < (total + 1) * sui :=
    Nat.lt_mul_of_div_lt (Nat.lt_succ_self _) suiPositive
  have atLeast : poolTokens ≤ total := by
    rw [totalDefinition, Nat.le_div_iff_mul_le suiPositive]
    exact Nat.mul_le_mul_left _ (Nat.le_add_right _ _)
  have redeemed : tokens ⟨sui + pending, total⟩ pending = total * pending / (sui + pending) := by
    have totalPositive : total ≠ 0 := by omega
    simp [tokens, suiPositive.ne', totalPositive]
  have share : total * pending / (sui + pending) ≤ total - poolTokens := by
    rw [← Nat.lt_succ_iff, Nat.div_lt_iff_lt_mul (by omega)]
    obtain ⟨extra, same⟩ := Nat.exists_eq_add_of_le atLeast
    rw [same] at nearly ⊢
    rw [Nat.add_sub_cancel_left]
    nlinarith
  omega

/-- After tokens are issued, the balances have the new rate. -/
theorem tokens_self (below : sui ≤ total) :
    tokens ⟨total, tokens ⟨sui, poolTokens⟩ total⟩ total = tokens ⟨sui, poolTokens⟩ total := by
  by_cases trivial : sui = 0 ∨ poolTokens = 0
  · have issued : tokens ⟨sui, poolTokens⟩ total = total := by
      simp only [tokens, if_pos trivial]
    rw [issued, tokens_of_even]
  · have positive := not_or.mp trivial
    have issued : tokens ⟨sui, poolTokens⟩ total = poolTokens * total / sui := by
      simp only [tokens, if_neg trivial]
    have atLeast : poolTokens ≤ poolTokens * total / sui := by
      rw [Nat.le_div_iff_mul_le (Nat.pos_of_ne_zero positive.1)]
      exact Nat.mul_le_mul_left _ below
    rw [issued]
    have totalPositive : total ≠ 0 := by omega
    have issuedPositive : poolTokens * total / sui ≠ 0 := by omega
    simp only [tokens, totalPositive, issuedPositive, or_self, if_false]
    exact Nat.mul_div_cancel _ (Nat.pos_of_ne_zero totalPositive)

end PoolTokenExchangeRate

namespace StakingPool

/-- The exchange rate in an epoch, if all rates are recorded. -/
def rateAt (pool : StakingPool) (epoch : Nat) : PoolTokenExchangeRate :=
  if pool.isPreactiveAtEpoch epoch then
    .initial
  else
    pool.exchangeRates[min (pool.deactivationEpoch.getD epoch) epoch]?.getD
      .initial

theorem findRate_of_recorded {exchangeRates : ExtTreeMap Nat PoolTokenExchangeRate}
    {activationEpoch epoch : Nat} (activated : activationEpoch ≤ epoch)
    (recorded : exchangeRates[epoch]? = some rate) :
    findRate exchangeRates activationEpoch epoch = .ok rate := by
  cases epoch with
  | zero | succ =>
    rw [findRate, if_pos activated, recorded]
    rfl

variable {pool after : StakingPool}

/-- The rate of an epoch is the recorded one. -/
theorem poolTokenExchangeRateAtEpoch_eq
    (recorded : ∀ activationEpoch, pool.activationEpoch = some activationEpoch →
      activationEpoch ≤ epoch → activationEpoch ≤ min (pool.deactivationEpoch.getD epoch) epoch ∧
          pool.exchangeRates[min (pool.deactivationEpoch.getD epoch) epoch]?.isSome = true) :
    pool.poolTokenExchangeRateAtEpoch epoch = .ok (pool.rateAt epoch) := by
  unfold poolTokenExchangeRateAtEpoch rateAt
  split
  · rfl
  · next isActive =>
    cases activated : pool.activationEpoch with
    | none => simp [isPreactiveAtEpoch, activated] at isActive
    | some activationEpoch =>
      have reached : activationEpoch ≤ epoch := by
        simpa [isPreactiveAtEpoch, activated] using isActive
      obtain ⟨below, isRecorded⟩ := recorded activationEpoch activated reached
      obtain ⟨rate, found⟩ := Option.isSome_iff_exists.mp isRecorded
      dsimp only
      rw [findRate_of_recorded below found, found]
      rfl

/-! ## What the operations change -/

/-- When the pending withdrawals can be processed. -/
theorem processPendingStakeWithdraw_eq_ok :
    pool.processPendingStakeWithdraw = .ok after ↔ pool.pendingTotalSuiWithdraw ≤ pool.suiBalance ∧
      pool.pendingPoolTokenWithdraw ≤ pool.poolTokenBalance ∧
      { pool with
        suiBalance := pool.suiBalance - pool.pendingTotalSuiWithdraw
        poolTokenBalance :=
          pool.poolTokenBalance - pool.pendingPoolTokenWithdraw
        pendingTotalSuiWithdraw := 0
        pendingPoolTokenWithdraw := 0 } = after := by
  simp [processPendingStakeWithdraw, and_assoc]

/-- When the pending stake can be processed. -/
theorem processPendingStake_eq_ok :
    pool.processPendingStake = .ok after ↔ pool.suiBalance + pool.pendingStake < 2 ^ 64 ∧
      PoolTokenExchangeRate.tokens ⟨pool.suiBalance, pool.poolTokenBalance⟩
        (pool.suiBalance + pool.pendingStake) < 2 ^ 64 ∧
      { pool with
        suiBalance := pool.suiBalance + pool.pendingStake
        poolTokenBalance :=
          PoolTokenExchangeRate.tokens ⟨pool.suiBalance, pool.poolTokenBalance⟩
            (pool.suiBalance + pool.pendingStake)
        pendingStake := 0 } = after := by
  unfold processPendingStake
  simp only [bind_eq_ok, U64.add_eq_ok, pure_eq_ok]
  constructor
  · rintro ⟨_, ⟨fits, rfl⟩, _, redeemed, rfl⟩
    obtain ⟨tokensFit, rfl⟩ := (PoolTokenExchangeRate.getTokenAmount_eq_ok fits).mp redeemed
    exact ⟨fits, tokensFit, rfl⟩
  · rintro ⟨fits, tokensFit, rfl⟩
    exact ⟨_, ⟨fits, rfl⟩, _,
      (PoolTokenExchangeRate.getTokenAmount_eq_ok fits).mpr ⟨tokensFit, rfl⟩, rfl⟩

/-- The pool after a withdrawal is queued. -/
def queueWithdraw (pool : StakingPool) (principal reward poolTokens : Nat) : StakingPool :=
  { pool with
    rewardsPool := pool.rewardsPool - reward
    pendingTotalSuiWithdraw := pool.pendingTotalSuiWithdraw + (principal + reward)
    pendingPoolTokenWithdraw := pool.pendingPoolTokenWithdraw + poolTokens }

variable {stakedSui : StakedSui}

/-- What a withdrawal takes from the principal. -/
theorem withdrawFromPrincipal_spec
    (withdrawn : pool.withdrawFromPrincipal stakedSui = .ok (poolTokens, principal)) :
    stakedSui.poolId = pool.id ∧ principal = stakedSui.principal ∧
      ∃ rate, pool.poolTokenExchangeRateAtEpoch stakedSui.stakeActivationEpoch = .ok rate ∧
        poolTokens = rate.tokens stakedSui.principal := by
  unfold withdrawFromPrincipal at withdrawn
  simp only [bind_eq_ok, require_eq_ok, pure_eq_ok, Prod.mk.injEq] at withdrawn
  obtain ⟨_, samePool, rate, found, _, redeemed, rfl, rfl⟩ := withdrawn
  exact ⟨samePool, rfl, rate, found, PoolTokenExchangeRate.tokens_of_getTokenAmount redeemed⟩

/-- The reward is the gain, as far as the rewards suffice. -/
theorem withdrawRewards_spec
    (withdrawn : pool.withdrawRewards principal poolTokens epoch = .ok (reward, after)) :
    (∃ rate, pool.poolTokenExchangeRateAtEpoch epoch = .ok rate ∧
      reward = min (rate.worth poolTokens - principal) pool.rewardsPool) ∧
      after = { pool with rewardsPool := pool.rewardsPool - reward } := by
  unfold withdrawRewards at withdrawn
  simp only [bind_eq_ok, splitBalance_eq_ok, pure_eq_ok, Prod.mk.injEq] at withdrawn
  obtain ⟨rate, found, _, redeemed, _, ⟨_, rfl⟩, rfl, rfl⟩ := withdrawn
  rw [PoolTokenExchangeRate.worth_of_getSuiAmount redeemed]
  exact ⟨⟨rate, found, rfl⟩, rfl⟩

/-- A withdrawal redeems the tokens of the principal at the rate of its activation.
It pays the principal and what these tokens are worth beyond it now, but at most
the rewards pool. -/
theorem requestWithdrawStake_spec
    (withdrawn : pool.requestWithdrawStake stakedSui epoch = .ok (amount, after)) :
    stakedSui.poolId = pool.id ∧
    ∃ rate reward, pool.poolTokenExchangeRateAtEpoch stakedSui.stakeActivationEpoch = .ok rate ∧
      (∃ current, pool.poolTokenExchangeRateAtEpoch epoch = .ok current ∧
        reward = min (current.worth (rate.tokens stakedSui.principal) -
          stakedSui.principal) pool.rewardsPool) ∧
      amount = stakedSui.principal + reward ∧
      (pool.queueWithdraw stakedSui.principal reward
        (rate.tokens stakedSui.principal)).processIfInactive = .ok after := by
  unfold requestWithdrawStake at withdrawn
  simp only [bind_eq_ok, U64.add_eq_ok, pure_eq_ok, Prod.exists, Prod.mk.injEq] at withdrawn
  obtain ⟨_, _, redeemed, reward, _, paid, _, ⟨_, rfl⟩, _, ⟨_, rfl⟩, _, ⟨_, rfl⟩,
    _, processed, rfl, rfl⟩ := withdrawn
  obtain ⟨samePool, rfl, rate, found, rfl⟩ := withdrawFromPrincipal_spec redeemed
  obtain ⟨clamped, rfl⟩ := withdrawRewards_spec paid
  exact ⟨samePool, rate, reward, found, clamped, rfl, processed⟩

theorem requestAddStake_eq_ok :
    pool.requestAddStake stake stakeActivationEpoch = .ok (stakedSui, after) ↔
      pool.isInactive = false ∧ 0 < stake ∧
      pool.pendingStake + stake < 2 ^ 64 ∧
      ⟨pool.id, stakeActivationEpoch, stake⟩ = stakedSui ∧
      { pool with pendingStake := pool.pendingStake + stake } = after := by
  simp [requestAddStake, and_assoc]

theorem depositRewards_spec (deposited : pool.depositRewards rewards = .ok after) :
    after =
      { pool with
        suiBalance := pool.suiBalance + rewards
        rewardsPool := pool.rewardsPool + rewards } := by
  simp only [depositRewards, bind_eq_ok, U64.add_eq_ok, pure_eq_ok] at deposited
  obtain ⟨_, ⟨_, rfl⟩, _, ⟨_, rfl⟩, rfl⟩ := deposited
  rfl

/-- An activation sets the activation epoch and the first rate. -/
theorem activateStakingPool_spec {activationEpoch : Nat}
    (activated : pool.activateStakingPool activationEpoch = .ok after) :
    pool.activationEpoch = none ∧ pool.deactivationEpoch = none ∧ after =
        { pool with
          exchangeRates := pool.exchangeRates.insert activationEpoch .initial
          activationEpoch := some activationEpoch } := by
  simp only [activateStakingPool, isPreactive, isInactive, bind_eq_ok,
    Table.add_eq_ok, require_eq_ok, pure_eq_ok,
    Option.isNone_iff_eq_none, Option.isSome_eq_false_iff] at activated
  obtain ⟨_, ⟨_, rfl⟩, _, preactive, _, notInactive, rfl⟩ := activated
  exact ⟨preactive, notInactive, rfl⟩

/-- A deactivation sets the deactivation epoch. -/
theorem deactivateStakingPool_spec {deactivationEpoch : Nat}
    (deactivated : pool.deactivateStakingPool deactivationEpoch = .ok after) :
    pool.deactivationEpoch = none ∧
      after = { pool with deactivationEpoch := some deactivationEpoch } := by
  simp only [deactivateStakingPool, isInactive, bind_eq_ok, require_eq_ok, pure_eq_ok,
    Option.isSome_eq_false_iff, Option.isNone_iff_eq_none] at deactivated
  obtain ⟨_, notInactive, rfl⟩ := deactivated
  exact ⟨notInactive, rfl⟩

end StakingPool

namespace StakedSui

/-- A split divides the principal. -/
theorem split_spec {stake rest part : StakedSui}
    (divided : stake.split splitAmount = .ok (rest, part)) :
    splitAmount ≤ stake.principal ∧
      rest = { stake with principal := stake.principal - splitAmount } ∧
      part = { stake with principal := splitAmount } := by
  simp only [split, bind_eq_ok, require_eq_ok, pure_eq_ok, Prod.mk.injEq] at divided
  obtain ⟨_, enough, _, _, _, _, rfl, rfl⟩ := divided
  exact ⟨enough, rfl, rfl⟩

/-- A join needs the same pool and activation epoch and adds the principals. -/
theorem joinStakedSui_spec {left right joined : StakedSui}
    (together : left.joinStakedSui right = .ok joined) :
    left.poolId = right.poolId ∧
      left.stakeActivationEpoch = right.stakeActivationEpoch ∧
      joined = { left with principal := left.principal + right.principal } := by
  simp only [joinStakedSui, isEqualStakingMetadata, bind_eq_ok,
    require_eq_ok, Bool.and_eq_true, beq_iff_eq, U64.add_eq_ok, pure_eq_ok] at together
  obtain ⟨_, ⟨samePool, sameEpoch⟩, _, ⟨_, rfl⟩, rfl⟩ := together
  exact ⟨samePool, sameEpoch, rfl⟩

end StakedSui

end Sui.System
