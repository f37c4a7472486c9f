import Sui.Library.Quorum
import Sui.System.Validator

/-!
# Solvency of staking pools

The balance of a pool is what its stakers put in and its rewards, up to what is
still to be processed.  The pool tokens cover what the outstanding stakes can
redeem.  Tokens are issued for all stake of an epoch together but redeemed for
each stake on its own, and stakes can be split and joined in between; so the
invariant values all stake of an epoch together, which is the most that its parts
can be worth.
-/

namespace Sui

namespace System

open Library PoolTokenExchangeRate Finset Std.ExtTreeMap
open Option (getD_none)
open Nat (lt_succ_of_le zero_add lt_succ_self le_succ_of_le)

/-- The principals of all stakes. -/
def totalPrincipal (stakes : List StakedSui) : Nat :=
  (stakes.map StakedSui.principal).sum

/-- The principals of the stakes that become active in an epoch. -/
def principalAt (stakes : List StakedSui) (epoch : Nat) : Nat :=
  groupWeight StakedSui.stakeActivationEpoch StakedSui.principal stakes epoch

theorem totalPrincipal_eq_sum (early : ∀ stake ∈ stakes, stake.stakeActivationEpoch < bound) :
    totalPrincipal stakes = ∑ epoch ∈ range bound, principalAt stakes epoch :=
  sum_eq_sum_group fun stake listed =>
    mem_range.mpr (early stake listed)

/-- Stakes with the same principals at all epochs have the same total. -/
theorem totalPrincipal_congr (early : ∀ stake ∈ left, stake.stakeActivationEpoch ≤ bound)
    (early' : ∀ stake ∈ right, stake.stakeActivationEpoch ≤ bound)
    (same : ∀ epoch, principalAt left epoch = principalAt right epoch) :
    totalPrincipal left = totalPrincipal right := by
  rw [totalPrincipal_eq_sum fun stake listed =>
      lt_succ_of_le (early stake listed),
    totalPrincipal_eq_sum fun stake listed =>
      lt_succ_of_le (early' stake listed)]
  exact sum_congr rfl fun epoch _ => same epoch

theorem principalAt_eq_zero (early : ∀ stake ∈ stakes, stake.stakeActivationEpoch ≤ bound)
    (later : bound < epoch) :
    principalAt stakes epoch = 0 := by
  apply groupWeight_eq_zero
  intro stake listed same
  have := early stake listed
  omega

theorem principalAt_le_totalPrincipal (stakes : List StakedSui) (epoch : Nat) :
    principalAt stakes epoch ≤ totalPrincipal stakes :=
  (List.filter_sublist.map StakedSui.principal).sum_le_sum fun _ _ => Nat.zero_le _

namespace StakingPool

/-- Whether the validator of the pool is active. -/
def isActive (pool : StakingPool) : Bool :=
  !pool.isPreactive && !pool.isInactive

/-- The last epoch whose stake is processed.  Active pools process stake at the
end of the epoch before it becomes active. -/
def horizon (pool : StakingPool) (epoch : Nat) : Nat :=
  if pool.isActive then epoch else epoch + 1

/-- What the stakes of each epoch can redeem together. -/
def redeemable (pool : StakingPool) (stakes : List StakedSui) (bound : Nat) : Nat :=
  ∑ epoch ∈ Finset.range (bound + 1), (pool.rateAt epoch).tokens (principalAt stakes epoch)

/-- The exchange rates of a pool that was activated are recorded from then on,
until it was deactivated. -/
structure Recorded (pool : StakingPool) (epoch activationEpoch : Nat) :
    Prop where
  activated : activationEpoch ≤ pool.deactivationEpoch.getD epoch
  reached : pool.deactivationEpoch.getD epoch ≤ epoch
  present : ∀ other, activationEpoch ≤ other → other ≤ pool.deactivationEpoch.getD epoch →
      (pool.exchangeRates[other]?).isSome = true
  absent : ∀ other, pool.deactivationEpoch.getD epoch < other → pool.exchangeRates[other]? = none

/-- A pool that was never active has no rewards, and its tokens are worth one to
one. -/
structure Untouched (pool : StakingPool) : Prop where
  noRewards : pool.rewardsPool = 0
  even : pool.suiBalance = pool.poolTokenBalance
  evenPending : pool.pendingTotalSuiWithdraw = pool.pendingPoolTokenWithdraw
  noRates : ∀ epoch : Nat, pool.exchangeRates[epoch]? = none

/-- The pool is backed by its stakes and rewards, and its tokens cover its
stakes. -/
structure Solvent (pool : StakingPool) (epoch : Nat)
    (stakes : List StakedSui) : Prop where
  early : ∀ stake ∈ stakes, stake.stakeActivationEpoch ≤ epoch + 1
  balance : pool.suiBalance + pool.pendingStake =
    pool.pendingTotalSuiWithdraw + (pool.rewardsPool + totalPrincipal stakes)
  pending : pool.pendingStake =
    if pool.isActive then principalAt stakes (epoch + 1) else 0
  preactive : pool.activationEpoch = none → pool.Untouched
  recorded : ∀ activationEpoch, pool.activationEpoch = some activationEpoch →
    pool.Recorded epoch activationEpoch
  covered : pool.redeemable stakes (pool.horizon epoch) +
    pool.pendingPoolTokenWithdraw ≤ pool.poolTokenBalance

variable {pool : StakingPool} {epoch : Nat} {stakes : List StakedSui}

variable {activationEpoch : Nat}

/-- The rates of a running pool are recorded from its activation up to the epoch. -/
theorem recorded_iff (running : pool.deactivationEpoch = none) :
    pool.Recorded epoch activationEpoch ↔ activationEpoch ≤ epoch ∧
      (∀ other, activationEpoch ≤ other → other ≤ epoch →
        (pool.exchangeRates[other]?).isSome = true) ∧
      ∀ other, epoch < other → pool.exchangeRates[other]? = none := by
  constructor
  · rintro ⟨activated, _, present, absent⟩
    rw [running] at activated present absent
    exact ⟨activated, present, absent⟩
  · rintro ⟨activated, present, absent⟩
    constructor <;> rw [running, getD_none]
    exacts [activated, present, absent]

theorem isActive_of_activated (activated : pool.activationEpoch = some activationEpoch)
    (running : pool.deactivationEpoch = none) :
    pool.isActive = true := by
  simp [isActive, isPreactive, isInactive, activated, running]

theorem activated_of_isActive (active : pool.isActive = true) :
    (∃ activationEpoch, pool.activationEpoch = some activationEpoch) ∧
      pool.deactivationEpoch = none := by
  simp only [isActive, isPreactive, isInactive, Bool.and_eq_true,
    Bool.not_eq_true', Option.isNone_eq_false_iff, Option.isSome_eq_false_iff,
    Option.isNone_iff_eq_none, Option.isSome_iff_exists] at active
  exact active

theorem rateAt_of_preactive (preactive : pool.activationEpoch = none) (other : Nat) :
    pool.rateAt other = .initial := by
  simp [rateAt, isPreactiveAtEpoch, preactive]

/-- The rates until the deactivation are kept. -/
theorem rateAt_deactivated (running : pool.deactivationEpoch = none) (earlier : other ≤ epoch) :
    rateAt { pool with deactivationEpoch := some epoch } other = pool.rateAt other := by
  simp only [rateAt, isPreactiveAtEpoch, running, Option.getD_some,
    getD_none, min_self, min_eq_right earlier]

/-- What can be redeemed depends on the rates and on the stake of each epoch. -/
theorem redeemable_congr {pool' : StakingPool}
    (sameRate : ∀ other ≤ bound, pool'.rateAt other = pool.rateAt other)
    (samePrincipal : ∀ other ≤ bound, principalAt stakes' other = principalAt stakes other) :
    pool'.redeemable stakes' bound = pool.redeemable stakes bound := by
  apply sum_congr rfl
  intro other listed
  have below : other ≤ bound := Nat.lt_succ_iff.mp (mem_range.mp listed)
  rw [sameRate other below, samePrincipal other below]

theorem redeemable_cons {stake : StakedSui} (later : bound < stake.stakeActivationEpoch) :
    pool.redeemable (stake :: stakes) bound = pool.redeemable stakes bound := by
  refine redeemable_congr (fun _ _ => rfl) fun other below => ?_
  rw [principalAt, groupWeight_cons, if_neg (by omega), zero_add, principalAt]

/-- Epochs without stake do not matter. -/
theorem redeemable_succ (early : ∀ stake ∈ stakes, stake.stakeActivationEpoch ≤ bound) :
    pool.redeemable stakes (bound + 1) = pool.redeemable stakes bound := by
  unfold redeemable
  rw [sum_range_succ, principalAt_eq_zero early (lt_succ_self _), tokens_zero, Nat.add_zero]

/-- If all stake becomes active later, nothing can be redeemed. -/
theorem redeemable_eq_zero (early : ∀ stake ∈ stakes, stake.stakeActivationEpoch ≤ epoch + 1)
    (later : totalPrincipal stakes ≤ principalAt stakes (epoch + 1)) :
    pool.redeemable stakes epoch = 0 := by
  rw [totalPrincipal_eq_sum fun stake listed =>
      lt_succ_of_le (early stake listed),
    sum_range_succ] at later
  apply sum_eq_zero
  intro other listed
  have part := single_le_sum (fun index _ => Nat.zero_le (principalAt stakes index)) listed
  have none : principalAt stakes other = 0 := by omega
  rw [none, tokens_zero]

/-- Before the activation the tokens are worth the principals. -/
theorem redeemable_of_preactive (preactive : pool.activationEpoch = none)
    (early : ∀ stake ∈ stakes, stake.stakeActivationEpoch ≤ bound) :
    pool.redeemable stakes bound = totalPrincipal stakes := by
  rw [totalPrincipal_eq_sum fun stake listed =>
    lt_succ_of_le (early stake listed)]
  apply sum_congr rfl
  intro other _
  rw [rateAt_of_preactive preactive, tokens_initial]

variable (pool) in
/-- A stake on its own is worth at most what its epoch loses without it. -/
theorem redeemable_erase (listed : stake ∈ stakes)
    (processed : stake.stakeActivationEpoch ≤ bound) :
    pool.redeemable (stakes.erase stake) bound +
        (pool.rateAt stake.stakeActivationEpoch).tokens stake.principal ≤
      pool.redeemable stakes bound := by
  have grouped : stake.stakeActivationEpoch ∈ range (bound + 1) :=
    mem_range.mpr (lt_succ_of_le processed)
  unfold redeemable
  rw [← add_sum_erase _ _ grouped, ← add_sum_erase _ _ grouped]
  have others : ∑ other ∈ (range (bound + 1)).erase stake.stakeActivationEpoch,
        (pool.rateAt other).tokens (principalAt (stakes.erase stake) other) =
      ∑ other ∈ (range (bound + 1)).erase stake.stakeActivationEpoch,
        (pool.rateAt other).tokens (principalAt stakes other) := by
    apply sum_congr rfl
    intro other isOther
    rw [principalAt, principalAt, groupWeight_erase listed other,
      if_neg (ne_of_mem_erase isOther).symm, zero_add]
  have together := (pool.rateAt stake.stakeActivationEpoch).tokens_superadditive
    (principalAt (stakes.erase stake) stake.stakeActivationEpoch) stake.principal
  have whole : principalAt stakes stake.stakeActivationEpoch =
      principalAt (stakes.erase stake) stake.stakeActivationEpoch + stake.principal := by
    rw [principalAt, principalAt, groupWeight_erase listed, if_pos rfl]
    exact Nat.add_comm _ _
  rw [others, whole]
  omega

theorem totalPrincipal_erase (listed : stake ∈ stakes) :
    totalPrincipal stakes = stake.principal + totalPrincipal (stakes.erase stake) := by
  unfold totalPrincipal
  rw [((List.perm_cons_erase listed).map StakedSui.principal).sum_eq, List.map_cons, List.sum_cons]

/-- The pool after its deposits and withdrawals are processed. -/
def settled (pool : StakingPool) (epoch : Nat) : StakingPool :=
  let sui := pool.suiBalance - pool.pendingTotalSuiWithdraw
  let poolTokens := pool.poolTokenBalance - pool.pendingPoolTokenWithdraw
  let issued :=
    PoolTokenExchangeRate.tokens ⟨sui, poolTokens⟩ (sui + pool.pendingStake)
  { pool with
    suiBalance := sui + pool.pendingStake
    poolTokenBalance := issued
    exchangeRates :=
      pool.exchangeRates.insert (epoch + 1) ⟨sui + pool.pendingStake, issued⟩
    pendingStake := 0
    pendingTotalSuiWithdraw := 0
    pendingPoolTokenWithdraw := 0 }

/-- When processing the pending stakes and withdrawals succeeds, and with what. -/
theorem processPendingStakesAndWithdraws_eq_ok {after : StakingPool} :
    pool.processPendingStakesAndWithdraws epoch = .ok after ↔
      pool.pendingTotalSuiWithdraw ≤ pool.suiBalance ∧
      pool.pendingPoolTokenWithdraw ≤ pool.poolTokenBalance ∧
      (pool.settled epoch).suiBalance < 2 ^ 64 ∧
      (pool.settled epoch).poolTokenBalance < 2 ^ 64 ∧
      pool.exchangeRates[epoch + 1]? = none ∧
      (pool.settled epoch).checkBalanceInvariants (epoch + 1) = .ok () ∧
      pool.settled epoch = after := by
  unfold processPendingStakesAndWithdraws
  simp only [bind_eq_ok, processPendingStakeWithdraw_eq_ok,
    processPendingStake_eq_ok, Table.add_eq_ok, pure_eq_ok]
  constructor
  · rintro ⟨_, ⟨enough, enoughTokens, rfl⟩, _, ⟨fits, tokensFit, rfl⟩, _,
      ⟨absent, rfl⟩, _, checked, rfl⟩
    exact ⟨enough, enoughTokens, fits, tokensFit, absent, checked, rfl⟩
  · rintro ⟨enough, enoughTokens, fits, tokensFit, absent, checked, rfl⟩
    exact ⟨_, ⟨enough, enoughTokens, rfl⟩, _, ⟨fits, tokensFit, rfl⟩, _,
      ⟨absent, rfl⟩, _, checked, rfl⟩

namespace Solvent

theorem new (id : ID) (epoch : Nat) : (StakingPool.new id).Solvent epoch [] where
  early := by simp
  balance := rfl
  pending := rfl
  preactive _ := ⟨rfl, rfl, rfl, fun _ => by simp [StakingPool.new]⟩
  recorded := by simp [StakingPool.new]
  covered := by
    rw [redeemable_of_preactive rfl (by simp)]
    exact Nat.le_refl 0

section

variable (solvent : pool.Solvent epoch stakes)

include solvent

/-- Stakes may be split and joined. -/
theorem regroup (early : ∀ stake ∈ stakes', stake.stakeActivationEpoch ≤ epoch + 1)
    (same : ∀ other, principalAt stakes' other = principalAt stakes other) :
    pool.Solvent epoch stakes' := by
  have sameTotal := totalPrincipal_congr early solvent.early same
  refine { solvent with early := early, balance := ?_, pending := ?_, covered := ?_ }
  · rw [sameTotal]
    exact solvent.balance
  · rw [same]
    exact solvent.pending
  · rw [redeemable_congr (fun _ _ => rfl) fun other _ => same other]
    exact solvent.covered

/-- Rewards may be deposited. -/
theorem deposit (active : pool.isActive = true)
    (deposited : pool.depositRewards rewards = .ok after) :
    after.Solvent epoch stakes := by
  obtain rfl := depositRewards_spec deposited
  obtain ⟨⟨activationEpoch, activated⟩, _⟩ := activated_of_isActive active
  have balance := solvent.balance
  refine ⟨solvent.early, ?_, solvent.pending,
    fun preactive => (nomatch activated.symm.trans preactive),
    fun other isActivated => { solvent.recorded other isActivated with }, solvent.covered⟩
  dsimp only
  omega

/-- A stake may be added before the activation. -/
theorem addStake_of_preactive
    (preactive : pool.activationEpoch = none) (early : stakeActivationEpoch ≤ epoch + 1)
    (request : pool.requestAddStake stake stakeActivationEpoch = .ok (stakedSui, requested))
    (process : requested.processPendingStake = .ok after) :
    after.Solvent epoch (stakedSui :: stakes) := by
  obtain ⟨_, _, _, rfl, rfl⟩ := requestAddStake_eq_ok.mp request
  obtain ⟨_, _, rfl⟩ := processPendingStake_eq_ok.mp process
  obtain ⟨noRewards, even, evenPending, noRates⟩ := solvent.preactive preactive
  have notActive : pool.isActive = false := by
    simp [isActive, isPreactive, preactive]
  have balance := solvent.balance
  have pending := solvent.pending
  have total : totalPrincipal (⟨pool.id, stakeActivationEpoch, stake⟩ :: stakes) =
      stake + totalPrincipal stakes := rfl
  have earlier : ∀ other ∈ (⟨pool.id, stakeActivationEpoch, stake⟩ :: stakes :
      List StakedSui), other.stakeActivationEpoch ≤ epoch + 1 :=
    List.forall_mem_cons.mpr ⟨early, solvent.early⟩
  refine ⟨earlier, ?_, ?_, ?_, ?_, ?_⟩
  · dsimp only
    omega
  · change 0 = if pool.isActive then _ else 0
    rw [notActive]
    rfl
  · intro _
    refine ⟨noRewards, ?_, evenPending, noRates⟩
    rw [← even, tokens_of_even]
  · intro _ activated
    cases preactive.symm.trans activated
  · change redeemable _ _ (pool.horizon epoch) + _ ≤ _
    dsimp only
    rw [horizon, notActive, if_neg Bool.false_ne_true,
      redeemable_of_preactive (by exact preactive) earlier, total, ← even,
      tokens_of_even]
    omega

/-- A stake may be added to an active pool. -/
theorem addStake_of_active (active : pool.isActive = true)
    (request : pool.requestAddStake stake (epoch + 1) = .ok (stakedSui, after)) :
    after.Solvent epoch (stakedSui :: stakes) := by
  obtain ⟨_, _, _, rfl, rfl⟩ := requestAddStake_eq_ok.mp request
  have balance := solvent.balance
  have pending := solvent.pending
  rw [active, if_pos rfl] at pending
  have total : totalPrincipal (⟨pool.id, epoch + 1, stake⟩ :: stakes) =
      stake + totalPrincipal stakes := rfl
  obtain ⟨⟨activationEpoch, activated⟩, _⟩ := activated_of_isActive active
  refine ⟨List.forall_mem_cons.mpr ⟨le_rfl, solvent.early⟩, ?_, ?_, ?_, ?_, ?_⟩
  · dsimp only
    omega
  · change pool.pendingStake + stake = if pool.isActive then _ else 0
    rw [active, if_pos rfl, principalAt, groupWeight_cons, if_pos rfl, pending, principalAt]
    exact Nat.add_comm _ _
  · exact fun preactive => nomatch activated.symm.trans preactive
  · exact fun other isActivated => { solvent.recorded other isActivated with }
  · have processed : pool.horizon epoch = epoch := by
      rw [horizon, active, if_pos rfl]
    have covered := solvent.covered
    rw [processed] at covered
    change redeemable _ _ (pool.horizon epoch) + _ ≤ _
    rw [processed, redeemable_cons (lt_succ_self epoch)]
    exact covered

/-- A processed epoch has its rate. -/
theorem poolTokenExchangeRateAtEpoch_eq (processed : other ≤ pool.horizon epoch) :
    pool.poolTokenExchangeRateAtEpoch other = .ok (pool.rateAt other) := by
  apply StakingPool.poolTokenExchangeRateAtEpoch_eq
  intro activationEpoch activated below
  obtain ⟨isActivated, reached, present, _⟩ := solvent.recorded activationEpoch activated
  cases deactivated : pool.deactivationEpoch with
  | none =>
    rw [deactivated] at present isActivated
    rw [horizon, isActive_of_activated activated deactivated, if_pos rfl] at processed
    simp only [getD_none, min_self]
    exact ⟨below, present other below processed⟩
  | some deactivationEpoch =>
    rw [deactivated] at present isActivated
    exact ⟨le_min isActivated below, present _ (le_min isActivated below) (min_le_left _ _)⟩

/-- An active stake may be withdrawn from an active pool. -/
theorem queueWithdraw (listed : stake ∈ stakes)
    (active : stake.stakeActivationEpoch ≤ epoch) (enough : reward ≤ pool.rewardsPool) :
    (pool.queueWithdraw stake.principal reward
      ((pool.rateAt stake.stakeActivationEpoch).tokens stake.principal)).Solvent
        epoch (stakes.erase stake) := by
  have balance := solvent.balance
  rw [totalPrincipal_erase listed] at balance
  refine ⟨?_, ?_, ?_, ?_, ?_, ?_⟩
  · intro other isOther
    exact solvent.early other (List.mem_of_mem_erase isOther)
  · dsimp only [StakingPool.queueWithdraw]
    omega
  · change pool.pendingStake =
      if pool.isActive then principalAt (stakes.erase stake) (epoch + 1) else 0
    rw [solvent.pending, principalAt, principalAt, groupWeight_erase listed,
      if_neg (show ¬ stake.stakeActivationEpoch = epoch + 1 by omega),
      zero_add]
  · intro preactive
    change pool.activationEpoch = none at preactive
    obtain ⟨noRewards, even, evenPending, noRates⟩ := solvent.preactive preactive
    have noReward : reward = 0 := by omega
    refine ⟨?_, even, ?_, noRates⟩
    · dsimp only [StakingPool.queueWithdraw]
      omega
    · dsimp only [StakingPool.queueWithdraw]
      rw [rateAt_of_preactive preactive, tokens_initial]
      omega
  · exact fun other isActivated => { solvent.recorded other isActivated with }
  · have covered := solvent.covered
    have processed : stake.stakeActivationEpoch ≤ pool.horizon epoch := by
      unfold horizon
      split <;> omega
    have taken := redeemable_erase pool listed processed
    change pool.redeemable (stakes.erase stake) (pool.horizon epoch) +
      (pool.pendingPoolTokenWithdraw + _) ≤ pool.poolTokenBalance
    omega

/-- The withdrawals are taken out of the balances. -/
theorem processPendingStakeWithdraw (processed : pool.processPendingStakeWithdraw = .ok after) :
    after.Solvent epoch stakes := by
  obtain ⟨enough, enoughTokens, rfl⟩ := processPendingStakeWithdraw_eq_ok.mp processed
  have balance := solvent.balance
  have covered := solvent.covered
  refine ⟨solvent.early, ?_, solvent.pending, ?_, ?_, ?_⟩
  · dsimp only
    omega
  · intro preactive
    obtain ⟨_, even, evenPending, _⟩ := solvent.preactive preactive
    refine { solvent.preactive preactive with even := ?_, evenPending := rfl }
    dsimp only
    omega
  · exact fun other isActivated => { solvent.recorded other isActivated with }
  · change pool.redeemable stakes (pool.horizon epoch) + 0 ≤
      pool.poolTokenBalance - pool.pendingPoolTokenWithdraw
    omega

/-- A withdrawal pays out what the pool loses. -/
theorem withdraw (listed : stake ∈ stakes) (active : stake.stakeActivationEpoch ≤ epoch)
    (withdrawn : pool.requestWithdrawStake stake epoch = .ok (amount, after)) :
    after.Solvent epoch (stakes.erase stake) ∧
      amount + (after.rewardsPool + totalPrincipal (stakes.erase stake)) =
        pool.rewardsPool + totalPrincipal stakes := by
  obtain ⟨_, rate, reward, found, ⟨_, _, clamped⟩, rfl, processed⟩ :=
    requestWithdrawStake_spec withdrawn
  have enough : reward ≤ pool.rewardsPool := clamped.trans_le (min_le_right _ _)
  have isProcessed : stake.stakeActivationEpoch ≤ pool.horizon epoch := by
    unfold horizon
    split <;> omega
  rw [solvent.poolTokenExchangeRateAtEpoch_eq isProcessed] at found
  cases found
  have queued := solvent.queueWithdraw listed active enough
  have total := totalPrincipal_erase listed
  unfold processIfInactive at processed
  split at processed
  · refine ⟨queued.processPendingStakeWithdraw processed, ?_⟩
    obtain ⟨_, _, rfl⟩ := processPendingStakeWithdraw_eq_ok.mp processed
    dsimp only [StakingPool.queueWithdraw]
    omega
  · cases processed
    refine ⟨queued, ?_⟩
    dsimp only [StakingPool.queueWithdraw]
    omega

theorem enough (active : pool.isActive = true) :
    pool.pendingTotalSuiWithdraw ≤ pool.suiBalance ∧ (pool.settled epoch).suiBalance =
        pool.rewardsPool + totalPrincipal stakes := by
  have balance := solvent.balance
  have pending := solvent.pending
  rw [active, if_pos rfl] at pending
  have part := principalAt_le_totalPrincipal stakes (epoch + 1)
  dsimp only [settled]
  omega

/-- The rate that is recorded for the next epoch. -/
theorem rateAt_settled (active : pool.isActive = true) :
    (pool.settled epoch).rateAt (epoch + 1) =
      ⟨(pool.settled epoch).suiBalance, (pool.settled epoch).poolTokenBalance⟩ := by
  obtain ⟨⟨activationEpoch, activated⟩, running⟩ := activated_of_isActive active
  have below := (solvent.recorded activationEpoch activated).activated
  rw [running, getD_none] at below
  have reached : ¬ epoch + 1 < activationEpoch := by omega
  simp [rateAt, settled, isPreactiveAtEpoch, activated, running, reached]

end

/-- The earlier rates are as before. -/
theorem rateAt_settled_of_le (active : pool.isActive = true) (earlier : other ≤ epoch) :
    (pool.settled epoch).rateAt other = pool.rateAt other := by
  obtain ⟨_, running⟩ := activated_of_isActive active
  have different : epoch + 1 ≠ other := by omega
  simp [rateAt, settled, isPreactiveAtEpoch, running, getElem?_insert, different]

variable (solvent : pool.Solvent epoch stakes)

include solvent

/-- Pending deposits and withdrawals are processed. -/
theorem settled (active : pool.isActive = true) :
    (pool.settled epoch).Solvent (epoch + 1) stakes := by
  obtain ⟨⟨activationEpoch, activated⟩, running⟩ := activated_of_isActive active
  have stillActive : (pool.settled epoch).isActive = true := active
  obtain ⟨enough, total⟩ := solvent.enough active
  have pending := solvent.pending
  rw [active, if_pos rfl] at pending
  refine ⟨?_, ?_, ?_, ?_, ?_, ?_⟩
  · intro stake listed
    exact le_succ_of_le (solvent.early stake listed)
  · rw [total]
    dsimp only [StakingPool.settled]
    omega
  · rw [stillActive, if_pos rfl, principalAt_eq_zero solvent.early (lt_succ_self _)]
    rfl
  · exact fun preactive => nomatch activated.symm.trans preactive
  · intro other isActivated
    obtain ⟨below, present, absent⟩ :=
      (recorded_iff running).mp (solvent.recorded other isActivated)
    refine (recorded_iff (by exact running)).mpr ⟨le_succ_of_le below, ?_, ?_⟩
    · intro other' atLeast atMost
      change ((pool.exchangeRates.insert _ _)[other']?).isSome = true
      rw [Map.getElem?_insert]
      split
      · rfl
      · exact present other' atLeast (by omega)
    · intro other' later
      change (pool.exchangeRates.insert _ _)[other']? = none
      rw [Map.getElem?_insert, if_neg (by omega), absent other' (by omega)]
  · have covered := solvent.covered
    rw [horizon, active, if_pos rfl] at covered
    rw [horizon, stillActive, if_pos rfl, redeemable, sum_range_succ,
      solvent.rateAt_settled active, ← pending]
    have earlier : ∑ other ∈ range (epoch + 1),
        ((pool.settled epoch).rateAt other).tokens (principalAt stakes other) =
          pool.redeemable stakes epoch := by
      apply sum_congr rfl
      intro other listed
      rw [rateAt_settled_of_le active (Nat.lt_succ_iff.mp (mem_range.mp listed))]
    apply tokens_issued
    · omega
    · intro empty
      apply redeemable_eq_zero solvent.early
      dsimp only [StakingPool.settled] at total
      omega

/-- An active pool can be processed exactly if the tokens that are issued fit. -/
theorem processPendingStakesAndWithdraws_eq_ok
    (active : pool.isActive = true) (bounded : pool.rewardsPool + totalPrincipal stakes < 2 ^ 64)
    {after : StakingPool} :
    pool.processPendingStakesAndWithdraws epoch = .ok after ↔
      (pool.settled epoch).poolTokenBalance < 2 ^ 64 ∧
      pool.settled epoch = after := by
  rw [StakingPool.processPendingStakesAndWithdraws_eq_ok]
  obtain ⟨enough, total⟩ := solvent.enough active
  refine ⟨fun processed => ⟨processed.2.2.2.1, processed.2.2.2.2.2.2⟩, ?_⟩
  rintro ⟨fits, rfl⟩
  obtain ⟨⟨activationEpoch, activated⟩, running⟩ := activated_of_isActive active
  have covered := solvent.covered
  have absent := (solvent.recorded activationEpoch activated).absent (epoch + 1)
  rw [running, getD_none] at absent
  refine ⟨enough, by omega, by omega, fits, absent (lt_succ_self _), ?_, rfl⟩
  have stillActive : (pool.settled epoch).isActive = true := active
  have rate := (solvent.settled active).poolTokenExchangeRateAtEpoch_eq
    (show epoch + 1 ≤ (pool.settled epoch).horizon (epoch + 1) by
      rw [horizon, stillActive, if_pos rfl])
  have same : tokens
        ⟨(pool.settled epoch).suiBalance, (pool.settled epoch).poolTokenBalance⟩
        (pool.settled epoch).suiBalance = (pool.settled epoch).poolTokenBalance :=
    tokens_self (Nat.le_add_right _ _)
  unfold checkBalanceInvariants
  rw [rate, solvent.rateAt_settled active]
  simp only [bind_eq_ok, require_eq_ok]
  refine ⟨_, rfl, _, (getTokenAmount_eq_ok (by omega)).mpr ⟨?_, rfl⟩, same⟩
  rw [same]
  exact fits

/-- The pool may be activated. -/
theorem activate (early : ∀ stake ∈ stakes, stake.stakeActivationEpoch ≤ activationEpoch)
    (activated : pool.activateStakingPool activationEpoch = .ok after) :
    after.Solvent activationEpoch stakes := by
  obtain ⟨preactive, running, rfl⟩ := activateStakingPool_spec activated
  obtain ⟨_, _, _, noRates⟩ := solvent.preactive preactive
  have notActive : pool.isActive = false := by
    simp [isActive, isPreactive, preactive]
  have nowActive : isActive
      { pool with
        exchangeRates := pool.exchangeRates.insert activationEpoch .initial
        activationEpoch := some activationEpoch } = true :=
    isActive_of_activated rfl running
  refine ⟨?_, solvent.balance, ?_, ?_, ?_, ?_⟩
  · intro stake listed
    exact le_succ_of_le (early stake listed)
  · rw [nowActive, if_pos rfl, principalAt_eq_zero early (lt_succ_self _)]
    have pending := solvent.pending
    rw [notActive, if_neg Bool.false_ne_true] at pending
    exact pending
  · rintro ⟨⟩
  · rintro _ ⟨⟩
    refine (recorded_iff (by exact running)).mpr ⟨le_rfl, ?_, ?_⟩
    · intro other atLeast atMost
      rw [le_antisymm atMost atLeast, getElem?_insert_self]
      rfl
    · intro other later
      rw [Map.getElem?_insert, if_neg later.ne, noRates]
  · have covered := solvent.covered
    rw [horizon, notActive, if_neg Bool.false_ne_true,
      redeemable_of_preactive preactive solvent.early,
      ← redeemable_of_preactive preactive early] at covered
    rw [horizon, nowActive, if_pos rfl]
    refine le_of_eq_of_le (congrArg (· + _) ?_) covered
    apply redeemable_congr _ fun _ _ => rfl
    intro other below
    rw [rateAt_of_preactive preactive]
    simp only [rateAt, isPreactiveAtEpoch, running, getD_none, min_self, getElem?_insert, noRates]
    split
    · rfl
    · split <;> rfl

/-- The pool may be deactivated. -/
theorem deactivate
    (early : pool.isActive = true → ∀ stake ∈ stakes, stake.stakeActivationEpoch ≤ epoch)
    (deactivated : pool.deactivateStakingPool epoch = .ok after) :
    after.Solvent epoch stakes := by
  obtain ⟨running, rfl⟩ := deactivateStakingPool_spec deactivated
  have notActive : isActive { pool with deactivationEpoch := some epoch } =
      false := by
    simp [isActive, isInactive]
  refine ⟨solvent.early, solvent.balance, ?_, ?_, ?_, ?_⟩
  · rw [notActive, if_neg Bool.false_ne_true]
    have pending := solvent.pending
    split at pending
    · next active =>
      rw [principalAt_eq_zero (early active) (lt_succ_self _)] at pending
      exact pending
    · exact pending
  · exact fun preactive => { solvent.preactive preactive with }
  · intro activationEpoch activated
    obtain ⟨below, present, absent⟩ :=
      (recorded_iff running).mp (solvent.recorded activationEpoch activated)
    exact ⟨below, Nat.le_refl _, present, absent⟩
  · have covered := solvent.covered
    rw [horizon, notActive, if_neg Bool.false_ne_true]
    rcases pool.activationEpoch.eq_none_or_eq_some with
      preactive | ⟨activationEpoch, activated⟩
    · rw [horizon, show pool.isActive = false by
          simp [isActive, isPreactive, preactive],
        if_neg Bool.false_ne_true,
        redeemable_of_preactive preactive solvent.early] at covered
      rw [redeemable_of_preactive (by exact preactive) solvent.early]
      exact covered
    · have active := isActive_of_activated activated running
      rw [horizon, active, if_pos rfl] at covered
      rw [redeemable_succ (early active)]
      refine le_of_eq_of_le (congrArg (· + _) ?_) covered
      exact redeemable_congr (fun _ => rateAt_deactivated running) fun _ _ => rfl

/-- An epoch passes for a pool that is not active. -/
theorem tick (notActive : pool.isActive = false) : pool.Solvent (epoch + 1) stakes := by
  refine ⟨?_, solvent.balance, ?_, solvent.preactive, ?_, ?_⟩
  · intro stake listed
    exact le_succ_of_le (solvent.early stake listed)
  · have pending := solvent.pending
    rw [notActive] at pending ⊢
    exact pending
  · intro activationEpoch activated
    obtain ⟨below, reached, present, absent⟩ := solvent.recorded activationEpoch activated
    cases deactivated : pool.deactivationEpoch with
    | none =>
      rw [isActive_of_activated activated deactivated] at notActive
      cases notActive
    | some deactivationEpoch =>
      rw [deactivated] at below reached present absent
      constructor
      all_goals rw [deactivated]
      · exact below
      · exact le_succ_of_le reached
      · exact present
      · exact absent
  · have covered := solvent.covered
    rw [horizon, notActive, if_neg Bool.false_ne_true] at covered ⊢
    rw [redeemable_succ solvent.early]
    exact covered

end Solvent

end StakingPool

end System

/-! ## The life of a pool

Stakers and rewards change the balances of a pool, but neither its identifier nor when it
became active or ceased to be. -/

namespace System

/-- A pool is the same one, at the same stage of its life. -/
structure StakingPool.SameLife (before after : StakingPool) : Prop where
  id : after.id = before.id
  activationEpoch : after.activationEpoch = before.activationEpoch
  deactivationEpoch : after.deactivationEpoch = before.deactivationEpoch

namespace StakingPool.SameLife

variable {pool middle after : StakingPool}

theorem refl (pool : StakingPool) : pool.SameLife pool :=
  ⟨rfl, rfl, rfl⟩

theorem trans (first : pool.SameLife middle) (second : middle.SameLife after) :
    pool.SameLife after :=
  ⟨second.id.trans first.id, second.activationEpoch.trans first.activationEpoch,
    second.deactivationEpoch.trans first.deactivationEpoch⟩

theorem requestAddStake
    (requested : pool.requestAddStake stake stakeActivationEpoch = .ok (stakedSui, after)) :
    pool.SameLife after := by
  obtain ⟨_, _, _, _, rfl⟩ := requestAddStake_eq_ok.mp requested
  exact ⟨rfl, rfl, rfl⟩

theorem processPendingStake (processed : pool.processPendingStake = .ok after) :
    pool.SameLife after := by
  obtain ⟨_, _, rfl⟩ := processPendingStake_eq_ok.mp processed
  exact ⟨rfl, rfl, rfl⟩

theorem processIfPreactive (processed : pool.processIfPreactive = .ok after) :
    pool.SameLife after := by
  unfold StakingPool.processIfPreactive at processed
  split at processed
  · exact processPendingStake processed
  · cases processed
    exact refl pool

/-- A withdrawal neither activates nor deactivates the pool. -/
theorem requestWithdrawStake
    (withdrawn : pool.requestWithdrawStake stakedSui epoch = .ok (amount, after)) :
    pool.SameLife after := by
  obtain ⟨_, _, _, _, _, _, processed⟩ := requestWithdrawStake_spec withdrawn
  unfold processIfInactive at processed
  split at processed
  · obtain ⟨_, _, rfl⟩ := processPendingStakeWithdraw_eq_ok.mp processed
    exact ⟨rfl, rfl, rfl⟩
  · cases processed
    exact ⟨rfl, rfl, rfl⟩

end StakingPool.SameLife

/-- A validator is the same one with the same metadata, and its pool is at the
same stage of its life. -/
structure Validator.Same (before after : Validator) : Prop where
  metadata : after.metadata = before.metadata
  votingPower : after.votingPower = before.votingPower
  life : before.stakingPool.SameLife after.stakingPool

namespace Validator.Same

variable {validator middle after : Validator}

theorem refl (validator : Validator) : validator.Same validator :=
  ⟨rfl, rfl, .refl _⟩

theorem trans (first : validator.Same middle) (second : middle.Same after) : validator.Same after :=
  ⟨second.metadata.trans first.metadata,
    second.votingPower.trans first.votingPower, first.life.trans second.life⟩

theorem suiAddress (same : validator.Same after) : after.suiAddress = validator.suiAddress :=
  congrArg ValidatorMetadata.suiAddress same.metadata

theorem isPreactive (same : validator.Same after) : after.isPreactive = validator.isPreactive := by
  rw [Validator.isPreactive, Validator.isPreactive, StakingPool.isPreactive,
    StakingPool.isPreactive, same.life.activationEpoch]

theorem requestAddStake
    (requested : validator.requestAddStake stake epoch = .ok (stakedSui, after)) :
    validator.Same after := by
  obtain ⟨_, _, added, processed, rfl⟩ := requestAddStake_spec requested
  exact ⟨rfl, rfl, (StakingPool.SameLife.requestAddStake added).trans
    (.processIfPreactive processed)⟩

theorem requestAddStakeAtGenesis
    (requested : validator.requestAddStakeAtGenesis stake epoch = .ok (stakedSui, after)) :
    validator.Same after := by
  obtain ⟨_, _, _, added, processed, rfl⟩ := requestAddStakeAtGenesis_spec requested
  exact ⟨rfl, rfl, (StakingPool.SameLife.requestAddStake added).trans
    (.processPendingStake processed)⟩

theorem requestWithdrawStake
    (withdrawn : validator.requestWithdrawStake stakedSui epoch = .ok (amount, after)) :
    validator.Same after := by
  obtain ⟨_, paid, _, rfl⟩ := requestWithdrawStake_spec withdrawn
  exact ⟨rfl, rfl, .requestWithdrawStake paid⟩

theorem depositStakeRewards (deposited : validator.depositStakeRewards reward = .ok after) :
    validator.Same after := by
  obtain ⟨_, added, rfl⟩ := depositStakeRewards_spec deposited
  obtain rfl := StakingPool.depositRewards_spec added
  exact ⟨rfl, rfl, rfl, rfl, rfl⟩

theorem processPendingStakesAndWithdraws
    (processed : validator.processPendingStakesAndWithdraws epoch = .ok after) :
    validator.Same after := by
  obtain ⟨_, poolProcessed, _, rfl⟩ := processPendingStakesAndWithdraws_eq_ok.mp processed
  obtain ⟨_, _, _, _, _, _, rfl⟩ :=
    StakingPool.processPendingStakesAndWithdraws_eq_ok.mp poolProcessed
  exact ⟨rfl, rfl, rfl, rfl, rfl⟩

end Validator.Same

theorem Validator.poolId_of_requestAddStake {validator after : Validator}
    (requested : validator.requestAddStake stake epoch = .ok (stakedSui, after)) :
    stakedSui.poolId = validator.stakingPoolId := by
  obtain ⟨_, _, added, _, _⟩ := requestAddStake_spec requested
  obtain ⟨_, _, _, rfl, _⟩ := StakingPool.requestAddStake_eq_ok.mp added
  rfl

theorem Validator.poolId_of_requestAddStakeAtGenesis {validator after : Validator}
    (requested : validator.requestAddStakeAtGenesis stake epoch = .ok (stakedSui, after)) :
    stakedSui.poolId = validator.stakingPoolId := by
  obtain ⟨_, _, _, added, _, _⟩ := requestAddStakeAtGenesis_spec requested
  obtain ⟨_, _, _, rfl, _⟩ := StakingPool.requestAddStake_eq_ok.mp added
  rfl

end System

end Sui
