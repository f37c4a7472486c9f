import Sui.System.SystemLedger

/-!
# The parameters of a validator over its tenure

A validator sets its gas price and its commission rate, as a candidate at once and as
an active validator for the next epoch.  At the end of an epoch the parameters of
active validators are replaced by those for the next epoch; a candidate that becomes
active keeps its own.  The most recent settings are recorded beside the validator.
-/

namespace Sui.System

open Library Validator

/-- The most recent settings. -/
structure Settings where
  gasPrice : Nat
  commissionRate : Nat
  requested : Bool
  deriving DecidableEq

/-- A validator from its registration on. -/
structure Tenure where
  validator : Validator
  epoch : Nat
  registeredRate : Nat
  settings : Settings
  begun : Settings
  /-- Whether the validator became active when the epoch began. -/
  first : Bool

namespace Tenure

inductive Action
  | setCandidateGasPrice (capAddress : Address) (newPrice : Nat)
  | setCandidateCommissionRate (newCommissionRate : Nat)
  | requestSetGasPrice (capAddress : Address) (newPrice : Nat)
  | requestSetCommissionRate (newCommissionRate : Nat)
  | advanceEpoch (activates : Bool)

def register (validator : Validator) (epoch : Nat) : Tenure :=
  let settings := ⟨validator.gasPrice, validator.commissionRate, false⟩
  ⟨validator, epoch, validator.commissionRate, settings, settings, false⟩

/-- Record a setting that was accepted. -/
def record (tenure : Tenure) (accepted : Program Validator) (settings : Settings) :
    Option Tenure :=
  accepted.toOption.map fun validator =>
    { tenure with validator := validator, settings := settings }

def perform (tenure : Tenure) : Action → Option Tenure
  | .setCandidateGasPrice capAddress newPrice =>
    tenure.record (tenure.validator.setCandidateGasPrice capAddress newPrice)
      { tenure.settings with gasPrice := newPrice }
  | .setCandidateCommissionRate newCommissionRate =>
    tenure.record (tenure.validator.setCandidateCommissionRate newCommissionRate)
      { tenure.settings with commissionRate := newCommissionRate }
  | .requestSetGasPrice capAddress newPrice =>
    if tenure.validator.isPreactive then none
    else tenure.record (tenure.validator.requestSetGasPrice capAddress newPrice)
      { tenure.settings with gasPrice := newPrice }
  | .requestSetCommissionRate newCommissionRate =>
    if tenure.validator.isPreactive then none
    else tenure.record (tenure.validator.requestSetCommissionRate newCommissionRate)
      { tenure.settings with commissionRate := newCommissionRate, requested := true }
  | .advanceEpoch activates =>
    let ended := { tenure with epoch := tenure.epoch + 1, begun := tenure.settings, first := false }
    if tenure.validator.isPreactive then
      if activates then
        (tenure.validator.activate (tenure.epoch + 1)).toOption.map fun validator =>
          { ended with validator := validator, first := true }
      else some ended
    else some { ended with validator := tenure.validator.adjustStakeAndGasPrice }

/-- A tenure that begins with a registration. -/
def Reachable (natives : Natives) (tenure : Tenure) : Prop :=
  ∃ address info gasPrice commissionRate poolId operationCapId validator epoch,
    Validator.new natives address info gasPrice commissionRate poolId operationCapId =
      .ok validator ∧
    Run perform (fun _ _ => True) (register validator epoch) tenure

/-- What the parameters of the validator are, in terms of the settings. -/
structure Tracks (tenure : Tenure) : Prop where
  nextGasPrice : tenure.validator.nextEpochGasPrice = tenure.settings.gasPrice
  nextRate : tenure.validator.nextEpochCommissionRate =
    if tenure.settings.requested then tenure.settings.commissionRate else tenure.registeredRate
  candidate : tenure.validator.isPreactive = true →
    tenure.validator.gasPrice = tenure.settings.gasPrice ∧
    tenure.validator.commissionRate = tenure.settings.commissionRate ∧
    tenure.settings.requested = false
  active : tenure.validator.isPreactive = false →
    tenure.validator.gasPrice = tenure.begun.gasPrice ∧
    tenure.validator.commissionRate = if tenure.first || tenure.begun.requested then
      tenure.begun.commissionRate else tenure.registeredRate

variable {tenure next : Tenure}

theorem record_eq_some {settings : Settings} :
    tenure.record accepted settings = some next ↔ ∃ validator, accepted = .ok validator ∧
      { tenure with validator := validator, settings := settings } = next := by
  cases accepted <;> simp [record, Except.toOption]

/-- Settings of a candidate leave the rate for the next epoch as it was. -/
theorem Tracks.step (tracks : tenure.Tracks) (performed : tenure.perform action = some next) :
    next.Tracks := by
  have notActive {property : Prop} (preactive : tenure.validator.isPreactive = true)
      (active : tenure.validator.isPreactive = false) : property :=
    absurd (preactive.symm.trans active) (by decide)
  cases action with
  | setCandidateGasPrice capAddress newPrice =>
    obtain ⟨validator, accepted, rfl⟩ := record_eq_some.mp performed
    simp only [setCandidateGasPrice, bind_eq_ok, require_eq_ok, pure_eq_ok] at accepted
    obtain ⟨_, preactive, _, _, _, _, rfl⟩ := accepted
    exact ⟨rfl, tracks.nextRate, fun _ => ⟨rfl, (tracks.candidate preactive).2⟩,
      notActive preactive⟩
  | setCandidateCommissionRate newCommissionRate =>
    obtain ⟨validator, accepted, rfl⟩ := record_eq_some.mp performed
    simp only [setCandidateCommissionRate, bind_eq_ok, require_eq_ok, pure_eq_ok] at accepted
    obtain ⟨_, preactive, _, _, rfl⟩ := accepted
    obtain ⟨price, _, unrequested⟩ := tracks.candidate preactive
    have nextRate := tracks.nextRate
    rw [unrequested] at nextRate
    refine ⟨tracks.nextGasPrice, ?_, fun _ => ⟨price, rfl, unrequested⟩, notActive preactive⟩
    rw [unrequested]
    exact nextRate
  | requestSetGasPrice capAddress newPrice =>
    obtain ⟨active, recorded⟩ := Option.ite_none_left_eq_some.mp performed
    obtain ⟨validator, accepted, rfl⟩ := record_eq_some.mp recorded
    simp only [requestSetGasPrice, bind_eq_ok, require_eq_ok, pure_eq_ok] at accepted
    obtain ⟨_, _, _, _, rfl⟩ := accepted
    exact ⟨rfl, tracks.nextRate, fun preactive => absurd preactive active, tracks.active⟩
  | requestSetCommissionRate newCommissionRate =>
    obtain ⟨active, recorded⟩ := Option.ite_none_left_eq_some.mp performed
    obtain ⟨validator, accepted, rfl⟩ := record_eq_some.mp recorded
    simp only [requestSetCommissionRate, bind_eq_ok, require_eq_ok, pure_eq_ok]
      at accepted
    obtain ⟨_, _, rfl⟩ := accepted
    exact ⟨tracks.nextGasPrice, rfl, fun preactive => absurd preactive active, tracks.active⟩
  | advanceEpoch activates =>
    dsimp only [perform] at performed
    split at performed
    · next preactive =>
      obtain ⟨price, rate, unrequested⟩ := tracks.candidate preactive
      cases activates with
      | true =>
        obtain ⟨validator, activated, rfl⟩ := map_toOption_eq_some.mp performed
        simp only [activate, StakingPool.activateStakingPool, bind_eq_ok, require_eq_ok,
          pure_eq_ok] at activated
        obtain ⟨_, ⟨_, _, _, _, _, _, rfl⟩, rfl⟩ := activated
        exact ⟨tracks.nextGasPrice, tracks.nextRate, fun preactive => (nomatch preactive),
          fun _ => ⟨price, rate⟩⟩
      | false =>
        cases performed
        exact ⟨tracks.nextGasPrice, tracks.nextRate, fun _ => ⟨price, rate, unrequested⟩,
          notActive preactive⟩
    · next active =>
      cases performed
      exact ⟨tracks.nextGasPrice, tracks.nextRate, fun preactive => absurd preactive active,
        fun _ => ⟨tracks.nextGasPrice, tracks.nextRate⟩⟩

theorem Reachable.tracks (reachable : Reachable natives tenure) : tenure.Tracks := by
  obtain ⟨_, _, _, _, _, _, validator, _, created, run⟩ := reachable
  obtain ⟨_, rfl⟩ := new_spec created
  exact run.invariant Tracks ⟨rfl, rfl, fun _ => ⟨rfl, rfl, rfl⟩, fun active => nomatch active⟩
    fun _ _ _ tracks _ => tracks.step

/-- A tenure that is reached by a list of actions. -/
theorem exists_reachable (actions : List Action) (property : Tenure → Prop) [DecidablePred property]
    (holds : (performAll perform (fun _ _ => True) actions (register (.newFromMetadata
      (.newMetadata 7 (.uniform 1)) 10 200 0 1) 0)).any property = true) :
    ∃ tenure, Reachable .accepting tenure ∧ property tenure := by
  obtain ⟨tenure, run, holds⟩ := exists_run perform (fun _ _ => True) _ actions property holds
  exact ⟨tenure, ⟨7, .uniform 1, 10, 200, 0, 1, _, 0, rfl, run⟩, holds⟩

/-- The gas price in force is always the most recent one that was set before the epoch
began.  The commission rate is, unless a candidate set another one than at its
registration, none was requested since, and the epoch is not the first one. -/
theorem settings_take_effect_iff (reachable : Reachable natives tenure)
    (active : tenure.validator.isPreactive = false) :
    tenure.validator.gasPrice = tenure.begun.gasPrice ∧
    (tenure.validator.commissionRate = tenure.begun.commissionRate ↔
      tenure.first = true ∨ tenure.begun.requested = true ∨
        tenure.begun.commissionRate = tenure.registeredRate) := by
  obtain ⟨price, rate⟩ := reachable.tracks.active active
  refine ⟨price, ?_⟩
  rw [rate, ← or_assoc, ← Bool.or_eq_true]
  split
  · next kept => simp [kept]
  · next reverts => simp [reverts, eq_comm]

/-- A rate of a candidate, replaced by one that is requested later. -/
theorem settings_take_effect_requested :
    ∃ tenure, Reachable .accepting tenure ∧ tenure.first = false ∧
      tenure.begun.commissionRate = 400 ∧ tenure.validator.commissionRate = 400 := by
  obtain ⟨tenure, reachable, active, later, requested, rate⟩ := exists_reachable
    [.setCandidateCommissionRate 300, .advanceEpoch true, .requestSetCommissionRate 400,
      .advanceEpoch false] (fun tenure => tenure.validator.isPreactive = false ∧
      tenure.first = false ∧ tenure.begun.requested = true ∧ tenure.begun.commissionRate = 400)
    (by decide +kernel)
  refine ⟨tenure, reachable, later, rate, ?_⟩
  rw [((settings_take_effect_iff reachable active).2).mpr (.inr (.inl requested)), rate]

/-- A candidate sets three percent and is back at two percent one epoch after its first. -/
theorem candidate_rate_reverted :
    ∃ tenure, Reachable .accepting tenure ∧ tenure.validator.isPreactive = false ∧
      tenure.begun.commissionRate = 300 ∧ tenure.validator.commissionRate = 200 :=
  exists_reachable [.setCandidateCommissionRate 300, .advanceEpoch true, .advanceEpoch false]
    (fun tenure => tenure.validator.isPreactive = false ∧ tenure.begun.commissionRate = 300 ∧
      tenure.validator.commissionRate = 200) (by decide +kernel)

end Tenure
end Sui.System
