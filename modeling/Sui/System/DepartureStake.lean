import Sui.System.Reports

/-!
# The stake of leaving validators

When a validator leaves, its stake is subtracted from the total stake.  The stake is the one
after rewards and pending stake were processed, the total the one from before.  So the
departures need the new stakes of the leaving validators to be at most the old total.
-/

namespace Sui.System
namespace ValidatorSet

open Library
open List hiding after count
open VotingPower (stakeSum)

variable {parameters : LowStake} {set after : ValidatorSet}
  {records cleaned : ReportRecords} {epoch : Nat}

/-! ## Accounting -/

theorem stakeSum_eraseIdx {validators : List Validator}
    (found : validators[index]? = some validator) :
    validator.totalStakeAmount + stakeSum (validators.eraseIdx index) = stakeSum validators :=
  ((perm_of_getElem? found).map Validator.totalStakeAmount).sum_eq.symm

/-- The total stake goes down by the stake of the leaving validators. -/
def Accounted (set after : ValidatorSet) : Prop :=
  after.totalStake + stakeSum set.activeValidators =
    set.totalStake + stakeSum after.activeValidators

/-- A removal subtracts the stake of the validator that leaves. -/
theorem accounted_of_removeActive
    (removed : set.removeActive records epoch index = .ok (after, cleaned)) :
    set.Accounted after := by
  unfold removeActive at removed
  split at removed
  · cases removed
  · next validator found =>
    simp only [processValidatorDeparture, bind_eq_ok, U64.sub_eq_ok, pure_eq_ok, Prod.exists,
      Prod.mk.injEq] at removed
    obtain ⟨_, _, _, _, _, _, ⟨enough, rfl⟩, _, _, _, _, _, _, rfl, _⟩ := removed
    have sum := stakeSum_eraseIdx found
    unfold Accounted
    dsimp only at enough ⊢
    omega

theorem Accounted.keptByLeaving (set : ValidatorSet) (epoch : Nat) :
    KeptByLeaving epoch fun reached _ => set.Accounted reached where
  atRisk _ _ _ accounted := accounted
  removed reached records index after cleaned accounted removed := by
    have step := accounted_of_removeActive removed
    unfold Accounted at *
    omega

/-! ## Departures -/

/-- Every active validator can leave as far as its pool and the records are concerned. -/
structure Departable (registered : List ID) (set : ValidatorSet) (records : ReportRecords) :
    Prop where
  sound : (set.roster registered).Sound
  reporting : set.Reporting records
  running : ∀ validator ∈ set.activeValidators, validator.stakingPool.deactivationEpoch = none

/-- Leaving validators keep the others able to leave. -/
theorem Departable.keptByLeaving (registered : List ID) (epoch : Nat) :
    KeptByLeaving epoch (Departable registered) where
  atRisk _ _ _ departable :=
    ⟨departable.sound, { departable.reporting with }, departable.running⟩
  removed set records index after cleaned departable removed := by
    refine ⟨departable.sound.step (step_of_removeActive removed),
      (Reporting.keptByLeaving epoch).removed _ _ _ _ _ departable.reporting removed, ?_⟩
    rw [activeValidators_of_removeActive removed]
    exact fun validator listed => departable.running validator (mem_of_mem_eraseIdx listed)

section

variable {registered : List ID} (departable : Departable registered set records)

include departable

end

/-! ## All departures -/

end ValidatorSet

namespace SystemLedger

open Library
open VotingPower (stakeSum)

variable {ledger next : SystemLedger}

end SystemLedger
end Sui.System
