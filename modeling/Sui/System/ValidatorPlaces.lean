import Sui.System.Partition

/-!
# Every validator is in one place

In every reachable state, every validator that was ever registered is in exactly
one of the four tables of the validator set, and the tables fit together.

The active validators that leave at the end of an epoch are exactly those that
asked to leave and those whose stake is too low.  The positions of the former are
removed from the last one on, so that they stay valid, and low stake is looked for
in the same order.
-/

namespace Sui.System.ValidatorSet

open Library LowStake VecMap
open List hiding after count

/-- For how many epochs a validator has had low stake. -/
def epochsAtRisk (atRisk : VecMap Address Nat) (address : Address) : Nat :=
  ((atRisk.find address).map Prod.snd).getD 0

/-- Whether a validator has enough stake to stay.  With low stake, it stays as long
as the grace period is not over. -/
def LowStake.keeps (parameters : LowStake) (atRisk : VecMap Address Nat)
    (validator : Validator) : Bool :=
  parameters.lowStakeThreshold ≤ validator.totalStakeAmount ||
    (parameters.veryLowStakeThreshold ≤ validator.totalStakeAmount &&
      epochsAtRisk atRisk validator.suiAddress + 1 ≤ parameters.lowStakeGracePeriod)

/-- The active validators that did not ask to leave and have enough stake. -/
def remaining (set : ValidatorSet) (parameters : LowStake) : List Validator :=
  (set.activeValidators.zipIdx.filter fun (validator, index) =>
    index ∉ set.pendingRemovals ∧
      parameters.keeps set.atRiskValidators validator = true).map Prod.fst

variable {parameters : LowStake} {set after : ValidatorSet}
  {records cleaned : ReportRecords} {epoch : Nat}

/-! ## Requests to leave -/

section

variable (removed : set.removeActive records epoch index = .ok (after, cleaned))

include removed

theorem activeValidators_of_removeActive :
    after.activeValidators = set.activeValidators.eraseIdx index := by
  obtain ⟨_, _, _, _, _, _, _, _, rfl⟩ := removeActive_spec removed
  rfl

end

/-- The accounts of validators are distinct. -/
def Distinct (validators : List Validator) : Prop :=
  (validators.map Validator.suiAddress).Nodup

theorem Distinct.eraseIdx (distinct : Distinct validators) (index : Nat) :
    Distinct (validators.eraseIdx index) :=
  List.Nodup.sublist ((eraseIdx_sublist _ _).map _) distinct

end Sui.System.ValidatorSet

/-! ## Places -/

namespace Sui.System

open Library
open List hiding after
open Validator (suiAddress identity)
open Option (map_eq_some_iff some)

/-- A place for a validator. -/
inductive Place
  | active (index : Nat)
  | pending (index : Nat)
  | candidate (address : Address)
  | inactive (poolId : ID)
  deriving DecidableEq

/-- Whether a validator at the place has not departed. -/
def Place.present : Place → Bool
  | .active _ | .pending _ | .candidate _ => true
  | .inactive _ => false

/-- The validator at a place. -/
def ValidatorSet.validatorAt (set : ValidatorSet) : Place → Option Validator
  | .active index => set.activeValidators[index]?
  | .pending index => set.pendingActiveValidators[index]?
  | .candidate address => set.validatorCandidates[address]?
  | .inactive poolId => set.inactiveValidators[poolId]?

namespace ValidatorSet

variable {set : ValidatorSet} {registered : List ID}

section

variable (sound : (set.roster registered).Sound)

include sound

/-- The accounts of the members, in their order. -/
theorem nodup_accounts :
    (set.activeValidators.map suiAddress ++
      set.pendingActiveValidators.map suiAddress).Nodup := by
  have accounts := sound.accounts
  rw [roster, Multiset.map_coe, Multiset.coe_nodup, map_map, map_append] at accounts
  exact accounts

/-- A validator that has not departed is a member or a candidate under its own
account. -/
theorem member_or_candidate (present : place.present = true)
    (found : set.validatorAt place = some validator) :
    validator.identity ∈ (set.roster registered).members ∨
      (set.roster registered).candidates validator.suiAddress = some validator.identity := by
  cases place with
  | active index =>
    exact .inl (mem_map_of_mem (mem_append_left _ (mem_of_getElem? found)))
  | pending index =>
    exact .inl (mem_map_of_mem (mem_append_right _ (mem_of_getElem? found)))
  | candidate address =>
    have isCandidate : (set.roster registered).candidates address = some validator.identity :=
      map_eq_some_iff.mpr ⟨validator, found, rfl⟩
    have same : validator.suiAddress = address := sound.candidateKey address _ isCandidate
    rw [same]
    exact .inr isCandidate
  | inactive poolId => cases present

theorem mapped_of_present (present : place.present = true)
    (found : set.validatorAt place = some validator) :
    set.stakingPoolMappings[validator.stakingPoolId]? = some validator.suiAddress :=
  (sound.mapped _ _).mpr (member_or_candidate sound present found)

/-- A candidate has another account than the members. -/
theorem candidate_ne_member {address : Address}
    (found : set.validatorCandidates[address]? = some candidate)
    (listed : member ∈ set.activeValidators ++ set.pendingActiveValidators) :
    candidate.suiAddress ≠ member.suiAddress := by
  have isCandidate : (set.roster registered).candidates address = some candidate.identity :=
    map_eq_some_iff.mpr ⟨candidate, found, rfl⟩
  have isKey : candidate.suiAddress = address := sound.candidateKey address _ isCandidate
  intro same
  apply sound.apart address _ isCandidate
  rw [← isKey, same]
  exact Multiset.mem_map_of_mem Prod.fst (Multiset.mem_coe.mpr (mem_map_of_mem listed))

end

/-- An account is listed once. -/
theorem index_of_account {validators : List Validator} {left right : Nat}
    (distinct : (validators.map suiAddress).Nodup)
    (leftFound : validators[left]? = some validator) (rightFound : validators[right]? = some other)
    (same : validator.suiAddress = other.suiAddress) :
    left = right := by
  have inside : left < (validators.map suiAddress).length := by
    rw [length_map]
    exact (List.getElem?_eq_some_iff.mp leftFound).1
  apply (List.getElem?_inj inside distinct).mp
  rw [List.getElem?_map, List.getElem?_map, leftFound, rightFound]
  exact congrArg some same

/-- An account has one place among those that are not inactive. -/
theorem place_of_account (sound : (set.roster registered).Sound) {left right : Place}
    (leftPresent : left.present = true) (rightPresent : right.present = true)
    (leftFound : set.validatorAt left = some validator)
    (rightFound : set.validatorAt right = some other)
    (same : validator.suiAddress = other.suiAddress) :
    left = right := by
  obtain ⟨activeDistinct, pendingDistinct, apart⟩ := nodup_append.mp (nodup_accounts sound)
  have activeNePending {active pending : Validator} {index index' : Nat}
      (isActive : set.activeValidators[index]? = some active)
      (isPending : set.pendingActiveValidators[index']? = some pending) :
      active.suiAddress ≠ pending.suiAddress :=
    apart _ (mem_map_of_mem (mem_of_getElem? isActive)) _
      (mem_map_of_mem (mem_of_getElem? isPending))
  have activeListed {active : Validator} {index : Nat}
      (isActive : set.activeValidators[index]? = some active) :
      active ∈ set.activeValidators ++ set.pendingActiveValidators :=
    mem_append_left _ (mem_of_getElem? isActive)
  have pendingListed {pending : Validator} {index : Nat}
      (isPending : set.pendingActiveValidators[index]? = some pending) :
      pending ∈ set.activeValidators ++ set.pendingActiveValidators :=
    mem_append_right _ (mem_of_getElem? isPending)
  cases left with
  | active index =>
    cases right with
    | active index' =>
      rw [index_of_account activeDistinct leftFound rightFound same]
    | pending index' => exact absurd same (activeNePending leftFound rightFound)
    | candidate address =>
      exact absurd same.symm (candidate_ne_member sound rightFound (activeListed leftFound))
    | inactive => cases rightPresent
  | pending index =>
    cases right with
    | active index' =>
      exact absurd same.symm (activeNePending rightFound leftFound)
    | pending index' =>
      rw [index_of_account pendingDistinct leftFound rightFound same]
    | candidate address =>
      exact absurd same.symm (candidate_ne_member sound rightFound (pendingListed leftFound))
    | inactive => cases rightPresent
  | candidate address =>
    cases right with
    | active index' =>
      exact absurd same (candidate_ne_member sound leftFound (activeListed rightFound))
    | pending index' =>
      exact absurd same (candidate_ne_member sound leftFound (pendingListed rightFound))
    | candidate address' =>
      have leftKey := sound.candidateKey address _
        (map_eq_some_iff.mpr ⟨validator, leftFound, rfl⟩)
      have rightKey := sound.candidateKey address' _
        (map_eq_some_iff.mpr ⟨other, rightFound, rfl⟩)
      have sameKey : address = address' := by
        rw [← leftKey, ← rightKey]
        exact same
      rw [sameKey]
    | inactive => cases rightPresent
  | inactive => cases leftPresent

section

variable (sound : (set.roster registered).Sound)

include sound

/-- A validator that has departed is under its pool, which is not mapped. -/
theorem unmapped_of_inactive (found : set.inactiveValidators[poolId]? = some validator) :
    validator.stakingPoolId = poolId ∧ poolId ∈ registered ∧
      set.stakingPoolMappings[poolId]? = none := by
  have isDeparted : (set.roster registered).departed poolId = some validator.identity :=
    map_eq_some_iff.mpr ⟨validator, found, rfl⟩
  have isSome : ((set.roster registered).departed poolId).isSome = true := by
    rw [isDeparted]
    rfl
  exact ⟨sound.departedKey poolId _ isDeparted, (sound.departed poolId).mp isSome⟩

/-- A pool has one place. -/
theorem place_of_pool (leftFound : set.validatorAt left = some validator)
    (rightFound : set.validatorAt right = some other)
    (same : validator.stakingPoolId = other.stakingPoolId) :
    left = right := by
  have presentOrInactive (place : Place) :
      place.present = true ∨ ∃ poolId, place = .inactive poolId := by
    cases place with
    | active | pending | candidate => exact .inl rfl
    | inactive poolId => exact .inr ⟨poolId, rfl⟩
  have notBoth {present : Place} {poolId : ID} {here gone : Validator}
      (isPresent : present.present = true) (hereFound : set.validatorAt present = some here)
      (goneFound : set.validatorAt (.inactive poolId) = some gone)
      (samePool : here.stakingPoolId = gone.stakingPoolId) : False := by
    obtain ⟨isKey, _, unmapped⟩ := unmapped_of_inactive sound goneFound
    have mapped := mapped_of_present sound isPresent hereFound
    rw [samePool, isKey, unmapped] at mapped
    cases mapped
  rcases presentOrInactive left with leftPresent | ⟨poolId, rfl⟩
  · rcases presentOrInactive right with rightPresent | ⟨poolId, rfl⟩
    · have leftMapped := mapped_of_present sound leftPresent leftFound
      have rightMapped := mapped_of_present sound rightPresent rightFound
      rw [same, rightMapped] at leftMapped
      exact place_of_account sound leftPresent rightPresent leftFound rightFound
        (some.inj leftMapped).symm
    · exact absurd same fun samePool =>
        notBoth leftPresent leftFound rightFound samePool
  · rcases presentOrInactive right with rightPresent | ⟨poolId', rfl⟩
    · exact absurd same.symm fun samePool =>
        notBoth rightPresent rightFound leftFound samePool
    · rw [← (unmapped_of_inactive sound leftFound).1, same,
        (unmapped_of_inactive sound rightFound).1]

theorem registered_of_validatorAt (found : set.validatorAt place = some validator) :
    validator.stakingPoolId ∈ registered := by
  cases place with
  | active | pending | candidate =>
    exact sound.mappedRegistered _ _ (mapped_of_present sound rfl found)
  | inactive poolId =>
    obtain ⟨isKey, isRegistered, _⟩ := unmapped_of_inactive sound found
    rw [isKey]
    exact isRegistered

end

/-! ## Changes in place -/

/-- A replacement changes the validator at one place. -/
theorem Replaced.validatorAt (replaced : set.Replaced old new after) :
    ∃ changed, set.validatorAt changed = some old ∧
      ∀ place validator, after.validatorAt place = some validator →
        place = changed ∧ validator = new ∨
          place ≠ changed ∧ set.validatorAt place = some validator := by
  cases replaced with
  | active index found =>
    refine ⟨.active index, found, fun place validator isFound => ?_⟩
    cases place with
    | active other => simpa [ValidatorSet.validatorAt] using cases_of_getElem?_set isFound
    | pending | candidate | inactive => exact .inr ⟨nofun, isFound⟩
  | pending index found =>
    refine ⟨.pending index, found, fun place validator isFound => ?_⟩
    cases place with
    | pending other => simpa [ValidatorSet.validatorAt] using cases_of_getElem?_set isFound
    | active | candidate | inactive => exact .inr ⟨nofun, isFound⟩
  | candidate address found =>
    refine ⟨.candidate address, found, fun place validator isFound => ?_⟩
    cases place with
    | candidate other => simpa [ValidatorSet.validatorAt] using Map.cases_of_getElem?_insert isFound
    | active | pending | inactive => exact .inr ⟨nofun, isFound⟩
  | inactive poolId found =>
    refine ⟨.inactive poolId, found, fun place validator isFound => ?_⟩
    cases place with
    | inactive other => simpa [ValidatorSet.validatorAt] using Map.cases_of_getElem?_insert isFound
    | active | pending | candidate => exact .inr ⟨nofun, isFound⟩

/-! ## The end of an epoch -/

end ValidatorSet

namespace SystemLedger

variable {natives : Natives} {ledger next : SystemLedger}

/-- What pending validators become does not move anybody. -/
theorem Placed.entered {entered : ValidatorSet} {stakes : List StakedSui} (placed : ledger.Placed)
    (hasEntered : ledger.validators.enterEpoch records computationReward storageFundReward
      rewardSlashingRate epoch = .ok (stakes, entered)) :
    (entered.roster ledger.registered).Sound ∧ ValidatorSet.Distinct entered.activeValidators := by
  have sound : (entered.roster ledger.registered).Sound := by
    rw [ValidatorSet.roster_of_enterEpoch hasEntered]
    exact placed.sound
  exact ⟨sound, (nodup_append.mp (ValidatorSet.nodup_accounts sound)).1⟩

end SystemLedger

end Sui.System
