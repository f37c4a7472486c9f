import Sui.Library.Run
import Sui.System.EpochPhases

/-!
# Runs of the system

The system with all stakes outside of it.  Anyone can call the entry points with
any arguments, in any order; a call that aborts changes nothing.  New pools and
capabilities get identifiers that were never used.

Every action has one of a few effects, which are described once.
-/

namespace Sui.System

open Library
open Std (ExtTreeMap)

/-- The system with the stakes that stakers hold. -/
structure SystemLedger where
  state : SystemState
  stakes : List StakedSui
  nextId : ID
  /-- The pools of all validators that were ever registered. -/
  registered : List ID

namespace SystemLedger

abbrev validators (ledger : SystemLedger) : ValidatorSet :=
  ledger.state.validators

/-- The ledger with other validators. -/
def withValidators (ledger : SystemLedger) (set : ValidatorSet) : SystemLedger :=
  { ledger with state := { ledger.state with validators := set } }

/-- What users, validators and the protocol do. -/
inductive Action
  | requestAddValidatorCandidate (sender : Address) (info : ValidatorInfo)
      (gasPrice commissionRate : Nat)
  | requestRemoveValidatorCandidate (sender : Address)
  | requestAddValidator (sender : Address)
  | requestRemoveValidator (sender : Address)
  | requestSetGasPrice (cap : UnverifiedValidatorOperationCap) (newGasPrice : Nat)
  | setCandidateValidatorGasPrice (cap : UnverifiedValidatorOperationCap)
      (newGasPrice : Nat)
  | requestSetCommissionRate (newCommissionRate : Nat) (sender : Address)
  | setCandidateValidatorCommissionRate (newCommissionRate : Nat)
      (sender : Address)
  | rotateOperationCap (sender : Address)
  | updateValidatorText (sender : Address) (update : TextUpdate)
  | updateValidatorNextEpoch (sender : Address) (update : MetadataUpdate)
  | updateCandidateValidator (sender : Address) (update : MetadataUpdate)
  | requestAddStake (stake : Nat) (validatorAddress : Address)
  | requestWithdrawStake (stakedSui : StakedSui)
  | split (stakedSui : StakedSui) (amount : Nat)
  | joinStakedSui (left right : StakedSui)
  | reportValidator (cap : UnverifiedValidatorOperationCap) (reportee : Address)
  | undoReportValidator (cap : UnverifiedValidatorOperationCap)
      (reportee : Address)
  | advanceEpoch (computationReward storageFundReward rewardSlashingRate : Nat)
  | advanceEpochSafeMode

/-- Perform a call that changes the state only. -/
def call (ledger : SystemLedger) (program : Program SystemState) :
    Option SystemLedger :=
  program.toOption.map fun state => { ledger with state := state }

/-- Perform an action.  If it aborts, nothing happens. -/
def perform (natives : Natives) (ledger : SystemLedger) :
    Action → Option SystemLedger
  | .requestAddValidatorCandidate sender info gasPrice commissionRate =>
    (ledger.state.requestAddValidatorCandidate natives sender info gasPrice
      commissionRate ledger.nextId (ledger.nextId + 1)).toOption.map
        fun state =>
          { ledger with
            state := state
            nextId := ledger.nextId + 2
            registered := ledger.nextId :: ledger.registered }
  | .rotateOperationCap sender =>
    (ledger.state.rotateOperationCap sender ledger.nextId).toOption.map
      fun state => { ledger with state := state, nextId := ledger.nextId + 1 }
  | .requestAddStake stake validatorAddress =>
    (ledger.state.requestAddStake stake validatorAddress).toOption.map
      fun (stakedSui, state) =>
        { ledger with state := state, stakes := stakedSui :: ledger.stakes }
  | .requestWithdrawStake stakedSui =>
    if stakedSui ∈ ledger.stakes then
      (ledger.state.requestWithdrawStake stakedSui).toOption.map
        fun (_, state) =>
          { ledger with
            state := state
            stakes := ledger.stakes.erase stakedSui }
    else
      none
  | .split stakedSui amount =>
    if stakedSui ∈ ledger.stakes then
      (stakedSui.split amount).toOption.map fun (rest, part) =>
        { ledger with
          stakes := rest :: part :: ledger.stakes.erase stakedSui }
    else
      none
  | .joinStakedSui left right =>
    if left ∈ ledger.stakes ∧ right ∈ ledger.stakes.erase left then
      (left.joinStakedSui right).toOption.map fun joined =>
        { ledger with
          stakes := joined :: (ledger.stakes.erase left).erase right }
    else
      none
  | .advanceEpoch computationReward storageFundReward rewardSlashingRate =>
    (ledger.state.advanceEpoch computationReward storageFundReward
      rewardSlashingRate).toOption.map fun (stakes, state) =>
        { ledger with state := state, stakes := stakes ++ ledger.stakes }
  | .requestRemoveValidatorCandidate sender =>
    ledger.call (ledger.state.requestRemoveValidatorCandidate sender)
  | .requestAddValidator sender =>
    ledger.call (ledger.state.requestAddValidator sender)
  | .requestRemoveValidator sender =>
    ledger.call (ledger.state.requestRemoveValidator sender)
  | .requestSetGasPrice cap newGasPrice =>
    ledger.call (ledger.state.requestSetGasPrice cap newGasPrice)
  | .setCandidateValidatorGasPrice cap newGasPrice =>
    ledger.call (ledger.state.setCandidateValidatorGasPrice cap newGasPrice)
  | .requestSetCommissionRate newCommissionRate sender =>
    ledger.call (ledger.state.requestSetCommissionRate newCommissionRate sender)
  | .setCandidateValidatorCommissionRate newCommissionRate sender =>
    ledger.call (ledger.state.setCandidateValidatorCommissionRate newCommissionRate sender)
  | .updateValidatorText sender update =>
    ledger.call (ledger.state.updateValidatorText sender update)
  | .updateValidatorNextEpoch sender update =>
    ledger.call (ledger.state.updateValidatorNextEpoch natives sender update)
  | .updateCandidateValidator sender update =>
    ledger.call (ledger.state.updateCandidateValidator natives sender update)
  | .reportValidator cap reportee =>
    ledger.call (ledger.state.reportValidator cap reportee)
  | .undoReportValidator cap reportee =>
    ledger.call (ledger.state.undoReportValidator cap reportee)
  | .advanceEpochSafeMode =>
    ledger.call (pure ledger.state.advanceEpochSafeMode)

/-- The ledger at genesis. -/
def genesis (natives : Natives) (parameters : SystemParameters)
    (genesisValidators : List GenesisValidatorMetadata)
    (allocations : List (Address × Nat)) : Option SystemLedger :=
  (Genesis.create natives parameters genesisValidators allocations).toOption.map
    fun (stakes, nextId, state) =>
      { state := state
        stakes := stakes
        nextId := nextId
        registered := state.validators.activeValidators.map
          Validator.stakingPoolId }

/-- The states that allowed actions lead to from a genesis. -/
def Reachable (natives : Natives) (allowed : SystemLedger → Action → Prop)
    (ledger : SystemLedger) : Prop :=
  ∃ parameters genesisValidators allocations start,
    genesis natives parameters genesisValidators allocations = some start ∧
      Run (perform natives) allowed start ledger

end SystemLedger

/-! ## A small system -/

/-- The natives that accept all metadata. -/
def Natives.accepting : Natives where
  validateMetadata _ := pure ()

/-- Metadata with one byte everywhere. -/
def ValidatorInfo.uniform (byte : UInt8) : ValidatorInfo :=
  ⟨[byte], [byte], [byte], [byte], [byte], [byte], [byte], [byte], [byte], [byte], [byte], [byte]⟩

namespace SystemLedger

/-- Two validators with ten billion units of stake each.  Three billion units are
needed to join. -/
def small : Option SystemLedger :=
  genesis .accepting ⟨1, 150, 3000000000, ⟨2000000000, 1000000000, 2⟩⟩
    [⟨0, .uniform 0, 1, 0⟩, ⟨1, .uniform 1, 1, 0⟩]
    [(0, 10000000000), (1, 10000000000)]

/-- A ledger that is reached by a list of allowed actions. -/
theorem exists_reachable (allowed : SystemLedger → Action → Prop)
    [∀ ledger action, Decidable (allowed ledger action)] (actions : List Action)
    (property : SystemLedger → Prop) [DecidablePred property]
    (holds : (small.bind (performAll (perform .accepting) allowed actions)).any property = true) :
    ∃ ledger, Reachable .accepting allowed ledger ∧ property ledger := by
  obtain ⟨ledger, performed, holds⟩ := (Option.any_eq_true _ _).mp holds
  obtain ⟨start, started, performed⟩ := Option.bind_eq_some_iff.mp performed
  exact ⟨ledger, ⟨_, _, _, start, started, Run.performAll .refl performed⟩, of_decide_eq_true holds⟩

end SystemLedger

/-! ## Changes in place -/

/-- A validator is replaced where it is. -/
inductive ValidatorSet.Replaced (set : ValidatorSet) (old new : Validator) :
    ValidatorSet → Prop
  | active (index : Nat)
      (found : set.activeValidators[index]? = some old) :
      Replaced set old new
        { set with activeValidators := set.activeValidators.set index new }
  | pending (index : Nat)
      (found : set.pendingActiveValidators[index]? = some old) :
      Replaced set old new
        { set with
          pendingActiveValidators := set.pendingActiveValidators.set index new }
  | candidate (address : Address)
      (found : set.validatorCandidates[address]? = some old) :
      Replaced set old new
        { set with
          validatorCandidates := set.validatorCandidates.insert address new }
  | inactive (poolId : ID)
      (found : set.inactiveValidators[poolId]? = some old) :
      Replaced set old new
        { set with
          inactiveValidators := set.inactiveValidators.insert poolId new }

namespace ValidatorSet

variable {set after : ValidatorSet} {address : Address}
  {write : Validator → Program (β × Validator)} {result : β}

/-- What is written at an index of a list. -/
theorem modifyAt_spec {validators after : List Validator}
    (modified : modifyAt validators index write = .ok (result, after)) :
    ∃ old new, validators[index]? = some old ∧ write old = .ok (result, new) ∧
      after = validators.set index new := by
  unfold modifyAt at modified
  split at modified
  · cases modified
  · next old found =>
    obtain ⟨⟨_, new⟩, written, same⟩ := bind_eq_ok.mp modified
    cases same
    exact ⟨old, new, found, written, rfl⟩

/-- What is written at a key of a table. -/
theorem modifyEntry_spec {table after : ExtTreeMap Nat Validator}
    (modified : modifyEntry table key write = .ok (result, after)) :
    ∃ old new, table[key]? = some old ∧ write old = .ok (result, new) ∧
      after = table.insert key new := by
  simp only [modifyEntry, bind_eq_ok, Table.borrow_eq_ok,
    pure_eq_ok, Prod.exists, Prod.mk.injEq] at modified
  obtain ⟨old, found, _, new, written, rfl, rfl⟩ := modified
  exact ⟨old, new, found, written, rfl⟩

theorem suiAddress_of_findValidator (found : findValidator validators address = some index)
    (isValidator : validators[index]? = some validator) :
    validator.suiAddress = address := by
  obtain ⟨inside, isAddress, _⟩ := List.findIdx?_eq_some_iff_getElem.mp found
  rw [List.getElem?_eq_getElem inside] at isValidator
  cases isValidator
  simpa using isAddress

/-- One validator of the set is replaced. -/
theorem getCandidateOrActiveValidatorMut_spec
    (modified : set.getCandidateOrActiveValidatorMut address write = .ok (result, after)) :
    ∃ old new, write old = .ok (result, new) ∧ set.Replaced old new after := by
  unfold getCandidateOrActiveValidatorMut at modified
  split at modified
  · obtain ⟨⟨_, candidates⟩, entry, same⟩ := bind_eq_ok.mp modified
    cases same
    obtain ⟨old, new, found, written, rfl⟩ := modifyEntry_spec entry
    exact ⟨old, new, written, .candidate address found⟩
  · split at modified
    · cases modified
    · next index _ =>
      obtain ⟨⟨_, active⟩, entry, same⟩ := bind_eq_ok.mp modified
      cases same
      obtain ⟨old, new, found, written, rfl⟩ := modifyAt_spec entry
      exact ⟨old, new, written, .active index found⟩

/-- The validator that is changed has the given account, unless it is a
candidate. -/
theorem getActiveOrPendingOrCandidateValidatorMut_spec
    (modified : set.getActiveOrPendingOrCandidateValidatorMut address
      includeCandidate write = .ok (result, after)) :
    ∃ old new, write old = .ok (result, new) ∧ set.Replaced old new after ∧
      ((includeCandidate = true ∧ set.validatorCandidates[address]? = some old) ∨
        old.suiAddress = address) := by
  unfold getActiveOrPendingOrCandidateValidatorMut at modified
  split at modified
  · next index isIndex =>
    obtain ⟨⟨_, active⟩, entry, same⟩ := bind_eq_ok.mp modified
    cases same
    obtain ⟨old, new, found, written, rfl⟩ := modifyAt_spec entry
    exact ⟨old, new, written, .active index found, .inr (suiAddress_of_findValidator isIndex found)⟩
  · split at modified
    · next index isIndex =>
      obtain ⟨⟨_, pending⟩, entry, same⟩ := bind_eq_ok.mp modified
      cases same
      obtain ⟨old, new, found, written, rfl⟩ := modifyAt_spec entry
      exact ⟨old, new, written, .pending index found,
        .inr (suiAddress_of_findValidator isIndex found)⟩
    · simp only [bind_eq_ok, require_eq_ok, pure_eq_ok, Prod.exists, Prod.mk.injEq] at modified
      obtain ⟨_, included, _, candidates, entry, rfl, rfl⟩ := modified
      obtain ⟨old, new, found, written, rfl⟩ := modifyEntry_spec entry
      exact ⟨old, new, written, .candidate address found, .inl ⟨included, found⟩⟩

end ValidatorSet

end Sui.System
