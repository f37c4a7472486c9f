import Sui.System.SystemLedger

/-!
# Effects of the actions

Every action on the system has one of a few effects.  Most of them replace one
validator where it is; a few move a validator to another place.
-/

namespace Sui.System

open Library ValidatorSet

/-- A validator is edited without touching its account and its pool. -/
structure Validator.Edited (old new : Validator) : Prop where
  suiAddress : new.suiAddress = old.suiAddress
  stakingPool : new.stakingPool = old.stakingPool
  votingPower : new.votingPower = old.votingPower

/-- The principals of the stakes in a pool. -/
def principalOf (stakes : List StakedSui) (poolId : ID) : Nat :=
  groupWeight StakedSui.poolId StakedSui.principal stakes poolId

namespace Validator

variable {validator after : Validator} {natives : Natives}

/-! ## Edits of a validator -/

/-- Neither keys nor addresses that must be unique are edited. -/
def Harmless (old new : Validator) : Prop :=
  old.Edited new ∧ new.metadata.Within old.metadata

theorem requestSetGasPrice_harmless
    (done : validator.requestSetGasPrice capAddress newPrice = .ok after) :
    validator.Harmless after := by
  simp only [requestSetGasPrice, bind_eq_ok, require_eq_ok, pure_eq_ok] at done
  obtain ⟨_, _, _, _, rfl⟩ := done
  exact ⟨⟨rfl, rfl, rfl⟩, .refl _⟩

theorem setCandidateGasPrice_harmless
    (done : validator.setCandidateGasPrice capAddress newPrice = .ok after) :
    validator.Harmless after := by
  simp only [setCandidateGasPrice, bind_eq_ok, require_eq_ok, pure_eq_ok] at done
  obtain ⟨_, _, _, _, _, _, rfl⟩ := done
  exact ⟨⟨rfl, rfl, rfl⟩, .refl _⟩

theorem requestSetCommissionRate_harmless
    (done : validator.requestSetCommissionRate newCommissionRate = .ok after) :
    validator.Harmless after := by
  simp only [requestSetCommissionRate, bind_eq_ok, require_eq_ok, pure_eq_ok] at done
  obtain ⟨_, _, rfl⟩ := done
  exact ⟨⟨rfl, rfl, rfl⟩, .refl _⟩

theorem setCandidateCommissionRate_harmless
    (done : validator.setCandidateCommissionRate newCommissionRate = .ok after) :
    validator.Harmless after := by
  simp only [setCandidateCommissionRate, bind_eq_ok, require_eq_ok, pure_eq_ok] at done
  obtain ⟨_, _, _, _, rfl⟩ := done
  exact ⟨⟨rfl, rfl, rfl⟩, .refl _⟩

theorem newUnverifiedValidatorOperationCapAndTransfer_harmless
    (done : validator.newUnverifiedValidatorOperationCapAndTransfer sender newId = .ok after) :
    validator.Harmless after := by
  simp only [newUnverifiedValidatorOperationCapAndTransfer, bind_eq_ok,
    require_eq_ok, pure_eq_ok] at done
  obtain ⟨_, _, rfl⟩ := done
  exact ⟨⟨rfl, rfl, rfl⟩, .refl _⟩

theorem updateText_spec (done : updateText write validator text = .ok after) :
    after = { validator with metadata := write validator.metadata text } := by
  simp only [updateText, bind_eq_ok, require_eq_ok, asciiString_eq_ok, pure_eq_ok] at done
  obtain ⟨_, _, _, ⟨_, rfl⟩, rfl⟩ := done
  rfl

theorem updateMetadata_spec {metadata : ValidatorMetadata}
    (done : updateMetadata natives validator metadata = .ok after) :
    after = { validator with metadata := metadata } := by
  simp only [updateMetadata, bind_eq_ok, pure_eq_ok] at done
  obtain ⟨_, _, rfl⟩ := done
  rfl

theorem updateAddress_spec (done : updateAddress natives write validator address = .ok after) :
    after = { validator with metadata := write validator.metadata address } := by
  simp only [updateAddress, bind_eq_ok, require_eq_ok, asciiString_eq_ok] at done
  obtain ⟨_, _, _, ⟨_, rfl⟩, updated⟩ := done
  exact updateMetadata_spec updated

theorem updateCandidate_spec (done : updateCandidate update validator bytes = .ok after) :
    validator.isPreactive = true ∧ update validator bytes = .ok after := by
  simp only [updateCandidate, bind_eq_ok, require_eq_ok] at done
  obtain ⟨_, preactive, updated⟩ := done
  exact ⟨preactive, updated⟩

end Validator

/-- The program that a staged update runs on a validator. -/
def MetadataUpdate.stage (natives : Natives) (validator : Validator) :
    MetadataUpdate → Program Validator
  | .networkAddress address =>
    validator.updateNextEpochNetworkAddress natives address
  | .p2pAddress address => validator.updateNextEpochP2pAddress natives address
  | .primaryAddress address =>
    validator.updateNextEpochPrimaryAddress natives address
  | .workerAddress address =>
    validator.updateNextEpochWorkerAddress natives address
  | .protocolPubkey key proof =>
    validator.updateNextEpochProtocolPubkey natives key proof
  | .networkPubkey key => validator.updateNextEpochNetworkPubkey natives key
  | .workerPubkey key => validator.updateNextEpochWorkerPubkey natives key

/-- The program that a direct update runs on a validator. -/
def MetadataUpdate.overwrite (natives : Natives) (validator : Validator) :
    MetadataUpdate → Program Validator
  | .networkAddress address =>
    validator.updateCandidateNetworkAddress natives address
  | .p2pAddress address => validator.updateCandidateP2pAddress natives address
  | .primaryAddress address =>
    validator.updateCandidatePrimaryAddress natives address
  | .workerAddress address =>
    validator.updateCandidateWorkerAddress natives address
  | .protocolPubkey key proof =>
    validator.updateCandidateProtocolPubkey natives key proof
  | .networkPubkey key => validator.updateCandidateNetworkPubkey natives key
  | .workerPubkey key => validator.updateCandidateWorkerPubkey natives key

/-- Staging metadata keeps account, pool and voting power. -/
theorem MetadataUpdate.edited_of_stage {update : MetadataUpdate}
    (staged : update.stage natives validator = .ok after) :
    validator.Edited after := by
  cases update with
  | networkAddress | p2pAddress | primaryAddress | workerAddress =>
    dsimp only [stage, Validator.updateNextEpochNetworkAddress,
      Validator.updateNextEpochP2pAddress, Validator.updateNextEpochPrimaryAddress,
      Validator.updateNextEpochWorkerAddress] at staged
    obtain rfl := Validator.updateAddress_spec staged
    exact ⟨rfl, rfl, rfl⟩
  | protocolPubkey | networkPubkey | workerPubkey =>
    obtain rfl := Validator.updateMetadata_spec staged
    exact ⟨rfl, rfl, rfl⟩

/-- Overwriting metadata needs a pool that is not active yet, which it keeps. -/
theorem MetadataUpdate.edited_of_overwrite {update : MetadataUpdate}
    (overwritten : update.overwrite natives validator = .ok after) :
    validator.isPreactive = true ∧ validator.Edited after := by
  cases update with
  | networkAddress | p2pAddress | primaryAddress | workerAddress =>
    obtain ⟨preactive, updated⟩ := Validator.updateCandidate_spec overwritten
    obtain rfl := Validator.updateAddress_spec updated
    exact ⟨preactive, rfl, rfl, rfl⟩
  | protocolPubkey | networkPubkey | workerPubkey =>
    dsimp only [overwrite, Validator.updateCandidateProtocolPubkey,
      Validator.updateCandidateNetworkPubkey, Validator.updateCandidateWorkerPubkey] at overwritten
    obtain ⟨preactive, updated⟩ := Validator.updateCandidate_spec overwritten
    obtain rfl := Validator.updateMetadata_spec updated
    exact ⟨preactive, rfl, rfl, rfl⟩

namespace SystemState

variable {state after : SystemState} {natives : Natives} {sender : Address}

/-! ## Edits through the system -/

/-- What an update of the validator of an account replaces. -/
theorem modifyValidator_spec
    (done : state.modifyValidator sender includeCandidate update = .ok after) :
    ∃ old new set, update old = .ok new ∧ state.validators.Replaced old new set ∧
      (state.validators.validatorCandidates[sender]? = some old ∨ old.suiAddress = sender) ∧
      after = { state with validators := set } := by
  obtain ⟨⟨_, set⟩, modified, same⟩ := bind_eq_ok.mp done
  cases same
  obtain ⟨old, new, written, replaced, who⟩ :=
    getActiveOrPendingOrCandidateValidatorMut_spec modified
  obtain ⟨_, updated, same⟩ := map_eq_ok.mp written
  cases same
  exact ⟨old, new, set, updated, replaced, who.imp_left And.right, rfl⟩

/-- An update through the system that leaves unique keys and addresses alone. -/
theorem modifyValidator_harmless (harmless : ∀ old new, update old = .ok new → old.Harmless new)
    (done : state.modifyValidator sender includeCandidate update = .ok after) :
    ∃ old new set, old.Harmless new ∧ state.validators.Replaced old new set ∧
      after = { state with validators := set } := by
  obtain ⟨old, new, set, updated, replaced, _, rfl⟩ := modifyValidator_spec done
  exact ⟨old, new, set, harmless old new updated, replaced, rfl⟩

/-- A staged value that must be unique is checked after it was written. -/
theorem stageUnique_spec (done : state.stageUnique sender update = .ok after) :
    ∃ old new set, update old = .ok new ∧ state.validators.Replaced old new set ∧
      set.assertNoPendingOrActiveDuplicates new = .ok () ∧
      after = { state with validators := set } := by
  simp only [stageUnique, bind_eq_ok, pure_eq_ok, Prod.exists] at done
  obtain ⟨_, set, modified, _, unique, rfl⟩ := done
  obtain ⟨old, new, written, replaced, _⟩ := getActiveOrPendingOrCandidateValidatorMut_spec modified
  obtain ⟨_, updated, same⟩ := map_eq_ok.mp written
  cases same
  exact ⟨old, _, set, updated, replaced, unique, rfl⟩

/-- An update of a text is harmless. -/
theorem updateValidatorText_spec (done : state.updateValidatorText sender update = .ok after) :
    ∃ old new set, old.Harmless new ∧ state.validators.Replaced old new set ∧
      after = { state with validators := set } := by
  cases update with
  | name | description | imageUrl | projectUrl =>
    apply modifyValidator_harmless _ done
    intro old new updated
    obtain rfl := Validator.updateText_spec updated
    exact ⟨⟨rfl, rfl, rfl⟩, fun _ => id, fun _ => id, fun _ => id, fun _ => id⟩

/-- A staged update is checked for duplicates, unless it leaves unique keys and
addresses alone. -/
theorem updateValidatorNextEpoch_spec {update : MetadataUpdate}
    (done : state.updateValidatorNextEpoch natives sender update = .ok after) :
    ∃ old new set, old.Edited new ∧ state.validators.Replaced old new set ∧
      (new.metadata.Within old.metadata ∨
        set.assertNoPendingOrActiveDuplicates new = .ok ()) ∧
      after = { state with validators := set } := by
  have done : state.stageUnique sender (fun validator => update.stage natives validator) =
        .ok after ∨ ∃ (write : ValidatorMetadata → Bytes → ValidatorMetadata) (address : Bytes),
        (∀ metadata, (write metadata address).Within metadata ∧
          (write metadata address).suiAddress = metadata.suiAddress) ∧
        state.modifyValidator sender false (fun validator =>
          Validator.updateAddress natives write validator address) = .ok after := by
    cases update with
    | networkAddress | p2pAddress | protocolPubkey | networkPubkey | workerPubkey =>
      exact .inl done
    | primaryAddress address | workerAddress address =>
      exact .inr ⟨_, address,
        fun _ => ⟨⟨fun _ => id, fun _ => id, fun _ => id, fun _ => id⟩, rfl⟩, done⟩
  rcases done with staged | ⟨write, address, within, modified⟩
  · obtain ⟨old, new, set, updated, replaced, unique, rfl⟩ := stageUnique_spec staged
    exact ⟨old, new, set, update.edited_of_stage updated, replaced, .inr unique, rfl⟩
  · obtain ⟨old, new, set, updated, replaced, _, rfl⟩ := modifyValidator_spec modified
    obtain rfl := Validator.updateAddress_spec updated
    exact ⟨old, { old with metadata := write old.metadata address }, set,
      ⟨(within _).2, rfl, rfl⟩, replaced, .inl (within _).1, rfl⟩

/-- A direct update changes a validator that was never active. -/
theorem updateCandidateValidator_spec {update : MetadataUpdate}
    (done : state.updateCandidateValidator natives sender update = .ok after) :
    ∃ old new set, old.isPreactive = true ∧ old.Edited new ∧ state.validators.Replaced old new set ∧
      (state.validators.validatorCandidates[sender]? = some old ∨ old.suiAddress = sender) ∧
      after = { state with validators := set } := by
  have modified : state.modifyValidator sender true
      (fun validator => update.overwrite natives validator) = .ok after := by
    cases update <;> exact done
  obtain ⟨old, new, set, updated, replaced, who, rfl⟩ := modifyValidator_spec modified
  obtain ⟨preactive, edited⟩ := update.edited_of_overwrite updated
  exact ⟨old, new, set, preactive, edited, replaced, who, rfl⟩

end SystemState

namespace SystemLedger

/-! ## Effects -/

/-- What an action can do to the ledger. -/
inductive Effect (ledger : SystemLedger) : Action → SystemLedger → Prop
  /-- A validator is edited, but not its unique keys and addresses. -/
  | edited {action : Action} {old new : Validator} {set : ValidatorSet}
      {nextId : ID}
      (replaced : ledger.validators.Replaced old new set)
      (harmless : old.Harmless new)
      (later : ledger.nextId ≤ nextId) :
      Effect ledger action { ledger.withValidators set with nextId := nextId }
  | staged {action : Action} {old new : Validator} {set : ValidatorSet}
      (replaced : ledger.validators.Replaced old new set)
      (edited : old.Edited new)
      (unique : set.assertNoPendingOrActiveDuplicates new = .ok ()) :
      Effect ledger action (ledger.withValidators set)
  /-- A validator that was never active changes keys or addresses. -/
  | overwritten {old new : Validator} {set : ValidatorSet}
      (sender : Address) (update : MetadataUpdate)
      (replaced : ledger.validators.Replaced old new set)
      (preactive : old.isPreactive = true)
      (edited : old.Edited new)
      (who : ledger.validators.validatorCandidates[sender]? = some old ∨ old.suiAddress = sender) :
      Effect ledger (.updateCandidateValidator sender update)
        (ledger.withValidators set)
  | addedStake {action : Action} {old new : Validator} {set : ValidatorSet}
      {amount : Nat} {stake : StakedSui}
      (replaced : ledger.validators.Replaced old new set)
      (requested : old.requestAddStake amount ledger.state.epoch = .ok (stake, new)) :
      Effect ledger action
        { ledger.withValidators set with stakes := stake :: ledger.stakes }
  | withdrew {action : Action} {old new : Validator} {set : ValidatorSet}
      {amount : Nat} {stake : StakedSui}
      (listed : stake ∈ ledger.stakes)
      (replaced : ledger.validators.Replaced old new set)
      (requested : old.requestWithdrawStake stake ledger.state.epoch = .ok (amount, new)) :
      Effect ledger action
        { ledger.withValidators set with stakes := ledger.stakes.erase stake }
  | regrouped {action : Action} {stakes : List StakedSui}
      (same : ∀ poolId, principalOf stakes poolId = principalOf ledger.stakes poolId)
      (pools : ∀ stake ∈ stakes, ∃ other ∈ ledger.stakes, stake.poolId = other.poolId) :
      Effect ledger action { ledger with stakes := stakes }
  | registered {action : Action} {validator : Validator}
      (pool : validator.stakingPool = .new ledger.nextId)
      (notActive : ledger.validators.isDuplicateWithActiveValidator validator = false)
      (notPending : ledger.validators.isDuplicateWithPendingValidator validator = false)
      (noCandidate : ledger.validators.validatorCandidates[validator.suiAddress]? = none) :
      Effect ledger action
        { ledger.withValidators
            { ledger.validators with
              stakingPoolMappings := ledger.validators.stakingPoolMappings.insert
                ledger.nextId validator.suiAddress
              validatorCandidates := ledger.validators.validatorCandidates.insert
                validator.suiAddress validator } with
          nextId := ledger.nextId + 2
          registered := ledger.nextId :: ledger.registered }
  | unregistered {action : Action} {validator inactive : Validator}
      (sender : Address)
      (found : ledger.validators.validatorCandidates[sender]? = some validator)
      (deactivated : validator.deactivate ledger.state.epoch = .ok inactive) :
      Effect ledger action
        (ledger.withValidators
          { ledger.validators with
            validatorCandidates :=
              ledger.validators.validatorCandidates.erase sender
            stakingPoolMappings := ledger.validators.stakingPoolMappings.erase
              validator.stakingPoolId
            inactiveValidators := ledger.validators.inactiveValidators.insert
              validator.stakingPoolId inactive })
  | joined {validator : Validator}
      (sender : Address)
      (found : ledger.validators.validatorCandidates[sender]? = some validator)
      (notActive : ledger.validators.isDuplicateWithActiveValidator validator = false)
      (notPending : ledger.validators.isDuplicateWithPendingValidator validator = false)
      (enough : ledger.state.parameters.minValidatorJoiningStake ≤ validator.totalStakeAmount) :
      Effect ledger (.requestAddValidator sender)
        (ledger.withValidators
          { ledger.validators with
            validatorCandidates :=
              ledger.validators.validatorCandidates.erase sender
            pendingActiveValidators :=
              ledger.validators.pendingActiveValidators ++ [validator] })
  | asked {action : Action} {index : Nat}
      (inside : index < ledger.validators.activeValidators.length)
      (new : index ∉ ledger.validators.pendingRemovals) :
      Effect ledger action
        (ledger.withValidators
          { ledger.validators with
            pendingRemovals := ledger.validators.pendingRemovals ++ [index] })
  | reported {action : Action} {reporter reportee : Address}
      {records : ReportRecords}
      (reporterActive : ∃ validator ∈ ledger.validators.activeValidators,
        validator.suiAddress = reporter)
      (reporteeActive : ∃ validator ∈ ledger.validators.activeValidators,
        validator.suiAddress = reportee)
      (done : SystemState.reportValidatorImpl reporter reportee
        ledger.state.validatorReportRecords = .ok records) :
      Effect ledger action
        { ledger with state := { ledger.state with
          validatorReportRecords := records } }
  | undone {action : Action} {reporter reportee : Address}
      {records : ReportRecords}
      (done : SystemState.undoReportValidatorImpl reporter reportee
        ledger.state.validatorReportRecords = .ok records) :
      Effect ledger action
        { ledger with state := { ledger.state with
          validatorReportRecords := records } }
  | advanced {computationReward storageFundReward rewardSlashingRate : Nat}
      {stakes : List StakedSui}
      {entered left settled : ValidatorSet} {records : ReportRecords}
      (hasEntered : ledger.validators.enterEpoch
        ledger.state.validatorReportRecords computationReward storageFundReward
        rewardSlashingRate ledger.state.epoch = .ok (stakes, entered))
      (hasLeft : ValidatorSet.leaveEpoch ledger.state.parameters.lowStake entered
        ledger.state.validatorReportRecords ledger.state.epoch = .ok (left, records))
      (hasSettled : left.settleEpoch = .ok settled) :
      Effect ledger
        (.advanceEpoch computationReward storageFundReward rewardSlashingRate)
        { ledger with
          stakes := stakes ++ ledger.stakes
          state := { ledger.state with
            epoch := ledger.state.epoch + 1
            validators := settled
            validatorReportRecords := records } }
  | safeMode {action : Action} :
      Effect ledger action
        { ledger with state := ledger.state.advanceEpochSafeMode }

variable {natives : Natives} {ledger next : SystemLedger} {action : Action}

/-- An edit that leaves unique keys and addresses alone. -/
theorem effect_of_harmless (performed : ledger.call program = some next)
    (harmless : ∀ after, program = .ok after → ∃ old new set,
      old.Harmless new ∧ ledger.validators.Replaced old new set ∧
        after = { ledger.state with validators := set }) :
    Effect ledger action next := by
  obtain ⟨state, done, rfl⟩ := map_toOption_eq_some.mp performed
  obtain ⟨old, new, set, isHarmless, replaced, rfl⟩ := harmless state done
  exact .edited replaced isHarmless le_rfl

/-- A new candidate gets a new pool. -/
theorem effect_of_registered (performed : ledger.perform natives
      (.requestAddValidatorCandidate sender info gasPrice commissionRate) = some next) :
    Effect ledger action next := by
  obtain ⟨state, done, rfl⟩ := map_toOption_eq_some.mp performed
  simp only [SystemState.requestAddValidatorCandidate, requestAddValidatorCandidate, bind_eq_ok,
    require_eq_ok, Table.add_eq_ok, pure_eq_ok] at done
  obtain ⟨validator, created, set, ⟨_, ⟨notActive, notPending⟩, _, noCandidate, _, _,
    _, ⟨_, rfl⟩, _, ⟨_, rfl⟩, rfl⟩, rfl⟩ := done
  obtain ⟨_, rfl⟩ := Validator.new_spec created
  exact .registered rfl notActive notPending noCandidate

/-- A candidate that is removed becomes inactive. -/
theorem effect_of_unregistered
    (performed : ledger.perform natives (.requestRemoveValidatorCandidate sender) = some next) :
    Effect ledger action next := by
  obtain ⟨state, done, rfl⟩ := map_toOption_eq_some.mp performed
  simp only [SystemState.requestRemoveValidatorCandidate,
    requestRemoveValidatorCandidate, bind_eq_ok,
    require_eq_ok, Table.remove_eq_ok, Table.add_eq_ok, pure_eq_ok, Prod.exists] at done
  obtain ⟨set, ⟨_, _, validator, _, ⟨found, rfl⟩, _, _, _, _, ⟨_, rfl⟩, inactive,
    deactivated, _, ⟨_, rfl⟩, rfl⟩, rfl⟩ := done
  exact .unregistered sender found deactivated

/-- What is checked before a candidate becomes pending. -/
theorem requestAddValidator_spec
    (performed : ledger.perform natives (.requestAddValidator sender) = some next) :
    ∃ validator, ledger.validators.validatorCandidates[sender]? = some validator ∧
      ledger.validators.isDuplicateWithActiveValidator validator = false ∧
      ledger.validators.isDuplicateWithPendingValidator validator = false ∧
      validator.isPreactive = true ∧
      ledger.state.parameters.minValidatorJoiningStake ≤ validator.totalStakeAmount ∧
      next = ledger.withValidators
        { ledger.validators with
          validatorCandidates :=
            ledger.validators.validatorCandidates.erase sender
          pendingActiveValidators :=
            ledger.validators.pendingActiveValidators ++ [validator] } := by
  obtain ⟨state, done, rfl⟩ := map_toOption_eq_some.mp performed
  simp only [SystemState.requestAddValidator, requestAddValidator,
    bind_eq_ok, require_eq_ok, Table.remove_eq_ok, pure_eq_ok, Prod.exists] at done
  obtain ⟨_, _, _, _, set, ⟨_, _, validator, _, ⟨found, rfl⟩, _,
    ⟨notActive, notPending⟩, _, never, _, enough, rfl⟩, rfl⟩ := done
  exact ⟨validator, found, notActive, notPending, never, enough, rfl⟩

/-- A request to leave is recorded once. -/
theorem effect_of_asked
    (performed : ledger.perform natives (.requestRemoveValidator sender) = some next) :
    Effect ledger action next := by
  obtain ⟨state, done, rfl⟩ := map_toOption_eq_some.mp performed
  simp only [SystemState.requestRemoveValidator, bind_eq_ok, pure_eq_ok] at done
  obtain ⟨_, _, set, requested, rfl⟩ := done
  unfold requestRemoveValidator at requested
  split at requested
  · cases requested
  · next index found =>
    simp only [bind_eq_ok, require_eq_ok, pure_eq_ok] at requested
    obtain ⟨_, new, rfl⟩ := requested
    obtain ⟨inside, _, _⟩ := List.findIdx?_eq_some_iff_getElem.mp found
    exact .asked inside new

/-- Setting a commission rate replaces one validator. -/
theorem effect_of_setCommissionRate (performed : ledger.perform natives
      (.requestSetCommissionRate newCommissionRate sender) = some next) :
    Effect ledger action next := by
  obtain ⟨state, done, rfl⟩ := map_toOption_eq_some.mp performed
  simp only [SystemState.requestSetCommissionRate, bind_eq_ok, pure_eq_ok] at done
  obtain ⟨set, requested, rfl⟩ := done
  unfold requestSetCommissionRate at requested
  split at requested
  · cases requested
  · next index _ =>
    obtain ⟨⟨_, active⟩, modified, same⟩ := bind_eq_ok.mp requested
    cases same
    obtain ⟨old, new, found, written, rfl⟩ := modifyAt_spec modified
    obtain ⟨_, updated, same⟩ := map_eq_ok.mp written
    cases same
    exact .edited (.active index found) (Validator.requestSetCommissionRate_harmless updated) le_rfl

/-- A new stake goes to the pool of its validator. -/
theorem effect_of_addedStake
    (performed : ledger.perform natives (.requestAddStake stake validatorAddress) = some next) :
    Effect ledger action next := by
  obtain ⟨⟨stakedSui, state⟩, done, rfl⟩ := map_toOption_eq_some.mp performed
  simp only [SystemState.requestAddStake, requestAddStake,
    bind_eq_ok, require_eq_ok, pure_eq_ok, Prod.exists, Prod.mk.injEq] at done
  obtain ⟨_, set, ⟨_, _, modified⟩, rfl, rfl⟩ := done
  obtain ⟨old, new, requested, replaced⟩ := getCandidateOrActiveValidatorMut_spec modified
  exact .addedStake replaced requested

/-- A withdrawal takes the stake from its pool. -/
theorem effect_of_withdrew
    (performed : ledger.perform natives (.requestWithdrawStake stakedSui) = some next) :
    Effect ledger action next := by
  obtain ⟨listed, performed⟩ := Option.ite_none_right_eq_some.mp performed
  obtain ⟨⟨amount, state⟩, done, rfl⟩ := map_toOption_eq_some.mp performed
  simp only [SystemState.requestWithdrawStake, bind_eq_ok,
    require_eq_ok, pure_eq_ok, Prod.exists, Prod.mk.injEq] at done
  obtain ⟨_, _, _, set, requested, rfl, rfl⟩ := done
  unfold requestWithdrawStake at requested
  split at requested
  · obtain ⟨old, new, withdrawn, replaced⟩ := getCandidateOrActiveValidatorMut_spec requested
    exact .withdrew listed replaced withdrawn
  · simp only [bind_eq_ok, require_eq_ok, pure_eq_ok, Prod.exists, Prod.mk.injEq] at requested
    obtain ⟨_, _, _, _, modified, rfl, rfl⟩ := requested
    obtain ⟨old, new, found, withdrawn, rfl⟩ := modifyEntry_spec modified
    exact .withdrew listed (.inactive _ found) withdrawn

/-- A split keeps pool and activation epoch. -/
theorem effect_of_split (performed : ledger.perform natives (.split stakedSui amount) = some next) :
    Effect ledger action next := by
  obtain ⟨listed, performed⟩ := Option.ite_none_right_eq_some.mp performed
  obtain ⟨⟨rest, part⟩, divided, rfl⟩ := map_toOption_eq_some.mp performed
  obtain ⟨enough, rfl, rfl⟩ := StakedSui.split_spec divided
  apply Effect.regrouped
  · intro poolId
    simp only [principalOf, groupWeight_cons, groupWeight_erase listed poolId]
    split <;> omega
  · simp only [List.forall_mem_cons]
    exact ⟨⟨stakedSui, listed, rfl⟩, ⟨stakedSui, listed, rfl⟩,
      fun stake isStake => ⟨stake, List.mem_of_mem_erase isStake, rfl⟩⟩

/-- A join keeps pool and activation epoch. -/
theorem effect_of_joinStakedSui
    (performed : ledger.perform natives (.joinStakedSui left right) = some next) :
    Effect ledger action next := by
  obtain ⟨listed, performed⟩ := Option.ite_none_right_eq_some.mp performed
  obtain ⟨joined, together, rfl⟩ := map_toOption_eq_some.mp performed
  obtain ⟨samePool, _, rfl⟩ := StakedSui.joinStakedSui_spec together
  apply Effect.regrouped
  · intro poolId
    simp only [principalOf, groupWeight_cons, groupWeight_erase listed.1 poolId,
      groupWeight_erase listed.2 poolId, samePool]
    split <;> omega
  · refine List.forall_mem_cons.mpr ⟨⟨left, listed.1, rfl⟩, fun stake isStake => ?_⟩
    exact ⟨stake, List.mem_of_mem_erase (List.mem_of_mem_erase isStake), rfl⟩

/-- A verified capability belongs to an active validator. -/
theorem active_of_verifyCap {set : ValidatorSet}
    (verified : set.verifyCap cap .activeValidatorOnly = .ok address) :
    ∃ validator ∈ set.activeValidators, validator.suiAddress = address := by
  simp only [verifyCap, if_true, bind_eq_ok, require_eq_ok, pure_eq_ok] at verified
  obtain ⟨validator, found, _, _, rfl⟩ := verified
  unfold getValidatorRef at found
  split at found
  · next isFound =>
    cases found
    exact ⟨validator, List.mem_of_find?_eq_some isFound, by simpa using List.find?_some isFound⟩
  · cases found

theorem active_of_isActive {set : ValidatorSet}
    (active : set.isActiveValidatorBySuiAddress address = true) :
    ∃ validator ∈ set.activeValidators, validator.suiAddress = address := by
  simpa [isActiveValidatorBySuiAddress, findValidator] using active

/-- Only an active validator reports another one. -/
theorem effect_of_reported
    (performed : ledger.perform natives (.reportValidator cap reportee) = some next) :
    Effect ledger action next := by
  obtain ⟨state, done, rfl⟩ := map_toOption_eq_some.mp performed
  simp only [SystemState.reportValidator, bind_eq_ok, require_eq_ok, pure_eq_ok] at done
  obtain ⟨_, active, reporter, verified, records, recorded, rfl⟩ := done
  exact .reported (active_of_verifyCap verified) (active_of_isActive active) recorded

theorem effect_of_undone
    (performed : ledger.perform natives (.undoReportValidator cap reportee) = some next) :
    Effect ledger action next := by
  obtain ⟨state, done, rfl⟩ := map_toOption_eq_some.mp performed
  simp only [SystemState.undoReportValidator, bind_eq_ok, pure_eq_ok] at done
  obtain ⟨reporter, _, records, removed, rfl⟩ := done
  exact .undone removed

/-- An epoch change enters, leaves and settles. -/
theorem phases_of_advanceEpoch (performed : ledger.perform natives
      (.advanceEpoch computationReward storageFundReward rewardSlashingRate) = some next) :
    ∃ stakes entered left records settled,
      ledger.validators.enterEpoch ledger.state.validatorReportRecords
          computationReward storageFundReward rewardSlashingRate
          ledger.state.epoch = .ok (stakes, entered) ∧
      leaveEpoch ledger.state.parameters.lowStake entered
          ledger.state.validatorReportRecords ledger.state.epoch =
        .ok (left, records) ∧
      left.settleEpoch = .ok settled ∧
      next =
        { ledger with
          stakes := stakes ++ ledger.stakes
          state := { ledger.state with
            epoch := ledger.state.epoch + 1
            validators := settled
            validatorReportRecords := records } } := by
  obtain ⟨⟨stakes, state⟩, done, rfl⟩ := map_toOption_eq_some.mp performed
  simp only [SystemState.advanceEpoch, advanceEpoch,
    bind_eq_ok, require_eq_ok, pure_eq_ok, Prod.exists, Prod.mk.injEq] at done
  obtain ⟨_, _, _, _, _, ⟨_, entered, hasEntered, left, records, hasLeft, settled,
    hasSettled, rfl, rfl, rfl⟩, rfl, rfl⟩ := done
  exact ⟨_, entered, left, _, settled, hasEntered, hasLeft, hasSettled, rfl⟩

/-- Every call has one of the effects. -/
theorem effect_of_perform (performed : ledger.perform natives action = some next) :
    Effect ledger action next := by
  cases action with
  | requestAddValidatorCandidate => exact effect_of_registered performed
  | requestRemoveValidatorCandidate => exact effect_of_unregistered performed
  | requestAddValidator sender =>
    obtain ⟨validator, found, notActive, notPending, _, enough, rfl⟩ :=
      requestAddValidator_spec performed
    exact .joined sender found notActive notPending enough
  | requestRemoveValidator => exact effect_of_asked performed
  | requestSetGasPrice =>
    apply effect_of_harmless performed
    intro after done
    obtain ⟨_, _, modified⟩ := bind_eq_ok.mp done
    exact SystemState.modifyValidator_harmless
      (fun _ _ => Validator.requestSetGasPrice_harmless) modified
  | setCandidateValidatorGasPrice =>
    apply effect_of_harmless performed
    intro after done
    obtain ⟨_, _, modified⟩ := bind_eq_ok.mp done
    exact SystemState.modifyValidator_harmless
      (fun _ _ => Validator.setCandidateGasPrice_harmless) modified
  | requestSetCommissionRate => exact effect_of_setCommissionRate performed
  | setCandidateValidatorCommissionRate =>
    apply effect_of_harmless performed
    exact fun _ => SystemState.modifyValidator_harmless
      fun _ _ => Validator.setCandidateCommissionRate_harmless
  | rotateOperationCap sender =>
    obtain ⟨state, done, rfl⟩ := map_toOption_eq_some.mp performed
    obtain ⟨old, new, set, harmless, replaced, rfl⟩ :=
      SystemState.modifyValidator_harmless (fun _ _ =>
        Validator.newUnverifiedValidatorOperationCapAndTransfer_harmless) done
    exact .edited replaced harmless (Nat.le_succ _)
  | updateValidatorText =>
    exact effect_of_harmless performed fun _ => SystemState.updateValidatorText_spec
  | updateValidatorNextEpoch sender update =>
    obtain ⟨state, done, rfl⟩ := map_toOption_eq_some.mp performed
    obtain ⟨old, new, set, edited, replaced, within | unique, rfl⟩ :=
      SystemState.updateValidatorNextEpoch_spec done
    · exact .edited replaced ⟨edited, within⟩ le_rfl
    · exact .staged replaced edited unique
  | updateCandidateValidator sender update =>
    obtain ⟨state, done, rfl⟩ := map_toOption_eq_some.mp performed
    obtain ⟨old, new, set, preactive, edited, replaced, who, rfl⟩ :=
      SystemState.updateCandidateValidator_spec done
    exact .overwritten sender update replaced preactive edited who
  | requestAddStake => exact effect_of_addedStake performed
  | requestWithdrawStake => exact effect_of_withdrew performed
  | split => exact effect_of_split performed
  | joinStakedSui => exact effect_of_joinStakedSui performed
  | reportValidator => exact effect_of_reported performed
  | undoReportValidator => exact effect_of_undone performed
  | advanceEpoch =>
    obtain ⟨_, _, _, _, _, hasEntered, hasLeft, hasSettled, rfl⟩ := phases_of_advanceEpoch performed
    exact .advanced hasEntered hasLeft hasSettled
  | advanceEpochSafeMode =>
    cases performed
    exact .safeMode

end SystemLedger

end Sui.System
