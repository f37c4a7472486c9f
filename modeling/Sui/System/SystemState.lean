import Sui.System.ValidatorSet

/-!
# The system state

The entry points of the system, as far as they concern validators and their
stake.  The sender of a transaction and the objects it uses are arguments.  The
rewards that an epoch change distributes are arguments as well: how they follow
from gas fees, subsidies and the storage fund does not matter for the validators.
-/

namespace Sui.System

open Library (require)

structure SystemParameters where
  minValidatorCount : Nat
  maxValidatorCount : Nat
  minValidatorJoiningStake : Nat
  lowStake : ValidatorSet.LowStake

structure SystemState where
  epoch : Nat
  validators : ValidatorSet
  parameters : SystemParameters
  validatorReportRecords : ReportRecords

/-- What can be changed of the keys and addresses of a validator. -/
inductive MetadataUpdate
  | networkAddress (address : Bytes)
  | p2pAddress (address : Bytes)
  | primaryAddress (address : Bytes)
  | workerAddress (address : Bytes)
  | protocolPubkey (protocolPubkey proofOfPossession : Bytes)
  | networkPubkey (networkPubkey : Bytes)
  | workerPubkey (workerPubkey : Bytes)

/-- What can be changed of the texts of a validator. -/
inductive TextUpdate
  | name (text : Bytes)
  | description (text : Bytes)
  | imageUrl (text : Bytes)
  | projectUrl (text : Bytes)

namespace SystemState

/-! ## Joining and leaving -/

/-- Register a candidate with a new pool and capability. -/
def requestAddValidatorCandidate (natives : Natives) (state : SystemState) (sender : Address)
    (info : ValidatorInfo) (gasPrice commissionRate : Nat)
    (poolId operationCapId : ID) : Program SystemState := do
  let validator ← Validator.new natives sender info gasPrice commissionRate poolId
    operationCapId
  let validators ← state.validators.requestAddValidatorCandidate validator
  pure { state with validators := validators }

def requestRemoveValidatorCandidate (state : SystemState) (sender : Address) :
    Program SystemState := do
  let validators ←
    state.validators.requestRemoveValidatorCandidate sender state.epoch
  pure { state with validators := validators }

def requestAddValidator (state : SystemState) (sender : Address) :
    Program SystemState := do
  let count ← state.validators.nextEpochValidatorCount
  require (count < state.parameters.maxValidatorCount) (Abort.systemState 1)
  let validators ← state.validators.requestAddValidator
    state.parameters.minValidatorJoiningStake sender
  pure { state with validators := validators }

/-- The next epoch has more validators than the least number, unless this one has
fewer already. -/
def checkMinValidatorCount (state : SystemState) : Program Unit :=
  if state.parameters.minValidatorCount ≤
      state.validators.activeValidators.length then do
    let count ← state.validators.nextEpochValidatorCount
    require (state.parameters.minValidatorCount < count) (Abort.systemState 1)
  else
    pure ()

def requestRemoveValidator (state : SystemState) (sender : Address) :
    Program SystemState := do
  state.checkMinValidatorCount
  let validators ← state.validators.requestRemoveValidator sender
  pure { state with validators := validators }

/-! ## Settings of validators -/

/-- Change an active, a pending or, if they are included, a candidate validator. -/
def modifyValidator (state : SystemState) (address : Address) (includeCandidate : Bool)
    (update : Validator → Program Validator) : Program SystemState := do
  let (_, validators) ←
    state.validators.getActiveOrPendingOrCandidateValidatorMut address
      includeCandidate fun validator => Prod.mk () <$> update validator
  pure { state with validators := validators }

def requestSetGasPrice (state : SystemState)
    (cap : UnverifiedValidatorOperationCap) (newGasPrice : Nat) :
    Program SystemState := do
  let address ← state.validators.verifyCap cap .activeOrPendingValidator
  state.modifyValidator address false fun validator =>
    validator.requestSetGasPrice address newGasPrice

def setCandidateValidatorGasPrice (state : SystemState)
    (cap : UnverifiedValidatorOperationCap) (newGasPrice : Nat) :
    Program SystemState := do
  let address ← state.validators.verifyCap cap .anyValidator
  state.modifyValidator address true fun validator =>
    validator.setCandidateGasPrice address newGasPrice

def requestSetCommissionRate (state : SystemState) (newCommissionRate : Nat)
    (sender : Address) : Program SystemState := do
  let validators ←
    state.validators.requestSetCommissionRate newCommissionRate sender
  pure { state with validators := validators }

def setCandidateValidatorCommissionRate (state : SystemState)
    (newCommissionRate : Nat) (sender : Address) : Program SystemState :=
  state.modifyValidator sender true fun validator =>
    validator.setCandidateCommissionRate newCommissionRate

/-- Replace the operation capability of the sender. -/
def rotateOperationCap (state : SystemState) (sender : Address) (newId : ID) :
    Program SystemState :=
  state.modifyValidator sender true fun validator =>
    validator.newUnverifiedValidatorOperationCapAndTransfer sender newId

def updateValidatorName (state : SystemState) (name : Bytes) (sender : Address) :
    Program SystemState :=
  state.modifyValidator sender true fun validator => validator.updateName name

def updateValidatorDescription (state : SystemState) (description : Bytes)
    (sender : Address) : Program SystemState :=
  state.modifyValidator sender true fun validator =>
    validator.updateDescription description

def updateValidatorImageUrl (state : SystemState) (imageUrl : Bytes)
    (sender : Address) : Program SystemState :=
  state.modifyValidator sender true fun validator =>
    validator.updateImageUrl imageUrl

def updateValidatorProjectUrl (state : SystemState) (projectUrl : Bytes)
    (sender : Address) : Program SystemState :=
  state.modifyValidator sender true fun validator =>
    validator.updateProjectUrl projectUrl

/-- Stage a change of an active or pending validator.  It must not become a
duplicate. -/
def stageUnique (state : SystemState) (sender : Address)
    (update : Validator → Program Validator) : Program SystemState := do
  let (validator, validators) ←
    state.validators.getActiveOrPendingOrCandidateValidatorMut sender false
      fun validator => (fun updated => (updated, updated)) <$> update validator
  validators.assertNoPendingOrActiveDuplicates validator
  pure { state with validators := validators }

variable (natives : Natives)

def updateValidatorNextEpochNetworkAddress (state : SystemState)
    (networkAddress : Bytes) (sender : Address) : Program SystemState :=
  state.stageUnique sender fun validator =>
    validator.updateNextEpochNetworkAddress natives networkAddress

def updateCandidateValidatorNetworkAddress (state : SystemState)
    (networkAddress : Bytes) (sender : Address) : Program SystemState :=
  state.modifyValidator sender true fun validator =>
    validator.updateCandidateNetworkAddress natives networkAddress

def updateValidatorNextEpochP2pAddress (state : SystemState)
    (p2pAddress : Bytes) (sender : Address) : Program SystemState :=
  state.stageUnique sender fun validator =>
    validator.updateNextEpochP2pAddress natives p2pAddress

def updateCandidateValidatorP2pAddress (state : SystemState)
    (p2pAddress : Bytes) (sender : Address) : Program SystemState :=
  state.modifyValidator sender true fun validator =>
    validator.updateCandidateP2pAddress natives p2pAddress

/-- Unlike the other changes of the next epoch, this one and the next one are not
checked for duplicates. -/
def updateValidatorNextEpochPrimaryAddress (state : SystemState)
    (primaryAddress : Bytes) (sender : Address) : Program SystemState :=
  state.modifyValidator sender false fun validator =>
    validator.updateNextEpochPrimaryAddress natives primaryAddress

def updateCandidateValidatorPrimaryAddress (state : SystemState)
    (primaryAddress : Bytes) (sender : Address) : Program SystemState :=
  state.modifyValidator sender true fun validator =>
    validator.updateCandidatePrimaryAddress natives primaryAddress

def updateValidatorNextEpochWorkerAddress (state : SystemState)
    (workerAddress : Bytes) (sender : Address) : Program SystemState :=
  state.modifyValidator sender false fun validator =>
    validator.updateNextEpochWorkerAddress natives workerAddress

def updateCandidateValidatorWorkerAddress (state : SystemState)
    (workerAddress : Bytes) (sender : Address) : Program SystemState :=
  state.modifyValidator sender true fun validator =>
    validator.updateCandidateWorkerAddress natives workerAddress

def updateValidatorNextEpochProtocolPubkey (state : SystemState)
    (protocolPubkey proofOfPossession : Bytes) (sender : Address) :
    Program SystemState :=
  state.stageUnique sender fun validator =>
    validator.updateNextEpochProtocolPubkey natives protocolPubkey proofOfPossession

def updateCandidateValidatorProtocolPubkey (state : SystemState)
    (protocolPubkey proofOfPossession : Bytes) (sender : Address) :
    Program SystemState :=
  state.modifyValidator sender true fun validator =>
    validator.updateCandidateProtocolPubkey natives protocolPubkey proofOfPossession

def updateValidatorNextEpochWorkerPubkey (state : SystemState)
    (workerPubkey : Bytes) (sender : Address) : Program SystemState :=
  state.stageUnique sender fun validator =>
    validator.updateNextEpochWorkerPubkey natives workerPubkey

def updateCandidateValidatorWorkerPubkey (state : SystemState)
    (workerPubkey : Bytes) (sender : Address) : Program SystemState :=
  state.modifyValidator sender true fun validator =>
    validator.updateCandidateWorkerPubkey natives workerPubkey

def updateValidatorNextEpochNetworkPubkey (state : SystemState)
    (networkPubkey : Bytes) (sender : Address) : Program SystemState :=
  state.stageUnique sender fun validator =>
    validator.updateNextEpochNetworkPubkey natives networkPubkey

def updateCandidateValidatorNetworkPubkey (state : SystemState)
    (networkPubkey : Bytes) (sender : Address) : Program SystemState :=
  state.modifyValidator sender true fun validator =>
    validator.updateCandidateNetworkPubkey natives networkPubkey

/-- Stage a change of keys or addresses. -/
def updateValidatorNextEpoch (state : SystemState) (sender : Address) :
    MetadataUpdate → Program SystemState
  | .networkAddress address =>
    state.updateValidatorNextEpochNetworkAddress natives address sender
  | .p2pAddress address =>
    state.updateValidatorNextEpochP2pAddress natives address sender
  | .primaryAddress address =>
    state.updateValidatorNextEpochPrimaryAddress natives address sender
  | .workerAddress address =>
    state.updateValidatorNextEpochWorkerAddress natives address sender
  | .protocolPubkey key proof =>
    state.updateValidatorNextEpochProtocolPubkey natives key proof sender
  | .networkPubkey key =>
    state.updateValidatorNextEpochNetworkPubkey natives key sender
  | .workerPubkey key =>
    state.updateValidatorNextEpochWorkerPubkey natives key sender

/-- Change keys or addresses at once. -/
def updateCandidateValidator (state : SystemState) (sender : Address) :
    MetadataUpdate → Program SystemState
  | .networkAddress address =>
    state.updateCandidateValidatorNetworkAddress natives address sender
  | .p2pAddress address =>
    state.updateCandidateValidatorP2pAddress natives address sender
  | .primaryAddress address =>
    state.updateCandidateValidatorPrimaryAddress natives address sender
  | .workerAddress address =>
    state.updateCandidateValidatorWorkerAddress natives address sender
  | .protocolPubkey key proof =>
    state.updateCandidateValidatorProtocolPubkey natives key proof sender
  | .networkPubkey key =>
    state.updateCandidateValidatorNetworkPubkey natives key sender
  | .workerPubkey key =>
    state.updateCandidateValidatorWorkerPubkey natives key sender

/-- Change a text. -/
def updateValidatorText (state : SystemState) (sender : Address) :
    TextUpdate → Program SystemState
  | .name text => state.updateValidatorName text sender
  | .description text => state.updateValidatorDescription text sender
  | .imageUrl text => state.updateValidatorImageUrl text sender
  | .projectUrl text => state.updateValidatorProjectUrl text sender

/-! ## Stake -/

def requestAddStake (state : SystemState) (stake : Nat)
    (validatorAddress : Address) : Program (StakedSui × SystemState) := do
  let (stakedSui, validators) ←
    state.validators.requestAddStake validatorAddress stake state.epoch
  pure (stakedSui, { state with validators := validators })

def requestWithdrawStake (state : SystemState) (stakedSui : StakedSui) :
    Program (Nat × SystemState) := do
  require (stakedSui.stakeActivationEpoch ≤ state.epoch) (Abort.systemState 6)
  let (amount, validators) ←
    state.validators.requestWithdrawStake stakedSui state.epoch
  pure (amount, { state with validators := validators })

/-! ## Reports -/

def reportValidatorImpl (reporter reportee : Address) (records : ReportRecords) :
    Program ReportRecords := do
  require (reporter ≠ reportee) (Abort.systemState 3)
  if VecMap.contains records reportee then do
    let reporters ← VecMap.get records reportee
    if reporter ∈ reporters then
      pure records
    else
      pure (VecMap.set records reportee (reporters ++ [reporter]))
  else
    VecMap.insert records reportee [reporter]

def undoReportValidatorImpl (reporter reportee : Address)
    (records : ReportRecords) : Program ReportRecords := do
  require (VecMap.contains records reportee = true) (Abort.systemState 4)
  let reporters ← VecMap.get records reportee
  require (reporter ∈ reporters) (Abort.systemState 4)
  let reporters ← VecSet.remove reporters reporter
  let records := VecMap.set records reportee reporters
  if reporters.isEmpty then VecMap.remove records reportee else pure records

/-- An active validator reports another one. -/
def reportValidator (state : SystemState) (cap : UnverifiedValidatorOperationCap)
    (reportee : Address) : Program SystemState := do
  require (state.validators.isActiveValidatorBySuiAddress reportee = true)
    (Abort.systemState 0)
  let reporter ← state.validators.verifyCap cap .activeValidatorOnly
  let records ← reportValidatorImpl reporter reportee state.validatorReportRecords
  pure { state with validatorReportRecords := records }

/-- An active validator takes back a report. -/
def undoReportValidator (state : SystemState)
    (cap : UnverifiedValidatorOperationCap) (reportee : Address) :
    Program SystemState := do
  let reporter ← state.validators.verifyCap cap .activeValidatorOnly
  let records ←
    undoReportValidatorImpl reporter reportee state.validatorReportRecords
  pure { state with validatorReportRecords := records }

/-! ## Epochs -/

/-- End the epoch.  The stakes that validators receive as rewards are
returned. -/
def advanceEpoch (state : SystemState)
    (computationReward storageFundReward rewardSlashingRate : Nat) :
    Program (List StakedSui × SystemState) := do
  require (rewardSlashingRate ≤ ValidatorSet.basisPointDenominator)
    (Abort.systemState 5)
  let (stakes, validators, records) ←
    ValidatorSet.advanceEpoch state.parameters.lowStake state.validators
      state.validatorReportRecords computationReward storageFundReward
      rewardSlashingRate state.epoch
  pure (stakes,
    { state with
      epoch := state.epoch + 1
      validators := validators
      validatorReportRecords := records })

/-- End the epoch after ending it regularly has failed.  Nothing is processed. -/
def advanceEpochSafeMode (state : SystemState) : SystemState :=
  { state with epoch := state.epoch + 1 }

end SystemState

/-! ## Genesis -/

structure GenesisValidatorMetadata where
  suiAddress : Address
  info : ValidatorInfo
  gasPrice : Nat
  commissionRate : Nat

namespace Genesis

/-- Create the validators of the genesis, which must not be duplicates.  Pools and
capabilities get the next identifiers. -/
def createValidators (natives : Natives) :
    List GenesisValidatorMetadata → List Validator → ID → Program (List Validator × ID)
  | [], validators, nextId => pure (validators, nextId)
  | metadata :: others, validators, nextId => do
    let validator ← Validator.new natives metadata.suiAddress metadata.info
      metadata.gasPrice metadata.commissionRate nextId (nextId + 1)
    require (ValidatorSet.isDuplicateValidator validators validator = false)
      (Abort.genesis 1)
    createValidators natives others (validators ++ [validator]) (nextId + 2)

/-- Stake the allocations, the last one first. -/
def allocateTokens : List (Address × Nat) → List Validator →
    Program (List StakedSui × List Validator)
  | [], validators => pure ([], validators)
  | (address, amount) :: allocations, validators => do
    let (stakes, validators) ← allocateTokens allocations validators
    match ValidatorSet.findValidator validators address with
    | none => .error (.validatorSet 4)
    | some index => do
      let (stake, validators) ← ValidatorSet.modifyAt validators index
        fun validator => validator.requestAddStakeAtGenesis amount 0
      pure (stake :: stakes, validators)

/-- The validator set of the genesis. -/
def newValidatorSet (validators : List Validator) : Program ValidatorSet := do
  let totalStake ← ValidatorSet.calculateTotalStakes validators
  let mappings ← validators.foldlM
    (fun mappings validator =>
      Table.add mappings validator.stakingPoolId validator.suiAddress)
    ∅
  let validators ← VotingPower.setVotingPower validators
  pure
    { totalStake := totalStake
      activeValidators := validators
      pendingActiveValidators := []
      pendingRemovals := []
      stakingPoolMappings := mappings
      inactiveValidators := ∅
      validatorCandidates := ∅
      atRiskValidators := [] }

/-- The system at genesis, with the stakes that are allocated and the next
identifier. -/
def create (natives : Natives) (parameters : SystemParameters)
    (genesisValidators : List GenesisValidatorMetadata) (allocations : List (Address × Nat)) :
    Program (List StakedSui × ID × SystemState) := do
  let (validators, nextId) ← createValidators natives genesisValidators [] 0
  let (stakes, validators) ← allocateTokens allocations validators
  let validators ← validators.mapM fun validator => validator.activate 0
  let set ← newValidatorSet validators
  pure (stakes, nextId, ⟨0, set, parameters, []⟩)

end Genesis

end Sui.System
