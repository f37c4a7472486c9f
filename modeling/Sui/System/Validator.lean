import Sui.System.StakingPool

/-!
# Validators

A validator has metadata, a staking pool and the parameters that it sets itself.
Keys and addresses can be staged for the next epoch; a validator that is not
active yet changes them directly.

The native function that checks the metadata is a parameter.
-/

namespace Sui.System

open Library

/-- What a validator publishes about itself. -/
structure ValidatorMetadata where
  suiAddress : Address
  protocolPubkeyBytes : Bytes
  networkPubkeyBytes : Bytes
  workerPubkeyBytes : Bytes
  proofOfPossession : Bytes
  name : Bytes
  description : Bytes
  imageUrl : Bytes
  projectUrl : Bytes
  netAddress : Bytes
  p2pAddress : Bytes
  primaryAddress : Bytes
  workerAddress : Bytes
  nextEpochProtocolPubkeyBytes : Option Bytes
  nextEpochProofOfPossession : Option Bytes
  nextEpochNetworkPubkeyBytes : Option Bytes
  nextEpochWorkerPubkeyBytes : Option Bytes
  nextEpochNetAddress : Option Bytes
  nextEpochP2pAddress : Option Bytes
  nextEpochPrimaryAddress : Option Bytes
  nextEpochWorkerAddress : Option Bytes
  deriving DecidableEq

/-- What a validator states when it registers. -/
structure ValidatorInfo where
  protocolPubkeyBytes : Bytes
  networkPubkeyBytes : Bytes
  workerPubkeyBytes : Bytes
  proofOfPossession : Bytes
  name : Bytes
  description : Bytes
  imageUrl : Bytes
  projectUrl : Bytes
  netAddress : Bytes
  p2pAddress : Bytes
  primaryAddress : Bytes
  workerAddress : Bytes
  deriving DecidableEq

def ValidatorMetadata.newMetadata (suiAddress : Address) (info : ValidatorInfo) :
    ValidatorMetadata where
  suiAddress := suiAddress
  protocolPubkeyBytes := info.protocolPubkeyBytes
  networkPubkeyBytes := info.networkPubkeyBytes
  workerPubkeyBytes := info.workerPubkeyBytes
  proofOfPossession := info.proofOfPossession
  name := info.name
  description := info.description
  imageUrl := info.imageUrl
  projectUrl := info.projectUrl
  netAddress := info.netAddress
  p2pAddress := info.p2pAddress
  primaryAddress := info.primaryAddress
  workerAddress := info.workerAddress
  nextEpochProtocolPubkeyBytes := none
  nextEpochProofOfPossession := none
  nextEpochNetworkPubkeyBytes := none
  nextEpochWorkerPubkeyBytes := none
  nextEpochNetAddress := none
  nextEpochP2pAddress := none
  nextEpochPrimaryAddress := none
  nextEpochWorkerAddress := none

structure Validator where
  metadata : ValidatorMetadata
  votingPower : Nat
  operationCapId : ID
  gasPrice : Nat
  stakingPool : StakingPool
  commissionRate : Nat
  nextEpochStake : Nat
  nextEpochGasPrice : Nat
  nextEpochCommissionRate : Nat

/-- The native functions of the validator module. -/
structure Natives where
  /-- The check of the keys, addresses and the proof of possession. -/
  validateMetadata : ValidatorMetadata → Program Unit

/-- The highest commission rate, in basis points. -/
def maxCommissionRate : Nat :=
  2000

/-- The bound on the length of texts and addresses. -/
def maxValidatorMetadataLength : Nat :=
  256

/-- The bound on the gas price. -/
def maxValidatorGasPrice : Nat :=
  100000

/-- A capability that a validator hands to an operator. -/
structure UnverifiedValidatorOperationCap where
  id : ID
  authorizerValidatorAddress : Address
  deriving DecidableEq

namespace Validator

/-- The account of the validator. -/
def suiAddress (validator : Validator) : Address :=
  validator.metadata.suiAddress

/-- The pool of the validator. -/
def stakingPoolId (validator : Validator) : ID :=
  validator.stakingPool.id

/-- Whether the validator was never active. -/
def isPreactive (validator : Validator) : Bool :=
  validator.stakingPool.isPreactive

/-- The stake of the validator. -/
def totalStakeAmount (validator : Validator) : Nat :=
  validator.stakingPool.suiBalance

/-- A new validator with checked metadata. -/
def newFromMetadata (metadata : ValidatorMetadata) (gasPrice commissionRate : Nat)
    (poolId operationCapId : ID) : Validator where
  metadata := metadata
  votingPower := 0
  operationCapId := operationCapId
  gasPrice := gasPrice
  stakingPool := .new poolId
  commissionRate := commissionRate
  nextEpochStake := 0
  nextEpochGasPrice := gasPrice
  nextEpochCommissionRate := commissionRate

/-- The texts and addresses as strings. -/
def asciiInfo (info : ValidatorInfo) : Program ValidatorInfo := do
  let name ← asciiString info.name
  let description ← asciiString info.description
  let imageUrl ← asciiString info.imageUrl
  let projectUrl ← asciiString info.projectUrl
  let netAddress ← asciiString info.netAddress
  let p2pAddress ← asciiString info.p2pAddress
  let primaryAddress ← asciiString info.primaryAddress
  let workerAddress ← asciiString info.workerAddress
  pure { info with
    name := name
    description := description
    imageUrl := imageUrl
    projectUrl := projectUrl
    netAddress := netAddress
    p2pAddress := p2pAddress
    primaryAddress := primaryAddress
    workerAddress := workerAddress }

/-- A new validator. -/
def new (natives : Natives) (suiAddress : Address) (info : ValidatorInfo)
    (gasPrice commissionRate : Nat) (poolId operationCapId : ID) : Program Validator := do
  require
    (info.netAddress.length ≤ maxValidatorMetadataLength ∧
      info.p2pAddress.length ≤ maxValidatorMetadataLength ∧
      info.primaryAddress.length ≤ maxValidatorMetadataLength ∧
      info.workerAddress.length ≤ maxValidatorMetadataLength ∧
      info.name.length ≤ maxValidatorMetadataLength ∧
      info.description.length ≤ maxValidatorMetadataLength ∧
      info.imageUrl.length ≤ maxValidatorMetadataLength ∧
      info.projectUrl.length ≤ maxValidatorMetadataLength)
    (Abort.validator 9)
  require (commissionRate ≤ maxCommissionRate) (Abort.validator 8)
  require (gasPrice < maxValidatorGasPrice) (Abort.validator 102)
  let info ← asciiInfo info
  let metadata := ValidatorMetadata.newMetadata suiAddress info
  natives.validateMetadata metadata
  pure (newFromMetadata metadata gasPrice commissionRate poolId operationCapId)

theorem eq_of_asciiInfo (converted : asciiInfo info = .ok strings) : strings = info := by
  simp only [asciiInfo, bind_eq_ok, asciiString_eq_ok, pure_eq_ok] at converted
  obtain ⟨_, ⟨_, rfl⟩, _, ⟨_, rfl⟩, _, ⟨_, rfl⟩, _, ⟨_, rfl⟩, _, ⟨_, rfl⟩, _,
    ⟨_, rfl⟩, _, ⟨_, rfl⟩, _, ⟨_, rfl⟩, rfl⟩ := converted
  rfl

/-- A new validator has valid metadata. -/
theorem new_spec {suiAddress : Address} {gasPrice commissionRate : Nat} {poolId operationCapId : ID}
    (created : new natives suiAddress info gasPrice commissionRate poolId
      operationCapId = .ok validator) :
    natives.validateMetadata (.newMetadata suiAddress info) = .ok () ∧
      validator = newFromMetadata (.newMetadata suiAddress info) gasPrice
        commissionRate poolId operationCapId := by
  simp only [new, bind_eq_ok, require_eq_ok, pure_eq_ok] at created
  obtain ⟨_, _, _, _, _, _, strings, converted, _, valid, rfl⟩ := created
  obtain rfl := eq_of_asciiInfo converted
  exact ⟨valid, rfl⟩

/-- Activate the pool of the validator. -/
def activate (validator : Validator) (activationEpoch : Nat) :
    Program Validator := do
  let stakingPool ← validator.stakingPool.activateStakingPool activationEpoch
  pure { validator with stakingPool := stakingPool }

/-- Deactivate the pool of the validator. -/
def deactivate (validator : Validator) (deactivationEpoch : Nat) :
    Program Validator := do
  let stakingPool ← validator.stakingPool.deactivateStakingPool deactivationEpoch
  pure { validator with stakingPool := stakingPool }

/-- Let the parameters for the next epoch take effect. -/
def adjustStakeAndGasPrice (validator : Validator) : Validator :=
  { validator with
    gasPrice := validator.nextEpochGasPrice
    commissionRate := validator.nextEpochCommissionRate }

/-! ## Stake -/

/-- Add stake.  It is processed at the end of the epoch, or at once if the pool
is pre-active. -/
def requestAddStake (validator : Validator)
    (stake epoch : Nat) : Program (StakedSui × Validator) := do
  require (0 < stake) (Abort.validator 11)
  let (stakedSui, stakingPool) ←
    validator.stakingPool.requestAddStake stake (epoch + 1)
  let stakingPool ← stakingPool.processIfPreactive
  let nextEpochStake ← U64.add validator.nextEpochStake stake
  pure (stakedSui,
    { validator with
      stakingPool := stakingPool
      nextEpochStake := nextEpochStake })

/-- Add stake at genesis, which is active from the first epoch on. -/
def requestAddStakeAtGenesis (validator : Validator)
    (stake epoch : Nat) : Program (StakedSui × Validator) := do
  require (epoch = 0) (Abort.validator 12)
  require (0 < stake) (Abort.validator 11)
  let (stakedSui, stakingPool) ← validator.stakingPool.requestAddStake stake 0
  let stakingPool ← stakingPool.processPendingStake
  let nextEpochStake ← U64.add validator.nextEpochStake stake
  pure (stakedSui,
    { validator with
      stakingPool := stakingPool
      nextEpochStake := nextEpochStake })

/-- Withdraw a stake with its rewards. -/
def requestWithdrawStake (validator : Validator) (stakedSui : StakedSui)
    (epoch : Nat) : Program (Nat × Validator) := do
  let (withdrawAmount, stakingPool) ←
    validator.stakingPool.requestWithdrawStake stakedSui epoch
  let nextEpochStake ← U64.sub validator.nextEpochStake withdrawAmount
  pure (withdrawAmount,
    { validator with
      stakingPool := stakingPool
      nextEpochStake := nextEpochStake })

/-- Add rewards to the pool. -/
def depositStakeRewards (validator : Validator) (reward : Nat) :
    Program Validator := do
  let nextEpochStake ← U64.add validator.nextEpochStake reward
  let stakingPool ← validator.stakingPool.depositRewards reward
  pure { validator with
    stakingPool := stakingPool
    nextEpochStake := nextEpochStake }

/-- Process the stake and the withdrawals of an epoch. -/
def processPendingStakesAndWithdraws (validator : Validator) (epoch : Nat) :
    Program Validator := do
  let stakingPool ←
    validator.stakingPool.processPendingStakesAndWithdraws epoch
  require (stakingPool.suiBalance = validator.nextEpochStake) (Abort.validator 11)
  pure { validator with stakingPool := stakingPool }

variable {validator after : Validator}

/-- A stake is requested from the pool, for the next epoch. -/
theorem requestAddStake_spec
    (requested : validator.requestAddStake stake epoch = .ok (stakedSui, after)) :
    ∃ queued stakingPool, validator.stakingPool.requestAddStake stake (epoch + 1) =
        .ok (stakedSui, queued) ∧
      queued.processIfPreactive = .ok stakingPool ∧
      after =
        { validator with
          stakingPool := stakingPool
          nextEpochStake := validator.nextEpochStake + stake } := by
  simp only [requestAddStake, bind_eq_ok, require_eq_ok,
    U64.add_eq_ok, pure_eq_ok, Prod.exists, Prod.mk.injEq] at requested
  obtain ⟨_, _, _, queued, added, stakingPool, processed, _, ⟨_, rfl⟩, rfl,
    rfl⟩ := requested
  exact ⟨queued, stakingPool, added, processed, rfl⟩

/-- At genesis a stake is active at once. -/
theorem requestAddStakeAtGenesis_spec
    (requested : validator.requestAddStakeAtGenesis stake epoch = .ok (stakedSui, after)) :
    epoch = 0 ∧
    ∃ queued stakingPool, validator.stakingPool.requestAddStake stake 0 = .ok (stakedSui, queued) ∧
      queued.processPendingStake = .ok stakingPool ∧
      after =
        { validator with
          stakingPool := stakingPool
          nextEpochStake := validator.nextEpochStake + stake } := by
  simp only [requestAddStakeAtGenesis, bind_eq_ok, require_eq_ok,
    U64.add_eq_ok, pure_eq_ok, Prod.exists, Prod.mk.injEq] at requested
  obtain ⟨_, atGenesis, _, _, _, queued, added, stakingPool, processed, _,
    ⟨_, rfl⟩, rfl, rfl⟩ := requested
  exact ⟨atGenesis, queued, stakingPool, added, processed, rfl⟩

/-- A withdrawal lowers the stake of the next epoch. -/
theorem requestWithdrawStake_spec
    (withdrawn : validator.requestWithdrawStake stakedSui epoch = .ok (amount, after)) :
    ∃ stakingPool, validator.stakingPool.requestWithdrawStake stakedSui epoch =
        .ok (amount, stakingPool) ∧
      amount ≤ validator.nextEpochStake ∧
      after =
        { validator with
          stakingPool := stakingPool
          nextEpochStake := validator.nextEpochStake - amount } := by
  simp only [requestWithdrawStake, bind_eq_ok, U64.sub_eq_ok,
    pure_eq_ok, Prod.exists, Prod.mk.injEq] at withdrawn
  obtain ⟨_, stakingPool, paid, _, ⟨enough, rfl⟩, rfl, rfl⟩ := withdrawn
  exact ⟨stakingPool, paid, enough, rfl⟩

/-- Deposited rewards go to the pool. -/
theorem depositStakeRewards_spec (deposited : validator.depositStakeRewards reward = .ok after) :
    ∃ stakingPool, validator.stakingPool.depositRewards reward = .ok stakingPool ∧ after =
        { validator with
          stakingPool := stakingPool
          nextEpochStake := validator.nextEpochStake + reward } := by
  simp only [depositStakeRewards, bind_eq_ok, U64.add_eq_ok, pure_eq_ok] at deposited
  obtain ⟨_, ⟨_, rfl⟩, stakingPool, added, rfl⟩ := deposited
  exact ⟨stakingPool, added, rfl⟩

/-- When a validator can process its pending stakes and withdrawals. -/
theorem processPendingStakesAndWithdraws_eq_ok {epoch : Nat} :
    validator.processPendingStakesAndWithdraws epoch = .ok after ↔ ∃ stakingPool,
        validator.stakingPool.processPendingStakesAndWithdraws epoch = .ok stakingPool ∧
        stakingPool.suiBalance = validator.nextEpochStake ∧
        { validator with stakingPool := stakingPool } = after := by
  simp [processPendingStakesAndWithdraws]

theorem activate_eq_ok {activationEpoch : Nat} :
    validator.activate activationEpoch = .ok after ↔ ∃ stakingPool,
        validator.stakingPool.activateStakingPool activationEpoch = .ok stakingPool ∧
        { validator with stakingPool := stakingPool } = after := by
  simp [activate]

theorem deactivate_eq_ok {deactivationEpoch : Nat} :
    validator.deactivate deactivationEpoch = .ok after ↔ ∃ stakingPool,
        validator.stakingPool.deactivateStakingPool deactivationEpoch = .ok stakingPool ∧
        { validator with stakingPool := stakingPool } = after := by
  simp [deactivate]

/-! ## Gas price and commission -/

/-- Set the gas price from the next epoch on. -/
def requestSetGasPrice (validator : Validator) (capAddress : Address)
    (newPrice : Nat) : Program Validator := do
  require (newPrice < maxValidatorGasPrice) (Abort.validator 102)
  require (capAddress = validator.suiAddress) (Abort.validator 101)
  pure { validator with nextEpochGasPrice := newPrice }

def setCandidateGasPrice (validator : Validator) (capAddress : Address)
    (newPrice : Nat) : Program Validator := do
  require (validator.isPreactive = true) (Abort.validator 10)
  require (newPrice < maxValidatorGasPrice) (Abort.validator 102)
  require (capAddress = validator.suiAddress) (Abort.validator 101)
  pure { validator with nextEpochGasPrice := newPrice, gasPrice := newPrice }

/-- Set the commission rate from the next epoch on. -/
def requestSetCommissionRate (validator : Validator) (newCommissionRate : Nat) :
    Program Validator := do
  require (newCommissionRate ≤ maxCommissionRate) (Abort.validator 8)
  pure { validator with nextEpochCommissionRate := newCommissionRate }

/-- Set the commission rate of a candidate.  Unlike the gas price, the rate for
the next epoch is not set with it. -/
def setCandidateCommissionRate (validator : Validator)
    (newCommissionRate : Nat) : Program Validator := do
  require (validator.isPreactive = true) (Abort.validator 10)
  require (newCommissionRate ≤ maxCommissionRate) (Abort.validator 8)
  pure { validator with commissionRate := newCommissionRate }

/-! ## Metadata -/

/-- Register a new operation capability, which revokes the previous one. -/
def newUnverifiedValidatorOperationCapAndTransfer (validator : Validator) (sender : Address)
    (newId : ID) : Program Validator := do
  require (sender = validator.suiAddress) (Abort.validator 100)
  pure { validator with operationCapId := newId }

/-- Change a text. -/
def updateText (write : ValidatorMetadata → Bytes → ValidatorMetadata) (validator : Validator)
    (text : Bytes) : Program Validator := do
  require (text.length ≤ maxValidatorMetadataLength) (Abort.validator 9)
  let text ← asciiString text
  pure { validator with metadata := write validator.metadata text }

def updateName : Validator → Bytes → Program Validator :=
  updateText fun metadata name => { metadata with name := name }

def updateDescription : Validator → Bytes → Program Validator :=
  updateText fun metadata description => { metadata with description := description }

def updateImageUrl : Validator → Bytes → Program Validator :=
  updateText fun metadata imageUrl => { metadata with imageUrl := imageUrl }

def updateProjectUrl : Validator → Bytes → Program Validator :=
  updateText fun metadata projectUrl => { metadata with projectUrl := projectUrl }

/-- Change the metadata, which must stay valid. -/
def updateMetadata (natives : Natives) (validator : Validator)
    (metadata : ValidatorMetadata) : Program Validator := do
  natives.validateMetadata metadata
  pure { validator with metadata := metadata }

/-- Change an address. -/
def updateAddress (natives : Natives) (write : ValidatorMetadata → Bytes → ValidatorMetadata)
    (validator : Validator) (address : Bytes) : Program Validator := do
  require (address.length ≤ maxValidatorMetadataLength) (Abort.validator 9)
  let address ← asciiString address
  updateMetadata natives validator (write validator.metadata address)

/-- Change what only a validator may change that was never active. -/
def updateCandidate (update : Validator → Bytes → Program Validator) (validator : Validator)
    (bytes : Bytes) : Program Validator := do
  require (validator.isPreactive = true) (Abort.validator 10)
  update validator bytes

variable (natives : Natives)

def updateNextEpochNetworkAddress : Validator → Bytes → Program Validator :=
  updateAddress natives fun metadata netAddress =>
    { metadata with nextEpochNetAddress := some netAddress }

def updateCandidateNetworkAddress : Validator → Bytes → Program Validator :=
  updateCandidate (updateAddress natives fun metadata netAddress =>
    { metadata with netAddress := netAddress })

def updateNextEpochP2pAddress : Validator → Bytes → Program Validator :=
  updateAddress natives fun metadata p2pAddress =>
    { metadata with nextEpochP2pAddress := some p2pAddress }

def updateCandidateP2pAddress : Validator → Bytes → Program Validator :=
  updateCandidate (updateAddress natives fun metadata p2pAddress =>
    { metadata with p2pAddress := p2pAddress })

def updateNextEpochPrimaryAddress : Validator → Bytes → Program Validator :=
  updateAddress natives fun metadata primaryAddress =>
    { metadata with nextEpochPrimaryAddress := some primaryAddress }

def updateCandidatePrimaryAddress : Validator → Bytes → Program Validator :=
  updateCandidate (updateAddress natives fun metadata primaryAddress =>
    { metadata with primaryAddress := primaryAddress })

def updateNextEpochWorkerAddress : Validator → Bytes → Program Validator :=
  updateAddress natives fun metadata workerAddress =>
    { metadata with nextEpochWorkerAddress := some workerAddress }

def updateCandidateWorkerAddress : Validator → Bytes → Program Validator :=
  updateCandidate (updateAddress natives fun metadata workerAddress =>
    { metadata with workerAddress := workerAddress })

def updateNextEpochProtocolPubkey (validator : Validator)
    (protocolPubkey proofOfPossession : Bytes) : Program Validator :=
  updateMetadata natives validator
    { validator.metadata with
      nextEpochProtocolPubkeyBytes := some protocolPubkey
      nextEpochProofOfPossession := some proofOfPossession }

def updateCandidateProtocolPubkey (validator : Validator)
    (protocolPubkey proofOfPossession : Bytes) : Program Validator :=
  updateCandidate
    (fun validator protocolPubkey => updateMetadata natives validator
      { validator.metadata with
        protocolPubkeyBytes := protocolPubkey
        proofOfPossession := proofOfPossession })
    validator protocolPubkey

def updateNextEpochNetworkPubkey (validator : Validator)
    (networkPubkey : Bytes) : Program Validator :=
  updateMetadata natives validator
    { validator.metadata with nextEpochNetworkPubkeyBytes := some networkPubkey }

def updateCandidateNetworkPubkey : Validator → Bytes → Program Validator :=
  updateCandidate fun validator networkPubkey => updateMetadata natives validator
    { validator.metadata with networkPubkeyBytes := networkPubkey }

def updateNextEpochWorkerPubkey (validator : Validator)
    (workerPubkey : Bytes) : Program Validator :=
  updateMetadata natives validator
    { validator.metadata with nextEpochWorkerPubkeyBytes := some workerPubkey }

def updateCandidateWorkerPubkey : Validator → Bytes → Program Validator :=
  updateCandidate fun validator workerPubkey => updateMetadata natives validator
    { validator.metadata with workerPubkeyBytes := workerPubkey }

end Validator

end Sui.System
