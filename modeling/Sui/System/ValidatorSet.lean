import Sui.System.VotingPower

/-!
# The validator set

A validator registers as a candidate, joins the pending validators when it has
enough stake, becomes active at the end of the epoch and leaves at the end of an
epoch on its own request or because its stake is too low.  Validators that have
left are kept with their pools, so that stakers can withdraw.

A reference to a validator that a function of the source returns is the position
of the validator; what the caller writes through it is a function that the model
passes along.
-/

namespace Sui.System

section

open List hiding after
open ValidatorMetadata

/-! ## Duplicates

Staged changes count as well, and network and worker keys are interchangeable. -/

/-- Whether an option holds a value. -/
def isEqualSomeAndValue (staged : Option Bytes) (value : Bytes) : Bool :=
  match staged with
  | none => false
  | some staged => staged == value

/-- Whether two options hold the same value. -/
def isEqualSome (left right : Option Bytes) : Bool :=
  match left, right with
  | some left, some right => left == right
  | _, _ => false

namespace Validator

/-- Whether two validators share a current or staged value. -/
def isDuplicate (self other : Validator) : Bool :=
  let mine := self.metadata
  let theirs := other.metadata
  mine.suiAddress == theirs.suiAddress
    || mine.name == theirs.name
    || mine.netAddress == theirs.netAddress
    || mine.p2pAddress == theirs.p2pAddress
    || mine.protocolPubkeyBytes == theirs.protocolPubkeyBytes
    || mine.networkPubkeyBytes == theirs.networkPubkeyBytes
    || mine.networkPubkeyBytes == theirs.workerPubkeyBytes
    || mine.workerPubkeyBytes == theirs.workerPubkeyBytes
    || mine.workerPubkeyBytes == theirs.networkPubkeyBytes
    -- All staged values.
    || isEqualSome mine.nextEpochNetAddress theirs.nextEpochNetAddress
    || isEqualSome mine.nextEpochP2pAddress theirs.nextEpochP2pAddress
    || isEqualSome mine.nextEpochProtocolPubkeyBytes
        theirs.nextEpochProtocolPubkeyBytes
    || isEqualSome mine.nextEpochNetworkPubkeyBytes
        theirs.nextEpochNetworkPubkeyBytes
    || isEqualSome mine.nextEpochNetworkPubkeyBytes
        theirs.nextEpochWorkerPubkeyBytes
    || isEqualSome mine.nextEpochWorkerPubkeyBytes
        theirs.nextEpochWorkerPubkeyBytes
    || isEqualSome mine.nextEpochWorkerPubkeyBytes
        theirs.nextEpochNetworkPubkeyBytes
    -- My staged values with their current ones.
    || isEqualSomeAndValue mine.nextEpochNetAddress theirs.netAddress
    || isEqualSomeAndValue mine.nextEpochP2pAddress theirs.p2pAddress
    || isEqualSomeAndValue mine.nextEpochProtocolPubkeyBytes
        theirs.protocolPubkeyBytes
    || isEqualSomeAndValue mine.nextEpochNetworkPubkeyBytes
        theirs.networkPubkeyBytes
    || isEqualSomeAndValue mine.nextEpochNetworkPubkeyBytes
        theirs.workerPubkeyBytes
    || isEqualSomeAndValue mine.nextEpochWorkerPubkeyBytes
        theirs.workerPubkeyBytes
    || isEqualSomeAndValue mine.nextEpochWorkerPubkeyBytes
        theirs.networkPubkeyBytes
    -- Their staged values with my current ones.
    || isEqualSomeAndValue theirs.nextEpochNetAddress mine.netAddress
    || isEqualSomeAndValue theirs.nextEpochP2pAddress mine.p2pAddress
    || isEqualSomeAndValue theirs.nextEpochProtocolPubkeyBytes
        mine.protocolPubkeyBytes
    || isEqualSomeAndValue theirs.nextEpochNetworkPubkeyBytes
        mine.networkPubkeyBytes
    || isEqualSomeAndValue theirs.nextEpochNetworkPubkeyBytes
        mine.workerPubkeyBytes
    || isEqualSomeAndValue theirs.nextEpochWorkerPubkeyBytes
        mine.workerPubkeyBytes
    || isEqualSomeAndValue theirs.nextEpochWorkerPubkeyBytes
        mine.networkPubkeyBytes

/-- Let the staged protocol key and its proof take effect.  A key is always
staged with its proof; without one, extracting it aborts. -/
def effectuateProtocolPubkey (metadata : ValidatorMetadata) :
    Program ValidatorMetadata :=
  match metadata.nextEpochProtocolPubkeyBytes with
  | none => pure metadata
  | some protocolPubkeyBytes =>
    match metadata.nextEpochProofOfPossession with
    | none => .error .indexOutOfBounds
    | some proofOfPossession =>
      pure { metadata with
        protocolPubkeyBytes := protocolPubkeyBytes
        nextEpochProtocolPubkeyBytes := none
        proofOfPossession := proofOfPossession
        nextEpochProofOfPossession := none }

/-- Let all staged metadata take effect. -/
def effectuateStagedMetadata (validator : Validator) : Program Validator := do
  let metadata ← effectuateProtocolPubkey validator.metadata
  pure { validator with
    metadata :=
      { metadata with
        netAddress := metadata.nextEpochNetAddress.getD metadata.netAddress
        nextEpochNetAddress := none
        p2pAddress := metadata.nextEpochP2pAddress.getD metadata.p2pAddress
        nextEpochP2pAddress := none
        primaryAddress :=
          metadata.nextEpochPrimaryAddress.getD metadata.primaryAddress
        nextEpochPrimaryAddress := none
        workerAddress :=
          metadata.nextEpochWorkerAddress.getD metadata.workerAddress
        nextEpochWorkerAddress := none
        networkPubkeyBytes :=
          metadata.nextEpochNetworkPubkeyBytes.getD metadata.networkPubkeyBytes
        nextEpochNetworkPubkeyBytes := none
        workerPubkeyBytes :=
          metadata.nextEpochWorkerPubkeyBytes.getD metadata.workerPubkeyBytes
        nextEpochWorkerPubkeyBytes := none } }

end Validator

namespace ValidatorMetadata

/-! ## Current and staged values -/

/-- The network and worker keys, current and staged. -/
def networkKeys (metadata : ValidatorMetadata) : List Bytes :=
  metadata.networkPubkeyBytes :: metadata.workerPubkeyBytes ::
    (metadata.nextEpochNetworkPubkeyBytes.toList ++ metadata.nextEpochWorkerPubkeyBytes.toList)

/-- The protocol keys, current and staged. -/
def protocolKeys (metadata : ValidatorMetadata) : List Bytes :=
  metadata.protocolPubkeyBytes :: metadata.nextEpochProtocolPubkeyBytes.toList

/-- The network addresses, current and staged. -/
def netAddresses (metadata : ValidatorMetadata) : List Bytes :=
  metadata.netAddress :: metadata.nextEpochNetAddress.toList

/-- The peer to peer addresses, current and staged. -/
def p2pAddresses (metadata : ValidatorMetadata) : List Bytes :=
  metadata.p2pAddress :: metadata.nextEpochP2pAddress.toList

/-- Two validators share neither a key nor an address, current or staged. -/
structure Separate (left right : ValidatorMetadata) : Prop where
  network : left.networkKeys.Disjoint right.networkKeys
  protocol : left.protocolKeys.Disjoint right.protocolKeys
  net : left.netAddresses.Disjoint right.netAddresses
  p2p : left.p2pAddresses.Disjoint right.p2pAddresses

/-- All current and staged values of a validator are values of another one. -/
structure Within (inner outer : ValidatorMetadata) : Prop where
  network : inner.networkKeys ⊆ outer.networkKeys
  protocol : inner.protocolKeys ⊆ outer.protocolKeys
  net : inner.netAddresses ⊆ outer.netAddresses
  p2p : inner.p2pAddresses ⊆ outer.p2pAddresses

theorem Within.refl (metadata : ValidatorMetadata) : metadata.Within metadata :=
  ⟨fun _ listed => listed, fun _ listed => listed, fun _ listed => listed, fun _ listed => listed⟩

variable {left right : ValidatorMetadata}

theorem Separate.symm (separate : left.Separate right) : right.Separate left :=
  ⟨disjoint_symm separate.network, disjoint_symm separate.protocol,
    disjoint_symm separate.net, disjoint_symm separate.p2p⟩

/-- Fewer values are separate as well. -/
theorem Separate.mono (separate : left.Separate right) {left' right' : ValidatorMetadata}
    (leftWithin : left'.Within left) (rightWithin : right'.Within right) :
    left'.Separate right' where
  network := disjoint_of_subset_left leftWithin.network
    (disjoint_of_subset_right rightWithin.network separate.network)
  protocol := disjoint_of_subset_left leftWithin.protocol
    (disjoint_of_subset_right rightWithin.protocol separate.protocol)
  net := disjoint_of_subset_left leftWithin.net
    (disjoint_of_subset_right rightWithin.net separate.net)
  p2p := disjoint_of_subset_left leftWithin.p2p
    (disjoint_of_subset_right rightWithin.p2p separate.p2p)

end ValidatorMetadata

theorem isEqualSomeAndValue_eq_false {staged : Option Bytes} {value : Bytes} :
    isEqualSomeAndValue staged value = false ↔ value ∉ staged.toList := by
  cases staged with
  | none => simp [isEqualSomeAndValue]
  | some staged =>
    simp only [isEqualSomeAndValue, beq_eq_false_iff_ne, Option.toList_some, mem_singleton]
    exact ne_comm

theorem isEqualSome_eq_false {left right : Option Bytes} :
    isEqualSome left right = false ↔ left.toList.Disjoint right.toList := by
  cases left with
  | none => simp [isEqualSome]
  | some left =>
    cases right with
    | none => simp [isEqualSome]
    | some right =>
      simp only [isEqualSome, beq_eq_false_iff_ne, Option.toList_some,
        singleton_disjoint, mem_singleton, ne_eq]

namespace Validator

/-- Validators are no duplicates exactly if they differ in their account and name
and share neither a key nor an address. -/
theorem isDuplicate_eq_false {self other : Validator} :
    self.isDuplicate other = false ↔ self.suiAddress ≠ other.suiAddress ∧
      self.metadata.name ≠ other.metadata.name ∧
      self.metadata.Separate other.metadata := by
  simp only [isDuplicate, suiAddress, Bool.or_eq_false_iff, beq_eq_false_iff_ne,
    isEqualSome_eq_false, isEqualSomeAndValue_eq_false]
  constructor
  · intro different
    refine ⟨by simp only [different, ne_eq, not_false_iff],
      by simp only [different, ne_eq, not_false_iff], ?_, ?_, ?_, ?_⟩
    all_goals
      simp only [networkKeys, protocolKeys, netAddresses, p2pAddresses,
        disjoint_cons_left, disjoint_append_left]
      simp only [different, disjoint_cons_right, disjoint_append_right,
        mem_cons, mem_append, not_or, not_false_iff, and_self]
  · rintro ⟨address, name, network, protocol, net, p2p⟩
    simp only [networkKeys, protocolKeys, netAddresses, p2pAddresses,
      disjoint_cons_left, disjoint_append_left] at network protocol net p2p
    simp only [disjoint_cons_right, disjoint_append_right, mem_cons,
      mem_append, not_or] at network protocol net p2p
    simp only [address, name, network, protocol, net, p2p, ne_eq, not_false_iff, and_self]

/-- The staged protocol key takes effect together with its proof. -/
theorem effectuateProtocolPubkey_spec (effectuated : effectuateProtocolPubkey before = .ok after) :
    after.protocolKeys ⊆ before.protocolKeys ∧ ∃ key proof staged stagedProof, after =
        { before with
          protocolPubkeyBytes := key
          proofOfPossession := proof
          nextEpochProtocolPubkeyBytes := staged
          nextEpochProofOfPossession := stagedProof } := by
  unfold effectuateProtocolPubkey at effectuated
  split at effectuated
  · cases effectuated
    exact ⟨fun _ listed => listed, _, _, _, _, rfl⟩
  · next key staged =>
    split at effectuated
    · cases effectuated
    · cases effectuated
      refine ⟨?_, _, _, _, _, rfl⟩
      simp [protocolKeys, staged]

/-- Staged values take effect, and no other ones. -/
theorem effectuateStagedMetadata_spec {before after : Validator}
    (effectuated : before.effectuateStagedMetadata = .ok after) :
    after.metadata.Within before.metadata ∧ after.suiAddress = before.suiAddress ∧
      after = { before with metadata := after.metadata } := by
  obtain ⟨metadata, protocol, rfl⟩ := Library.map_eq_ok.mp effectuated
  obtain ⟨within, _, _, _, _, rfl⟩ := effectuateProtocolPubkey_spec protocol
  refine ⟨⟨?_, within, ?_, ?_⟩, rfl, rfl⟩
  · dsimp only [networkKeys]
    cases before.metadata.nextEpochNetworkPubkeyBytes <;>
      cases before.metadata.nextEpochWorkerPubkeyBytes <;> simp
  · dsimp only [netAddresses]
    cases before.metadata.nextEpochNetAddress <;> simp
  · dsimp only [p2pAddresses]
    cases before.metadata.nextEpochP2pAddress <;> simp

end Validator

/-! ## The validator set -/

open Std (ExtTreeMap)
open Library (require)

/-- Which validators report which: the reporters of every reported one. -/
abbrev ReportRecords := VecMap Address (VecSet Address)

/-- All validators of the system. -/
structure ValidatorSet where
  /-- The stake of the active validators at the beginning of the epoch. -/
  totalStake : Nat
  activeValidators : List Validator
  pendingActiveValidators : List Validator
  /-- The positions of the active validators that asked to leave. -/
  pendingRemovals : List Nat
  stakingPoolMappings : ExtTreeMap ID Address
  inactiveValidators : ExtTreeMap ID Validator
  validatorCandidates : ExtTreeMap Address Validator
  /-- For how many epochs validators have had low stake. -/
  atRiskValidators : VecMap Address Nat

namespace ValidatorSet

/-- The least amount that can be staked. -/
def minStakingThreshold : Nat :=
  1000000000

def basisPointDenominator : Nat :=
  10000

/-! ## Looking up validators -/

/-- The position of a validator. -/
def findValidator (validators : List Validator) (address : Address) : Option Nat :=
  validators.findIdx? fun validator => validator.suiAddress = address

/-- The validator with an account. -/
def getValidatorRef (validators : List Validator) (address : Address) :
    Program Validator :=
  match validators.find? fun validator => validator.suiAddress = address with
  | some validator => pure validator
  | none => .error (.validatorSet 4)

/-- Whether an account is that of an active validator. -/
def isActiveValidatorBySuiAddress (set : ValidatorSet) (address : Address) :
    Bool :=
  (findValidator set.activeValidators address).isSome

/-- Write to the validator at a position. -/
def modifyAt (validators : List Validator) (index : Nat)
    (write : Validator → Program (β × Validator)) :
    Program (β × List Validator) :=
  match validators[index]? with
  | none => .error .indexOutOfBounds
  | some validator => do
    let (result, validator) ← write validator
    pure (result, validators.set index validator)

/-- Write to an entry of a table. -/
def modifyEntry (table : ExtTreeMap Nat Validator) (key : Nat)
    (write : Validator → Program (β × Validator)) :
    Program (β × ExtTreeMap Nat Validator) := do
  let validator ← Table.borrow table key
  let (result, validator) ← write validator
  pure (result, table.insert key validator)

/-- Write to a candidate or an active validator. -/
def getCandidateOrActiveValidatorMut (set : ValidatorSet) (address : Address)
    (write : Validator → Program (β × Validator)) :
    Program (β × ValidatorSet) :=
  match set.validatorCandidates[address]? with
  | some _ => do
    let (result, candidates) ← modifyEntry set.validatorCandidates address write
    pure (result, { set with validatorCandidates := candidates })
  | none =>
    match findValidator set.activeValidators address with
    | none => .error (.validatorSet 4)
    | some index => do
      let (result, active) ← modifyAt set.activeValidators index write
      pure (result, { set with activeValidators := active })

/-- Write to an active, a pending or, if they are included, a candidate
validator. -/
def getActiveOrPendingOrCandidateValidatorMut (set : ValidatorSet) (address : Address)
    (includeCandidate : Bool) (write : Validator → Program (β × Validator)) :
    Program (β × ValidatorSet) :=
  match findValidator set.activeValidators address with
  | some index => do
    let (result, active) ← modifyAt set.activeValidators index write
    pure (result, { set with activeValidators := active })
  | none =>
    match findValidator set.pendingActiveValidators address with
    | some index => do
      let (result, pending) ← modifyAt set.pendingActiveValidators index write
      pure (result, { set with pendingActiveValidators := pending })
    | none => do
      require (includeCandidate = true) (Abort.validatorSet 9)
      let (result, candidates) ←
        modifyEntry set.validatorCandidates address write
      pure (result, { set with validatorCandidates := candidates })

/-- Which validators a capability may be of. -/
inductive Which
  | activeValidatorOnly
  | activeOrPendingValidator
  | anyValidator
  deriving DecidableEq

/-- The validator of a capability. -/
def getActiveOrPendingOrCandidateValidatorRef (set : ValidatorSet) (address : Address)
    (which : Which) : Program Validator :=
  match set.activeValidators.find? fun validator => validator.suiAddress = address,
      set.pendingActiveValidators.find? fun validator =>
        validator.suiAddress = address,
      which with
  | some validator, _, _ => pure validator
  | none, _, .activeValidatorOnly => .error .indexOutOfBounds
  | none, some validator, _ => pure validator
  | none, none, .activeOrPendingValidator => .error .indexOutOfBounds
  | none, none, .anyValidator => Table.borrow set.validatorCandidates address

/-- Verify a capability.  The account of the validator is returned. -/
def verifyCap (set : ValidatorSet) (cap : UnverifiedValidatorOperationCap)
    (which : Which) : Program Address := do
  let validator ←
    if which = .activeValidatorOnly then
      getValidatorRef set.activeValidators cap.authorizerValidatorAddress
    else
      set.getActiveOrPendingOrCandidateValidatorRef
        cap.authorizerValidatorAddress which
  require (validator.operationCapId = cap.id) (Abort.validatorSet 101)
  pure cap.authorizerValidatorAddress

/-! ## Joining and leaving -/

/-- How many validators a validator is a duplicate of. -/
def countDuplicates (validators : List Validator) (validator : Validator) : Nat :=
  validators.countP fun other => other.isDuplicate validator

def isDuplicateValidator (validators : List Validator) (validator : Validator) :
    Bool :=
  0 < countDuplicates validators validator

def isDuplicateWithActiveValidator (set : ValidatorSet) (validator : Validator) :
    Bool :=
  isDuplicateValidator set.activeValidators validator

def isDuplicateWithPendingValidator (set : ValidatorSet) (validator : Validator) :
    Bool :=
  isDuplicateValidator set.pendingActiveValidators validator

/-- A validator that is active or pending is a duplicate of itself only. -/
def assertNoPendingOrActiveDuplicates (set : ValidatorSet) (validator : Validator) :
    Program Unit :=
  require
    (countDuplicates set.activeValidators validator +
      countDuplicates set.pendingActiveValidators validator = 1)
    (Abort.validatorSet 2)

/-- Register a candidate. -/
def requestAddValidatorCandidate (set : ValidatorSet) (validator : Validator) :
    Program ValidatorSet := do
  require
    (set.isDuplicateWithActiveValidator validator = false ∧
      set.isDuplicateWithPendingValidator validator = false)
    (Abort.validatorSet 2)
  require (set.validatorCandidates[validator.suiAddress]? = none)
    (Abort.validatorSet 6)
  require (validator.isPreactive = true) (Abort.validatorSet 7)
  let mappings ← Table.add set.stakingPoolMappings validator.stakingPoolId
    validator.suiAddress
  let candidates ← Table.add set.validatorCandidates validator.suiAddress validator
  pure { set with
    stakingPoolMappings := mappings
    validatorCandidates := candidates }

def requestRemoveValidatorCandidate (set : ValidatorSet) (sender : Address)
    (epoch : Nat) : Program ValidatorSet := do
  require (set.validatorCandidates[sender]?.isSome = true) (Abort.validatorSet 8)
  let (validator, candidates) ← Table.remove set.validatorCandidates sender
  require (validator.isPreactive = true) (Abort.validatorSet 7)
  let (_, mappings) ←
    Table.remove set.stakingPoolMappings validator.stakingPoolId
  let inactive ← validator.deactivate epoch
  let inactives ← Table.add set.inactiveValidators validator.stakingPoolId inactive
  pure { set with
    validatorCandidates := candidates
    stakingPoolMappings := mappings
    inactiveValidators := inactives }

/-- A candidate joins the pending validators. -/
def requestAddValidator (set : ValidatorSet) (minJoiningStakeAmount : Nat)
    (sender : Address) : Program ValidatorSet := do
  require (set.validatorCandidates[sender]?.isSome = true) (Abort.validatorSet 8)
  let (validator, candidates) ← Table.remove set.validatorCandidates sender
  require
    (set.isDuplicateWithActiveValidator validator = false ∧
      set.isDuplicateWithPendingValidator validator = false)
    (Abort.validatorSet 2)
  require (validator.isPreactive = true) (Abort.validatorSet 7)
  require (minJoiningStakeAmount ≤ validator.totalStakeAmount)
    (Abort.validatorSet 5)
  pure { set with
    validatorCandidates := candidates
    pendingActiveValidators := set.pendingActiveValidators ++ [validator] }

/-- An active validator asks to leave. -/
def requestRemoveValidator (set : ValidatorSet) (sender : Address) :
    Program ValidatorSet :=
  match findValidator set.activeValidators sender with
  | none => .error (.validatorSet 4)
  | some index => do
    require (index ∉ set.pendingRemovals) (Abort.validatorSet 11)
    pure { set with pendingRemovals := set.pendingRemovals ++ [index] }

/-- The number of validators in the next epoch. -/
def nextEpochValidatorCount (set : ValidatorSet) : Program Nat := do
  let staying ← U64.sub set.activeValidators.length set.pendingRemovals.length
  U64.add staying set.pendingActiveValidators.length

/-! ## Staking -/

/-- Add stake to a candidate or an active validator. -/
def requestAddStake (set : ValidatorSet) (address : Address) (stake epoch : Nat) :
    Program (StakedSui × ValidatorSet) := do
  require (minStakingThreshold ≤ stake) (Abort.validatorSet 10)
  set.getCandidateOrActiveValidatorMut address fun validator =>
    validator.requestAddStake stake epoch

/-- Withdraw a stake from the validator of its pool. -/
def requestWithdrawStake (set : ValidatorSet) (stakedSui : StakedSui)
    (epoch : Nat) : Program (Nat × ValidatorSet) :=
  match set.stakingPoolMappings[stakedSui.poolId]? with
  | some address =>
    set.getCandidateOrActiveValidatorMut address fun validator =>
      validator.requestWithdrawStake stakedSui epoch
  | none => do
    require (set.inactiveValidators[stakedSui.poolId]?.isSome = true)
      (Abort.validatorSet 3)
    let (amount, inactives) ←
      modifyEntry set.inactiveValidators stakedSui.poolId fun validator =>
        validator.requestWithdrawStake stakedSui epoch
    pure (amount, { set with inactiveValidators := inactives })

/-- Set the commission rate of an active validator. -/
def requestSetCommissionRate (set : ValidatorSet) (newCommissionRate : Nat)
    (sender : Address) : Program ValidatorSet :=
  match findValidator set.activeValidators sender with
  | none => .error (.validatorSet 4)
  | some index => do
    let (_, active) ← modifyAt set.activeValidators index fun validator =>
      Prod.mk () <$> validator.requestSetCommissionRate newCommissionRate
    pure { set with activeValidators := active }

end ValidatorSet

end

/-! ## The end of an epoch

Rewards are distributed by voting power, after validators that a quorum reported are slashed.
Stake is processed, pending validators become active, validators leave, and the voting power
and the metadata of the next epoch are set. -/

namespace ValidatorSet

open Library (require)

/-! ## Rewards -/

/-- The voting power of validators. -/
def sumVotingPowerByAddresses (validators : List Validator)
    (addresses : List Address) : Program Nat :=
  addresses.foldlM
    (fun sum address => do
      let validator ← getValidatorRef validators address
      U64.add sum validator.votingPower)
    0

/-- The validators that a quorum reported.  The records are taken from the last
one on. -/
def computeSlashedValidators (set : ValidatorSet) (records : ReportRecords) :
    Program (List Address) :=
  records.reverse.foldlM
    (fun slashed record => do
      require (set.isActiveValidatorBySuiAddress record.1 = true) (Abort.validatorSet 0)
      let votes ← sumVotingPowerByAddresses set.activeValidators record.2
      if VotingPower.quorumThreshold ≤ votes then
        pure (slashed ++ [record.1])
      else
        pure slashed)
    []

/-- The positions of validators. -/
def getValidatorIndices (validators : List Validator) (addresses : List Address) :
    Program (List Nat) :=
  addresses.mapM fun address =>
    match findValidator validators address with
    | some index => pure index
    | none => .error (.validatorSet 4)

/-- The rewards of the validators before slashing: for their stakers by voting
power, and the same share of the storage fund rewards for each. -/
def computeUnadjustedRewardDistribution (validators : List Validator)
    (totalStakingReward totalStorageFundReward : Nat) :
    Program (List Nat × List Nat) := do
  let storageFundReward ← U64.div totalStorageFundReward validators.length
  let stakingRewards ← validators.mapM fun validator =>
    U64.cast
      (validator.votingPower * totalStakingReward / VotingPower.totalVotingPower)
  pure (stakingRewards, List.replicate validators.length storageFundReward)

/-- What is taken from slashed validators, in all and from each. -/
structure RewardAdjustments where
  totalStaking : Nat
  staking : VecMap Nat Nat
  totalStorageFund : Nat
  storageFund : VecMap Nat Nat

/-- What is taken from one slashed validator. -/
def RewardAdjustments.slash (rewardSlashingRate : Nat)
    (stakingRewards storageFundRewards : List Nat) (adjustments : RewardAdjustments)
    (index : Nat) : Program RewardAdjustments :=
  match stakingRewards[index]?, storageFundRewards[index]? with
  | some stakingReward, some storageFundReward => do
    let staking ← U64.cast
      (stakingReward * rewardSlashingRate / basisPointDenominator)
    let stakings ← VecMap.insert adjustments.staking index staking
    let totalStaking ← U64.add adjustments.totalStaking staking
    let storageFund ← U64.cast
      (storageFundReward * rewardSlashingRate / basisPointDenominator)
    let storageFunds ← VecMap.insert adjustments.storageFund index storageFund
    let totalStorageFund ← U64.add adjustments.totalStorageFund storageFund
    pure ⟨totalStaking, stakings, totalStorageFund, storageFunds⟩
  | _, _ => .error .indexOutOfBounds

/-- What is taken from slashed validators, the last one first. -/
def computeRewardAdjustments (slashedValidatorIndices : List Nat) (rewardSlashingRate : Nat)
    (stakingRewards storageFundRewards : List Nat) : Program RewardAdjustments :=
  slashedValidatorIndices.reverse.foldlM
    (RewardAdjustments.slash rewardSlashingRate stakingRewards storageFundRewards)
    ⟨0, [], 0, []⟩

/-- The reward of a validator: less if it is slashed, otherwise with a share of
what is taken from the others. -/
def adjustReward (adjustments : VecMap Nat Nat) (index reward : Nat)
    (bonus : Program Nat) : Program Nat :=
  if adjustments.contains index then do
    U64.sub reward (← adjustments.get index)
  else do
    U64.add reward (← bonus)

/-- The rewards of the validators after slashing. -/
def computeAdjustedRewardDistribution (validators : List Validator)
    (totalSlashedValidatorVotingPower : Nat) (stakingRewards storageFundRewards : List Nat)
    (adjustments : RewardAdjustments) : Program (List Nat × List Nat) := do
  let totalUnslashedVotingPower ←
    U64.sub VotingPower.totalVotingPower totalSlashedValidatorVotingPower
  let numUnslashed ← U64.sub validators.length adjustments.staking.length
  let rewards ← validators.zipIdx.mapM fun (validator, index) =>
    match stakingRewards[index]?, storageFundRewards[index]? with
    | some stakingReward, some storageFundReward => do
      let staking ← adjustReward adjustments.staking index stakingReward do
        let bonus ← U64.div (adjustments.totalStaking * validator.votingPower)
          totalUnslashedVotingPower
        U64.cast bonus
      let storageFund ← adjustReward adjustments.storageFund index
        storageFundReward (U64.div adjustments.totalStorageFund numUnslashed)
      pure (staking, storageFund)
    | _, _ => .error .indexOutOfBounds
  pure (rewards.map Prod.fst, rewards.map Prod.snd)

/-- Stake the reward of a validator for itself, if there is one. -/
def stakeValidatorReward (validator : Validator) (reward epoch : Nat) :
    Program (List StakedSui × Validator) :=
  if 0 < reward then do
    let (stake, validator) ← validator.requestAddStake reward epoch
    pure ([stake], validator)
  else
    pure ([], validator)

/-- Pay the rewards of one validator: its commission and its storage fund rewards
are staked for itself, the rest goes to its stakers. -/
def distributeRewardTo (validator : Validator) (stakingReward storageFundReward epoch : Nat) :
    Program (List StakedSui × Validator) := do
  let commission ← U64.cast
    (stakingReward * validator.commissionRate / basisPointDenominator)
  let stakerReward ← splitBalance stakingReward commission
  let validatorReward ← U64.add commission storageFundReward
  let (stakes, validator) ← stakeValidatorReward validator validatorReward epoch
  let validator ← validator.depositStakeRewards stakerReward
  pure (stakes, validator)

/-- Pay the rewards of validators out of the reward balances.  The stakes of the
validators are returned. -/
def distributeRewards (epoch : Nat) :
    List Validator → List Nat → List Nat → Nat → Nat → Program (List StakedSui × List Validator)
  | [], _, _, _, _ => pure ([], [])
  | validator :: validators, staking :: stakings, storage :: storages,
      stakingBalance, storageBalance => do
      let stakingBalance ← splitBalance stakingBalance staking
      let storageBalance ← splitBalance storageBalance storage
      let (stakes, validator) ← distributeRewardTo validator staking storage epoch
      let (others, validators) ← distributeRewards epoch validators stakings
        storages stakingBalance storageBalance
      pure (stakes ++ others, validator :: validators)
  | _ :: _, _, _, _, _ => .error .indexOutOfBounds

/-- Pay the rewards of all validators, of which there must be one. -/
def distributeReward (epoch : Nat) (validators : List Validator)
    (stakingRewards storageFundRewards : List Nat) (stakingBalance storageBalance : Nat) :
    Program (List StakedSui × List Validator) := do
  require (0 < validators.length) (Abort.validatorSet 13)
  distributeRewards epoch validators stakingRewards storageFundRewards
    stakingBalance storageBalance

/-! ## Leaving -/

/-- Remove the reports of a leaving validator about one other validator. -/
def cleanReporter (leaving : Address) (records : ReportRecords)
    (reported : Address) : Program ReportRecords := do
  let reporters ← VecMap.get records reported
  if leaving ∈ reporters then do
    let reporters ← VecSet.remove reporters leaving
    let records := VecMap.set records reported reporters
    if reporters.isEmpty then VecMap.remove records reported else pure records
  else
    pure records

/-- Remove the reports about and of a leaving validator.  The keys are those
before the reports of the validator are removed. -/
def cleanReportRecordsLeavingValidator (records : ReportRecords)
    (leaving : Address) : Program ReportRecords := do
  let records ← VecMap.removeIfContains records leaving
  (VecMap.keys records).foldlM (cleanReporter leaving) records

/-- A validator that was taken from the active ones leaves. -/
def processValidatorDeparture (set : ValidatorSet) (validator : Validator) (records : ReportRecords)
    (epoch : Nat) : Program (ValidatorSet × ReportRecords) := do
  let (_, mappings) ←
    Table.remove set.stakingPoolMappings validator.stakingPoolId
  let atRisk ← set.atRiskValidators.removeIfContains validator.suiAddress
  let totalStake ← U64.sub set.totalStake validator.totalStakeAmount
  let records ← cleanReportRecordsLeavingValidator records validator.suiAddress
  let inactive ← validator.deactivate (epoch + 1)
  let inactives ← Table.add set.inactiveValidators validator.stakingPoolId inactive
  pure ({ set with
    totalStake := totalStake
    stakingPoolMappings := mappings
    inactiveValidators := inactives
    atRiskValidators := atRisk }, records)

/-- The active validator at a position leaves. -/
def removeActive (set : ValidatorSet) (records : ReportRecords)
    (epoch index : Nat) : Program (ValidatorSet × ReportRecords) :=
  match set.activeValidators[index]? with
  | none => .error .indexOutOfBounds
  | some validator =>
    processValidatorDeparture
      { set with activeValidators := set.activeValidators.eraseIdx index }
      validator records epoch

/-- Sort the positions: every position is moved to the left, past the larger
ones.  The sorted positions are built with the largest one first. -/
def sortRemovalList (removals : List Nat) : List Nat :=
  (removals.foldl (fun sorted index => sorted.orderedInsert (· ≥ ·) index)
    []).reverse

/-- The validators that asked to leave do so, the last one first. -/
def processPendingRemovals (set : ValidatorSet) (records : ReportRecords)
    (epoch : Nat) : Program (ValidatorSet × ReportRecords) :=
  (sortRemovalList set.pendingRemovals).reverse.foldlM
    (fun (set, records) index => set.removeActive records epoch index)
    ({ set with pendingRemovals := [] }, records)

/-- The thresholds below which validators have low stake. -/
structure LowStake where
  /-- Validators with less stake have a grace period. -/
  lowStakeThreshold : Nat
  /-- Validators with less stake leave at once. -/
  veryLowStakeThreshold : Nat
  lowStakeGracePeriod : Nat

/-- Count one more epoch of low stake. -/
def countAtRisk (atRisk : VecMap Address Nat) (address : Address) :
    Program (Nat × VecMap Address Nat) :=
  if atRisk.contains address then do
    let epochs ← atRisk.get address
    let epochs ← U64.add epochs 1
    pure (epochs, atRisk.set address epochs)
  else do
    let atRisk ← atRisk.insert address 1
    pure (1, atRisk)

/-- Let the validator at a position leave if its stake is too low. -/
def processLowStake (parameters : LowStake) (set : ValidatorSet) (records : ReportRecords)
    (epoch index : Nat) : Program (ValidatorSet × ReportRecords) :=
  match set.activeValidators[index]? with
  | none => .error .indexOutOfBounds
  | some validator =>
    let address := validator.suiAddress
    let stake := validator.totalStakeAmount
    if parameters.lowStakeThreshold ≤ stake then do
      let atRisk ← set.atRiskValidators.removeIfContains address
      pure ({ set with atRiskValidators := atRisk }, records)
    else if parameters.veryLowStakeThreshold ≤ stake then do
      let (epochs, atRisk) ← countAtRisk set.atRiskValidators address
      let set := { set with atRiskValidators := atRisk }
      if parameters.lowStakeGracePeriod < epochs then
        set.removeActive records epoch index
      else
        pure (set, records)
    else
      set.removeActive records epoch index

/-- Let validators with low stake leave, from the last position on. -/
def updateAndProcessLowStakeDepartures (parameters : LowStake) (epoch : Nat) :
    Nat → ValidatorSet → ReportRecords → Program (ValidatorSet × ReportRecords)
  | 0, set, records => pure (set, records)
  | index + 1, set, records => do
    let (set, records) ← processLowStake parameters set records epoch index
    updateAndProcessLowStakeDepartures parameters epoch index set records

/-! ## The epoch change -/

/-- The stake of the active validators. -/
def calculateTotalStakes (validators : List Validator) : Program Nat :=
  VotingPower.totalStake validators

/-- The rewards of the active validators. -/
def computeRewards (set : ValidatorSet) (records : ReportRecords)
    (computationReward storageFundReward rewardSlashingRate : Nat) :
    Program (List Nat × List Nat) := do
  let (stakings, storages) ← computeUnadjustedRewardDistribution
    set.activeValidators computationReward storageFundReward
  let slashed ← set.computeSlashedValidators records
  let slashedPower ← sumVotingPowerByAddresses set.activeValidators slashed
  let indices ← getValidatorIndices set.activeValidators slashed
  let adjustments ← computeRewardAdjustments indices rewardSlashingRate stakings
    storages
  computeAdjustedRewardDistribution set.activeValidators slashedPower stakings
    storages adjustments

/-- Pay the rewards, process the stake and let pending validators become
active. -/
def enterEpoch (set : ValidatorSet) (records : ReportRecords)
    (computationReward storageFundReward rewardSlashingRate epoch : Nat) :
    Program (List StakedSui × ValidatorSet) := do
  let (stakings, storages) ← set.computeRewards records computationReward
    storageFundReward rewardSlashingRate
  let (stakes, active) ← distributeReward epoch set.activeValidators stakings
    storages computationReward storageFundReward
  let active ← (active.map Validator.adjustStakeAndGasPrice).mapM
    fun validator => validator.processPendingStakesAndWithdraws epoch
  let joining ← set.pendingActiveValidators.reverse.mapM fun validator =>
    validator.activate (epoch + 1)
  pure (stakes,
    { set with
      activeValidators := active ++ joining
      pendingActiveValidators := [] })

/-- Let validators leave. -/
def leaveEpoch (parameters : LowStake) (set : ValidatorSet) (records : ReportRecords)
    (epoch : Nat) : Program (ValidatorSet × ReportRecords) := do
  let (set, records) ← set.processPendingRemovals records epoch
  updateAndProcessLowStakeDepartures parameters epoch
    set.activeValidators.length set records

/-- Set the voting power and let staged metadata take effect. -/
def settleEpoch (set : ValidatorSet) : Program ValidatorSet := do
  let totalStake ← calculateTotalStakes set.activeValidators
  let active ← VotingPower.setVotingPower set.activeValidators
  let active ← active.mapM Validator.effectuateStagedMetadata
  pure { set with totalStake := totalStake, activeValidators := active }

/-- The end of an epoch.  The stakes that validators receive as rewards are
returned. -/
def advanceEpoch (parameters : LowStake) (set : ValidatorSet) (records : ReportRecords)
    (computationReward storageFundReward rewardSlashingRate epoch : Nat) :
    Program (List StakedSui × ValidatorSet × ReportRecords) := do
  let (stakes, set) ← set.enterEpoch records computationReward storageFundReward
    rewardSlashingRate epoch
  let (set, records) ← leaveEpoch parameters set records epoch
  let set ← set.settleEpoch
  pure (stakes, set, records)

end ValidatorSet

end Sui.System
