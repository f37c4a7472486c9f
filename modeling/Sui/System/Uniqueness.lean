import Sui.System.JoiningStake

/-!
# Keys and addresses in the committee

No two validators of this or of the next committee share a key or an address, as
long as no pending validator uses the updates that are meant for candidates.
Those updates only ask whether the validator was ever active, and they are not
checked for duplicates.
-/

namespace Sui.System

open Library ValidatorSet
open List hiding after
open Validator (metadata)

/-- Two validators currently have different keys and addresses.  Network and worker
keys differ in either role. -/
structure ValidatorMetadata.Differ (left right : ValidatorMetadata) : Prop where
  networkPubkeyBytes : left.networkPubkeyBytes ≠ right.networkPubkeyBytes
  networkWorker : left.networkPubkeyBytes ≠ right.workerPubkeyBytes
  workerNetwork : left.workerPubkeyBytes ≠ right.networkPubkeyBytes
  workerPubkeyBytes : left.workerPubkeyBytes ≠ right.workerPubkeyBytes
  protocolPubkeyBytes : left.protocolPubkeyBytes ≠ right.protocolPubkeyBytes
  netAddress : left.netAddress ≠ right.netAddress
  p2pAddress : left.p2pAddress ≠ right.p2pAddress

/-- Separate validators currently differ. -/
theorem ValidatorMetadata.Separate.differ {left right : ValidatorMetadata}
    (separate : left.Separate right) :
    left.Differ right := by
  obtain ⟨network, protocol, net, p2p⟩ := separate
  simp only [networkKeys, protocolKeys, netAddresses, p2pAddresses,
    disjoint_cons_left] at network protocol net p2p
  simp only [mem_cons, not_or] at network protocol net p2p
  exact ⟨network.1.1, network.1.2.1, network.2.1.1, network.2.1.2.1, protocol.1.1, net.1.1, p2p.1.1⟩

namespace ValidatorSet

/-- The validators of this and of the next committee. -/
def committee (set : ValidatorSet) : List Validator :=
  set.activeValidators ++ set.pendingActiveValidators

/-- The members of the committee share neither keys nor addresses, current or
staged. -/
def Unique (set : ValidatorSet) : Prop :=
  (set.committee.map Validator.metadata).Pairwise ValidatorMetadata.Separate

variable {set after : ValidatorSet}

/-- A replacement changes at most one member of the committee. -/
theorem Replaced.committee (replaced : set.Replaced old new after) :
    after.committee = set.committee ∨
      (old ∈ set.activeValidators ∨ old ∈ set.pendingActiveValidators) ∧
        ∃ index, set.committee[index]? = some old ∧
          after.committee = set.committee.set index new := by
  cases replaced with
  | active index found =>
    have inside := (List.getElem?_eq_some_iff.mp found).1
    refine .inr ⟨.inl (List.mem_of_getElem? found), index, ?_, ?_⟩
    · rw [committee, List.getElem?_append_left inside, found]
    · rw [committee, committee, List.set_append_left _ _ inside]
  | pending index found =>
    refine .inr ⟨.inr (mem_of_getElem? found),
      set.activeValidators.length + index, ?_, ?_⟩
    · rw [committee, getElem?_append_right (Nat.le_add_right _ _), Nat.add_sub_cancel_left, found]
    · rw [committee, committee,
        set_append_right _ _ (Nat.le_add_right _ _), Nat.add_sub_cancel_left]
  | candidate | inactive => exact .inl rfl

section

variable (unique : set.Unique)

include unique

/-- A replacement keeps the committee unique if the new member fits where the old one did. -/
theorem Unique.replaced (replaced : set.Replaced old new after)
    (fits : ∀ index, set.committee[index]? = some old →
      after.committee = set.committee.set index new → ∀ other ∈ set.committee.eraseIdx index,
          old.metadata.Separate other.metadata → new.metadata.Separate other.metadata) :
    after.Unique := by
  unfold Unique at unique ⊢
  rw [pairwise_map] at unique ⊢
  rcases replaced.committee with unchanged | ⟨_, index, found, changed⟩
  · rwa [unchanged]
  · rw [changed]
    exact pairwise_set (fun _ _ separate => separate.symm) unique found
      (fits index found changed)

/-- Fewer values stay unique. -/
theorem Unique.within (replaced : set.Replaced old new after)
    (within : new.metadata.Within old.metadata) :
    after.Unique :=
  unique.replaced replaced fun _ _ _ _ _ separate => separate.mono within (.refl _)

/-- A member that is a duplicate of one member is a duplicate of itself only. -/
theorem Unique.staged (replaced : set.Replaced old new after)
    (checked : after.assertNoPendingOrActiveDuplicates new = .ok ()) :
    after.Unique := by
  apply unique.replaced replaced
  intro index found changed other listed _
  have itself : new.isDuplicate new = true := by
    simp [Validator.isDuplicate]
  have one : countDuplicates after.committee new = 1 := by
    rw [committee, countDuplicates, countP_append]
    exact require_eq_ok.mp checked
  rw [changed, countDuplicates, (perm_set found new).countP_eq,
    countP_cons_of_pos (by exact itself), Nat.add_eq_right, countP_eq_zero] at one
  have different : other.isDuplicate new = false := by
    simpa using one other listed
  exact (Validator.apart_of_isDuplicate different).2.symm

/-- A candidate that is no duplicate may join. -/
theorem Unique.join (notActive : set.isDuplicateWithActiveValidator validator = false)
    (notPending : set.isDuplicateWithPendingValidator validator = false) :
    Unique
      { set with
        validatorCandidates := candidates
        pendingActiveValidators := set.pendingActiveValidators ++ [validator] } := by
  unfold Unique at unique ⊢
  rw [committee, ← append_assoc, map_append, pairwise_append]
  refine ⟨unique, pairwise_singleton _ _, fun left isLeft right isRight => ?_⟩
  obtain ⟨other, listed, rfl⟩ := mem_map.mp isLeft
  obtain ⟨same, isValidator, rfl⟩ := mem_map.mp isRight
  rw [mem_singleton.mp isValidator]
  have different : other.isDuplicate validator = false := by
    rcases mem_append.mp listed with active | pending
    · exact isDuplicateValidator_eq_false.mp notActive other active
    · exact isDuplicateValidator_eq_false.mp notPending other pending
  exact (Validator.apart_of_isDuplicate different).2

end

/-! ## The end of an epoch -/

/-- Entering an epoch keeps the committee unique. -/
theorem Unique.enterEpoch (unique : set.Unique)
    (done : set.enterEpoch records computationReward storageFundReward
      rewardSlashingRate epoch = .ok (stakes, entered)) :
    entered.Unique := by
  obtain ⟨active, joining, sameActive, sameJoining, rfl, _⟩ := enterEpoch_spec done
  have activeSame : active.map metadata =
      set.activeValidators.map metadata :=
    map_eq_of_forall₂ (fun _ _ isSame => isSame.metadata) sameActive
  have joiningSame : joining.map metadata =
      set.pendingActiveValidators.reverse.map metadata := by
    refine map_eq_of_forall₂ ?_ sameJoining
    exact fun _ _ isActive => (Validator.identity_of_activate isActive).1
  have same : (committee
      { set with
        activeValidators := active ++ joining
        pendingActiveValidators := [] }).map metadata =
      (set.activeValidators ++ set.pendingActiveValidators.reverse).map metadata := by
    rw [committee, append_nil, map_append, map_append, activeSame, joiningSame]
  have order : (set.activeValidators ++ set.pendingActiveValidators.reverse).Perm
      set.committee :=
    (reverse_perm _).append_left _
  unfold Unique at unique ⊢
  rw [same]
  exact ((order.map _).pairwise_iff fun separate => separate.symm).mpr unique

/-- Departures keep the committee unique. -/
theorem Unique.leaveEpoch (unique : set.Unique)
    (left : leaveEpoch parameters set records epoch = .ok (after, cleaned)) :
    after.Unique := by
  have kept : KeptByLeaving epoch fun reached _ => reached.Unique :=
    { atRisk := fun _ _ _ unique => unique
      removed := by
        intro middle records index after cleaned unique removed
        obtain ⟨_, _, _, _, _, _, _, _, rfl⟩ := removeActive_spec removed
        exact unique.sublist (((eraseIdx_sublist _ _).append_right _).map _) }
  have start : Unique { set with pendingRemovals := [] } := unique
  exact kept.leaveEpoch start left

/-- Settling an epoch keeps the committee unique. -/
theorem Unique.settleEpoch (unique : set.Unique) (settled : set.settleEpoch = .ok after) :
    after.Unique := by
  obtain ⟨active, totalStake, same, _, rfl⟩ := settleEpoch_spec settled
  have within : List.Forall₂
      (fun before after => metadata after |>.Within before.metadata)
      (set.activeValidators ++ set.pendingActiveValidators)
      (active ++ set.pendingActiveValidators) :=
    rel_append (same.imp fun _ _ isSettled => isSettled.within)
      (List.forall₂_same.mpr fun _ _ => .refl _)
  unfold Unique committee at unique ⊢
  rw [pairwise_map] at unique ⊢
  exact pairwise_of_forall₂
    (fun _ _ _ _ left right separate => separate.mono left right) within unique

end ValidatorSet

namespace SystemLedger

variable {natives : Natives} {ledger next : SystemLedger} {action : Action}

/-- A pending validator does not use the updates for candidates. -/
def OnlyCandidatesOverwrite (ledger : SystemLedger) : Action → Prop
  | .updateCandidateValidator sender _ =>
    ∀ validator ∈ ledger.validators.pendingActiveValidators, validator.suiAddress ≠ sender
  | _ => True

instance (ledger : SystemLedger) (action : Action) :
    Decidable (ledger.OnlyCandidatesOverwrite action) := by
  unfold OnlyCandidatesOverwrite
  split
  · infer_instance
  · infer_instance

/-- The committee stays unique unless a pending validator overwrites its
metadata. -/
theorem unique_of_effect (placed : ledger.Placed) (backed : ledger.Backed)
    (unique : ledger.validators.Unique) (allowed : ledger.OnlyCandidatesOverwrite action)
    (effect : Effect ledger action next) :
    next.validators.Unique := by
  have same {old new : Validator} {set : ValidatorSet}
      (replaced : ledger.validators.Replaced old new set) (isSame : old.Same new) :
      set.Unique := by
    apply unique.within replaced
    rw [isSame.metadata]
    exact .refl _
  cases effect with
  | edited replaced harmless later => exact unique.within replaced harmless.2
  | staged replaced edited checked => exact unique.staged replaced checked
  | @overwritten old new set sender update replaced preactive edited who =>
    -- the validator is a candidate, so that nobody in the committee changes
    unfold ValidatorSet.Unique at unique ⊢
    rcases replaced.committee with unchanged | ⟨active | pending, _⟩
    · exact unchanged ▸ unique
    · rw [backed.activated old active] at preactive
      cases preactive
    · rcases who with found | isSender
      · exact absurd rfl (candidate_ne_member placed.sound found (mem_append_right _ pending))
      · exact absurd isSender (allowed old pending)
  | addedStake replaced requested =>
    exact same replaced (.requestAddStake requested)
  | withdrew listed replaced requested =>
    exact same replaced (.requestWithdrawStake requested)
  | regrouped | registered | unregistered | asked | reported | undone
  | safeMode => exact unique
  | joined sender found notActive notPending enough =>
    exact unique.join notActive notPending
  | advanced hasEntered hasLeft hasSettled =>
    exact ((unique.enterEpoch hasEntered).leaveEpoch hasLeft).settleEpoch hasSettled

/-- The committee is unique if only candidates overwrite their metadata. -/
theorem unique_of_reachable (reachable : Reachable natives OnlyCandidatesOverwrite ledger) :
    ledger.validators.Unique := by
  obtain ⟨_, _, _, start, started, run⟩ := reachable
  have all := run.invariant (fun ledger => ledger.Placed ∧ ledger.Backed ∧ ledger.validators.Unique)
    ⟨placed_of_genesis started, backed_of_genesis started, ?_⟩
    fun _ _ _ ⟨placed, backed, unique⟩ allowed performed =>
      have effect := effect_of_perform performed
      ⟨placed.perform performed, backed_of_effect placed backed effect,
        unique_of_effect placed backed unique allowed effect⟩
  · exact all.2.2
  · obtain ⟨founded, _⟩ := founded_of_genesis started
    unfold ValidatorSet.Unique committee
    rw [founded.pending, append_nil]
    exact founded.apart.imp fun apart => apart.2

/-- No two members of the committee share a key or an address, now or after staged
metadata takes effect, as long as no pending validator uses the updates for
candidates. -/
theorem committee_differs (natives : Natives) (ledger : SystemLedger)
    (reachable : Reachable natives OnlyCandidatesOverwrite ledger) (left right : Nat)
    (different : left ≠ right) (validator other : Validator)
    (isValidator : ledger.validators.committee[left]? = some validator)
    (isOther : ledger.validators.committee[right]? = some other) :
    validator.metadata.Differ other.metadata ∧ ∀ validator' other',
        validator.effectuateStagedMetadata = .ok validator' →
        other.effectuateStagedMetadata = .ok other' →
          validator'.metadata.Differ other'.metadata := by
  have unique := unique_of_reachable reachable
  have separate : validator.metadata.Separate other.metadata := by
    unfold ValidatorSet.Unique at unique
    rw [pairwise_map] at unique
    exact (related_of_eraseIdx (fun _ _ separate => separate.symm) unique
      isValidator).1 other (mem_eraseIdx_iff_getElem?.mpr ⟨right, different.symm, isOther⟩)
  refine ⟨separate.differ, fun validator' other' effectuated otherEffectuated => ?_⟩
  exact (separate.mono (Validator.effectuateStagedMetadata_spec effectuated).1
    (Validator.effectuateStagedMetadata_spec otherEffectuated).1).differ

/-- A candidate joins and an active validator stages another key. -/
theorem committee_differs_staged :
    ∃ (ledger : SystemLedger) (validator other : Validator),
      Reachable .accepting OnlyCandidatesOverwrite ledger ∧
      ledger.validators.committee[0]? = some validator ∧
      ledger.validators.committee[2]? = some other ∧
      validator.metadata.nextEpochNetworkPubkeyBytes = some [9] ∧
      validator.metadata.Differ other.metadata := by
  obtain ⟨ledger, reachable, first, third⟩ := exists_reachable OnlyCandidatesOverwrite
    [.requestAddValidatorCandidate 2 (.uniform 2) 1 0, .requestAddStake 5000000000 2,
      .updateCandidateValidator 2 (.networkPubkey [3]), .requestAddValidator 2,
      .updateValidatorNextEpoch 0 (.networkPubkey [9])] (fun ledger =>
      (ledger.validators.committee[0]?.any fun validator =>
        validator.metadata.nextEpochNetworkPubkeyBytes = some [9]) = true ∧
      ledger.validators.committee[2]?.isSome = true)
    (by decide +kernel)
  obtain ⟨validator, isValidator, staged⟩ := (Option.any_eq_true _ _).mp first
  obtain ⟨other, isOther⟩ := Option.isSome_iff_exists.mp third
  exact ⟨ledger, validator, other, reachable, isValidator, isOther, of_decide_eq_true staged,
    (committee_differs .accepting ledger reachable 0 2 (by decide) validator other
      isValidator isOther).1⟩

/-- A pending validator takes the network key of an active one with an update for
candidates. -/
theorem pending_takes_key :
    ∃ (ledger : SystemLedger) (validator other : Validator),
      Reachable .accepting (fun _ _ => True) ledger ∧
      ledger.validators.activeValidators[0]? = some validator ∧
      ledger.validators.pendingActiveValidators[0]? = some other ∧
      validator.metadata.networkPubkeyBytes = [0] ∧
      other.metadata.networkPubkeyBytes = [0] := by
  obtain ⟨ledger, reachable, first, second⟩ := exists_reachable (fun _ _ => True)
    [.requestAddValidatorCandidate 2 (.uniform 2) 1 0,
      .requestAddStake 5000000000 2, .requestAddValidator 2,
      .updateCandidateValidator 2 (.networkPubkey [0])] (fun ledger =>
      (ledger.validators.activeValidators[0]?.any fun validator =>
        validator.metadata.networkPubkeyBytes = [0]) = true ∧
      (ledger.validators.pendingActiveValidators[0]?.any fun other =>
        other.metadata.networkPubkeyBytes = [0]) = true)
    (by decide +kernel)
  obtain ⟨validator, isValidator, key⟩ := (Option.any_eq_true _ _).mp first
  obtain ⟨other, isOther, otherKey⟩ := (Option.any_eq_true _ _).mp second
  exact ⟨ledger, validator, other, reachable, isValidator, isOther,
    of_decide_eq_true key, of_decide_eq_true otherKey⟩

end SystemLedger

end Sui.System
