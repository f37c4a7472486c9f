import Sui.System.ValidatorPlaces

/-!
# Reports of validators

Report records are about active validators only: reports are removed when the
reporter or the reported validator leaves.  So the epoch change never meets the
address of somebody who is not there.
-/

namespace Sui.System

open Library ValidatorSet
open List hiding after
open Validator (suiAddress)

namespace ReportRecords

/-- A record names active validators, and nobody reports itself. -/
structure Entry (active : List Address) (entry : Address × VecSet Address) : Prop where
  reported : entry.1 ∈ active
  nonempty : entry.2 ≠ []
  distinct : entry.2.Nodup
  reporter : ∀ reporter ∈ entry.2, reporter ∈ active ∧ reporter ≠ entry.1

/-- Every validator has one record, which is valid. -/
structure Valid (active : List Address) (records : ReportRecords) : Prop where
  keys : (VecMap.keys records).Nodup
  entries : ∀ entry ∈ records, Entry active entry

variable {active : List Address} {records after : ReportRecords}

section

variable (valid : Valid active records)

include valid

theorem Valid.mono
    (present : ∀ entry ∈ records, entry.1 ∈ active' ∧ ∀ reporter ∈ entry.2, reporter ∈ active') :
    Valid active' records :=
  ⟨valid.keys, fun entry listed =>
    have old := valid.entries entry listed
    ⟨(present entry listed).1, old.nonempty, old.distinct, fun reporter isReporter =>
      ⟨(present entry listed).2 reporter isReporter, (old.reporter reporter isReporter).2⟩⟩⟩

theorem Valid.set (bound : reported ∈ VecMap.keys records)
    (entry : Entry active (reported, reporters)) :
    Valid active (VecMap.set records reported reporters) := by
  refine ⟨by rw [VecMap.keys_set]; exact valid.keys, fun other listed => ?_⟩
  rcases (VecMap.mem_set reporters valid.keys bound other).mp listed with rfl | ⟨old, _⟩
  · exact entry
  · exact valid.entries other old

/-- A reporter is removed, and the record as well if there is no other one. -/
theorem Valid.erase {reporter : Address} (found : VecMap.get records reported = .ok reporters) :
    ∃ after, (if (reporters.erase reporter).isEmpty then
        VecMap.remove (VecMap.set records reported (reporters.erase reporter)) reported
      else
        pure (VecMap.set records reported (reporters.erase reporter))) = .ok after ∧
      Valid active after ∧ VecMap.keys after ⊆ VecMap.keys records ∧
      (∀ key ∈ VecMap.keys records, key ≠ reported → key ∈ VecMap.keys after) ∧
      ∀ entry ∈ after, reporter ∉ entry.2 ∨ entry ∈ records ∧ entry.1 ≠ reported := by
  have listed := VecMap.mem_of_get found
  have old := valid.entries _ listed
  have bound : reported ∈ VecMap.keys records := mem_map_of_mem listed
  have written := VecMap.mem_set (reporters.erase reporter) valid.keys bound
  have sameKeys := VecMap.keys_set records reported (reporters.erase reporter)
  split
  · have entries (entry : Address × VecSet Address) :
        entry ∈ List.eraseP (fun entry => entry.1 = reported)
          (VecMap.set records reported (reporters.erase reporter)) ↔
            entry ∈ records ∧ entry.1 ≠ reported := by
      rw [VecMap.mem_eraseP (by rw [sameKeys]; exact valid.keys), written]
      exact ⟨fun isEntry => ⟨(isEntry.1.resolve_left fun same => isEntry.2 (same ▸ rfl)).1,
        isEntry.2⟩, fun isEntry => ⟨.inr isEntry, isEntry.2⟩⟩
    have fewer : (VecMap.keys (List.eraseP (fun entry => entry.1 = reported)
        (VecMap.set records reported (reporters.erase reporter)))).Sublist records.keys := by
      rw [← sameKeys]
      exact eraseP_sublist.map Prod.fst
    refine ⟨_, VecMap.remove_of_mem (sameKeys ▸ bound), ⟨fewer.nodup valid.keys,
      fun entry isEntry => valid.entries entry ((entries entry).mp isEntry).1⟩, fewer.subset,
      fun key isKey different => ?_, fun entry isEntry => .inr ((entries entry).mp isEntry)⟩
    obtain ⟨entry, isEntry, rfl⟩ := mem_map.mp isKey
    exact mem_map_of_mem ((entries entry).mpr ⟨isEntry, different⟩)
  · next notEmpty =>
    have fewer : Entry active (reported, reporters.erase reporter) :=
      ⟨old.reported, by simpa using notEmpty, old.distinct.erase _, fun other isOther =>
        old.reporter other (mem_of_mem_erase isOther)⟩
    refine ⟨_, rfl, valid.set bound fewer, by simp, fun _ isKey _ => sameKeys ▸ isKey,
      fun entry isEntry => ?_⟩
    rcases (written entry).mp isEntry with rfl | isOld
    · exact .inl (List.Nodup.not_mem_erase old.distinct)
    · exact .inr isOld

end

/-! ## Reporting -/

/-- A report of an active validator by another one. -/
theorem Valid.report (valid : Valid active records) (reporterActive : reporter ∈ active)
    (reporteeActive : reportee ∈ active)
    (reported : SystemState.reportValidatorImpl reporter reportee records = .ok after) :
    Valid active after := by
  obtain ⟨_, different, reported⟩ := bind_eq_ok.mp reported
  have different := require_eq_ok.mp different
  split at reported
  · next bound =>
    obtain ⟨reporters, found, reported⟩ := bind_eq_ok.mp reported
    have old := valid.entries _ (VecMap.mem_of_get found)
    split at reported
    · cases reported
      exact valid
    · next new =>
      cases reported
      apply valid.set (by simpa using bound)
      refine ⟨reporteeActive, by simp, ?_, fun other listed => ?_⟩
      · rw [← concat_eq_append]
        exact old.distinct.concat new
      · rcases mem_snoc.mp listed with isOld | isNew
        · exact old.reporter other isOld
        · rw [isNew]
          exact ⟨reporterActive, different⟩
  · obtain ⟨absent, rfl⟩ := VecMap.insert_eq_ok.mp reported
    refine ⟨?_, fun entry listed => ?_⟩
    · rw [VecMap.keys, map_append, map_singleton, ← concat_eq_append]
      exact valid.keys.concat absent
    · rcases mem_snoc.mp listed with isOld | isNew
      · exact valid.entries entry isOld
      · rw [isNew]
        exact ⟨reporteeActive, by simp, nodup_singleton _, by
          simpa using ⟨reporterActive, different⟩⟩

/-- Taking a report back. -/
theorem Valid.undo (valid : Valid active records)
    (undone : SystemState.undoReportValidatorImpl reporter reportee records = .ok after) :
    Valid active after := by
  simp only [SystemState.undoReportValidatorImpl, bind_eq_ok,
    require_eq_ok, VecSet.remove_eq_ok] at undone
  obtain ⟨_, _, reporters, found, _, _, _, ⟨_, rfl⟩, done⟩ := undone
  obtain ⟨_, isAfter, afterValid, _⟩ := valid.erase found
  rw [isAfter] at done
  cases done
  exact afterValid

section

variable (valid : Valid active records)

include valid

/-! ## Leaving -/

/-- The reports of a leaving validator about another one can be removed. -/
theorem exists_cleanReporter (bound : reported ∈ VecMap.keys records) :
    ∃ after, cleanReporter leaving records reported = .ok after ∧ Valid active after ∧
      VecMap.keys after ⊆ VecMap.keys records ∧
      (∀ key ∈ VecMap.keys records, key ≠ reported → key ∈ VecMap.keys after) ∧
      ∀ entry ∈ after, leaving ∉ entry.2 ∨ entry ∈ records ∧ entry.1 ≠ reported := by
  obtain ⟨reporters, found⟩ := VecMap.exists_get bound
  rw [cleanReporter, found, ok_bind]
  split
  · next isReporter =>
    rw [VecSet.remove_eq_ok.mpr ⟨isReporter, rfl⟩]
    exact valid.erase found
  · next notReporter =>
    refine ⟨records, rfl, valid, fun _ isKey => isKey, fun _ isKey _ => isKey,
      fun entry isEntry => ?_⟩
    by_cases same : entry.1 = reported
    · have isRecord : entry = (reported, reporters) :=
        inj_on_of_nodup_map valid.keys isEntry (VecMap.mem_of_get found) same
      rw [isRecord]
      exact .inl notReporter
    · exact .inr ⟨isEntry, same⟩

/-- A validator that leaves is taken out of all reports. -/
theorem exists_foldlM_cleanReporter :
    ∃ after, (VecMap.keys records).foldlM (cleanReporter leaving) records = .ok after ∧
      Valid active after ∧ VecMap.keys after ⊆ VecMap.keys records ∧
      ∀ entry ∈ after, leaving ∉ entry.2 := by
  -- the reports about the keys that are left are still to be removed
  refine (exists_foldlM (fun rest reached => Valid active reached ∧ rest.Nodup ∧
      rest ⊆ VecMap.keys reached ∧ VecMap.keys reached ⊆ VecMap.keys records ∧
      ∀ entry ∈ reached, leaving ∉ entry.2 ∨ entry.1 ∈ rest) ?_ ?_).imp
    fun _ => And.imp_right fun done => ⟨done.1, done.2.2.2.1, fun entry listed =>
      (done.2.2.2.2 entry listed).resolve_right not_mem_nil⟩
  · exact ⟨valid, valid.keys, fun _ isKey => isKey, fun _ isKey => isKey, fun _ listed =>
      .inr (mem_map_of_mem listed)⟩
  · rintro key rest reached ⟨reachedValid, distinct, bound, fewer, unclean⟩
    obtain ⟨first, others⟩ := cons_subset.mp bound
    obtain ⟨apart, restDistinct⟩ := nodup_cons.mp distinct
    obtain ⟨next, isNext, nextValid, nextFewer, kept, entries⟩ :=
      exists_cleanReporter reachedValid first
    refine ⟨next, isNext, nextValid, restDistinct, fun other listed => ?_,
      fun _ isKey => fewer (nextFewer isKey), fun entry listed => ?_⟩
    · exact kept other (others listed) fun same => apart (same ▸ listed)
    · rcases entries entry listed with isClean | ⟨old, different⟩
      · exact .inl isClean
      · exact (unclean entry old).imp_right fun isKey =>
          (mem_cons.mp isKey).resolve_left different

/-- Nothing is left of a validator that leaves. -/
theorem Valid.clean (leaving : Address) :
    ∃ after, cleanReportRecordsLeavingValidator records leaving = .ok after ∧ Valid active after ∧
      ∀ entry ∈ after, entry.1 ≠ leaving ∧ leaving ∉ entry.2 := by
  have entries (entry : Address × VecSet Address) :
      entry ∈ List.eraseP (fun entry => entry.1 = leaving) records ↔
        entry ∈ records ∧ entry.1 ≠ leaving := VecMap.mem_eraseP valid.keys entry
  have removed : Valid active (List.eraseP (fun entry => entry.1 = leaving) records) :=
    ⟨(eraseP_sublist.map Prod.fst).nodup valid.keys, fun entry listed =>
      valid.entries entry ((entries entry).mp listed).1⟩
  obtain ⟨after, isAfter, afterValid, fewer, clean⟩ := exists_foldlM_cleanReporter removed
  refine ⟨after, bind_of (VecMap.removeIfContains_eq _ _) isAfter, afterValid,
    fun entry listed => ⟨?_, clean entry listed⟩⟩
  obtain ⟨old, isOld, same⟩ := mem_map.mp (fewer (mem_map_of_mem listed))
  rw [← same]
  exact ((entries old).mp isOld).2

end

end ReportRecords

namespace ValidatorSet

variable {set after : ValidatorSet}

/-- The accounts of the active validators. -/
def activeAddresses (set : ValidatorSet) : List Address :=
  set.activeValidators.map Validator.suiAddress

/-- The records are about the active validators, whose accounts are distinct. -/
structure Reporting (set : ValidatorSet) (records : ReportRecords) : Prop where
  distinct : Distinct set.activeValidators
  valid : ReportRecords.Valid set.activeAddresses records

/-- Leaving validators keep the reports valid. -/
theorem Reporting.keptByLeaving (epoch : Nat) :
    KeptByLeaving epoch Reporting where
  atRisk _ _ _ reporting := ⟨reporting.distinct, reporting.valid⟩
  removed set records index after cleaned reporting removed := by
    obtain ⟨validator, _, _, _, found, _, isCleaned, _, rfl⟩ := removeActive_spec removed
    obtain ⟨_, isAfter, valid, clean⟩ := reporting.valid.clean validator.suiAddress
    rw [isCleaned] at isAfter
    cases isAfter
    have stays {address : Address} (isActive : address ∈ set.activeAddresses)
        (different : address ≠ validator.suiAddress) :
        address ∈ (set.activeValidators.eraseIdx index).map suiAddress := by
      have first := (perm_of_getElem? found).map suiAddress
      rw [activeAddresses, first.mem_iff] at isActive
      exact (mem_cons.mp isActive).resolve_left different
    refine ⟨reporting.distinct.eraseIdx index, valid.mono fun entry listed => ?_⟩
    obtain ⟨notKey, notReporter⟩ := clean entry listed
    have old := valid.entries entry listed
    refine ⟨stays old.reported notKey, fun reporter isReporter => ?_⟩
    exact stays (old.reporter reporter isReporter).1 fun same => notReporter (same ▸ isReporter)

/-! ## Voting power of reporters -/

/-- The voting power of an account. -/
def powerOf (validators : List Validator) (address : Address) : Nat :=
  ((validators.find? fun validator => validator.suiAddress = address).map
    Validator.votingPower).getD 0

variable {validators : List Validator}

section

variable (distinct : Distinct validators)

include distinct

/-- A validator is found by its account. -/
theorem Distinct.find?_eq_some (listed : validator ∈ validators) :
    (validators.find? fun other => other.suiAddress = validator.suiAddress) = some validator := by
  have found : (validators.find? fun other =>
      other.suiAddress = validator.suiAddress).isSome = true := by
    rw [find?_isSome]
    exact ⟨validator, listed, by simp⟩
  obtain ⟨other, isOther⟩ := Option.isSome_iff_exists.mp found
  have same : other.suiAddress = validator.suiAddress := by
    simpa using find?_some isOther
  rw [isOther, inj_on_of_nodup_map distinct (mem_of_find?_eq_some isOther) listed same]

/-- The reporters of a record have at most the whole voting power. -/
theorem sum_powerOf_le (addressesDistinct : addresses.Nodup)
    (active : addresses ⊆ validators.map suiAddress) :
    (addresses.map (powerOf validators)).sum ≤ (validators.map Validator.votingPower).sum := by
  have powers : (validators.map suiAddress).map (powerOf validators) =
      validators.map Validator.votingPower := by
    rw [map_map]
    apply map_congr_left
    intro validator listed
    rw [Function.comp_apply, powerOf, distinct.find?_eq_some listed]
    rfl
  obtain ⟨same, isSame, fewer⟩ := subperm_of_subset addressesDistinct active
  rw [← powers, ← (isSame.map _).sum_eq]
  exact (fewer.map _).sum_le_sum fun _ _ => Nat.zero_le _

/-- The voting power of accounts is the sum of their powers. -/
theorem sumVotingPowerByAddresses_eq (fits : (validators.map Validator.votingPower).sum < 2 ^ 64)
    (addressesDistinct : addresses.Nodup)
    (active : addresses ⊆ validators.map suiAddress) :
    sumVotingPowerByAddresses validators addresses =
      .ok (addresses.map (powerOf validators)).sum := by
  have bounded := sum_powerOf_le distinct addressesDistinct active
  have added (start : Nat) (startFits : start + (addresses.map (powerOf validators)).sum < 2 ^ 64) :
      addresses.foldlM (fun sum address => do
          let validator ← getValidatorRef validators address
          U64.add sum validator.votingPower)
        start = .ok (start + (addresses.map (powerOf validators)).sum) := by
    clear bounded addressesDistinct
    induction addresses generalizing start with
    | nil => rfl
    | cons address addresses ih =>
      obtain ⟨isActive, othersActive⟩ := cons_subset.mp active
      obtain ⟨validator, listed, rfl⟩ := mem_map.mp isActive
      have power : powerOf validators validator.suiAddress = validator.votingPower := by
        rw [powerOf, distinct.find?_eq_some listed]
        rfl
      have found : getValidatorRef validators validator.suiAddress = .ok validator := by
        rw [getValidatorRef, distinct.find?_eq_some listed]
        rfl
      rw [map_cons, sum_cons, power] at startFits ⊢
      rw [foldlM_cons, bind_eq_ok]
      refine ⟨start + validator.votingPower, ?_, ?_⟩
      · rw [bind_eq_ok]
        exact ⟨validator, found, U64.add_eq_ok.mpr ⟨by omega, rfl⟩⟩
      · rw [ih othersActive _ (by omega), Nat.add_assoc]
  unfold sumVotingPowerByAddresses
  rw [added 0 (by omega), Nat.zero_add]

end

/-! ## Slashing -/

variable {records : ReportRecords}

/-- The validators that a quorum reports. -/
def quorumReported (validators : List Validator) (records : ReportRecords) : List Address :=
  (records.filter fun record => VotingPower.quorumThreshold ≤
    (record.2.map (powerOf validators)).sum).map Prod.fst

/-- Nobody is slashed twice. -/
theorem nodup_quorumReported (valid : ReportRecords.Valid active records) :
    (quorumReported validators records.reverse).Nodup := by
  refine (filter_sublist.map _).nodup ?_
  rw [map_reverse, nodup_reverse]
  exact valid.keys

/-- Those validators are slashed that a quorum reports. -/
theorem computeSlashedValidators_eq (reporting : set.Reporting records)
    (fits : (set.activeValidators.map Validator.votingPower).sum < 2 ^ 64) :
    set.computeSlashedValidators records =
      .ok (quorumReported set.activeValidators records.reverse) := by
  have folded : ∃ slashed, set.computeSlashedValidators records = .ok slashed ∧ [] ⊆ records ∧
      slashed ++ quorumReported set.activeValidators [] =
        quorumReported set.activeValidators records.reverse := by
    refine exists_foldlM (fun rest slashed => rest ⊆ records ∧
      slashed ++ quorumReported set.activeValidators rest = _)
        ⟨fun _ => mem_reverse.mp, rfl⟩ ?_
    rintro record rest slashed ⟨listed, same⟩
    obtain ⟨isRecord, others⟩ := cons_subset.mp listed
    have entry := reporting.valid.entries record isRecord
    obtain ⟨validator, isValidator, isReported⟩ := mem_map.mp entry.reported
    have isActive : set.isActiveValidatorBySuiAddress record.1 = true := by
      simpa [isActiveValidatorBySuiAddress, findValidator] using
        ⟨validator, isValidator, isReported⟩
    rw [require_of isActive, ok_bind, sumVotingPowerByAddresses_eq reporting.distinct fits
      entry.distinct fun reporter isReporter => (entry.reporter reporter isReporter).1, ok_bind]
    rw [quorumReported, filter_cons] at same
    split
    · next quorum => exact ⟨_, rfl, others, by simpa [quorum, quorumReported] using same⟩
    · next below => exact ⟨_, rfl, others, by simpa [below, quorumReported] using same⟩
  obtain ⟨slashed, computed, _, same⟩ := folded
  rw [computed, ← same, quorumReported, filter_nil, map_nil, append_nil]

/-- What the epoch change computes from the records never fails. -/
theorem slashing_succeeds (reporting : set.Reporting records)
    (fits : (set.activeValidators.map Validator.votingPower).sum < 2 ^ 64) :
    ∃ slashed votes indices,
      set.computeSlashedValidators records = .ok slashed ∧
      sumVotingPowerByAddresses set.activeValidators slashed = .ok votes ∧
      getValidatorIndices set.activeValidators slashed = .ok indices := by
  have active : quorumReported set.activeValidators records.reverse ⊆ set.activeAddresses := by
    intro address listed
    obtain ⟨record, isRecord, rfl⟩ := mem_map.mp listed
    exact (reporting.valid.entries record (mem_reverse.mp (mem_of_mem_filter isRecord))).reported
  have found : ∃ indices, getValidatorIndices set.activeValidators
      (quorumReported set.activeValidators records.reverse) = .ok indices := by
    apply exists_mapM
    intro address listed
    obtain ⟨validator, isValidator, rfl⟩ := mem_map.mp (active listed)
    have isSome : (findValidator set.activeValidators validator.suiAddress).isSome = true := by
      simpa [findValidator] using ⟨validator, isValidator, rfl⟩
    obtain ⟨index, isIndex⟩ := Option.isSome_iff_exists.mp isSome
    exact ⟨index, by rw [isIndex]; rfl⟩
  obtain ⟨indices, isIndices⟩ := found
  exact ⟨_, _, indices, computeSlashedValidators_eq reporting fits, sumVotingPowerByAddresses_eq
    reporting.distinct fits (nodup_quorumReported reporting.valid) active, isIndices⟩

end ValidatorSet

namespace SystemLedger

variable {natives : Natives} {ledger next : SystemLedger} {action : Action}

/-! ## Runs -/

/-- The records are about the active validators, which share the whole voting
power. -/
structure Reporting (ledger : SystemLedger) : Prop where
  valid : ReportRecords.Valid ledger.validators.activeAddresses
    ledger.state.validatorReportRecords
  power : (ledger.validators.activeValidators.map Validator.votingPower).sum =
    VotingPower.totalVotingPower

/-- Replacing a validator keeps the active accounts and powers. -/
theorem active_of_replaced {set after : ValidatorSet} (replaced : set.Replaced old new after)
    (suiAddress : new.suiAddress = old.suiAddress)
    (votingPower : new.votingPower = old.votingPower) :
    after.activeAddresses = set.activeAddresses ∧ after.activeValidators.map Validator.votingPower =
        set.activeValidators.map Validator.votingPower := by
  cases replaced with
  | active index found =>
    exact ⟨map_set_of_same found suiAddress, map_set_of_same found votingPower⟩
  | pending | candidate | inactive => exact ⟨rfl, rfl⟩

/-- The records are about active validators still after pending ones became active. -/
theorem Reporting.entered {entered : ValidatorSet} {stakes : List StakedSui}
    (placed : ledger.Placed) (reporting : ledger.Reporting)
    (hasEntered : ledger.validators.enterEpoch ledger.state.validatorReportRecords
      computationReward storageFundReward rewardSlashingRate ledger.state.epoch =
        .ok (stakes, entered)) :
    entered.Reporting ledger.state.validatorReportRecords := by
  refine ⟨(placed.entered hasEntered).2, reporting.valid.mono fun entry listed => ?_⟩
  have more : ledger.validators.activeAddresses ⊆ entered.activeAddresses := by
    obtain ⟨active, joining, same, _, rfl, _⟩ := enterEpoch_spec hasEntered
    rw [activeAddresses, activeAddresses, map_append,
      map_eq_of_forall₂ (fun _ _ isSame => isSame.suiAddress) same]
    exact subset_append_left _ _
  have old := reporting.valid.entries entry listed
  exact ⟨more old.reported, fun reporter isReporter =>
    more (old.reporter reporter isReporter).1⟩

/-- An epoch change keeps the reports valid. -/
theorem reporting_of_phases {stakes newStakes : List StakedSui} (placed : ledger.Placed)
    (reporting : ledger.Reporting)
    (hasEntered : ledger.validators.enterEpoch ledger.state.validatorReportRecords
      computationReward storageFundReward rewardSlashingRate ledger.state.epoch =
        .ok (newStakes, entered))
    (hasLeft : leaveEpoch ledger.state.parameters.lowStake entered
      ledger.state.validatorReportRecords ledger.state.epoch = .ok (left, cleaned))
    (hasSettled : left.settleEpoch = .ok settled) :
    Reporting
      { ledger with
        stakes := stakes
        state := { ledger.state with
          epoch := ledger.state.epoch + 1
          validators := settled
          validatorReportRecords := cleaned } } := by
  have start : ValidatorSet.Reporting { entered with pendingRemovals := [] }
      ledger.state.validatorReportRecords := { reporting.entered placed hasEntered with }
  have leftReporting :=
    (ValidatorSet.Reporting.keptByLeaving ledger.state.epoch).leaveEpoch start hasLeft
  obtain ⟨final, _, same, summed, rfl⟩ := settleEpoch_spec hasSettled
  have addresses : final.map suiAddress = left.activeAddresses :=
    map_eq_of_forall₂ (fun _ _ isSame => isSame.suiAddress) same
  refine ⟨?_, VotingPower.sum_of_sumVotingPower summed⟩
  have valid := leftReporting.valid
  rw [← addresses] at valid
  exact valid

/-- Every effect keeps the reports valid. -/
theorem reporting_of_effect (placed : ledger.Placed) (reporting : ledger.Reporting)
    (effect : Effect ledger action next) :
    next.Reporting := by
  have kept {old new : Validator} {set : ValidatorSet}
      (replaced : ledger.validators.Replaced old new set)
      (suiAddress : new.suiAddress = old.suiAddress)
      (votingPower : new.votingPower = old.votingPower) :
      Reporting { ledger with state := { ledger.state with validators := set } } := by
    obtain ⟨addresses, powers⟩ := active_of_replaced replaced suiAddress votingPower
    exact ⟨addresses ▸ reporting.valid, powers ▸ reporting.power⟩
  have listed {address : Address} (isActive : ∃ validator ∈ ledger.validators.activeValidators,
        validator.suiAddress = address) : address ∈ ledger.validators.activeAddresses :=
    mem_map.mpr isActive
  cases effect with
  | edited replaced harmless later =>
    exact { kept replaced harmless.1.suiAddress harmless.1.votingPower with }
  | staged replaced edited unique =>
    exact { kept replaced edited.suiAddress edited.votingPower with }
  | overwritten sender update replaced preactive edited who =>
    exact { kept replaced edited.suiAddress edited.votingPower with }
  | addedStake replaced requested =>
    have same := Validator.Same.requestAddStake requested
    exact { kept replaced same.suiAddress same.votingPower with }
  | withdrew isStake replaced requested =>
    have same := Validator.Same.requestWithdrawStake requested
    exact { kept replaced same.suiAddress same.votingPower with }
  | regrouped | registered | unregistered | joined | asked | safeMode =>
    exact { reporting with }
  | reported reporterActive reporteeActive done =>
    exact ⟨reporting.valid.report (listed reporterActive) (listed reporteeActive)
      done, reporting.power⟩
  | undone done => exact ⟨reporting.valid.undo done, reporting.power⟩
  | advanced hasEntered hasLeft hasSettled =>
    exact reporting_of_phases placed reporting hasEntered hasLeft hasSettled

/-- The reports are valid in every reachable ledger. -/
theorem reporting_of_reachable (reachable : Reachable natives allowed ledger) :
    ledger.Placed ∧ ledger.Reporting := by
  obtain ⟨_, _, _, start, started, run⟩ := reachable
  refine run.invariant (fun ledger => ledger.Placed ∧ ledger.Reporting)
    ⟨placed_of_genesis started, ?_⟩ fun _ _ _ before _ performed =>
      ⟨before.1.perform performed,
        reporting_of_effect before.1 before.2 (effect_of_perform performed)⟩
  obtain ⟨founded, _⟩ := founded_of_genesis started
  refine ⟨?_, VotingPower.sum_of_sumVotingPower founded.power⟩
  rw [founded.records]
  exact ⟨nodup_nil, by simp⟩

/-- In every reachable state, the records are about active validators, and the
epoch change evaluates them without failure. -/
theorem reports_of_reachable (natives : Natives) (allowed : SystemLedger → Action → Prop)
    (ledger : SystemLedger) (reachable : Reachable natives allowed ledger) :
    (∀ entry ∈ ledger.state.validatorReportRecords,
      entry.1 ∈ ledger.validators.activeAddresses ∧ entry.2 ≠ [] ∧ ∀ reporter ∈ entry.2,
          reporter ∈ ledger.validators.activeAddresses ∧ reporter ≠ entry.1) ∧
      ∃ slashed votes indices, ledger.validators.computeSlashedValidators
            ledger.state.validatorReportRecords = .ok slashed ∧
          ValidatorSet.sumVotingPowerByAddresses
            ledger.validators.activeValidators slashed = .ok votes ∧
          ValidatorSet.getValidatorIndices ledger.validators.activeValidators
            slashed = .ok indices := by
  obtain ⟨placed, reporting⟩ := reporting_of_reachable reachable
  constructor
  · intro entry listed
    have valid := reporting.valid.entries entry listed
    exact ⟨valid.reported, valid.nonempty, valid.reporter⟩
  · apply slashing_succeeds
    · exact ⟨(nodup_append.mp (nodup_accounts placed.sound)).1, reporting.valid⟩
    · rw [reporting.power]
      decide

/-- Two validators report each other, and one of them asks to leave. -/
theorem reports_of_reachable_small :
    ∃ ledger : SystemLedger, Reachable .accepting (fun _ _ => True) ledger ∧
      ledger.state.validatorReportRecords = [(1, [0]), (0, [1])] ∧
      ledger.validators.pendingRemovals = [1] ∧
      ∃ slashed, ledger.validators.computeSlashedValidators
        ledger.state.validatorReportRecords = .ok slashed := by
  obtain ⟨ledger, reachable, records, removals⟩ := exists_reachable (fun _ _ => True)
    [.reportValidator ⟨1, 0⟩ 1, .reportValidator ⟨3, 1⟩ 0,
      .requestAddValidatorCandidate 2 (.uniform 2) 1 0,
      .requestAddStake 5000000000 2, .requestAddValidator 2, .requestRemoveValidator 1]
    (fun ledger => ledger.state.validatorReportRecords = [(1, [0]), (0, [1])] ∧
      ledger.validators.pendingRemovals = [1]) (by decide +kernel)
  obtain ⟨slashed, _, _, computed, _⟩ := (reports_of_reachable .accepting _ ledger reachable).2
  exact ⟨ledger, reachable, records, removals, slashed, computed⟩

/-- In every reachable state, those validators are slashed that a quorum of the voting
power reports, and active validators with more than the rest can prevent it. -/
theorem slashed_by_quorum (natives : Natives) (allowed : SystemLedger → Action → Prop)
    (ledger : SystemLedger) (reachable : Reachable natives allowed ledger) :
    let active := ledger.validators.activeValidators
    let records := ledger.state.validatorReportRecords
    ledger.validators.computeSlashedValidators records =
        .ok (quorumReported active records.reverse) ∧
      (quorumReported active records.reverse).Nodup ∧
      ∀ record ∈ records, VotingPower.quorumThreshold ≤ (record.2.map (powerOf active)).sum →
        ∀ silent : List Address, silent.Nodup → silent ⊆ active.map suiAddress →
          silent.Disjoint record.2 → (silent.map (powerOf active)).sum ≤
            VotingPower.totalVotingPower - VotingPower.quorumThreshold := by
  obtain ⟨placed, reporting⟩ := reporting_of_reachable reachable
  have distinct := (nodup_append.mp (nodup_accounts placed.sound)).1
  refine ⟨computeSlashedValidators_eq ⟨distinct, reporting.valid⟩
    (by rw [reporting.power]; decide), nodup_quorumReported reporting.valid, ?_⟩
  intro record listed quorum silent once active others
  have valid := reporting.valid.entries record listed
  -- The silent validators and the reporters share the whole voting power.
  have whole := sum_powerOf_le distinct (once.append valid.distinct others)
    (append_subset.mpr ⟨active, fun reporter isReporter =>
      (valid.reporter reporter isReporter).1⟩)
  rw [reporting.power, map_append, sum_append] at whole
  exact Nat.le_sub_of_add_le ((Nat.add_le_add_left quorum _).trans whole)

/-- A validator with half of the voting power reports the other one in vain. -/
theorem slashed_by_quorum_small :
    ∃ ledger : SystemLedger, Reachable .accepting (fun _ _ => True) ledger ∧
      ledger.state.validatorReportRecords = [(1, [0])] ∧
      ledger.validators.computeSlashedValidators ledger.state.validatorReportRecords = .ok [] := by
  obtain ⟨ledger, reachable, records, nobody⟩ := exists_reachable (fun _ _ => True)
    [.reportValidator ⟨1, 0⟩ 1]
    (fun ledger => ledger.state.validatorReportRecords = [(1, [0])] ∧ quorumReported
      ledger.validators.activeValidators ledger.state.validatorReportRecords.reverse = [])
    (by decide +kernel)
  refine ⟨ledger, reachable, records, ?_⟩
  rw [(slashed_by_quorum .accepting _ ledger reachable).1, nobody]

end SystemLedger

end Sui.System
