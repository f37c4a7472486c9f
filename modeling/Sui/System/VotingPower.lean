import Sui.System.Validator

/-!
# Voting power

The voting power of the active validators follows their stake, but is capped.
What is cut off, and what rounding leaves, is given to the validators below the
cap, in the order of their stake.
-/

namespace Sui.System.VotingPower

open Library Validator

/-- The voting power of all validators. -/
def totalVotingPower : Nat :=
  10000

/-- The voting power of a quorum. -/
def quorumThreshold : Nat :=
  6667

/-- The cap, if there are enough validators. -/
def maxVotingPower : Nat :=
  1000

/-- The voting power that a validator is going to have. -/
structure VotingPowerInfo where
  validatorIndex : Nat
  votingPower : Nat
  stake : Nat
  deriving DecidableEq

/-- The quotient, rounded up. -/
def divideAndRoundUp (dividend divisor : Nat) : Program Nat := do
  let quotient ← U64.div dividend divisor
  if dividend % divisor = 0 then pure quotient else U64.add quotient 1

/-- The stake of all validators. -/
def totalStake (validators : List Validator) : Program Nat :=
  validators.foldlM (fun total validator => U64.add total validator.totalStakeAmount) 0

/-- Insert an entry before the first one with at most its stake. -/
def insert (info : VotingPowerInfo) : List VotingPowerInfo → List VotingPowerInfo
  | [] => [info]
  | first :: infos =>
    if info.stake < first.stake then
      first :: insert info infos
    else
      info :: first :: infos

/-- The voting power of the validators from a position on, by their stake and
capped.  The entries and the voting power so far are passed along. -/
def initVotingPowerInfoFrom (total threshold : Nat) :
    List Validator → Nat → List VotingPowerInfo → Nat → Program (List VotingPowerInfo × Nat)
  | [], _, infos, power => pure (infos, power)
  | validator :: validators, index, infos, power => do
    let stake := validator.totalStakeAmount
    let adjustedStake ← U64.div (stake * totalVotingPower) total
    let adjustedStake ← U64.cast adjustedStake
    let votingPower := min adjustedStake threshold
    let power ← U64.add power votingPower
    initVotingPowerInfoFrom total threshold validators (index + 1)
      (insert ⟨index, votingPower, stake⟩ infos) power

/-- The voting power of all validators, and what remains to be given out. -/
def initVotingPowerInfo (validators : List Validator) (threshold : Nat) :
    Program (List VotingPowerInfo × Nat) := do
  let total ← totalStake validators
  let (infos, power) ← initVotingPowerInfoFrom total threshold validators 0 [] 0
  let remaining ← U64.sub totalVotingPower power
  pure (infos, remaining)

/-- Give out the remaining power to the validators below the cap. -/
def adjustVotingPower (threshold : Nat) :
    List VotingPowerInfo → Nat → Program (List VotingPowerInfo)
  | [], remaining => do
    require (remaining = 0) (Abort.votingPower 1)
    pure []
  | info :: infos, remaining =>
    if remaining = 0 then
      pure (info :: infos)
    else do
      let planned ← divideAndRoundUp remaining (infos.length + 1)
      let target ← U64.add info.votingPower planned
      let target := min threshold target
      let missing ← U64.sub target info.votingPower
      let actual := min remaining missing
      let votingPower ← U64.add info.votingPower actual
      require (votingPower ≤ threshold) (Abort.votingPower 3)
      let infos ← adjustVotingPower threshold infos (remaining - actual)
      pure ({ info with votingPower := votingPower } :: infos)

/-- Write the voting power of the entries to the validators, the last entry
first. -/
def updateVotingPower (validators : List Validator) :
    List VotingPowerInfo → Program (List Validator)
  | [] => pure validators
  | info :: infos => do
    let validators ← updateVotingPower validators infos
    match validators[info.validatorIndex]? with
    | none => .error .indexOutOfBounds
    | some validator =>
      pure (validators.set info.validatorIndex
        { validator with votingPower := info.votingPower })

/-- A validator with more stake than another one has at least its power. -/
def checkRelativePower (left right : Validator) : Program Unit := do
  if right.totalStakeAmount < left.totalStakeAmount then
    require (right.votingPower ≤ left.votingPower) (Abort.votingPower 2)
  if left.totalStakeAmount < right.totalStakeAmount then
    require (left.votingPower ≤ right.votingPower) (Abort.votingPower 2)

/-- Every two validators have the right relation. -/
def checkRelativePowers : List Validator → Program Unit
  | [] => pure ()
  | validator :: validators => do
    validators.forM (checkRelativePower validator)
    checkRelativePowers validators

/-- The voting power of all validators, which must be positive. -/
def sumVotingPower (validators : List Validator) : Program Nat :=
  validators.foldlM
    (fun total validator => do
      require (0 < validator.votingPower) (Abort.votingPower 4)
      U64.add total validator.votingPower)
    0

/-- What must hold of the voting power. -/
def checkInvariants (validators : List Validator) : Program Unit := do
  let total ← sumVotingPower validators
  require (total = totalVotingPower) (Abort.votingPower 1)
  checkRelativePowers validators

/-- Set the voting power of all validators. -/
def setVotingPower (validators : List Validator) : Program (List Validator) := do
  let feasible ← divideAndRoundUp totalVotingPower validators.length
  let threshold := min totalVotingPower (max maxVotingPower feasible)
  let (infos, remaining) ← initVotingPowerInfo validators threshold
  let infos ← adjustVotingPower threshold infos remaining
  let validators ← updateVotingPower validators infos
  checkInvariants validators
  pure validators

/-! ## What is set -/

/-- Two validators differ in their voting power only. -/
def SamePower (before after : Validator) : Prop :=
  after = { before with votingPower := after.votingPower }

/-- Updating the powers changes nothing else. -/
theorem updateVotingPower_spec (updated : updateVotingPower validators infos = .ok after) :
    List.Forall₂ SamePower validators after := by
  induction infos generalizing after with
  | nil =>
    cases updated
    exact List.forall₂_same.mpr fun _ _ => rfl
  | cons info infos ih =>
    obtain ⟨middle, before, written⟩ := bind_eq_ok.mp updated
    have related := ih before
    split at written
    · cases written
    · next validator found =>
      cases written
      apply forall₂_set related found
      intro before same
      unfold SamePower at same ⊢
      rw [same]

/-- The sum depends on the powers only. -/
theorem sumVotingPower_congr (same : left.map votingPower = right.map votingPower) :
    sumVotingPower left = sumVotingPower right := by
  have byPower (validators : List Validator) : sumVotingPower validators =
      (validators.map votingPower).foldlM (fun total power => do
          require (0 < power) (Abort.votingPower 4)
          U64.add total power)
        0 := by
    rw [List.foldlM_map]
    rfl
  rw [byPower, byPower, same]

/-- A sum that is returned is the sum of the powers. -/
theorem sum_of_sumVotingPower (summed : sumVotingPower validators = .ok total) :
    (validators.map votingPower).sum = total := by
  have added (start : Nat) (folded : validators.foldlM (fun total validator => do
          require (0 < validator.votingPower) (Abort.votingPower 4)
          U64.add total validator.votingPower)
        start = .ok total) :
      start + (validators.map votingPower).sum = total := by
    clear summed
    induction validators generalizing start with
    | nil =>
      cases folded
      rfl
    | cons validator validators ih =>
      simp only [List.foldlM_cons, bind_eq_ok, require_eq_ok, U64.add_eq_ok] at folded
      obtain ⟨_, ⟨_, _, _, rfl⟩, rest⟩ := folded
      rw [List.map_cons, List.sum_cons, ← ih _ rest]
      omega
  rw [← added 0 summed, Nat.zero_add]

/-- Only the powers are set, and they add up to the total. -/
theorem setVotingPower_spec (set : setVotingPower validators = .ok after) :
    List.Forall₂ SamePower validators after ∧ sumVotingPower after = .ok totalVotingPower := by
  simp only [setVotingPower, checkInvariants, bind_eq_ok,
    require_eq_ok, pure_eq_ok, Prod.exists] at set
  obtain ⟨_, _, _, _, _, _, _, middle, updated, _, ⟨_, summed, _, rfl, _⟩, rfl⟩ := set
  exact ⟨updateVotingPower_spec updated, summed⟩

/-! ## Fairness

The entries are sorted by stake, so that their power, which follows the stake up to the cap,
is sorted as well.  An entry that is not capped gets at least what any later one gets, and
leaves at most as much as the later ones have room for. -/

open Library VotingPowerInfo U64
open List hiding after count

/-- The stake of all validators. -/
def stakeSum (validators : List Validator) : Nat :=
  (validators.map Validator.totalStakeAmount).sum

/-- Set the voting power of all validators, without the final check. -/
def assignVotingPower (validators : List Validator) : Program (List Validator) := do
  let feasible ← divideAndRoundUp totalVotingPower validators.length
  let threshold := min totalVotingPower (max maxVotingPower feasible)
  let (infos, remaining) ← initVotingPowerInfo validators threshold
  let infos ← adjustVotingPower threshold infos remaining
  updateVotingPower validators infos

theorem setVotingPower_eq (validators : List Validator) :
    setVotingPower validators = (do
      let after ← assignVotingPower validators
      checkInvariants after
      pure after) := by
  simp [setVotingPower, assignVotingPower]

/-- Division rounds up below the largest number. -/
theorem divideAndRoundUp_eq (positive : 0 < divisor) (fits : dividend < 2 ^ 64 - 1) :
    divideAndRoundUp dividend divisor = .ok (dividend ⌈/⌉ divisor) := by
  have quotient := Nat.div_le_self dividend divisor
  have parts := Nat.div_add_mod dividend divisor
  have small := Nat.mod_lt dividend positive
  have divided : div dividend divisor = .ok (dividend / divisor) := if_neg positive.ne'
  rw [divideAndRoundUp, divided, ok_bind]
  split
  · next exact =>
    have whole : dividend ⌈/⌉ divisor = dividend / divisor := by
      apply le_antisymm
      · rw [ceilDiv_le_iff_le_mul positive]
        omega
      · exact Nat.div_le_of_le_mul (le_smul_ceilDiv positive)
    rw [whole]
    rfl
  · next inexact =>
    have next : dividend ⌈/⌉ divisor = dividend / divisor + 1 := by
      apply le_antisymm
      · rw [ceilDiv_le_iff_le_mul positive, Nat.mul_add]
        omega
      · by_contra small
        have enough := (ceilDiv_le_iff_le_mul positive).mp (Nat.lt_succ_iff.mp (not_le.mp small))
        omega
    rw [next]
    exact add_eq_ok.mpr ⟨by omega, rfl⟩

/-! ## The initial power -/

/-- The entry of a validator. -/
def infoOf (total threshold : Nat) (entry : Validator × Nat) : VotingPowerInfo :=
  ⟨entry.2, min (entry.1.totalStakeAmount * totalVotingPower / total) threshold,
    entry.1.totalStakeAmount⟩

/-- The power of entries. -/
def powerSum (infos : List VotingPowerInfo) : Nat :=
  (infos.map VotingPowerInfo.votingPower).sum

/-- Entries are kept in the order of the stake. -/
theorem insert_eq (info : VotingPowerInfo) (infos : List VotingPowerInfo) :
    insert info infos = infos.orderedInsert (fun left right => right.stake ≤ left.stake) info := by
  induction infos with
  | nil => rfl
  | cons first infos ih =>
    rw [insert, orderedInsert_cons, ih]
    simp only [← not_le, ite_not]

/-- Inserting one after the other sorts by descending stakes. -/
theorem foldl_insert (entries : List VotingPowerInfo) :
    (entries.foldl (fun infos info => insert info infos) []).Perm entries ∧
      (entries.foldl (fun infos info => insert info infos) []).Pairwise
        fun left right => right.stake ≤ left.stake := by
  have : Std.Total fun left right : VotingPowerInfo => right.stake ≤ left.stake :=
    ⟨fun _ _ => le_total _ _⟩
  have : IsTrans VotingPowerInfo fun left right => right.stake ≤ left.stake :=
    ⟨fun _ _ _ first second => second.trans first⟩
  have sorted : entries.foldl (fun infos info => insert info infos) [] =
      entries.reverse.insertionSort fun left right => right.stake ≤ left.stake := by
    simp only [insert_eq, foldl_eq_foldr_reverse]
    rfl
  rw [sorted]
  exact ⟨(perm_insertionSort _ _).trans (reverse_perm _), pairwise_insertionSort _ _⟩

/-- The total stake is the sum of the stakes. -/
theorem totalStake_eq (small : stakeSum validators < 2 ^ 64) :
    totalStake validators = .ok (stakeSum validators) := by
  have added (start : Nat) (fits : start + stakeSum validators < 2 ^ 64) :
      validators.foldlM (fun total validator => add total validator.totalStakeAmount) start =
        .ok (start + stakeSum validators) := by
    clear * - fits
    induction validators generalizing start with
    | nil => rfl
    | cons validator validators ih =>
      simp only [stakeSum, map_cons, sum_cons, ← Nat.add_assoc] at fits ⊢
      rw [foldlM_cons, add_eq_ok.mpr ⟨by omega, rfl⟩, ok_bind]
      exact ih _ fits
  simpa [totalStake] using added 0 (by simpa using small)

/-- The shares of the stake are at most the whole. -/
theorem sum_shares_le (total threshold : Nat) (validators : List Validator) (index : Nat) :
    powerSum ((validators.zipIdx index).map (infoOf total threshold)) ≤
      stakeSum validators * totalVotingPower / total := by
  induction validators generalizing index with
  | nil => exact Nat.zero_le _
  | cons validator validators ih =>
    have rest := ih (index + 1)
    have joined : validator.totalStakeAmount * totalVotingPower / total +
        stakeSum validators * totalVotingPower / total ≤ _ := Nat.div_add_div_le_add_div
    simp only [powerSum, stakeSum, zipIdx_cons, map_cons, sum_cons, Nat.add_mul] at rest joined ⊢
    have capped : (infoOf total threshold (validator, index)).votingPower ≤
        validator.totalStakeAmount * totalVotingPower / total := min_le_left _ _
    omega

/-- The powers before the remainder is distributed. -/
theorem initVotingPowerInfoFrom_eq (threshold : Nat) (positive : 0 < total)
    (bounded : ∀ validator ∈ validators, validator.totalStakeAmount ≤ total)
    (fits : power + powerSum ((validators.zipIdx index).map (infoOf total threshold)) < 2 ^ 64) :
    initVotingPowerInfoFrom total threshold validators index infos power =
      .ok (((validators.zipIdx index).map (infoOf total threshold)).foldl
          (fun infos info => insert info infos) infos,
        power + powerSum ((validators.zipIdx index).map (infoOf total threshold))) := by
  induction validators generalizing index infos power with
  | nil => rfl
  | cons validator validators ih =>
    have share : validator.totalStakeAmount * totalVotingPower / total ≤ totalVotingPower :=
      Nat.div_le_of_le_mul (Nat.mul_le_mul_right _ (bounded validator mem_cons_self))
    have small : validator.totalStakeAmount * totalVotingPower / total < 2 ^ 64 :=
      share.trans_lt (by decide)
    simp only [powerSum, zipIdx_cons, map_cons, sum_cons, foldl_cons, ← Nat.add_assoc] at fits ⊢
    have divided : div (validator.totalStakeAmount * totalVotingPower) total = .ok _ :=
      if_neg positive.ne'
    rw [initVotingPowerInfoFrom, divided, ok_bind, cast_eq_ok.mpr ⟨small, rfl⟩, ok_bind]
    change (add power (infoOf total threshold (validator, index)).votingPower >>= _) = _
    rw [add_eq_ok.mpr ⟨by omega, rfl⟩, ok_bind]
    exact ih (forall_mem_cons.mp bounded).2
      fits

/-! ## Giving out the remaining power -/

/-- The room below the cap. -/
def room (threshold : Nat) (infos : List VotingPowerInfo) : Nat :=
  (infos.map fun info => threshold - info.votingPower).sum

/-- Powers and the room below the threshold add up. -/
theorem room_add_powerSum (capped : ∀ info ∈ infos, info.votingPower ≤ threshold) :
    room threshold infos + powerSum infos = infos.length * threshold := by
  induction infos with
  | nil => simp [room, powerSum]
  | cons info infos ih =>
    have head := capped info mem_cons_self
    have rest := ih (forall_mem_cons.mp capped).2
    simp only [room, powerSum, map_cons, sum_cons, length_cons, Nat.add_mul] at rest ⊢
    omega

/-- An entry with more power. -/
def Raised (before after : VotingPowerInfo) : Prop :=
  after.validatorIndex = before.validatorIndex ∧ after.stake = before.stake ∧
    before.votingPower ≤ after.votingPower

/-- All remaining power is given out, and the order of the power stays. -/
theorem adjustVotingPower_spec
    (sorted : infos.Pairwise fun left right => right.votingPower ≤ left.votingPower)
    (capped : ∀ info ∈ infos, info.votingPower ≤ threshold) (small : threshold ≤ totalVotingPower)
    (fits : remaining ≤ totalVotingPower) (enough : remaining ≤ room threshold infos) :
    ∃ after, adjustVotingPower threshold infos remaining = .ok after ∧
      List.Forall₂ Raised infos after ∧ powerSum after = powerSum infos + remaining ∧
      (after.Pairwise fun left right => right.votingPower ≤ left.votingPower) ∧
      (∀ info ∈ after, info.votingPower ≤ threshold) ∧
      ∀ bound, (∀ info ∈ infos, info.votingPower + remaining ⌈/⌉ infos.length ≤ bound) →
        ∀ info ∈ after, info.votingPower ≤ bound := by
  induction infos generalizing remaining with
  | nil =>
    obtain rfl : remaining = 0 := Nat.le_zero.mp enough
    exact ⟨[], rfl, .nil, rfl, .nil, by simp, by simp⟩
  | cons info infos ih =>
    obtain ⟨head, rest⟩ := pairwise_cons.mp sorted
    have below := capped info mem_cons_self
    rw [adjustVotingPower]
    by_cases none : remaining = 0
    · rw [if_pos none]
      refine ⟨_, rfl, forall₂_same.mpr fun _ _ => ⟨rfl, rfl, le_rfl⟩, by omega, sorted,
        capped, fun bound bounds other listed => ?_⟩
      exact (Nat.le_add_right _ _).trans (bounds other listed)
    · have positive : 0 < infos.length + 1 := Nat.succ_pos _
      have planned := divideAndRoundUp_eq positive
        (fits.trans_lt (by decide : totalVotingPower < 2 ^ 64 - 1))
      have share := le_smul_ceilDiv positive (b := remaining)
      have atMost : remaining ⌈/⌉ (infos.length + 1) ≤ remaining := by
        rw [ceilDiv_le_iff_le_mul positive]
        exact Nat.le_mul_of_pos_left _ positive
      generalize remaining ⌈/⌉ (infos.length + 1) = plan at *
      rw [smul_eq_mul, Nat.add_mul, Nat.one_mul] at share
      unfold totalVotingPower at small fits
      -- The planned share is never more than what remains.
      have target : min remaining (min threshold (info.votingPower + plan) - info.votingPower) =
          min threshold (info.votingPower + plan) - info.votingPower := by omega
      set power := min threshold (info.votingPower + plan) with isPower
      have room_cons : room threshold (info :: infos) =
          (threshold - info.votingPower) + room threshold infos := rfl
      have left : remaining - (power - info.votingPower) ≤ room threshold infos := by
        by_cases atCap : threshold ≤ info.votingPower + plan
        · omega
        · have each : ∀ other ∈ infos.map fun other => threshold - other.votingPower,
              plan ≤ other := by
            intro other listed
            obtain ⟨entry, isEntry, rfl⟩ := mem_map.mp listed
            have lower := head entry isEntry
            omega
          have all := card_nsmul_le_sum _ _ each
          rw [length_map, smul_eq_mul] at all
          change _ ≤ room threshold infos at all
          omega
      obtain ⟨after, adjusted, raised, sum, ordered, below', bounds⟩ := ih rest
        (forall_mem_cons.mp capped).2
        (by unfold totalVotingPower; omega : remaining - (power - info.votingPower) ≤ _) left
      have later : ∀ other ∈ after, other.votingPower ≤ power := by
        by_cases atCap : threshold ≤ info.votingPower + plan
        · intro other listed
          have lower := below' other listed
          omega
        · refine bounds power fun other listed => ?_
          have lower := head other listed
          have nonempty := length_pos_of_mem listed
          have less : (remaining - (power - info.votingPower)) ⌈/⌉ infos.length ≤ plan := by
            rw [ceilDiv_le_iff_le_mul nonempty]
            omega
          omega
      refine ⟨⟨info.validatorIndex, power, info.stake⟩ :: after, ?_,
        .cons ⟨rfl, rfl, le_min below (Nat.le_add_right _ _)⟩ raised, ?_,
        pairwise_cons.mpr ⟨later, ordered⟩, ?_, ?_⟩
      · rw [if_neg none, planned, ok_bind, add_eq_ok.mpr ⟨by omega, rfl⟩, ok_bind]
        dsimp only
        rw [← isPower, sub_eq_ok.mpr ⟨by omega, rfl⟩, ok_bind, target,
          add_eq_ok.mpr ⟨by omega, rfl⟩, ok_bind, require_of (by omega), ok_bind, adjusted,
          ok_bind, Nat.add_sub_cancel' (by omega)]
        rfl
      · simp only [powerSum, map_cons, sum_cons] at sum ⊢
        omega
      · exact forall_mem_cons.mpr ⟨min_le_left _ _, below'⟩
      · intro bound isBound other listed
        have first := isBound info mem_cons_self
        rcases mem_cons.mp listed with rfl | listed
        · exact (min_le_right _ _).trans first
        · exact ((later other listed).trans (min_le_right _ _)).trans first

/-! ## Writing and checking the power -/

/-- What the checks look at. -/
def stakeAndPower (validator : Validator) : Nat × Nat :=
  (validator.totalStakeAmount, validator.votingPower)

/-- Every entry is written to its validator. -/
theorem updateVotingPower_eq {validators : List Validator}
    (distinct : (infos.map validatorIndex).Nodup)
    (inside : ∀ info ∈ infos, ∃ validator, validators[info.validatorIndex]? = some validator ∧
      validator.totalStakeAmount = info.stake) :
    ∃ after, updateVotingPower validators infos = .ok after ∧
      ∀ info ∈ infos, (after[info.validatorIndex]?).map stakeAndPower =
        some (info.stake, info.votingPower) := by
  induction infos with
  | nil => exact ⟨validators, rfl, by simp⟩
  | cons info infos ih =>
    rw [map_cons, nodup_cons] at distinct
    obtain ⟨middle, updated, written⟩ := ih distinct.2
      (forall_mem_cons.mp inside).2
    obtain ⟨validator, found, sameStake⟩ := inside info List.mem_cons_self
    have same := updateVotingPower_spec updated
    obtain ⟨old, isOld, isSame⟩ : ∃ old, middle[info.validatorIndex]? = some old ∧
        SamePower validator old := by
      obtain ⟨bound, rfl⟩ := List.getElem?_eq_some_iff.mp found
      have bound' := same.length_eq ▸ bound
      exact ⟨_, List.getElem?_eq_getElem bound', same.get bound bound'⟩
    refine ⟨middle.set info.validatorIndex { old with votingPower := info.votingPower }, ?_, ?_⟩
    · simp only [updateVotingPower, updated, ok_bind, isOld]
      rfl
    · refine forall_mem_cons.mpr ⟨?_, fun other later => ?_⟩
      · have bound := (List.getElem?_eq_some_iff.mp isOld).1
        rw [List.getElem?_set_self bound, isSame, ← sameStake]
        rfl
      · have different : info.validatorIndex ≠ other.validatorIndex := fun same =>
          distinct.1 (same ▸ mem_map_of_mem later)
        rw [getElem?_set_ne different]
        exact written other later

/-- If there is an entry for every validator, the entries are what the checks look at. -/
theorem perm_of_written {after : List Validator} {infos : List VotingPowerInfo}
    (indices : (infos.map validatorIndex).Perm (range after.length))
    (written : ∀ info ∈ infos, (after[info.validatorIndex]?).map stakeAndPower =
      some (info.stake, info.votingPower)) :
    (after.map stakeAndPower).Perm (infos.map fun info => (info.stake, info.votingPower)) := by
  have listed : (after.map stakeAndPower).map some =
      (range after.length).map fun index => (after[index]?).map stakeAndPower := by
    apply ext_getElem?
    intro index
    by_cases bound : index < after.length
    · simp [bound]
    · simp [bound]
  have entries : (infos.map fun info => (info.stake, info.votingPower)).map some =
      (infos.map validatorIndex).map fun index =>
        (after[index]?).map stakeAndPower := by
    rw [map_map, map_map]
    exact map_congr_left fun info isInfo => (written info isInfo).symm
  apply (map_perm_map_iff (Option.some_injective _)).mp
  rw [listed, entries]
  exact (indices.map _).symm

/-- The sum is returned exactly if every power is positive. -/
theorem sumVotingPower_eq (fits : (validators.map Validator.votingPower).sum < 2 ^ 64) :
    sumVotingPower validators = if ∀ validator ∈ validators, 0 < validator.votingPower then
      .ok (validators.map Validator.votingPower).sum else .error (.votingPower 4) := by
  have added (start : Nat) (fits : start + (validators.map Validator.votingPower).sum < 2 ^ 64) :
      validators.foldlM (fun total validator => do
          require (0 < validator.votingPower) (Abort.votingPower 4)
          add total validator.votingPower) start =
        if ∀ validator ∈ validators, 0 < validator.votingPower then
          .ok (start + (validators.map Validator.votingPower).sum)
        else .error (.votingPower 4) := by
    clear * - fits
    induction validators generalizing start with
    | nil => simp
    | cons validator validators ih =>
      simp only [map_cons, sum_cons, ← Nat.add_assoc] at fits ⊢
      rw [foldlM_cons]
      by_cases positive : 0 < validator.votingPower
      · rw [require_of positive, ok_bind, add_eq_ok.mpr ⟨by omega, rfl⟩, ok_bind, ih _ fits]
        simp [positive]
      · rw [require_of_not positive, error_bind, error_bind, if_neg]
        exact fun all => positive (all validator mem_cons_self)
  simpa [sumVotingPower] using added 0 (by simpa using fits)

/-- Powers in the order of the stakes pass the check. -/
theorem checkRelativePowers_eq_ok (ordered : ∀ left ∈ validators, ∀ right ∈ validators,
      right.totalStakeAmount < left.totalStakeAmount → right.votingPower ≤ left.votingPower) :
    checkRelativePowers validators = .ok () := by
  induction validators with
  | nil => rfl
  | cons validator validators ih =>
    have rest := ih fun left isLeft right isRight =>
      ordered left (mem_cons_of_mem _ isLeft) right (mem_cons_of_mem _ isRight)
    refine bind_eq_ok.mpr ⟨(), forM_eq_ok.mpr fun other listed => ?_, rest⟩
    have down := ordered validator mem_cons_self other (mem_cons_of_mem _ listed)
    have up := ordered other (mem_cons_of_mem _ listed) validator mem_cons_self
    unfold checkRelativePower
    rcases lt_trichotomy other.totalStakeAmount validator.totalStakeAmount with less | same | more
    · rw [if_pos less, if_neg less.not_gt, require_of (down less)]
      rfl
    · rw [if_neg same.not_lt, if_neg same.not_gt]
      rfl
    · rw [if_neg more.not_gt, if_pos more, require_of (up more)]

/-- The cap for a number of validators. -/
def cap (count : Nat) : Nat :=
  min totalVotingPower (max maxVotingPower (totalVotingPower ⌈/⌉ count))

theorem le_length_mul_cap (positive : 0 < count) : totalVotingPower ≤ count * cap count := by
  rw [cap, ← Nat.mul_min_mul_left]
  refine le_min (Nat.le_mul_of_pos_left _ positive) ?_
  exact (le_smul_ceilDiv positive).trans (Nat.mul_le_mul_left _ (le_max_right _ _))

/-- At first every validator has the capped share of its stake, and the entries are in the
order of the stake. -/
theorem initVotingPowerInfo_spec (threshold : Nat) (positive : 0 < stakeSum validators)
    (fits : stakeSum validators < 2 ^ 64) :
    ∃ infos, initVotingPowerInfo validators threshold =
        .ok (infos, totalVotingPower - powerSum infos) ∧
      powerSum infos ≤ totalVotingPower ∧
      (infos.map validatorIndex).Perm (range validators.length) ∧
      (infos.Pairwise fun left right => right.stake ≤ left.stake) ∧
      ∀ info ∈ infos, info.votingPower =
          min (info.stake * totalVotingPower / stakeSum validators) threshold ∧
        ∃ validator, validators[info.validatorIndex]? = some validator ∧
          validator.totalStakeAmount = info.stake := by
  have shares := sum_shares_le (stakeSum validators) threshold validators 0
  rw [Nat.mul_div_cancel_left _ positive] at shares
  -- The entries, in the order of the validators and in the order of the stake.
  set entries := validators.zipIdx.map (infoOf (stakeSum validators) threshold) with isEntries
  obtain ⟨perm, sorted⟩ := foldl_insert entries
  have sum : powerSum (entries.foldl (fun infos info => insert info infos) []) =
      powerSum entries := (perm.map _).sum_eq
  have from0 : initVotingPowerInfoFrom _ _ validators 0 [] 0 = _ :=
    initVotingPowerInfoFrom_eq threshold positive
      (fun validator listed => single_le_sum (fun _ _ => Nat.zero_le _) _
        (mem_map_of_mem listed)) (by rw [Nat.zero_add]; exact shares.trans_lt (by decide))
  refine ⟨_, ?_, sum.trans_le shares, ?_, sorted, fun info listed => ?_⟩
  · rw [initVotingPowerInfo, totalStake_eq fits, ok_bind, from0, ok_bind, sum]
    dsimp only
    rw [sub_eq_ok.mpr ⟨by simpa using shares, rfl⟩, Nat.zero_add]
    rfl
  · refine (perm.map _).trans (List.Perm.of_eq ?_)
    rw [isEntries, map_map, range_eq_range']
    exact zipIdx_map_snd 0 validators
  · obtain ⟨entry, isEntry, rfl⟩ := mem_map.mp (perm.mem_iff.mp listed)
    exact ⟨rfl, entry.1, mem_zipIdx_iff_getElem?.mp isEntry, rfl⟩

/-- Entries that are in the order of the stake and of the power. -/
theorem votingPower_le_of_stake_lt {infos : List VotingPowerInfo}
    (byStake : infos.Pairwise fun left right => right.stake ≤ left.stake)
    (ordered : infos.Pairwise fun left right => right.votingPower ≤ left.votingPower) :
    ∀ left ∈ infos, ∀ right ∈ infos, right.stake < left.stake →
      right.votingPower ≤ left.votingPower := by
  apply List.Pairwise.forall_of_forall_of_flip
  · exact fun _ _ _ => le_rfl
  · refine ordered.imp ?_
    exact fun lower _ => lower
  · refine byStake.imp ?_
    exact fun lower less => absurd less lower.not_gt

/-- The power is set unless some validator would have none, which needs a stake below one ten
thousandth of the whole.  It is then all given out, capped and in the order of the stake. -/
theorem setVotingPower_total_and_fair (validators : List Validator) (nonempty : validators ≠ [])
    (positive : 0 < stakeSum validators) (fits : stakeSum validators < 2 ^ 64) :
    ∃ after, assignVotingPower validators = .ok after ∧
      setVotingPower validators = (if ∀ validator ∈ after, 0 < validator.votingPower then
        .ok after else .error (.votingPower 4)) ∧
      List.Forall₂ SamePower validators after ∧
      (after.map Validator.votingPower).sum = totalVotingPower ∧
      (∀ validator ∈ after, validator.votingPower ≤ cap validators.length ∧
        (validator.votingPower = 0 →
          validator.totalStakeAmount * totalVotingPower < stakeSum validators)) ∧
      ∀ left ∈ after, ∀ right ∈ after,
        right.totalStakeAmount < left.totalStakeAmount → right.votingPower ≤ left.votingPower := by
  have count := length_pos_iff.mpr nonempty
  obtain ⟨infos, started, atMost, isRange, sorted, isInfo⟩ :=
    initVotingPowerInfo_spec (cap validators.length) positive fits
  have capped : ∀ info ∈ infos, info.votingPower ≤ cap validators.length := fun info listed =>
    (isInfo info listed).1.le.trans (min_le_right _ _)
  obtain ⟨adjusted, isAdjusted, raised, all, ordered, below, _⟩ := adjustVotingPower_spec
    (sorted.imp_of_mem fun {left right} isLeft isRight less => by
      rw [(isInfo left isLeft).1, (isInfo right isRight).1]
      exact min_le_min_right _ (Nat.div_le_div_right (Nat.mul_le_mul_right _ less)))
    capped (min_le_left _ _) (Nat.sub_le totalVotingPower (powerSum infos)) (by
      have whole := room_add_powerSum capped
      have enough := le_length_mul_cap count
      rw [← length_map validatorIndex, isRange.length_eq, length_range] at whole
      omega)
  have indices : adjusted.map validatorIndex = infos.map validatorIndex :=
    map_eq_of_forall₂ (fun _ _ same => same.1) raised
  have stakes : adjusted.map stake = infos.map stake :=
    map_eq_of_forall₂ (fun _ _ same => same.2.1) raised
  have origin : ∀ info ∈ adjusted, ∃ old ∈ infos, Raised old info := fun info listed =>
    exists_of_forall₂ raised listed
  have inside : ∀ info ∈ adjusted, ∃ validator, validators[info.validatorIndex]? = some validator ∧
        validator.totalStakeAmount = info.stake := by
    intro info listed
    obtain ⟨old, isOld, sameIndex, sameStake, _⟩ := origin info listed
    rw [sameIndex, sameStake]
    exact (isInfo old isOld).2
  obtain ⟨after, updated, written⟩ := updateVotingPower_eq
    (indices ▸ isRange.nodup_iff.mpr nodup_range) inside
  have samePower := updateVotingPower_spec updated
  have looks := perm_of_written (indices ▸ samePower.length_eq ▸ isRange) written
  have isPair : ∀ validator ∈ after, ∃ info ∈ adjusted,
      info.stake = validator.totalStakeAmount ∧ info.votingPower = validator.votingPower := by
    intro validator listed
    obtain ⟨info, isListed, same⟩ := mem_map.mp (looks.mem_iff.mp (mem_map_of_mem listed))
    exact ⟨info, isListed, Prod.mk.inj same⟩
  have total : (after.map Validator.votingPower).sum = totalVotingPower := by
    have sums := (looks.map Prod.snd).sum_eq
    rw [map_map, map_map] at sums
    exact sums.trans (all.trans (by omega))
  have inOrder : ∀ left ∈ after, ∀ right ∈ after,
      right.totalStakeAmount < left.totalStakeAmount → right.votingPower ≤ left.votingPower := by
    have byStake : adjusted.Pairwise fun left right => right.stake ≤ left.stake := by
      have mapped : (infos.map stake).Pairwise fun left right => right ≤ left :=
        pairwise_map.mpr sorted
      rw [← stakes] at mapped
      exact pairwise_map.mp mapped
    intro left isLeft right isRight less
    obtain ⟨info, isInfo, stake, power⟩ := isPair left isLeft
    obtain ⟨info', isInfo', stake', power'⟩ := isPair right isRight
    rw [← power, ← power']
    rw [← stake, ← stake'] at less
    exact votingPower_le_of_stake_lt byStake ordered info isInfo info' isInfo' less
  have assigned : assignVotingPower validators = .ok after := by
    rw [assignVotingPower, divideAndRoundUp_eq count (by decide), ok_bind]
    exact bind_of started (bind_of isAdjusted updated)
  refine ⟨after, assigned, ?_, samePower, total, fun validator listed => ?_, inOrder⟩
  · have summed := sumVotingPower_eq (total.trans_lt (by decide))
    rw [setVotingPower_eq, assigned, ok_bind, checkInvariants, summed, total]
    split
    · rw [ok_bind, require_of rfl, ok_bind, checkRelativePowers_eq_ok inOrder, ok_bind]
      rfl
    · rfl
  · obtain ⟨info, isAdjusted, stake, power⟩ := isPair validator listed
    obtain ⟨old, isOld, _, sameStake, raised⟩ := origin info isAdjusted
    have initial := (isInfo old isOld).1
    rw [← power, ← stake]
    refine ⟨below info isAdjusted, fun zero => ?_⟩
    have none : min (old.stake * totalVotingPower / stakeSum validators) (cap validators.length) =
        0 := by omega
    have isCap : 0 < cap validators.length :=
      lt_min (by decide) ((by decide : 0 < maxVotingPower).trans_le (le_max_left _ _))
    rw [sameStake]
    apply (Nat.div_eq_zero_iff_lt positive).mp
    omega

/-- A validator with some address, stake and power. -/
def sampleValidator (address stake power : Nat) : Validator :=
  let validator : Validator := .newFromMetadata
    (.newMetadata address ⟨[], [], [], [], [], [], [], [], [], [], [], []⟩) 0 0 address 0
  { validator with
    votingPower := power
    stakingPool := { validator.stakingPool with suiBalance := stake } }

/-- The powers of three validators, one of them with most of the stake. -/
theorem setVotingPower_total_and_fair_three :
    ∃ after, assignVotingPower [sampleValidator 1 7 0, sampleValidator 2 90 0,
        sampleValidator 3 3 0] = .ok after ∧
      (after.map Validator.votingPower).sum = totalVotingPower := by
  obtain ⟨after, assigned, _, _, sum, _⟩ := setVotingPower_total_and_fair
    [sampleValidator 1 7 0, sampleValidator 2 90 0, sampleValidator 3 3 0] (by simp) (by decide)
    (by decide)
  exact ⟨after, assigned, sum⟩

end Sui.System.VotingPower
