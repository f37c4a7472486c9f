import Sui.System.Effects

/-!
# The partition of the validators

A roster is an abstract view of a validator set, over any types of accounts and of
pools.  A validator is its account and its pool.  It is a member of the committee of
this or of the next epoch, a candidate, or it has departed.  In a sound roster, no
account has two validators that have not departed, and the pools of the validators
tell exactly where they are.

Every action on the system moves validators along the four steps of rosters, so that
the roster of every reachable set is sound.
-/

namespace Sui.System

section

open Function (update)
open Multiset (mem_map_of_mem mem_map map_cons map_le_map)

variable {Account Pool : Type}

/-- The places of validators, by their accounts and pools. -/
structure Roster (Account Pool : Type) where
  /-- The validators of this and of the next committee. -/
  members : Multiset (Account × Pool)
  candidates : Account → Option (Account × Pool)
  mappings : Pool → Option Account
  departed : Pool → Option (Account × Pool)
  registered : Set Pool

namespace Roster

/-- One validator moves. -/
inductive Step [DecidableEq Account] [DecidableEq Pool] :
    Roster Account Pool → Roster Account Pool → Prop
  | register {roster : Roster Account Pool} (account : Account) (pool : Pool)
      (newPool : pool ∉ roster.registered)
      (noMember : account ∉ roster.members.map Prod.fst)
      (noCandidate : roster.candidates account = none) :
      Step roster
        { roster with
          candidates :=
            Function.update roster.candidates account (some (account, pool))
          mappings := Function.update roster.mappings pool (some account)
          registered := insert pool roster.registered }
  | unregister {roster : Roster Account Pool} (account : Account)
      (validator : Account × Pool)
      (found : roster.candidates account = some validator) :
      Step roster
        { roster with
          candidates := Function.update roster.candidates account none
          mappings := Function.update roster.mappings validator.2 none
          departed :=
            Function.update roster.departed validator.2 (some validator) }
  | join {roster : Roster Account Pool} (account : Account)
      (validator : Account × Pool)
      (found : roster.candidates account = some validator) :
      Step roster
        { roster with
          members := validator ::ₘ roster.members
          candidates := Function.update roster.candidates account none }
  | leave {roster : Roster Account Pool} (validator : Account × Pool)
      (found : validator ∈ roster.members) :
      Step roster
        { roster with
          members := roster.members.erase validator
          mappings := Function.update roster.mappings validator.2 none
          departed :=
            Function.update roster.departed validator.2 (some validator) }

/-- Validators move one after the other. -/
abbrev Steps [DecidableEq Account] [DecidableEq Pool] :
    Roster Account Pool → Roster Account Pool → Prop :=
  Relation.ReflTransGen Step

/-- Every validator is in one place, and the pools tell where it is. -/
structure Sound (roster : Roster Account Pool) : Prop where
  accounts : (roster.members.map Prod.fst).Nodup
  candidateKey : ∀ account validator,
    roster.candidates account = some validator → validator.1 = account
  apart : ∀ account validator, roster.candidates account = some validator →
    account ∉ roster.members.map Prod.fst
  mapped : ∀ account pool, roster.mappings pool = some account ↔ (account, pool) ∈ roster.members ∨
      roster.candidates account = some (account, pool)
  mappedRegistered : ∀ account pool, roster.mappings pool = some account → pool ∈ roster.registered
  departedKey : ∀ pool validator, roster.departed pool = some validator → validator.2 = pool
  departed : ∀ pool, (roster.departed pool).isSome = true ↔
    pool ∈ roster.registered ∧ roster.mappings pool = none

namespace Sound

variable {roster next : Roster Account Pool}

theorem mapped_of_member (sound : roster.Sound) (member : validator ∈ roster.members) :
    roster.mappings validator.2 = some validator.1 :=
  (sound.mapped _ _).mpr (.inl member)

theorem mapped_of_candidate (sound : roster.Sound)
    (found : roster.candidates account = some validator) :
    validator = (account, validator.2) ∧ roster.mappings validator.2 = some account := by
  obtain rfl := sound.candidateKey account validator found
  exact ⟨rfl, (sound.mapped _ _).mpr (.inr found)⟩

/-- In the beginning, all validators are members. -/
theorem founding {members : Multiset (Account × Pool)} {mappings : Pool → Option Account}
    (accounts : (members.map Prod.fst).Nodup)
    (mapped : ∀ account pool, mappings pool = some account ↔ (account, pool) ∈ members) :
    Sound
      { members := members
        candidates := fun _ => none
        mappings := mappings
        departed := fun _ => none
        registered := { pool | pool ∈ members.map Prod.snd } } where
  accounts := accounts
  candidateKey _ _ found := by cases found
  apart _ _ found := by cases found
  mapped account pool := by simp [mapped account pool]
  mappedRegistered account pool isMapped :=
    mem_map_of_mem Prod.snd ((mapped account pool).mp isMapped)
  departedKey _ _ found := by cases found
  departed pool := by
    simp only [Option.isSome_none, Bool.false_eq_true, Set.mem_ofPred_eq,
      mem_map, Prod.exists, exists_eq_right, false_iff, not_and]
    rintro ⟨account, isMember⟩
    simp [(mapped account pool).mpr isMember]

attribute [local grind =] Function.update_apply

variable [DecidableEq Account] [DecidableEq Pool]

variable (sound : roster.Sound)

include sound

/-- Registering a candidate with a new account and pool. -/
theorem register (newPool : pool ∉ roster.registered)
    (noMember : account ∉ roster.members.map Prod.fst)
    (noCandidate : roster.candidates account = none) :
    Sound { roster with
      candidates :=
        update roster.candidates account (some (account, pool))
      mappings := update roster.mappings pool (some account)
      registered := insert pool roster.registered } where
  accounts := sound.accounts
  candidateKey other validator := by
    have := sound.candidateKey other validator
    grind
  apart other validator := by
    have := sound.apart other validator
    grind
  mapped other pool' := by
    -- a new pool was not mapped, so neither a member nor a candidate has it
    have := sound.mapped other pool'
    have := sound.mappedRegistered other pool'
    grind
  mappedRegistered other pool' := by
    have := sound.mappedRegistered other pool'
    grind
  departedKey := sound.departedKey
  departed pool' := by
    have := sound.departed pool'
    grind

/-- Removing a candidate. -/
theorem unregister (found : roster.candidates account = some validator) :
    Sound { roster with
      candidates := update roster.candidates account none
      mappings := update roster.mappings validator.2 none
      departed :=
        update roster.departed validator.2 (some validator) } := by
  obtain ⟨isValidator, isMapped⟩ := sound.mapped_of_candidate found
  have notMember := sound.apart account validator found
  have isRegistered := sound.mappedRegistered account validator.2 isMapped
  exact {
    accounts := sound.accounts
    candidateKey := fun other validator' => by
      have := sound.candidateKey other validator'
      grind
    apart := fun other validator' => by
      have := sound.apart other validator'
      grind
    mapped := fun other pool => by
      have := sound.mapped other pool
      have member (isMember : (account, pool) ∈ roster.members) : False :=
        notMember (mem_map_of_mem Prod.fst isMember)
      grind
    mappedRegistered := fun other pool => by
      have := sound.mappedRegistered other pool
      grind
    departedKey := fun pool validator' => by
      have := sound.departedKey pool validator'
      grind
    departed := fun pool => by
      have := sound.departed pool
      grind }

omit [DecidableEq Pool] in
/-- A candidate becomes a member. -/
theorem join (found : roster.candidates account = some validator) :
    Sound { roster with
      members := validator ::ₘ roster.members
      candidates := update roster.candidates account none } := by
  obtain ⟨isValidator, isMapped⟩ := sound.mapped_of_candidate found
  have notMember := sound.apart account validator found
  exact { sound with
    accounts := by
      rw [map_cons, Multiset.nodup_cons, isValidator]
      exact ⟨notMember, sound.accounts⟩
    candidateKey := fun other validator' => by
      have := sound.candidateKey other validator'
      grind
    apart := fun other validator' => by
      have := sound.apart other validator'
      rw [map_cons, Multiset.mem_cons, isValidator]
      grind
    mapped := fun other pool => by
      have := sound.mapped other pool
      grind }

/-- A member becomes inactive. -/
theorem leave (found : validator ∈ roster.members) :
    Sound { roster with
      members := roster.members.erase validator
      mappings := update roster.mappings validator.2 none
      departed :=
        update roster.departed validator.2 (some validator) } := by
  have isMapped := sound.mapped_of_member found
  have isRegistered := sound.mappedRegistered _ _ isMapped
  have distinct : roster.members.Nodup := sound.accounts.of_map
  have fewer : roster.members.erase validator ≤ roster.members := Multiset.erase_le _ _
  exact {
    accounts := Multiset.nodup_of_le (map_le_map fewer) sound.accounts
    candidateKey := sound.candidateKey
    apart := fun other validator' isCandidate isMember =>
      sound.apart other validator' isCandidate
        (Multiset.mem_of_le (map_le_map fewer) isMember)
    mapped := fun other pool => by
      have := sound.mapped other pool
      have candidateApart (isCandidate :
          roster.candidates validator.1 = some (validator.1, pool)) : False :=
        sound.apart _ _ isCandidate (mem_map_of_mem Prod.fst found)
      rw [distinct.mem_erase_iff]
      grind
    mappedRegistered := fun other pool => by
      have := sound.mappedRegistered other pool
      grind
    departedKey := fun pool validator' => by
      have := sound.departedKey pool validator'
      grind
    departed := fun pool => by
      have := sound.departed pool
      grind }

theorem step (moved : roster.Step next) : next.Sound := by
  cases moved with
  | register account pool newPool noMember noCandidate =>
    exact sound.register newPool noMember noCandidate
  | unregister account validator found => exact sound.unregister found
  | join account validator found => exact sound.join found
  | leave validator found => exact sound.leave found

/-- A roster stays sound however validators move. -/
theorem steps (moved : roster.Steps next) : next.Sound := by
  induction moved with
  | refl => exact sound
  | tail _ last ih => exact ih.step last

end Sound

end Roster

end

open Library
open List hiding after
open Std (ExtTreeMap)

/-! ## The genesis -/

section

open Validator

/-- Two validators have neither their account nor a key or address in common. -/
def ValidatorMetadata.Apart (left right : ValidatorMetadata) : Prop :=
  left.suiAddress ≠ right.suiAddress ∧ left.Separate right

theorem Validator.apart_of_isDuplicate {self other : Validator}
    (different : self.isDuplicate other = false) :
    self.metadata.Apart other.metadata := by
  obtain ⟨accounts, _, separate⟩ := isDuplicate_eq_false.mp different
  exact ⟨accounts, separate⟩

theorem ValidatorSet.isDuplicateValidator_eq_false {validator : Validator} :
    isDuplicateValidator validators validator = false ↔
      ∀ other ∈ validators, other.isDuplicate validator = false := by
  simp [isDuplicateValidator, countDuplicates]

namespace Genesis

/-- The validators of genesis have metadata apart and pools of their own. -/
theorem createValidators_spec
    (succeeded : createValidators natives genesisValidators validators nextId =
      .ok (created, finalId))
    (apart : (validators.map metadata).Pairwise ValidatorMetadata.Apart)
    (fresh : ∀ validator ∈ validators, validator.stakingPoolId < nextId) :
    (created.map metadata).Pairwise ValidatorMetadata.Apart ∧
      ∀ validator ∈ created, validator.stakingPoolId < finalId := by
  induction genesisValidators generalizing validators nextId with
  | nil =>
    cases succeeded
    exact ⟨apart, fresh⟩
  | cons metadata others ih =>
    simp only [createValidators, bind_eq_ok, require_eq_ok] at succeeded
    obtain ⟨validator, isNew, _, different, rest⟩ := succeeded
    obtain ⟨_, rfl⟩ := new_spec isNew
    apply ih rest
    · rw [map_append]
      refine pairwise_snoc.mpr ⟨apart, fun left isLeft => ?_⟩
      obtain ⟨other, listed, rfl⟩ := mem_map.mp isLeft
      exact apart_of_isDuplicate
        (ValidatorSet.isDuplicateValidator_eq_false.mp different other listed)
    · exact forall_mem_snoc.mpr ⟨fun other old => Nat.lt_succ_of_lt
        (Nat.lt_succ_of_lt (fresh other old)), Nat.lt_add_of_pos_right Nat.two_pos⟩

/-- Allocating tokens keeps the validators the same. -/
theorem allocateTokens_spec
    (allocated : allocateTokens allocations validators = .ok (stakes, after)) :
    List.Forall₂ Validator.Same validators after ∧ ∀ stake ∈ stakes, ∃ validator ∈ validators,
        stake.poolId = validator.stakingPoolId := by
  induction allocations generalizing stakes after with
  | nil =>
    cases allocated
    exact ⟨List.forall₂_same.mpr fun _ _ => .refl _, by simp⟩
  | cons allocation allocations ih =>
    obtain ⟨⟨others, middle⟩, before, staked⟩ := bind_eq_ok.mp allocated
    obtain ⟨same, pools⟩ := ih before
    dsimp only at staked
    split at staked
    · cases staked
    · next index _ =>
      obtain ⟨⟨stake, _⟩, modified, isResult⟩ := bind_eq_ok.mp staked
      cases isResult
      obtain ⟨old, new, found, requested, rfl⟩ := ValidatorSet.modifyAt_spec modified
      constructor
      · exact forall₂_set same found fun _ isSame =>
          isSame.trans (.requestAddStakeAtGenesis requested)
      · obtain ⟨validator, isValidator, isSame⟩ := exists_of_forall₂ same (mem_of_getElem? found)
        exact forall_mem_cons.mpr ⟨⟨validator, isValidator,
          (poolId_of_requestAddStakeAtGenesis requested).trans isSame.life.id⟩, pools⟩

/-- The pools of the validators of the genesis are mapped to their accounts. -/
theorem mappings_spec {validators : List Validator} (added : validators.foldlM
      (fun mappings validator =>
        Table.add mappings validator.stakingPoolId validator.suiAddress)
      start = .ok mappings)
    (poolId : ID) (address : Address) :
    mappings[poolId]? = some address ↔ start[poolId]? = some address ∨
        (address, poolId) ∈ validators.map identity := by
  induction validators generalizing start with
  | nil =>
    cases added
    simp
  | cons validator validators ih =>
    simp only [foldlM_cons, bind_eq_ok, Table.add_eq_ok] at added
    obtain ⟨_, ⟨absent, rfl⟩, rest⟩ := added
    rw [ih rest, Map.getElem?_insert, map_cons, mem_cons, identity, Prod.mk.injEq]
    split
    · next isPool =>
      subst isPool
      rw [absent]
      simp [eq_comm]
    · next isOther => simp [Ne.symm isOther]

/-- A validator is activated at genesis. -/
structure Started (before after : Validator) : Prop where
  metadata : after.metadata = before.metadata
  stakingPoolId : after.stakingPoolId = before.stakingPoolId
  isPreactive : after.isPreactive = false
  running : after.stakingPool.deactivationEpoch = none

/-- What the system looks like at genesis. -/
structure Founded (stakes : List StakedSui) (nextId : ID) (state : SystemState) :
    Prop where
  apart : (state.validators.activeValidators.map Validator.metadata).Pairwise
    ValidatorMetadata.Apart
  active : ∀ validator ∈ state.validators.activeValidators, validator.isPreactive = false
  running : ∀ validator ∈ state.validators.activeValidators,
    validator.stakingPool.deactivationEpoch = none
  pending : state.validators.pendingActiveValidators = []
  removals : state.validators.pendingRemovals = []
  candidates : state.validators.validatorCandidates = ∅
  inactive : state.validators.inactiveValidators = ∅
  mapped : ∀ poolId address, state.validators.stakingPoolMappings[poolId]? = some address ↔
      (address, poolId) ∈ state.validators.activeValidators.map Validator.identity
  fresh : ∀ validator ∈ state.validators.activeValidators, validator.stakingPoolId < nextId
  stakes : ∀ stake ∈ stakes, ∃ validator ∈ state.validators.activeValidators,
    stake.poolId = validator.stakingPoolId
  power : VotingPower.sumVotingPower state.validators.activeValidators =
    .ok VotingPower.totalVotingPower
  records : state.validatorReportRecords = []

/-- What genesis founds. -/
theorem founded_of_create {nextId : ID}
    (succeeded : create natives parameters genesisValidators allocations =
      .ok (stakes, nextId, state)) :
    Founded stakes nextId state := by
  simp only [create, newValidatorSet, bind_eq_ok, mapM_eq_ok,
    pure_eq_ok, Prod.exists, Prod.mk.injEq] at succeeded
  obtain ⟨created, _, isCreated, _, staked, allocated, activated, isActivated, set,
    ⟨totalStake, _, mappings, mapped, powered, isPowered, rfl⟩, rfl, rfl, rfl⟩ :=
    succeeded
  obtain ⟨apart, fresh⟩ := createValidators_spec isCreated .nil (by simp)
  obtain ⟨same, pools⟩ := allocateTokens_spec allocated
  obtain ⟨samePower, power⟩ := VotingPower.setVotingPower_spec isPowered
  have activatedIdentity : powered.map identity = activated.map identity :=
    map_eq_of_forall₂ (fun _ _ isSame => by rw [isSame]; rfl) samePower
  have started : List.Forall₂ Started created activated := by
    refine forall₂_comp ?_ same isActivated
    intro before staked after isSame isActive
    obtain ⟨metadata, identity, active⟩ := identity_of_activate isActive
    exact ⟨metadata.trans isSame.metadata,
      (congrArg Prod.snd identity).trans isSame.life.id, active.1, active.2⟩
  have kept : List.Forall₂ Started created powered := by
    refine forall₂_comp ?_ started samePower
    intro before activated after isStarted isPowered
    rw [isPowered]
    exact { isStarted with }
  exact {
    apart := by
      rw [map_eq_of_forall₂ (fun _ _ isKept => isKept.metadata) kept]
      exact apart
    active := by
      intro validator listed
      obtain ⟨_, _, isStarted⟩ := exists_of_forall₂ kept listed
      exact isStarted.isPreactive
    running := by
      intro validator listed
      obtain ⟨_, _, isStarted⟩ := exists_of_forall₂ kept listed
      exact isStarted.running
    pending := rfl
    removals := rfl
    candidates := rfl
    inactive := rfl
    mapped := by
      intro poolId address
      rw [mappings_spec mapped, activatedIdentity]
      simp
    fresh := by
      intro validator listed
      obtain ⟨before, isBefore, isStarted⟩ := exists_of_forall₂ kept listed
      rw [isStarted.stakingPoolId]
      exact fresh before isBefore
    stakes := by
      intro stake listed
      obtain ⟨validator, isValidator, isPool⟩ := pools stake listed
      obtain ⟨after, isAfter, isStarted⟩ := exists_of_forall₂ kept.flip isValidator
      exact ⟨after, isAfter, isPool.trans isStarted.stakingPoolId.symm⟩
    power := power
    records := rfl }

end Genesis

end

/-! ## Rosters -/

open ValidatorSet Roster.Step
open Validator (identity stakingPoolId)
open Function (update update_apply comp_update)
open Multiset (coe_eq_coe map map_coe mem_coe)

/-- The places of the validators of a set. -/
def ValidatorSet.roster (set : ValidatorSet) (registered : List ID) :
    Roster Address ID where
  members := (set.activeValidators ++ set.pendingActiveValidators).map
    Validator.identity
  candidates address := set.validatorCandidates[address]?.map Validator.identity
  mappings poolId := set.stakingPoolMappings[poolId]?
  departed poolId := set.inactiveValidators[poolId]?.map Validator.identity
  registered := { poolId | poolId ∈ registered }

theorem Validator.Edited.identity {old new : Validator} (edited : old.Edited new) :
    new.identity = old.identity :=
  Prod.ext edited.suiAddress (congrArg StakingPool.id edited.stakingPool)

namespace ValidatorSet

variable {set after : ValidatorSet} {registered : List ID}

/-! ## Changes of the set -/

/-- The lookups in a table after an entry is added. -/
theorem lookups_insert (table : ExtTreeMap Nat α) (key : Nat) (value : α) :
    (fun lookup : Nat => (table.insert key value)[lookup]?) =
      update (fun lookup : Nat => table[lookup]?) key (some value) := by
  funext lookup
  rw [Map.getElem?_insert, update_apply]
  exact if_congr eq_comm rfl rfl

/-- The lookups in a table after an entry is removed. -/
theorem lookups_erase (table : ExtTreeMap Nat α) (key : Nat) :
    (fun lookup : Nat => (table.erase key)[lookup]?) =
      update (fun lookup : Nat => table[lookup]?) key none := by
  funext lookup
  rw [Map.getElem?_erase, update_apply]
  exact if_congr eq_comm rfl rfl

theorem identities_insert (table : ExtTreeMap Nat Validator) (key : Nat) (validator : Validator) :
    (fun lookup : Nat =>
        (table.insert key validator)[lookup]?.map identity) =
      update (fun lookup : Nat => table[lookup]?.map identity)
        key (some validator.identity) := by
  have updated := congrArg (Option.map identity ∘ ·) (lookups_insert table key validator)
  rwa [comp_update] at updated

theorem identities_erase (table : ExtTreeMap Nat Validator) (key : Nat) :
    (fun lookup : Nat => (table.erase key)[lookup]?.map identity) =
      update (fun lookup : Nat => table[lookup]?.map identity)
        key none := by
  have updated := congrArg (Option.map identity ∘ ·) (lookups_erase table key)
  rwa [comp_update] at updated

/-- Replacing a validator by one with the same account and pool moves nobody. -/
theorem roster_of_replaced (replaced : set.Replaced old new after)
    (same : new.identity = old.identity) :
    after.roster registered = set.roster registered := by
  have unchanged
      {table : ExtTreeMap Nat Validator}
      {key : Nat} (found : table[key]? = some old) : (fun lookup : Nat =>
          (table.insert key new)[lookup]?.map identity) =
        fun lookup : Nat => table[lookup]?.map identity := by
    rw [identities_insert, same]
    apply Function.update_eq_self_iff.mpr
    rw [found]
    rfl
  cases replaced with
  | active index found =>
    simp only [roster, map_append, map_set_of_same found same]
  | pending index found =>
    simp only [roster, map_append, map_set_of_same found same]
  | candidate address found => simp only [roster, unchanged found]
  | inactive poolId found => simp only [roster, unchanged found]

/-- Removing an active validator removes its identity. -/
theorem members_of_eraseIdx {active pending : List Validator}
    (found : active[index]? = some validator) :
    (↑((active.eraseIdx index ++ pending).map identity) : Multiset (Address × ID)) =
      (↑((active ++ pending).map identity) :
        Multiset (Address × ID)).erase validator.identity := by
  have first : (active ++ pending).Perm (validator :: (active.eraseIdx index ++ pending)) :=
    (perm_of_getElem? found).append_right pending
  rw [coe_eq_coe.mpr (first.map identity), map_cons, ← Multiset.cons_coe, Multiset.erase_cons_head]

/-- A removal is a member leaving. -/
theorem step_of_removeActive
    (removed : set.removeActive records epoch index = .ok (after, cleaned)) :
    (set.roster registered).Step (after.roster registered) := by
  obtain ⟨validator, inactive, atRisk, totalStake, found, deactivated, _, _, rfl⟩ :=
    removeActive_spec removed
  have member : validator.identity ∈ (set.roster registered).members :=
    mem_map_of_mem (mem_append_left _ (mem_of_getElem? found))
  have step := leave validator.identity member
  simp only [roster, identities_insert, members_of_eraseIdx found,
    (Validator.identity_of_deactivate deactivated).1]
  rw [lookups_erase]
  exact step

/-- A new candidate is a registration. -/
theorem step_of_registered (newPool : validator.stakingPoolId ∉ registered)
    (notActive : set.isDuplicateWithActiveValidator validator = false)
    (notPending : set.isDuplicateWithPendingValidator validator = false)
    (noCandidate : set.validatorCandidates[validator.suiAddress]? = none) :
    (set.roster registered).Step
      (roster
        { set with
          stakingPoolMappings := set.stakingPoolMappings.insert
            validator.stakingPoolId validator.suiAddress
          validatorCandidates := set.validatorCandidates.insert
            validator.suiAddress validator }
        (validator.stakingPoolId :: registered)) := by
  have noMember : validator.suiAddress ∉ (set.roster registered).members.map Prod.fst := by
    intro listed
    obtain ⟨identity, isMember, sameAccount⟩ := Multiset.mem_map.mp listed
    obtain ⟨other, isOther, rfl⟩ := mem_map.mp isMember
    have different : other.isDuplicate validator = false := by
      rcases mem_append.mp isOther with active | pending
      · exact isDuplicateValidator_eq_false.mp notActive other active
      · exact isDuplicateValidator_eq_false.mp notPending other pending
    exact (Validator.isDuplicate_eq_false.mp different).1 sameAccount
  have step := register validator.suiAddress validator.stakingPoolId
    newPool noMember (Option.map_eq_none_iff.mpr noCandidate)
  have pools : { poolId | poolId ∈ validator.stakingPoolId :: registered } =
      insert validator.stakingPoolId { poolId | poolId ∈ registered } := by
    ext poolId
    simp
  simp only [roster, identities_insert, pools]
  rw [lookups_insert]
  exact step

/-- A removed candidate is unregistered. -/
theorem step_of_unregistered (found : set.validatorCandidates[sender]? = some validator)
    (deactivated : validator.deactivate epoch = .ok inactive) :
    (set.roster registered).Step
      (roster
        { set with
          validatorCandidates := set.validatorCandidates.erase sender
          stakingPoolMappings :=
            set.stakingPoolMappings.erase validator.stakingPoolId
          inactiveValidators :=
            set.inactiveValidators.insert validator.stakingPoolId inactive }
        registered) := by
  have isCandidate : (set.roster registered).candidates sender = some validator.identity :=
    Option.map_eq_some_iff.mpr ⟨validator, found, rfl⟩
  have step := unregister sender validator.identity isCandidate
  simp only [roster, identities_insert, identities_erase,
    (Validator.identity_of_deactivate deactivated).1]
  rw [lookups_erase]
  exact step

/-- A candidate that becomes pending joins. -/
theorem step_of_joined (found : set.validatorCandidates[sender]? = some validator) :
    (set.roster registered).Step
      (roster
        { set with
          validatorCandidates := set.validatorCandidates.erase sender
          pendingActiveValidators :=
            set.pendingActiveValidators ++ [validator] }
        registered) := by
  have isCandidate : (set.roster registered).candidates sender = some validator.identity :=
    Option.map_eq_some_iff.mpr ⟨validator, found, rfl⟩
  have step := join sender validator.identity isCandidate
  have members : ((set.activeValidators ++
      (set.pendingActiveValidators ++ [validator])).map identity).Perm
        (validator.identity :: (set.activeValidators ++
          set.pendingActiveValidators).map identity) := by
    rw [← append_assoc, map_append]
    exact perm_append_singleton _ _
  simp only [roster, identities_erase, coe_eq_coe.mpr members]
  exact step

/-- The pending validators become active. -/
theorem roster_of_enterEpoch (done : set.enterEpoch records computationReward storageFundReward
      rewardSlashingRate epoch = .ok (stakes, entered)) :
    entered.roster registered = set.roster registered := by
  obtain ⟨active, joining, same, activated, rfl, _⟩ := enterEpoch_spec done
  have activeSame : active.map identity =
      set.activeValidators.map identity :=
    map_eq_of_forall₂ (fun _ _ isSame => isSame.identity) same
  have joiningSame : joining.map identity =
      set.pendingActiveValidators.reverse.map identity := by
    refine map_eq_of_forall₂ ?_ activated
    exact fun _ _ isActive => (Validator.identity_of_activate isActive).2.1
  simp only [roster, append_nil, map_append, activeSame, joiningSame]
  congr 1
  rw [coe_eq_coe]
  exact ((reverse_perm _).map _).append_left _

/-- The departures of an epoch are members leaving. -/
theorem steps_of_leaveEpoch
    (left : leaveEpoch parameters set records epoch = .ok (after, cleaned)) :
    (set.roster registered).Steps (after.roster registered) := by
  have kept : KeptByLeaving epoch fun reached _ =>
      (set.roster registered).Steps (reached.roster registered) :=
    { atRisk := fun _ _ _ before => before
      removed := fun _ _ _ _ _ before removed =>
        before.tail (step_of_removeActive removed) }
  exact kept.leaveEpoch .refl left

theorem roster_of_settleEpoch (settled : set.settleEpoch = .ok after) :
    after.roster registered = set.roster registered := by
  obtain ⟨active, totalStake, same, _, rfl⟩ := settleEpoch_spec settled
  have activeSame : active.map identity =
      set.activeValidators.map identity :=
    map_eq_of_forall₂ (fun _ _ isSame => isSame.identity) same
  simp only [roster, map_append, activeSame]

/-! ## Requests to leave -/

/-- The positions of the validators that asked to leave are distinct and valid. -/
structure Leaving (set : ValidatorSet) : Prop where
  distinct : set.pendingRemovals.Nodup
  inside : ∀ index ∈ set.pendingRemovals, index < set.activeValidators.length

theorem Leaving.replaced (leaving : set.Leaving) (replaced : set.Replaced old new after) :
    after.Leaving := by
  cases replaced with
  | active index found =>
    refine ⟨leaving.distinct, fun other listed => ?_⟩
    rw [length_set]
    exact leaving.inside other listed
  | pending | candidate | inactive => exact ⟨leaving.distinct, leaving.inside⟩

theorem leaving_of_none (none : set.pendingRemovals = []) : set.Leaving :=
  ⟨by simp [none], by simp [none]⟩

/-- After the departures nobody is asked to leave. -/
theorem pendingRemovals_of_leaveEpoch
    (left : leaveEpoch parameters set records epoch = .ok (after, cleaned)) :
    after.pendingRemovals = [] := by
  have kept : KeptByLeaving epoch fun reached _ => reached.pendingRemovals = [] :=
    { atRisk := fun _ _ _ none => none
      removed := by
        intro set records index after cleaned none removed
        obtain ⟨_, _, _, _, _, _, _, _, rfl⟩ := removeActive_spec removed
        exact none }
  exact kept.leaveEpoch rfl left

end ValidatorSet

namespace SystemLedger

variable {natives : Natives} {ledger next : SystemLedger} {action : Action}

/-! ## Runs -/

/-- The places of the validators of the ledger. -/
def roster (ledger : SystemLedger) : Roster Address ID :=
  ledger.validators.roster ledger.registered

/-- The validators are in their places. -/
structure Placed (ledger : SystemLedger) : Prop where
  sound : ledger.roster.Sound
  fresh : ∀ poolId ∈ ledger.registered, poolId < ledger.nextId
  leaving : ledger.validators.Leaving

/-- Nobody moves when a validator is replaced by one with the same account and
pool. -/
theorem steps_of_replaced {set : ValidatorSet} (replaced : ledger.validators.Replaced old new set)
    (same : new.identity = old.identity) :
    ledger.roster.Steps (set.roster ledger.registered) := by
  rw [roster_of_replaced replaced same]
  exact .refl

/-- Actions move validators along the steps of rosters. -/
theorem steps_of_effect (placed : ledger.Placed) (effect : Effect ledger action next) :
    ledger.roster.Steps next.roster := by
  cases effect with
  | edited replaced harmless later =>
    exact steps_of_replaced replaced harmless.1.identity
  | staged replaced edited unique =>
    exact steps_of_replaced replaced edited.identity
  | overwritten sender update replaced preactive edited who =>
    exact steps_of_replaced replaced edited.identity
  | addedStake replaced requested =>
    exact steps_of_replaced replaced (Validator.Same.requestAddStake requested).identity
  | withdrew listed replaced requested =>
    exact steps_of_replaced replaced (Validator.Same.requestWithdrawStake requested).identity
  | regrouped | asked | reported | undone | safeMode => exact .refl
  | @registered _ validator pool notActive notPending noCandidate =>
    have isPool : validator.stakingPoolId = ledger.nextId := by
      rw [stakingPoolId, pool]
      rfl
    have newPool : validator.stakingPoolId ∉ ledger.registered := by
      rw [isPool]
      exact fun used => (placed.fresh _ used).false
    have step := step_of_registered newPool notActive notPending noCandidate
    rw [isPool] at step
    exact .single step
  | unregistered sender found deactivated =>
    exact .single (step_of_unregistered found deactivated)
  | joined sender found notActive notPending enough =>
    exact .single (step_of_joined found)
  | advanced hasEntered hasLeft hasSettled =>
    unfold roster
    rw [roster_of_settleEpoch hasSettled, ← roster_of_enterEpoch hasEntered]
    exact steps_of_leaveEpoch hasLeft

/-- Pools have identifiers that were already given out. -/
theorem fresh_of_effect (fresh : ∀ poolId ∈ ledger.registered, poolId < ledger.nextId)
    (effect : Effect ledger action next) :
    ∀ poolId ∈ next.registered, poolId < next.nextId := by
  cases effect with
  | edited replaced harmless later =>
    exact fun poolId listed => (fresh poolId listed).trans_le later
  | registered pool notActive notPending noCandidate =>
    exact forall_mem_cons.mpr ⟨Nat.lt_add_of_pos_right Nat.two_pos, fun poolId old =>
      (fresh poolId old).trans_le (Nat.le_add_right _ _)⟩
  | staged | overwritten | addedStake | withdrew | regrouped | unregistered | joined
  | asked | reported | undone | advanced | safeMode => exact fresh

/-- Every effect keeps the pending removals in range and distinct. -/
theorem leaving_of_effect (leaving : ledger.validators.Leaving)
    (effect : Effect ledger action next) :
    next.validators.Leaving := by
  cases effect with
  | edited replaced | staged replaced | overwritten _ _ replaced
  | addedStake replaced | withdrew _ replaced => exact leaving.replaced replaced
  | regrouped | reported | undone | safeMode => exact leaving
  | registered | unregistered | joined =>
    exact ⟨leaving.distinct, leaving.inside⟩
  | asked inside new =>
    constructor
    · rw [← concat_eq_append]
      exact leaving.distinct.concat new
    · exact forall_mem_snoc.mpr ⟨leaving.inside, inside⟩
  | advanced hasEntered hasLeft hasSettled =>
    obtain ⟨active, totalStake, _, _, rfl⟩ := settleEpoch_spec hasSettled
    have none := pendingRemovals_of_leaveEpoch hasLeft
    exact leaving_of_none none

theorem Placed.perform (placed : ledger.Placed)
    (performed : ledger.perform natives action = some next) :
    next.Placed := by
  have effect := effect_of_perform performed
  exact ⟨placed.sound.steps (steps_of_effect placed effect),
    fresh_of_effect placed.fresh effect, leaving_of_effect placed.leaving effect⟩

section

variable (started : genesis natives parameters genesisValidators allocations = some ledger)

include started

theorem founded_of_genesis :
    Genesis.Founded ledger.stakes ledger.nextId ledger.state ∧ ledger.registered =
        ledger.validators.activeValidators.map stakingPoolId := by
  obtain ⟨⟨stakes, nextId, state⟩, created, rfl⟩ := Option.map_eq_some_iff.mp started
  exact ⟨Genesis.founded_of_create (toOption_eq_some.mp created), rfl⟩

/-- Genesis puts every validator in its place. -/
theorem placed_of_genesis : ledger.Placed := by
  obtain ⟨founded, registered⟩ := founded_of_genesis started
  have isRoster : ledger.roster =
      { members := ledger.validators.activeValidators.map identity
        candidates := fun _ => none
        mappings := fun poolId => ledger.validators.stakingPoolMappings[poolId]?
        departed := fun _ => none
        registered := { poolId | poolId ∈ map Prod.snd
          (↑(ledger.validators.activeValidators.map identity) :
            Multiset (Address × ID)) } } := by
    simp only [roster, ValidatorSet.roster, validators, founded.pending,
      founded.candidates, founded.inactive, registered, append_nil,
      Std.ExtTreeMap.getElem?_empty, Option.map_none, map_coe, map_map, mem_coe]
    rfl
  refine ⟨?_, ?_, ValidatorSet.leaving_of_none founded.removals⟩
  · rw [isRoster]
    refine .founding ?_ fun account pool => founded.mapped pool account
    have different := founded.apart.imp fun apart => apart.1
    rw [pairwise_map] at different
    rw [map_coe, Multiset.coe_nodup, map_map]
    exact pairwise_map.mpr different
  · rw [registered]
    intro poolId listed
    obtain ⟨validator, isValidator, rfl⟩ := mem_map.mp listed
    exact founded.fresh validator isValidator

end

end SystemLedger

end Sui.System
