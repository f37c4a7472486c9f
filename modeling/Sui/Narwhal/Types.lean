import Sui.Library.Quorum
import Sui.Library.Map

/-!
# The committee and its certificates

The authorities of one epoch, their stake and the two stake thresholds.  The
source keeps the authorities twice, in a map by protocol key and in a map by
identifier; identifiers are assigned in key order, so one list in key order is
both.

Stake is the voting power of an authority.  The voting powers of a committee
add up to ten thousand, far below the range of the machine integers that the
source sums them in, so natural numbers model them.  Rounds, epochs and
timestamps are natural numbers as well.
-/

namespace Sui.Narwhal

open Library
open List hiding after

/-- Position of an authority in key order. -/
abbrev AuthorityIdentifier := Nat

/-- The key an authority signs with. -/
abbrev PublicKey := Nat

/-- The key an authority uses in the network layer. -/
abbrev NetworkPublicKey := Nat

/-- One member of the committee.  Addresses and the host name play no part in
the modelled functions. -/
structure Authority where
  id : AuthorityIdentifier
  protocolKey : PublicKey
  stake : Nat
  networkKey : NetworkPublicKey
  deriving DecidableEq, Repr

/-- The committee of one epoch. -/
structure Committee where
  /-- The authorities in key order. -/
  authorities : List Authority
  epoch : Nat
  ids : authorities.map Authority.id = List.range authorities.length
  keys : (authorities.map Authority.protocolKey).Pairwise (· < ·)
  positive : 0 < (authorities.map Authority.stake).sum

namespace Committee

/-- The authority of an identifier. -/
def authority (committee : Committee) (id : AuthorityIdentifier) :
    Option Authority :=
  committee.authorities[id]?

/-- The number of authorities. -/
def size (committee : Committee) : Nat :=
  committee.authorities.length

/-- The stake of an authority, zero outside the committee. -/
def stakeById (committee : Committee) (id : AuthorityIdentifier) : Nat :=
  match committee.authority id with
  | some authority => authority.stake
  | none => 0

/-- The stake of the whole committee. -/
def totalStake (committee : Committee) : Nat :=
  (committee.authorities.map Authority.stake).sum

/-- The stake that makes a quorum. -/
def quorumThreshold (committee : Committee) : Nat :=
  2 * committee.totalStake / 3 + 1

/-- The stake that is certain to include an honest authority. -/
def validityThreshold (committee : Committee) : Nat :=
  (committee.totalStake + 2) / 3

/-- The authority that uses a network key. -/
def authorityByNetworkKey (committee : Committee) (key : NetworkPublicKey) : Option Authority :=
  committee.authorities.find? fun authority => authority.networkKey == key

variable (committee : Committee)

theorem authority_isSome_iff (id : AuthorityIdentifier) :
    (committee.authority id).isSome ↔ id < committee.size := by
  simp [authority, size]

theorem id_of_authority_eq_some {id : AuthorityIdentifier}
    (present : committee.authority id = some found) :
    found.id = id := by
  have mapped : (committee.authorities.map Authority.id)[id]? = some found.id := by
    rw [authority] at present
    simp [present]
  rw [committee.ids] at mapped
  obtain ⟨_, equal⟩ := List.getElem?_eq_some_iff.mp mapped
  simpa using equal.symm

/-- Every authority is found under its own identifier. -/
theorem authority_id_eq_some (member : found ∈ committee.authorities) :
    committee.authority found.id = some found := by
  obtain ⟨index, present⟩ := mem_iff_getElem?.mp member
  have same := committee.id_of_authority_eq_some present
  rw [same]
  exact present

theorem id_lt_size (member : found ∈ committee.authorities) : found.id < committee.size := by
  rw [← committee.authority_isSome_iff, committee.authority_id_eq_some member]
  rfl

/-- An authority has one network key. -/
theorem networkKey_unique (foundLeft : committee.authorityByNetworkKey leftKey = some left)
    (foundRight : committee.authorityByNetworkKey rightKey = some right)
    (same : left.id = right.id) :
    leftKey = rightKey := by
  have equal : left = right := by
    have found := committee.authority_id_eq_some (mem_of_find?_eq_some foundLeft)
    rw [same, committee.authority_id_eq_some (mem_of_find?_eq_some foundRight)] at found
    exact (Option.some.inj found).symm
  have leftUses : left.networkKey = leftKey := by
    simpa using find?_some foundLeft
  have rightUses : right.networkKey = rightKey := by
    simpa using find?_some foundRight
  rw [← leftUses, equal, rightUses]

theorem stakeById_eq_zero {id : AuthorityIdentifier} (outside : ¬ id < committee.size) :
    committee.stakeById id = 0 := by
  have absent : committee.authority id = none := by
    simpa [authority, size] using outside
  rw [stakeById, absent]

/-- The whole committee has the total stake. -/
theorem weight_range_size :
    weight committee.stakeById (Finset.range committee.size) = committee.totalStake := by
  have stakes : (List.range committee.size).map committee.stakeById =
      committee.authorities.map Authority.stake := by
    apply ext_getElem
    · simp [size]
    · intro index _ inside
      simp only [length_map] at inside
      simp [stakeById, authority, inside]
  rw [totalStake, ← stakes, sum_map_eq_weight committee.stakeById nodup_range]
  congr 1
  ext id
  simp

variable {left right : List AuthorityIdentifier}

/-- Two groups of authorities whose stakes exceed the total stake share an
authority with stake. -/
theorem exists_common (leftNodup : left.Nodup)
    (rightNodup : right.Nodup)
    (exceeds : committee.totalStake < (left.map committee.stakeById).sum +
        (right.map committee.stakeById).sum) :
    ∃ id ∈ left, id ∈ right ∧ 0 < committee.stakeById id := by
  rw [← committee.weight_range_size] at exceeds
  apply exists_common_of_sum_lt committee.stakeById leftNodup rightNodup _ exceeds
  intro id outside
  apply committee.stakeById_eq_zero
  simpa using outside

theorem totalStake_lt_quorum_add_validity :
    committee.totalStake < committee.quorumThreshold + committee.validityThreshold := by
  unfold quorumThreshold validityThreshold
  omega

/-- A quorum and a group above the validity threshold meet. -/
theorem exists_common_of_quorum_of_validity {quorum support : List AuthorityIdentifier}
    (quorumNodup : quorum.Nodup) (supportNodup : support.Nodup)
    (isQuorum : committee.quorumThreshold ≤ (quorum.map committee.stakeById).sum)
    (isValid : committee.validityThreshold ≤ (support.map committee.stakeById).sum) :
    ∃ id ∈ quorum, id ∈ support := by
  have thresholds := committee.totalStake_lt_quorum_add_validity
  obtain ⟨id, inQuorum, inSupport, _⟩ := committee.exists_common quorumNodup supportNodup (by omega)
  exact ⟨id, inQuorum, inSupport⟩

/-- The stakes of distinct authorities of the committee, by their identifiers. -/
theorem sum_stake_eq {group : List Authority}
    (members : ∀ authority ∈ group, authority ∈ committee.authorities) :
    (group.map Authority.stake).sum = ((group.map Authority.id).map committee.stakeById).sum := by
  rw [map_map]
  congr 1
  apply map_congr_left
  intro authority listed
  rw [Function.comp_apply, stakeById, committee.authority_id_eq_some (members authority listed)]

theorem nodup_ids {group : List Authority} (sublist : group.Sublist committee.authorities) :
    (group.map Authority.id).Nodup := by
  have ids := sublist.map Authority.id
  rw [committee.ids] at ids
  exact ids.nodup nodup_range

/-- Two quorums meet outside of a light group. -/
theorem exists_common_outside (leftNodup : left.Nodup)
    (rightNodup : right.Nodup)
    (leftQuorum : committee.quorumThreshold ≤ (left.map committee.stakeById).sum)
    (rightQuorum : committee.quorumThreshold ≤ (right.map committee.stakeById).sum)
    {excluded : Finset AuthorityIdentifier}
    (below : weight committee.stakeById excluded < committee.validityThreshold) :
    ∃ id ∈ left, id ∈ right ∧ id ∉ excluded := by
  set remaining := left.filter (· ∉ excluded) with remainingDefinition
  have remainingNodup : remaining.Nodup := leftNodup.filter _
  have sameSet : remaining.toFinset = left.toFinset \ excluded := by
    ext id
    simp [remainingDefinition]
  have lost := weight_le_weight_sdiff_add committee.stakeById
    left.toFinset excluded
  rw [← sameSet, ← sum_map_eq_weight _ leftNodup, ← sum_map_eq_weight _ remainingNodup] at lost
  have thresholds : committee.totalStake + committee.validityThreshold ≤
      2 * committee.quorumThreshold := by
    unfold quorumThreshold validityThreshold
    omega
  obtain ⟨id, inRemaining, inRight, _⟩ :=
    committee.exists_common remainingNodup rightNodup (by omega)
  rw [remainingDefinition, mem_filter, decide_eq_true_iff] at inRemaining
  exact ⟨id, inRemaining.1, inRight, inRemaining.2⟩

end Committee

/-! ## Headers and certificates

A digest is an opaque number; the digest of a certificate is the digest that its header
carries. -/

open Std (ExtTreeMap)

abbrev HeaderDigest := Nat

/-- Digest of a certificate, the bytes of the digest of its header. -/
abbrev CertificateDigest := Nat

/-- Digest of a batch of transactions. -/
abbrev BatchDigest := Nat

/-- Identifier of a worker of one authority. -/
abbrev WorkerId := Nat

/-- A header proposed by an authority. -/
structure Header where
  author : AuthorityIdentifier
  round : Nat
  epoch : Nat
  /-- Creation time in milliseconds. -/
  createdAt : Nat
  payload : List (BatchDigest × WorkerId × Nat)
  parents : List CertificateDigest
  digest : HeaderDigest
  sorted : parents.Pairwise (· < ·)
  deriving DecidableEq

theorem Header.sorted_nil : ([] : List CertificateDigest).Pairwise (· < ·) :=
  .nil

/-- A certificate: a header with an aggregated signature and the bitmap of the
authorities that signed it.  The receipt time is left out. -/
structure Certificate where
  header : Header
  /-- The positions of the signers in ascending order. -/
  signedAuthorities : List AuthorityIdentifier
  aggregatedSignature : Nat
  deriving DecidableEq

namespace Certificate

/-- The round of the certified header. -/
def round (certificate : Certificate) : Nat :=
  certificate.header.round

/-- The epoch of the certified header. -/
def epoch (certificate : Certificate) : Nat :=
  certificate.header.epoch

/-- The author of the certified header. -/
def origin (certificate : Certificate) : AuthorityIdentifier :=
  certificate.header.author

/-- The digest of the certificate. -/
def digest (certificate : Certificate) : CertificateDigest :=
  certificate.header.digest

/-- The parents of the certified header. -/
def parents (certificate : Certificate) : List CertificateDigest :=
  certificate.header.parents

/-- Equality of certificates as the source tests it. -/
def eq (left right : Certificate) : Bool :=
  left.digest == right.digest && left.round == right.round &&
    left.epoch == right.epoch && left.origin == right.origin

@[simp] theorem eq_self (certificate : Certificate) : certificate.eq certificate = true := by
  simp [eq]

theorem digest_eq_of_eq {left right : Certificate} (same : left.eq right = true) :
    left.digest = right.digest := by
  simp only [eq, Bool.and_eq_true, beq_iff_eq] at same
  exact same.1.1.1

theorem nodup_parents (certificate : Certificate) : certificate.parents.Nodup :=
  certificate.header.sorted.imp Nat.ne_of_lt

end Certificate

/-- The score of every authority in the current schedule. -/
structure ReputationScores where
  scoresPerAuthority : ExtTreeMap AuthorityIdentifier Nat
  finalOfSchedule : Bool

namespace ReputationScores

/-- Zero scores for a committee. -/
def new (committee : Committee) : ReputationScores where
  scoresPerAuthority := .ofList
    (committee.authorities.map fun authority => (authority.id, 0))
  finalOfSchedule := false

/-- Add to the score of one authority. -/
def addScore (scores : ReputationScores) (authority : AuthorityIdentifier)
    (score : Nat) : ReputationScores :=
  { scores with
    scoresPerAuthority := scores.scoresPerAuthority.alter authority fun
      | some value => some (value + score)
      | none => some score }

/-- The number of authorities that have a score. -/
def totalAuthorities (scores : ReputationScores) : Nat :=
  scores.scoresPerAuthority.size

/-- The order of the schedule: higher scores first, and the higher identifier
first among equal scores. -/
def Precedes (left right : AuthorityIdentifier × Nat) : Prop :=
  right.2 < left.2 ∨ left.2 = right.2 ∧ right.1 ≤ left.1

instance : DecidableRel Precedes := fun _ _ =>
  inferInstanceAs (Decidable (_ ∨ _ ∧ _))

/-- The authorities with their scores in descending order. -/
def authoritiesByScoreDesc (scores : ReputationScores) :
    List (AuthorityIdentifier × Nat) :=
  scores.scoresPerAuthority.toList.insertionSort Precedes

end ReputationScores

/-- A committed leader with the certificates it commits. -/
structure CommittedSubDag where
  certificates : List Certificate
  leader : Certificate
  subDagIndex : Nat
  reputationScore : ReputationScores
  /-- The time of the commit, never below the time of an earlier commit. -/
  commitTimestamp : Nat

namespace CommittedSubDag

/-- The sub-dag of a leader, with the maximum of the leader's time and the time
of the previous commit. -/
def new (certificates : List Certificate) (leader : Certificate) (subDagIndex : Nat)
    (reputationScore : ReputationScores)
    (previousSubDag : Option CommittedSubDag) : CommittedSubDag where
  certificates := certificates
  leader := leader
  subDagIndex := subDagIndex
  reputationScore := reputationScore
  commitTimestamp :=
    max (previousSubDag.elim 0 CommittedSubDag.commitTimestamp)
      leader.header.createdAt

end CommittedSubDag

end Sui.Narwhal
