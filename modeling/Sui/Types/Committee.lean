import Sui.Library.Map

/-!
# The committee of an epoch

The validators of an epoch with their voting power, which adds up to a fixed total, and
the signature of a quorum of them.  How the aggregate of signatures is verified is left to
the cryptography.
-/

namespace Sui.Types

open Std (ExtTreeMap)
open List

/-- The name of a validator, its public key. -/
abbrev AuthorityName := Nat

/-- The voting power of all validators together. -/
def totalVotingPower : Nat :=
  10000

/-- The voting power that can be trusted, more than two thirds. -/
def quorumThreshold : Nat :=
  6667

/-- The voting power that has an honest part, more than one third. -/
def validityThreshold : Nat :=
  3334

/-- The validators of an epoch. -/
structure Committee where
  epoch : Nat
  votingRights : List (AuthorityName × Nat)
  ordered : (votingRights.map Prod.fst).Pairwise (· < ·)
  total : (votingRights.map Prod.snd).sum = totalVotingPower
  deriving DecidableEq

namespace Committee

/-- The committee with some voting rights.  The process panics if they do not add up, which
they do not if there are none. -/
def new (epoch : Nat) (votingRights : ExtTreeMap AuthorityName Nat) : Option Committee :=
  if total : (votingRights.toList.map Prod.snd).sum = totalVotingPower then
    some
      { epoch := epoch
        votingRights := votingRights.toList
        ordered := List.pairwise_map.mpr
          (ExtTreeMap.ordered_keys_toList.imp Nat.compare_eq_lt.mp)
        total := total }
  else
    none

/-- The voting power of a validator, none if it is not in the committee. -/
def weight (committee : Committee) (author : AuthorityName) : Nat :=
  ((committee.votingRights.find? fun entry => entry.1 = author).map Prod.snd).getD 0

/-- The validator at a position. -/
def authorityByIndex (committee : Committee) (index : Nat) : Option AuthorityName :=
  committee.votingRights[index]?.map Prod.fst

/-- The voting power that a quorum needs, a strong one or a weak one. -/
def threshold (strong : Bool) : Nat :=
  if strong then quorumThreshold else validityThreshold

theorem nodup_names (committee : Committee) : (committee.votingRights.map Prod.fst).Nodup :=
  committee.ordered.imp Nat.ne_of_lt

theorem epoch_of_new {epoch : Nat} {votingRights : ExtTreeMap AuthorityName Nat}
    (created : new epoch votingRights = some committee) :
    committee.epoch = epoch := by
  unfold new at created
  split at created
  · cases created
    rfl
  · cases created

/-- Different positions have different validators. -/
theorem authorityByIndex_injective {committee : Committee}
    (leftFound : committee.authorityByIndex left = some author)
    (rightFound : committee.authorityByIndex right = some author) :
    left = right := by
  unfold authorityByIndex at leftFound rightFound
  rw [← List.getElem?_map] at leftFound rightFound
  obtain ⟨leftBound, _⟩ := List.getElem?_eq_some_iff.mp leftFound
  exact (List.getElem?_inj leftBound committee.nodup_names).mp (leftFound.trans rightFound.symm)

end Committee

/-- A signature of a quorum: the aggregate, and the bitmap of the positions of the
signers. -/
structure QuorumSignInfo where
  epoch : Nat
  signature : Nat
  signersMap : List Nat
  ascending : signersMap.Pairwise (· < ·)
  deriving DecidableEq

namespace Committee

/-- A signer, if it is in the committee and has voting power. -/
def signer (committee : Committee) (index : Nat) : Option AuthorityName :=
  (committee.authorityByIndex index).bind fun author =>
    if 0 < committee.weight author then some author else none

end Committee

namespace QuorumSignInfo

variable {μ : Type} (verifyAll : Nat → μ → List AuthorityName → Nat → Bool)

/-- Verify the signature of a quorum.  The aggregate is checked for the message, the epoch
and the keys of the signers. -/
def verifySecure (info : QuorumSignInfo) (strong : Bool) (data : μ)
    (committee : Committee) : Bool :=
  info.epoch == committee.epoch &&
    match info.signersMap.mapM committee.signer with
    | some names =>
      decide (Committee.threshold strong ≤ (names.map committee.weight).sum) &&
        verifyAll info.epoch data names info.signature
    | none => false

/-- Distinct validators of a committee, with the voting power that is needed, signed a
message. -/
structure Signed
    (strong : Bool)
    (data : μ)
    (committee : Committee)
    (info : QuorumSignInfo) : Prop where
  epoch : info.epoch = committee.epoch
  signers : ∃ names : List AuthorityName, names.Nodup ∧
    (∀ name ∈ names, 0 < committee.weight name) ∧
    Committee.threshold strong ≤ (names.map committee.weight).sum ∧
    verifyAll info.epoch data names info.signature = true

theorem weight_signer {committee : Committee} (isSigner : committee.signer index = some name) :
    committee.authorityByIndex index = some name ∧ 0 < committee.weight name := by
  obtain ⟨author, found, checked⟩ := Option.bind_eq_some_iff.mp isSigner
  split at checked
  · next positive =>
    cases checked
    exact ⟨found, positive⟩
  · cases checked

/-- The signers at ascending positions are distinct. -/
theorem nodup_signers {committee : Committee} {signersMap : List Nat}
    (ascending : signersMap.Pairwise (· < ·))
    (found : signersMap.mapM committee.signer = some names) :
    names.Nodup ∧ ∀ name ∈ names, ∃ index ∈ signersMap, committee.signer index = some name := by
  have pairs := Library.Map.forall₂_of_mapM found
  clear found
  induction pairs with
  | nil => simp
  | @cons name index _ _ isSigner _ ih =>
    rw [pairwise_cons] at ascending
    obtain ⟨distinct, positions⟩ := ih ascending.2
    refine ⟨nodup_cons.mpr ⟨?_, distinct⟩, ?_⟩
    · intro repeated
      obtain ⟨other, listed, isOther⟩ := positions name repeated
      have same := Committee.authorityByIndex_injective (weight_signer isSigner).1
        (weight_signer isOther).1
      exact absurd (ascending.1 other listed) (same ▸ Nat.lt_irrefl _)
    · refine forall_mem_cons.mpr ⟨⟨index, mem_cons_self, isSigner⟩, ?_⟩
      intro other later
      obtain ⟨position, isPosition, isOther⟩ := positions other later
      exact ⟨position, mem_cons_of_mem _ isPosition, isOther⟩

/-- A verified signature is by a quorum. -/
theorem signed_of_verifySecure {data : μ}
    (verified : info.verifySecure verifyAll strong data committee = true) :
    Signed verifyAll strong data committee info := by
  unfold verifySecure at verified
  rw [Bool.and_eq_true, beq_iff_eq] at verified
  obtain ⟨sameEpoch, verified⟩ := verified
  split at verified
  · next names found =>
    rw [Bool.and_eq_true, decide_eq_true_eq] at verified
    obtain ⟨distinct, positions⟩ := nodup_signers info.ascending found
    refine ⟨sameEpoch, names, distinct, ?_, verified.1, verified.2⟩
    intro name listed
    obtain ⟨index, _, isSigner⟩ := positions name listed
    exact (weight_signer isSigner).2
  · cases verified

end QuorumSignInfo

end Sui.Types
