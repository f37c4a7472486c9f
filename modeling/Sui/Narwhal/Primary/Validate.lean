import Sui.Narwhal.Types

/-!
# Validation of headers and certificates

What a primary checks before it uses a header or a certificate of a peer.  The
hash function, the signature scheme and the table of workers are parameters.

The stake behind a certificate is summed in one walk over the committee that
advances a pointer into the bitmap of signers.  Whatever the bitmap contains, the
sum is the stake of a duplicate-free group of authorities.
-/

namespace Sui.Narwhal

/-- The reasons to refuse a peer. -/
inductive NetworkFailure
  | peerIdUnknown
  | peerIdNotAKey
  | networkKeyUnknown (key : NetworkPublicKey)
  | authorMismatch (author : AuthorityIdentifier) (peer : Authority)
  deriving DecidableEq

/-- The errors of a primary. -/
inductive DagError
  | invalidEpoch (expected received : Nat)
  | invalidHeaderDigest
  | unknownAuthority (authority : AuthorityIdentifier)
  | headerHasBadWorkerIds (header : HeaderDigest)
  | certificateRequiresQuorum
  | invalidSignature
  | tooManyParents (received limit : Nat)
  | networkError (failure : NetworkFailure)
  | tooOld (header : HeaderDigest) (round narwhalRound : Nat)
  | headerHasInvalidParentRoundNumbers (header : HeaderDigest)
  | headerHasInvalidParentTimestamp (header : HeaderDigest)
  | headerHasDuplicateParentAuthorities (header : HeaderDigest)
  | headerRequiresQuorum (header : HeaderDigest)
  | invalidTimestamp (createdTime localTime : Nat)
  | alreadyVotedNewerHeader (header : HeaderDigest) (round votedRound : Nat)
  | alreadyVoted (voted header : HeaderDigest) (round : Nat)
  deriving DecidableEq

/-- The cryptographic functions that a primary calls. -/
structure Cryptography where
  /-- The hash of the serialized header, which does not contain the cached
  digest. -/
  hash : Header → HeaderDigest
  sign : AuthorityIdentifier → HeaderDigest → Nat
  /-- The check of an aggregated signature; a signature that cannot be parsed
  does not pass. -/
  verifySecure : Nat → CertificateDigest → List PublicKey → Bool

/-- What a primary is configured with for one epoch. -/
structure PrimaryConfig where
  committee : Committee
  workerCache : PublicKey → WorkerId → Bool
  cryptography : Cryptography

/-- Whether a worker of the author exists. -/
def Header.hasWorker (config : PrimaryConfig) (header : Header) (worker : WorkerId) : Bool :=
  (config.committee.authority header.author).elim false fun authority =>
    config.workerCache authority.protocolKey worker

/-- Check a header against the epoch. -/
def Header.validate (config : PrimaryConfig) (header : Header) :
    Except DagError Unit :=
  if header.epoch ≠ config.committee.epoch then
    .error (.invalidEpoch config.committee.epoch header.epoch)
  else if config.cryptography.hash header ≠ header.digest then
    .error .invalidHeaderDigest
  else if config.committee.stakeById header.author = 0 then
    .error (.unknownAuthority header.author)
  else if header.payload.all fun batch => header.hasWorker config batch.2.1 then
    .ok ()
  else
    .error (.headerHasBadWorkerIds header.digest)

theorem Header.validate_eq_ok {config : PrimaryConfig} (valid : header.validate config = .ok ()) :
    header.epoch = config.committee.epoch ∧ config.cryptography.hash header = header.digest := by
  unfold validate at valid
  split at valid
  · cases valid
  · next sameEpoch =>
    split at valid
    · cases valid
    · next sameDigest => exact ⟨not_not.mp sameEpoch, not_not.mp sameDigest⟩

namespace Certificate

/-- The walk over the committee from a position on, with a pointer into the list
of signers. -/
def signedByFrom (authIndexes : List AuthorityIdentifier) :
    Nat → Nat → List Authority → Nat × List PublicKey
  | _, _, [] => (0, [])
  | index, authIter, authority :: authorities =>
    if authIndexes[authIter]? = some index then
      let (weight, keys) :=
        signedByFrom authIndexes (index + 1) (authIter + 1) authorities
      (authority.stake + weight, authority.protocolKey :: keys)
    else
      signedByFrom authIndexes (index + 1) authIter authorities

/-- The stake of the signers and their keys. -/
def signedBy (certificate : Certificate) (committee : Committee) :
    Nat × List PublicKey :=
  signedByFrom certificate.signedAuthorities 0 0 committee.authorities

/-- The genesis certificate of an authority. -/
def genesisOf (config : PrimaryConfig) (authority : Authority) : Certificate :=
  let header : Header :=
    { author := authority.id
      round := 0
      epoch := config.committee.epoch
      createdAt := 0
      payload := []
      parents := []
      digest := 0
      sorted := Header.sorted_nil }
  { header := { header with digest := config.cryptography.hash header }
    signedAuthorities := []
    aggregatedSignature := 0 }

/-- The genesis certificates of the committee. -/
def genesis (config : PrimaryConfig) : List Certificate :=
  config.committee.authorities.map (genesisOf config)

/-- The checks of a certificate that is not from genesis: its header, the stake
of its signers and their signature. -/
def verifySigned (config : PrimaryConfig) (certificate : Certificate) :
    Except DagError Unit :=
  match certificate.header.validate config with
  | .error failure => .error failure
  | .ok () =>
    let (weight, keys) := certificate.signedBy config.committee
    if weight < config.committee.quorumThreshold then
      .error .certificateRequiresQuorum
    else if config.cryptography.verifySecure certificate.aggregatedSignature
        certificate.digest keys then
      .ok ()
    else
      .error .invalidSignature

/-- The walk selects some of the authorities, each at most once. -/
theorem signedByFrom_spec (authIndexes : List AuthorityIdentifier) (index authIter : Nat)
    (authorities : List Authority) :
    ∃ signers : List Authority, signers.Sublist authorities ∧
      signedByFrom authIndexes index authIter authorities = ((signers.map Authority.stake).sum,
          signers.map Authority.protocolKey) := by
  induction authorities generalizing index authIter with
  | nil => exact ⟨[], .slnil, rfl⟩
  | cons authority authorities ih =>
    unfold signedByFrom
    split
    · obtain ⟨signers, sublist, walked⟩ := ih (index + 1) (authIter + 1)
      exact ⟨authority :: signers, sublist.cons_cons authority, by simp [walked]⟩
    · obtain ⟨signers, sublist, walked⟩ := ih (index + 1) authIter
      exact ⟨signers, sublist.cons authority, walked⟩

/-- A certificate that passes carries the signature of a quorum of distinct
authorities. -/
theorem verifySigned_eq_ok {certificate : Certificate}
    (verified : certificate.verifySigned config = .ok ()) :
    certificate.header.validate config = .ok () ∧ ∃ signers : List Authority,
        signers.Sublist config.committee.authorities ∧
        config.committee.quorumThreshold ≤ (signers.map Authority.stake).sum ∧
        config.cryptography.verifySecure certificate.aggregatedSignature
          certificate.digest (signers.map Authority.protocolKey) = true := by
  obtain ⟨signers, sublist, walked⟩ := signedByFrom_spec
    certificate.signedAuthorities 0 0 config.committee.authorities
  unfold verifySigned at verified
  rw [signedBy, walked] at verified
  cases valid : certificate.header.validate config with
  | error failure =>
    rw [valid] at verified
    cases verified
  | ok _ =>
    refine ⟨rfl, signers, sublist, ?_⟩
    rw [valid] at verified
    dsimp only at verified
    split at verified
    · cases verified
    · next enough =>
      split at verified
      · next passed => exact ⟨Nat.le_of_not_lt enough, passed⟩
      · cases verified

end Certificate

end Sui.Narwhal
