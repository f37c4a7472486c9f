import Sui.Narwhal.Primary.Proposer

/-!
# Voting on the headers of peers

A primary serves a vote request in three stages, between which it waits: it
authenticates the sender, it checks the parents and reads what it has voted for
before, and it records and returns its vote.  Requests of different peers
interleave; the network layer admits one request of a peer at a time.  A crash
keeps only the record of votes.

The last vote for each author is on record.  A new vote is for a higher round,
and a vote for the recorded round is for the recorded header, so no two votes for
one author and round differ.
-/

namespace Sui.Narwhal

open List hiding after
open Std (ExtTreeMap)
open Relation.ReflTransGen

/-- A vote on a header. -/
structure Vote where
  headerDigest : HeaderDigest
  round : Nat
  epoch : Nat
  origin : AuthorityIdentifier
  author : AuthorityIdentifier
  signature : Nat
  deriving DecidableEq

namespace Vote

/-- The vote of an authority on a header. -/
def new (cryptography : Cryptography) (author : AuthorityIdentifier) (header : Header) : Vote where
  headerDigest := header.digest
  round := header.round
  epoch := header.epoch
  origin := header.author
  author := author
  signature := cryptography.sign author header.digest

/-- The digest of a vote. -/
def digest (vote : Vote) : HeaderDigest :=
  vote.headerDigest

end Vote

/-- What is recorded of the last vote for an author. -/
structure VoteInfo where
  epoch : Nat
  round : Nat
  voteDigest : HeaderDigest
  deriving DecidableEq

/-- The record of a vote. -/
def VoteInfo.ofVote (vote : Vote) : VoteInfo :=
  ⟨vote.epoch, vote.round, vote.digest⟩

/-- The durable record of the last vote for each author. -/
abbrev VoteDigestStore := ExtTreeMap AuthorityIdentifier VoteInfo

/-- The parents that were requested from the author of a header. -/
abbrev ParentDigests :=
  ExtTreeMap (Nat × CertificateDigest) AuthorityIdentifier

structure RequestVoteRequest where
  header : Header
  /-- Parents of the header that the primary asked for. -/
  parents : List Certificate

/-- The answer to a request. -/
structure RequestVoteResponse where
  vote : Option Vote
  missing : List CertificateDigest

/-- What the network layer tells about the sender of a request. -/
inductive Peer
  | absent
  | malformed
  | key (key : NetworkPublicKey)

/-- The primary that serves requests. -/
structure PrimaryReceiverHandler where
  config : PrimaryConfig
  authorityId : AuthorityIdentifier

/-! ## The stages of a request -/

namespace PrimaryReceiverHandler

variable (handler : PrimaryReceiverHandler)

/-- Check the header and that its author sends the request. -/
def authenticate (peer : Peer) (request : RequestVoteRequest) :
    Except DagError Unit :=
  match request.header.validate handler.config with
  | .error failure => .error failure
  | .ok () =>
    let committee := handler.config.committee
    if committee.size < request.parents.length then
      .error (.tooManyParents request.parents.length committee.size)
    else
      match peer with
      | .absent => .error (.networkError .peerIdUnknown)
      | .malformed => .error (.networkError .peerIdNotAKey)
      | .key key =>
        match committee.authorityByNetworkKey key with
        | none => .error (.networkError (.networkKeyUnknown key))
        | some authority =>
          if request.header.author ≠ authority.id then
            .error (.networkError (.authorMismatch request.header.author authority))
          else
            .ok ()

/-- The round below in machine arithmetic, which wraps around at zero. -/
def previousRound (round : Nat) : Nat :=
  (round + (2 ^ 64 - 1)) % 2 ^ 64

/-- Keep the digests that no other header has requested, and request them. -/
def requestParents (header : Header) :
    List CertificateDigest → ParentDigests → List CertificateDigest × ParentDigests
  | [], parentDigests => ([], parentDigests)
  | digest :: digests, parentDigests =>
    let key := (previousRound header.round, digest)
    if parentDigests.contains key then
      requestParents header digests parentDigests
    else
      let (requested, parentDigests) := requestParents header digests
        (parentDigests.insert key header.author)
      (digest :: requested, parentDigests)

/-- The parents to request from the author of a header, given those that the
synchronizer does not know.  Headers that are too old are refused, and requests
that are too old are dropped. -/
def getUnknownParentDigests (header : Header) (unknown : List CertificateDigest)
    (narwhalRound : Nat) (parentDigests : ParentDigests) :
    Except DagError (List CertificateDigest × ParentDigests) :=
  let limitRound := narwhalRound - 3
  if header.round < limitRound then
    .error (.tooOld header.digest header.round narwhalRound)
  else
    .ok (requestParents header unknown
      (parentDigests.filter fun key _ => decide (limitRound - 1 ≤ key.1)))

/-- Offer the parents that were requested from the author of the header to the
synchronizer. -/
def tryAcceptUnknownParents (header : Header) (parents : List Certificate)
    (parentDigests : ParentDigests) (tryAcceptCertificate : Certificate → Except DagError Unit) :
    Except DagError Unit :=
  (parents.filter fun parent =>
    parentDigests[(parent.round, parent.digest)]? == some header.author).forM
      tryAcceptCertificate

/-- What the rest of the primary answers while a request arrives. -/
structure Arrival where
  /-- The parents of the header that the synchronizer does not know. -/
  unknown : Except DagError (List CertificateDigest)
  narwhalRound : Nat
  tryAcceptCertificate : Certificate → Except DagError Unit

/-- The first stage.  It ends with an error, with the missing parents, or with
`none` when the request goes on. -/
def receive (peer : Peer) (request : RequestVoteRequest) (arrival : Arrival)
    (parentDigests : ParentDigests) :
    ParentDigests × Except DagError (Option RequestVoteResponse) :=
  match handler.authenticate peer request with
  | .error failure => (parentDigests, .error failure)
  | .ok () =>
    if request.parents.isEmpty then
      match arrival.unknown with
      | .error failure => (parentDigests, .error failure)
      | .ok unknown =>
        match getUnknownParentDigests request.header unknown
            arrival.narwhalRound parentDigests with
        | .error failure => (parentDigests, .error failure)
        | .ok ([], parentDigests) => (parentDigests, .ok none)
        | .ok (missing, parentDigests) =>
          (parentDigests, .ok (some ⟨none, missing⟩))
    else
      match tryAcceptUnknownParents request.header request.parents
          parentDigests arrival.tryAcceptCertificate with
      | .error failure => (parentDigests, .error failure)
      | .ok () => (parentDigests, .ok none)

/-- The parents are from the round below, not younger than the header, from
distinct authors and hold a quorum. -/
def checkParents (header : Header) :
    List Certificate → List AuthorityIdentifier → Nat → Except DagError Unit
  | [], _, stake =>
    if stake < handler.config.committee.quorumThreshold then
      .error (.headerRequiresQuorum header.digest)
    else
      .ok ()
  | parent :: parents, parentAuthorities, stake =>
    if parent.round + 1 ≠ header.round then
      .error (.headerHasInvalidParentRoundNumbers header.digest)
    else if header.createdAt < parent.header.createdAt then
      .error (.headerHasInvalidParentTimestamp header.digest)
    else if parentAuthorities.contains parent.origin then
      .error (.headerHasDuplicateParentAuthorities header.digest)
    else
      checkParents header parents (parent.origin :: parentAuthorities)
        (stake + handler.config.committee.stakeById parent.origin)

/-- A header from the future is refused, unless the difference is so small that
the primary waits. -/
def checkTimestamp (header : Header) (now : Nat) : Except DagError Unit :=
  if now < header.createdAt ∧ 1000 ≤ header.createdAt - now then
    .error (.invalidTimestamp header.createdAt now)
  else
    .ok ()

/-- Whether a vote has to be recorded. -/
inductive Decision
  /-- The recorded vote is sent again. -/
  | resend
  /-- A new vote is recorded and sent. -/
  | record
  deriving DecidableEq

/-- The decision on a header, given what is recorded for its author. -/
def decideVote (header : Header) : Option VoteInfo → Except DagError Decision
  | none => .ok .record
  | some info =>
    if header.epoch ≠ info.epoch then
      .error (.invalidEpoch header.epoch info.epoch)
    else if header.round < info.round then
      .error (.alreadyVotedNewerHeader header.digest header.round info.round)
    else if header.round = info.round then
      let vote := Vote.new handler.config.cryptography handler.authorityId header
      if vote.digest ≠ info.voteDigest then
        .error (.alreadyVoted info.voteDigest header.digest header.round)
      else
        .ok .resend
    else
      .ok .record

/-- What the rest of the primary answers while a request is checked. -/
structure Check where
  parents : Except DagError (List Certificate)
  batches : Except DagError Unit
  now : Nat

/-- The second stage. -/
def examine (header : Header) (check : Check)
    (store : VoteDigestStore) : Except DagError Decision :=
  match check.parents with
  | .error failure => .error failure
  | .ok parents =>
    match handler.checkParents header parents [] 0 with
    | .error failure => .error failure
    | .ok () =>
      match check.batches with
      | .error failure => .error failure
      | .ok () =>
        match checkTimestamp header check.now with
        | .error failure => .error failure
        | .ok () => handler.decideVote header store[header.author]?

/-- The last stage. -/
def conclude (header : Header) (decision : Decision)
    (store : VoteDigestStore) : VoteDigestStore × Vote :=
  let vote := Vote.new handler.config.cryptography handler.authorityId header
  match decision with
  | .resend => (store, vote)
  | .record => (store.insert vote.origin (.ofVote vote), vote)

/-- An uninterrupted request. -/
def processRequestVote (peer : Peer) (request : RequestVoteRequest) (arrival : Arrival)
    (check : Check) (parentDigests : ParentDigests) (store : VoteDigestStore) :
    ParentDigests × VoteDigestStore × Except DagError RequestVoteResponse :=
  match handler.receive peer request arrival parentDigests with
  | (parentDigests, .error failure) => (parentDigests, store, .error failure)
  | (parentDigests, .ok (some response)) => (parentDigests, store, .ok response)
  | (parentDigests, .ok none) =>
    match handler.examine request.header check store with
    | .error failure => (parentDigests, store, .error failure)
    | .ok decision =>
      let (store, vote) := handler.conclude request.header decision store
      (parentDigests, store, .ok ⟨some vote, []⟩)

variable {handler}

/-- An authenticated request is by the author of a valid header. -/
theorem authenticate_eq_ok (authenticated : handler.authenticate peer request = .ok ()) :
    request.header.validate handler.config = .ok () ∧ ∃ key authority, peer = .key key ∧
        handler.config.committee.authorityByNetworkKey key = some authority ∧
        request.header.author = authority.id := by
  unfold authenticate at authenticated
  split at authenticated
  · cases authenticated
  · next valid =>
    dsimp only at authenticated
    split at authenticated
    · cases authenticated
    · split at authenticated
      · cases authenticated
      · cases authenticated
      · next key =>
        split at authenticated
        · cases authenticated
        · next authority found =>
          split at authenticated
          · cases authenticated
          · next same =>
            exact ⟨valid, key, authority, rfl, found, not_not.mp same⟩

theorem authenticate_of_receive
    (goesOn : (handler.receive peer request arrival parentDigests).2 = .ok none) :
    handler.authenticate peer request = .ok () := by
  unfold receive at goesOn
  split at goesOn
  · cases goesOn
  · assumption

/-- The first stage never answers with a vote. -/
theorem vote_of_receive
    (stops : (handler.receive peer request arrival parentDigests).2 = .ok (some response)) :
    response.vote = none := by
  unfold receive at stops
  repeat' split at stops
  all_goals cases stops
  rfl

theorem decideVote_of_examine (examined : handler.examine header check store = .ok decision) :
    handler.decideVote header store[header.author]? = .ok decision := by
  unfold examine at examined
  repeat' split at examined
  all_goals first | cases examined | exact examined

/-- A vote is recorded over an older one only. -/
theorem decideVote_eq_record (decided : handler.decideVote header (some info) = .ok .record) :
    info.epoch = header.epoch ∧ info.round < header.round := by
  rw [decideVote] at decided
  split at decided
  · cases decided
  · next sameEpoch =>
    split at decided
    · cases decided
    · split at decided
      · dsimp only at decided
        split at decided <;> cases decided
      · exact ⟨(not_not.mp sameEpoch).symm, by omega⟩

/-- A vote that is sent again is the recorded one. -/
theorem decideVote_eq_resend (decided : handler.decideVote header recorded = .ok .resend) :
    recorded = some ⟨header.epoch, header.round, header.digest⟩ := by
  unfold decideVote at decided
  split at decided
  · cases decided
  · next info =>
    split at decided
    · cases decided
    · next sameEpoch =>
      split at decided
      · cases decided
      · split at decided
        · next sameRound =>
          dsimp only at decided
          split at decided
          · cases decided
          · next sameDigest =>
            have voted : header.digest = info.voteDigest := not_not.mp sameDigest
            rw [not_not.mp sameEpoch, sameRound, voted]
        · cases decided

end PrimaryReceiverHandler

/-! ## Interleaved requests -/

/-- How far a request has come. -/
inductive Stage
  | waiting (header : Header)
  | voting (header : Header) (decision : PrimaryReceiverHandler.Decision)

/-- The header of the request. -/
def Stage.header : Stage → Header
  | waiting header => header
  | voting header _ => header

/-- A primary that votes.  `returned` is what it has ever answered. -/
structure Voter where
  store : VoteDigestStore
  parentDigests : ParentDigests
  inflight : ExtTreeMap NetworkPublicKey Stage
  /-- The returned votes of all lives. -/
  returned : List Vote

namespace Voter

open Library PrimaryReceiverHandler

/-- A primary that has not voted yet. -/
def new : Voter :=
  ⟨∅, ∅, ∅, []⟩

variable (handler : PrimaryReceiverHandler)

/-- The first stage of a request. -/
def receive (voter : Voter) (key : NetworkPublicKey) (request : RequestVoteRequest)
    (arrival : Arrival) : Voter :=
  match handler.receive (.key key) request arrival voter.parentDigests with
  | (parentDigests, .ok none) =>
    { voter with
      parentDigests := parentDigests
      inflight := voter.inflight.insert key (.waiting request.header) }
  | (parentDigests, _) => { voter with parentDigests := parentDigests }

/-- The second stage of the request of a peer. -/
def examine (voter : Voter) (key : NetworkPublicKey) (header : Header) (check : Check) : Voter :=
  { voter with
    inflight := match handler.examine header check voter.store with
      | .ok decision => voter.inflight.insert key (.voting header decision)
      | .error _ => voter.inflight.erase key }

/-- The last stage of the request of a peer. -/
def conclude (voter : Voter) (key : NetworkPublicKey) (header : Header)
    (decision : Decision) : Voter :=
  let (store, vote) := handler.conclude header decision voter.store
  { voter with
    store := store
    inflight := voter.inflight.erase key
    returned := voter.returned ++ [vote] }

/-- What can happen to a primary.  Requests that are not from a network key are
refused at once and change nothing. -/
inductive Step : Voter → Voter → Prop
  | receive {voter : Voter} {key : NetworkPublicKey}
      (request : RequestVoteRequest) (arrival : Arrival) :
      voter.inflight[key]? = none →
      Step voter (voter.receive handler key request arrival)
  /-- The parents of a header are accepted, or waiting for them fails. -/
  | examine {voter : Voter} {key : NetworkPublicKey} {header : Header}
      (check : Check) :
      voter.inflight[key]? = some (.waiting header) →
      Step voter (voter.examine handler key header check)
  | conclude {voter : Voter} {key : NetworkPublicKey} {header : Header}
      {decision : Decision} :
      voter.inflight[key]? = some (.voting header decision) →
      Step voter (voter.conclude handler key header decision)
  | cancel {voter : Voter} (key : NetworkPublicKey) :
      Step voter { voter with inflight := voter.inflight.erase key }
  | crash {voter : Voter} :
      Step voter { voter with parentDigests := ∅, inflight := ∅ }

/-- The states that requests and crashes lead to. -/
def Reachable : Voter → Prop :=
  Relation.ReflTransGen (Step handler) new

/-- The vote in the answer to a request, if there is one. -/
def votesOf : Except DagError RequestVoteResponse → List Vote
  | .ok response => response.vote.toList
  | .error _ => []

/-- An uninterrupted request of a peer. -/
def serve (voter : Voter) (key : NetworkPublicKey) (request : RequestVoteRequest)
    (arrival : Arrival) (check : Check) : Voter :=
  let (parentDigests, store, response) := handler.processRequestVote (.key key)
    request arrival check voter.parentDigests voter.store
  { voter with
    store := store
    parentDigests := parentDigests
    returned := voter.returned ++ votesOf response }

variable {handler}

/-- The stages of an uninterrupted request are steps of the primary. -/
theorem serve_steps {voter : Voter} (idle : voter.inflight[key]? = none)
    (request : RequestVoteRequest) (arrival : Arrival) (check : Check) :
    Relation.ReflTransGen (Step handler) voter
      (voter.serve handler key request arrival check) := by
  have first : Step handler voter (voter.receive handler key request arrival) :=
    .receive request arrival idle
  unfold receive at first
  unfold serve processRequestVote
  split at first
  · next parentDigests goesOn =>
    let arrived : Voter := ⟨voter.store, parentDigests,
      voter.inflight.insert key (.waiting request.header), voter.returned⟩
    have second : Step handler arrived (arrived.examine handler key request.header check) :=
      .examine check (by simp [arrived])
    unfold examine at second
    simp only [goesOn]
    cases examined : handler.examine request.header check voter.store with
    | error failure =>
      simp only [arrived, examined, Map.erase_insert, Map.erase_of_absent idle] at second
      simpa [votesOf] using (single first).tail second
    | ok decision =>
      simp only [arrived, examined] at second
      let examinedVoter : Voter := ⟨voter.store, parentDigests,
        (voter.inflight.insert key (.waiting request.header)).insert key
          (.voting request.header decision), voter.returned⟩
      have third : Step handler examinedVoter
          (examinedVoter.conclude handler key request.header decision) :=
        .conclude (by simp [examinedVoter])
      simp only [conclude, examinedVoter, Map.erase_insert, Map.erase_of_absent idle] at third
      exact ((single first).tail second).tail third
  · next parentDigests result stops received =>
    apply single
    rw [received]
    cases result with
    | error failure => simpa [votesOf] using first
    | ok response =>
      cases response with
      | none => exact absurd rfl stops
      | some response =>
        have noVote := vote_of_receive (congrArg Prod.snd received)
        simpa [votesOf, noVote] using first

/-- A returned vote is covered by the record for its author. -/
def Covered (store : VoteDigestStore) (vote : Vote) : Prop :=
  ∃ info, store[vote.origin]? = some info ∧ info.epoch = vote.epoch ∧ (vote.round < info.round ∨
      vote.round = info.round ∧ vote.headerDigest = info.voteDigest)

/-- What holds of a primary between two steps. -/
structure Sound (handler : PrimaryReceiverHandler) (voter : Voter) : Prop where
  unique : ∀ left ∈ voter.returned, ∀ right ∈ voter.returned,
    left.origin = right.origin → left.round = right.round →
      left.headerDigest = right.headerDigest
  covered : ∀ vote ∈ voter.returned, Covered voter.store vote
  valid : ∀ vote ∈ voter.returned, ∃ header : Header, header.validate handler.config = .ok () ∧
      vote = Vote.new handler.config.cryptography handler.authorityId header
  authentic : ∀ (key : NetworkPublicKey) stage, voter.inflight[key]? = some stage →
      stage.header.validate handler.config = .ok () ∧
      ∃ authority, handler.config.committee.authorityByNetworkKey key =
        some authority ∧ stage.header.author = authority.id
  /-- The decisions in flight are what the record still says. -/
  decided : ∀ (key : NetworkPublicKey) header decision,
    voter.inflight[key]? = some (.voting header decision) →
      handler.decideVote header voter.store[header.author]? = .ok decision

theorem sound_new (handler : PrimaryReceiverHandler) : new.Sound handler := by
  constructor <;> simp [new]

namespace Sound

variable {voter : Voter}

variable (sound : voter.Sound handler)

include sound

/-- Requests may leave, as long as no new ones appear. -/
theorem shrink {inflight : ExtTreeMap NetworkPublicKey Stage} (parentDigests : ParentDigests)
    (kept : ∀ (key : NetworkPublicKey) stage, inflight[key]? = some stage →
      voter.inflight[key]? = some stage) :
    Sound handler ⟨voter.store, parentDigests, inflight, voter.returned⟩ :=
  { sound with
    authentic := fun key stage present => sound.authentic key stage (kept key stage present)
    decided := fun key header decision present =>
      sound.decided key header decision (kept key _ present) }

theorem erase (parentDigests : ParentDigests) (key : NetworkPublicKey) :
    Sound handler
      ⟨voter.store, parentDigests, voter.inflight.erase key, voter.returned⟩ := by
  apply sound.shrink
  exact Map.forall_erase fun _ _ => id

/-- A request moves to a stage that its header and the record justify. -/
theorem insert (parentDigests : ParentDigests)
    (authentic : stage.header.validate handler.config = .ok () ∧
      ∃ authority, handler.config.committee.authorityByNetworkKey key =
        some authority ∧ stage.header.author = authority.id)
    (decided : ∀ header decision, stage = .voting header decision →
      handler.decideVote header voter.store[header.author]? = .ok decision) :
    Sound handler ⟨voter.store, parentDigests, voter.inflight.insert key stage,
      voter.returned⟩ := by
  refine { sound with authentic := ?_, decided := ?_ }
  · exact Map.forall_insert authentic sound.authentic
  · intro other header decision present
    rcases Map.cases_of_getElem?_insert present with ⟨_, same⟩ | ⟨_, earlier⟩
    · exact decided header decision same.symm
    · exact sound.decided other header decision earlier

/-- Receiving a request keeps the voter sound. -/
theorem receive (key : NetworkPublicKey) (request : RequestVoteRequest) (arrival : Arrival) :
    (voter.receive handler key request arrival).Sound handler := by
  unfold Voter.receive
  split
  · next parentDigests goesOn =>
    have authenticated := authenticate_of_receive (congrArg Prod.snd goesOn)
    obtain ⟨valid, _, authority, ⟨⟩, found, same⟩ := authenticate_eq_ok authenticated
    exact sound.insert parentDigests ⟨valid, authority, found, same⟩ (by simp)
  · exact sound.shrink _ fun _ _ => id

/-- Examining a header keeps the voter sound. -/
theorem examine (present : voter.inflight[key]? = some (.waiting header)) (check : Check) :
    (voter.examine handler key header check).Sound handler := by
  unfold Voter.examine
  split
  · next decision examined =>
    have authentic := sound.authentic key (.waiting header) present
    have stillAuthentic : (Stage.voting header decision).header.validate
        handler.config = .ok () ∧ ∃ authority,
        handler.config.committee.authorityByNetworkKey key = some authority ∧
          header.author = authority.id := authentic
    apply sound.insert voter.parentDigests stillAuthentic
    rintro _ _ ⟨⟩
    exact decideVote_of_examine examined
  · exact sound.erase voter.parentDigests key

/-- Returning a vote that agrees with the earlier ones. -/
theorem returnVote (present : voter.inflight[key]? = some (.voting header decision))
    (agrees : ∀ vote ∈ voter.returned, vote.origin = header.author →
      vote.round = header.round → vote.headerDigest = header.digest)
    {store : VoteDigestStore} (others : ∀ id, id ≠ header.author → store[id]? = voter.store[id]?)
    (covered : ∀ vote ∈ voter.returned ++ [Vote.new handler.config.cryptography
        handler.authorityId header],
      vote.origin = header.author → Covered store vote) :
    Sound handler ⟨store, voter.parentDigests, voter.inflight.erase key,
      voter.returned ++ [Vote.new handler.config.cryptography handler.authorityId header]⟩ := by
  obtain ⟨valid, authority, found, isAuthor⟩ := sound.authentic key _ present
  refine ⟨?_, ?_, ?_, ?_, ?_⟩
  · intro left leftReturned right rightReturned sameOrigin sameRound
    rcases mem_append.mp leftReturned with leftOld | leftNew <;>
      rcases mem_append.mp rightReturned with rightOld | rightNew
    · exact sound.unique left leftOld right rightOld sameOrigin sameRound
    · obtain rfl := mem_singleton.mp rightNew
      exact agrees left leftOld sameOrigin sameRound
    · obtain rfl := mem_singleton.mp leftNew
      exact (agrees right rightOld sameOrigin.symm sameRound.symm).symm
    · rw [mem_singleton.mp leftNew, mem_singleton.mp rightNew]
  · intro vote isReturned
    by_cases forAuthor : vote.origin = header.author
    · exact covered vote isReturned forAuthor
    · rcases mem_snoc.mp isReturned with old | rfl
      · obtain ⟨info, recorded, covers⟩ := sound.covered vote old
        exact ⟨info, by rw [others _ forAuthor, recorded], covers⟩
      · exact absurd rfl forAuthor
  · exact forall_mem_snoc.mpr ⟨sound.valid, header, valid, rfl⟩
  · exact Map.forall_erase sound.authentic
  · intro other otherHeader otherDecision isPresent
    obtain ⟨different, stays⟩ := Map.of_getElem?_erase isPresent
    -- Another peer is another author, whose record has not changed.
    obtain ⟨_, otherAuthority, otherFound, otherAuthor⟩ := sound.authentic other _ stays
    have distinct : otherHeader.author ≠ header.author := by
      intro same
      apply different
      exact handler.config.committee.networkKey_unique otherFound found
        (otherAuthor.symm.trans (same.trans isAuthor))
    rw [others _ distinct]
    exact sound.decided other otherHeader otherDecision stays

/-- Concluding a request keeps the voter sound. -/
theorem conclude (present : voter.inflight[key]? = some (.voting header decision)) :
    (voter.conclude handler key header decision).Sound handler := by
  have decided := sound.decided key header decision present
  cases decision with
  | resend =>
    have recorded := decideVote_eq_resend decided
    refine sound.returnVote present ?_ (fun _ _ => rfl) ?_
    · intro vote isReturned sameOrigin sameRound
      obtain ⟨info, found, _, covers⟩ := sound.covered vote isReturned
      rw [sameOrigin, recorded] at found
      cases found
      rcases covers with below | ⟨_, sameDigest⟩
      · simp [sameRound] at below
      · exact sameDigest
    · refine forall_mem_snoc.mpr ⟨fun vote old _ => sound.covered vote old, fun _ => ?_⟩
      exact ⟨_, recorded, rfl, .inr ⟨rfl, rfl⟩⟩
  | record =>
    -- All earlier votes for the author are for lower rounds.
    have lower : ∀ vote ∈ voter.returned, vote.origin = header.author →
        vote.epoch = header.epoch ∧ vote.round < header.round := by
      intro vote isReturned sameOrigin
      obtain ⟨info, found, sameEpoch, covers⟩ := sound.covered vote isReturned
      rw [sameOrigin] at found
      rw [found] at decided
      obtain ⟨recordedEpoch, higher⟩ := decideVote_eq_record decided
      exact ⟨sameEpoch.symm.trans recordedEpoch, by omega⟩
    refine sound.returnVote present ?_ ?_ ?_
    · intro vote isReturned sameOrigin sameRound
      have := (lower vote isReturned sameOrigin).2
      omega
    · intro id different
      exact (Map.getElem?_insert _ _ _ _).trans (if_neg (Ne.symm different))
    · intro vote isReturned sameOrigin
      refine ⟨.ofVote (Vote.new handler.config.cryptography handler.authorityId header), ?_, ?_⟩
      · rw [sameOrigin]
        exact (Map.getElem?_insert _ _ _ _).trans (if_pos rfl)
      · rcases mem_snoc.mp isReturned with old | rfl
        · obtain ⟨sameEpoch, below⟩ := lower vote old sameOrigin
          exact ⟨sameEpoch.symm, .inl below⟩
        · exact ⟨rfl, .inr ⟨rfl, rfl⟩⟩

theorem step {next : Voter} (step : Step handler voter next) : next.Sound handler := by
  cases step with
  | receive request arrival _ => exact sound.receive _ request arrival
  | examine check present => exact sound.examine present check
  | conclude present => exact sound.conclude present
  | cancel key => exact sound.erase voter.parentDigests key
  | crash => exact sound.shrink ∅ (by simp)

end Sound

theorem Reachable.sound {voter : Voter} (reachable : voter.Reachable handler) :
    voter.Sound handler := by
  induction reachable with
  | refl => exact sound_new handler
  | tail _ step ih => exact ih.step step

end Voter

/-! ## Uniqueness of certificates

The primaries of one committee, some of which deviate.  As long as these hold less than
validity stake, any two quorums of signers share an authority that does not deviate.  That
authority has voted for one header of each other author and round.  Of its own headers, it
signs all that its proposer sends, so that certificates are unique as long as the proposers do
not send two headers of one round. -/

/-- The hash function has no collision between headers of different authors or
rounds. -/
def Cryptography.CollisionFree (cryptography : Cryptography) : Prop :=
  ∀ left right, cryptography.hash left = cryptography.hash right →
    left.author = right.author ∧ left.round = right.round

/-- The voting state of every authority. -/
abbrev Network := AuthorityIdentifier → Voter

namespace Network

variable (config : PrimaryConfig) (deviating : Finset AuthorityIdentifier)

/-- One authority that does not deviate takes a step. -/
inductive Step : Network → Network → Prop
  | act {network : Network} {id : AuthorityIdentifier} {next : Voter} :
      id ∉ deviating →
      Voter.Step ⟨config, id⟩ (network id) next →
      Step network (Function.update network id next)

/-- The states of the network that interleaved steps lead to. -/
def Reachable : Network → Prop :=
  Relation.ReflTransGen (Step config deviating) fun _ => Voter.new

/-- The signatures of an authority that follows the protocol.  It signs the headers of others
when it returns a vote, and every header that its proposer sends. -/
def Signed (network : Network) (proposers : AuthorityIdentifier → ProposerNode)
    (id : AuthorityIdentifier) (header : Header) : Prop :=
  if header.author = id then
    ∃ own ∈ (proposers id).sent, own.round = header.round ∧ own.digest = header.digest
  else
    ∃ vote ∈ (network id).returned, vote.headerDigest = header.digest

/-- An aggregated signature over the digest of a header contains no signature
that an authority which follows the protocol has not made. -/
def Unforgeable (network : Network) (proposers : AuthorityIdentifier → ProposerNode) : Prop :=
  ∀ header : Header, header.validate config = .ok () → ∀ signature keys,
      config.cryptography.verifySecure signature header.digest keys = true →
        ∀ authority ∈ config.committee.authorities,
          authority.protocolKey ∈ keys → authority.id ∉ deviating →
            network.Signed proposers authority.id header

variable {config deviating}

variable {network : Network}

/-- Interleaving is no more than what each authority does by itself. -/
theorem Reachable.voter (reachable : network.Reachable config deviating)
    (id : AuthorityIdentifier) :
    (network id).Reachable ⟨config, id⟩ := by
  induction reachable with
  | refl => exact .refl
  | tail _ step ih =>
    cases step with
    | @act acting next _ step =>
      by_cases same : id = acting
      · subst same
        rw [Function.update_self]
        exact ih.tail step
      · rw [Function.update_of_ne same]
        exact ih

variable {id : AuthorityIdentifier}

/-- The header of a vote is determined by its digest as far as uniqueness needs
it. -/
theorem vote_of_signed (reachable : network.Reachable config deviating)
    (collisionFree : config.cryptography.CollisionFree) {header : Header}
    (valid : header.validate config = .ok ()) {vote : Vote}
    (returned : vote ∈ (network id).returned) (sameDigest : vote.headerDigest = header.digest) :
    vote.origin = header.author ∧ vote.round = header.round := by
  obtain ⟨voted, votedValid, rfl⟩ := (reachable.voter id).sound.valid vote returned
  apply collisionFree voted header
  rw [(Header.validate_eq_ok votedValid).2, (Header.validate_eq_ok valid).2]
  exact sameDigest

/-- An honest authority signs one header of an author and round. -/
theorem signed_unique (reachable : network.Reachable config deviating)
    (collisionFree : config.cryptography.CollisionFree)
    {left right : Header} (leftValid : left.validate config = .ok ())
    (rightValid : right.validate config = .ok ()) (never : (proposers id).NeverEquivocated)
    (leftSigned : network.Signed proposers id left)
    (rightSigned : network.Signed proposers id right) (sameAuthor : left.author = right.author)
    (sameRound : left.round = right.round) :
    left.digest = right.digest := by
  unfold Signed at leftSigned rightSigned
  rw [← sameAuthor, ← sameRound] at rightSigned
  split at leftSigned
  · next own =>
    rw [if_pos own] at rightSigned
    obtain ⟨leftOwn, leftSent, leftRound, leftDigest⟩ := leftSigned
    obtain ⟨rightOwn, rightSent, rightRound, rightDigest⟩ := rightSigned
    rw [← leftDigest, ← rightDigest,
      never leftOwn leftSent rightOwn rightSent (leftRound.trans rightRound.symm)]
  · next foreign =>
    rw [if_neg foreign] at rightSigned
    obtain ⟨leftVote, leftReturned, leftDigest⟩ := leftSigned
    obtain ⟨rightVote, rightReturned, rightDigest⟩ := rightSigned
    obtain ⟨leftOrigin, leftRound⟩ := vote_of_signed reachable collisionFree
      leftValid leftReturned leftDigest
    obtain ⟨rightOrigin, rightRound⟩ := vote_of_signed reachable collisionFree
      rightValid rightReturned rightDigest
    rw [← leftDigest, ← rightDigest]
    exact (reachable.voter id).sound.unique leftVote leftReturned rightVote
      rightReturned (by rw [leftOrigin, sameAuthor, rightOrigin])
      (by rw [leftRound, sameRound, rightRound])

/-- No authority that follows the protocol returns votes for two headers of one
author, epoch and round.  If none of them sends two headers of its own of one round, no two
certificates of one origin, epoch and round with different digests carry the signatures of a
quorum. -/
theorem certificate_unique (config : PrimaryConfig)
    (collisionFree : config.cryptography.CollisionFree) (deviating : Finset AuthorityIdentifier)
    (below : Library.weight config.committee.stakeById deviating <
      config.committee.validityThreshold)
    (network : Network) (reachable : network.Reachable config deviating)
    (proposers : AuthorityIdentifier → ProposerNode)
    (unforgeable : network.Unforgeable config deviating proposers) :
    (∀ id, id ∉ deviating → ∀ left ∈ (network id).returned,
      ∀ right ∈ (network id).returned, left.origin = right.origin →
        left.epoch = right.epoch → left.round = right.round →
          left.headerDigest = right.headerDigest) ∧
    ((∀ id, id ∉ deviating → (proposers id).NeverEquivocated) → ∀ left right : Certificate,
      left.verifySigned config = .ok () → right.verifySigned config = .ok () →
        left.origin = right.origin → left.epoch = right.epoch →
          left.round = right.round → left.digest = right.digest) := by
  constructor
  · intro id _ left leftReturned right rightReturned sameOrigin _ sameRound
    exact (reachable.voter id).sound.unique left leftReturned right rightReturned
      sameOrigin sameRound
  · intro never left right leftVerified rightVerified sameOrigin _ sameRound
    obtain ⟨leftValid, leftSigners, leftSublist, leftQuorum, leftSignature⟩ :=
      Certificate.verifySigned_eq_ok leftVerified
    obtain ⟨rightValid, rightSigners, rightSublist, rightQuorum,
      rightSignature⟩ := Certificate.verifySigned_eq_ok rightVerified
    rw [config.committee.sum_stake_eq fun _ listed => leftSublist.mem listed]
      at leftQuorum
    rw [config.committee.sum_stake_eq fun _ listed => rightSublist.mem listed]
      at rightQuorum
    obtain ⟨id, inLeft, inRight, honest⟩ :=
      config.committee.exists_common_outside (config.committee.nodup_ids leftSublist)
        (config.committee.nodup_ids rightSublist) leftQuorum rightQuorum below
    obtain ⟨leftSigner, leftListed, rfl⟩ := mem_map.mp inLeft
    obtain ⟨rightSigner, rightListed, same⟩ := mem_map.mp inRight
    have leftSigned := unforgeable left.header leftValid _ _ leftSignature
      leftSigner (leftSublist.mem leftListed) (mem_map_of_mem leftListed) honest
    have rightSigned := unforgeable right.header rightValid _ _ rightSignature
      rightSigner (rightSublist.mem rightListed) (mem_map_of_mem rightListed) (by rwa [same])
    rw [same] at rightSigned
    exact signed_unique reachable collisionFree leftValid rightValid (never _ honest) leftSigned
      rightSigned sameOrigin sameRound

/-! ## A committee of four

Two authorities vote for headers of a third one, and the last one deviates. -/

/-- Four authorities of equal stake. -/
def quadCommittee : Committee where
  authorities := [⟨0, 0, 1, 0⟩, ⟨1, 1, 1, 1⟩, ⟨2, 2, 1, 2⟩, ⟨3, 3, 1, 3⟩]
  epoch := 0
  ids := rfl
  keys := by decide
  positive := by decide

/-- A hash that encodes the author, the round and the time of a header. -/
def pairHash (header : Header) : HeaderDigest :=
  Nat.pair (Nat.pair header.author header.round) header.createdAt

/-- The configuration of the four, with the keys whose signatures over a digest pass. -/
def quadConfig (signers : HeaderDigest → List PublicKey) : PrimaryConfig where
  committee := quadCommittee
  workerCache _ _ := true
  cryptography :=
    { hash := pairHash
      sign := fun _ digest => digest
      verifySecure := fun _ digest keys => keys.all fun key => decide (key ∈ signers digest) }

/-- The proposer of the first authority. -/
def quadProposer (signers : HeaderDigest → List PublicKey) : ProposerConfig where
  toPrimaryConfig := quadConfig signers
  authorityId := 0
  election := firstElection
  headerNumOfBatchesThreshold := 32
  maxHeaderNumOfBatches := 1000
  maxHeaderDelay := 1000
  minHeaderDelay := 500
  headerResendTimeout := none

/-- A header of the first authority and the first round. -/
def quadHeader (createdAt : Nat) : Header :=
  .new (quadConfig fun _ => []) 0 1 0 []
    ((Certificate.genesis (quadConfig fun _ => [])).map Certificate.digest).toFinset createdAt

/-- The header with the signatures of some authorities. -/
def quadCertificate (createdAt : Nat) (signedAuthorities : List AuthorityIdentifier) :
    Certificate where
  header := quadHeader createdAt
  signedAuthorities := signedAuthorities
  aggregatedSignature := 0

/-- An authority after it has served a request of the first one. -/
def quadVoter (signers : HeaderDigest → List PublicKey) (id : AuthorityIdentifier)
    (createdAt : Nat) : Voter :=
  Voter.new.serve ⟨quadConfig signers, id⟩ 0 ⟨quadHeader createdAt, []⟩
    ⟨.ok [], 0, fun _ => .ok ()⟩ ⟨.ok (Certificate.genesis (quadConfig signers)), .ok (), 3000⟩

/-- The network after two authorities have voted. -/
def quadNetwork (signers : HeaderDigest → List PublicKey) (first second : Nat) : Network :=
  Function.update (Function.update (fun _ => Voter.new) 1 (quadVoter signers 1 first)) 2
    (quadVoter signers 2 second)

/-- What an authority does by itself, it can do in the network. -/
theorem Reachable.update (reachable : network.Reachable config deviating)
    (honest : id ∉ deviating)
    (steps : Relation.ReflTransGen (Voter.Step ⟨config, id⟩) (network id) result) :
    Network.Reachable config deviating (Function.update network id result) := by
  induction steps with
  | refl => rwa [Function.update_eq_self]
  | @tail middle final _ step ih =>
    have acted := Network.Step.act honest (by
      rw [Function.update_self]
      exact step : Voter.Step ⟨config, id⟩ (Function.update network id middle id) final)
    rw [Function.update_idem] at acted
    exact ih.tail acted

/-- The run of the four authorities. -/
theorem quadNetwork_reachable (signers : HeaderDigest → List PublicKey) (first second : Nat) :
    (quadNetwork signers first second).Reachable (quadConfig signers) {3} := by
  have voted : Network.Reachable (quadConfig signers) {3}
      (Function.update (fun _ => Voter.new) 1 (quadVoter signers 1 first)) :=
    Reachable.update .refl (by decide) (Voter.serve_steps (by rfl) _ _ _)
  refine voted.update (by decide) ?_
  exact Voter.serve_steps (by rfl) _ _ _

theorem pairHash_injective (same : pairHash left = pairHash right) :
    left.author = right.author ∧ left.round = right.round :=
  Nat.pair_eq_pair.mp (Nat.pair_eq_pair.mp same).1

/-- The proposers, of which only the first one has done something. -/
def quadProposers (node : ProposerNode) : AuthorityIdentifier → ProposerNode :=
  Function.update (fun _ => .new ⟨none⟩) 0 node

/-- The signatures that pass are those of the authority that deviates, of the first one over
headers that it sent, and of the voters. -/
theorem quadNetwork_unforgeable {signers : HeaderDigest → List PublicKey} {first second : Nat}
    {node : ProposerNode}
    (passing : ∀ digest, ∀ id ∈ signers digest, ∃ createdAt,
      digest = (quadHeader createdAt).digest ∧ (id = 3 ∨
        id = 0 ∧ (1, digest) ∈ node.sent.map (fun own => (own.round, own.digest)) ∨
        id ≠ 0 ∧ ∃ vote ∈ (quadNetwork signers first second id).returned,
          vote.headerDigest = digest)) :
    (quadNetwork signers first second).Unforgeable (quadConfig signers) {3}
      (quadProposers node) := by
  intro header valid signature keys passed authority member signed honest
  have sameKey : authority.protocolKey = authority.id := by
    simp only [quadConfig, quadCommittee, mem_cons, not_mem_nil, or_false] at member
    rcases member with rfl | rfl | rfl | rfl <;> rfl
  have isSigner : authority.id ∈ signers header.digest := by
    rw [← sameKey]
    simpa using (all_eq_true.mp passed) _ signed
  obtain ⟨createdAt, isDigest, signer⟩ := passing _ _ isSigner
  have isHash : pairHash header = header.digest := (Header.validate_eq_ok valid).2
  have sameHash : pairHash header = pairHash (quadHeader createdAt) := isHash.trans isDigest
  obtain ⟨isFirst, sameRound⟩ := pairHash_injective sameHash
  have isFirst : header.author = 0 := isFirst
  unfold Signed
  rcases signer with deviates | ⟨own, isSent⟩ | ⟨other, voted⟩
  · exact absurd (Finset.mem_singleton.mpr deviates) honest
  · obtain ⟨header', isHeader, same⟩ := mem_map.mp isSent
    obtain ⟨isRound, sameDigest⟩ := Prod.mk.inj same
    rw [own, if_pos isFirst, quadProposers, Function.update_self]
    exact ⟨header', isHeader, isRound.trans sameRound.symm, sameDigest⟩
  · rw [isFirst, if_neg other.symm]
    exact voted

/-- Three authorities sign one header. -/
def quadAgreed (digest : HeaderDigest) : List PublicKey :=
  if digest = (quadHeader 500).digest then [0, 1, 2] else []

/-- Every certificate for the first authority and the first round has the digest
of the one that three authorities signed. -/
theorem certificate_unique_quad :
    (quadCertificate 500 [0, 1, 2]).verifySigned (quadConfig quadAgreed) = .ok () ∧
    ∀ other : Certificate, other.verifySigned (quadConfig quadAgreed) = .ok () →
      other.origin = 0 → other.epoch = 0 → other.round = 1 →
        other.digest = (quadCertificate 500 [0, 1, 2]).digest := by
  have verified : (quadCertificate 500 [0, 1, 2]).verifySigned (quadConfig quadAgreed) = .ok () :=
    by decide +kernel
  obtain ⟨node, reachable, isSent⟩ := Library.exists_run
    (ProposerNode.perform (quadProposer quadAgreed))
    (ProposerNode.InOrder (quadProposer quadAgreed)) (.new ⟨none⟩)
    [.spawn 0, .propose .default 500 500, .finish .default 500 true]
    (fun node => (1, (quadHeader 500).digest) ∈ node.sent.map fun own => (own.round, own.digest))
    (by decide +kernel)
  have reachable : ProposerNode.Reachable (quadProposer quadAgreed) ProposerNode.InOrder ⟨none⟩
    node := reachable
  have never (id : AuthorityIdentifier) : (quadProposers node id).NeverEquivocated := by
    unfold quadProposers
    by_cases isFirst : id = 0
    · rw [isFirst, Function.update_self]
      exact reachable.ordered.never
    · rw [Function.update_of_ne isFirst]
      exact (ProposerNode.Ordered.new (quadProposer quadAgreed) ⟨none⟩).never
  have unforgeable : (quadNetwork quadAgreed 500 500).Unforgeable (quadConfig quadAgreed) {3}
      (quadProposers node) := by
    refine quadNetwork_unforgeable fun digest id isSigner => ?_
    unfold quadAgreed at isSigner
    split at isSigner
    · next isDigest =>
      refine ⟨500, isDigest, .inr ?_⟩
      subst isDigest
      simp only [mem_cons, not_mem_nil, or_false] at isSigner
      rcases isSigner with rfl | rfl | rfl
      · exact .inl ⟨rfl, isSent⟩
      · exact .inr ⟨by decide, Vote.new (quadConfig quadAgreed).cryptography 1 (quadHeader 500),
          by decide +kernel, rfl⟩
      · exact .inr ⟨by decide, Vote.new (quadConfig quadAgreed).cryptography 2 (quadHeader 500),
          by decide +kernel, rfl⟩
    · cases isSigner
  refine ⟨verified, fun other otherVerified origin epoch round => ?_⟩
  exact (certificate_unique (quadConfig quadAgreed) (fun _ _ => pairHash_injective) {3}
    (by decide +kernel) _ (quadNetwork_reachable quadAgreed 500 500) _ unforgeable).2
    (fun id _ => never id) other _ otherVerified verified origin epoch round

/-- Two authorities that follow the protocol sign different headers, and the author and the
authority that deviates sign both. -/
def quadSplit (digest : HeaderDigest) : List PublicKey :=
  if digest = (quadHeader 500).digest then [0, 1, 3]
  else if digest = (quadHeader 2500).digest then [0, 2, 3] else []

/-- The first authority sends a header of the first round, one of the second round, and after a
restart another one of the first round.  Each gets the votes of a quorum. -/
theorem two_certificates_of_one_round :
    ∃ (node : ProposerNode) (left right : Certificate),
      ProposerNode.Reachable (quadProposer quadSplit) ProposerNode.Unordered ⟨none⟩ node ∧
      (quadConfig quadSplit).cryptography.CollisionFree ∧
      Library.weight quadCommittee.stakeById {3} < quadCommittee.validityThreshold ∧
      (quadNetwork quadSplit 500 2500).Reachable (quadConfig quadSplit) {3} ∧
      (quadNetwork quadSplit 500 2500).Unforgeable (quadConfig quadSplit) {3}
        (quadProposers node) ∧
      left.verifySigned (quadConfig quadSplit) = .ok () ∧
      right.verifySigned (quadConfig quadSplit) = .ok () ∧ left.origin = right.origin ∧
      left.epoch = right.epoch ∧ left.round = right.round ∧ left.digest ≠ right.digest := by
  obtain ⟨node, reachable, firstSent, secondSent⟩ := Library.exists_run
    (ProposerNode.perform (quadProposer quadSplit))
    (ProposerNode.Unordered (quadProposer quadSplit)) (.new ⟨none⟩)
    [.spawn 0, .propose .default 500 500, .finish .default 500 true,
      .wake .default 500 600 (.parents [quadCertificate 500 [0, 1, 3]] 1 0),
      .propose .default 1000 1000, .finish .default 1000 true, .crash, .spawn 2000,
      .propose .default 2500 2500, .finish .default 2500 true]
    (fun node =>
      (1, (quadHeader 500).digest) ∈ node.sent.map (fun own => (own.round, own.digest)) ∧
      (1, (quadHeader 2500).digest) ∈ node.sent.map (fun own => (own.round, own.digest)))
    (by decide +kernel)
  refine ⟨node, quadCertificate 500 [0, 1, 3], quadCertificate 2500 [0, 2, 3], reachable,
    fun _ _ => pairHash_injective, by decide +kernel, quadNetwork_reachable quadSplit 500 2500,
    quadNetwork_unforgeable fun digest id isSigner => ?_, by decide +kernel, by decide +kernel,
    rfl, rfl, rfl, by decide +kernel⟩
  unfold quadSplit at isSigner
  split at isSigner
  · next isDigest =>
    refine ⟨500, isDigest, ?_⟩
    subst isDigest
    simp only [mem_cons, not_mem_nil, or_false] at isSigner
    rcases isSigner with rfl | rfl | rfl
    · exact .inr (.inl ⟨rfl, firstSent⟩)
    · exact .inr (.inr ⟨by decide, Vote.new (quadConfig quadSplit).cryptography 1 (quadHeader 500),
        by decide +kernel, rfl⟩)
    · exact .inl rfl
  · split at isSigner
    · next isDigest =>
      refine ⟨2500, isDigest, ?_⟩
      subst isDigest
      simp only [mem_cons, not_mem_nil, or_false] at isSigner
      rcases isSigner with rfl | rfl | rfl
      · exact .inr (.inl ⟨rfl, secondSent⟩)
      · exact .inr (.inr ⟨by decide, Vote.new (quadConfig quadSplit).cryptography 2
          (quadHeader 2500), by decide +kernel, rfl⟩)
      · exact .inl rfl
    · cases isSigner

end Network

end Sui.Narwhal
