import Sui.Library.Checked
import Sui.Narwhal.Primary.Validate
import Sui.Narwhal.Consensus.Agreement

/-!
# The proposer

The proposer creates the headers of one authority.  It advances from round to
round when it has parents and its timers or the leader allow it, includes the
batches of its workers, and includes them again if their header was not committed
while a later one was.

The last header is persisted before it is sent.  A proposer that comes to the
round of the persisted header sends that header again instead of a new one.

The clock is an input of every operation.  Metrics and log messages are left out.
-/

namespace Sui.Narwhal

open Std (ExtTreeMap)

/-- A batch of a worker. -/
structure OurDigestMessage where
  digest : BatchDigest
  workerId : WorkerId
  timestamp : Nat
  deriving DecidableEq

/-- What the proposer is configured with for one epoch. -/
structure ProposerConfig extends PrimaryConfig where
  authorityId : AuthorityIdentifier
  election : Election
  headerNumOfBatchesThreshold : Nat
  maxHeaderNumOfBatches : Nat
  maxHeaderDelay : Nat
  minHeaderDelay : Nat
  /-- The delay until the last header is sent again, if it is not the default. -/
  headerResendTimeout : Option Nat

/-- The default delay until the last header is sent again, in milliseconds. -/
def defaultHeaderResendTimeout : Nat :=
  60000

/-- The delay until the last header is sent again. -/
def ProposerConfig.resendTimeout (config : ProposerConfig) : Nat :=
  config.headerResendTimeout.getD defaultHeaderResendTimeout

/-- The durable store of the proposer. -/
structure ProposerStore where
  lastProposed : Option Header

/-- Insert an entry at the end of an index map, or replace the value at the
position of its key. -/
def indexInsert (key : κ) (value : α) [DecidableEq κ] :
    List (κ × α) → List (κ × α)
  | [] => [(key, value)]
  | entry :: entries =>
    if entry.1 = key then
      (key, value) :: entries
    else
      entry :: indexInsert key value entries

/-- A new header with its digest. -/
def Header.new (config : PrimaryConfig) (author : AuthorityIdentifier) (round epoch : Nat)
    (payload : List (BatchDigest × WorkerId × Nat)) (parents : Finset CertificateDigest)
    (createdAt : Nat) : Header :=
  let header : Header :=
    { author := author
      round := round
      epoch := epoch
      createdAt := createdAt
      payload := payload
      parents := parents.sort (· ≤ ·)
      digest := 0
      sorted := (Finset.sortedLT_sort parents).pairwise }
  { header with digest := config.cryptography.hash header }

/-- The state of a running proposer. -/
structure Proposer where
  round : Nat
  lastParents : List Certificate
  lastLeader : Option Certificate
  /-- The batches that wait to be included, oldest first. -/
  digests : List OurDigestMessage
  /-- The headers that were made in this run, with their batches. -/
  proposedHeaders : ExtTreeMap Nat (Header × List OurDigestMessage)
  /-- Whether the leader or its votes allow the next round. -/
  advance : Bool
  maxDelayTimer : Nat
  minDelayTimer : Nat
  headerRepeatTimer : Nat
  optLatestHeader : Option Header

namespace Proposer

/-- A proposer starts in round zero from the genesis certificates. -/
def spawn (config : ProposerConfig) (now : Nat) : Proposer where
  round := 0
  lastParents := Certificate.genesis config.toPrimaryConfig
  lastLeader := none
  digests := []
  proposedHeaders := ∅
  advance := true
  maxDelayTimer := now + config.maxHeaderDelay
  minDelayTimer := now + config.minHeaderDelay
  headerRepeatTimer := now + config.resendTimeout
  optLatestHeader := none

/-- The leader of an even round under the current swap table, which the consensus
may change at any time. -/
def leader (config : ProposerConfig) (table : LeaderSwapTable)
    (round : Nat) : Except Failure AuthorityIdentifier :=
  (LeaderSchedule.leader config.committee config.election table round).map
    Authority.id

/-! ## Headers -/

/-- The header of the current round: the persisted one if it is of this round, a
new one otherwise.  The new one is created after the clock has passed the times
of the parents.  The leader of the round, or of the round below, is looked up for
the metrics. -/
def createNewHeader (config : ProposerConfig) (table : LeaderSwapTable) (store : ProposerStore)
    (createdAt : Nat) (proposer : Proposer) : Except Failure (Header × Proposer) :=
  let fresh : Except Failure (Header × Proposer) :=
    let numOfDigests := min proposer.digests.length config.maxHeaderNumOfBatches
    let headerDigests := proposer.digests.take numOfDigests
    let header := Header.new config.toPrimaryConfig config.authorityId
      proposer.round config.committee.epoch
      (headerDigests.foldl (fun payload message => indexInsert message.digest
        (message.workerId, message.timestamp) payload) [])
      (proposer.lastParents.map Certificate.digest).toFinset createdAt
    let leaderRound :=
      if proposer.round % 2 = 0 then proposer.round else proposer.round - 1
    match leader config table leaderRound with
    | .error failure => .error failure
    | .ok _ =>
      .ok (header,
        { proposer with
          digests := proposer.digests.drop numOfDigests
          lastParents := []
          proposedHeaders :=
            proposer.proposedHeaders.insert proposer.round
              (header, headerDigests) })
  match store.lastProposed with
  | some lastHeader =>
    if lastHeader.round = proposer.round ∧
        lastHeader.epoch = config.committee.epoch then
      .ok (lastHeader, { proposer with lastParents := [] })
    else
      fresh
  | none => fresh

/-! ## Timers and readiness -/

/-- The maximal delay, shorter before this authority leads. -/
def maxDelay (config : ProposerConfig) (table : LeaderSwapTable)
    (proposer : Proposer) : Except Failure Nat :=
  if (proposer.round + 1) % 2 = 0 then
    match leader config table (proposer.round + 1) with
    | .error failure => .error failure
    | .ok leader =>
      .ok (if leader = config.authorityId then config.maxHeaderDelay / 2
        else config.maxHeaderDelay)
  else
    .ok config.maxHeaderDelay

/-- The minimal delay, none before this authority leads.  Odd rounds are led by
the committee without the swap table. -/
def minDelay (config : ProposerConfig) (table : LeaderSwapTable)
    (proposer : Proposer) : Except Failure Nat :=
  let nextRound := proposer.round + 1
  if 1 < config.committee.size then
    if nextRound % 2 = 0 then
      match leader config table nextRound with
      | .error failure => .error failure
      | .ok leader =>
        .ok (if leader = config.authorityId then 0 else config.minHeaderDelay)
    else
      .ok (if (config.election.leader config.committee nextRound).id =
          config.authorityId then 0 else config.minHeaderDelay)
  else
    .ok config.minHeaderDelay

/-- Look for the certificate of the leader among the parents. -/
def updateLeader (config : ProposerConfig) (table : LeaderSwapTable)
    (proposer : Proposer) : Except Failure (Bool × Proposer) :=
  match leader config table proposer.round with
  | .error failure => .error failure
  | .ok leader =>
    let lastLeader :=
      proposer.lastParents.find? fun parent => parent.origin == leader
    .ok (lastLeader.isSome, { proposer with lastLeader := lastLeader })

/-- The stake of the parents for and against the last leader. -/
def countVotes (committee : Committee) (leader : CertificateDigest) :
    List Certificate → Nat × Nat
  | [] => (0, 0)
  | certificate :: certificates =>
    let (votesForLeader, noVotes) := countVotes committee leader certificates
    let stake := committee.stakeById certificate.origin
    if leader ∈ certificate.parents then
      (stake + votesForLeader, noVotes)
    else
      (votesForLeader, stake + noVotes)

/-- Whether this authority leads, there is no leader to vote for, or the votes
for or against the leader suffice. -/
def enoughVotes (config : ProposerConfig) (table : LeaderSwapTable)
    (proposer : Proposer) : Except Failure Bool :=
  match leader config table (proposer.round + 1) with
  | .error failure => .error failure
  | .ok leader =>
    if leader = config.authorityId then
      .ok true
    else
      match proposer.lastLeader with
      | none => .ok true
      | some lastLeader =>
        let (votesForLeader, noVotes) :=
          countVotes config.committee lastLeader.digest proposer.lastParents
        .ok (config.committee.validityThreshold ≤ votesForLeader ||
          config.committee.quorumThreshold ≤ noVotes)

/-- Whether the next round may start without waiting for the timer. -/
def ready (config : ProposerConfig) (table : LeaderSwapTable)
    (proposer : Proposer) : Except Failure (Bool × Proposer) :=
  if proposer.round % 2 = 0 then
    updateLeader config table proposer
  else
    (enoughVotes config table proposer).map fun enough => (enough, proposer)

/-- Whether to propose a header. -/
def shouldCreateHeader (config : ProposerConfig) (now : Nat) (proposer : Proposer) : Bool :=
  let enoughParents := !proposer.lastParents.isEmpty
  let enoughDigests :=
    config.headerNumOfBatchesThreshold ≤ proposer.digests.length
  let maxDelayTimedOut := proposer.maxDelayTimer ≤ now
  let minDelayTimedOut := proposer.minDelayTimer ≤ now
  (maxDelayTimedOut || ((enoughDigests || minDelayTimedOut) && proposer.advance))
    && enoughParents

/-! ## The main loop -/

/-- Advance to the next round and make its header. -/
def makeHeader (config : ProposerConfig) (table : LeaderSwapTable) (store : ProposerStore)
    (createdAt : Nat) (proposer : Proposer) : Except Failure (Header × Proposer) :=
  createNewHeader config table store createdAt
    { proposer with round := proposer.round + 1 }

/-- After a header was sent, or could not be sent because the receiver is gone:
remember it and start the timers. -/
def finishHeader (config : ProposerConfig) (table : LeaderSwapTable) (now : Nat)
    (sent : Option Header) (proposer : Proposer) : Except Failure Proposer :=
  let proposer :=
    match sent with
    | some header =>
      { proposer with
        optLatestHeader := some header
        headerRepeatTimer := now + config.resendTimeout }
    | none => proposer
  match maxDelay config table proposer, minDelay config table proposer with
  | .error failure, _ => .error failure
  | _, .error failure => .error failure
  | .ok maxDelay, .ok minDelay =>
    .ok { proposer with
      advance := false
      maxDelayTimer := now + maxDelay
      minDelayTimer := now + minDelay }

/-- Own headers were committed.  The batches of the older ones that were not are
included again, before all others. -/
def receiveCommitted (commitHeaders : List Nat) (proposer : Proposer) : Proposer :=
  let maxCommittedRound := commitHeaders.foldl max 0
  let remaining := commitHeaders.foldl ExtTreeMap.erase proposer.proposedHeaders
  let retransmit :=
    remaining.toList.takeWhile fun entry => entry.1 ≤ maxCommittedRound
  { proposer with
    proposedHeaders := (retransmit.map Prod.fst).foldl ExtTreeMap.erase remaining
    digests := retransmit.flatMap (fun entry => entry.2.2) ++ proposer.digests }

/-- Check whether the proposer can advance. -/
def checkAdvance (config : ProposerConfig) (table : LeaderSwapTable)
    (proposer : Proposer) : Except Failure Proposer :=
  (ready config table proposer).map fun (advance, proposer) =>
    { proposer with advance := advance }

/-- Parents of a round arrived.  The proposer jumps to a higher round. -/
def receiveParents (config : ProposerConfig) (table : LeaderSwapTable) (now : Nat)
    (parents : List Certificate) (round epoch : Nat)
    (proposer : Proposer) : Except Failure Proposer :=
  if epoch ≠ config.committee.epoch ∨ round < proposer.round then
    .ok proposer
  else if proposer.round < round then
    let proposer :=
      { proposer with
        round := round
        lastParents := parents
        advance := false }
    match maxDelay config table proposer with
    | .error failure => .error failure
    | .ok maxDelay =>
      checkAdvance config table
        { proposer with
          maxDelayTimer := now + maxDelay
          minDelayTimer := now }
  else
    let proposer :=
      { proposer with lastParents := proposer.lastParents ++ parents }
    match minDelay config table proposer with
    | .error failure => .error failure
    | .ok minDelay =>
      checkAdvance config table
        (if minDelay = 0 then { proposer with minDelayTimer := now }
          else proposer)

/-- A batch of a worker arrived. -/
def receiveDigest (message : OurDigestMessage) (proposer : Proposer) : Proposer :=
  { proposer with digests := proposer.digests ++ [message] }

/-- What wakes up the proposer while it has nothing to propose. -/
inductive Event
  /-- The timer of the last header expires.  The header is sent again, which fails
  if the receiver is gone. -/
  | repeatHeader (delivered : Bool)
  | committed (commitHeaders : List Nat)
  | parents (parents : List Certificate) (round epoch : Nat)
  | digest (message : OurDigestMessage)
  /-- The timer of the maximal or of the minimal delay expires. -/
  | timer

/-- Handle an event.  The header that is sent again is returned. -/
def handle (config : ProposerConfig) (table : LeaderSwapTable) (now : Nat) (proposer : Proposer) :
    Event → Except Failure (Option Header × Proposer)
  | .repeatHeader delivered =>
    match proposer.optLatestHeader with
    | some header =>
      .ok (if delivered then some header else none,
        { proposer with headerRepeatTimer := now + config.resendTimeout })
    | none => .ok (none, proposer)
  | .committed commitHeaders => .ok (none, proposer.receiveCommitted commitHeaders)
  | .parents parents round epoch =>
    (receiveParents config table now parents round epoch proposer).map
      fun proposer => (none, proposer)
  | .digest message => .ok (none, proposer.receiveDigest message)
  | .timer => .ok (none, proposer)

/-! ## What the operations change -/

/-- A header that is made is of this epoch and of the current round.  It is the
persisted one, or the persisted one is of another round or epoch. -/
theorem createNewHeader_spec
    (created : createNewHeader config table store createdAt proposer = .ok (header, after)) :
    header.epoch = config.committee.epoch ∧ header.round = proposer.round ∧
      after.optLatestHeader = proposer.optLatestHeader ∧
      (store.lastProposed = some header ∨ ∀ last, store.lastProposed = some last →
          last.epoch = config.committee.epoch → last.round ≠ proposer.round) := by
  unfold createNewHeader at created
  dsimp only at created
  split at created
  · next last persisted =>
    split at created
    · next again =>
      cases created
      exact ⟨again.2, again.1, rfl, .inl persisted⟩
    · next other =>
      split at created
      · cases created
      · cases created
        refine ⟨rfl, rfl, rfl, .inr ?_⟩
        intro last' persisted' sameEpoch sameRound
        rw [persisted] at persisted'
        cases persisted'
        exact other ⟨sameRound, sameEpoch⟩
  · next nothing =>
    split at created
    · cases created
    · cases created
      refine ⟨rfl, rfl, rfl, .inr ?_⟩
      intro last persisted
      rw [nothing] at persisted
      cases persisted

/-- Checking whether to advance changes the leader and the flag only. -/
theorem checkAdvance_eq_ok (checked : checkAdvance config table proposer = .ok after) :
    ∃ lastLeader advance, after =
      { proposer with lastLeader := lastLeader, advance := advance } := by
  obtain ⟨⟨advance, middle⟩, isReady, rfl⟩ := Library.map_eq_ok.mp checked
  unfold ready updateLeader at isReady
  split at isReady
  · split at isReady
    · cases isReady
    · cases isReady
      exact ⟨_, _, rfl⟩
  · obtain ⟨_, _, same⟩ := Library.map_eq_ok.mp isReady
    cases same
    exact ⟨_, _, rfl⟩

/-- Parents neither lower the round nor touch the headers and batches. -/
theorem receiveParents_spec {now round epoch : Nat}
    (received : receiveParents config table now parents round epoch proposer = .ok after) :
    proposer.round ≤ after.round ∧ after.optLatestHeader = proposer.optLatestHeader ∧
      after.digests = proposer.digests ∧
      after.proposedHeaders = proposer.proposedHeaders := by
  unfold receiveParents at received
  split at received
  · cases received
    exact ⟨le_rfl, rfl, rfl, rfl⟩
  split at received
  · next higher =>
    dsimp only at received
    split at received
    · cases received
    · obtain ⟨_, _, rfl⟩ := checkAdvance_eq_ok received
      exact ⟨higher.le, rfl, rfl, rfl⟩
  · dsimp only at received
    split at received
    · cases received
    · obtain ⟨_, _, rfl⟩ := checkAdvance_eq_ok received
      split
      · exact ⟨le_rfl, rfl, rfl, rfl⟩
      · exact ⟨le_rfl, rfl, rfl, rfl⟩

/-- An event sends only the latest header, which stays. -/
theorem handle_spec {proposer after : Proposer}
    (handled : proposer.handle config table now event = .ok (sent, after)) :
    (∀ header, sent = some header → proposer.optLatestHeader = some header) ∧
      after.optLatestHeader = proposer.optLatestHeader := by
  cases event with
  | repeatHeader delivered =>
    dsimp only [handle] at handled
    split at handled
    · next header latest =>
      cases handled
      refine ⟨?_, rfl⟩
      rintro _ isSent
      rw [latest]
      cases delivered with
      | true => exact isSent
      | false => cases isSent
    · cases handled
      exact ⟨by simp, rfl⟩
  | committed commitHeaders =>
    cases handled
    exact ⟨by simp, rfl⟩
  | parents parents round epoch =>
    obtain ⟨_, received, same⟩ := Library.map_eq_ok.mp handled
    cases same
    exact ⟨by simp, (receiveParents_spec received).2.1⟩
  | digest message =>
    cases handled
    exact ⟨by simp, rfl⟩
  | timer =>
    cases handled
    exact ⟨by simp, rfl⟩

/-- A header that is sent is the latest one from then on. -/
theorem finishHeader_spec {proposer after : Proposer}
    (finished : proposer.finishHeader config table now sent = .ok after) :
    after.optLatestHeader = sent.or proposer.optLatestHeader := by
  unfold finishHeader at finished
  dsimp only at finished
  split at finished
  · cases finished
  · cases finished
  · cases finished
    cases sent with
    | none => rfl
    | some header => rfl

end Proposer

/-! ## Equivocation

One authority runs its proposer within one epoch and may crash at any time.  The new proposer
starts in round zero again.  It sends the persisted header again when it comes to its round,
but nothing protects the rounds below: there it makes new headers, although it may have sent
others before the crash.  As long as every header is made in the round of the persisted one or
above, any two headers of one round are the same. -/

open Library

/-- An authority with its proposer. -/
structure ProposerNode where
  store : ProposerStore
  /-- The running proposer, with the header that it has persisted and is about to
  send. -/
  live : Option (Proposer × Option Header)
  sent : List Header

namespace ProposerNode

/-- An authority at the start of the epoch. -/
def new (store : ProposerStore) : ProposerNode :=
  ⟨store, none, []⟩

/-- What happens to the authority.  The leader swap table and the clock are those
at the time. -/
inductive Action
  | spawn (now : Nat)
  | crash
  | propose (table : LeaderSwapTable) (now createdAt : Nat)
  /-- The proposer sends the header, which fails if the receiver is gone. -/
  | finish (table : LeaderSwapTable) (now : Nat) (delivered : Bool)
  /-- The proposer has nothing to propose and waits until an event later. -/
  | wake (table : LeaderSwapTable) (now later : Nat) (event : Proposer.Event)

/-- Whether an event can happen. -/
def possible (proposer : Proposer) (later : Nat) : Proposer.Event → Bool
  | .repeatHeader _ => proposer.headerRepeatTimer ≤ later
  | _ => true

/-- Perform an action, if it is possible.  A panic ends the process. -/
def perform (config : ProposerConfig) (node : ProposerNode) :
    Action → Option ProposerNode
  | .spawn now =>
    match node.live with
    | none => some { node with live := some (Proposer.spawn config now, none) }
    | some _ => none
  | .crash => some { node with live := none }
  | .propose table now createdAt =>
    match node.live with
    | some (proposer, none) =>
      if proposer.shouldCreateHeader config now then
        match proposer.makeHeader config table node.store createdAt with
        | .error _ => some { node with live := none }
        | .ok (header, proposer) =>
          some { node with
            store := ⟨some header⟩
            live := some (proposer, some header) }
      else
        none
    | _ => none
  | .finish table now delivered =>
    match node.live with
    | some (proposer, some header) =>
      let sent := if delivered then some header else none
      some { node with
        sent := node.sent ++ sent.toList
        live := (proposer.finishHeader config table now sent).toOption.map
          fun proposer => (proposer, none) }
    | _ => none
  | .wake table now later event =>
    match node.live with
    | some (proposer, none) =>
      if proposer.shouldCreateHeader config now = false ∧ now ≤ later ∧
          possible proposer later event then
        match proposer.handle config table later event with
        | .error _ => some { node with live := none }
        | .ok (sent, proposer) =>
          some { node with
            sent := node.sent ++ sent.toList
            live := some (proposer, none) }
      else
        none
    | _ => none

/-- Headers are made only in the round of the persisted header of this epoch, or
above. -/
def InOrder (config : ProposerConfig) (node : ProposerNode) : Action → Prop
  | .propose _ _ _ => ∀ proposer, node.live = some (proposer, none) →
      ∀ last, node.store.lastProposed = some last →
        last.epoch = config.committee.epoch → last.round ≤ proposer.round + 1
  | _ => True

/-- Everything is allowed. -/
def Unordered (_ : ProposerConfig) (_ : ProposerNode) (_ : Action) : Prop :=
  True

/-- The states that allowed actions lead to. -/
def Reachable (config : ProposerConfig) (allowed : ProposerConfig → ProposerNode → Action → Prop)
    (store : ProposerStore) : ProposerNode → Prop :=
  Run (perform config) (allowed config) (new store)

/-- No two different headers of one round were sent. -/
def NeverEquivocated (node : ProposerNode) : Prop :=
  ∀ left ∈ node.sent, ∀ right ∈ node.sent, left.round = right.round → left = right

/-! ## The invariant of ordered runs -/

/-- A header is not above the persisted header of this epoch, which is the only
one of its round. -/
def Covered (config : ProposerConfig) (store : ProposerStore) (header : Header) : Prop :=
  ∃ last, store.lastProposed = some last ∧
    last.epoch = config.committee.epoch ∧ header.round ≤ last.round ∧
      (header.round = last.round → header = last)

/-- What holds of an authority in an ordered run. -/
structure Ordered (config : ProposerConfig) (node : ProposerNode) : Prop where
  never : node.NeverEquivocated
  covered : ∀ header ∈ node.sent, Covered config node.store header
  persisted : ∀ proposer header, node.live = some (proposer, some header) →
    node.store.lastProposed = some header ∧ header.epoch = config.committee.epoch
  latest : ∀ proposer pending header, node.live = some (proposer, pending) →
    proposer.optLatestHeader = some header → header ∈ node.sent

namespace Ordered

variable {config : ProposerConfig} {node : ProposerNode}

theorem new (config : ProposerConfig) (store : ProposerStore) :
    (ProposerNode.new store).Ordered config where
  never := by simp [NeverEquivocated, ProposerNode.new]
  covered := by simp [ProposerNode.new]
  persisted := by simp [ProposerNode.new]
  latest := by simp [ProposerNode.new]

variable (ordered : node.Ordered config)

include ordered

/-- A crash loses the proposer only. -/
theorem down : ({ node with live := none } : ProposerNode).Ordered config :=
  { ordered with
    persisted := by simp
    latest := by simp }

/-- Proposing in order keeps the headers of a round the same. -/
theorem propose (isLive : node.live = some (proposer, none))
    (inOrder : ∀ last, node.store.lastProposed = some last →
      last.epoch = config.committee.epoch → last.round ≤ proposer.round + 1)
    (made : proposer.makeHeader config table node.store createdAt = .ok (header, after)) :
    ({ node with
      store := ⟨some header⟩
      live := some (after, some header) } : ProposerNode).Ordered config := by
  obtain ⟨sameEpoch, sameRound, sameLatest, again⟩ := Proposer.createNewHeader_spec made
  change header.round = proposer.round + 1 at sameRound
  refine ⟨ordered.never, ?_, ?_, ?_⟩
  · intro other isSent
    obtain ⟨last, persisted, lastEpoch, below, only⟩ := ordered.covered other isSent
    refine ⟨header, rfl, sameEpoch, ?_⟩
    rcases again with isLast | isNew
    · rw [persisted] at isLast
      cases isLast
      exact ⟨below, only⟩
    · have lower := inOrder last persisted lastEpoch
      have different := isNew last persisted lastEpoch
      change last.round ≠ proposer.round + 1 at different
      exact ⟨by omega, fun sameRound => by omega⟩
  · rintro _ _ ⟨⟩
    exact ⟨rfl, sameEpoch⟩
  · rintro _ _ latest ⟨⟩ isLatest
    rw [sameLatest] at isLatest
    exact ordered.latest proposer none latest isLive isLatest

/-- Sending a header that is covered. -/
theorem send {sent : Option Header}
    (agrees : ∀ header, sent = some header → Covered config node.store header ∧
        ∀ other ∈ node.sent, other.round = header.round → other = header)
    (live : Option Proposer)
    (latest : ∀ proposer header, live = some proposer → proposer.optLatestHeader = some header →
        sent = some header ∨ header ∈ node.sent) :
    ({ node with
      sent := node.sent ++ sent.toList
      live := live.map fun proposer => (proposer, none) } :
        ProposerNode).Ordered config := by
  refine ⟨?_, ?_, ?_, ?_⟩
  · intro left leftSent right rightSent sameRound
    simp only [List.mem_append, Option.mem_toList] at leftSent rightSent
    rcases leftSent with leftEarlier | leftLast
    · rcases rightSent with rightEarlier | rightLast
      · exact ordered.never left leftEarlier right rightEarlier sameRound
      · exact (agrees right rightLast).2 left leftEarlier sameRound
    · rcases rightSent with rightEarlier | rightLast
      · exact ((agrees left leftLast).2 right rightEarlier sameRound.symm).symm
      · exact Option.mem_unique leftLast rightLast
  · intro header isSent
    simp only [List.mem_append, Option.mem_toList] at isSent
    rcases isSent with earlier | last
    · exact ordered.covered header earlier
    · exact (agrees header last).1
  · simp
  · intro proposer pending header isLive isLatest
    obtain ⟨_, isRunning, same⟩ := Option.map_eq_some_iff.mp isLive
    cases same
    rcases latest proposer header isRunning isLatest with last | earlier
    · exact List.mem_append_right _ (Option.mem_toList.mpr last)
    · exact List.mem_append_left _ earlier

/-- Every action in order keeps the invariant. -/
theorem perform_spec (inOrder : InOrder config node action)
    (performed : node.perform config action = some after) :
    after.Ordered config := by
  revert performed
  cases action with
  | spawn now =>
    dsimp only [perform]
    split
    · rintro ⟨⟩
      refine { ordered with persisted := by simp, latest := ?_ }
      rintro _ _ header ⟨⟩ isLatest
      cases isLatest
    · rintro ⟨⟩
  | crash =>
    rintro ⟨⟩
    exact ordered.down
  | propose table now createdAt =>
    dsimp only [perform]
    split
    · next proposer isLive =>
      split
      · split
        · rintro ⟨⟩
          exact ordered.down
        · next header proposer' made =>
          rintro ⟨⟩
          exact ordered.propose isLive (inOrder proposer isLive) made
      · rintro ⟨⟩
    · rintro ⟨⟩
  | finish table now delivered =>
    dsimp only [perform]
    split
    · next proposer header isLive =>
      rintro ⟨⟩
      obtain ⟨persisted, sameEpoch⟩ := ordered.persisted proposer header isLive
      refine ordered.send ?_ (proposer.finishHeader config table now
          (if delivered then some header else none)).toOption ?_
      · intro sent isSent
        obtain rfl : header = sent := by
          cases delivered with
          | true => exact Option.some.inj isSent
          | false => cases isSent
        refine ⟨⟨header, persisted, sameEpoch, le_rfl, fun _ => rfl⟩, ?_⟩
        intro other isOther sameRound
        obtain ⟨last, isLast, _, _, only⟩ := ordered.covered other isOther
        rw [persisted] at isLast
        cases isLast
        exact only sameRound
      · intro proposer' latest finished isLatest
        rw [Proposer.finishHeader_spec (toOption_eq_some.mp finished),
          Option.or_eq_some_iff] at isLatest
        rcases isLatest with isSent | ⟨_, isLatest⟩
        · exact .inl isSent
        · exact .inr (ordered.latest proposer _ latest isLive isLatest)
    · rintro ⟨⟩
  | wake table now later event =>
    dsimp only [perform]
    split
    · next proposer isLive =>
      split
      · split
        · rintro ⟨⟩
          exact ordered.down
        · next sent proposer' handled =>
          rintro ⟨⟩
          obtain ⟨again, sameLatest⟩ := Proposer.handle_spec handled
          have earlier := fun header =>
            ordered.latest proposer none header isLive
          refine ordered.send ?_ (some proposer') ?_
          · intro header isSent
            have isEarlier := earlier header (again header isSent)
            exact ⟨ordered.covered header isEarlier, fun other isOther =>
              ordered.never other isOther header isEarlier⟩
          · rintro _ header ⟨⟩ isLatest
            rw [sameLatest] at isLatest
            exact .inr (earlier header isLatest)
      · rintro ⟨⟩
    · rintro ⟨⟩

end Ordered

theorem Reachable.ordered {store : ProposerStore}
    (reachable : Reachable config InOrder store node) :
    node.Ordered config :=
  Run.invariant reachable _ (.new config store)
    fun _ _ _ ordered inOrder performed => ordered.perform_spec inOrder performed

/-! ## Runs of the committee of one -/

/-- The proposer of the only authority. -/
def soloProposer : ProposerConfig where
  committee := soloCommittee
  workerCache _ _ := true
  cryptography := ⟨Header.createdAt, fun _ _ => 0, fun _ _ _ => true⟩
  authorityId := 0
  election := firstElection
  headerNumOfBatchesThreshold := 32
  maxHeaderNumOfBatches := 1000
  maxHeaderDelay := 1000
  minHeaderDelay := 500
  headerResendTimeout := none

instance (config : ProposerConfig) (node : ProposerNode) (action : Action) :
    Decidable (InOrder config node action) :=
  match action with
  | .propose _ _ _ =>
    decidable_of_iff (∀ live ∈ node.live, live.2.isNone → ∀ last ∈ node.store.lastProposed,
        last.epoch = config.committee.epoch → last.round ≤ live.1.round + 1)
      ⟨fun all proposer isLive => all (proposer, none) isLive rfl, fun
        | all, (proposer, none), isLive, _ => all proposer isLive⟩
  | .spawn _ | .crash | .finish _ _ _ | .wake _ _ _ _ => .isTrue trivial

instance (config : ProposerConfig) (node : ProposerNode) (action : Action) :
    Decidable (Unordered config node action) :=
  .isTrue trivial

instance (node : ProposerNode) : Decidable node.NeverEquivocated := by
  unfold NeverEquivocated
  infer_instance

/-! ## Rounds in order -/

/-- In every run in which headers are made only in the round of the persisted
header or above, no two different headers of one round are sent. -/
theorem neverEquivocated_of_inOrder (config : ProposerConfig) (store : ProposerStore)
    (node : ProposerNode) (reachable : Reachable config InOrder store node) :
    node.NeverEquivocated :=
  reachable.ordered.never

/-- The proposer crashes before it sends the first header, sends it after the
restart and goes on. -/
theorem neverEquivocated_of_inOrder_solo :
    ∃ node : ProposerNode, Reachable soloProposer InOrder ⟨none⟩ node ∧
      node.sent.map Header.round = [1, 2] ∧ node.NeverEquivocated := by
  obtain ⟨node, reachable, rounds⟩ := exists_run
    (perform soloProposer) (InOrder soloProposer) (new ⟨none⟩)
    [.spawn 0, .propose .default 500 500, .crash, .spawn 1000,
      .propose .default 1500 1500, .finish .default 1500 true,
      .wake .default 1500 1600 (.parents [soloCertificate 1] 1 0),
      .propose .default 2000 2000, .finish .default 2000 true]
    (fun node => node.sent.map Header.round = [1, 2])
    (by decide +kernel)
  exact ⟨node, reachable, rounds,
    neverEquivocated_of_inOrder soloProposer ⟨none⟩ node reachable⟩

/-- The proposer sends the headers of two rounds and crashes.  After the restart
it sends another header of the first round. -/
theorem equivocates_after_restart :
    ∃ node : ProposerNode, Reachable soloProposer Unordered ⟨none⟩ node ∧ ¬ node.NeverEquivocated :=
  exists_run (perform soloProposer) (Unordered soloProposer) (new ⟨none⟩)
    [.spawn 0, .propose .default 500 500, .finish .default 500 true,
      .wake .default 500 600 (.parents [soloCertificate 1] 1 0),
      .propose .default 1000 1000, .finish .default 1000 true, .crash,
      .spawn 2000, .propose .default 2500 2500, .finish .default 2500 true]
    (fun node => ¬ node.NeverEquivocated)
    (by decide +kernel)

end ProposerNode

end Sui.Narwhal
