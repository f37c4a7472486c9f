import Sui.Types.Committee
import Sui.Library.Run

/-!
# State sync

A node learns of checkpoints from its peers.  Peers may push summaries at any time and may
answer requests with anything.  What they send is kept in a cache by digest and by sequence
number.  One task at a time walks from the highest verified checkpoint to the highest one
that a peer claims to have: it downloads the summaries of the next sequence numbers, several
at once, from the cache or from the peers, and verifies and stores them in order.

Some checkpoints may be pinned: their digests are known in advance, and they are not
verified.
-/

namespace Sui.StateSync

open Std (ExtTreeMap)
open Sui.Types (AuthorityName Committee QuorumSignInfo)

/-! ## Certified checkpoints and their store -/

/-- The digest of a checkpoint summary. -/
abbrev CheckpointDigest := Nat

/-- The largest number of 64 bits. -/
def u64Max : Nat :=
  2 ^ 64 - 1

/-- The successor, which stays at the largest number. -/
def saturatingSucc (number : Nat) : Nat :=
  min (number + 1) u64Max

/-- A checkpoint summary.  What state sync does not look at is one number. -/
structure CheckpointSummary where
  epoch : Nat
  sequenceNumber : Nat
  previousDigest : Option CheckpointDigest
  /-- At the end of an epoch, the voting rights in the next one. -/
  nextEpochCommittee : Option (List (AuthorityName × Nat))
  /-- The contents, the gas costs, the time and the commitments. -/
  content : Nat
  epochBounded : epoch ≤ u64Max
  sequenceNumberBounded : sequenceNumber ≤ u64Max
  deriving DecidableEq

/-- A checkpoint summary with the signature of a quorum. -/
structure Checkpoint where
  summary : CheckpointSummary
  authSignature : QuorumSignInfo
  deriving DecidableEq

/-- The cryptography: a hash without collisions, and the verification of aggregated
signatures. -/
structure Cryptography where
  hash : CheckpointSummary → CheckpointDigest
  collisionFree : Function.Injective hash
  verifyAll : Nat → CheckpointSummary → List AuthorityName → Nat → Bool

namespace Checkpoint

/-- The digest is that of the summary, without the signature. -/
def digest (cryptography : Cryptography) (checkpoint : Checkpoint) : CheckpointDigest :=
  cryptography.hash checkpoint.summary

def epoch (checkpoint : Checkpoint) : Nat :=
  checkpoint.summary.epoch

def sequenceNumber (checkpoint : Checkpoint) : Nat :=
  checkpoint.summary.sequenceNumber

/-- Verify that a quorum of a committee signed. -/
def verifyAuthoritySignatures (cryptography : Cryptography) (checkpoint : Checkpoint)
    (committee : Committee) : Bool :=
  checkpoint.summary.epoch == checkpoint.authSignature.epoch &&
    checkpoint.authSignature.verifySecure cryptography.verifyAll true checkpoint.summary
      committee

theorem sequenceNumber_eq_of_digest_eq {left right : Checkpoint}
    (same : left.digest cryptography = right.digest cryptography) :
    left.sequenceNumber = right.sequenceNumber := by
  have sameSummary := cryptography.collisionFree same
  unfold sequenceNumber
  rw [sameSummary]

end Checkpoint

/-- Why the process panics. -/
inductive Panic where
  | sequenceNumber
  | missingCommittee
  | invalidCommittee
  | conflictingCommittee
  | missingCheckpoint
  deriving DecidableEq

/-- The store of verified checkpoints. -/
structure Store where
  certifiedCheckpoints : ExtTreeMap Nat Checkpoint
  checkpointByDigest : ExtTreeMap CheckpointDigest Checkpoint
  highestVerified : Nat × CheckpointDigest
  committeeMap : ExtTreeMap Nat Committee

namespace Store

def getHighestVerifiedCheckpoint (store : Store) : Option Checkpoint :=
  store.checkpointByDigest[store.highestVerified.2]?

/-- The committee of an epoch. -/
def getCommittee (store : Store) (epoch : Nat) : Option Committee :=
  store.committeeMap[epoch]?

/-- Insert a committee.  One that is there already must be the same. -/
def insertCommittee (store : Store) (committee : Committee) : Except Panic Store :=
  match store.committeeMap[committee.epoch]? with
  | some old => if old = committee then .ok store else .error .conflictingCommittee
  | none =>
    .ok { store with
      committeeMap := store.committeeMap.insert committee.epoch committee }

/-- Insert the committee that a checkpoint carries. -/
def insertNextCommittee (store : Store) (checkpoint : Checkpoint) : Except Panic Store :=
  match checkpoint.summary.nextEpochCommittee with
  | some votingRights =>
    match Committee.new (saturatingSucc checkpoint.epoch) (.ofList votingRights) with
    | some committee => store.insertCommittee committee
    | none => .error .invalidCommittee
  | none => .ok store

/-- Insert a verified checkpoint, which becomes the highest one if it is higher. -/
def insertVerifiedCheckpoint (cryptography : Cryptography) (store : Store)
    (checkpoint : Checkpoint) : Store :=
  { store with
    certifiedCheckpoints :=
      store.certifiedCheckpoints.insert checkpoint.sequenceNumber checkpoint
    checkpointByDigest :=
      store.checkpointByDigest.insert (checkpoint.digest cryptography) checkpoint
    highestVerified :=
      if (store.getHighestVerifiedCheckpoint.map Checkpoint.sequenceNumber).all
          (· < checkpoint.sequenceNumber) then
        (checkpoint.sequenceNumber, checkpoint.digest cryptography)
      else
        store.highestVerified }

/-- Insert a verified checkpoint together with the committee that it carries. -/
def insertCheckpoint (cryptography : Cryptography) (store : Store)
    (checkpoint : Checkpoint) : Except Panic Store :=
  match store.insertNextCommittee checkpoint with
  | .ok store => .ok (store.insertVerifiedCheckpoint cryptography checkpoint)
  | .error panic => .error panic

end Store

/-- Verify a checkpoint against the one before it. -/
def verifyCheckpoint (cryptography : Cryptography) (current : Checkpoint) (store : Store)
    (checkpoint : Checkpoint) : Except Panic Bool :=
  if checkpoint.sequenceNumber ≠ saturatingSucc current.sequenceNumber then
    .error .sequenceNumber
  else if some (current.digest cryptography) ≠ checkpoint.summary.previousDigest then
    .ok false
  else if checkpoint.epoch ≠ current.epoch ∧
      checkpoint.epoch ≠ saturatingSucc current.epoch then
    .ok false
  else if checkpoint.epoch = saturatingSucc current.epoch ∧
      current.summary.nextEpochCommittee = none then
    .ok false
  else
    match store.getCommittee checkpoint.epoch with
    | some committee => .ok (checkpoint.verifyAuthoritySignatures cryptography committee)
    | none => .error .missingCommittee

/-! ## The tasks -/

abbrev PeerId := Nat

/-- What is known of a peer. -/
structure PeerStateSyncInfo where
  genesisCheckpointDigest : CheckpointDigest
  onSameChainAsUs : Bool
  height : Nat
  /-- The lowest checkpoint that the peer still has. -/
  lowest : Nat

/-- The peers, and the checkpoints that they sent. -/
structure PeerHeights where
  peers : ExtTreeMap PeerId PeerStateSyncInfo
  unprocessedCheckpoints : ExtTreeMap CheckpointDigest Checkpoint
  sequenceNumberToDigest : ExtTreeMap Nat CheckpointDigest

namespace PeerHeights

def empty : PeerHeights :=
  ⟨∅, ∅, ∅⟩

/-- The highest sequence number that a peer on our chain claims. -/
def highestKnownCheckpointSequenceNumber (peerHeights : PeerHeights) : Option Nat :=
  ((Library.Map.values peerHeights.peers).filterMap fun info =>
    if info.onSameChainAsUs then some info.height else none).max?

def getCheckpointByDigest (peerHeights : PeerHeights) (digest : CheckpointDigest) :
    Option Checkpoint :=
  peerHeights.unprocessedCheckpoints[digest]?

def getCheckpointBySequenceNumber (peerHeights : PeerHeights) (sequenceNumber : Nat) :
    Option Checkpoint :=
  peerHeights.sequenceNumberToDigest[sequenceNumber]?.bind peerHeights.getCheckpointByDigest

/-- The checkpoint that is highest among the peers, if it is cached. -/
def highestKnownCheckpoint (peerHeights : PeerHeights) : Option Checkpoint :=
  peerHeights.highestKnownCheckpointSequenceNumber.bind
    peerHeights.getCheckpointBySequenceNumber

/-- Cache a checkpoint. -/
def insertCheckpoint (cryptography : Cryptography) (peerHeights : PeerHeights)
    (checkpoint : Checkpoint) : PeerHeights :=
  { peerHeights with
    unprocessedCheckpoints :=
      peerHeights.unprocessedCheckpoints.insert (checkpoint.digest cryptography) checkpoint
    sequenceNumberToDigest :=
      peerHeights.sequenceNumberToDigest.insert checkpoint.sequenceNumber
        (checkpoint.digest cryptography) }

/-- A peer on our chain tells of a checkpoint. -/
def updatePeerInfo (cryptography : Cryptography) (peerHeights : PeerHeights) (peer : PeerId)
    (checkpoint : Checkpoint) (lowWatermark : Option Nat) : PeerHeights :=
  match peerHeights.peers[peer]? with
  | some info =>
    if info.onSameChainAsUs then
      insertCheckpoint cryptography
        { peerHeights with
          peers := peerHeights.peers.insert peer
            { info with
              height := max checkpoint.sequenceNumber info.height
              lowest := lowWatermark.getD info.lowest } }
        checkpoint
    else
      peerHeights
  | none => peerHeights

/-- A peer tells of its chain. -/
def insertPeerInfo (peerHeights : PeerHeights) (peer : PeerId)
    (info : PeerStateSyncInfo) : PeerHeights :=
  let updated :=
    match peerHeights.peers[peer]? with
    | some entry =>
      if entry.genesisCheckpointDigest = info.genesisCheckpointDigest then
        { entry with height := max entry.height info.height }
      else
        info
    | none => info
  { peerHeights with peers := peerHeights.peers.insert peer updated }

/-- A peer turned out to be on another chain. -/
def markPeerAsNotOnSameChain (peerHeights : PeerHeights) (peer : PeerId) : PeerHeights :=
  { peerHeights with
    peers := peerHeights.peers.alter peer fun info =>
      info.map fun info => { info with onSameChainAsUs := false } }

/-- Forget the checkpoints up to a sequence number. -/
def cleanupOldCheckpoints (peerHeights : PeerHeights) (sequenceNumber : Nat) :
    PeerHeights :=
  { peerHeights with
    unprocessedCheckpoints := peerHeights.unprocessedCheckpoints.filter
      fun _ checkpoint => sequenceNumber < checkpoint.sequenceNumber
    sequenceNumberToDigest := peerHeights.sequenceNumberToDigest.filter
      fun number _ => sequenceNumber < number }

/-- Forget a checkpoint, and whatever is cached for its sequence number. -/
def removeCheckpoint (peerHeights : PeerHeights) (digest : CheckpointDigest) : PeerHeights :=
  match peerHeights.unprocessedCheckpoints[digest]? with
  | some checkpoint =>
    { peerHeights with
      unprocessedCheckpoints := peerHeights.unprocessedCheckpoints.erase digest
      sequenceNumberToDigest :=
        peerHeights.sequenceNumberToDigest.erase checkpoint.sequenceNumber }
  | none => peerHeights

end PeerHeights

/-! ## The task -/

/-- The configuration. -/
structure Config where
  cryptography : Cryptography
  /-- The sequence numbers of pinned checkpoints with their digests.  The list is sorted
  when state sync starts, so that the binary search finds the only entry of a number. -/
  pinnedCheckpoints : List (Nat × CheckpointDigest)
  distinct : (pinnedCheckpoints.map Prod.fst).Nodup
  checkpointHeaderDownloadConcurrency : Nat

/-- The digest that is pinned for a sequence number. -/
def Config.pinnedDigest (config : Config) (sequenceNumber : Nat) : Option CheckpointDigest :=
  (config.pinnedCheckpoints.find? fun pinned => pinned.1 = sequenceNumber).map Prod.snd

inductive Download where
  /-- The peers are asked one after the other. -/
  | requesting
  /-- The download is over, with the checkpoint and the peer that was asked for it. -/
  | finished (checkpoint : Option Checkpoint) (peer : Option PeerId)

/-- The task that syncs to a checkpoint. -/
structure SyncTask where
  current : Checkpoint
  next : Nat
  target : Nat
  downloads : ExtTreeMap Nat Download

/-- The result of a download. -/
def SyncTask.setDownload (task : SyncTask) (sequenceNumber : Nat)
    (download : Download) : SyncTask :=
  { task with downloads := task.downloads.insert sequenceNumber download }

/-- A node that syncs. -/
structure Node where
  store : Store
  peerHeights : PeerHeights
  task : Option SyncTask
  /-- The checkpoints that the tasks inserted into the store, in their order. -/
  inserted : List Checkpoint
  panicked : Option Panic

namespace Node

/-- A node with a store at the start of the process. -/
def new (store : Store) : Node :=
  ⟨store, .empty, none, [], none⟩

/-- What happens to the node. -/
inductive Action where
  /-- A peer was asked for its genesis checkpoint. -/
  | insertPeerInfo (peer : PeerId) (info : PeerStateSyncInfo)
  /-- A peer pushes a summary, or tells of its highest checkpoint when it is asked. -/
  | updatePeerInfo (peer : PeerId) (checkpoint : Checkpoint) (lowWatermark : Option Nat)
  | lostPeer (peer : PeerId)
  | startSync
  /-- The download of a sequence number starts with a look into the cache. -/
  | beginDownload (sequenceNumber : Nat)
  | respond (sequenceNumber : Nat) (peer : PeerId) (answer : Option Checkpoint)
  | exhaust (sequenceNumber : Nat)
  /-- The task takes the next download, verifies it and inserts it. -/
  | consume
  | finish

/-- The process dies. -/
def die (node : Node) (panic : Panic) : Node :=
  { node with panicked := some panic }

/-- Start the task if none is running and a peer has a higher checkpoint. -/
def maybeStartCheckpointSummarySyncTask (node : Node) : Node :=
  match node.task with
  | some _ => node
  | none =>
    match node.store.getHighestVerifiedCheckpoint with
    | none => node.die .missingCheckpoint
    | some current =>
      match node.peerHeights.highestKnownCheckpoint with
      | some checkpoint =>
        if current.sequenceNumber < checkpoint.sequenceNumber then
          let task : SyncTask :=
            { current := current
              next := saturatingSucc current.sequenceNumber
              target := checkpoint.sequenceNumber
              downloads := ∅ }
          { node with task := some task }
        else
          node
      | none => node

/-- A download takes the checkpoint from the cache if it is there. -/
def beginDownload (node : Node) (task : SyncTask) (sequenceNumber : Nat) : Node :=
  let download :=
    match node.peerHeights.getCheckpointBySequenceNumber sequenceNumber with
    | some checkpoint => .finished (some checkpoint) none
    | none => .requesting
  { node with task := some (task.setDownload sequenceNumber download) }

/-- An answer is used if it has the sequence number and, where one is pinned, the
digest. -/
def accepts (config : Config) (sequenceNumber : Nat) (checkpoint : Checkpoint) : Bool :=
  checkpoint.sequenceNumber == sequenceNumber &&
    match config.pinnedDigest checkpoint.sequenceNumber with
    | some pinned => pinned == checkpoint.digest config.cryptography
    | none => true

/-- An answer that is used is cached; after another one the next peer is asked. -/
def respond (config : Config) (node : Node) (task : SyncTask) (sequenceNumber : Nat)
    (peer : PeerId) :
    Option Checkpoint → Node
  | some checkpoint =>
    if accepts config sequenceNumber checkpoint then
      { node with
        peerHeights := node.peerHeights.insertCheckpoint config.cryptography checkpoint
        task := some (task.setDownload sequenceNumber (.finished (some checkpoint) (some peer))) }
    else
      node
  | none => node

/-- A verified checkpoint is inserted, and the task goes on with the next one. -/
def insertVerified (config : Config) (node : Node) (task : SyncTask)
    (checkpoint : Checkpoint) : Node :=
  match node.store.insertCheckpoint config.cryptography checkpoint with
  | .error panic => node.die panic
  | .ok store =>
    let task :=
      { task with
        current := checkpoint
        next := task.next + 1
        downloads := task.downloads.erase task.next }
    { node with
      store := store
      task := some task
      inserted := node.inserted ++ [checkpoint] }

/-- A checkpoint that does not verify is forgotten, its peer is not asked any more, and the
task ends. -/
def reject (config : Config) (node : Node) (checkpoint : Checkpoint)
    (peer : Option PeerId) : Node :=
  let peerHeights :=
    node.peerHeights.removeCheckpoint (checkpoint.digest config.cryptography)
  { node with
    peerHeights :=
      match peer with
      | some peer => peerHeights.markPeerAsNotOnSameChain peer
      | none => peerHeights
    task := none }

/-- Verify a downloaded checkpoint, unless its sequence number is pinned. -/
def verifyDownloaded (config : Config) (node : Node) (task : SyncTask) (checkpoint : Checkpoint)
    (peer : Option PeerId) : Node :=
  if (config.pinnedDigest checkpoint.sequenceNumber).isSome then
    node.insertVerified config task checkpoint
  else
    match verifyCheckpoint config.cryptography task.current node.store checkpoint with
    | .error panic => node.die panic
    | .ok true => node.insertVerified config task checkpoint
    | .ok false => node.reject config checkpoint peer

/-- Perform an action, if it is possible. -/
def perform (config : Config) (node : Node) (action : Action) : Option Node :=
  if node.panicked.isSome then none
  else
    match action with
    | .insertPeerInfo peer info =>
      some { node with peerHeights := node.peerHeights.insertPeerInfo peer info }
    | .updatePeerInfo peer checkpoint lowWatermark =>
      some { node with
        peerHeights := node.peerHeights.updatePeerInfo config.cryptography peer checkpoint
          lowWatermark }
    | .lostPeer peer =>
      some { node with
        peerHeights := { node.peerHeights with peers := node.peerHeights.peers.erase peer } }
    | .startSync => some node.maybeStartCheckpointSummarySyncTask
    | .beginDownload sequenceNumber =>
      match node.task with
      | some task =>
        if task.next ≤ sequenceNumber ∧ sequenceNumber ≤ task.target ∧
            sequenceNumber < task.next + config.checkpointHeaderDownloadConcurrency ∧
            task.downloads.contains sequenceNumber = false then
          some (node.beginDownload task sequenceNumber)
        else
          none
      | none => none
    | .respond sequenceNumber peer answer =>
      match node.task with
      | some task =>
        match task.downloads[sequenceNumber]? with
        | some .requesting => some (node.respond config task sequenceNumber peer answer)
        | _ => none
      | none => none
    | .exhaust sequenceNumber =>
      match node.task with
      | some task =>
        match task.downloads[sequenceNumber]? with
        | some .requesting =>
          some { node with
            task := some (task.setDownload sequenceNumber (.finished none none)) }
        | _ => none
      | none => none
    | .consume =>
      match node.task with
      | some task =>
        if task.next ≤ task.target then
          match task.downloads[task.next]? with
          | some (.finished (some checkpoint) peer) =>
            some (node.verifyDownloaded config task checkpoint peer)
          | some (.finished none _) => some { node with task := none }
          | _ => none
        else
          none
      | none => none
    | .finish =>
      match node.task with
      | some task =>
        if task.target < task.next then
          some { node with
            peerHeights := node.peerHeights.cleanupOldCheckpoints task.target
            task := none }
        else
          none
      | none => none

end Node

/-! ## What the steps do

An insertion extends the store by one checkpoint and keeps its links, what verifies is linked
and signed, and the cache files its checkpoints under their sequence numbers. -/

open Library

/-! ## The store -/

namespace Store

/-- A checkpoint is linked to the stored one before it, and a quorum of the committee of its
epoch signed it. -/
structure Linked
    (cryptography : Cryptography)
    (store : Store)
    (checkpoint : Checkpoint) : Prop where
  previous : ∃ previous : Checkpoint, previous.sequenceNumber + 1 = checkpoint.sequenceNumber ∧
    store.certifiedCheckpoints[previous.sequenceNumber]? = some previous ∧
    checkpoint.summary.previousDigest = some (previous.digest cryptography) ∧
    (checkpoint.epoch = previous.epoch ∨ checkpoint.epoch = previous.epoch + 1 ∧
        previous.summary.nextEpochCommittee.isSome = true)
  quorum : ∃ committee, store.getCommittee checkpoint.epoch = some committee ∧
    checkpoint.authSignature.epoch = checkpoint.epoch ∧
    QuorumSignInfo.Signed cryptography.verifyAll true checkpoint.summary committee
      checkpoint.authSignature

/-- A store with its highest verified checkpoint. -/
structure Proper
    (cryptography : Cryptography)
    (store : Store)
    (highest : Checkpoint) : Prop where
  certified : store.certifiedCheckpoints[highest.sequenceNumber]? = some highest
  byDigest : store.checkpointByDigest[highest.digest cryptography]? = some highest
  watermark : store.highestVerified = (highest.sequenceNumber, highest.digest cryptography)

variable {store after : Store}

theorem Proper.getHighestVerifiedCheckpoint (proper : store.Proper cryptography highest) :
    store.getHighestVerifiedCheckpoint = some highest := by
  unfold Store.getHighestVerifiedCheckpoint
  rw [proper.watermark]
  exact proper.byDigest

/-- A store that has the committees to verify the next checkpoint. -/
structure Prepared
    (store : Store)
    (highest : Checkpoint) : Prop where
  committee : (store.getCommittee highest.epoch).isSome = true
  nextCommittee : highest.summary.nextEpochCommittee.isSome = true →
    (store.getCommittee (saturatingSucc highest.epoch)).isSome = true

/-- The committee of the next epoch, with the voting rights that a checkpoint carries. -/
def Carries (checkpoint : Checkpoint) (committee : Committee) : Prop :=
  ∃ votingRights, checkpoint.summary.nextEpochCommittee = some votingRights ∧
    Committee.new (saturatingSucc checkpoint.epoch) (.ofList votingRights) = some committee

/-- The committees of a store after checkpoints are inserted: those of before, and those that
the checkpoints carry. -/
structure Adopts (before : Store) (checkpoints : List Checkpoint) (after : Store) : Prop where
  kept : ∀ epoch committee, before.getCommittee epoch = some committee →
    after.getCommittee epoch = some committee
  carried : ∀ checkpoint ∈ checkpoints, checkpoint.summary.nextEpochCommittee.isSome = true →
    ∃ committee, Carries checkpoint committee ∧
      after.getCommittee (saturatingSucc checkpoint.epoch) = some committee
  origin : ∀ epoch committee, after.getCommittee epoch = some committee →
    before.getCommittee epoch = some committee ∨
      ∃ checkpoint ∈ checkpoints, Carries checkpoint committee ∧
        epoch = saturatingSucc checkpoint.epoch

theorem Adopts.refl (store : Store) : store.Adopts [] store :=
  ⟨fun _ _ => id, by simp, fun _ _ => .inl⟩

/-- Checkpoints are inserted one after the other. -/
theorem Adopts.snoc {before middle : Store} (first : before.Adopts checkpoints middle)
    (last : middle.Adopts [checkpoint] after) :
    before.Adopts (checkpoints ++ [checkpoint]) after where
  kept epoch committee found := last.kept _ _ (first.kept _ _ found)
  carried := by
    refine List.forall_mem_append.mpr ⟨fun other listed carries => ?_, last.carried⟩
    obtain ⟨committee, isCarried, found⟩ := first.carried other listed carries
    exact ⟨committee, isCarried, last.kept _ _ found⟩
  origin epoch committee found := by
    rcases last.origin epoch committee found with old | ⟨other, listed, origin⟩
    · refine (first.origin epoch committee old).imp_right ?_
      rintro ⟨other, listed, origin⟩
      exact ⟨other, List.mem_append_left _ listed, origin⟩
    · exact .inr ⟨other, List.mem_append_right _ listed, origin⟩

/-- A committee is the one of its epoch after it is inserted, and other epochs keep theirs. -/
theorem insertCommittee_spec (inserted : store.insertCommittee committee = .ok after) :
    after.getCommittee committee.epoch = some committee ∧
      (∀ epoch other, store.getCommittee epoch = some other →
        after.getCommittee epoch = some other) ∧
      (∀ epoch, epoch ≠ committee.epoch → after.getCommittee epoch = store.getCommittee epoch) ∧
      after.certifiedCheckpoints = store.certifiedCheckpoints ∧
      after.checkpointByDigest = store.checkpointByDigest ∧
      after.highestVerified = store.highestVerified := by
  unfold insertCommittee at inserted
  split at inserted
  · next old found =>
    split at inserted
    · next same =>
      cases inserted
      exact ⟨same ▸ found, fun _ _ => id, fun _ _ => rfl, rfl, rfl, rfl⟩
    · cases inserted
  · next absent =>
    cases inserted
    have others (epoch : Nat) (different : epoch ≠ committee.epoch) :
        (store.committeeMap.insert committee.epoch committee)[epoch]? =
          store.committeeMap[epoch]? := by
      rw [Map.getElem?_insert, if_neg different.symm]
    refine ⟨by simp [getCommittee], fun epoch other found => ?_, others, rfl, rfl, rfl⟩
    refine (others epoch ?_).trans found
    rintro rfl
    rw [getCommittee, absent] at found
    cases found

/-- The committee that a checkpoint carries is adopted. -/
theorem insertNextCommittee_spec (inserted : store.insertNextCommittee checkpoint = .ok after) :
    store.Adopts [checkpoint] after ∧
      after.certifiedCheckpoints = store.certifiedCheckpoints ∧
      after.checkpointByDigest = store.checkpointByDigest ∧
      after.highestVerified = store.highestVerified := by
  unfold insertNextCommittee at inserted
  split at inserted
  · next votingRights rights =>
    split at inserted
    · next committee created =>
      obtain ⟨found, kept, others, tables⟩ := insertCommittee_spec inserted
      have carries : Carries checkpoint committee := ⟨votingRights, rights, created⟩
      rw [Committee.epoch_of_new created] at found others
      refine ⟨⟨kept, ?_, fun epoch other isOther => ?_⟩, tables⟩
      · exact List.forall_mem_singleton.mpr fun _ => ⟨committee, carries, found⟩
      · by_cases next : epoch = saturatingSucc checkpoint.epoch
        · obtain rfl : committee = other := Option.some.inj (found.symm.trans (next ▸ isOther))
          exact .inr ⟨checkpoint, List.mem_singleton_self _, carries, next⟩
        · exact .inl ((others epoch next).symm.trans isOther)
    · cases inserted
  · next absent =>
    cases inserted
    exact ⟨⟨fun _ _ => id, by simp [absent], fun _ _ => .inl⟩, rfl, rfl, rfl⟩

/-- What the store holds after a higher checkpoint was inserted. -/
theorem insertCheckpoint_spec (proper : store.Proper cryptography highest)
    (higher : highest.sequenceNumber < checkpoint.sequenceNumber)
    (inserted : store.insertCheckpoint cryptography checkpoint = .ok after) :
    after.Proper cryptography checkpoint ∧ store.Adopts [checkpoint] after ∧
      after.certifiedCheckpoints =
        store.certifiedCheckpoints.insert checkpoint.sequenceNumber checkpoint := by
  unfold insertCheckpoint at inserted
  split at inserted
  · next between isBetween =>
    cases inserted
    obtain ⟨adopts, certified, byDigest, watermark⟩ := insertNextCommittee_spec isBetween
    have highestFound : between.getHighestVerifiedCheckpoint = some highest := by
      rw [← proper.getHighestVerifiedCheckpoint]
      unfold getHighestVerifiedCheckpoint
      rw [byDigest, watermark]
    refine ⟨⟨?_, ?_, ?_⟩, { adopts with }, ?_⟩
    · simp [insertVerifiedCheckpoint]
    · simp [insertVerifiedCheckpoint]
    · simp [insertVerifiedCheckpoint, highestFound, higher]
    · simp [insertVerifiedCheckpoint, certified]
  · cases inserted

/-- A link is kept when a higher checkpoint is inserted. -/
theorem Linked.mono (linked : store.Linked cryptography checkpoint)
    (kept : ∀ epoch committee, store.getCommittee epoch = some committee →
      after.getCommittee epoch = some committee)
    (certified : after.certifiedCheckpoints =
      store.certifiedCheckpoints.insert inserted.sequenceNumber inserted)
    (lower : checkpoint.sequenceNumber ≤ inserted.sequenceNumber) :
    after.Linked cryptography checkpoint where
  previous := by
    obtain ⟨previous, successor, found, link⟩ := linked.previous
    refine ⟨previous, successor, ?_, link⟩
    rw [certified, Map.getElem?_insert, if_neg (by omega)]
    exact found
  quorum := by
    obtain ⟨committee, found, signed⟩ := linked.quorum
    exact ⟨committee, kept _ _ found, signed⟩

end Store

theorem saturatingSucc_of_successor {current checkpoint : Checkpoint}
    (successor : checkpoint.sequenceNumber = current.sequenceNumber + 1) :
    checkpoint.sequenceNumber = saturatingSucc current.sequenceNumber := by
  have bounded : checkpoint.sequenceNumber ≤ u64Max := checkpoint.summary.sequenceNumberBounded
  unfold saturatingSucc
  omega

/-- A successor that is verified is linked. -/
theorem linked_of_verifyCheckpoint {current checkpoint : Checkpoint}
    (proper : store.Proper cryptography current)
    (successor : checkpoint.sequenceNumber = current.sequenceNumber + 1)
    (verified : verifyCheckpoint cryptography current store checkpoint = .ok true) :
    store.Linked cryptography checkpoint := by
  have epochBounded : current.epoch ≤ u64Max := current.summary.epochBounded
  unfold verifyCheckpoint at verified
  rw [if_neg (not_not.mpr (saturatingSucc_of_successor successor))] at verified
  split at verified
  · cases verified
  · next sameDigest =>
    split at verified
    · cases verified
    · next epochClose =>
      split at verified
      · cases verified
      · next epochEnded =>
        split at verified
        · next committee found =>
          refine ⟨⟨current, successor.symm, proper.certified,
            (not_not.mp sameDigest).symm, ?_⟩, committee, found, ?_⟩
          · rw [not_and_or, not_not, not_not] at epochClose
            rcases epochClose with same | next
            · exact .inl same
            · have carries : current.summary.nextEpochCommittee ≠ none :=
                fun absent => epochEnded ⟨next, absent⟩
              rw [saturatingSucc] at next
              by_cases last : current.epoch = u64Max
              · left
                omega
              · right
                exact ⟨by omega, Option.isSome_iff_ne_none.mpr carries⟩
          · have signatures := Except.ok.inj verified
            unfold Checkpoint.verifyAuthoritySignatures at signatures
            rw [Bool.and_eq_true, beq_iff_eq] at signatures
            exact ⟨signatures.1.symm, QuorumSignInfo.signed_of_verifySecure _ signatures.2⟩
        · cases verified

/-- The verification of a successor panics only if the committee is missing. -/
theorem verifyCheckpoint_panic {panic : Panic}
    (successor : checkpoint.sequenceNumber = current.sequenceNumber + 1)
    (panicked : verifyCheckpoint cryptography current store checkpoint = .error panic) :
    panic = .missingCommittee ∧ ¬ store.Prepared current := by
  unfold verifyCheckpoint at panicked
  rw [if_neg (not_not.mpr (saturatingSucc_of_successor successor))] at panicked
  split at panicked
  · cases panicked
  · split at panicked
    · cases panicked
    · next epochClose =>
      split at panicked
      · cases panicked
      · next epochEnded =>
        split at panicked
        · cases panicked
        · next missing =>
          cases panicked
          refine ⟨rfl, fun prepared => ?_⟩
          rw [not_and_or, not_not, not_not] at epochClose
          rcases epochClose with same | next
          · have present := prepared.committee
            rw [← same, missing] at present
            cases present
          · have present := prepared.nextCommittee (Option.isSome_iff_ne_none.mpr
              fun absent => epochEnded ⟨next, absent⟩)
            rw [← next, missing] at present
            cases present

/-! ## The cache -/

namespace PeerHeights

/-- The cache is filed under the digests and the sequence numbers of its checkpoints. -/
structure Filed (cryptography : Cryptography) (peerHeights : PeerHeights) : Prop where
  byDigest : ∀ (digest : CheckpointDigest) checkpoint,
    peerHeights.unprocessedCheckpoints[digest]? = some checkpoint →
      checkpoint.digest cryptography = digest
  bySequenceNumber : ∀ (number : Nat) digest,
    peerHeights.sequenceNumberToDigest[number]? = some digest →
      ∃ checkpoint : Checkpoint, checkpoint.digest cryptography = digest ∧
        checkpoint.sequenceNumber = number

namespace Filed

variable {cryptography : Cryptography} {peerHeights : PeerHeights}

theorem empty : Filed cryptography .empty where
  byDigest := by simp [PeerHeights.empty]
  bySequenceNumber := by simp [PeerHeights.empty]

variable (filed : peerHeights.Filed cryptography)

include filed

/-- A checkpoint of the cache has the sequence number that it is filed under. -/
theorem sequenceNumber_eq
    (cached : peerHeights.getCheckpointBySequenceNumber number = some checkpoint) :
    checkpoint.sequenceNumber = number := by
  obtain ⟨digest, indexed, found⟩ := Option.bind_eq_some_iff.mp cached
  obtain ⟨other, sameDigest, rfl⟩ := filed.bySequenceNumber number digest indexed
  have isDigest := filed.byDigest digest checkpoint found
  exact Checkpoint.sequenceNumber_eq_of_digest_eq (isDigest.trans sameDigest.symm)

theorem withPeers (peers : ExtTreeMap PeerId PeerStateSyncInfo) :
    ({ peerHeights with peers := peers } : PeerHeights).Filed cryptography :=
  ⟨filed.byDigest, filed.bySequenceNumber⟩

theorem insertCheckpoint (checkpoint : Checkpoint) :
    (peerHeights.insertCheckpoint cryptography checkpoint).Filed cryptography where
  byDigest := Map.forall_insert rfl filed.byDigest
  bySequenceNumber := Map.forall_insert ⟨checkpoint, rfl, rfl⟩ filed.bySequenceNumber

theorem updatePeerInfo (peer : PeerId) (checkpoint : Checkpoint) (lowWatermark : Option Nat) :
    (peerHeights.updatePeerInfo cryptography peer checkpoint lowWatermark).Filed
      cryptography := by
  unfold PeerHeights.updatePeerInfo
  split
  · split
    · exact (filed.withPeers _).insertCheckpoint checkpoint
    · exact filed
  · exact filed

theorem removeCheckpoint (digest : CheckpointDigest) :
    (peerHeights.removeCheckpoint digest).Filed cryptography := by
  unfold PeerHeights.removeCheckpoint
  split
  · exact ⟨Map.forall_erase filed.byDigest, Map.forall_erase filed.bySequenceNumber⟩
  · exact filed

/-- A cleanup keeps the checkpoints filed by their digests. -/
theorem cleanupOldCheckpoints (sequenceNumber : Nat) :
    (peerHeights.cleanupOldCheckpoints sequenceNumber).Filed cryptography where
  byDigest digest checkpoint found := by
    rw [PeerHeights.cleanupOldCheckpoints, ExtTreeMap.getElem?_filter',
      Option.filter_eq_some_iff] at found
    exact filed.byDigest digest checkpoint found.1
  bySequenceNumber number digest found := by
    rw [PeerHeights.cleanupOldCheckpoints, ExtTreeMap.getElem?_filter',
      Option.filter_eq_some_iff] at found
    exact filed.bySequenceNumber number digest found.1

end Filed

end PeerHeights

/-! ## What a step does -/

namespace Node

/-- What an action can do to a node. -/
inductive Change (config : Config) (node : Node) : Action → Node → Prop
  | peers {action : Action} (peerHeights : PeerHeights) (task : Option SyncTask)
      (filed : node.peerHeights.Filed config.cryptography → peerHeights.Filed config.cryptography)
      (isTask : task = node.task ∨ task = none) :
      Change config node action { node with peerHeights := peerHeights, task := task }
  | start {current checkpoint : Checkpoint}
      (idle : node.task = none)
      (isCurrent : node.store.getHighestVerifiedCheckpoint = some current)
      (higher : current.sequenceNumber < checkpoint.sequenceNumber) :
      Change config node .startSync
        { node with
          task := some ⟨current, saturatingSucc current.sequenceNumber,
            checkpoint.sequenceNumber, ∅⟩ }
  | request {action : Action} {task : SyncTask} (sequenceNumber : Nat) {download : Download}
      (running : node.task = some task)
      (empty : ∀ checkpoint peer, download ≠ .finished (some checkpoint) peer) :
      Change config node action
        { node with task := some (task.setDownload sequenceNumber download) }
  | cached {task : SyncTask} {sequenceNumber : Nat} {checkpoint : Checkpoint}
      (running : node.task = some task)
      (found : node.peerHeights.getCheckpointBySequenceNumber sequenceNumber = some checkpoint) :
      Change config node (.beginDownload sequenceNumber)
        { node with
          task := some (task.setDownload sequenceNumber (.finished (some checkpoint) none)) }
  | answered {action : Action} {task : SyncTask} {sequenceNumber : Nat}
      {checkpoint : Checkpoint} (peer : PeerId)
      (running : node.task = some task)
      (accepted : accepts config sequenceNumber checkpoint = true) :
      Change config node action
        { node with
          peerHeights := node.peerHeights.insertCheckpoint config.cryptography checkpoint
          task := some (task.setDownload sequenceNumber (.finished (some checkpoint) (some peer))) }
  | inserted {task : SyncTask} {checkpoint : Checkpoint} {peer : Option PeerId} {store : Store}
      (running : node.task = some task)
      (downloaded : task.downloads[task.next]? = some (.finished (some checkpoint) peer))
      (verified : (config.pinnedDigest checkpoint.sequenceNumber).isSome = true ∨
        verifyCheckpoint config.cryptography task.current node.store checkpoint = .ok true)
      (isStore : node.store.insertCheckpoint config.cryptography checkpoint = .ok store) :
      Change config node .consume
        { node with
          store := store
          task := some ⟨checkpoint, task.next + 1, task.target, task.downloads.erase task.next⟩
          inserted := node.inserted ++ [checkpoint] }
  | verifyPanic {task : SyncTask} {checkpoint : Checkpoint} {peer : Option PeerId}
      {panic : Panic}
      (running : node.task = some task)
      (downloaded : task.downloads[task.next]? = some (.finished (some checkpoint) peer))
      (panicked : verifyCheckpoint config.cryptography task.current node.store checkpoint =
        .error panic) :
      Change config node .consume (node.die panic)
  | storePanic {action : Action} {panic : Panic}
      (ofStore : panic = .missingCheckpoint ∨ panic = .invalidCommittee ∨
        panic = .conflictingCommittee) :
      Change config node action (node.die panic)

theorem Change.refl {action : Action} : Change config node action node :=
  .peers node.peerHeights node.task id (.inl rfl)

/-- The store panics for its own reasons. -/
theorem insertCheckpoint_panic {store : Store} {panic : Panic}
    (panicked : store.insertCheckpoint cryptography checkpoint = .error panic) :
    panic = .missingCheckpoint ∨ panic = .invalidCommittee ∨ panic = .conflictingCommittee := by
  unfold Store.insertCheckpoint at panicked
  split at panicked
  · cases panicked
  · next isPanic =>
    cases panicked
    unfold Store.insertNextCommittee at isPanic
    split at isPanic
    · split at isPanic
      · unfold Store.insertCommittee at isPanic
        split at isPanic
        · split at isPanic
          · cases isPanic
          · cases isPanic
            exact .inr (.inr rfl)
        · cases isPanic
      · cases isPanic
        exact .inr (.inl rfl)
    · cases isPanic

/-- How the verified checkpoint at the head of the downloads is inserted. -/
theorem change_insertVerified {task : SyncTask} {peer : Option PeerId}
    (running : node.task = some task)
    (downloaded : task.downloads[task.next]? = some (.finished (some checkpoint) peer))
    (verified : (config.pinnedDigest checkpoint.sequenceNumber).isSome = true ∨
      verifyCheckpoint config.cryptography task.current node.store checkpoint = .ok true) :
    Change config node .consume (node.insertVerified config task checkpoint) := by
  unfold insertVerified
  split
  · next panic panicked => exact .storePanic (insertCheckpoint_panic panicked)
  · next store isStore => exact .inserted running downloaded verified isStore

/-- What each action changes. -/
theorem change_of_perform {config : Config} (performed : node.perform config action = some after) :
    Change config node action after := by
  unfold perform at performed
  split at performed
  · cases performed
  cases action with
  | insertPeerInfo peer info =>
    cases performed
    exact .peers _ _ (fun filed => filed.withPeers _) (.inl rfl)
  | updatePeerInfo peer checkpoint lowWatermark =>
    cases performed
    exact .peers _ _ (fun filed => filed.updatePeerInfo peer checkpoint lowWatermark) (.inl rfl)
  | lostPeer peer =>
    cases performed
    exact .peers _ _ (fun filed => filed.withPeers _) (.inl rfl)
  | startSync =>
    cases performed
    unfold maybeStartCheckpointSummarySyncTask
    split
    · exact .refl
    · next idle =>
      split
      · exact .storePanic (.inl rfl)
      · next current isCurrent =>
        split
        · split
          · next higher => exact .start idle isCurrent higher
          · exact .refl
        · exact .refl
  | beginDownload sequenceNumber =>
    dsimp only at performed
    split at performed
    · next task running =>
      obtain ⟨_, ⟨⟩⟩ := Option.ite_none_right_eq_some.mp performed
      unfold beginDownload
      split
      · next checkpoint found => exact .cached running found
      · exact .request sequenceNumber running (by simp)
    · cases performed
  | respond sequenceNumber peer answer =>
    dsimp only at performed
    split at performed
    · next task running =>
      split at performed
      · cases performed
        unfold respond
        split
        · split
          · next accepted => exact .answered peer running accepted
          · exact .refl
        · exact .refl
      · cases performed
    · cases performed
  | exhaust sequenceNumber =>
    dsimp only at performed
    split at performed
    · next task running =>
      split at performed
      · cases performed
        exact .request sequenceNumber running (by simp)
      · cases performed
    · cases performed
  | consume =>
    dsimp only at performed
    split at performed
    · next task running =>
      obtain ⟨_, taken⟩ := Option.ite_none_right_eq_some.mp performed
      split at taken
      · next checkpoint peer downloaded =>
        cases taken
        unfold verifyDownloaded
        split
        · next pinned => exact change_insertVerified running downloaded (.inl pinned)
        · split
          · next panic panicked => exact .verifyPanic running downloaded panicked
          · next verified => exact change_insertVerified running downloaded (.inr verified)
          · refine .peers _ none (fun filed => ?_) (.inr rfl)
            cases peer with
            | none => exact filed.removeCheckpoint _
            | some peer => exact (filed.removeCheckpoint _).withPeers _
      · cases taken
        exact .peers node.peerHeights none id (.inr rfl)
      · cases taken
    · cases performed
  | finish =>
    dsimp only at performed
    split at performed
    · obtain ⟨_, ⟨⟩⟩ := Option.ite_none_right_eq_some.mp performed
      exact .peers _ none (fun filed => filed.cleanupOldCheckpoints _) (.inr rfl)
    · cases performed

end Node

end Sui.StateSync
