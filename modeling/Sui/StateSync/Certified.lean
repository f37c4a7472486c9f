import Sui.StateSync.Sync

/-!
# What state sync stores

Whatever the peers do, the checkpoints that are not pinned are linked to their predecessors
and signed by a quorum, and all checkpoints are stored one after the other.  Pinned
checkpoints are compared with their digests only if they come as an answer to a request.  One
that a peer pushed into the cache is stored without any check.
-/

namespace Sui.StateSync

open Library
open List hiding after
open Std (ExtTreeMap)
open Sui.Types (Committee)

namespace Node

/-- What holds in every run from a store with its first checkpoint. -/
structure Sound
    (config : Config)
    (first highest : Checkpoint)
    (node : Node) : Prop where
  filed : node.peerHeights.Filed config.cryptography
  proper : node.store.Proper config.cryptography highest
  height : highest.sequenceNumber = first.sequenceNumber + node.inserted.length
  position : ∀ task, node.task = some task →
    task.current = highest ∧ task.next = highest.sequenceNumber + 1
  downloads : ∀ task, node.task = some task → ∀ (number : Nat) checkpoint peer,
    task.downloads[number]? = some (.finished (some checkpoint) peer) →
      checkpoint.sequenceNumber = number
  consecutive : node.inserted.map Checkpoint.sequenceNumber =
    List.range' (first.sequenceNumber + 1) node.inserted.length
  stored : ∀ checkpoint ∈ node.inserted,
    node.store.certifiedCheckpoints[checkpoint.sequenceNumber]? = some checkpoint
  linked : ∀ checkpoint ∈ node.inserted, config.pinnedDigest checkpoint.sequenceNumber = none →
      node.store.Linked config.cryptography checkpoint
  inOrder : node.panicked ≠ some .sequenceNumber

namespace Sound

variable {config : Config} {first highest : Checkpoint} {node after : Node}

theorem new {store : Store} (proper : store.Proper config.cryptography first) :
    Sound config first first (.new store) where
  filed := .empty
  proper := proper
  height := rfl
  position := by simp [Node.new]
  downloads := by simp [Node.new]
  consecutive := rfl
  stored := by simp [Node.new]
  linked := by simp [Node.new]
  inOrder := by simp [Node.new]

variable (sound : Sound config first highest node)

include sound

/-- A checkpoint of the run is not above the highest one. -/
theorem sequenceNumber_le (isInserted : checkpoint ∈ node.inserted) :
    checkpoint.sequenceNumber ≤ highest.sequenceNumber := by
  have listed : checkpoint.sequenceNumber ∈ node.inserted.map Checkpoint.sequenceNumber :=
    mem_map_of_mem isInserted
  rw [sound.consecutive, mem_range'_1] at listed
  have height := sound.height
  omega

/-- A download that starts or ends with the right checkpoint keeps the node sound. -/
theorem setDownload {task : SyncTask} (running : node.task = some task) {peerHeights : PeerHeights}
    (filed : peerHeights.Filed config.cryptography) (sequenceNumber : Nat) (download : Download)
    (right : ∀ checkpoint peer, download = .finished (some checkpoint) peer →
      checkpoint.sequenceNumber = sequenceNumber) :
    Sound config first highest
      { node with
        peerHeights := peerHeights
        task := some (task.setDownload sequenceNumber download) } :=
  { sound with
    filed := filed
    position := by
      rintro _ ⟨⟩
      exact sound.position task running
    downloads := by
      rintro _ ⟨⟩ number checkpoint peer found
      rcases Map.cases_of_getElem?_insert found with ⟨rfl, same⟩ | ⟨_, found⟩
      · exact right checkpoint peer same.symm
      · exact sound.downloads task running number checkpoint peer found }

/-- Inserting the checkpoint that comes next keeps the node sound. -/
theorem inserted {task : SyncTask} {store : Store} (running : node.task = some task)
    (downloaded : task.downloads[task.next]? = some (.finished (some checkpoint) peer))
    (verified : (config.pinnedDigest checkpoint.sequenceNumber).isSome = true ∨
      verifyCheckpoint config.cryptography task.current node.store checkpoint = .ok true)
    (isStore : node.store.insertCheckpoint config.cryptography checkpoint = .ok store) :
    Sound config first checkpoint
      { node with
        store := store
        task := some ⟨checkpoint, task.next + 1, task.target, task.downloads.erase task.next⟩
        inserted := node.inserted ++ [checkpoint] } := by
  obtain ⟨isCurrent, isNext⟩ := sound.position task running
  have isNumber := sound.downloads task running task.next checkpoint peer downloaded
  have successor : checkpoint.sequenceNumber = highest.sequenceNumber + 1 := isNumber.trans isNext
  obtain ⟨proper, adopts, certified⟩ :=
    Store.insertCheckpoint_spec sound.proper (by omega) isStore
  have height := sound.height
  refine ⟨sound.filed, proper, ?_, ?_, ?_, ?_, ?_, ?_, sound.inOrder⟩
  · rw [length_append, length_singleton]
    omega
  · rintro _ ⟨⟩
    exact ⟨rfl, congrArg (· + 1) isNumber.symm⟩
  · rintro _ ⟨⟩ number other peer' found
    exact sound.downloads task running number other peer' (Map.of_getElem?_erase found).2
  · rw [map_append, sound.consecutive, length_append, length_singleton,
      range'_concat, map_singleton, successor, height]
    congr 2
    omega
  · intro other listed
    rw [certified, Map.getElem?_insert]
    rcases mem_snoc.mp listed with earlier | isLast
    · have lower := sound.sequenceNumber_le earlier
      rw [if_neg (by omega)]
      exact sound.stored other earlier
    · rw [isLast, if_pos rfl]
  · intro other listed unpinned
    rcases mem_snoc.mp listed with earlier | rfl
    · have lower := sound.sequenceNumber_le earlier
      exact (sound.linked other earlier unpinned).mono adopts.kept certified (by omega)
    · rcases verified with pinned | verified
      · rw [unpinned] at pinned
        cases pinned
      · rw [isCurrent] at verified
        exact (linked_of_verifyCheckpoint sound.proper successor verified).mono
          adopts.kept certified le_rfl

/-- Every step keeps the invariant. -/
theorem change {action : Action} (change : Change config node action after) :
    ∃ highest', Sound config first highest' after := by
  cases change with
  | peers peerHeights task filed isTask =>
    refine ⟨highest, { sound with filed := filed sound.filed, position := ?_, downloads := ?_ }⟩
    · rintro task' rfl
      rcases isTask with same | none
      · exact sound.position task' same.symm
      · cases none
    · rintro task' rfl
      rcases isTask with same | none
      · exact sound.downloads task' same.symm
      · cases none
  | @start current checkpoint idle isCurrent higher =>
    refine ⟨highest, { sound with position := ?_, downloads := ?_ }⟩
    · rintro task ⟨⟩
      have isHighest : current = highest := Option.some.inj
        (isCurrent.symm.trans sound.proper.getHighestVerifiedCheckpoint)
      have bounded : checkpoint.sequenceNumber ≤ u64Max := checkpoint.summary.sequenceNumberBounded
      refine ⟨isHighest, ?_⟩
      rw [← isHighest]
      unfold saturatingSucc
      dsimp only
      omega
    · rintro task ⟨⟩ number checkpoint' peer found
      simp at found
  | request sequenceNumber running empty =>
    exact ⟨highest, sound.setDownload running sound.filed sequenceNumber _
      fun checkpoint peer isDownload => absurd isDownload (empty checkpoint peer)⟩
  | cached running found =>
    refine ⟨highest, sound.setDownload running sound.filed _ _ ?_⟩
    rintro checkpoint peer ⟨⟩
    exact sound.filed.sequenceNumber_eq found
  | answered peer running accepted =>
    refine ⟨highest, sound.setDownload running (sound.filed.insertCheckpoint _) _ _ ?_⟩
    rintro checkpoint peer ⟨⟩
    unfold accepts at accepted
    rw [Bool.and_eq_true, beq_iff_eq] at accepted
    exact accepted.1
  | inserted running downloaded verified isStore =>
    exact ⟨_, sound.inserted running downloaded verified isStore⟩
  | verifyPanic running downloaded panicked =>
    obtain ⟨isCurrent, isNext⟩ := sound.position _ running
    have isNumber := sound.downloads _ running _ _ _ downloaded
    obtain ⟨rfl, _⟩ := verifyCheckpoint_panic
      (isNumber.trans (isNext.trans (by rw [isCurrent]))) panicked
    exact ⟨highest, { sound with inOrder := by simp [die] }⟩
  | storePanic ofStore =>
    refine ⟨highest, { sound with inOrder := ?_ }⟩
    rcases ofStore with rfl | rfl | rfl <;> simp [die]

end Sound

/-- The condition on the steps: a checkpoint that is taken from the cache has the digest
that is pinned for its sequence number, if one is, and the committee of the epoch of a pinned
checkpoint is known. -/
def Meets (config : Config) (node : Node) : Action → Prop
  | .beginDownload number => ∀ checkpoint pinned,
      node.peerHeights.getCheckpointBySequenceNumber number = some checkpoint →
        config.pinnedDigest number = some pinned → checkpoint.digest config.cryptography = pinned
  | .consume => ∀ task, node.task = some task → ∀ checkpoint peer,
      task.downloads[task.next]? = some (.finished (some checkpoint) peer) →
        (config.pinnedDigest task.next).isSome = true →
          (node.store.getCommittee checkpoint.epoch).isSome = true
  | _ => True

/-- What holds in addition in a run whose steps meet the condition. -/
structure Trusted
    (config : Config)
    (highest : Checkpoint)
    (node : Node) : Prop where
  prepared : node.store.Prepared highest
  downloads : ∀ task, node.task = some task → ∀ (number : Nat) checkpoint peer pinned,
    task.downloads[number]? = some (.finished (some checkpoint) peer) →
      config.pinnedDigest number = some pinned → checkpoint.digest config.cryptography = pinned
  inserted : ∀ checkpoint ∈ node.inserted, ∀ pinned,
    config.pinnedDigest checkpoint.sequenceNumber = some pinned →
      checkpoint.digest config.cryptography = pinned
  known : node.panicked ≠ some .missingCommittee

namespace Trusted

variable {config : Config} {first highest : Checkpoint} {node after : Node}

/-- A download that starts or ends keeps what is pinned. -/
theorem setDownload (trusted : Trusted config highest node) {task : SyncTask}
    (running : node.task = some task) (peerHeights : PeerHeights) (sequenceNumber : Nat)
    (download : Download)
    (right : ∀ checkpoint peer pinned, download = .finished (some checkpoint) peer →
      config.pinnedDigest sequenceNumber = some pinned →
        checkpoint.digest config.cryptography = pinned) :
    Trusted config highest
      { node with
        peerHeights := peerHeights
        task := some (task.setDownload sequenceNumber download) } :=
  { trusted with
    downloads := by
      rintro _ ⟨⟩ number checkpoint peer pinned found isPinned
      rcases Map.cases_of_getElem?_insert found with ⟨rfl, same⟩ | ⟨_, found⟩
      · exact right checkpoint peer pinned same.symm isPinned
      · exact trusted.downloads task running number checkpoint peer pinned found isPinned }

/-- Every step that meets the condition keeps the invariant. -/
theorem change (sound : Sound config first highest node) (trusted : Trusted config highest node)
    (meets : Meets config node action) (change : Change config node action after) :
    ∃ highest', Sound config first highest' after ∧ Trusted config highest' after := by
  obtain ⟨highest', sound'⟩ := sound.change change
  refine ⟨highest', sound', ?_⟩
  have isHighest' := sound'.proper.getHighestVerifiedCheckpoint
  have unchanged (same : after.store = node.store) : highest = highest' := Option.some.inj
    (sound.proper.getHighestVerifiedCheckpoint.symm.trans (same ▸ isHighest'))
  cases change with
  | peers peerHeights task filed isTask =>
    obtain rfl := unchanged rfl
    refine { trusted with downloads := ?_ }
    rintro task' rfl
    rcases isTask with same | none
    · exact trusted.downloads task' same.symm
    · cases none
  | start idle isCurrent higher =>
    obtain rfl := unchanged rfl
    refine { trusted with downloads := ?_ }
    rintro task ⟨⟩ number checkpoint peer pinned found
    simp at found
  | request sequenceNumber running empty =>
    obtain rfl := unchanged rfl
    exact trusted.setDownload running _ sequenceNumber _
      fun checkpoint peer _ isDownload => absurd isDownload (empty checkpoint peer)
  | cached running found =>
    obtain rfl := unchanged rfl
    apply trusted.setDownload running
    rintro checkpoint peer pinned ⟨⟩ isPinned
    exact meets _ pinned found isPinned
  | answered peer running accepted =>
    obtain rfl := unchanged rfl
    apply trusted.setDownload running
    rintro checkpoint peer pinned ⟨⟩ isPinned
    unfold accepts at accepted
    rw [Bool.and_eq_true, beq_iff_eq] at accepted
    obtain ⟨isNumber, hasDigest⟩ := accepted
    rw [isNumber, isPinned] at hasDigest
    exact (beq_iff_eq.mp hasDigest).symm
  | @inserted task checkpoint peer store running downloaded verified isStore =>
    obtain ⟨isCurrent, isNext⟩ := sound.position _ running
    have isNumber := sound.downloads _ running _ _ _ downloaded
    have successor := isNumber.trans isNext
    obtain ⟨proper, adopts, _⟩ :=
      Store.insertCheckpoint_spec sound.proper (by omega) isStore
    have same : highest' = checkpoint := Option.some.inj
      (isHighest'.symm.trans proper.getHighestVerifiedCheckpoint)
    rw [same]
    have known : (node.store.getCommittee checkpoint.epoch).isSome = true := by
      rcases verified with pinned | verified
      · exact meets _ running _ _ downloaded (isNumber ▸ pinned)
      · rw [isCurrent] at verified
        obtain ⟨committee, found, _⟩ :=
          (linked_of_verifyCheckpoint sound.proper successor verified).quorum
        exact Option.isSome_of_eq_some found
    refine ⟨⟨?_, fun carries => ?_⟩, ?_, ?_, trusted.known⟩
    · exact isSome_of_kept (adopts.kept _) known
    · obtain ⟨committee, _, found⟩ :=
        adopts.carried checkpoint (List.mem_singleton_self _) carries
      exact Option.isSome_of_eq_some found
    · rintro _ ⟨⟩ number other peer' pinned found isPinned
      exact trusted.downloads _ running number other peer' pinned
        (Map.of_getElem?_erase found).2 isPinned
    · exact forall_mem_snoc.mpr ⟨trusted.inserted, fun pinned isPinned =>
        trusted.downloads _ running _ _ peer pinned downloaded (isNumber ▸ isPinned)⟩
  | verifyPanic running downloaded panicked =>
    obtain ⟨isCurrent, isNext⟩ := sound.position _ running
    have isNumber := sound.downloads _ running _ _ _ downloaded
    obtain ⟨_, unprepared⟩ := verifyCheckpoint_panic
      (isNumber.trans (isNext.trans (by rw [isCurrent]))) panicked
    rw [isCurrent] at unprepared
    exact absurd trusted.prepared unprepared
  | storePanic ofStore =>
    obtain rfl := unchanged rfl
    refine { trusted with known := ?_ }
    rcases ofStore with rfl | rfl | rfl <;> simp [die]

end Trusted

/-- Everything is allowed. -/
def Anything (_ : Node) (_ : Action) : Prop :=
  True

/-- The states that a node comes to from a store, with the allowed actions. -/
def Reachable (config : Config) (allowed : Node → Action → Prop) (store : Store) : Node → Prop :=
  Run (perform config) allowed (new store)

/-- Every reachable node is sound. -/
theorem Reachable.sound {store : Store} (proper : store.Proper config.cryptography first)
    (reachable : Reachable config Anything store node) :
    ∃ highest, Sound config first highest node := by
  refine Run.invariant reachable (fun node => ∃ highest, Sound config first highest node)
    ⟨first, .new proper⟩ ?_
  rintro before action after ⟨highest, sound⟩ _ performed
  exact sound.change (change_of_perform performed)

/-- Every reachable node is sound and follows the pinned digests. -/
theorem Reachable.trusted {store : Store} (proper : store.Proper config.cryptography first)
    (prepared : store.Prepared first) (reachable : Reachable config (Meets config) store node) :
    ∃ highest, Sound config first highest node ∧ Trusted config highest node := by
  refine Run.invariant reachable
    (fun node => ∃ highest, Sound config first highest node ∧ Trusted config highest node)
    ⟨first, .new proper, prepared, ?_, ?_, ?_⟩ ?_
  · simp [new]
  · simp [new]
  · simp [new]
  · rintro before action after ⟨highest, sound, trusted⟩ meets performed
    exact trusted.change sound meets (change_of_perform performed)

/-- The committees are those of the start and those that the inserted checkpoints carry. -/
theorem Reachable.adopts {store : Store} (proper : store.Proper config.cryptography first)
    (reachable : Reachable config Anything store node) :
    store.Adopts node.inserted node.store := by
  obtain ⟨_, adopts⟩ := Run.invariant reachable (fun node =>
    (∃ highest, Sound config first highest node) ∧ store.Adopts node.inserted node.store)
    ⟨⟨first, .new proper⟩, .refl store⟩ (by
      rintro before action after ⟨⟨highest, sound⟩, adopts⟩ _ performed
      have change := change_of_perform performed
      refine ⟨sound.change change, ?_⟩
      cases change with
      | inserted running downloaded _ isStore =>
        have isNext := (sound.position _ running).2
        have isNumber := sound.downloads _ running _ _ _ downloaded
        exact adopts.snoc (Store.insertCheckpoint_spec sound.proper (by omega) isStore).2.1
      | peers | start | request | cached | answered | verifyPanic | storePanic => exact adopts)
  exact adopts

/-- Whatever the peers do, checkpoints are stored in consecutive order, those that are not
pinned are linked to the stored one before and signed by a quorum of the committee of their
epoch, the committees are those of the start and those that the stored checkpoints carry, and
no checkpoint with another sequence number than the next one is verified.  In every
run in which what is taken from the cache for a pinned sequence number has the pinned digest,
and the committee of the epoch of a pinned checkpoint is known, the pinned checkpoints have
their digests and no committee is missing. -/
theorem synced_checkpoints_certified (config : Config) (store : Store) (first : Checkpoint)
    (proper : store.Proper config.cryptography first) (prepared : store.Prepared first) :
    (∀ node, Reachable config Anything store node → node.inserted.map Checkpoint.sequenceNumber =
          List.range' (first.sequenceNumber + 1) node.inserted.length ∧
        (∀ checkpoint ∈ node.inserted,
          node.store.certifiedCheckpoints[checkpoint.sequenceNumber]? = some checkpoint) ∧
        (∀ checkpoint ∈ node.inserted, config.pinnedDigest checkpoint.sequenceNumber = none →
            node.store.Linked config.cryptography checkpoint) ∧
        store.Adopts node.inserted node.store ∧ node.panicked ≠ some .sequenceNumber) ∧
      ∀ node, Reachable config (Meets config) store node → (∀ checkpoint ∈ node.inserted, ∀ pinned,
          config.pinnedDigest checkpoint.sequenceNumber = some pinned →
            checkpoint.digest config.cryptography = pinned) ∧
        node.panicked ≠ some .missingCommittee := by
  constructor
  · intro node reachable
    obtain ⟨highest, sound⟩ := reachable.sound proper
    exact ⟨sound.consecutive, sound.stored, sound.linked, reachable.adopts proper, sound.inOrder⟩
  · intro node reachable
    obtain ⟨highest, _, trusted⟩ := reachable.trusted proper prepared
    exact ⟨trusted.inserted, trusted.known⟩

/-! ## Runs with a committee of one -/

instance (config : Config) (node : Node) (action : Action) :
    Decidable (Meets config node action) :=
  match action with
  | .beginDownload number =>
    decidable_of_iff (∀ checkpoint ∈ node.peerHeights.getCheckpointBySequenceNumber number,
      ∀ pinned ∈ config.pinnedDigest number, checkpoint.digest config.cryptography = pinned)
      ⟨fun all _ _ cached isPinned => all _ cached _ isPinned,
        fun all _ cached _ isPinned => all _ _ cached isPinned⟩
  | .consume =>
    match running : node.task with
    | none => .isTrue (by simp [Meets, running])
    | some task =>
      match downloaded : task.downloads[task.next]? with
      | some (.finished (some checkpoint) peer) =>
        decidable_of_iff ((config.pinnedDigest task.next).isSome = true →
          (node.store.getCommittee checkpoint.epoch).isSome = true)
          (by simp [Meets, running, downloaded])
      | some (.finished none _) => .isTrue (by simp [Meets, running, downloaded])
      | some .requesting => .isTrue (by simp [Meets, running, downloaded])
      | none => .isTrue (by simp [Meets, running, downloaded])
  | .insertPeerInfo _ _ | .updatePeerInfo _ _ _ | .lostPeer _ | .startSync
  | .respond _ _ _ | .exhaust _ | .finish => .isTrue trivial

instance (node : Node) (action : Action) : Decidable (Anything node action) :=
  .isTrue trivial

/-- A hash without collisions, and signatures that all verify. -/
def exampleCryptography : Cryptography where
  hash summary := Encodable.encode (summary.epoch, summary.sequenceNumber,
    summary.previousDigest, summary.nextEpochCommittee, summary.content)
  collisionFree := by
    rintro ⟨_, _, _, _, _, _, _⟩ ⟨_, _, _, _, _, _, _⟩ same
    simpa using Encodable.encode_injective same
  verifyAll _ _ _ _ := true

/-- A summary with the signature of the only validator. -/
def exampleCheckpoint (epoch sequenceNumber : Nat) (previousDigest : Option CheckpointDigest)
    (content : Nat) : Checkpoint where
  summary := ⟨min epoch u64Max, min sequenceNumber u64Max, previousDigest, none, content,
    min_le_right _ _, min_le_right _ _⟩
  authSignature := ⟨min epoch u64Max, 0, [0], List.pairwise_singleton _ _⟩

/-- The genesis checkpoint. -/
def exampleGenesis : Checkpoint :=
  exampleCheckpoint 0 0 none 0

/-- The store at genesis. -/
def exampleStore : Store where
  certifiedCheckpoints := (∅ : ExtTreeMap Nat Checkpoint).insert 0 exampleGenesis
  checkpointByDigest := (∅ : ExtTreeMap CheckpointDigest Checkpoint).insert
    (exampleGenesis.digest exampleCryptography) exampleGenesis
  highestVerified := (0, exampleGenesis.digest exampleCryptography)
  committeeMap := (∅ : ExtTreeMap Nat Committee).insert 0
    ⟨0, [(0, 10000)], List.pairwise_singleton _ _, rfl⟩

theorem proper_exampleStore : exampleStore.Proper exampleCryptography exampleGenesis where
  certified := by decide +kernel
  byDigest := by decide +kernel
  watermark := rfl

theorem prepared_exampleStore : exampleStore.Prepared exampleGenesis where
  committee := by decide +kernel
  nextCommittee := by decide +kernel

/-- The checkpoint after genesis. -/
def exampleFirst : Checkpoint :=
  exampleCheckpoint 0 1 (some (exampleGenesis.digest exampleCryptography)) 0

/-- A configuration with one pinned checkpoint. -/
def exampleConfig (sequenceNumber : Nat) (pinned : Checkpoint) : Config where
  cryptography := exampleCryptography
  pinnedCheckpoints := [(sequenceNumber, pinned.digest exampleCryptography)]
  distinct := List.nodup_singleton _
  checkpointHeaderDownloadConcurrency := 10

/-- A peer pushes a checkpoint, and the node syncs to it from its cache. -/
def examplePush (checkpoint : Checkpoint) : List Action :=
  [.insertPeerInfo 7 ⟨0, true, 0, 0⟩, .updatePeerInfo 7 checkpoint none, .startSync,
    .beginDownload 1, .consume, .finish]

/-- A node that inserted a pinned checkpoint. -/
theorem synced_checkpoints_certified_first :
    ∃ node : Node, Reachable (exampleConfig 1 exampleFirst) (Meets (exampleConfig 1 exampleFirst))
        exampleStore node ∧ node.inserted = [exampleFirst] ∧
      ∀ checkpoint ∈ node.inserted, ∀ pinned,
        (exampleConfig 1 exampleFirst).pinnedDigest checkpoint.sequenceNumber = some pinned →
          checkpoint.digest exampleCryptography = pinned := by
  obtain ⟨node, reachable, inserted⟩ := exists_run (perform (exampleConfig 1 exampleFirst))
    (Meets (exampleConfig 1 exampleFirst)) (new exampleStore) (examplePush exampleFirst)
    (fun node => node.inserted = [exampleFirst])
    (by decide +kernel)
  exact ⟨node, reachable, inserted, ((synced_checkpoints_certified (exampleConfig 1 exampleFirst)
    exampleStore exampleGenesis proper_exampleStore prepared_exampleStore).2 node reachable).1⟩

/-- A checkpoint of a far epoch. -/
def exampleFar : Checkpoint :=
  exampleCheckpoint 5 1 none 0

/-- A pushed checkpoint is stored at a pinned sequence number although it has another digest.
After a pinned checkpoint whose epoch has no committee, the next checkpoint of that epoch
kills the process. -/
theorem forged_pinned_checkpoint_stored :
    (∃ node : Node, Reachable (exampleConfig 1 exampleFirst) Anything exampleStore node ∧
      node.inserted = [exampleCheckpoint 0 1 none 666] ∧
      (exampleConfig 1 exampleFirst).pinnedDigest 1 ≠
        some ((exampleCheckpoint 0 1 none 666).digest exampleCryptography)) ∧
      ∃ node : Node, Reachable (exampleConfig 1 exampleFar) Anything exampleStore node ∧
        node.panicked = some .missingCommittee := by
  constructor
  · obtain ⟨node, reachable, inserted⟩ := exists_run
      (perform (exampleConfig 1 exampleFirst)) Anything (new exampleStore)
      (examplePush (exampleCheckpoint 0 1 none 666))
      (fun node => node.inserted = [exampleCheckpoint 0 1 none 666])
      (by decide +kernel)
    exact ⟨node, reachable, inserted, by decide +kernel⟩
  · obtain ⟨node, reachable, panicked⟩ := exists_run
      (perform (exampleConfig 1 exampleFar)) Anything (new exampleStore)
      [.insertPeerInfo 7 ⟨0, true, 0, 0⟩, .updatePeerInfo 7 (exampleCheckpoint 5 2
          (some (exampleFar.digest exampleCryptography)) 0) none,
        .startSync, .beginDownload 1, .respond 1 7 (some exampleFar), .beginDownload 2, .consume,
        .consume] (fun node => node.panicked = some .missingCommittee)
      (by decide +kernel)
    exact ⟨node, reachable, panicked⟩

/-! ## Agreement -/

section

variable (sound : Sound config first highest node)

include sound

theorem Sound.sequenceNumber_eq (found : node.inserted[index]? = some checkpoint) :
    checkpoint.sequenceNumber = first.sequenceNumber + 1 + index := by
  have counted := congrArg (·[index]?) sound.consecutive
  obtain ⟨inside, rfl⟩ := List.getElem?_eq_some_iff.mp found
  simpa [inside] using counted

/-- A checkpoint that is not pinned names the one that was inserted before it. -/
theorem Sound.previous
    (found : node.inserted[index + 1]?.map Checkpoint.summary = some summary)
    (unpinned : config.pinnedDigest (first.sequenceNumber + 1 + (index + 1)) = none) :
    ∃ previous, node.inserted[index]?.map Checkpoint.summary = some previous ∧
      summary.previousDigest = some (config.cryptography.hash previous) := by
  obtain ⟨checkpoint, isInserted, rfl⟩ := Option.map_eq_some_iff.mp found
  have number := sound.sequenceNumber_eq isInserted
  rw [← number] at unpinned
  obtain ⟨linked, follows, isStored, named, _⟩ :=
    (sound.linked checkpoint (mem_of_getElem? isInserted) unpinned).previous
  obtain ⟨inside, _⟩ := List.getElem?_eq_some_iff.mp isInserted
  have isPrevious := getElem?_eq_getElem (Nat.lt_of_succ_lt inside)
  have same : linked.sequenceNumber = node.inserted[index].sequenceNumber := by
    rw [sound.sequenceNumber_eq isPrevious]
    omega
  rw [same, sound.stored _ (mem_of_getElem? isPrevious)] at isStored
  cases isStored
  exact ⟨_, congrArg _ isPrevious, named⟩

end

/-- Two nodes that have synced the same checkpoint have synced the same ones before it, back
to the last one that is pinned, whatever their peers sent to them. -/
theorem synced_checkpoints_agree (config : Config) (store : Store) (first : Checkpoint)
    (proper : store.Proper config.cryptography first) (left right : Node)
    (leftReachable : Reachable config Anything store left)
    (rightReachable : Reachable config Anything store right) (earlier later : Nat)
    (before : earlier ≤ later) (unpinned : ∀ index, earlier < index → index ≤ later →
      config.pinnedDigest (first.sequenceNumber + 1 + index) = none) (summary : CheckpointSummary)
    (isLeft : left.inserted[later]?.map Checkpoint.summary = some summary)
    (isRight : right.inserted[later]?.map Checkpoint.summary = some summary) :
    ∃ agreed, left.inserted[earlier]?.map Checkpoint.summary = some agreed ∧
      right.inserted[earlier]?.map Checkpoint.summary = some agreed := by
  obtain ⟨_, leftSound⟩ := leftReachable.sound proper
  obtain ⟨_, rightSound⟩ := rightReachable.sound proper
  induction later, before using Nat.le_induction generalizing summary with
  | base => exact ⟨summary, isLeft, isRight⟩
  | succ later before ih =>
    have isUnpinned := unpinned (later + 1) (Nat.lt_succ_of_le before) le_rfl
    obtain ⟨previous, isLeftPrevious, leftNamed⟩ := leftSound.previous isLeft isUnpinned
    obtain ⟨other, isRightPrevious, rightNamed⟩ := rightSound.previous isRight isUnpinned
    obtain rfl := config.cryptography.collisionFree
      (Option.some.inj (leftNamed.symm.trans rightNamed))
    exact ih (fun index after upTo => unpinned index after (upTo.trans (Nat.le_succ _)))
      previous isLeftPrevious isRightPrevious

/-- The checkpoint after the first one. -/
def exampleSecond : Checkpoint :=
  exampleCheckpoint 0 2 (some (exampleFirst.digest exampleCryptography)) 0

/-- The first checkpoint with another signature. -/
def exampleResigned : Checkpoint :=
  { exampleFirst with authSignature := ⟨0, 5, [0], List.pairwise_singleton _ _⟩ }

/-- A node gets the first checkpoint as an answer, another one from its cache and with another
signature, and they agree on its summary. -/
theorem synced_checkpoints_agree_second :
    ∃ left right : Node,
      Reachable (exampleConfig 1 exampleFirst) Anything exampleStore left ∧
      Reachable (exampleConfig 1 exampleFirst) Anything exampleStore right ∧
      left.inserted = [exampleFirst, exampleSecond] ∧
      right.inserted = [exampleResigned, exampleSecond] ∧
      ∃ agreed, left.inserted[0]?.map Checkpoint.summary = some agreed ∧
        right.inserted[0]?.map Checkpoint.summary = some agreed := by
  obtain ⟨left, leftReachable, isLeft⟩ := exists_run (perform (exampleConfig 1 exampleFirst))
    Anything (new exampleStore)
    [.insertPeerInfo 7 ⟨0, true, 0, 0⟩, .updatePeerInfo 7 exampleSecond none, .startSync,
      .beginDownload 1, .respond 1 7 (some exampleFirst), .beginDownload 2, .consume, .consume]
    (fun node => node.inserted = [exampleFirst, exampleSecond]) (by decide +kernel)
  obtain ⟨right, rightReachable, isRight⟩ := exists_run (perform (exampleConfig 1 exampleFirst))
    Anything (new exampleStore)
    [.insertPeerInfo 8 ⟨0, true, 0, 0⟩, .updatePeerInfo 8 exampleResigned none,
      .updatePeerInfo 8 exampleSecond none, .startSync, .beginDownload 2, .beginDownload 1,
      .consume, .consume, .finish]
    (fun node => node.inserted = [exampleResigned, exampleSecond]) (by decide +kernel)
  refine ⟨left, right, leftReachable, rightReachable, isLeft, isRight,
    synced_checkpoints_agree (exampleConfig 1 exampleFirst) exampleStore exampleGenesis
      proper_exampleStore left right leftReachable rightReachable 0 1 (by decide)
      (fun index above upTo => ?_) exampleSecond.summary (by rw [isLeft]; rfl)
      (by rw [isRight]; rfl)⟩
  obtain rfl : index = 1 := le_antisymm upTo above
  decide +kernel

end Node

end Sui.StateSync
