import Sui.Authority.Store
import Sui.Library.Run

/-!
# The last message of an epoch

A validator persists the transactions that it submits to consensus, and a task waits until
consensus has processed them.  When the epoch is closed, the validator takes no more
certificates from users.  It submits `EndOfPublish` when none of its certificates is pending.

The process may crash between any two writes to the database.  A validator that is restarted
submits again what is persisted.
-/

namespace Sui.ConsensusAdapter

open Library
open List hiding after
open Authority (TransactionDigest)

inductive ReconfigCertStatus
  | acceptAllCerts
  | rejectUserCerts
  | rejectAllCerts
  deriving DecidableEq

/-- What is submitted to consensus, up to what its key says. -/
inductive ConsensusTransaction
  | userTransaction (digest : TransactionDigest)
  | endOfPublish
  /-- The other kinds and messages, which nothing here tells apart. -/
  | other (key : Nat)
  deriving DecidableEq

/-- What is in progress. -/
inductive Process
  /-- A certificate is persisted under the read lock, and has to be noted in memory. -/
  | inserting (digest : TransactionDigest)
  | waiting (transaction : ConsensusTransaction)
  | removed (transaction : ConsensusTransaction)
  /-- The task of a certificate has to see whether it was the last one. -/
  | deciding
  | sending
  | recovering
  | recovered (transactions : List ConsensusTransaction)
  | resubmitting (transactions : List ConsensusTransaction)
  deriving DecidableEq

/-- A validator in an epoch. -/
structure Node where
  /-- The state of the reconfiguration, in memory and in the database. -/
  reconfigState : ReconfigCertStatus
  pendingConsensusTransactions : List ConsensusTransaction
  consensusMessageProcessed : List ConsensusTransaction
  /-- The pending certificates, in memory. -/
  pendingConsensusCertificates : List TransactionDigest
  processes : List Process

inductive Action
  | submitCertificate (digest : TransactionDigest)
  | submitOther (key : Nat)
  | process (transaction : ConsensusTransaction)
  | closeEpoch
  /-- A quorum has sent `EndOfPublish`. -/
  | closeAllCerts
  | step (process : Process)
  | crash
  deriving DecidableEq

namespace Node

/-- A validator at the start of an epoch. -/
def new : Node :=
  ⟨.acceptAllCerts, [], [], [], []⟩

/-- Persist a transaction and start its task. -/
def submit (node : Node) (transaction : ConsensusTransaction) : Node :=
  { node with
    pendingConsensusTransactions := node.pendingConsensusTransactions.insert transaction
    processes := .waiting transaction :: node.processes }

/-- Users are rejected, and no certificate is pending. -/
def Drained (node : Node) : Prop :=
  node.reconfigState = .rejectUserCerts ∧ node.pendingConsensusCertificates = []

instance (node : Node) : Decidable node.Drained :=
  inferInstanceAs (Decidable (_ ∧ _))

def closeEpoch (node : Node) : Node :=
  if node.reconfigState = .acceptAllCerts then
    { node with
      reconfigState := .rejectUserCerts
      processes :=
        if node.pendingConsensusCertificates = [] then
          .sending :: node.processes
        else
          node.processes }
  else
    node

/-- What recovery submits. -/
def submitRecovered (node : Node) (recovered : List ConsensusTransaction) :
    List ConsensusTransaction :=
  if node.Drained ∧ .endOfPublish ∈ recovered then
    recovered ++ [.endOfPublish]
  else
    recovered

/-- Let a process go on that was taken off the list. -/
def advance (node : Node) : Process → Option Node
  | .inserting digest =>
    some { node with
      pendingConsensusCertificates := node.pendingConsensusCertificates.insert digest
      processes := .waiting (.userTransaction digest) :: node.processes }
  | .waiting transaction =>
    if transaction ∈ node.consensusMessageProcessed then
      some { node with
        pendingConsensusTransactions :=
          node.pendingConsensusTransactions.filter (· ≠ transaction)
        processes := .removed transaction :: node.processes }
    else
      none
  | .removed (.userTransaction digest) =>
    some { node with
      pendingConsensusCertificates := node.pendingConsensusCertificates.filter (· ≠ digest)
      processes := .deciding :: node.processes }
  | .removed _ => some node
  | .deciding =>
    some (if node.Drained then { node with processes := .sending :: node.processes } else node)
  | .sending => some (node.submit .endOfPublish)
  | .recovering =>
    some { node with
      processes := .recovered node.pendingConsensusTransactions :: node.processes }
  | .recovered transactions =>
    some { node with
      processes := .resubmitting (node.submitRecovered transactions) :: node.processes }
  | .resubmitting [] => some node
  | .resubmitting (transaction :: transactions) =>
    some { node with
      processes := .waiting transaction :: .resubmitting transactions :: node.processes }

/-- The certificates in the table. -/
def persistedCertificates (node : Node) : List TransactionDigest :=
  node.pendingConsensusTransactions.filterMap fun transaction => match transaction with
    | .userTransaction digest => some digest
    | _ => none

/-- No one holds the read lock of the state. -/
def unlocked (node : Node) : Bool :=
  node.processes.all fun process => match process with
    | .inserting _ => false
    | _ => true

def perform (node : Node) : Action → Option Node
  | .submitCertificate digest =>
    if node.reconfigState = .acceptAllCerts then
      some { node with
        pendingConsensusTransactions :=
          node.pendingConsensusTransactions.insert (.userTransaction digest)
        processes := .inserting digest :: node.processes }
    else
      none
  | .submitOther key => some (node.submit (.other key))
  | .process transaction =>
    some { node with
      consensusMessageProcessed := transaction :: node.consensusMessageProcessed }
  | .closeEpoch => if node.unlocked then some node.closeEpoch else none
  | .closeAllCerts =>
    if node.unlocked then some { node with reconfigState := .rejectAllCerts } else none
  | .step process =>
    if process ∈ node.processes then
      { node with processes := node.processes.erase process }.advance process
    else
      none
  | .crash =>
    some { node with
      pendingConsensusCertificates := node.persistedCertificates
      processes := [.recovering] }

/-- `EndOfPublish` is persisted, or consensus has processed it. -/
def Announced (node : Node) : Prop :=
  .endOfPublish ∈ node.pendingConsensusTransactions ∨ .endOfPublish ∈ node.consensusMessageProcessed

/-- A crash does not strike when `EndOfPublish` has to be submitted and is not persisted. -/
def Allowed (node : Node) (action : Action) : Prop :=
  action = .crash → node.reconfigState = .rejectUserCerts →
    node.persistedCertificates ≠ [] ∨ node.Announced

instance (node : Node) (action : Action) : Decidable (node.Allowed action) :=
  inferInstanceAs (Decidable (_ → _ → _ ∨ _ ∨ _))

end Node

/-- The transactions that have a task, or get one. -/
def Process.transactions : Process → List ConsensusTransaction
  | .waiting transaction => [transaction]
  | .recovered transactions => transactions
  | .resubmitting transactions => transactions
  | _ => []

/-- Neither closing the epoch nor removing a transaction nor recovery. -/
def Process.idle : Process → Bool
  | .inserting _ => true
  | .waiting _ => true
  | _ => false

namespace Node

def tasks (node : Node) : List ConsensusTransaction :=
  node.processes.flatMap Process.transactions

/-- What holds between the tables and what is in progress. -/
structure Sound (node : Node) : Prop where
  persisted : .endOfPublish ∈ node.tasks → node.Announced
  tasked : .endOfPublish ∈ node.pendingConsensusTransactions →
    .endOfPublish ∈ node.consensusMessageProcessed ∨ .recovering ∈ node.processes ∨
      .endOfPublish ∈ node.tasks
  announced : node.Drained → node.Announced ∨ .deciding ∈ node.processes ∨ .sending ∈ node.processes

attribute [local grind] Process.transactions tasks Drained Announced submit submitRecovered

/-- A process that goes on keeps the tables sound. -/
theorem Sound.advance {node after : Node}
    (sound : Sound { node with processes := process :: node.processes })
    (advanced : node.advance process = some after) :
    after.Sound := by
  obtain ⟨persisted, tasked, announced⟩ := sound
  cases process with
  | inserting digest =>
    have pending : node.pendingConsensusCertificates.insert digest ≠ [] :=
      ne_nil_of_mem mem_insert_self
    cases advanced
    constructor <;> grind
  | waiting transaction =>
    -- what leaves the table is processed
    obtain ⟨processed, ⟨⟩⟩ := Option.ite_none_right_eq_some.mp advanced
    constructor <;> grind
  | removed transaction => cases transaction <;> cases advanced <;> constructor <;> grind
  | resubmitting transactions => cases transactions <;> cases advanced <;> constructor <;> grind
  | _ =>
    cases advanced
    constructor <;> grind

/-- Every allowed action keeps the tables sound. -/
theorem Sound.perform {node after : Node} (sound : node.Sound) (allowed : node.Allowed action)
    (performed : node.perform action = some after) :
    after.Sound := by
  obtain ⟨persisted, tasked, announced⟩ := sound
  cases action with
  | submitCertificate digest =>
    obtain ⟨_, ⟨⟩⟩ := Option.ite_none_right_eq_some.mp performed
    constructor <;> grind
  | closeEpoch =>
    obtain ⟨_, ⟨⟩⟩ := Option.ite_none_right_eq_some.mp performed
    unfold closeEpoch
    constructor <;> grind
  | closeAllCerts =>
    obtain ⟨_, ⟨⟩⟩ := Option.ite_none_right_eq_some.mp performed
    constructor <;> grind
  | step process =>
    obtain ⟨running, advanced⟩ := Option.ite_none_right_eq_some.mp performed
    have same := perm_cons_erase running
    have sameTasks := (same.flatMap_right Process.transactions).mem_iff (a := .endOfPublish)
    refine Sound.advance ?_ advanced
    constructor <;> grind [Perm.mem_iff]
  | crash =>
    have recoverable := allowed rfl
    cases performed
    constructor <;> grind
  | _ =>
    cases performed
    constructor <;> grind

/-- When users are rejected, no certificate is pending and nothing else is in progress,
`EndOfPublish` is persisted and has a task, or consensus has processed it. -/
theorem endOfPublish_not_lost {node : Node} (run : Run perform Allowed new node)
    (drained : node.Drained) (idle : ∀ process ∈ node.processes, process.idle = true) :
    (.endOfPublish ∈ node.pendingConsensusTransactions ∧ .waiting .endOfPublish ∈ node.processes) ∨
      .endOfPublish ∈ node.consensusMessageProcessed := by
  have start : new.Sound := by
    constructor <;> simp [new, tasks, Drained]
  have sound : node.Sound :=
    run.invariant Sound start fun _ _ _ before allowed performed => before.perform allowed performed
  rw [or_iff_not_imp_right]
  intro unprocessed
  have persisted : .endOfPublish ∈ node.pendingConsensusTransactions := by
    rcases sound.announced drained with (persisted | processed) | deciding | sending
    · exact persisted
    · exact absurd processed unprocessed
    · cases idle _ deciding
    · cases idle _ sending
  refine ⟨persisted, ?_⟩
  rcases sound.tasked persisted with processed | recovering | tasked
  · exact absurd processed unprocessed
  · cases idle _ recovering
  · obtain ⟨process, running, handled⟩ := mem_flatMap.mp tasked
    cases process with
    | waiting transaction =>
      cases mem_singleton.mp handled
      exact running
    | inserting digest => cases handled
    | _ => cases idle _ running

/-- The epoch is closed when no certificate is pending.  The process crashes after
`EndOfPublish` was persisted, and recovery starts its task again. -/
theorem endOfPublish_not_lost_closed :
    ∃ crashed node, Run perform Allowed new crashed ∧ crashed.processes = [.recovering] ∧
      Run perform Allowed crashed node ∧ node.Drained ∧
      .waiting .endOfPublish ∈ node.processes := by
  have crashes : performAll perform Allowed [.closeEpoch, .step .sending, .crash] new =
      some ⟨.rejectUserCerts, [.endOfPublish], [], [], [.recovering]⟩ := rfl
  have recovers : performAll perform Allowed [.step .recovering,
      .step (.recovered [.endOfPublish]), .step (.resubmitting [.endOfPublish, .endOfPublish]),
      .step (.resubmitting [.endOfPublish]), .step (.resubmitting [])]
      ⟨.rejectUserCerts, [.endOfPublish], [], [], [.recovering]⟩ =
      some ⟨.rejectUserCerts, [.endOfPublish], [], [],
        [.waiting .endOfPublish, .waiting .endOfPublish]⟩ := rfl
  have crashed := Run.performAll .refl crashes
  have kept := endOfPublish_not_lost (crashed.performAll recovers) (by decide) (by decide)
  exact ⟨_, _, crashed, rfl, Run.performAll .refl recovers, by decide,
    (kept.resolve_right (by decide)).2⟩

/-- The process crashes after the epoch was closed. -/
theorem endOfPublish_lost :
    ∃ node, Run perform (fun _ _ => True) new node ∧ node.Drained ∧ node.processes = [] ∧
      node.pendingConsensusTransactions = [] ∧ node.consensusMessageProcessed = [] :=
  exists_run perform _ new [.closeEpoch, .crash, .step .recovering, .step (.recovered []),
    .step (.resubmitting [])] _ (by decide)

end Node

end Sui.ConsensusAdapter
