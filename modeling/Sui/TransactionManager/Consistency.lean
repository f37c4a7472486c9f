import Sui.TransactionManager.Manager

/-!
# Locks of transactions on inputs

What the tables of the manager are for: every transaction waits for or holds locks on its
inputs.  The locks on one input are independent of those on others, so that a queue is
compared with the locks on its input alone.

A default lock is acquired only when no other transaction waits for or holds a read-only
lock.  Nothing prevents a read-only lock from being acquired while a default lock is held.
-/

namespace Sui.TransactionManager

open Library Std.ExtTreeSet
open Authority (TransactionDigest)
open Std (ExtTreeSet)

/-- A lock that a transaction holds or waits for. -/
structure Lock where
  mode : LockMode
  held : Bool
  deriving DecidableEq

/-- The locks of transactions on one input. -/
abbrev Column := TransactionDigest → Option Lock

namespace Column

def set (column : Column) (digest : TransactionDigest) (lock : Option Lock) : Column :=
  fun other => if other = digest then lock else column other

/-- A transaction waits for or holds a read-only lock. -/
def ReadOnly (column : Column) (digest : TransactionDigest) : Prop :=
  ∃ held, column digest = some ⟨.readOnly, held⟩

/-- Some transactions acquire the locks for which they wait. -/
def grant (column : Column) (digests : ExtTreeSet TransactionDigest) : Column :=
  fun digest =>
    if digest ∈ digests then (column digest).map fun lock => { lock with held := true }
    else column digest

/-- Whoever still waits needs a default lock, and there is a read-only lock. -/
def Settled (column : Column) : Prop :=
  ∀ digest mode, column digest = some ⟨mode, false⟩ →
    mode = .default ∧ ∃ reader, column.ReadOnly reader

end Column

/-! ## Queues -/

namespace LockQueue

/-- A queue lists the locks on its input. -/
structure Lists (queue : LockQueue) (column : Column) : Prop where
  waiters : ∀ digest mode, digest ∈ queue.waiters mode ↔ column digest = some ⟨mode, false⟩
  holders : ∀ digest, digest ∈ queue.readonlyHolders ↔ column digest = some ⟨.readOnly, true⟩

variable {queue : LockQueue} {column : Column}

theorem eq_empty_of_isEmpty (isEmpty : queue.isEmpty = true) : queue = .empty := by
  simp only [LockQueue.isEmpty, Bool.and_eq_true] at isEmpty
  obtain ⟨⟨waiters, holders⟩, defaults⟩ := isEmpty
  cases queue
  simp_all [LockQueue.empty]

theorem Lists.mem_readonlyWaiters (lists : queue.Lists column) {digest : TransactionDigest} :
    digest ∈ queue.readonlyWaiters ↔ column digest = some ⟨.readOnly, false⟩ :=
  lists.waiters digest .readOnly

theorem Lists.mem_defaultWaiters (lists : queue.Lists column) {digest : TransactionDigest} :
    digest ∈ queue.defaultWaiters ↔ column digest = some ⟨.default, false⟩ :=
  lists.waiters digest .default

theorem isEmpty_eq_false_iff {digests : ExtTreeSet TransactionDigest} :
    digests.isEmpty = false ↔ ∃ digest, digest ∈ digests := by
  rw [← isEmpty_toList, List.isEmpty_eq_false_iff_exists_mem]
  simp only [mem_toList]

/-- The queue has a reader exactly if the column does. -/
theorem Lists.hasReadonly_iff (lists : queue.Lists column) :
    queue.hasReadonly = true ↔ ∃ digest, column.ReadOnly digest := by
  unfold LockQueue.hasReadonly
  rw [Bool.not_eq_true', Bool.and_eq_false_iff, isEmpty_eq_false_iff, isEmpty_eq_false_iff]
  constructor
  · rintro (⟨digest, waits⟩ | ⟨digest, holds⟩)
    · exact ⟨digest, false, lists.mem_readonlyWaiters.mp waits⟩
    · exact ⟨digest, true, (lists.holders digest).mp holds⟩
  · rintro ⟨digest, held, locked⟩
    cases held with
    | false => exact .inl ⟨digest, lists.mem_readonlyWaiters.mpr locked⟩
    | true => exact .inr ⟨digest, (lists.holders digest).mpr locked⟩

/-- The queue is empty exactly if there are only holders that write. -/
theorem Lists.isEmpty_iff (lists : queue.Lists column) :
    queue.isEmpty = true ↔ ∀ digest lock, column digest = some lock → lock = ⟨.default, true⟩ := by
  constructor
  · intro isEmpty digest lock locked
    obtain rfl := eq_empty_of_isEmpty isEmpty
    obtain ⟨mode, held⟩ := lock
    cases held with
    | false => exact absurd ((lists.waiters digest mode).mpr locked) (by
        cases mode <;> exact not_mem_empty)
    | true =>
      cases mode with
      | default => rfl
      | readOnly =>
        exact absurd ((lists.holders digest).mpr locked) not_mem_empty
  · intro onlyDefault
    by_contra nonempty
    unfold LockQueue.isEmpty at nonempty
    rw [Bool.not_eq_true, Bool.and_eq_false_iff, Bool.and_eq_false_iff] at nonempty
    simp only [isEmpty_eq_false_iff] at nonempty
    rcases nonempty with (⟨digest, waits⟩ | ⟨digest, holds⟩) | ⟨digest, waits⟩
    · cases onlyDefault digest _ (lists.mem_readonlyWaiters.mp waits)
    · cases onlyDefault digest _ ((lists.holders digest).mp holds)
    · cases onlyDefault digest _ (lists.mem_defaultWaiters.mp waits)

/-! ### Giving out the lock -/

/-- Only waiters are chosen, and for default locks only when there is no read-only
lock. -/
theorem Lists.mem_takeWaiters (lists : queue.Lists column) (chosen : digest ∈ queue.takeWaiters.1) :
    ∃ mode, column digest = some ⟨mode, false⟩ ∧
      (mode = .default → ∀ reader, ¬column.ReadOnly reader) := by
  unfold takeWaiters at chosen
  split at chosen
  · exact ⟨.readOnly, lists.mem_readonlyWaiters.mp chosen, nofun⟩
  · next noWaiters =>
    split at chosen
    · next noHolders =>
      refine ⟨.default, lists.mem_defaultWaiters.mp chosen, ?_⟩
      rintro - reader readOnly
      have hasReadonly := lists.hasReadonly_iff.mpr ⟨reader, readOnly⟩
      unfold LockQueue.hasReadonly at hasReadonly
      simp_all
    · exact absurd chosen not_mem_empty

/-- The queue that is left lists the locks after some were given out. -/
theorem Lists.takeWaiters (lists : queue.Lists column) :
    queue.takeWaiters.2.Lists (column.grant queue.takeWaiters.1) := by
  unfold LockQueue.takeWaiters
  split
  · -- All waiters for the read-only lock get it.
    constructor
    · intro digest mode
      dsimp only [Column.grant]
      cases mode with
      | default =>
        dsimp only [LockQueue.waiters]
        rw [lists.mem_defaultWaiters]
        split
        · next waits => simp [lists.mem_readonlyWaiters.mp waits]
        · rfl
      | readOnly =>
        dsimp only [LockQueue.waiters]
        split
        · next waits => simp [lists.mem_readonlyWaiters.mp waits]
        · next others =>
          rw [lists.mem_readonlyWaiters] at others
          simp [others]
    · intro digest
      dsimp only [Column.grant]
      rw [mem_union_iff, lists.holders]
      split
      · next waits => simp [waits, lists.mem_readonlyWaiters.mp waits]
      · next others => simp [others]
  · split
    · -- All waiters for the default lock get it.
      constructor
      · intro digest mode
        dsimp only [Column.grant]
        cases mode with
        | default =>
          dsimp only [LockQueue.waiters]
          split
          · next waits => simp [lists.mem_defaultWaiters.mp waits]
          · next others =>
            rw [lists.mem_defaultWaiters] at others
            simp [others]
        | readOnly =>
          dsimp only [LockQueue.waiters]
          rw [lists.mem_readonlyWaiters]
          split
          · next waits => simp [lists.mem_defaultWaiters.mp waits]
          · rfl
      · intro digest
        dsimp only [Column.grant]
        rw [lists.holders]
        split
        · next waits => simp [lists.mem_defaultWaiters.mp waits]
        · rfl
    · exact lists

/-- Whoever still waits has to wait for a reader. -/
theorem Lists.settled_takeWaiters (lists : queue.Lists column) :
    (column.grant queue.takeWaiters.1).Settled := by
  intro digest mode waits
  have listed := (lists.takeWaiters.waiters digest mode).mpr waits
  have reader : queue.takeWaiters.2.hasReadonly = true →
      ∃ reader, (column.grant queue.takeWaiters.1).ReadOnly reader :=
    lists.takeWaiters.hasReadonly_iff.mp
  unfold LockQueue.takeWaiters at listed reader ⊢
  split
  · next someWaiter =>
    rw [if_pos someWaiter] at listed reader
    cases mode with
    | readOnly => exact absurd listed not_mem_empty
    | default =>
      refine ⟨rfl, reader ?_⟩
      simp [LockQueue.hasReadonly, isEmpty_union, someWaiter]
  · next noWaiter =>
    rw [if_neg noWaiter] at listed reader
    split
    · next noHolder =>
      rw [if_pos noHolder] at listed
      cases mode with
      | default => exact absurd listed not_mem_empty
      | readOnly =>
        have waiting := isEmpty_eq_false_iff.mpr ⟨digest, listed⟩
        simp_all [LockQueue.waiters]
    · next someHolder =>
      rw [if_neg someHolder] at listed reader
      cases mode with
      | default =>
        refine ⟨rfl, reader ?_⟩
        simp [LockQueue.hasReadonly, someHolder]
      | readOnly =>
        have waiting := isEmpty_eq_false_iff.mpr ⟨digest, listed⟩
        simp_all [LockQueue.waiters]

/-! ### Joining and leaving the queue -/

section

variable {digests : ExtTreeSet TransactionDigest} {lock : Lock}
  (listed : ∀ other, other ∈ digests ↔ column other = some lock)

include listed

theorem mem_iff_set (before : column digest = old) (wasOther : old ≠ some lock)
    (new : Option Lock) (isOther : new ≠ some lock) (other : TransactionDigest) :
    other ∈ digests ↔ column.set digest new other = some lock := by
  rw [listed, Column.set]
  split
  · next same => simp [same, before, wasOther, isOther]
  · rfl

theorem mem_insert_iff_set (other : TransactionDigest) :
    other ∈ digests.insert digest ↔ column.set digest (some lock) other = some lock := by
  rw [mem_insert, Std.compare_eq_iff_eq, listed, Column.set]
  split
  · next same => simp [same]
  · next different => simp [Ne.symm different]

end

/-- A new waiter is queued. -/
theorem Lists.insertWaiter (lists : queue.Lists column) (unlocked : column digest = none)
    (mode : LockMode) :
    ∃ queue', queue.insertWaiter digest mode = .ok queue' ∧
      queue'.Lists (column.set digest (some ⟨mode, false⟩)) := by
  have fresh : ∀ mode, digest ∉ queue.waiters mode := by
    intro mode waits
    rw [lists.waiters, unlocked] at waits
    cases waits
  have holders := mem_iff_set lists.holders unlocked nofun (some ⟨mode, false⟩) nofun
  cases mode with
  | default =>
    refine ⟨_, bind_of (require_of (fresh .default)) rfl, ?_, holders⟩
    rintro other (_ | _)
    · exact mem_insert_iff_set (lists.waiters · .default) other
    · exact mem_iff_set (lists.waiters · .readOnly) unlocked nofun (some ⟨.default, false⟩) nofun
        other
  | readOnly =>
    refine ⟨_, bind_of (require_of (fresh .readOnly)) rfl, ?_, holders⟩
    rintro other (_ | _)
    · exact mem_iff_set (lists.waiters · .default) unlocked nofun (some ⟨.readOnly, false⟩) nofun
        other
    · exact mem_insert_iff_set (lists.waiters · .readOnly) other

/-- A new reader holds at once. -/
theorem Lists.insertHolder (lists : queue.Lists column) (unlocked : column digest = none) :
    ∃ queue', queue.insertHolder digest = .ok queue' ∧
      queue'.Lists (column.set digest (some ⟨.readOnly, true⟩)) := by
  have fresh : digest ∉ queue.readonlyHolders := by
    rw [lists.holders, unlocked]
    exact Option.some_ne_none _ ∘ Eq.symm
  refine ⟨_, bind_of (require_of fresh) rfl, ?_, mem_insert_iff_set lists.holders⟩
  intro other mode
  have waits := mem_iff_set (lists.waiters · mode) unlocked nofun (some ⟨.readOnly, true⟩) nofun
    other
  cases mode <;> exact waits

/-- A holder leaves. -/
theorem Lists.removeHolder (lists : queue.Lists column)
    (holds : column digest = some ⟨.readOnly, true⟩) :
    ∃ queue', queue.removeHolder digest = .ok queue' ∧ queue'.Lists (column.set digest none) := by
  have listed : digest ∈ queue.readonlyHolders := (lists.holders digest).mpr holds
  refine ⟨_, bind_of (require_of listed) rfl, ?_, ?_⟩
  · intro other mode
    have waits := mem_iff_set (lists.waiters · mode) holds nofun none nofun other
    cases mode <;> exact waits
  · intro other
    dsimp only [Column.set]
    rw [mem_erase, ne_eq, Std.compare_eq_iff_eq, lists.holders]
    split
    · next here => simp [here]
    · next different => simp [Ne.symm different]

end LockQueue

/-! ## What the tables say

The pending and executing certificates determine who waits for and who holds which lock.  The
queues and the counters repeat that, by input and by object. -/

open Std.ExtTreeMap
open List hiding after lookup
open Authority (ObjectID)

/-! ## Tables of locks -/

/-- The locks of all transactions. -/
abbrev LockTable := TransactionDigest → InputKey → Option Lock

namespace LockTable

def column (table : LockTable) (key : InputKey) : Column :=
  fun digest => table digest key

/-- Replace the locks on one input. -/
def setColumn (table : LockTable) (key : InputKey) (column : Column) : LockTable :=
  fun digest lookup => if lookup = key then column digest else table digest lookup

/-- Replace one lock. -/
def set (table : LockTable) (digest : TransactionDigest) (key : InputKey)
    (lock : Option Lock) : LockTable :=
  table.setColumn key ((table.column key).set digest lock)

/-- Replace the locks of one transaction. -/
def setRow (table : LockTable) (digest : TransactionDigest)
    (locks : InputKey → Option Lock) : LockTable :=
  fun other key => if other = digest then locks key else table other key

/-- Some transactions acquire the locks on an input for which they wait. -/
def grant (table : LockTable) (key : InputKey) (digests : ExtTreeSet TransactionDigest) :
    LockTable :=
  table.setColumn key ((table.column key).grant digests)

/-- How the lock of a transaction on an input changes.  Locks are joined when transactions are
enqueued, and released by the transaction that is committed. -/
inductive Moves (committed : Option TransactionDigest) (digest : TransactionDigest) :
    Option Lock → Option Lock → Prop
  | join (enqueuing : committed = none) (lock : Lock) : Moves committed digest none (some lock)
  | acquire (mode : LockMode) : Moves committed digest (some ⟨mode, false⟩) (some ⟨mode, true⟩)
  | release (isCommitted : committed = some digest) (mode : LockMode) :
    Moves committed digest (some ⟨mode, true⟩) none

/-- One lock changes.  A default lock is acquired only when no other transaction waits for
or holds a read-only lock on the input. -/
def Step (committed : Option TransactionDigest) (table next : LockTable) : Prop :=
  ∃ digest key lock, next = table.set digest key lock ∧
    Moves committed digest (table digest key) lock ∧ (lock = some ⟨.default, true⟩ →
      ∀ other, other ≠ digest → ¬(table.column key).ReadOnly other)

/-- Locks change one after the other while transactions are enqueued, or one is committed. -/
def Steps (committed : Option TransactionDigest) : LockTable → LockTable → Prop :=
  Relation.ReflTransGen (Step committed)

@[simp] theorem column_setColumn (table : LockTable) (key : InputKey) (column : Column) :
    (table.setColumn key column).column key = column := by
  funext digest
  exact if_pos rfl

theorem column_setColumn_of_ne (table : LockTable) (different : lookup ≠ key) (column : Column) :
    (table.setColumn key column).column lookup = table.column lookup := by
  funext digest
  exact if_neg different

theorem setColumn_self (table : LockTable) (key : InputKey) :
    table.setColumn key (table.column key) = table := by
  funext digest lookup
  unfold setColumn
  split
  · next same => rw [same, column]
  · rfl

end LockTable

/-- Locks change one after the other.  A default lock is acquired only if no other
transaction has a read-only lock, before or after all changes. -/
theorem LockTable.steps_of_changes {table next : LockTable}
    {changes : List (TransactionDigest × InputKey)} (distinct : changes.Nodup)
    (same : ∀ digest key, (digest, key) ∉ changes → next digest key = table digest key)
    (moves : ∀ digest key, (digest, key) ∈ changes →
      Moves committed digest (table digest key) (next digest key))
    (guarded : ∀ digest key, (digest, key) ∈ changes → next digest key = some ⟨.default, true⟩ →
      ∀ other, ¬(table.column key).ReadOnly other ∧ ¬(next.column key).ReadOnly other) :
    table.Steps committed next := by
  induction changes generalizing table with
  | nil =>
    have nothing : next = table := funext fun digest => funext fun key =>
      same digest key not_mem_nil
    rw [nothing]
    exact .refl
  | cons change changes ih =>
    obtain ⟨first, key⟩ := change
    obtain ⟨fresh, distinct⟩ := nodup_cons.mp distinct
    have entry : ∀ digest lookup, table.set first key (next first key) digest lookup =
        if digest = first ∧ lookup = key then next digest lookup else table digest lookup := by
      intro digest lookup
      simp only [LockTable.set, setColumn, Column.set, column]
      by_cases isFirst : digest = first <;> by_cases isKey : lookup = key <;>
        simp [isFirst, isKey]
    refine .head ⟨first, key, next first key, rfl, moves first key mem_cons_self,
      fun isDefault other _ => (guarded first key mem_cons_self isDefault other).1⟩
      (ih distinct ?_ ?_ ?_)
    · intro digest lookup absent
      rw [entry]
      split
      · rfl
      · next different =>
        refine same digest lookup fun listed => ?_
        rcases mem_cons.mp listed with isChange | later
        · exact different (Prod.mk.inj isChange)
        · exact absent later
    · intro digest lookup listed
      rw [entry, if_neg]
      · exact moves digest lookup (mem_cons_of_mem _ listed)
      · rintro ⟨rfl, rfl⟩
        exact fresh listed
    · intro digest lookup listed isDefault other
      obtain ⟨before, after⟩ := guarded digest lookup (mem_cons_of_mem _ listed) isDefault other
      refine ⟨?_, after⟩
      rintro ⟨held, readOnly⟩
      rw [column, entry] at readOnly
      split at readOnly
      · exact after ⟨held, readOnly⟩
      · exact before ⟨held, readOnly⟩

theorem Column.readOnly_grant {column : Column}
    (readOnly : (column.grant digests).ReadOnly reader) :
    column.ReadOnly reader := by
  obtain ⟨held, isReadOnly⟩ := readOnly
  unfold Column.grant at isReadOnly
  split at isReadOnly
  · obtain ⟨⟨_, before⟩, locked, same⟩ := Option.map_eq_some_iff.mp isReadOnly
    cases same
    exact ⟨before, locked⟩
  · exact ⟨held, isReadOnly⟩

/-- Those who get a lock acquire it one after the other. -/
theorem LockTable.steps_grant {table : LockTable}
    (possible : ∀ digest ∈ digests, ∃ mode, (table.column key) digest = some ⟨mode, false⟩ ∧
      (mode = .default → ∀ reader, ¬(table.column key).ReadOnly reader))
    (committed : Option TransactionDigest) :
    table.Steps committed (table.grant key digests) := by
  have granted (digest : TransactionDigest) (chosen : digest ∈ digests) (mode : LockMode)
      (waits : (table.column key) digest = some ⟨mode, false⟩) :
      table.grant key digests digest key = some ⟨mode, true⟩ := by
    rw [grant, setColumn, if_pos rfl, Column.grant, if_pos chosen, waits]
    rfl
  have once : (digests.toList.map fun digest => (digest, key)).Nodup :=
    pairwise_map.mpr (ExtTreeSet.distinct_toList.imp fun different same =>
      different (Std.compare_eq_iff_eq.mpr (Prod.mk.inj same).1))
  apply steps_of_changes once
  · intro digest lookup absent
    unfold grant setColumn
    split
    · next isKey =>
      subst isKey
      refine if_neg fun chosen => absent ?_
      exact mem_map_of_mem (ExtTreeSet.mem_toList.mpr chosen)
    · rfl
  · intro digest lookup listed
    obtain ⟨_, chosen, same⟩ := mem_map.mp listed
    cases same
    have chosen := ExtTreeSet.mem_toList.mp chosen
    obtain ⟨mode, waits, _⟩ := possible digest chosen
    unfold column at waits
    rw [granted digest chosen mode waits, waits]
    exact .acquire mode
  · intro digest lookup listed isDefault other
    obtain ⟨_, chosen, same⟩ := mem_map.mp listed
    cases same
    have chosen := ExtTreeSet.mem_toList.mp chosen
    obtain ⟨mode, waits, noReader⟩ := possible digest chosen
    rw [granted digest chosen mode waits] at isDefault
    cases isDefault
    rw [grant, column_setColumn]
    exact ⟨noReader rfl other, fun readOnly => noReader rfl other (Column.readOnly_grant readOnly)⟩

/-! ## The locks of certificates -/

namespace PendingCertificate

/-- The lock of a pending certificate on an input. -/
def lock (cert : PendingCertificate) (key : InputKey) : Option Lock :=
  match cert.acquiringLocks[key]? with
  | some mode => some ⟨mode, false⟩
  | none => cert.acquiredLocks[key]?.map fun mode => ⟨mode, true⟩

/-- How many locks on versions of an object the certificate waits for. -/
def waits (cert : PendingCertificate) (id : ObjectID) : Nat :=
  Map.total (fun key _ => if key.id = id then 1 else 0) cert.acquiringLocks

/-- Every input of the certificate is locked once. -/
structure Proper (cert : PendingCertificate) : Prop where
  separate : ∀ (key : InputKey) mode, cert.acquiringLocks[key]? = some mode →
    cert.acquiredLocks[key]? = none
  complete : cert.acquiringLocks.size + cert.acquiredLocks.size =
    cert.certificate.inputObjects.length + cert.certificate.receivingObjects.length

/-- The certificate after it has acquired a lock. -/
def acquire (cert : PendingCertificate) (key : InputKey) (mode : LockMode) :
    PendingCertificate :=
  { cert with
    acquiringLocks := cert.acquiringLocks.erase key
    acquiredLocks := cert.acquiredLocks.insert key mode }

variable {cert : PendingCertificate} {key : InputKey} {mode : LockMode}

theorem lock_eq_waiting_iff :
    cert.lock key = some ⟨mode, false⟩ ↔ cert.acquiringLocks[key]? = some mode := by
  unfold lock
  split
  · next mode' found => simp [found]
  · next absent => simp [absent]

theorem lock_acquire (cert : PendingCertificate) (key lookup : InputKey) (mode : LockMode) :
    (cert.acquire key mode).lock lookup =
      if lookup = key then some ⟨mode, true⟩ else cert.lock lookup := by
  simp only [lock, acquire, Map.getElem?_erase, Map.getElem?_insert]
  by_cases same : key = lookup
  · simp [same]
  · simp [same, Ne.symm same]

/-- A lock that is acquired is no longer awaited. -/
theorem Proper.acquire (proper : cert.Proper) (wanted : cert.acquiringLocks[key]? = some mode) :
    (cert.acquire key mode).Proper where
  separate lookup mode' found := by
    simp only [PendingCertificate.acquire, Map.getElem?_erase, Map.getElem?_insert] at found ⊢
    split at found
    · cases found
    · next different =>
      rw [if_neg different]
      exact proper.separate lookup mode' found
  complete := by
    have smaller := Map.size_erase_add_one wanted
    have larger := Map.size_insert_of_absent (proper.separate key mode wanted) mode
    have total := proper.complete
    dsimp only [PendingCertificate.acquire]
    omega

theorem waits_acquire (wanted : cert.acquiringLocks[key]? = some mode) (id : ObjectID) :
    cert.waits id = (if key.id = id then 1 else 0) + (cert.acquire key mode).waits id :=
  Map.total_erase _ wanted

end PendingCertificate

/-- How many locks on versions of an object the certificates wait for. -/
def waiting (pendingCertificates : PendingCertificates) (id : ObjectID) : Nat :=
  Map.total (fun _ cert => cert.waits id) pendingCertificates

/-! ## Acquiring one lock -/

/-- What acquiring a lock does to the pending certificates: some of them become ready. -/
structure Acquired (key : InputKey) (digests : List TransactionDigest)
    (before after : PendingCertificates) (ready : List PendingCertificate) : Prop where
  others : ∀ digest : TransactionDigest, digest ∉ digests → after[digest]? = before[digest]?
  removed : ∀ cert ∈ ready, cert.certificate.digest ∈ digests ∧
    after[cert.certificate.digest]? = none ∧ cert.acquiringLocks.isEmpty = true
  origin : ∀ cert ∈ ready, ∃ old mode, before[cert.certificate.digest]? = some old ∧
    old.acquiringLocks[key]? = some mode ∧ cert = old.acquire key mode
  acquired : ∀ digest ∈ digests, ∃ cert mode, before[digest]? = some cert ∧
    cert.acquiringLocks[key]? = some mode ∧
    (after[digest]? = some (cert.acquire key mode) ∧
        (cert.acquire key mode).acquiringLocks.isEmpty = false ∨
      after[digest]? = none ∧ cert.acquire key mode ∈ ready)
  distinct : (ready.map fun cert => cert.certificate.digest).Nodup
  counted : ∀ id, waiting before id = waiting after id + if key.id = id then digests.length else 0

/-- A pending certificate that waits for a lock. -/
def Wants (pendingCertificates : PendingCertificates) (key : InputKey)
    (digest : TransactionDigest) : Prop :=
  ∃ cert mode, pendingCertificates[digest]? = some cert ∧
    cert.acquiringLocks[key]? = some mode ∧ cert.Proper ∧ cert.certificate.digest = digest

/-- Granting the lock to one waiter. -/
theorem acquireLock_of_wants (wants : Wants pendingCertificates key digest)
    (ready : List PendingCertificate) :
    ∃ after new, Inner.acquireLock key (pendingCertificates, ready) digest =
        .ok (after, ready ++ new) ∧
      Acquired key [digest] pendingCertificates after new := by
  obtain ⟨cert, mode, found, wanted, proper, isDigest⟩ := wants
  have weight := fun id => Map.total_erase
    (fun _ (cert : PendingCertificate) => cert.waits id) found
  have one := PendingCertificate.waits_acquire wanted
  have others : ∀ other : TransactionDigest, other ∉ [digest] → ¬digest = other :=
    fun other absent same => absent (mem_singleton.mpr same.symm)
  cases complete : (cert.acquire key mode).acquiringLocks.isEmpty with
  | true =>
    refine ⟨pendingCertificates.erase digest, [cert.acquire key mode], ?_, ?_⟩
    · unfold Inner.acquireLock
      dsimp only
      rw [found]
      dsimp only
      rw [wanted]
      exact bind_of (require_of (proper.separate key mode wanted)) (if_pos complete)
    · have erased : (pendingCertificates.erase digest)[digest]? = none := by
        rw [Map.getElem?_erase, if_pos rfl]
      constructor
      · intro other absent
        rw [Map.getElem?_erase, if_neg (others other absent)]
      · refine forall_mem_singleton.mpr ⟨mem_singleton.mpr isDigest, ?_, complete⟩
        change (pendingCertificates.erase digest)[cert.certificate.digest]? = none
        rw [isDigest, erased]
      · exact forall_mem_singleton.mpr ⟨cert, mode, isDigest.symm ▸ found, wanted, rfl⟩
      · exact forall_mem_singleton.mpr
          ⟨cert, mode, found, wanted, .inr ⟨erased, mem_singleton_self _⟩⟩
      · exact nodup_singleton _
      · intro id
        have nothing : (cert.acquire key mode).waits id = 0 := by
          rw [PendingCertificate.waits, isEmpty_iff.mp complete, Map.total_empty]
        have before := weight id
        have step := one id
        unfold waiting
        rw [length_singleton]
        omega
  | false =>
    refine ⟨pendingCertificates.insert digest (cert.acquire key mode), [], ?_, ?_⟩
    · unfold Inner.acquireLock
      dsimp only
      rw [found]
      dsimp only
      rw [wanted]
      refine bind_of (require_of (proper.separate key mode wanted)) ?_
      rw [append_nil]
      exact if_neg (Bool.eq_false_iff.mp complete)
    · have inserted : (pendingCertificates.insert digest (cert.acquire key mode))[digest]? =
          some (cert.acquire key mode) := by
        rw [Map.getElem?_insert, if_pos rfl]
      constructor
      · intro other absent
        rw [Map.getElem?_insert, if_neg (others other absent)]
      · exact nofun
      · exact nofun
      · exact forall_mem_singleton.mpr ⟨cert, mode, found, wanted, .inl ⟨inserted, complete⟩⟩
      · exact nodup_nil
      · intro id
        have before := weight id
        have step := one id
        have after := Map.total_insert
          (fun _ (cert : PendingCertificate) => cert.waits id) pendingCertificates digest
          (cert.acquire key mode)
        unfold waiting
        rw [length_singleton]
        omega

/-- First one certificate acquires the lock, then the others. -/
theorem Acquired.cons (fresh : digest ∉ digests) (one : Acquired key [digest] before middle first)
    (many : Acquired key digests middle after rest) :
    Acquired key (digest :: digests) before after (first ++ rest) := by
  constructor
  · intro other absent
    rw [mem_cons, not_or] at absent
    rw [many.others other absent.2, one.others other (mem_singleton.not.mpr absent.1)]
  · intro cert listed
    rcases mem_append.mp listed with early | late
    · obtain ⟨isDigest, removed, complete⟩ := one.removed cert early
      rw [mem_singleton] at isDigest
      refine ⟨isDigest ▸ mem_cons_self, ?_, complete⟩
      rw [many.others _ (isDigest ▸ fresh), removed]
    · obtain ⟨isDigest, removed, complete⟩ := many.removed cert late
      exact ⟨mem_cons_of_mem _ isDigest, removed, complete⟩
  · refine forall_mem_append.mpr ⟨one.origin, fun cert late => ?_⟩
    obtain ⟨old, mode, found, wanted, isCert⟩ := many.origin cert late
    refine ⟨old, mode, ?_, wanted, isCert⟩
    rw [← one.others, found]
    rw [mem_singleton]
    intro same
    exact fresh (same ▸ (many.removed cert late).1)
  · intro other listed
    rcases mem_cons.mp listed with rfl | later
    · obtain ⟨cert, mode, found, wanted, outcome⟩ := one.acquired other (mem_singleton_self _)
      refine ⟨cert, mode, found, wanted, ?_⟩
      rw [many.others other fresh]
      exact outcome.imp_right fun ready => ⟨ready.1, mem_append_left _ ready.2⟩
    · obtain ⟨cert, mode, found, wanted, outcome⟩ := many.acquired other later
      have different : other ∉ [digest] := by
        rw [mem_singleton]
        rintro rfl
        exact fresh later
      refine ⟨cert, mode, ?_, wanted, ?_⟩
      · rw [← one.others other different, found]
      · exact outcome.imp_right fun ready => ⟨ready.1, mem_append_right _ ready.2⟩
  · rw [map_append]
    refine nodup_append.mpr ⟨one.distinct, many.distinct, ?_⟩
    rintro left isLeft right isRight rfl
    obtain ⟨early, isEarly, rfl⟩ := mem_map.mp isLeft
    obtain ⟨late, isLate, same⟩ := mem_map.mp isRight
    have isDigest := mem_singleton.mp (one.removed early isEarly).1
    exact fresh (isDigest ▸ same ▸ (many.removed late isLate).1)
  · intro id
    have first := one.counted id
    have rest := many.counted id
    rw [length_singleton] at first
    rw [length_cons]
    split_ifs at first rest ⊢ <;> omega

/-- Granting the lock to several waiters. -/
theorem foldlM_acquireLock (distinct : digests.Nodup)
    (wants : ∀ digest ∈ digests, Wants pendingCertificates key digest)
    (ready : List PendingCertificate) :
    ∃ after new, digests.foldlM (Inner.acquireLock key) (pendingCertificates, ready) =
        .ok (after, ready ++ new) ∧
      Acquired key digests pendingCertificates after new := by
  induction digests generalizing pendingCertificates ready with
  | nil =>
    refine ⟨pendingCertificates, [], ?_, ?_⟩
    · rw [append_nil]
      rfl
    · constructor
      · exact fun _ _ => rfl
      · exact nofun
      · exact nofun
      · exact nofun
      · exact nodup_nil
      · intro id
        simp
  | cons digest digests ih =>
    obtain ⟨fresh, distinct⟩ := nodup_cons.mp distinct
    obtain ⟨middle, first, performed, one⟩ :=
      acquireLock_of_wants (wants digest mem_cons_self) ready
    have still : ∀ other ∈ digests, Wants middle key other := by
      intro other later
      obtain ⟨cert, mode, found, rest⟩ := wants other (mem_cons_of_mem _ later)
      refine ⟨cert, mode, ?_, rest⟩
      rw [one.others other, found]
      rw [mem_singleton]
      rintro rfl
      exact fresh later
    obtain ⟨after, rest, completed, many⟩ := ih distinct still (ready ++ first)
    refine ⟨after, first ++ rest, ?_, one.cons fresh many⟩
    refine bind_of performed ?_
    rw [completed, append_assoc]

/-! ## The tables together -/

namespace Inner

/-- Who waits for and who holds which lock, from the certificates. -/
def table (inner : Inner) : LockTable :=
  fun digest key =>
    match inner.pendingCertificates[digest]? with
    | some cert => cert.lock key
    | none => (inner.executingCertificates[digest]?).bind fun locks =>
      locks[key]?.map fun mode => ⟨mode, true⟩

/-- The queue of a lock, empty if there is none. -/
def queue (inner : Inner) (key : InputKey) : LockQueue :=
  inner.lockWaiters[key]?.getD .empty

end Inner

/-- The transactions that were sent to execution. -/
def sent (manager : TransactionManager) : List TransactionDigest :=
  manager.txReadyCertificates.map fun ready => ready.1.digest

/-- The certificates are proper, the counters count what they wait for, and no
transaction is sent twice. -/
structure Certified (manager : TransactionManager) : Prop where
  disjoint : ∀ (digest : TransactionDigest) cert,
    manager.inner.pendingCertificates[digest]? = some cert →
    manager.inner.executingCertificates[digest]? = none
  digest : ∀ (digest : TransactionDigest) cert,
    manager.inner.pendingCertificates[digest]? = some cert → cert.certificate.digest = digest
  proper : ∀ (digest : TransactionDigest) cert,
    manager.inner.pendingCertificates[digest]? = some cert → cert.Proper
  incomplete : ∀ (digest : TransactionDigest) cert,
    manager.inner.pendingCertificates[digest]? = some cert → cert.acquiringLocks.isEmpty = false
  counted : ∀ id : ObjectID, manager.inner.inputObjects[id]? =
    if waiting manager.inner.pendingCertificates id = 0 then none
    else some (waiting manager.inner.pendingCertificates id)
  sentOnce : manager.sent.Nodup
  notSent : ∀ (digest : TransactionDigest) cert,
    manager.inner.pendingCertificates[digest]? = some cert → digest ∉ manager.sent
  executing : ∀ (digest : TransactionDigest) locks,
    manager.inner.executingCertificates[digest]? = some locks → digest ∈ manager.sent

/-- The queue of an input lists the locks on it, and there is no queue if nothing is to be
listed. -/
structure Inner.Queued (inner : Inner) (key : InputKey) : Prop where
  lists : (inner.queue key).Lists (inner.table.column key)
  nonempty : ∀ queue, inner.lockWaiters[key]? = some queue → queue.isEmpty = false

theorem PendingCertificate.lock_of_complete {cert : PendingCertificate}
    (complete : cert.acquiringLocks.isEmpty = true) (key : InputKey) :
    cert.lock key = cert.acquiredLocks[key]?.map fun mode => ⟨mode, true⟩ := by
  rw [lock, isEmpty_iff.mp complete, getElem?_empty]

/-! ## Sending certificates -/

/-- What sending certificates changes. -/
structure Sends (manager : TransactionManager) (ready : List PendingCertificate)
    (next : TransactionManager) : Prop where
  inner : next.inner = { manager.inner with
    executingCertificates := next.inner.executingCertificates }
  executing : ∀ cert ∈ ready,
    next.inner.executingCertificates[cert.certificate.digest]? = some cert.acquiredLocks
  others : ∀ digest : TransactionDigest, (∀ cert ∈ ready, cert.certificate.digest ≠ digest) →
    next.inner.executingCertificates[digest]? = manager.inner.executingCertificates[digest]?
  sent : next.sent = manager.sent ++ ready.map fun cert => cert.certificate.digest

/-- A certificate that is sent is executing. -/
theorem Sends.fresh {next : TransactionManager} (sends : Sends manager ready next)
    (isSent : digest ∈ next.sent) :
    digest ∈ manager.sent ∨ (next.inner.executingCertificates[digest]?).isSome := by
  rw [sends.sent] at isSent
  rcases mem_append.mp isSent with early | late
  · exact .inl early
  · obtain ⟨cert, isReady, rfl⟩ := mem_map.mp late
    exact .inr (Option.isSome_of_eq_some (sends.executing cert isReady))

/-- A certificate that is executing was executing before, or it was ready. -/
theorem Sends.origin {next : TransactionManager} (sends : Sends manager ready next)
    (executing : next.inner.executingCertificates[digest]? = some locks) :
    manager.inner.executingCertificates[digest]? = some locks ∨
      ∃ cert ∈ ready, cert.certificate.digest = digest := by
  by_cases isReady : ∃ cert ∈ ready, cert.certificate.digest = digest
  · exact .inr isReady
  · rw [sends.others digest fun cert listed same => isReady ⟨cert, listed, same⟩] at executing
    exact .inl executing

/-- A certificate with all its locks is sent. -/
theorem certificateReady_sends (proper : cert.Proper)
    (complete : cert.acquiringLocks.isEmpty = true)
    (absent : manager.inner.executingCertificates[cert.certificate.digest]? = none) :
    ∃ next, manager.certificateReady cert = .ok next ∧ Sends manager [cert] next := by
  have all : cert.acquiredLocks.size =
      cert.certificate.inputObjects.length + cert.certificate.receivingObjects.length := by
    have none : cert.acquiringLocks.size = 0 := by
      rw [isEmpty_iff.mp complete]
      rfl
    have total := proper.complete
    omega
  refine ⟨_, bind_of (require_of all) (bind_of (require_of absent) rfl), rfl, ?_, ?_, ?_⟩
  · exact forall_mem_singleton.mpr ((Map.getElem?_insert _ _ _ _).trans (if_pos rfl))
  · intro digest different
    exact (Map.getElem?_insert _ _ _ _).trans (if_neg (different cert (mem_singleton_self _)))
  · exact map_append

/-- Several certificates with all their locks are sent. -/
theorem foldlM_certificateReady {manager : TransactionManager} {ready : List PendingCertificate}
    (distinct : (ready.map fun cert => cert.certificate.digest).Nodup)
    (possible : ∀ cert ∈ ready, cert.Proper ∧ cert.acquiringLocks.isEmpty = true ∧
      manager.inner.executingCertificates[cert.certificate.digest]? = none) :
    ∃ next, ready.foldlM certificateReady manager = .ok next ∧ Sends manager ready next := by
  induction ready generalizing manager with
  | nil =>
    refine ⟨manager, rfl, rfl, ?_, fun _ _ => rfl, ?_⟩
    · exact nofun
    · exact (append_nil _).symm
  | cons cert ready ih =>
    rw [map_cons, nodup_cons] at distinct
    obtain ⟨proper, complete, absent⟩ := possible cert mem_cons_self
    obtain ⟨middle, performed, one⟩ := certificateReady_sends proper complete absent
    have different : ∀ other ∈ ready, cert.certificate.digest ≠ other.certificate.digest :=
      fun other later same => distinct.1 (same ▸ mem_map_of_mem later)
    have still : ∀ other ∈ ready, other.Proper ∧ other.acquiringLocks.isEmpty = true ∧
        middle.inner.executingCertificates[other.certificate.digest]? = none := by
      intro other later
      obtain ⟨proper', complete', absent'⟩ := possible other (mem_cons_of_mem _ later)
      refine ⟨proper', complete', ?_⟩
      rw [one.others _ (forall_mem_singleton.mpr (different other later)), absent']
    obtain ⟨next, completed, many⟩ := ih distinct.2 still
    refine ⟨next, ?_, ?_, ?_, ?_, ?_⟩
    · exact bind_of performed completed
    · rw [many.inner, one.inner]
    · refine forall_mem_cons.mpr ⟨?_, many.executing⟩
      rw [many.others _ fun late isLate => (different late isLate).symm]
      exact one.executing _ (mem_singleton_self _)
    · intro digest absent
      obtain ⟨first, later⟩ := forall_mem_cons.mp absent
      rw [many.others digest later, one.others digest (forall_mem_singleton.mpr first)]
    · rw [many.sent, one.sent, append_assoc]
      rfl

end Sui.TransactionManager
