import Sui.DeepBook.CritbitUpdates
import Sui.Library.Run

/-!
# Critical-bit trees refine sorted maps

What the operations of a tree do, in terms of the list of its leaves only: the list
is sorted by key, every leaf has an index of its own, and an operation looks a leaf
up, adds one, removes one or replaces a value.  In every tree that is reached from the
empty one the tables are well formed.
-/

namespace Sui.DeepBook.Critbit

open Sui.System
open Library (BitTree)
open Library.BitTree (Entry Frame plug)

variable {V : Type}

/-! ## The list of leaves -/

namespace Lists

variable {tree : CritbitTree V} {entries earlier later : List (Entry V)} {entry : Entry V}

section

variable (lists : Lists tree entries)

include lists

theorem exists_grown (listed : entry ∈ entries) :
    ∃ shape : BitTree V, Grown tree shape ∧ shape.entries = entries := by
  cases lists with
  | empty isNew => cases listed
  | grown isGrown => exact ⟨_, isGrown, rfl⟩

theorem sorted : entries.Pairwise fun first second => first.key < second.key := by
  cases lists with
  | empty isNew => exact .nil
  | grown isGrown => exact isGrown.critical.sorted

theorem indices_distinct : (entries.map Entry.index).Nodup := by
  cases lists with
  | empty isNew => exact .nil
  | grown isGrown => exact isGrown.toStores.indices_distinct

/-- The leaves of the list are those of the table. -/
theorem getElem?_leaves {value : V} :
    (∃ parent, tree.leaves[index]? = some ⟨key, value, parent⟩) ↔
      ⟨key, index, value⟩ ∈ entries := by
  cases lists with
  | empty isNew =>
    subst isNew
    simp [new]
  | grown isGrown =>
    refine ⟨fun ⟨parent, found⟩ => isGrown.mem_entries found, fun listed => ?_⟩
    exact isGrown.leaf listed

theorem isEmpty : isEmpty tree = entries.isEmpty := by
  cases lists with
  | empty isNew =>
    subst isNew
    rfl
  | grown isGrown =>
    rename_i shape
    have first := shape.head?_entries
    rw [isGrown.toStores.isEmpty]
    cases isEntries : shape.entries with
    | nil =>
      rw [isEntries] at first
      cases first
    | cons entry rest => rfl

theorem findLeaf (listed : entry ∈ entries) :
    findLeaf tree entry.key = .ok (true, entry.index) := by
  obtain ⟨shape, grown, rfl⟩ := lists.exists_grown listed
  exact grown.findLeaf listed

theorem findLeaf_missing (missing : ∀ entry ∈ entries, entry.key ≠ key) :
    Critbit.findLeaf tree key = .ok (false, partitionIndex) := by
  cases lists with
  | empty isNew =>
    subst isNew
    rfl
  | grown isGrown => exact isGrown.findLeaf_missing missing

end

theorem minLeaf (lists : Lists tree (entry :: later)) :
    minLeaf tree = .ok (entry.key, entry.index) := by
  obtain ⟨shape, grown, split⟩ := lists.exists_grown List.mem_cons_self
  have first := shape.head?_entries
  rw [split] at first
  rw [grown.minLeaf_eq, ← Option.some.inj first]

theorem maxLeaf (lists : Lists tree (earlier ++ [entry])) :
    maxLeaf tree = .ok (entry.key, entry.index) := by
  obtain ⟨shape, grown, split⟩ := lists.exists_grown
    (List.mem_append_right earlier (List.mem_singleton_self entry))
  have last := shape.getLast?_entries
  rw [split, List.getLast?_concat] at last
  rw [grown.maxLeaf_eq, ← Option.some.inj last]

theorem mem_middle : entry ∈ earlier ++ entry :: later :=
  List.mem_append_right _ List.mem_cons_self

theorem nextLeaf (lists : Lists tree (earlier ++ entry :: later)) :
    nextLeaf tree entry.key = .ok (place later.head?) := by
  obtain ⟨shape, grown, split⟩ := lists.exists_grown mem_middle
  exact grown.nextLeaf split

theorem previousLeaf (lists : Lists tree (earlier ++ entry :: later)) :
    previousLeaf tree entry.key = .ok (place earlier.getLast?) := by
  obtain ⟨shape, grown, split⟩ := lists.exists_grown mem_middle
  exact grown.previousLeaf split

/-- A leaf with a new key is inserted between the smaller and the greater ones. -/
theorem insertLeaf (lists : Lists tree entries) (room : tree.nextLeafIndex < maxCapacity - 1)
    (fits : key < 2 ^ 64) (missing : ∀ entry ∈ entries, entry.key ≠ key) (value : V) :
    ∃ tree' earlier later, entries = earlier ++ later ∧
      insertLeaf tree key value = .ok (tree.nextLeafIndex, tree') ∧
      Lists tree' (earlier ++ ⟨key, tree.nextLeafIndex, value⟩ :: later) ∧
      tree'.nextLeafIndex = tree.nextLeafIndex + 1 := by
  cases lists with
  | empty isNew =>
    subst isNew
    obtain ⟨tree', inserted, grown, next⟩ := insertLeaf_new fits value
    exact ⟨tree', [], [], rfl, inserted, .grown grown, next⟩
  | grown isGrown =>
    rename_i shape
    obtain ⟨tree', inserted, grown, next⟩ := isGrown.insertLeaf room fits missing value
    obtain ⟨earlier, later, old, new⟩ := BitTree.entries_insert
      tree.nextInternalNodeIndex tree.nextLeafIndex key value shape
    refine ⟨tree', earlier, later, old, inserted, ?_, next⟩
    rw [← new]
    exact .grown grown

theorem insertLeaf_present (lists : Lists tree entries)
    (room : tree.nextLeafIndex < maxCapacity - 1) (listed : entry ∈ entries) (value : V) :
    Critbit.insertLeaf tree entry.key value = .error (.critbit eKeyAlreadyExist) := by
  obtain ⟨shape, grown, rfl⟩ := lists.exists_grown listed
  exact grown.insertLeaf_present room listed value

theorem insertLeaf_full (lists : Lists tree entries) (full : ¬tree.nextLeafIndex < maxCapacity - 1)
    (key : Nat) (value : V) :
    Critbit.insertLeaf tree key value = .error (.critbit eExceedCapacity) := by
  cases lists with
  | empty isNew =>
    subst isNew
    exact absurd (by decide : 0 < maxCapacity - 1) full
  | grown isGrown => exact isGrown.insertLeaf_full full key value

theorem removeLeafByIndex (lists : Lists tree (earlier ++ entry :: later)) :
    ∃ tree', removeLeafByIndex tree entry.index = .ok (entry.value, tree') ∧
      Lists tree' (earlier ++ later) ∧
      (earlier ++ later ≠ [] → tree'.nextLeafIndex = tree.nextLeafIndex) := by
  obtain ⟨shape, grown, split⟩ := lists.exists_grown mem_middle
  exact grown.removeLeafByIndex split

end Lists

/-! ## Well-formed tables -/

open Library
open List hiding after

variable {V : Type}

/-- The parent of the leaf or internal node at a pointer. -/
def parentAt (tree : CritbitTree V) (ptr : Nat) : Option Nat :=
  if partitionIndex < ptr ∧ ptr ≤ maxU64 then
    (tree.leaves[maxU64 - ptr]?).map Leaf.parent
  else
    (tree.internalNodes[ptr]?).map InternalNode.parent

/-- A leaf is reached from a pointer by following children. -/
inductive Below (tree : CritbitTree V) (index : Nat) : Nat → Prop
  | leaf {leaf : Leaf V} :
      tree.leaves[index]? = some leaf → Below tree index (maxU64 - index)
  | left {ptr : Nat} {node : InternalNode} :
      tree.internalNodes[ptr]? = some node → Below tree index node.leftChild →
      Below tree index ptr
  | right {ptr : Nat} {node : InternalNode} :
      tree.internalNodes[ptr]? = some node → Below tree index node.rightChild →
      Below tree index ptr

/-- The tables of a tree are well formed. -/
structure WellFormed (tree : CritbitTree V) : Prop where
  /-- The mask of an internal node is the highest bit in which its subtrees differ. -/
  mask : ∀ (index : Nat) (node : InternalNode) (low high : Nat) (lowLeaf highLeaf : Leaf V),
    tree.internalNodes[index]? = some node →
    Below tree low node.leftChild → Below tree high node.rightChild →
    tree.leaves[low]? = some lowLeaf → tree.leaves[high]? = some highLeaf →
    ∃ bit, node.mask = 2 ^ bit ∧ SplitAt bit lowLeaf.key highLeaf.key
  decreasing : ∀ (index ptr : Nat) (node child : InternalNode),
    tree.internalNodes[index]? = some node →
    ptr = node.leftChild ∨ ptr = node.rightChild →
    tree.internalNodes[ptr]? = some child → child.mask < node.mask
  children : ∀ (index : Nat) (node : InternalNode), tree.internalNodes[index]? = some node →
    node.leftChild ≠ node.rightChild ∧ parentAt tree node.leftChild = some index ∧
      parentAt tree node.rightChild = some index
  /-- Everything but the root is a child of its parent. -/
  parent : ∀ ptr index : Nat, parentAt tree ptr = some index →
    index = partitionIndex ∧ ptr = tree.root ∨ ∃ node, tree.internalNodes[index]? = some node ∧
        (ptr = node.leftChild ∨ ptr = node.rightChild)
  reachable : ∀ index : Nat, (tree.leaves[index]?).isSome = true ↔ Below tree index tree.root
  counts : tree.leaves.size = 0 ∧ tree.internalNodes.size = 0 ∨
    tree.internalNodes.size + 1 = tree.leaves.size
  /-- Internal nodes and leaves have pointers on different sides of the partition
  index. -/
  nodeIndex : ∀ (index : Nat) (node : InternalNode),
    tree.internalNodes[index]? = some node → index < partitionIndex
  leafIndex : ∀ (index : Nat) (leaf : Leaf V),
    tree.leaves[index]? = some leaf → partitionIndex < maxU64 - index
  distinct : ∀ (index index' : Nat) (leaf leaf' : Leaf V), tree.leaves[index]? = some leaf →
    tree.leaves[index']? = some leaf' → leaf.key = leaf'.key → index = index'

section Positions

variable {tree : CritbitTree V} {shape : BitTree V} {frames : List (Frame V)}

/-- Every internal node of a binary tree has a position. -/
theorem exists_plug_node (outer : List (Frame V))
    (listed : entry ∈ nodeEntries (parentOf outer) shape) :
    ∃ frames index bit left right, plug outer shape = plug frames (.node index bit left right) ∧
      entry = (index, ⟨2 ^ bit, pointer left, pointer right, parentOf frames⟩) := by
  induction shape generalizing outer with
  | leaf index key value => cases listed
  | node index bit left right leftHypothesis rightHypothesis =>
    rcases mem_cons.mp listed with rfl | below
    · exact ⟨outer, index, bit, left, right, rfl, rfl⟩
    · rcases mem_append.mp below with onLeft | onRight
      · exact leftHypothesis (⟨index, bit, true, right⟩ :: outer) onLeft
      · exact rightHypothesis (⟨index, bit, false, left⟩ :: outer) onRight

/-- The place of an internal node in the tree. -/
theorem Stores.node_position (stores : Stores tree shape)
    (found : tree.internalNodes[index]? = some node) :
    ∃ frames bit left right, shape = plug frames (.node index bit left right) ∧
      node = ⟨2 ^ bit, pointer left, pointer right, parentOf frames⟩ := by
  obtain ⟨frames, _, bit, left, right, whole, same⟩ :=
    exists_plug_node [] ((stores.nodes.lookup index node).mp found)
  cases same
  exact ⟨frames, bit, left, right, whole, rfl⟩

/-- The place of a leaf in the tree. -/
theorem Stores.leaf_position (stores : Stores tree shape) {leaf : Leaf V}
    (found : tree.leaves[index]? = some leaf) :
    ∃ frames key value, shape = plug frames (.leaf index key value) ∧
      leaf = ⟨key, value, parentOf frames⟩ := by
  obtain ⟨frames, rfl⟩ := BitTree.exists_plug (stores.mem_entries found)
  have stored := stores.leaf_at
  rw [found] at stored
  exact ⟨frames, leaf.key, leaf.value, rfl, Option.some.inj stored⟩

/-- The parent that is stored for a subtree. -/
theorem Stores.parentAt_pointer (stores : Stores tree (plug frames shape)) :
    parentAt tree (pointer shape) = some (parentOf frames) := by
  cases shape with
  | leaf index key value =>
    obtain ⟨above, restored⟩ := leaf_pointer (stores.leafIndex_below (mem_singleton_self _))
    rw [parentAt, pointer, if_pos ⟨above, Nat.sub_le _ _⟩, restored, stores.leaf_at]
    rfl
  | node index bit left right =>
    obtain ⟨found, below⟩ := stores.nodes_below mem_cons_self
    rw [parentAt, pointer, if_neg fun above => below.not_gt above.1, found]
    rfl

/-- A stored parent belongs to a subtree. -/
theorem Stores.exists_subtree (stores : Stores tree shape) {ptr index : Nat}
    (found : parentAt tree ptr = some index) :
    ∃ frames subtree, shape = plug frames subtree ∧ pointer subtree = ptr ∧
      parentOf frames = index := by
  unfold parentAt at found
  split at found
  · next above =>
    obtain ⟨leaf, isLeaf, rfl⟩ := Option.map_eq_some_iff.mp found
    obtain ⟨frames, key, value, whole, rfl⟩ := stores.leaf_position isLeaf
    exact ⟨frames, _, whole, Nat.sub_sub_self above.2, rfl⟩
  · next below =>
    obtain ⟨node, isNode, rfl⟩ := Option.map_eq_some_iff.mp found
    obtain ⟨frames, bit, left, right, whole, rfl⟩ := stores.node_position isNode
    exact ⟨frames, _, whole, rfl, rfl⟩

theorem Stores.node_lt (stores : Stores tree shape)
    (found : tree.internalNodes[index]? = some node) :
    index < partitionIndex :=
  stores.nodeIndex _ ((stores.nodes.lookup index node).mp found)

theorem Stores.leaf_lt (stores : Stores tree shape) {leaf : Leaf V}
    (found : tree.leaves[index]? = some leaf) :
    index < maxCapacity :=
  stores.leafIndex _ (stores.mem_entries found)

/-- A pointer to an internal node leads to its subtree. -/
theorem Stores.node_below (stores : Stores tree (plug frames shape))
    (isPointer : pointer shape = ptr) (found : tree.internalNodes[ptr]? = some node) :
    ∃ index bit left right, shape = .node index bit left right ∧
      node = ⟨2 ^ bit, pointer left, pointer right, parentOf frames⟩ := by
  cases shape with
  | leaf index key value =>
    have above := (leaf_pointer (stores.leafIndex_below (mem_singleton_self _))).1
    exact absurd isPointer ((stores.node_lt found).trans above).ne'
  | node index bit left right =>
    obtain ⟨found', _⟩ := stores.nodes_below mem_cons_self
    rw [← isPointer] at found
    exact ⟨index, bit, left, right, rfl, Option.some.inj (found.symm.trans found')⟩

/-- The leaves below the pointer of a subtree are its leaves. -/
theorem Stores.below_iff (stores : Stores tree (plug frames shape)) {index : Nat} :
    Below tree index (pointer shape) ↔ ∃ entry ∈ shape.entries, entry.index = index := by
  constructor
  · intro below
    generalize isPointer : pointer shape = ptr at below
    induction below generalizing frames shape with
    | leaf found =>
      have inside := stores.leaf_lt found
      cases shape with
      | leaf index' key value =>
        have inside' : index' < maxCapacity := stores.leafIndex_below (mem_singleton_self _)
        refine ⟨_, mem_singleton_self _, ?_⟩
        rw [← (leaf_pointer inside).2, ← isPointer]
        exact (leaf_pointer inside').2.symm
      | node index' bit left right =>
        have below := (stores.nodes_below mem_cons_self).2
        exact absurd isPointer ((leaf_pointer inside).1.trans' below).ne
    | left found _ ih =>
      obtain ⟨index', bit, left, right, rfl, rfl⟩ := stores.node_below isPointer found
      obtain ⟨entry, listed, same⟩ := ih stores.left rfl
      exact ⟨entry, mem_append_left _ listed, same⟩
    | right found _ ih =>
      obtain ⟨index', bit, left, right, rfl, rfl⟩ := stores.node_below isPointer found
      obtain ⟨entry, listed, same⟩ := ih stores.right rfl
      exact ⟨entry, mem_append_right _ listed, same⟩
  · rintro ⟨entry, listed, rfl⟩
    induction shape generalizing frames with
    | leaf index key value =>
      rw [mem_singleton.mp listed]
      exact .leaf stores.leaf_at
    | node index bit left right leftHypothesis rightHypothesis =>
      obtain ⟨found, _⟩ := stores.nodes_below mem_cons_self
      rcases mem_append.mp listed with onLeft | onRight
      · exact .left found (leftHypothesis stores.left onLeft)
      · exact .right found (rightHypothesis stores.right onRight)

end Positions

/-- A grown tree is well-formed. -/
theorem Grown.wellFormed {shape : BitTree V} (grown : Grown tree shape) :
    WellFormed tree where
  mask := by
    intro index node low high lowLeaf highLeaf found lowBelow highBelow isLow isHigh
    obtain ⟨frames, bit, left, right, rfl, rfl⟩ := grown.toStores.node_position found
    have stores := grown.toStores
    obtain ⟨lowEntry, lowListed, rfl⟩ := stores.left.below_iff.mp lowBelow
    obtain ⟨highEntry, highListed, rfl⟩ := stores.right.below_iff.mp highBelow
    have split := grown.critical.of_plug.1 lowEntry lowListed highEntry highListed
    refine ⟨bit, rfl, ?_⟩
    obtain ⟨_, lowFound⟩ := stores.left.leaf (BitTree.mem_entries_plug _ lowListed)
    obtain ⟨_, highFound⟩ := stores.right.leaf (BitTree.mem_entries_plug _ highListed)
    rw [lowFound] at isLow
    rw [highFound] at isHigh
    cases isLow
    cases isHigh
    exact split
  decreasing := by
    intro index ptr node child found isChild childFound
    obtain ⟨frames, bit, left, right, rfl, rfl⟩ := grown.toStores.node_position found
    have critical := grown.critical.of_plug
    rcases isChild with rfl | rfl
    · obtain ⟨_, bit', _, _, rfl, rfl⟩ := grown.toStores.left.node_below rfl childFound
      exact Nat.pow_lt_pow_right (by decide) (critical.bit_lt (.inl rfl))
    · obtain ⟨_, bit', _, _, rfl, rfl⟩ := grown.toStores.right.node_below rfl childFound
      exact Nat.pow_lt_pow_right (by decide) (critical.bit_lt (.inr rfl))
  children := by
    intro index node found
    obtain ⟨frames, bit, left, right, rfl, rfl⟩ := grown.toStores.node_position found
    have stores := grown.toStores
    exact ⟨stores.left.pointer_ne_sibling.symm, stores.left.parentAt_pointer,
      stores.right.parentAt_pointer⟩
  parent := by
    intro ptr index found
    obtain ⟨frames, subtree, rfl, rfl, rfl⟩ := grown.toStores.exists_subtree found
    cases frames with
    | nil => exact .inl ⟨rfl, grown.root.symm⟩
    | cons frame outer =>
      right
      refine ⟨_, (grown.toStores.nodes_around mem_cons_self).1, ?_⟩
      unfold frameNode
      cases frame.onLeft with
      | true => exact .inl rfl
      | false => exact .inr rfl
  reachable := by
    intro index
    have whole : Stores tree (plug [] shape) := grown.toStores
    rw [grown.root, whole.below_iff, Option.isSome_iff_exists]
    constructor
    · rintro ⟨leaf, found⟩
      exact ⟨_, grown.mem_entries found, rfl⟩
    · rintro ⟨entry, listed, rfl⟩
      obtain ⟨parent, found⟩ := grown.toStores.leaf listed
      exact ⟨_, found⟩
  counts := by
    obtain ⟨nodes, leaves⟩ := grown.toStores.sizes
    exact .inr (by rw [nodes, leaves])
  nodeIndex := fun index node found => grown.toStores.node_lt found
  leafIndex := fun index leaf found => (leaf_pointer (grown.toStores.leaf_lt found)).1
  distinct := by
    intro index index' leaf leaf' found found' same
    have first := grown.findLeaf (grown.mem_entries found)
    have second := grown.findLeaf (grown.mem_entries found')
    rw [same, second] at first
    exact (Prod.mk.inj (Except.ok.inj first)).2.symm

/-- The empty tree is well-formed. -/
theorem wellFormed_new : WellFormed (new : CritbitTree V) := by
  have noLeaf (index : Nat) : (new : CritbitTree V).leaves[index]? = none := by simp [new]
  have noNode (index : Nat) : (new : CritbitTree V).internalNodes[index]? = none := by simp [new]
  have notBelow (index ptr : Nat) : ¬Below (new : CritbitTree V) index ptr := by
    rintro (found | found | found) <;> simp [noLeaf, noNode] at found
  constructor
  case counts => exact .inl ⟨rfl, rfl⟩
  all_goals simp [noLeaf, noNode, notBelow, parentAt]

theorem Lists.wellFormed (lists : Lists tree entries) : WellFormed tree := by
  cases lists with
  | empty isNew =>
    subst isNew
    exact wellFormed_new
  | grown isGrown => exact isGrown.wellFormed

/-! ## Runs -/

/-- An operation that changes a tree.  Keys have 64 bits. -/
inductive Operation (V : Type)
  | insert (key : UInt64) (value : V)
  | remove (index : Nat)

/-- A tree together with the leaves that were inserted and not removed, sorted by
their keys. -/
structure Session (V : Type) where
  tree : CritbitTree V
  contents : List (Entry V)

/-- Add an entry to a sorted list. -/
def insertSorted (entry : Entry V) (contents : List (Entry V)) : List (Entry V) :=
  contents.takeWhile (fun other => other.key < entry.key) ++
    entry :: contents.dropWhile (fun other => other.key < entry.key)

/-- Perform an operation, unless it aborts. -/
def Session.perform (session : Session V) : Operation V → Option (Session V)
  | .insert key value =>
    match insertLeaf session.tree key.toNat value with
    | .ok (index, tree) =>
      some ⟨tree, insertSorted ⟨key.toNat, index, value⟩ session.contents⟩
    | .error _ => none
  | .remove index =>
    match removeLeafByIndex session.tree index with
    | .ok (_, tree) => some ⟨tree, session.contents.filter fun entry => entry.index ≠ index⟩
    | .error _ => none

/-- The sessions that start with an empty tree. -/
def Session.Reachable : Session V → Prop :=
  Run Session.perform (fun _ _ => True) ⟨new, []⟩

/-- An entry of a sorted list is inserted where it was taken out. -/
theorem insertSorted_eq {entry : Entry V}
    (sorted : (earlier ++ entry :: later).Pairwise fun first second =>
      first.key < second.key) :
    insertSorted entry (earlier ++ later) = earlier ++ entry :: later := by
  obtain ⟨_, rest, lower⟩ := pairwise_append.mp sorted
  have isLower : ∀ other ∈ earlier, decide (other.key < entry.key) = true :=
    fun other listed => decide_eq_true (lower other listed entry mem_cons_self)
  have isHigher : ∀ other ∈ later, ¬other.key < entry.key :=
    fun other listed => ((pairwise_cons.mp rest).1 other listed).not_gt
  unfold insertSorted
  rw [takeWhile_append_of_pos isLower, dropWhile_append_of_pos isLower]
  cases later with
  | nil => rw [takeWhile_nil, dropWhile_nil, append_nil]
  | cons other later =>
    have higher := isHigher other mem_cons_self
    rw [takeWhile_cons_of_neg (by simp [higher]),
      dropWhile_cons_of_neg (by simp [higher]), append_nil]

/-- Every operation keeps the leaves listed. -/
theorem Session.lists_of_perform {session next : Session V}
    (lists : Lists session.tree session.contents)
    (performed : session.perform operation = some next) :
    Lists next.tree next.contents := by
  cases operation with
  | insert key value =>
    dsimp only [Session.perform] at performed
    split at performed
    · next index tree inserted =>
      cases performed
      have room : session.tree.nextLeafIndex < maxCapacity - 1 := by
        by_contra full
        rw [lists.insertLeaf_full full] at inserted
        cases inserted
      have missing : ∀ entry ∈ session.contents, entry.key ≠ key.toNat := by
        intro entry listed same
        rw [← same, lists.insertLeaf_present room listed] at inserted
        cases inserted
      obtain ⟨tree', earlier, later, split, inserted', lists', _⟩ :=
        lists.insertLeaf room key.toNat_lt missing value
      rw [inserted'] at inserted
      cases inserted
      rw [split, insertSorted_eq lists'.sorted]
      exact lists'
    · cases performed
  | remove index =>
    dsimp only [Session.perform] at performed
    split at performed
    · next value tree removed =>
      cases performed
      obtain ⟨leaf, found, _⟩ := bind_eq_ok.mp removed
      have listed := lists.getElem?_leaves.mp ⟨leaf.parent, Table.borrow_eq_ok.mp found⟩
      obtain ⟨earlier, later, split⟩ := append_of_mem listed
      rw [split] at lists
      obtain ⟨tree', removed', lists', _⟩ := lists.removeLeafByIndex
      rw [removed'] at removed
      cases removed
      rw [split, filter_view_ne lists.indices_distinct]
      exact lists'
    · cases performed

variable {session : Session V}

theorem Session.lists_of_reachable (reachable : session.Reachable) :
    Lists session.tree session.contents :=
  reachable.invariant (fun session => Lists session.tree session.contents) (.empty rfl)
    fun _ _ _ lists _ performed => lists_of_perform lists performed

/-! ## Refinement -/

/-- A key that no leaf has. -/
def Missing (contents : List (Entry V)) (key : Nat) : Prop :=
  ∀ entry ∈ contents, entry.key ≠ key

/-- A tree behaves like a sorted map with the given contents. -/
structure Refines (tree : CritbitTree V) (contents : List (Entry V)) : Prop where
  wellFormed : WellFormed tree
  sorted : contents.Pairwise fun first second => first.key < second.key
  stored : ∀ (index key : Nat) (value : V),
    (∃ parent, tree.leaves[index]? = some ⟨key, value, parent⟩) ↔ ⟨key, index, value⟩ ∈ contents
  find : ∀ key index : Nat, findLeaf tree key = .ok (true, index) ↔
    ∃ value, ⟨key, index, value⟩ ∈ contents
  findMissing : ∀ key : Nat, Missing contents key → findLeaf tree key = .ok (false, partitionIndex)
  minLeaf : ∀ entry later, contents = entry :: later → minLeaf tree = .ok (entry.key, entry.index)
  maxLeaf : ∀ earlier entry, contents = earlier ++ [entry] →
    maxLeaf tree = .ok (entry.key, entry.index)
  ends : contents = [] → Critbit.minLeaf tree = .error (.critbit eLeafNotExist) ∧
    Critbit.maxLeaf tree = .error (.critbit eLeafNotExist)
  nextLeaf : ∀ earlier entry later, contents = earlier ++ entry :: later →
    nextLeaf tree entry.key = .ok (place later.head?)
  previousLeaf : ∀ earlier entry later, contents = earlier ++ entry :: later →
    previousLeaf tree entry.key = .ok (place earlier.getLast?)
  neighbours : ∀ key : Nat, Missing contents key →
    Critbit.nextLeaf tree key = .error (.critbit eLeafNotExist) ∧
      Critbit.previousLeaf tree key = .error (.critbit eLeafNotExist)
  /-- As long as an index is left, exactly the keys that are present are rejected. -/
  insertPresent : tree.nextLeafIndex < maxCapacity - 1 → ∀ (key : UInt64) (value : V),
    (insertLeaf tree key.toNat value = .error (.critbit eKeyAlreadyExist) ↔
      ¬Missing contents key.toNat)
  insertMissing : tree.nextLeafIndex < maxCapacity - 1 → ∀ (key : UInt64) (value : V),
    Missing contents key.toNat →
      ∃ index tree', insertLeaf tree key.toNat value = .ok (index, tree') ∧
        index ∉ contents.map Entry.index
  insertFull : ¬tree.nextLeafIndex < maxCapacity - 1 → ∀ (key : UInt64) (value : V),
    insertLeaf tree key.toNat value = .error (.critbit eExceedCapacity)
  /-- Removing a leaf returns the value that was inserted under its index. -/
  remove : ∀ entry ∈ contents,
    ∃ tree', removeLeafByIndex tree entry.index = .ok (entry.value, tree')

/-- A missing key has no neighbours. -/
theorem Lists.neighbours_missing (lists : Lists tree contents) (missing : Missing contents key) :
    Critbit.nextLeaf tree key = .error (.critbit eLeafNotExist) ∧
      Critbit.previousLeaf tree key = .error (.critbit eLeafNotExist) := by
  have notFound := lists.findLeaf_missing missing
  constructor
  · rw [Critbit.nextLeaf, neighbour, notFound]
    rfl
  · rw [Critbit.previousLeaf, neighbour, notFound]
    rfl

/-- An empty tree has no ends. -/
theorem Lists.ends_empty (lists : Lists tree []) :
    Critbit.minLeaf tree = .error (.critbit eLeafNotExist) ∧
      Critbit.maxLeaf tree = .error (.critbit eLeafNotExist) := by
  have isEmpty := lists.isEmpty
  have nonempty : ¬Critbit.isEmpty tree = false := by
    rw [isEmpty]
    exact Bool.noConfusion
  constructor
  · rw [Critbit.minLeaf, require_of_not nonempty, error_bind]
  · rw [Critbit.maxLeaf, require_of_not nonempty, error_bind]

/-- A tree that lists its leaves refines the sorted list. -/
theorem Lists.refines (lists : Lists tree contents) :
    Refines tree contents where
  wellFormed := lists.wellFormed
  sorted := lists.sorted
  stored := fun _ _ _ => lists.getElem?_leaves
  find := by
    intro key index
    constructor
    · intro found
      by_contra absent
      have missing : Missing contents key := by
        rintro ⟨_, index', value⟩ listed rfl
        have found' := lists.findLeaf listed
        rw [found] at found'
        cases found'
        exact absent ⟨value, listed⟩
      rw [lists.findLeaf_missing missing] at found
      cases found
    · rintro ⟨value, listed⟩
      exact lists.findLeaf listed
  findMissing := fun _ missing => lists.findLeaf_missing missing
  minLeaf := by
    rintro entry later rfl
    exact lists.minLeaf
  maxLeaf := by
    rintro earlier entry rfl
    exact lists.maxLeaf
  ends := by
    rintro rfl
    exact lists.ends_empty
  nextLeaf := by
    rintro earlier entry later rfl
    exact lists.nextLeaf
  previousLeaf := by
    rintro earlier entry later rfl
    exact lists.previousLeaf
  neighbours := fun _ missing => lists.neighbours_missing missing
  insertPresent := by
    intro room key value
    constructor
    · intro rejected missing
      obtain ⟨_, _, _, _, inserted, _⟩ := lists.insertLeaf room key.toNat_lt missing value
      rw [inserted] at rejected
      cases rejected
    · intro present
      have exists_entry : ∃ entry ∈ contents, entry.key = key.toNat := by
        by_contra absent
        exact present fun entry listed same => absent ⟨entry, listed, same⟩
      obtain ⟨entry, listed, same⟩ := exists_entry
      rw [← same]
      exact lists.insertLeaf_present room listed value
  insertMissing := by
    intro room key value missing
    obtain ⟨tree', earlier, later, split, inserted, lists', _⟩ :=
      lists.insertLeaf room key.toNat_lt missing value
    refine ⟨_, tree', inserted, ?_⟩
    have distinct := lists'.indices_distinct
    rw [map_append, map_cons, nodup_middle, nodup_cons] at distinct
    rw [split, map_append]
    exact distinct.1
  insertFull := fun full key value => lists.insertLeaf_full full key.toNat value
  remove := by
    intro entry listed
    obtain ⟨earlier, later, rfl⟩ := append_of_mem listed
    obtain ⟨tree', removed, _⟩ := lists.removeLeafByIndex
    exact ⟨tree', removed⟩

theorem Session.perform_insert {tree : CritbitTree V}
    (inserted : insertLeaf session.tree key.toNat value = .ok (index, tree)) :
    session.perform (.insert key value) =
      some ⟨tree, insertSorted ⟨key.toNat, index, value⟩ session.contents⟩ := by
  dsimp only [Session.perform]
  rw [inserted]

theorem Session.perform_remove {tree : CritbitTree V}
    (removed : removeLeafByIndex session.tree index = .ok (value, tree)) :
    session.perform (.remove index) =
      some ⟨tree, session.contents.filter fun entry => entry.index ≠ index⟩ := by
  dsimp only [Session.perform]
  rw [removed]

/-- Inserting and removing a leaf next to another one uses up an index. -/
theorem exists_used (count : Nat) (room : count + 1 ≤ maxCapacity - 1) :
    ∃ session : Session Unit, session.Reachable ∧ session.contents = [⟨0, 0, ()⟩] ∧
      session.tree.nextLeafIndex = count + 1 := by
  induction count with
  | zero =>
    have fits : (0 : UInt64).toNat < 2 ^ 64 := by decide
    obtain ⟨tree, inserted, _, next⟩ := insertLeaf_new fits ()
    have start : Session.Reachable (V := Unit) ⟨new, []⟩ := .refl
    exact ⟨_, start.step trivial (Session.perform_insert inserted), rfl, next⟩
  | succ count ih =>
    obtain ⟨⟨tree, contents⟩, reachable, isContents, next⟩ := ih (by omega)
    subst isContents
    have lists := Session.lists_of_reachable reachable
    have missing : ∀ entry ∈ [(⟨0, 0, ()⟩ : Entry Unit)],
        entry.key ≠ (1 : UInt64).toNat := by decide
    have hasRoom : tree.nextLeafIndex < maxCapacity - 1 := by
      rw [next]
      exact room
    obtain ⟨tree₁, _, _, _, inserted, _, next₁⟩ := lists.insertLeaf hasRoom (by decide) missing ()
    have reachable₁ : Session.Reachable
        ⟨tree₁, [⟨0, 0, ()⟩] ++ ⟨1, tree.nextLeafIndex, ()⟩ :: []⟩ :=
      reachable.step trivial (Session.perform_insert inserted)
    obtain ⟨tree₂, removed, _, next₂⟩ := (Session.lists_of_reachable reachable₁).removeLeafByIndex
    refine ⟨_, reachable₁.step trivial (Session.perform_remove removed), ?_, ?_⟩
    · rw [next]
      simp
    · rw [next₂ (cons_ne_nil _ _), next₁, next]

/-- In every tree that is reached from the empty one by insertions and removals, the
tables are well formed and the operations are those of a sorted map. -/
theorem refines_of_reachable {session : Session V} (reachable : session.Reachable) :
    Refines session.tree session.contents :=
  (Session.lists_of_reachable reachable).refines

/-- Three keys are inserted and one is removed. -/
theorem refines_of_reachable_small :
    ∃ session : Session Nat, session.Reachable ∧
      session.contents.map Entry.key = [2, 5] ∧ Refines session.tree session.contents := by
  obtain ⟨session, reachable, contents⟩ := exists_run
    (Session.perform : Session Nat → _) (fun _ _ => True) ⟨new, []⟩
    [.insert 5 0, .insert 7 1, .insert 2 2, .remove 1]
    (fun session => session.contents.map Entry.key = [2, 5]) (by decide +kernel)
  exact ⟨session, reachable, contents, refines_of_reachable reachable⟩

/-- When all indices are used up, a key that is present is rejected with another error
than that of a present key. -/
theorem present_key_exceeds_capacity :
    ∃ session : Session Unit, session.Reachable ∧
      (∃ entry ∈ session.contents, entry.key = (0 : UInt64).toNat) ∧
      insertLeaf session.tree (0 : UInt64).toNat () ≠ .error (.critbit eKeyAlreadyExist) := by
  obtain ⟨session, reachable, contents, next⟩ := exists_used (maxCapacity - 2) (by decide)
  have full : ¬session.tree.nextLeafIndex < maxCapacity - 1 := by
    rw [next]
    decide
  refine ⟨session, reachable, ⟨⟨0, 0, ()⟩, ?_, rfl⟩, ?_⟩
  · rw [contents]
    exact mem_cons_self
  · rw [(Session.lists_of_reachable reachable).insertLeaf_full full]
    intro same
    cases same

/-- The closest key to a key is zero if there is none, and otherwise one with as many leading
bits in common as any. -/
theorem findClosestKey_of_reachable {session : Session V} (reachable : session.Reachable)
    (key : Nat) :
    session.contents = [] ∧ findClosestKey session.tree key = .ok 0 ∨
    ∃ entry ∈ session.contents, findClosestKey session.tree key = .ok entry.key ∧
      ∀ other ∈ session.contents, ∀ bits, other.key >>> bits = key >>> bits →
        entry.key >>> bits = key >>> bits := by
  have lists := Session.lists_of_reachable reachable
  unfold findClosestKey
  rw [lists.isEmpty]
  by_cases none : session.contents = []
  · exact .inl ⟨none, by rw [none]; rfl⟩
  · obtain ⟨_, listed⟩ := List.exists_mem_of_ne_nil _ none
    obtain ⟨shape, grown, isContents⟩ := lists.exists_grown listed
    obtain ⟨parent, found⟩ := grown.leaf (BitTree.closest_mem key shape)
    rw [if_neg (by simpa using none), ← isContents]
    refine .inr ⟨shape.closest key, BitTree.closest_mem key shape, ?_, ?_⟩
    · exact bind_of (grown.getClosestLeafIndexByKey grown.root key)
        (bind_of (Table.borrow_eq_ok.mpr found) rfl)
    · intro other isOther bits same
      have agrees (position : Nat) (above : bits ≤ position) :
          other.key.testBit position = key.testBit position := by
        obtain ⟨rest, rfl⟩ := Nat.exists_eq_add_of_le above
        simpa using congrArg (Nat.testBit · rest) same
      apply Nat.eq_of_testBit_eq
      intro position
      rw [Nat.testBit_shiftRight, Nat.testBit_shiftRight]
      exact grown.critical.closest_agrees isOther agrees (Nat.le_add_right _ _)

/-- The closest key in a tree of two leaves. -/
theorem findClosestKey_of_reachable_small :
    ∃ session : Session Nat, session.Reachable ∧ session.contents.map Entry.key = [2, 5] ∧
      ∃ entry ∈ session.contents, findClosestKey session.tree 7 = .ok entry.key := by
  obtain ⟨session, reachable, contents⟩ := exists_run
    (Session.perform : Session Nat → _) (fun _ _ => True) ⟨new, []⟩ [.insert 5 0, .insert 2 1]
    (fun session => session.contents.map Entry.key = [2, 5]) (by decide +kernel)
  rcases findClosestKey_of_reachable reachable 7 with ⟨none, _⟩ | ⟨entry, listed, found, _⟩
  · simp [none] at contents
  · exact ⟨session, reachable, contents, entry, listed, found⟩

end Sui.DeepBook.Critbit
