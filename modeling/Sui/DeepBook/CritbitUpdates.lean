import Sui.DeepBook.CritbitShape

/-!
# Updates of a critical-bit tree

Inserting a leaf grafts a new node and the new leaf at the position of the key;
removing a leaf puts its sibling in the place of their parent.  Both change the
tables at a few entries next to a position of the binary tree.
-/

namespace Sui.DeepBook.Critbit

open Library
open List hiding after
open Sui.System
open Library.BitTree (Entry Frame plug)
open BitTree (plug fork locate mem_entries_insert entries_remove after before)
open Std (ExtTreeMap)
open Table (borrow_eq_ok add_eq_ok add)

variable {V : Type}

/-! ## Changing one entry -/

/-- An internal node with another child. -/
def withChild (node : InternalNode) (newChild : Nat) (isLeft : Bool) : InternalNode :=
  if isLeft then { node with leftChild := newChild }
  else { node with rightChild := newChild }

section Entries

variable (tree : CritbitTree V) {index : Nat}

section

variable (holds : Holds tree.internalNodes ((index, node) :: rest))

include holds

theorem setChild_eq (newChild : Nat)
    (isLeft : Bool) :
    ∃ nodes, setChild tree index newChild isLeft = .ok { tree with internalNodes := nodes } ∧
      Holds nodes ((index, withChild node newChild isLeft) :: rest) :=
  ⟨_, bind_of (borrow_eq_ok.mpr (holds.get mem_cons_self)) rfl, holds.update _⟩

theorem setNodeParent_eq (parent : Nat) :
    ∃ nodes, setNodeParent tree index parent = .ok { tree with internalNodes := nodes } ∧
      Holds nodes ((index, { node with parent }) :: rest) :=
  ⟨_, bind_of (borrow_eq_ok.mpr (holds.get mem_cons_self)) rfl, holds.update _⟩

end

theorem setLeafParent_eq (holds : Holds tree.leaves ((index, leaf) :: rest)) (parent : Nat) :
    ∃ leaves, setLeafParent tree index parent = .ok { tree with leaves } ∧
      Holds leaves ((index, { leaf with parent }) :: rest) :=
  ⟨_, bind_of (borrow_eq_ok.mpr (holds.get mem_cons_self)) rfl, holds.update _⟩

end Entries

/-- The indices of a binary tree are pointers of the right kind. -/
structure Indexed (parent : Nat) (shape : BitTree V) : Prop where
  node : ∀ entry ∈ nodeEntries parent shape, entry.1 < partitionIndex
  leaf : ∀ entry ∈ shape.entries, entry.index < maxCapacity

theorem Indexed.leaf_lt (indexed : Indexed parent (.leaf index key value)) : index < maxCapacity :=
  indexed.leaf _ (mem_singleton_self _)

theorem Indexed.node_lt (indexed : Indexed parent (.node index bit left right)) :
    index < partitionIndex :=
  indexed.node _ mem_cons_self

/-- Change the parent of a leaf or of an internal node, whichever a pointer is. -/
def setParent (tree : CritbitTree V) (ptr parent : Nat) : Program (CritbitTree V) :=
  if ptr > partitionIndex then
    setLeafParent tree (maxU64 - ptr) parent
  else
    setNodeParent tree ptr parent

/-- A subtree gets another parent. -/
theorem setParent_eq (tree : CritbitTree V)
    (nodes : Holds tree.internalNodes (nodeEntries oldParent shape ++ otherNodes))
    (leaves : Holds tree.leaves (leafEntries oldParent shape ++ otherLeaves))
    (indexed : Indexed oldParent shape) (parent : Nat) :
    ∃ nodes' leaves', setParent tree (pointer shape) parent =
        .ok { tree with internalNodes := nodes', leaves := leaves' } ∧
      Holds nodes' (nodeEntries parent shape ++ otherNodes) ∧
      Holds leaves' (leafEntries parent shape ++ otherLeaves) := by
  cases shape with
  | leaf index key value =>
    obtain ⟨above, restored⟩ := leaf_pointer indexed.leaf_lt
    obtain ⟨leaves', changed, holds⟩ := setLeafParent_eq tree leaves parent
    refine ⟨tree.internalNodes, leaves', ?_, nodes, holds⟩
    rw [setParent, pointer, if_pos above, restored, changed]
  | node index bit left right =>
    obtain ⟨nodes', changed, holds⟩ := setNodeParent_eq tree nodes parent
    refine ⟨nodes', tree.leaves, ?_, holds, leaves⟩
    rw [setParent, pointer, if_neg indexed.node_lt.not_gt, changed]

/-- Linking a subtree to its new parent. -/
theorem updateChild_eq (tree : CritbitTree V) (shape : BitTree V)
    (nodes : Holds tree.internalNodes
      ((index, node) :: (nodeEntries oldParent shape ++ otherNodes)))
    (leaves : Holds tree.leaves (leafEntries oldParent shape ++ otherLeaves))
    (indexed : Indexed oldParent shape) (isNode : index < partitionIndex) (isLeft : Bool) :
    ∃ nodes' leaves', updateChild tree index (pointer shape) isLeft =
        .ok { tree with internalNodes := nodes', leaves := leaves' } ∧
      Holds nodes' ((index, withChild node (pointer shape) isLeft) ::
        (nodeEntries index shape ++ otherNodes)) ∧
      Holds leaves' (leafEntries index shape ++ otherLeaves) := by
  obtain ⟨nodes₁, linked, holds₁⟩ := setChild_eq tree nodes (pointer shape) isLeft
  obtain ⟨nodes₂, leaves₂, adopted, holds₂, holdsLeaves⟩ := setParent_eq
    { tree with internalNodes := nodes₁ } (holds₁.perm perm_middle.symm) leaves indexed index
  refine ⟨nodes₂, leaves₂, ?_, holds₂.perm perm_middle, holdsLeaves⟩
  refine bind_of (require_of isNode.ne) ?_
  exact bind_of linked adopted

/-! ## Grafting a leaf -/

theorem withChild_frameNode (frame : Frame V) (hole parent filling : Nat) :
    withChild (frameNode frame hole parent) filling frame.onLeft =
      frameNode frame filling parent := by
  unfold withChild frameNode
  cases frame.onLeft <;> rfl

/-- The root of a tree after its subtree at a position is replaced. -/
def rootAfter (frames : List (Frame V)) (root filling : Nat) : Nat :=
  match frames with
  | [] => filling
  | _ :: _ => root

/-- The pointer to a tree after a part was replaced. -/
theorem pointer_plug (old new : BitTree V) :
    pointer (plug frames new) = rootAfter frames (pointer (plug frames old)) (pointer new) := by
  cases frames with
  | nil => rfl
  | cons frame outer =>
    change pointer (plug outer (frame.fill new)) = pointer (plug outer (frame.fill old))
    induction outer generalizing frame old new with
    | nil => rw [plug, plug, pointer_fill, pointer_fill]
    | cons frame' outer ih =>
      exact ih (frame.fill old) (frame.fill new) frame'

/-- A new internal node becomes the child of the parent at a position. -/
theorem linkInternalNode_eq (tree : CritbitTree V)
    (nodes : Holds tree.internalNodes ((index, ⟨mask, left, right, partitionIndex⟩) ::
      (frameNodes frames (pointer shape) ++ nodeEntries (parentOf frames) shape)))
    (isNode : index < partitionIndex) (frameIndex : ∀ frame ∈ frames, frame.index < partitionIndex)
    (apart : ∀ frame ∈ frames.head?, pointer frame.sibling ≠ pointer shape) :
    ∃ nodes', linkInternalNode tree (parentOf frames) (pointer shape) index =
        .ok { tree with
          root := rootAfter frames tree.root index
          internalNodes := nodes' } ∧
      Holds nodes' ((index, ⟨mask, left, right, parentOf frames⟩) ::
        (frameNodes frames index ++ nodeEntries (parentOf frames) shape)) := by
  cases frames with
  | nil =>
    exact ⟨tree.internalNodes, if_pos rfl, nodes⟩
  | cons frame outer =>
    have inside : frame.index < partitionIndex := frameIndex frame mem_cons_self
    have found := nodes.get (mem_cons_of_mem _ mem_cons_self)
    have isLeft := isLeftChild_eq found (apart frame rfl)
    obtain ⟨nodes₁, linked, holds₁⟩ := setChild_eq tree
      (nodes.perm (List.Perm.swap _ _ _)) index frame.onLeft
    rw [withChild_frameNode] at holds₁
    have holds₁' := holds₁.perm (List.Perm.swap _ _ _)
    obtain ⟨nodes₂, adopted, holds₂⟩ := setNodeParent_eq
      { tree with internalNodes := nodes₁ } holds₁' frame.index
    refine ⟨nodes₂, ?_, holds₂⟩
    rw [linkInternalNode, parentOf, if_neg inside.ne]
    refine bind_of isLeft ?_
    refine bind_of (require_of inside.ne) ?_
    refine bind_of linked ?_
    rw [if_neg isNode.not_gt]
    exact adopted

theorem pointer_fork (newNode bit newLeaf key : Nat) (value : V) (shape : BitTree V) :
    pointer (fork newNode bit newLeaf key value shape) = newNode := by
  unfold fork
  split <;> rfl

/-- The nodes of a subtree to which a leaf was added. -/
theorem nodeEntries_fork (parent newNode bit newLeaf key : Nat) (value : V) (shape : BitTree V) :
    nodeEntries parent (fork newNode bit newLeaf key value shape) = (newNode, withChild
        (withChild ⟨2 ^ bit, partitionIndex, partitionIndex, parent⟩ (maxU64 - newLeaf)
          (2 ^ bit &&& key == 0))
        (pointer shape) (!(2 ^ bit &&& key == 0))) :: nodeEntries newNode shape := by
  have side : (2 ^ bit &&& key == 0) = !key.testBit bit := by
    rw [Nat.and_comm, Bool.eq_iff_iff, beq_iff_eq, and_mask, Bool.not_eq_true']
  rw [side]
  unfold fork withChild
  cases key.testBit bit with
  | true =>
    rw [if_pos rfl, nodeEntries, nodeEntries, append_nil]
    rfl
  | false =>
    rfl

theorem leafEntries_fork (parent newNode bit newLeaf key : Nat) (value : V) (shape : BitTree V) :
    (leafEntries parent (fork newNode bit newLeaf key value shape)).Perm
      ((newLeaf, ⟨key, value, newNode⟩) :: leafEntries newNode shape) := by
  unfold fork
  split
  · exact perm_append_comm
  · exact .refl _

theorem indices_nodeEntries (parent parent' : Nat) (shape : BitTree V) :
    (nodeEntries parent shape).map Prod.fst = (nodeEntries parent' shape).map Prod.fst := by
  cases shape <;> rfl

theorem indices_frameNodes (frames : List (Frame V)) (hole hole' : Nat) :
    (frameNodes frames hole).map Prod.fst = (frameNodes frames hole').map Prod.fst := by
  cases frames <;> rfl

/-- A new leaf adds one internal node. -/
theorem indices_graft (frames : List (Frame V)) (newNode bit newLeaf key : Nat) (value : V)
    (shape : BitTree V) :
    ((nodeEntries partitionIndex
      (plug frames (fork newNode bit newLeaf key value shape))).map Prod.fst).Perm
        (newNode :: (nodeEntries partitionIndex (plug frames shape)).map Prod.fst) := by
  refine ((nodeEntries_plug frames _).map Prod.fst).trans ?_
  refine List.Perm.trans ?_ (((nodeEntries_plug frames shape).map Prod.fst).cons _).symm
  rw [pointer_fork, nodeEntries_fork, map_append, map_append, map_cons,
    indices_nodeEntries newNode (parentOf frames),
    indices_frameNodes frames newNode (pointer shape)]
  exact perm_middle

/-- Grafting a new leaf into the tables. -/
theorem graft_eq (tree : CritbitTree V)
    (nodes : Holds tree.internalNodes
      ((newNode, ⟨2 ^ bit, partitionIndex, partitionIndex, partitionIndex⟩) ::
        (frameNodes frames (pointer shape) ++ nodeEntries (parentOf frames) shape)))
    (leaves : Holds tree.leaves ((newLeaf, ⟨key, value, partitionIndex⟩) ::
      (frameLeaves frames ++ leafEntries (parentOf frames) shape)))
    (isNode : newNode < partitionIndex) (isLeaf : newLeaf < maxCapacity)
    (frameIndex : ∀ frame ∈ frames, frame.index < partitionIndex)
    (indexed : Indexed (parentOf frames) shape)
    (apart : ∀ frame ∈ frames.head?, pointer frame.sibling ≠ pointer shape) :
    ∃ nodes' leaves', graft tree key (2 ^ bit) newLeaf newNode (pointer shape) (parentOf frames) =
        .ok { tree with
          root := rootAfter frames tree.root newNode
          internalNodes := nodes'
          leaves := leaves' } ∧
      Holds nodes' (nodeEntries partitionIndex
        (plug frames (fork newNode bit newLeaf key value shape))) ∧
      Holds leaves' (leafEntries partitionIndex
        (plug frames (fork newNode bit newLeaf key value shape))) := by
  have indexedLeaf : Indexed partitionIndex (.leaf newLeaf key value) :=
    ⟨nofun, forall_mem_singleton.mpr isLeaf⟩
  obtain ⟨nodes₁, linked, holds₁⟩ := linkInternalNode_eq tree nodes isNode frameIndex apart
  -- The new leaf is a tree of its own, which gets the new node as its parent.
  obtain ⟨nodes₂, leaves₂, updated₂, holds₂, holdsLeaves₂⟩ := updateChild_eq
    { tree with root := rootAfter frames tree.root newNode, internalNodes := nodes₁ }
    (.leaf newLeaf key value) holds₁ leaves indexedLeaf isNode (2 ^ bit &&& key == 0)
  have holds₂' : Holds nodes₂ ((newNode, withChild
      ⟨2 ^ bit, partitionIndex, partitionIndex, parentOf frames⟩ (maxU64 - newLeaf)
        (2 ^ bit &&& key == 0)) ::
      (frameNodes frames newNode ++ nodeEntries (parentOf frames) shape)) := holds₂
  have shapeLeaves : ((newLeaf, ⟨key, value, newNode⟩) ::
      (frameLeaves frames ++ leafEntries (parentOf frames) shape)).Perm
        (leafEntries (parentOf frames) shape ++
          ((newLeaf, ⟨key, value, newNode⟩) :: frameLeaves frames)) :=
    (perm_append_comm.cons _).trans perm_middle.symm
  obtain ⟨nodes₃, leaves₃, updated₃, holds₃, holdsLeaves₃⟩ := updateChild_eq
    { tree with
      root := rootAfter frames tree.root newNode
      internalNodes := nodes₂
      leaves := leaves₂ }
    shape (holds₂'.perm (perm_append_comm.cons _)) (holdsLeaves₂.perm shapeLeaves)
    indexed isNode (!(2 ^ bit &&& key == 0))
  refine ⟨nodes₃, leaves₃, ?_, ?_, ?_⟩
  · refine bind_of linked ?_
    exact bind_of updated₂ updated₃
  · apply holds₃.perm
    refine List.Perm.trans ?_ (nodeEntries_plug frames _).symm
    rw [pointer_fork, nodeEntries_fork, ← cons_append]
    exact perm_append_comm
  · apply holdsLeaves₃.perm
    refine List.Perm.trans ?_ (leafEntries_plug frames _).symm
    refine List.Perm.trans ?_ ((leafEntries_fork _ _ _ _ _ _ _).append_left _).symm
    refine perm_middle.trans ?_
    refine List.Perm.trans ?_ perm_middle.symm
    exact perm_append_comm.cons _

/-! ## Inserting a leaf -/

/-- The mask is the highest bit in which two keys differ. -/
theorem criticalMask_eq (differ : left ≠ right) (leftFits : left < 2 ^ 64)
    (rightFits : right < 2 ^ 64) :
    criticalMask left right = .ok (2 ^ criticalBit left right) := by
  have nonzero : left ^^^ right ≠ 0 := Nat.xor_ne_zero_iff.mpr differ
  have fits : left ^^^ right < 2 ^ 64 := Nat.xor_lt_two_pow leftFits rightFits
  have low : (left ^^^ right).log2 < 64 := (Nat.log2_lt nonzero).mpr fits
  have zeros := ClobMath.countLeadingZeros_eq nonzero
    (Nat.lt_trans fits (Nat.pow_lt_pow_right (by decide) (by decide)))
  have shifted : (1 <<< (left ^^^ right).log2) % 2 ^ 64 = 2 ^ (left ^^^ right).log2 := by
    rw [Nat.one_shiftLeft]
    exact Nat.mod_eq_of_lt (Nat.pow_lt_pow_right (by decide) low)
  refine bind_eq_ok.mpr ⟨63 - (left ^^^ right).log2, checkedSub_eq_ok.mpr (by omega), ?_⟩
  refine bind_eq_ok.mpr ⟨(left ^^^ right).log2 + 1, checkedSub_eq_ok.mpr (by omega), ?_⟩
  refine bind_eq_ok.mpr ⟨(left ^^^ right).log2, checkedSub_eq_ok.mpr (by omega), ?_⟩
  refine bind_of (require_of low) ?_
  exact congrArg Except.ok shifted

/-- The search of the position of a new node follows the binary tree. -/
theorem findPosition_eq {tree : CritbitTree V} (key bit : Nat) (outer : List (Frame V))
    (present : ∀ entry ∈ nodeEntries (parentOf outer) shape,
      tree.internalNodes[entry.1]? = some entry.2)
    (indexed : Indexed (parentOf outer) shape) (enough : shape.nodeCount < fuel) :
    findPosition tree key (2 ^ bit) fuel (pointer shape) (parentOf outer) =
      .ok (pointer (locate key bit outer shape).2,
        parentOf (locate key bit outer shape).1) := by
  induction shape generalizing outer fuel with
  | leaf index key' value =>
    obtain ⟨fuel, rfl⟩ := Nat.exists_eq_add_one.mpr (Nat.zero_lt_of_lt enough)
    rw [findPosition, pointer, if_neg (leaf_pointer indexed.leaf_lt).1.not_gt]
    rfl
  | node index bit' left right leftHypothesis rightHypothesis =>
    obtain ⟨fuel, rfl⟩ := Nat.exists_eq_add_one.mpr (Nat.zero_lt_of_lt enough)
    rw [BitTree.nodeCount] at enough
    rw [findPosition, pointer, if_pos indexed.node_lt]
    refine bind_of (borrow_eq_ok.mpr (present _ mem_cons_self)) ?_
    rw [locate]
    by_cases low : bit' < bit
    · rw [if_pos low, if_pos (Nat.pow_lt_pow_right (by decide) low)]
      rfl
    · have atLeast : ¬2 ^ bit > 2 ^ bit' :=
        Nat.not_lt.mpr (Nat.pow_le_pow_right (by decide) (Nat.not_lt.mp low))
      rw [if_neg low, if_neg atLeast, childOf_eq]
      have nodes := forall_mem_append.mp (forall_mem_cons.mp present).2
      have nodeIndex := forall_mem_append.mp (forall_mem_cons.mp indexed.node).2
      have leafIndex := forall_mem_append.mp indexed.leaf
      cases key.testBit bit' with
      | true =>
        apply rightHypothesis (⟨index, bit', false, left⟩ :: outer) nodes.2
        · exact ⟨nodeIndex.2, leafIndex.2⟩
        · omega
      | false =>
        apply leftHypothesis (⟨index, bit', true, right⟩ :: outer) nodes.1
        · exact ⟨nodeIndex.1, leafIndex.1⟩
        · omega

/-- The ends after a key was inserted. -/
theorem updateEnds_eq (isLeast : tree.leaves[tree.minLeaf]? = some least)
    (isGreatest : tree.leaves[tree.maxLeaf]? = some greatest) (key index : Nat) :
    updateEnds tree key index = .ok { tree with
      minLeaf := if key < least.key then index else tree.minLeaf
      maxLeaf := if greatest.key < key then index else tree.maxLeaf } := by
  refine bind_of (borrow_eq_ok.mpr isLeast) ?_
  by_cases lower : least.key > key
  all_goals
    simp only [lower, if_true, if_false]
    refine bind_of (borrow_eq_ok.mpr isGreatest) ?_
    by_cases higher : greatest.key < key
    all_goals
      simp only [higher, if_true, if_false]
      rfl

theorem Stores.indexed (stores : Stores tree (plug frames shape)) :
    Indexed (parentOf frames) shape :=
  ⟨fun _ listed => (stores.nodes_below listed).2, fun _ listed => stores.leafIndex_below listed⟩

theorem Stores.frameIndex (stores : Stores tree (plug frames shape)) :
    ∀ frame ∈ frames, frame.index < partitionIndex := by
  intro frame listed
  obtain ⟨_, _, present⟩ := mem_frameNodes listed (pointer shape)
  exact (stores.nodes_around present).2

/-- The pointers of a position and of its sibling differ. -/
theorem Stores.apart (stores : Stores tree (plug frames shape)) :
    ∀ frame ∈ frames.head?, pointer frame.sibling ≠ pointer shape := by
  intro frame isFirst
  obtain ⟨outer, rfl⟩ := head?_eq_some_iff.mp isFirst
  exact stores.pointer_ne_sibling

/-- Inserting into the empty tree. -/
theorem insertLeaf_new (fits : key < 2 ^ 64) (value : V) :
    ∃ tree, insertLeaf new key value = .ok (0, tree) ∧
      Grown tree (.leaf 0 key value) ∧ tree.nextLeafIndex = 1 := by
  have none : (∅ : ExtTreeMap Nat (Leaf V))[0]? = none := by simp
  have room : 0 < maxCapacity - 1 := by decide
  refine ⟨{
      root := maxU64 - 0
      internalNodes := ∅
      leaves := (∅ : ExtTreeMap Nat (Leaf V)).insert 0 ⟨key, value, partitionIndex⟩
      minLeaf := 0
      maxLeaf := 0
      nextInternalNodeIndex := 0
      nextLeafIndex := 1 }, ?_, ?_, rfl⟩
  · refine bind_eq_ok.mpr ⟨1, rfl, ?_⟩
    refine bind_of (require_of room) ?_
    refine bind_of (add_eq_ok.mpr ⟨none, rfl⟩) ?_
    refine bind_of (if_pos rfl) ?_
    exact bind_of (require_of rfl) rfl
  · exact {
      nodes := Holds.empty
      leaves := Holds.empty.add not_mem_nil _
      nodeIndex := nofun
      leafIndex := forall_mem_singleton.mpr (Nat.lt_of_lt_of_le room (Nat.sub_le _ _))
      root := rfl
      critical := trivial
      minLeaf := rfl
      maxLeaf := rfl
      nodeBound := nofun
      leafBound := forall_mem_singleton.mpr Nat.zero_lt_one
      counters := rfl
      capacity := room
      keys := forall_mem_singleton.mpr fits }

namespace Grown

variable {tree : CritbitTree V} {shape : BitTree V}

section

variable (grown : Grown tree shape)

include grown

theorem node_missing :
    tree.nextInternalNodeIndex ∉ (nodeEntries partitionIndex shape).map Prod.fst := by
  intro listed
  obtain ⟨entry, isEntry, same⟩ := mem_map.mp listed
  exact absurd same (grown.nodeBound entry isEntry).ne

theorem leaf_missing : tree.nextLeafIndex ∉ (leafEntries partitionIndex shape).map Prod.fst := by
  intro listed
  obtain ⟨entry, isEntry, same⟩ := mem_map.mp listed
  have isLeaf := grown.mem_entries (grown.leaves.get isEntry)
  exact absurd same (grown.leafBound _ isLeaf).ne

/-- What inserting does before it compares the keys. -/
theorem insertLeaf_start (room : tree.nextLeafIndex < maxCapacity - 1) (key : Nat) (value : V) :
    U64.add tree.nextLeafIndex 1 = .ok (tree.nextLeafIndex + 1) ∧
      add tree.leaves tree.nextLeafIndex ⟨key, value, partitionIndex⟩ =
        .ok (tree.leaves.insert tree.nextLeafIndex ⟨key, value, partitionIndex⟩) ∧
      getClosestLeafIndexByKey { tree with
        nextLeafIndex := tree.nextLeafIndex + 1
        leaves := tree.leaves.insert tree.nextLeafIndex ⟨key, value, partitionIndex⟩ } key =
          .ok (shape.closest key).index := by
  have missing := grown.leaves.get_none grown.leaf_missing
  refine ⟨U64.add_eq_ok.mpr ⟨?_, rfl⟩, add_eq_ok.mpr ⟨missing, rfl⟩, ?_⟩
  · simp only [maxCapacity] at room
    omega
  · exact grown.getClosestLeafIndexByKey grown.root key

/-- Without an index left nothing is inserted. -/
theorem insertLeaf_full (full : ¬tree.nextLeafIndex < maxCapacity - 1) (key : Nat) (value : V) :
    insertLeaf tree key value = .error (.critbit eExceedCapacity) := by
  have fits : U64.add tree.nextLeafIndex 1 = .ok (tree.nextLeafIndex + 1) := by
    have capacity := grown.capacity
    simp only [maxCapacity] at capacity
    exact U64.add_eq_ok.mpr ⟨by omega, rfl⟩
  rw [insertLeaf, fits, ok_bind, require_of_not full, error_bind]

theorem leaf_after_add (listed : entry ∈ shape.entries) (new : Leaf V) :
    ∃ parent, (tree.leaves.insert tree.nextLeafIndex new)[entry.index]? =
      some ⟨entry.key, entry.value, parent⟩ := by
  obtain ⟨parent, found⟩ := grown.leaf listed
  refine ⟨parent, ?_⟩
  rw [Map.getElem?_insert, if_neg (grown.leafBound entry listed).ne']
  exact found

/-- A key that is present is rejected. -/
theorem insertLeaf_present (room : tree.nextLeafIndex < maxCapacity - 1)
    (listed : entry ∈ shape.entries) (value : V) :
    insertLeaf tree entry.key value = .error (.critbit eKeyAlreadyExist) := by
  obtain ⟨next, added, closest⟩ := grown.insertLeaf_start room entry.key value
  rw [grown.critical.closest_eq listed] at closest
  obtain ⟨parent, found⟩ := grown.leaf_after_add listed ⟨entry.key, value, partitionIndex⟩
  rw [insertLeaf, next, ok_bind, require_of room, ok_bind, added, ok_bind]
  dsimp only
  rw [closest, ok_bind, if_neg (grown.index_ne listed), borrow_eq_ok.mpr found,
    ok_bind, require_of_not (not_not.mpr rfl), error_bind]

end

/-- The tree with a new leaf and a new internal node that are not linked yet. -/
def unlinked (tree : CritbitTree V) (bit key : Nat) (value : V) : CritbitTree V :=
  { tree with
    nextLeafIndex := tree.nextLeafIndex + 1
    leaves := tree.leaves.insert tree.nextLeafIndex ⟨key, value, partitionIndex⟩
    nextInternalNodeIndex := tree.nextInternalNodeIndex + 1
    internalNodes := tree.internalNodes.insert tree.nextInternalNodeIndex
      ⟨2 ^ bit, partitionIndex, partitionIndex, partitionIndex⟩ }

/-- The binary tree after a leaf is inserted. -/
abbrev grow (tree : CritbitTree V) (shape : BitTree V) (key : Nat) (value : V) : BitTree V :=
  shape.insert tree.nextInternalNodeIndex tree.nextLeafIndex key value

variable (grown : Grown tree shape)

include grown

/-- The position of a new leaf is found. -/
theorem findPosition (key bit : Nat) (value : V) :
    findPosition (unlinked tree bit key value) key (2 ^ bit)
        ((unlinked tree bit key value).internalNodes.size + 1)
        (unlinked tree bit key value).root partitionIndex =
      .ok (pointer (locate key bit [] shape).2,
        parentOf (locate key bit [] shape).1) := by
  have nodes := grown.nodes.add grown.node_missing
    ⟨2 ^ bit, partitionIndex, partitionIndex, partitionIndex⟩
  have stores : Stores tree (plug [] shape) := grown.toStores
  have enough : shape.nodeCount < (unlinked tree bit key value).internalNodes.size + 1 := by
    have size : (unlinked tree bit key value).internalNodes.size = _ := nodes.size
    rw [size, length_cons, length_nodeEntries]
    omega
  change Critbit.findPosition _ key (2 ^ bit) _ tree.root _ = _
  rw [grown.root]
  exact findPosition_eq key bit [] (fun entry listed =>
    nodes.get (mem_cons_of_mem _ listed)) stores.indexed enough

/-- A new leaf is grafted at its position. -/
theorem graft (room : tree.nextLeafIndex < maxCapacity - 1) (key : Nat) (value : V) :
    let bit := criticalBit (shape.closest key).key key
    ∃ nodes leaves, Critbit.graft (unlinked tree bit key value) key (2 ^ bit) tree.nextLeafIndex
          tree.nextInternalNodeIndex (pointer (BitTree.locate key bit [] shape).2)
          (parentOf (BitTree.locate key bit [] shape).1) =
        .ok { unlinked tree bit key value with
          root := pointer (grow tree shape key value)
          internalNodes := nodes
          leaves := leaves } ∧
      Holds nodes (nodeEntries partitionIndex (grow tree shape key value)) ∧
      Holds leaves (leafEntries partitionIndex (grow tree shape key value)) := by
  dsimp only [grow, BitTree.insert]
  generalize criticalBit (shape.closest key).key key = bit
  have whole : plug (BitTree.locate key bit [] shape).1 (BitTree.locate key bit [] shape).2 =
      shape := BitTree.plug_locate key bit [] shape
  generalize BitTree.locate key bit [] shape = position at whole ⊢
  obtain ⟨frames, subtree⟩ := position
  subst whole
  have stores := grown.toStores
  have counters := grown.counters
  have isNode : tree.nextInternalNodeIndex < partitionIndex := by
    simp only [maxCapacity, partitionIndex] at room ⊢
    omega
  have nodes := (grown.nodes.add grown.node_missing
    ⟨2 ^ bit, partitionIndex, partitionIndex, partitionIndex⟩).perm
      ((nodeEntries_plug frames subtree).cons _)
  have leaves := (grown.leaves.add grown.leaf_missing ⟨key, value, partitionIndex⟩).perm
    ((leafEntries_plug frames subtree).cons _)
  have grafted := graft_eq (unlinked tree bit key value) nodes leaves isNode
    (Nat.lt_of_lt_of_le room (Nat.sub_le _ _)) stores.frameIndex stores.indexed stores.apart
  rw [pointer_plug subtree, pointer_fork, ← grown.root]
  exact grafted

/-- The new node has the greatest index. -/
theorem nodeBound_insert (key : Nat) (value : V) :
    ∀ entry ∈ nodeEntries partitionIndex (grow tree shape key value),
      entry.1 < tree.nextInternalNodeIndex + 1 := by
  intro entry listed
  have isIndex := (indices_graft _ _ _ _ _ _ _).mem_iff.mp (mem_map_of_mem listed)
  rw [BitTree.plug_locate] at isIndex
  rcases mem_cons.mp isIndex with isNew | isOld
  · rw [isNew]
    exact Nat.lt_succ_self _
  · exact Nat.lt_succ_of_lt ((forall_mem_map (P := (· < _))).mpr grown.nodeBound _ isOld)

/-- The new leaf has the greatest index. -/
theorem leafBound_insert (key : Nat) (value : V) :
    ∀ entry ∈ (grow tree shape key value).entries, entry.index < tree.nextLeafIndex + 1 := by
  intro entry listed
  rcases mem_entries_insert.mp listed with rfl | isOld
  · exact Nat.lt_succ_self _
  · exact Nat.lt_succ_of_lt (grown.leafBound entry isOld)

/-- Once a new leaf is grafted, only the ends are left to update. -/
theorem updateEnds_insert (room : tree.nextLeafIndex < maxCapacity - 1) (fits : key < 2 ^ 64)
    (critical : (grow tree shape key value).Critical)
    (holdsNodes : Holds nodes (nodeEntries partitionIndex (grow tree shape key value)))
    (holdsLeaves : Holds leaves (leafEntries partitionIndex (grow tree shape key value))) :
    let linked := { unlinked tree bit key value with
      root := pointer (grow tree shape key value)
      internalNodes := nodes
      leaves := leaves }
    ∃ tree', updateEnds linked key tree.nextLeafIndex = .ok tree' ∧
      Grown tree' (grow tree shape key value) ∧ tree'.nextLeafIndex = tree.nextLeafIndex + 1 := by
  intro linked
  have nodeBound := grown.nodeBound_insert key value
  have leafBound := grown.leafBound_insert key value
  have leftmost := critical.leftmost_insert
  have rightmost := critical.rightmost_insert
  have counters := grown.counters
  have nodeRoom : tree.nextInternalNodeIndex + 1 ≤ partitionIndex := by
    simp only [maxCapacity, partitionIndex] at room ⊢
    omega
  have stores : Stores linked (grow tree shape key value) :=
    { nodes := holdsNodes
      leaves := holdsLeaves
      nodeIndex := fun entry listed => Nat.lt_of_lt_of_le (nodeBound entry listed) nodeRoom
      leafIndex := fun entry listed => by
        have bound := leafBound entry listed
        omega }
  have isOld : ∀ {entry : Entry V}, entry ∈ shape.entries →
      entry ∈ (grow tree shape key value).entries :=
    fun listed => mem_entries_insert.mpr (.inr listed)
  obtain ⟨_, least⟩ := stores.leaf (isOld (mem_of_head? shape.head?_entries))
  obtain ⟨_, greatest⟩ := stores.leaf (isOld (mem_of_getLast? shape.getLast?_entries))
  rw [← grown.minLeaf] at least
  rw [← grown.maxLeaf] at greatest
  refine ⟨_, updateEnds_eq least greatest key tree.nextLeafIndex, ?_, rfl⟩
  exact {
    toStores := { stores with }
    root := rfl
    critical := critical
    minLeaf := by
      rw [leftmost, apply_ite Entry.index, ← grown.minLeaf]
      rfl
    maxLeaf := by
      rw [rightmost, apply_ite Entry.index, ← grown.maxLeaf]
      rfl
    nodeBound := nodeBound
    leafBound := leafBound
    counters := congrArg (· + 1) counters
    capacity := room
    keys := fun entry listed => by
      rcases mem_entries_insert.mp listed with rfl | isOld
      · exact fits
      · exact grown.keys entry isOld }

/-- A new key is inserted at its place. -/
theorem insertLeaf (room : tree.nextLeafIndex < maxCapacity - 1)
    (fits : key < 2 ^ 64) (missing : ∀ entry ∈ shape.entries, entry.key ≠ key) (value : V) :
    ∃ tree', Critbit.insertLeaf tree key value = .ok (tree.nextLeafIndex, tree') ∧
      Grown tree' (grow tree shape key value) ∧ tree'.nextLeafIndex = tree.nextLeafIndex + 1 := by
  have isClosest := BitTree.closest_mem key shape
  have differs := missing _ isClosest
  obtain ⟨next, added, closest⟩ := grown.insertLeaf_start room key value
  obtain ⟨parent, found⟩ := grown.leaf_after_add isClosest ⟨key, value, partitionIndex⟩
  have mask := criticalMask_eq differs (grown.keys _ isClosest) fits
  have newCritical := grown.critical.insert differs tree.nextInternalNodeIndex
    tree.nextLeafIndex value
  have nodeNext : U64.add tree.nextInternalNodeIndex 1 = .ok (tree.nextInternalNodeIndex + 1) := by
    have counters := grown.counters
    simp only [maxCapacity] at room
    exact U64.add_eq_ok.mpr ⟨by omega, rfl⟩
  have nodeMissing := grown.nodes.get_none grown.node_missing
  have position := grown.findPosition key (criticalBit (shape.closest key).key key) value
  obtain ⟨nodes, leaves, grafted, holdsNodes, holdsLeaves⟩ := grown.graft room key value
  obtain ⟨tree', ends, grown', nextLeaf⟩ :=
    grown.updateEnds_insert room fits newCritical holdsNodes holdsLeaves
  refine ⟨tree', ?_, grown', nextLeaf⟩
  refine bind_of next ?_
  refine bind_of (require_of room) ?_
  refine bind_of added ?_
  refine bind_of closest ?_
  rw [if_neg (grown.index_ne isClosest)]
  refine bind_of (borrow_eq_ok.mpr found) ?_
  refine bind_of (require_of differs) ?_
  refine bind_of mask ?_
  refine bind_of nodeNext ?_
  refine bind_of (add_eq_ok.mpr ⟨nodeMissing, rfl⟩) ?_
  refine bind_of position ?_
  refine bind_of grafted ?_
  exact bind_of ends rfl

end Grown

/-! ## Removing a leaf -/

/-- A root has no parent. -/
theorem orphan_eq (indexed : Indexed parent shape) :
    orphan tree (pointer shape) = setParent tree (pointer shape) partitionIndex := by
  cases shape with
  | leaf index key value =>
    have above := (leaf_pointer indexed.leaf_lt).1
    rw [orphan, setParent, pointer, if_neg above.not_gt, if_pos above]
  | node index bit left right =>
    rw [orphan, setParent, pointer, if_pos indexed.node_lt, if_neg indexed.node_lt.not_gt]

/-- The sibling of a removed leaf takes the place of their parent. -/
theorem replaceParent_eq (tree : CritbitTree V) {frame : Frame V}
    (nodes : Holds tree.internalNodes ((frame.index, node) ::
      (nodeEntries frame.index frame.sibling ++ frameNodes outer frame.index)))
    (leaves : Holds tree.leaves (leafEntries frame.index frame.sibling ++ frameLeaves outer))
    (indexed : Indexed frame.index frame.sibling)
    (frameIndex : ∀ frame ∈ outer, frame.index < partitionIndex)
    (apart : ∀ grandParent ∈ outer.head?, pointer grandParent.sibling ≠ frame.index) :
    ∃ nodes' leaves', replaceParent tree frame.index (parentOf outer) (pointer frame.sibling) =
        .ok { tree with
          root := rootAfter outer tree.root (pointer frame.sibling)
          internalNodes := nodes'
          leaves := leaves' } ∧
      Holds nodes' ((frame.index, node) :: (nodeEntries (parentOf outer) frame.sibling ++
        frameNodes outer (pointer frame.sibling))) ∧
      Holds leaves' (leafEntries (parentOf outer) frame.sibling ++ frameLeaves outer) := by
  cases outer with
  | nil =>
    obtain ⟨nodes', leaves', adopted, holds, holdsLeaves⟩ := setParent_eq tree
      (nodes.perm perm_middle.symm) leaves indexed partitionIndex
    refine ⟨nodes', leaves', ?_, holds.perm perm_middle, holdsLeaves⟩
    rw [replaceParent, parentOf, if_pos rfl, orphan_eq indexed]
    exact bind_of adopted rfl
  | cons grandParent outer =>
    have inside := frameIndex grandParent mem_cons_self
    have found := nodes.get (mem_cons_of_mem _ (mem_append_right _ mem_cons_self))
    have isLeft := isLeftChild_eq found (apart grandParent rfl)
    -- The node of the grandparent comes first, then the sibling.
    have toFront : ((frame.index, node) :: (nodeEntries frame.index frame.sibling ++
          frameNodes (grandParent :: outer) frame.index)).Perm
        ((grandParent.index, frameNode grandParent frame.index (parentOf outer)) ::
          (nodeEntries frame.index frame.sibling ++ ((frame.index, node) ::
            (nodeEntries grandParent.index grandParent.sibling ++
              frameNodes outer grandParent.index)))) := by
      refine (perm_middle.cons _).trans ((List.Perm.swap _ _ _).trans ?_)
      exact perm_middle.symm.cons _
    obtain ⟨nodes', leaves', updated, holds, holdsLeaves⟩ := updateChild_eq tree
      frame.sibling (nodes.perm toFront) leaves indexed inside grandParent.onLeft
    rw [withChild_frameNode] at holds
    refine ⟨nodes', leaves', ?_, ?_, holdsLeaves⟩
    · rw [replaceParent, parentOf, if_neg inside.ne]
      exact bind_of isLeft updated
    · apply holds.perm
      refine (perm_middle.cons _).trans ((List.Perm.swap _ _ _).trans ?_)
      exact perm_middle.symm.cons _

/-- Unlinking the parent of a removed leaf. -/
theorem unlinkParent_eq (tree : CritbitTree V) {frame : Frame V}
    (nodes : Holds tree.internalNodes (frameNodes (frame :: outer) (maxU64 - index)))
    (leaves : Holds tree.leaves (frameLeaves (frame :: outer)))
    (indexed : Indexed frame.index frame.sibling)
    (frameIndex : ∀ frame' ∈ frame :: outer, frame'.index < partitionIndex)
    (apartLeaf : pointer frame.sibling ≠ maxU64 - index)
    (apart : ∀ grandParent ∈ outer.head?, pointer grandParent.sibling ≠ frame.index) :
    ∃ nodes' leaves', unlinkParent tree frame.index index =
        .ok { tree with
          root := rootAfter outer tree.root (pointer frame.sibling)
          internalNodes := nodes'
          leaves := leaves' } ∧
      Holds nodes' (nodeEntries partitionIndex (plug outer frame.sibling)) ∧
      Holds leaves' (leafEntries partitionIndex (plug outer frame.sibling)) := by
  have inside := frameIndex frame mem_cons_self
  have found := nodes.get mem_cons_self
  have isLeft := isLeftChild_eq found apartLeaf
  obtain ⟨nodes₁, leaves₁, replaced, holds, holdsLeaves⟩ := replaceParent_eq tree nodes leaves
    indexed (fun frame' listed => frameIndex frame' (mem_cons_of_mem _ listed)) apart
  refine ⟨nodes₁.erase frame.index, leaves₁, ?_, ?_, ?_⟩
  · refine bind_of (require_of inside.ne) ?_
    refine bind_of (borrow_eq_ok.mpr found) ?_
    refine bind_of isLeft ?_
    have sibling : (if frame.onLeft then
          (frameNode frame (maxU64 - index) (parentOf outer)).rightChild
        else (frameNode frame (maxU64 - index) (parentOf outer)).leftChild) =
        pointer frame.sibling := by
      unfold frameNode
      cases frame.onLeft <;> rfl
    rw [sibling, frameNode_parent]
    refine bind_of replaced ?_
    exact bind_of (Table.remove_eq_ok.mpr ⟨holds.get mem_cons_self, rfl⟩) rfl
  · exact holds.erase.perm (perm_append_comm.trans (nodeEntries_plug outer _).symm)
  · exact holdsLeaves.perm (perm_append_comm.trans (leafEntries_plug outer _).symm)

/-- Without the entry, the first one is the next one or stays the first one. -/
theorem head?_remove {least least' : Entry V}
    (distinct : ((earlier ++ entry :: later).map Entry.index).Nodup)
    (first : (earlier ++ entry :: later).head? = some least)
    (first' : (earlier ++ later).head? = some least') :
    (if least.index = entry.index then (place later.head?).2 else least.index) =
      least'.index := by
  cases earlier with
  | nil =>
    cases first
    exact (if_pos rfl).trans (congrArg (fun found => (place found).2) first')
  | cons other earlier =>
    cases first
    cases first'
    have missing := (nodup_cons.mp distinct).1
    refine if_neg fun same => missing ?_
    exact same ▸ mem_map_of_mem (mem_append_right _ mem_cons_self)

section Ends

variable {tree : CritbitTree V} {shape : BitTree V} {earlier later : List (Entry V)}
  {entry : Entry V} (split : shape.entries = earlier ++ entry :: later)

include split

/-- The least leaf moves on if it is removed. -/
theorem Rooted.shiftMinLeaf (rooted : Rooted tree shape) :
    shiftMinLeaf tree entry.key entry.index = .ok { tree with
      minLeaf := if tree.minLeaf = entry.index then (place later.head?).2
        else tree.minLeaf } := by
  unfold Critbit.shiftMinLeaf
  by_cases isMin : tree.minLeaf = entry.index
  · rw [if_pos isMin, if_pos isMin]
    exact bind_of (rooted.nextLeaf split) rfl
  · rw [if_neg isMin, if_neg isMin]
    rfl

/-- The greatest leaf moves on if it is removed. -/
theorem Rooted.shiftMaxLeaf (rooted : Rooted tree shape) :
    shiftMaxLeaf tree entry.key entry.index = .ok { tree with
      maxLeaf := if tree.maxLeaf = entry.index then (place earlier.getLast?).2
        else tree.maxLeaf } := by
  unfold Critbit.shiftMaxLeaf
  by_cases isMax : tree.maxLeaf = entry.index
  · rw [if_pos isMax, if_pos isMax]
    exact bind_of (rooted.previousLeaf split) rfl
  · rw [if_neg isMax, if_neg isMax]
    rfl

/-- The least leaf of what remains. -/
theorem Grown.minLeaf_remove (grown : Grown tree shape) {shape' : BitTree V}
    (remaining : shape'.entries = earlier ++ later) :
    (if tree.minLeaf = entry.index then (place later.head?).2 else tree.minLeaf) =
      shape'.leftmost.index := by
  have distinct := grown.indices_distinct
  have first := shape.head?_entries
  have first' := shape'.head?_entries
  rw [split] at distinct first
  rw [remaining] at first'
  rw [grown.minLeaf]
  exact head?_remove distinct first first'

/-- The greatest leaf of what remains. -/
theorem Grown.maxLeaf_remove (grown : Grown tree shape) {shape' : BitTree V}
    (remaining : shape'.entries = earlier ++ later) :
    (if tree.maxLeaf = entry.index then (place earlier.getLast?).2 else tree.maxLeaf) =
      shape'.rightmost.index := by
  have distinct := nodup_reverse.mpr grown.indices_distinct
  have last := shape.getLast?_entries
  have last' := shape'.getLast?_entries
  rw [← head?_reverse] at last last'
  rw [← map_reverse] at distinct
  rw [split, reverse_append, reverse_cons, append_assoc] at distinct last
  rw [remaining, reverse_append] at last'
  rw [grown.maxLeaf, ← head?_reverse]
  exact head?_remove distinct last last'

end Ends

/-- The leaves of a tree, in the order of their keys. -/
inductive Lists (tree : CritbitTree V) : List (Entry V) → Prop
  | empty : tree = new → Lists tree []
  | grown {shape : BitTree V} : Grown tree shape → Lists tree shape.entries

theorem unlinkLeaf_last (tree : CritbitTree V) (parentIndex index : Nat)
    (nodes : Holds tree.internalNodes []) (leaves : Holds tree.leaves []) :
    unlinkLeaf tree parentIndex index = .ok new := by
  have isZero : size tree = 0 := leaves.size
  rw [unlinkLeaf, if_pos isZero, nodes.eq_empty, leaves.eq_empty]
  rfl

/-- Removing a leaf removes one internal node. -/
theorem indices_unlink (frame : Frame V) (outer : List (Frame V)) (index key : Nat) (value : V) :
    (frame.index :: (nodeEntries partitionIndex (plug outer frame.sibling)).map Prod.fst).Perm
      ((nodeEntries partitionIndex (plug (frame :: outer) (.leaf index key value))).map
        Prod.fst) := by
  refine (((nodeEntries_plug outer _).map Prod.fst).cons _).trans ?_
  refine List.Perm.trans ?_ ((nodeEntries_plug (frame :: outer) _).map Prod.fst).symm
  rw [frameNodes, map_append, map_append, map_cons, map_append,
    indices_nodeEntries (parentOf outer) frame.index,
    indices_frameNodes outer _ frame.index, nodeEntries, map_nil, append_nil]
  exact perm_append_comm.cons _

/-- Unlinking a leaf from a larger tree. -/
theorem Grown.unlinkLeaf {entry : Entry V}
    (grown : Grown tree (plug (frame :: outer) (.leaf entry.index entry.key entry.value)))
    {minLeaf maxLeaf : Nat} (isMin : minLeaf = (plug outer frame.sibling).leftmost.index)
    (isMax : maxLeaf = (plug outer frame.sibling).rightmost.index) :
    let removed := { tree with
      minLeaf := minLeaf
      maxLeaf := maxLeaf
      leaves := tree.leaves.erase entry.index }
    ∃ tree', Critbit.unlinkLeaf removed frame.index entry.index = .ok tree' ∧
      Grown tree' (plug outer frame.sibling) ∧ tree'.nextLeafIndex = tree.nextLeafIndex := by
  intro removed
  have stores := grown.toStores
  have whole : Stores tree (plug outer
      (frame.fill (.leaf entry.index entry.key entry.value))) := stores
  have leaves : Holds (tree.leaves.erase entry.index) (frameLeaves (frame :: outer)) :=
    (grown.leaves.perm ((leafEntries_plug _ _).trans perm_append_comm)).erase
  have nodes := grown.nodes.perm (nodeEntries_plug (frame :: outer)
    (.leaf entry.index entry.key entry.value))
  rw [nodeEntries, append_nil] at nodes
  have siblingStores : Stores tree (plug (⟨frame.index, frame.bit, !frame.onLeft,
        .leaf entry.index entry.key entry.value⟩ :: outer) frame.sibling) := by
    rw [plug, fill_sibling]
    exact whole
  have apart : ∀ grandParent ∈ outer.head?, pointer grandParent.sibling ≠ frame.index := by
    intro grandParent isFirst
    have differs := whole.apart grandParent isFirst
    rwa [pointer_fill] at differs
  obtain ⟨nodes', leaves', unlinked, holds, holdsLeaves⟩ := unlinkParent_eq removed nodes leaves
    siblingStores.indexed stores.frameIndex stores.pointer_ne_sibling apart
  have nodeKept {bound : Nat} (old : ∀ entry' ∈ nodeEntries partitionIndex
      (plug (frame :: outer) (.leaf entry.index entry.key entry.value)), entry'.1 < bound) :
      ∀ entry' ∈ nodeEntries partitionIndex (plug outer frame.sibling), entry'.1 < bound := by
    intro entry' listed
    have isOld := (indices_unlink frame outer entry.index entry.key entry.value).mem_iff.mp
      (mem_cons_of_mem _ (mem_map_of_mem listed))
    exact (forall_mem_map (P := (· < bound))).mpr old _ isOld
  have leafKept : ∀ entry' ∈ (plug outer frame.sibling).entries, entry' ∈
      (plug (frame :: outer) (.leaf entry.index entry.key entry.value)).entries := by
    intro entry' listed
    rw [entries_remove] at listed
    rw [BitTree.entries_plug, BitTree.entries, append_assoc]
    exact (mem_append.mp listed).elim (fun earlier => mem_append_left _ earlier)
      fun later => mem_append_right _ (mem_cons_of_mem _ later)
  have nonempty : ¬size removed = 0 := by
    have count := congrArg List.length (map_leafEntries frame.index frame.sibling)
    rw [length_map, BitTree.length_entries] at count
    have isSize : (tree.leaves.erase entry.index).size = _ := leaves.size
    rw [frameLeaves, length_append, count] at isSize
    change ¬(tree.leaves.erase entry.index).size = 0
    omega
  refine ⟨_, (if_neg nonempty).trans unlinked, ?_, rfl⟩
  exact {
    nodes := holds
    leaves := holdsLeaves
    nodeIndex := nodeKept grown.nodeIndex
    leafIndex := fun entry' listed => grown.leafIndex entry' (leafKept entry' listed)
    root := by
      rw [pointer_plug (frame.fill (.leaf entry.index entry.key entry.value))]
      exact congrArg (rootAfter outer · _) grown.root
    critical := grown.critical.remove
    minLeaf := isMin
    maxLeaf := isMax
    nodeBound := nodeKept grown.nodeBound
    leafBound := fun entry' listed => grown.leafBound entry' (leafKept entry' listed)
    counters := grown.counters
    capacity := grown.capacity
    keys := fun entry' listed => grown.keys entry' (leafKept entry' listed) }

/-- Removing a leaf returns its value and leaves the others. -/
theorem Grown.removeLeafByIndex {tree : CritbitTree V} (grown : Grown tree shape)
    (split : shape.entries = earlier ++ entry :: later) :
    ∃ tree', removeLeafByIndex tree entry.index = .ok (entry.value, tree') ∧
      Lists tree' (earlier ++ later) ∧
      (earlier ++ later ≠ [] → tree'.nextLeafIndex = tree.nextLeafIndex) := by
  obtain ⟨frames, rfl, rfl, rfl⟩ := grown.critical.exists_position split
  have found := grown.leaf_at
  have shiftedMin := grown.shiftMinLeaf split
  have rooted' : Rooted { tree with
      minLeaf := if tree.minLeaf = entry.index then (place (after frames).head?).2
        else tree.minLeaf } (plug frames (.leaf entry.index entry.key entry.value)) :=
    { grown.toRooted with }
  have shiftedMax := rooted'.shiftMaxLeaf split
  suffices ∃ tree', Critbit.unlinkLeaf { tree with
        minLeaf := if tree.minLeaf = entry.index then (place (after frames).head?).2
          else tree.minLeaf
        maxLeaf := if tree.maxLeaf = entry.index then
          (place (before frames).getLast?).2 else tree.maxLeaf
        leaves := tree.leaves.erase entry.index } (parentOf frames) entry.index = .ok tree' ∧
      Lists tree' (before frames ++ after frames) ∧
      (before frames ++ after frames ≠ [] →
        tree'.nextLeafIndex = tree.nextLeafIndex) by
    obtain ⟨tree', unlinked, lists, next⟩ := this
    refine ⟨tree', ?_, lists, next⟩
    refine bind_of (borrow_eq_ok.mpr found) ?_
    refine bind_of shiftedMin ?_
    refine bind_of shiftedMax ?_
    refine bind_of (Table.remove_eq_ok.mpr ⟨found, rfl⟩) ?_
    exact bind_of unlinked rfl
  cases frames with
  | nil =>
    refine ⟨new, ?_, .empty rfl, fun impossible => absurd rfl impossible⟩
    exact unlinkLeaf_last _ _ _ grown.nodes grown.leaves.erase
  | cons frame outer =>
    have remaining := entries_remove frame outer
    obtain ⟨tree', unlinked, grown', next⟩ := grown.unlinkLeaf
      (grown.minLeaf_remove split remaining) (grown.maxLeaf_remove split remaining)
    rw [← remaining]
    exact ⟨tree', unlinked, .grown grown', fun _ => next⟩

end Sui.DeepBook.Critbit
