import Sui.DeepBook.Critbit
import Sui.Library.BitTree

/-!
# The shape of a critical-bit tree

The two tables of a tree represent a binary tree.  This module says which entries a
binary tree has in the tables, also when it is cut at a position, and shows that the
walks along the pointers follow the binary tree.
-/

namespace Sui.DeepBook.Critbit

open Library BitTree
open List hiding after
open Sui.System
open Table (borrow_eq_ok)

variable {V : Type}

/-- The pointer to the root of a binary tree. -/
def pointer : BitTree V → Nat
  | .leaf index _ _ => maxU64 - index
  | .node index _ _ _ => index

/-- The internal nodes of a binary tree below a parent. -/
def nodeEntries (parent : Nat) : BitTree V → List (Nat × InternalNode)
  | .leaf _ _ _ => []
  | .node index bit left right =>
    (index, ⟨2 ^ bit, pointer left, pointer right, parent⟩) ::
      (nodeEntries index left ++ nodeEntries index right)

/-- The leaves of a binary tree below a parent. -/
def leafEntries (parent : Nat) : BitTree V → List (Nat × Leaf V)
  | .leaf index key value => [(index, ⟨key, value, parent⟩)]
  | .node index _ left right => leafEntries index left ++ leafEntries index right

/-- The parent of the hole of a path. -/
def parentOf : List (Frame V) → Nat
  | [] => partitionIndex
  | frame :: _ => frame.index

/-- The internal node of a frame whose hole is filled with a pointer. -/
def frameNode (frame : Frame V) (hole parent : Nat) : InternalNode :=
  if frame.onLeft then
    ⟨2 ^ frame.bit, hole, pointer frame.sibling, parent⟩
  else
    ⟨2 ^ frame.bit, pointer frame.sibling, hole, parent⟩

theorem frameNode_parent (frame : Frame V) (hole parent : Nat) :
    (frameNode frame hole parent).parent = parent := by
  unfold frameNode
  split <;> rfl

/-- The internal nodes around the hole of a path. -/
def frameNodes : List (Frame V) → Nat → List (Nat × InternalNode)
  | [], _ => []
  | frame :: outer, hole =>
    (frame.index, frameNode frame hole (parentOf outer)) ::
      (nodeEntries frame.index frame.sibling ++ frameNodes outer frame.index)

/-- The leaves around the hole of a path. -/
def frameLeaves : List (Frame V) → List (Nat × Leaf V)
  | [] => []
  | frame :: outer => leafEntries frame.index frame.sibling ++ frameLeaves outer

@[simp] theorem pointer_fill (frame : Frame V) (tree : BitTree V) :
    pointer (frame.fill tree) = frame.index := by
  unfold Frame.fill
  split <;> rfl

theorem nodeEntries_fill (parent : Nat) (frame : Frame V) (tree : BitTree V) :
    (nodeEntries parent (frame.fill tree)).Perm
      ((frame.index, frameNode frame (pointer tree) parent) ::
        (nodeEntries frame.index frame.sibling ++ nodeEntries frame.index tree)) := by
  unfold Frame.fill frameNode
  split
  · exact perm_append_comm.cons _
  · exact .refl _

theorem leafEntries_fill (parent : Nat) (frame : Frame V) (tree : BitTree V) :
    (leafEntries parent (frame.fill tree)).Perm
      (leafEntries frame.index frame.sibling ++ leafEntries frame.index tree) := by
  unfold Frame.fill
  split
  · exact perm_append_comm
  · exact .refl _

/-- The internal nodes of a tree that is cut at a position. -/
theorem nodeEntries_plug (frames : List (Frame V)) (tree : BitTree V) :
    (nodeEntries partitionIndex (plug frames tree)).Perm
      (frameNodes frames (pointer tree) ++ nodeEntries (parentOf frames) tree) := by
  induction frames generalizing tree with
  | nil => exact .refl _
  | cons frame outer ih =>
    refine (ih (frame.fill tree)).trans ?_
    rw [pointer_fill, parentOf, frameNodes, cons_append, append_assoc]
    refine ((nodeEntries_fill _ frame tree).append_left _).trans ?_
    refine perm_middle.trans (List.Perm.cons _ ?_)
    rw [← append_assoc, ← append_assoc]
    exact perm_append_comm.append_right _

/-- The leaves of a tree that is cut at a position. -/
theorem leafEntries_plug (frames : List (Frame V)) (tree : BitTree V) :
    (leafEntries partitionIndex (plug frames tree)).Perm
      (frameLeaves frames ++ leafEntries (parentOf frames) tree) := by
  induction frames generalizing tree with
  | nil => exact .refl _
  | cons frame outer ih =>
    refine (ih (frame.fill tree)).trans ?_
    refine ((leafEntries_fill _ frame tree).append_left _).trans ?_
    rw [← append_assoc]
    exact perm_append_comm.append_right _

/-- The leaves of the table are those of the binary tree. -/
theorem map_leafEntries (parent : Nat) (tree : BitTree V) :
    (leafEntries parent tree).map (fun entry => (⟨entry.2.key, entry.1, entry.2.value⟩ : Entry V)) =
      tree.entries := by
  induction tree generalizing parent with
  | leaf index key value => rfl
  | node index bit left right leftHypothesis rightHypothesis =>
    rw [leafEntries, map_append, leftHypothesis, rightHypothesis, entries]

theorem length_nodeEntries (parent : Nat) (tree : BitTree V) :
    (nodeEntries parent tree).length = tree.nodeCount := by
  induction tree generalizing parent with
  | leaf index key value => rfl
  | node index bit left right leftHypothesis rightHypothesis =>
    rw [nodeEntries, length_cons, length_append, leftHypothesis, rightHypothesis, nodeCount]

/-- The tables of a tree hold a binary tree. -/
structure Stores (tree : CritbitTree V) (shape : BitTree V) : Prop where
  nodes : Holds tree.internalNodes (nodeEntries partitionIndex shape)
  leaves : Holds tree.leaves (leafEntries partitionIndex shape)
  nodeIndex : ∀ entry ∈ nodeEntries partitionIndex shape, entry.1 < partitionIndex
  leafIndex : ∀ entry ∈ shape.entries, entry.index < maxCapacity

namespace Stores

variable {tree : CritbitTree V} {shape : BitTree V} {frames : List (Frame V)}

section

variable (stores : Stores tree shape)

include stores

theorem sizes :
    tree.internalNodes.size = shape.nodeCount ∧ tree.leaves.size = shape.nodeCount + 1 := by
  rw [stores.nodes.size, stores.leaves.size, length_nodeEntries,
    ← shape.length_entries, ← map_leafEntries partitionIndex shape, length_map]
  exact ⟨rfl, rfl⟩

theorem isEmpty : isEmpty tree = false := by
  rw [Critbit.isEmpty, stores.sizes.2]
  rfl

/-- Different leaves have different indices. -/
theorem indices_distinct : (shape.entries.map Entry.index).Nodup := by
  have distinct := stores.leaves.distinct
  rw [← map_leafEntries partitionIndex shape, map_map]
  exact distinct

theorem stored_node (listed : entry ∈ nodeEntries partitionIndex shape) :
    tree.internalNodes[entry.1]? = some entry.2 ∧ entry.1 < partitionIndex :=
  ⟨stores.nodes.get listed, stores.nodeIndex entry listed⟩

theorem leaf (listed : entry ∈ shape.entries) :
    ∃ parent, tree.leaves[entry.index]? = some ⟨entry.key, entry.value, parent⟩ := by
  rw [← map_leafEntries partitionIndex shape, mem_map] at listed
  obtain ⟨⟨index, key, value, parent⟩, isLeaf, rfl⟩ := listed
  exact ⟨parent, stores.leaves.get isLeaf⟩

theorem index_ne (listed : entry ∈ shape.entries) : entry.index ≠ partitionIndex := by
  have inside := stores.leafIndex entry listed
  simp only [maxCapacity, partitionIndex] at inside ⊢
  omega

/-- A leaf of the table is one of the binary tree. -/
theorem mem_entries {leaf : Leaf V} (found : tree.leaves[index]? = some leaf) :
    ⟨leaf.key, index, leaf.value⟩ ∈ shape.entries := by
  rw [← map_leafEntries partitionIndex shape]
  exact mem_map_of_mem ((stores.leaves.lookup index leaf).mp found)

end

theorem nodes_below (stores : Stores tree (plug frames shape))
    (listed : entry ∈ nodeEntries (parentOf frames) shape) :
    tree.internalNodes[entry.1]? = some entry.2 ∧ entry.1 < partitionIndex :=
  stores.stored_node ((nodeEntries_plug frames shape).mem_iff.mpr (mem_append_right _ listed))

theorem nodes_around (stores : Stores tree (plug frames shape))
    (listed : entry ∈ frameNodes frames (pointer shape)) :
    tree.internalNodes[entry.1]? = some entry.2 ∧ entry.1 < partitionIndex :=
  stores.stored_node ((nodeEntries_plug frames shape).mem_iff.mpr (mem_append_left _ listed))

theorem leaf_at (stores : Stores tree (plug frames (.leaf index key value))) :
    tree.leaves[index]? = some ⟨key, value, parentOf frames⟩ := by
  apply stores.leaves.get
  exact (leafEntries_plug frames _).mem_iff.mpr (mem_append_right _ (mem_singleton_self _))

theorem leafIndex_below (stores : Stores tree (plug frames shape))
    (listed : entry ∈ shape.entries) :
    entry.index < maxCapacity :=
  stores.leafIndex entry (mem_entries_plug frames listed)

theorem left (stores : Stores tree (plug frames (.node index bit low high))) :
    Stores tree (plug (⟨index, bit, true, high⟩ :: frames) low) :=
  stores

theorem right (stores : Stores tree (plug frames (.node index bit low high))) :
    Stores tree (plug (⟨index, bit, false, low⟩ :: frames) high) :=
  stores

end Stores

/-! ## Pointers -/

/-- Pointers to leaves are above the partition index and give back the index. -/
theorem leaf_pointer (inside : index < maxCapacity) :
    partitionIndex < maxU64 - index ∧ maxU64 - (maxU64 - index) = index := by
  simp only [maxU64, partitionIndex, maxCapacity] at inside ⊢
  omega

theorem Stores.pointer_ne_partitionIndex (stores : Stores tree (plug frames shape)) :
    pointer shape ≠ partitionIndex := by
  cases shape with
  | leaf index key value =>
    exact (leaf_pointer (stores.leafIndex_below (mem_singleton_self _))).1.ne'
  | node index bit left right =>
    exact (stores.nodes_below mem_cons_self).2.ne

/-- The two subtrees of a node have different pointers. -/
theorem Stores.pointer_ne_sibling (stores : Stores tree (plug (frame :: outer) shape)) :
    pointer frame.sibling ≠ pointer shape := by
  have nodesApart := (stores.nodes.perm (nodeEntries_plug (frame :: outer) shape)).distinct
  have leavesApart := (stores.leaves.perm (leafEntries_plug (frame :: outer) shape)).distinct
  rw [map_append, nodup_append] at nodesApart leavesApart
  have whole : Stores tree (plug outer (frame.fill shape)) := stores
  have siblingLeaf : ∀ entry ∈ frame.sibling.entries, entry.index < maxCapacity :=
    fun entry listed => whole.leafIndex_below (mem_entries_fill.mpr (.inr listed))
  have siblingNode : ∀ entry ∈ nodeEntries frame.index frame.sibling,
      entry ∈ frameNodes (frame :: outer) (pointer shape) :=
    fun entry listed => mem_cons_of_mem _ (mem_append_left _ listed)
  intro same
  cases sibling : frame.sibling with
  | leaf index key value =>
    rw [sibling] at same siblingLeaf
    have below : index < maxCapacity := siblingLeaf _ (mem_singleton_self _)
    cases shape with
    | leaf index' key' value' =>
      have below' : index' < maxCapacity := stores.leafIndex_below (mem_singleton_self _)
      have apart : index ≠ index' := by
        apply leavesApart.2.2 index _ index' (mem_singleton_self _)
        rw [frameLeaves, sibling]
        exact mem_cons_self
      apply apart
      rw [← (leaf_pointer below).2, ← (leaf_pointer below').2]
      exact congrArg (maxU64 - ·) same
    | node index' bit left right =>
      have node := (stores.nodes_below mem_cons_self).2
      exact absurd same ((leaf_pointer below).1.trans' node).ne'
  | node index bit left right =>
    rw [sibling] at same siblingNode
    have isNode := siblingNode _ mem_cons_self
    cases shape with
    | leaf index' key' value' =>
      have below' : index' < maxCapacity := stores.leafIndex_below (mem_singleton_self _)
      exact absurd same ((leaf_pointer below').1.trans' (stores.nodes_around isNode).2).ne
    | node index' bit' left' right' =>
      exact nodesApart.2.2 index (mem_map_of_mem isNode) index' (mem_map_of_mem mem_cons_self) same

/-! ## Walks -/

theorem and_mask (key bit : Nat) : key &&& 2 ^ bit = 0 ↔ key.testBit bit = false := by
  rw [Nat.and_two_pow, Nat.mul_eq_zero]
  cases key.testBit bit <;> simp

/-- A walk down that chooses a subtree of every node ends at the leaf that the
choices lead to. -/
theorem Stores.descend_eq {target : BitTree V → Entry V}
    (atLeaf : ∀ index key value, target (.leaf index key value) = ⟨key, index, value⟩)
    (atNode : ∀ index bit left right parent,
      child ⟨2 ^ bit, pointer left, pointer right, parent⟩ = pointer left ∧
          target (.node index bit left right) = target left ∨
        child ⟨2 ^ bit, pointer left, pointer right, parent⟩ = pointer right ∧
          target (.node index bit left right) = target right)
    (stores : Stores tree (plug frames shape)) (enough : shape.nodeCount < fuel) :
    descend tree.internalNodes child fuel (pointer shape) =
      .ok (maxU64 - (target shape).index) := by
  induction shape generalizing frames fuel with
  | leaf index key value =>
    obtain ⟨fuel, rfl⟩ := Nat.exists_eq_add_one.mpr (Nat.zero_lt_of_lt enough)
    have above := (leaf_pointer (stores.leafIndex_below (mem_singleton_self _))).1
    rw [descend, atLeaf, pointer, if_neg above.not_gt]
    rfl
  | node index bit left right leftHypothesis rightHypothesis =>
    obtain ⟨fuel, rfl⟩ := Nat.exists_eq_add_one.mpr (Nat.zero_lt_of_lt enough)
    obtain ⟨found, below⟩ := stores.nodes_below mem_cons_self
    rw [nodeCount] at enough
    rw [descend, pointer, if_pos below, borrow_eq_ok.mpr found]
    change descend tree.internalNodes child fuel (child _) = _
    rcases atNode index bit left right (parentOf frames) with
      ⟨chosen, leads⟩ | ⟨chosen, leads⟩
    · rw [chosen, leads]
      exact leftHypothesis stores.left (by omega)
    · rw [chosen, leads]
      exact rightHypothesis stores.right (by omega)

section Walks

variable {tree : CritbitTree V} {shape : BitTree V} {frames : List (Frame V)}

theorem Stores.nodeCount_lt (stores : Stores tree (plug frames shape)) :
    shape.nodeCount < tree.internalNodes.size + 1 := by
  have counted := length_le_nodeCount frames shape
  rw [stores.sizes.1]
  omega

theorem Stores.leftMostLeaf (stores : Stores tree (plug frames shape)) :
    leftMostLeaf tree (pointer shape) = .ok (maxU64 - shape.leftmost.index) :=
  stores.descend_eq (fun _ _ _ => rfl) (fun _ _ _ _ _ => .inl ⟨rfl, rfl⟩)
    stores.nodeCount_lt

theorem Stores.rightMostLeaf (stores : Stores tree (plug frames shape)) :
    rightMostLeaf tree (pointer shape) = .ok (maxU64 - shape.rightmost.index) :=
  stores.descend_eq (fun _ _ _ => rfl) (fun _ _ _ _ _ => .inr ⟨rfl, rfl⟩)
    stores.nodeCount_lt

theorem childOf_eq (key bit left right parent : Nat) :
    childOf key ⟨2 ^ bit, left, right, parent⟩ =
      if key.testBit bit then right else left := by
  unfold childOf
  simp only [and_mask]
  cases key.testBit bit <;> rfl

/-- The walk down ends at the closest leaf. -/
theorem Stores.getClosestLeafIndexByKey (stores : Stores tree shape)
    (root : tree.root = pointer shape) (key : Nat) :
    getClosestLeafIndexByKey tree key = .ok (shape.closest key).index := by
  have whole : Stores tree (plug [] shape) := stores
  have walk : descend tree.internalNodes (childOf key) (tree.internalNodes.size + 1)
      (pointer shape) = .ok (maxU64 - (shape.closest key).index) := by
    apply whole.descend_eq (fun _ _ _ => rfl) _ whole.nodeCount_lt
    intro index bit left right parent
    rw [childOf_eq, closest]
    cases key.testBit bit with
    | false => exact .inl ⟨rfl, rfl⟩
    | true => exact .inr ⟨rfl, rfl⟩
  have restored := (leaf_pointer (stores.leafIndex _ (closest_mem key shape))).2
  rw [Critbit.getClosestLeafIndexByKey, root, if_neg whole.pointer_ne_partitionIndex, walk]
  exact congrArg Except.ok restored

/-- On which side of its parent a child is. -/
theorem isLeftChild_eq
    (found : tree.internalNodes[frame.index]? = some (frameNode frame hole parent))
    (apart : pointer frame.sibling ≠ hole) :
    isLeftChild tree frame.index hole = .ok frame.onLeft := by
  refine bind_of (borrow_eq_ok.mpr found) ?_
  apply congrArg Except.ok
  unfold frameNode
  cases frame.onLeft with
  | true => rw [if_pos rfl, beq_self_eq_true]
  | false => rw [if_neg Bool.false_ne_true, beq_eq_false_iff_ne.mpr apart]

/-- A walk up from a position ends at the first frame on the other side. -/
theorem Stores.climb_eq (stores : Stores tree (plug frames shape)) (enough : frames.length < fuel) :
    climb tree whileLeft fuel (pointer shape) (parentOf frames) =
      .ok (((frames.find? fun frame => frame.onLeft != whileLeft).map Frame.index).getD
        partitionIndex) := by
  induction frames generalizing shape fuel with
  | nil =>
    obtain ⟨fuel, rfl⟩ := Nat.exists_eq_add_one.mpr (Nat.zero_lt_of_lt enough)
    rfl
  | cons frame outer ih =>
    obtain ⟨fuel, rfl⟩ := Nat.exists_eq_add_one.mpr (Nat.zero_lt_of_lt enough)
    obtain ⟨found, below⟩ := stores.nodes_around mem_cons_self
    have isLeft := isLeftChild_eq found stores.pointer_ne_sibling
    rw [climb, parentOf, if_neg below.ne, isLeft]
    change (if frame.onLeft = whileLeft then _ else _) = _
    by_cases side : frame.onLeft = whileLeft
    · rw [if_pos side, borrow_eq_ok.mpr found, find?_cons_of_neg (by simp [side])]
      have outside : Stores tree (plug outer (frame.fill shape)) := stores
      have rest := ih outside (Nat.lt_of_succ_lt_succ enough)
      rw [pointer_fill] at rest
      change climb tree whileLeft fuel frame.index
        (frameNode frame (pointer shape) (parentOf outer)).parent = _
      rw [frameNode_parent]
      exact rest
    · rw [if_neg side, find?_cons_of_pos (by simp [side])]
      rfl

/-- The frames of a path, with what fills their holes. -/
theorem mem_frameNodes (listed : frame ∈ frames) (hole : Nat) :
    ∃ filling parent, (frame.index, frameNode frame filling parent) ∈ frameNodes frames hole := by
  induction frames generalizing hole with
  | nil => cases listed
  | cons inner outer ih =>
    rcases mem_cons.mp listed with rfl | isOuter
    · exact ⟨hole, parentOf outer, mem_cons_self⟩
    · obtain ⟨filling, parent, present⟩ := ih isOuter inner.index
      exact ⟨filling, parent, mem_cons_of_mem _ (mem_append_right _ present)⟩

theorem fill_sibling (frame : Frame V) (shape : BitTree V) :
    (⟨frame.index, frame.bit, !frame.onLeft, shape⟩ : Frame V).fill frame.sibling =
      frame.fill shape := by
  unfold Frame.fill
  cases frame.onLeft <;> rfl

/-- The siblings along a path are in the tree as well. -/
theorem exists_plug_sibling (listed : frame ∈ frames) (shape : BitTree V) :
    ∃ frames', plug frames shape = plug frames' frame.sibling := by
  induction frames generalizing shape with
  | nil => cases listed
  | cons inner outer ih =>
    rcases mem_cons.mp listed with rfl | isOuter
    · refine ⟨⟨frame.index, frame.bit, !frame.onLeft, shape⟩ :: outer, ?_⟩
      rw [plug, plug, fill_sibling]
    · exact ih isOuter (inner.fill shape)

end Walks

/-! ## Reading a tree -/

/-- The tables of a tree store a binary tree that is searched from the root. -/
structure Rooted (tree : CritbitTree V) (shape : BitTree V) : Prop
    extends Stores tree shape where
  root : tree.root = pointer shape
  critical : shape.Critical

/-- A tree represents a binary tree: it can be searched, its ends are known, and the
counters are beyond all indices. -/
structure Grown (tree : CritbitTree V) (shape : BitTree V) : Prop
    extends Rooted tree shape where
  minLeaf : tree.minLeaf = shape.leftmost.index
  maxLeaf : tree.maxLeaf = shape.rightmost.index
  nodeBound : ∀ entry ∈ nodeEntries partitionIndex shape, entry.1 < tree.nextInternalNodeIndex
  leafBound : ∀ entry ∈ shape.entries, entry.index < tree.nextLeafIndex
  counters : tree.nextInternalNodeIndex + 1 = tree.nextLeafIndex
  capacity : tree.nextLeafIndex ≤ maxCapacity - 1
  keys : ∀ entry ∈ shape.entries, entry.key < 2 ^ 64

/-- The key and the index of a leaf that may be missing. -/
def place : Option (Entry V) → Nat × Nat
  | none => (0, partitionIndex)
  | some entry => (entry.key, entry.index)

section Reading

variable {tree : CritbitTree V} {shape : BitTree V}

namespace Rooted

/-- A key is found if the closest leaf has it. -/
theorem findLeaf_eq (rooted : Rooted tree shape) (key : Nat) :
    findLeaf tree key = if (shape.closest key).key ≠ key then .ok (false, partitionIndex)
      else .ok (true, (shape.closest key).index) := by
  obtain ⟨parent, found⟩ := rooted.leaf (closest_mem key shape)
  rw [findLeaf, rooted.isEmpty, if_neg Bool.false_ne_true,
    rooted.getClosestLeafIndexByKey rooted.root key, ok_bind, borrow_eq_ok.mpr found, ok_bind]
  rfl

/-- A leaf that is present is found under its key. -/
theorem findLeaf (rooted : Rooted tree shape) (listed : entry ∈ shape.entries) :
    findLeaf tree entry.key = .ok (true, entry.index) := by
  rw [rooted.findLeaf_eq, rooted.critical.closest_eq listed]
  exact if_neg (not_not.mpr rfl)

theorem findLeaf_missing (rooted : Rooted tree shape)
    (missing : ∀ entry ∈ shape.entries, entry.key ≠ key) :
    Critbit.findLeaf tree key = .ok (false, partitionIndex) := by
  rw [rooted.findLeaf_eq]
  exact if_pos (missing _ (closest_mem key shape))

variable {entry : Entry V}

/-- A walk up and down again ends at a neighbour. -/
theorem neighbour_eq (rooted : Rooted tree (plug frames (.leaf entry.index entry.key entry.value)))
    {target : BitTree V → Entry V}
    (isChild : ∀ (frame : Frame V) filling parent, frame.onLeft ≠ whileLeft →
      child (frameNode frame filling parent) = pointer frame.sibling)
    (isEnd : ∀ frames' subtree, Stores tree (plug frames' subtree) →
      endLeaf tree (pointer subtree) = .ok (maxU64 - (target subtree).index))
    (isInside : ∀ subtree, target subtree ∈ subtree.entries) :
    neighbour tree whileLeft child endLeaf entry.key =
      .ok (place ((frames.find? fun frame => frame.onLeft != whileLeft).map fun frame =>
        target frame.sibling)) := by
  have stores := rooted.toStores
  have listed : entry ∈ (plug frames (.leaf entry.index entry.key entry.value)).entries :=
    mem_entries_plug frames (mem_singleton_self _)
  have enough : frames.length < tree.internalNodes.size + 1 := by
    have counted := length_le_nodeCount frames (.leaf entry.index entry.key entry.value)
    rw [stores.sizes.1]
    omega
  refine bind_of (rooted.findLeaf listed) ?_
  refine bind_of (require_of (rooted.index_ne listed)) ?_
  refine bind_of (borrow_eq_ok.mpr stores.leaf_at) ?_
  refine bind_of (stores.climb_eq enough) ?_
  cases found : frames.find? fun frame => frame.onLeft != whileLeft with
  | none => exact if_pos rfl
  | some frame =>
    have isFrame := mem_of_find?_eq_some found
    have otherSide : frame.onLeft ≠ whileLeft := by
      have satisfied := find?_some found
      exact bne_iff_ne.mp satisfied
    obtain ⟨filling, parent, present⟩ := mem_frameNodes isFrame
      (pointer (.leaf entry.index entry.key entry.value))
    obtain ⟨node, below⟩ := stores.nodes_around present
    obtain ⟨frames', cut⟩ := exists_plug_sibling isFrame (.leaf entry.index entry.key entry.value)
    have stores' : Stores tree (plug frames' frame.sibling) := by
      rw [← cut]
      exact stores
    have isTarget := mem_entries_plug frames' (isInside frame.sibling)
    obtain ⟨parent', leaf⟩ := stores'.leaf isTarget
    have restored := (leaf_pointer (stores'.leafIndex _ isTarget)).2
    rw [Option.map_some, Option.getD_some, if_neg below.ne]
    refine bind_of (borrow_eq_ok.mpr node) ?_
    rw [isChild frame filling parent otherSide]
    refine bind_of (isEnd frames' frame.sibling stores') ?_
    rw [restored]
    exact bind_of (borrow_eq_ok.mpr leaf) rfl

/-- The next leaf is the next one in the list. -/
theorem nextLeaf (rooted : Rooted tree shape)
    (split : shape.entries = earlier ++ entry :: later) :
    nextLeaf tree entry.key = .ok (place later.head?) := by
  obtain ⟨frames, rfl, _, rfl⟩ := rooted.critical.exists_position split
  rw [head?_after]
  have sides : (fun frame : Frame V => frame.onLeft != false) = Frame.onLeft :=
    funext fun frame => Bool.bne_false frame.onLeft
  rw [← sides]
  apply rooted.neighbour_eq
  · intro frame filling parent isLeft
    rw [frameNode, if_pos (Bool.eq_true_of_not_eq_false isLeft)]
  · exact fun frames' subtree stores => stores.leftMostLeaf
  · exact fun subtree => mem_of_head? (head?_entries subtree)

/-- The previous leaf is the previous one in the list. -/
theorem previousLeaf (rooted : Rooted tree shape)
    (split : shape.entries = earlier ++ entry :: later) :
    previousLeaf tree entry.key = .ok (place earlier.getLast?) := by
  obtain ⟨frames, rfl, rfl, _⟩ := rooted.critical.exists_position split
  rw [getLast?_before]
  have sides : (fun frame : Frame V => frame.onLeft != true) = fun frame => !frame.onLeft :=
    funext fun frame => Bool.bne_true frame.onLeft
  rw [← sides]
  apply rooted.neighbour_eq
  · intro frame filling parent isRight
    rw [frameNode, if_neg isRight]
  · exact fun frames' subtree stores => stores.rightMostLeaf
  · exact fun subtree => mem_of_getLast? (getLast?_entries subtree)

end Rooted

theorem Grown.minLeaf_eq (grown : Grown tree shape) :
    Critbit.minLeaf tree = .ok (shape.leftmost.key, shape.leftmost.index) := by
  obtain ⟨parent, found⟩ := grown.leaf (mem_of_head? (head?_entries shape))
  refine bind_of (require_of grown.isEmpty) ?_
  rw [grown.minLeaf]
  exact bind_of (borrow_eq_ok.mpr found) rfl

theorem Grown.maxLeaf_eq (grown : Grown tree shape) :
    Critbit.maxLeaf tree = .ok (shape.rightmost.key, shape.rightmost.index) := by
  obtain ⟨parent, found⟩ := grown.leaf (mem_of_getLast? (getLast?_entries shape))
  refine bind_of (require_of grown.isEmpty) ?_
  rw [grown.maxLeaf]
  exact bind_of (borrow_eq_ok.mpr found) rfl

end Reading

end Sui.DeepBook.Critbit
