import Sui.System.Move

/-!
# Critical-bit trees in two tables

The tree keeps its internal nodes in one table and its leaves in another one.  A
pointer below `partitionIndex` is the index of an internal node; a pointer above it
is `maxU64` minus the index of a leaf; `partitionIndex` itself stands for nothing.
Every internal node and leaf also points to its parent.

All numbers have 64 bits, so `maxU64` minus a number never underflows.  A walk along
pointers that visits more internal nodes than the tree has visits one of them twice
and never ends.
-/

namespace Sui.DeepBook

open Sui.System
open Nat (shiftLeft_eq two_pow_pos log2_lt pow_add)

namespace ClobMath

/-! ## Leading zeros -/

/-- One step of the count of leading zeros: if the bits of the mask are all zero,
shift the lower part up. -/
def shiftOver (width mask : Nat) (state : Nat × Nat) : Nat × Nat :=
  if state.1 &&& mask = 0 then
    ((state.1 <<< width) % 2 ^ 128, state.2 + width)
  else
    state

/-- The number of leading zeros of an integer of 128 bits. -/
def countLeadingZeros (x : Nat) : Nat :=
  if x = 0 then
    128
  else
    let state := (x, 0)
    let state := shiftOver 64 0xFFFFFFFFFFFFFFFF0000000000000000 state
    let state := shiftOver 32 0xFFFFFFFF000000000000000000000000 state
    let state := shiftOver 16 0xFFFF0000000000000000000000000000 state
    let state := shiftOver 8 0xFF000000000000000000000000000000 state
    let state := shiftOver 4 0xF0000000000000000000000000000000 state
    let state := shiftOver 2 0xC0000000000000000000000000000000 state
    if state.1 &&& 0x80000000000000000000000000000000 = 0 then
      state.2 + 1
    else
      state.2

/-- The bits above a position are all zero. -/
theorem and_mask_eq_zero (small : x < 2 ^ (width + position)) :
    x &&& ((2 ^ width - 1) <<< position) = 0 ↔ x < 2 ^ position := by
  have shifted : x &&& ((2 ^ width - 1) <<< position) = (x >>> position) <<< position := by
    apply Nat.eq_of_testBit_eq
    intro bit
    rw [Nat.testBit_and, Nat.testBit_shiftLeft, Nat.testBit_shiftLeft,
      Nat.testBit_shiftRight, Nat.testBit_two_pow_sub_one]
    by_cases high : position ≤ bit
    · have restored : position + (bit - position) = bit := by omega
      by_cases inside : bit - position < width
      · simp [high, restored, inside]
      · have unset : x.testBit bit = false :=
          Nat.testBit_lt_two_pow (Nat.lt_of_lt_of_le small
            (Nat.pow_le_pow_right (by decide) (by omega)))
        simp [high, restored, unset]
    · simp [high]
  rw [shifted, shiftLeft_eq, Nat.shiftRight_eq_div_pow, Nat.mul_eq_zero, Nat.div_eq_zero_iff]
  have positive : 2 ^ position ≠ 0 := (two_pow_pos position).ne'
  simp only [positive, false_or, or_false]

/-- What is left to count after the leading zeros were looked for down to a width:
the highest bit is now among the first ones, and it was moved by the number of
zeros that are counted. -/
structure Counting (x width : Nat) (state : Nat × Nat) : Prop where
  nonzero : state.1 ≠ 0
  moved : state.1.log2 = x.log2 + state.2
  low : 128 - width ≤ state.1.log2
  high : state.1.log2 < 128

/-- One step of counting leading zeros. -/
theorem Counting.shiftOver (counting : Counting x (2 * width) state) (narrow : width ≤ 128)
    (isMask : mask = (2 ^ width - 1) <<< (128 - width)) :
    Counting x width (shiftOver width mask state) := by
  obtain ⟨nonzero, moved, low, high⟩ := counting
  have small : state.1 < 2 ^ (width + (128 - width)) := by
    rw [show width + (128 - width) = 128 by omega]
    exact (log2_lt nonzero).mp high
  unfold ClobMath.shiftOver
  split
  · next zero =>
    rw [isMask, and_mask_eq_zero small] at zero
    have fits : state.1 <<< width < 2 ^ 128 := by
      rw [shiftLeft_eq]
      calc state.1 * 2 ^ width < 2 ^ (128 - width) * 2 ^ width :=
            Nat.mul_lt_mul_of_pos_right zero (two_pow_pos width)
        _ = 2 ^ 128 := by
            rw [← pow_add, show 128 - width + width = 128 by omega]
    have nonzero' : state.1 <<< width ≠ 0 := by
      rw [shiftLeft_eq]
      exact Nat.mul_ne_zero nonzero (two_pow_pos width).ne'
    have log : (state.1 <<< width).log2 = state.1.log2 + width := by
      rw [Nat.log2_eq_iff nonzero', shiftLeft_eq]
      obtain ⟨atLeast, below⟩ := (Nat.log2_eq_iff nonzero).mp rfl
      rw [show state.1.log2 + width + 1 = state.1.log2 + 1 + width by omega, pow_add, pow_add]
      exact ⟨Nat.mul_le_mul_right _ atLeast,
        Nat.mul_lt_mul_of_pos_right below (two_pow_pos width)⟩
    rw [Nat.mod_eq_of_lt fits]
    refine ⟨nonzero', ?_, ?_, ?_⟩
    · change (state.1 <<< width).log2 = x.log2 + (state.2 + width)
      omega
    · change 128 - width ≤ (state.1 <<< width).log2
      omega
    · exact (log2_lt nonzero').mpr fits
  · next nonzeros =>
    rw [isMask, and_mask_eq_zero small, Nat.not_lt] at nonzeros
    exact ⟨nonzero, moved, (Nat.le_log2 nonzero).mpr nonzeros, high⟩

/-- Only the first bit is left to look at. -/
theorem Counting.result (counting : Counting x 2 state) :
    (if state.1 &&& 0x80000000000000000000000000000000 = 0 then state.2 + 1
      else state.2) = 127 - x.log2 := by
  obtain ⟨nonzero, moved, low, high⟩ := counting
  have small : state.1 < 2 ^ (1 + 127) := (log2_lt nonzero).mp high
  have isMask : 0x80000000000000000000000000000000 = (2 ^ 1 - 1) <<< 127 := by decide
  split
  · next zero =>
    have below := (log2_lt nonzero).mpr ((and_mask_eq_zero small).mp zero)
    omega
  · next set =>
    have atLeast := (Nat.le_log2 nonzero).mpr
      (Nat.le_of_not_lt (set ∘ (and_mask_eq_zero small).mpr))
    omega

/-- The leading zeros end at the highest bit. -/
theorem countLeadingZeros_eq (nonzero : x ≠ 0) (fits : x < 2 ^ 128) :
    countLeadingZeros x = 127 - x.log2 := by
  have start : Counting x (2 * 64) (x, 0) :=
    ⟨nonzero, rfl, Nat.zero_le _, (log2_lt nonzero).mpr fits⟩
  rw [countLeadingZeros, if_neg nonzero]
  apply Counting.result
  refine Counting.shiftOver ?_ (by decide) (by decide)
  refine Counting.shiftOver ?_ (by decide) (by decide)
  refine Counting.shiftOver ?_ (by decide) (by decide)
  refine Counting.shiftOver ?_ (by decide) (by decide)
  refine Counting.shiftOver ?_ (by decide) (by decide)
  exact Counting.shiftOver start (by decide) (by decide)

end ClobMath

/-! ## The tables -/

open Library
open Std (ExtTreeMap)

/-- The pointer that stands for nothing, between those to internal nodes and those
to leaves. -/
def partitionIndex : Nat := 0x8000000000000000

def maxU64 : Nat := 0xFFFFFFFFFFFFFFFF

def maxCapacity : Nat := 0x7FFFFFFFFFFFFFFF

structure Leaf (V : Type) where
  key : Nat
  value : V
  parent : Nat

/-- An internal node, which branches at the bit of its mask. -/
structure InternalNode where
  mask : Nat
  leftChild : Nat
  rightChild : Nat
  parent : Nat
  deriving DecidableEq

/-- A critical-bit tree. -/
structure CritbitTree (V : Type) where
  root : Nat
  internalNodes : ExtTreeMap Nat InternalNode
  leaves : ExtTreeMap Nat (Leaf V)
  minLeaf : Nat
  maxLeaf : Nat
  nextInternalNodeIndex : Nat
  nextLeafIndex : Nat

namespace Critbit

def eExceedCapacity : Nat := 2

def eTreeNotEmpty : Nat := 3

def eKeyAlreadyExist : Nat := 4

def eLeafNotExist : Nat := 5

def eIndexOutOfRange : Nat := 7

def eNullParent : Nat := 8

variable {V : Type}

/-- The empty tree. -/
def new : CritbitTree V where
  root := partitionIndex
  internalNodes := ∅
  leaves := ∅
  minLeaf := partitionIndex
  maxLeaf := partitionIndex
  nextInternalNodeIndex := 0
  nextLeafIndex := 0

/-- The number of leaves. -/
def size (tree : CritbitTree V) : Nat :=
  tree.leaves.size

def isEmpty (tree : CritbitTree V) : Bool :=
  tree.leaves.size == 0

/-- The key and the index of the leaf with the least key. -/
def minLeaf (tree : CritbitTree V) : Program (Nat × Nat) := do
  require (isEmpty tree = false) (.critbit eLeafNotExist)
  let leaf ← Table.borrow tree.leaves tree.minLeaf
  pure (leaf.key, tree.minLeaf)

/-- The key and the index of the leaf with the greatest key. -/
def maxLeaf (tree : CritbitTree V) : Program (Nat × Nat) := do
  require (isEmpty tree = false) (.critbit eLeafNotExist)
  let leaf ← Table.borrow tree.leaves tree.maxLeaf
  pure (leaf.key, tree.maxLeaf)

def isLeftChild (tree : CritbitTree V) (parentIndex index : Nat) : Program Bool := do
  let parent ← Table.borrow tree.internalNodes parentIndex
  pure (parent.leftChild == index)

/-! ## Walks -/

/-- Walk down from a pointer to a leaf, to the chosen child of every internal node.
The first argument bounds the number of steps. -/
def descend (internalNodes : ExtTreeMap Nat InternalNode) (child : InternalNode → Nat) :
    Nat → Nat → Program Nat
  | 0, _ => .error .outOfGas
  | fuel + 1, ptr =>
    if ptr < partitionIndex then do
      let node ← Table.borrow internalNodes ptr
      descend internalNodes child fuel (child node)
    else
      pure ptr

/-- The pointer to the first leaf below a pointer. -/
def leftMostLeaf (tree : CritbitTree V) (root : Nat) : Program Nat :=
  descend tree.internalNodes InternalNode.leftChild (tree.internalNodes.size + 1) root

/-- The pointer to the last leaf below a pointer. -/
def rightMostLeaf (tree : CritbitTree V) (root : Nat) : Program Nat :=
  descend tree.internalNodes InternalNode.rightChild (tree.internalNodes.size + 1) root

/-- The child in the direction of a key. -/
def childOf (key : Nat) (node : InternalNode) : Nat :=
  if key &&& node.mask = 0 then node.leftChild else node.rightChild

/-- The index of the leaf that is reached by following the bits of a key. -/
def getClosestLeafIndexByKey (tree : CritbitTree V) (key : Nat) : Program Nat :=
  if tree.root = partitionIndex then
    pure partitionIndex
  else do
    let ptr ← descend tree.internalNodes (childOf key) (tree.internalNodes.size + 1) tree.root
    pure (maxU64 - ptr)

/-- The leaf with a key, if there is one. -/
def findLeaf (tree : CritbitTree V) (key : Nat) : Program (Bool × Nat) :=
  if isEmpty tree then
    pure (false, partitionIndex)
  else do
    let closestLeafIndex ← getClosestLeafIndexByKey tree key
    let closestLeaf ← Table.borrow tree.leaves closestLeafIndex
    if closestLeaf.key ≠ key then
      pure (false, partitionIndex)
    else
      pure (true, closestLeafIndex)

/-- The key that is reached by following the bits of a key. -/
def findClosestKey (tree : CritbitTree V) (key : Nat) : Program Nat :=
  if isEmpty tree then
    pure 0
  else do
    let closestLeafIndex ← getClosestLeafIndexByKey tree key
    let closestLeaf ← Table.borrow tree.leaves closestLeafIndex
    pure closestLeaf.key

/-- Walk up as long as the pointer is a left child, or as long as it is a right one,
and return the parent at which the walk ends. -/
def climb (tree : CritbitTree V) (whileLeft : Bool) : Nat → Nat → Nat → Program Nat
  | 0, _, _ => .error .outOfGas
  | fuel + 1, ptr, parent =>
    if parent = partitionIndex then
      pure parent
    else do
      let isLeft ← isLeftChild tree parent ptr
      if isLeft = whileLeft then do
        let node ← Table.borrow tree.internalNodes parent
        climb tree whileLeft fuel parent node.parent
      else
        pure parent

/-- The neighbour of the leaf with a key.  The walk goes up as long as the leaf is on
the side of the neighbour, and then down on that side. -/
def neighbour (tree : CritbitTree V) (whileLeft : Bool) (child : InternalNode → Nat)
    (endLeaf : CritbitTree V → Nat → Program Nat) (key : Nat) :
    Program (Nat × Nat) := do
  let (_, index) ← findLeaf tree key
  require (index ≠ partitionIndex) (.critbit eLeafNotExist)
  let leaf ← Table.borrow tree.leaves index
  let parent ← climb tree whileLeft (tree.internalNodes.size + 1) (maxU64 - index) leaf.parent
  if parent = partitionIndex then
    pure (0, partitionIndex)
  else do
    let node ← Table.borrow tree.internalNodes parent
    let ptr ← endLeaf tree (child node)
    let leaf ← Table.borrow tree.leaves (maxU64 - ptr)
    pure (leaf.key, maxU64 - ptr)

/-- The key and the index of the leaf before the one with a key. -/
def previousLeaf (tree : CritbitTree V) (key : Nat) : Program (Nat × Nat) :=
  neighbour tree true InternalNode.leftChild rightMostLeaf key

/-- The key and the index of the leaf after the one with a key. -/
def nextLeaf (tree : CritbitTree V) (key : Nat) : Program (Nat × Nat) :=
  neighbour tree false InternalNode.rightChild leftMostLeaf key

/-! ## Updates -/

/-- Change the parent of a leaf. -/
def setLeafParent (tree : CritbitTree V) (index parent : Nat) :
    Program (CritbitTree V) := do
  let leaf ← Table.borrow tree.leaves index
  pure { tree with leaves := tree.leaves.insert index { leaf with parent } }

/-- Change the parent of an internal node. -/
def setNodeParent (tree : CritbitTree V) (index parent : Nat) :
    Program (CritbitTree V) := do
  let node ← Table.borrow tree.internalNodes index
  pure { tree with internalNodes := tree.internalNodes.insert index { node with parent } }

/-- Change a child of an internal node. -/
def setChild (tree : CritbitTree V) (parentIndex newChild : Nat) (isLeft : Bool) :
    Program (CritbitTree V) := do
  let node ← Table.borrow tree.internalNodes parentIndex
  let node :=
    if isLeft then { node with leftChild := newChild }
    else { node with rightChild := newChild }
  pure { tree with internalNodes := tree.internalNodes.insert parentIndex node }

/-- Link a child, which is an internal node or a leaf, and its parent. -/
def updateChild (tree : CritbitTree V) (parentIndex newChild : Nat) (isLeft : Bool) :
    Program (CritbitTree V) := do
  require (parentIndex ≠ partitionIndex) (.critbit eNullParent)
  let tree ← setChild tree parentIndex newChild isLeft
  if newChild > partitionIndex then
    setLeafParent tree (maxU64 - newChild) parentIndex
  else
    setNodeParent tree newChild parentIndex

/-- The mask of the highest bit in which two keys differ. -/
def criticalMask (closestKey key : Nat) : Program Nat := do
  let zeros ← checkedSub .arithmetic
    (ClobMath.countLeadingZeros (closestKey ^^^ key)) 64
  let critbit ← checkedSub .arithmetic 64 zeros
  let shift ← checkedSub .arithmetic critbit 1
  require (shift < 64) .arithmetic
  pure ((1 <<< shift) % 2 ^ 64)

/-- Search the position of a new internal node: follow the bits of the key until the
mask is greater than that of an internal node.  The results are the pointer at the
position and the parent there. -/
def findPosition (tree : CritbitTree V) (key newMask : Nat) :
    Nat → Nat → Nat → Program (Nat × Nat)
  | 0, _, _ => .error .outOfGas
  | fuel + 1, ptr, parentIndex =>
    if ptr < partitionIndex then do
      let node ← Table.borrow tree.internalNodes ptr
      if newMask > node.mask then
        pure (ptr, parentIndex)
      else
        findPosition tree key newMask fuel (childOf key node) ptr
    else
      pure (ptr, parentIndex)

/-- Make a new internal node the child of its parent, or the root. -/
def linkInternalNode (tree : CritbitTree V) (parentIndex ptr index : Nat) :
    Program (CritbitTree V) :=
  if parentIndex = partitionIndex then
    pure { tree with root := index }
  else do
    let isLeft ← isLeftChild tree parentIndex ptr
    updateChild tree parentIndex index isLeft

/-- Link a new internal node with its parent, the new leaf and the pointer at its
position. -/
def graft (tree : CritbitTree V)
    (key newMask newLeafIndex newInternalNodeIndex ptr parentIndex : Nat) :
    Program (CritbitTree V) := do
  let tree ← linkInternalNode tree parentIndex ptr newInternalNodeIndex
  let isLeft := newMask &&& key == 0
  let tree ← updateChild tree newInternalNodeIndex (maxU64 - newLeafIndex) isLeft
  updateChild tree newInternalNodeIndex ptr (!isLeft)

/-- The new leaf becomes the least or the greatest one if its key is. -/
def updateEnds (tree : CritbitTree V) (key index : Nat) : Program (CritbitTree V) := do
  let least ← Table.borrow tree.leaves tree.minLeaf
  let tree := if least.key > key then { tree with minLeaf := index } else tree
  let greatest ← Table.borrow tree.leaves tree.maxLeaf
  pure (if greatest.key < key then { tree with maxLeaf := index } else tree)

/-- Insert a new leaf.  The result has its index. -/
def insertLeaf (tree : CritbitTree V) (key : Nat) (value : V) :
    Program (Nat × CritbitTree V) := do
  let newLeafIndex := tree.nextLeafIndex
  let nextLeafIndex ← U64.add tree.nextLeafIndex 1
  require (newLeafIndex < maxCapacity - 1) (.critbit eExceedCapacity)
  let leaves ← Table.add tree.leaves newLeafIndex ⟨key, value, partitionIndex⟩
  let tree := { tree with nextLeafIndex, leaves }
  let closestLeafIndex ← getClosestLeafIndexByKey tree key
  if closestLeafIndex = partitionIndex then do
    require (newLeafIndex = 0) (.critbit eTreeNotEmpty)
    pure (0, { tree with
      root := maxU64 - newLeafIndex
      minLeaf := newLeafIndex
      maxLeaf := newLeafIndex })
  else do
    let closest ← Table.borrow tree.leaves closestLeafIndex
    require (closest.key ≠ key) (.critbit eKeyAlreadyExist)
    let newMask ← criticalMask closest.key key
    let newInternalNodeIndex := tree.nextInternalNodeIndex
    let nextInternalNodeIndex ← U64.add tree.nextInternalNodeIndex 1
    let internalNodes ← Table.add tree.internalNodes newInternalNodeIndex
      ⟨newMask, partitionIndex, partitionIndex, partitionIndex⟩
    let tree := { tree with nextInternalNodeIndex, internalNodes }
    let (ptr, newInternalNodeParentIndex) ← findPosition tree key newMask
      (tree.internalNodes.size + 1) tree.root partitionIndex
    let tree ← graft tree key newMask newLeafIndex newInternalNodeIndex ptr
      newInternalNodeParentIndex
    let tree ← updateEnds tree key newLeafIndex
    pure (newLeafIndex, tree)

/-- The next leaf becomes the least one when the least one is removed. -/
def shiftMinLeaf (tree : CritbitTree V) (key index : Nat) : Program (CritbitTree V) :=
  if tree.minLeaf = index then do
    let (_, index) ← nextLeaf tree key
    pure { tree with minLeaf := index }
  else
    pure tree

/-- The previous leaf becomes the greatest one when the greatest one is removed. -/
def shiftMaxLeaf (tree : CritbitTree V) (key index : Nat) : Program (CritbitTree V) :=
  if tree.maxLeaf = index then do
    let (_, index) ← previousLeaf tree key
    pure { tree with maxLeaf := index }
  else
    pure tree

/-- The sibling of a removed leaf, which can be a leaf or an internal node, has no
parent any more. -/
def orphan (tree : CritbitTree V) (siblingIndex : Nat) : Program (CritbitTree V) :=
  if siblingIndex < partitionIndex then
    setNodeParent tree siblingIndex partitionIndex
  else
    setLeafParent tree (maxU64 - siblingIndex) partitionIndex

/-- Put the sibling of a removed leaf in the place of their parent: at the root or
below their grandparent. -/
def replaceParent (tree : CritbitTree V) (parentIndex grandParentIndex siblingIndex : Nat) :
    Program (CritbitTree V) :=
  if grandParentIndex = partitionIndex then do
    let tree ← orphan tree siblingIndex
    pure { tree with root := siblingIndex }
  else do
    let isLeft ← isLeftChild tree grandParentIndex parentIndex
    updateChild tree grandParentIndex siblingIndex isLeft

/-- Remove the parent of a removed leaf. -/
def unlinkParent (tree : CritbitTree V) (parentIndex index : Nat) :
    Program (CritbitTree V) := do
  require (parentIndex ≠ partitionIndex) (.critbit eIndexOutOfRange)
  let parent ← Table.borrow tree.internalNodes parentIndex
  let isLeft ← isLeftChild tree parentIndex (maxU64 - index)
  let siblingIndex := if isLeft then parent.rightChild else parent.leftChild
  let tree ← replaceParent tree parentIndex parent.parent siblingIndex
  let (_, internalNodes) ← Table.remove tree.internalNodes parentIndex
  pure { tree with internalNodes }

/-- Unlink a leaf that was removed from the table of leaves.  The tree starts anew
when it was the last one. -/
def unlinkLeaf (tree : CritbitTree V) (parentIndex index : Nat) :
    Program (CritbitTree V) :=
  if size tree = 0 then
    pure { tree with
      root := partitionIndex
      minLeaf := partitionIndex
      maxLeaf := partitionIndex
      nextInternalNodeIndex := 0
      nextLeafIndex := 0 }
  else
    unlinkParent tree parentIndex index

/-- Remove a leaf.  The result has its value. -/
def removeLeafByIndex (tree : CritbitTree V) (index : Nat) :
    Program (V × CritbitTree V) := do
  let leaf ← Table.borrow tree.leaves index
  let tree ← shiftMinLeaf tree leaf.key index
  let tree ← shiftMaxLeaf tree leaf.key index
  let (removed, leaves) ← Table.remove tree.leaves index
  let tree ← unlinkLeaf { tree with leaves } removed.parent index
  pure (removed.value, tree)

end Critbit

end Sui.DeepBook
