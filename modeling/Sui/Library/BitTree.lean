import Mathlib

/-!
# Binary search trees that branch at critical bits

A leaf holds a key.  A node branches at a bit: that bit is the highest one in
which a key of its left subtree differs from a key of its right subtree.  The
leaves, from left to right, then have increasing keys.

A position in a tree is a path of frames, the innermost one first.  Filling the
hole of the path with a subtree gives the whole tree, and the frames say which
leaves come before and after the hole.
-/

namespace Library

open List hiding after

/-- A bit is the highest one in which two numbers differ, and the first number
does not have it. -/
structure SplitAt (bit low high : Nat) : Prop where
  lowBit : low.testBit bit = false
  highBit : high.testBit bit = true
  above : ∀ position, bit < position → low.testBit position = high.testBit position

theorem SplitAt.lt (split : SplitAt bit low high) : low < high :=
  Nat.lt_of_testBit bit split.lowBit split.highBit split.above

/-- The highest bit in which two numbers differ. -/
def criticalBit (left right : Nat) : Nat :=
  (left ^^^ right).log2

/-- Two numbers agree above the highest bit in which they differ. -/
theorem testBit_eq_of_criticalBit_lt (differ : left ≠ right)
    (above : criticalBit left right < position) :
    left.testBit position = right.testBit position := by
  have nonzero : left ^^^ right ≠ 0 := Nat.xor_ne_zero_iff.mpr differ
  have small : left ^^^ right < 2 ^ position := (Nat.log2_lt nonzero).mp above
  have unset := Nat.testBit_lt_two_pow small
  rwa [Nat.testBit_xor, bne_eq_false_iff_eq] at unset

/-- Two keys differ in their critical bit. -/
theorem testBit_criticalBit {left right : Nat} (differ : left ≠ right) :
    left.testBit (criticalBit left right) = !right.testBit (criticalBit left right) := by
  have set := Nat.testBit_log2 (Nat.xor_ne_zero_iff.mpr differ)
  rw [Nat.testBit_xor] at set
  change (left.testBit (criticalBit left right) ^^
    right.testBit (criticalBit left right)) = true at set
  revert set
  cases left.testBit (criticalBit left right) <;>
    cases right.testBit (criticalBit left right) <;> decide

/-- A tree of leaves, each with a key and a value, and of nodes that branch at a
bit.  Leaves and nodes are numbered. -/
inductive BitTree (V : Type u)
  | leaf (index key : Nat) (value : V)
  | node (index bit : Nat) (left right : BitTree V)

namespace BitTree

/-- What a leaf holds. -/
structure Entry (V : Type u) where
  key : Nat
  index : Nat
  value : V

/-- The leaves from left to right. -/
def entries : BitTree V → List (Entry V)
  | leaf index key value => [⟨key, index, value⟩]
  | node _ _ left right => left.entries ++ right.entries

/-- The number of nodes. -/
def nodeCount : BitTree V → Nat
  | leaf _ _ _ => 0
  | node _ _ left right => left.nodeCount + right.nodeCount + 1

theorem length_entries (tree : BitTree V) : tree.entries.length = tree.nodeCount + 1 := by
  induction tree with
  | leaf index key value => rfl
  | node index bit left right leftHypothesis rightHypothesis =>
    rw [entries, length_append, leftHypothesis, rightHypothesis, nodeCount]
    omega

/-- The leaf furthest to the left. -/
def leftmost : BitTree V → Entry V
  | leaf index key value => ⟨key, index, value⟩
  | node _ _ left _ => left.leftmost

/-- The leaf furthest to the right. -/
def rightmost : BitTree V → Entry V
  | leaf index key value => ⟨key, index, value⟩
  | node _ _ _ right => right.rightmost

theorem head?_entries_append (tree : BitTree V) (others : List (Entry V)) :
    (tree.entries ++ others).head? = some tree.leftmost := by
  induction tree generalizing others with
  | leaf index key value => rfl
  | node index bit left right leftHypothesis rightHypothesis =>
    rw [entries, append_assoc, leftHypothesis, leftmost]

theorem getLast?_append_entries (tree : BitTree V) (others : List (Entry V)) :
    (others ++ tree.entries).getLast? = some tree.rightmost := by
  induction tree generalizing others with
  | leaf index key value => rw [entries, getLast?_concat, rightmost]
  | node index bit left right leftHypothesis rightHypothesis =>
    rw [entries, ← append_assoc, rightHypothesis, rightmost]

theorem head?_entries (tree : BitTree V) : tree.entries.head? = some tree.leftmost := by
  have first := head?_entries_append tree []
  rwa [append_nil] at first

theorem getLast?_entries (tree : BitTree V) : tree.entries.getLast? = some tree.rightmost :=
  getLast?_append_entries tree []

/-- Every node branches at the highest bit in which its subtrees differ. -/
def Critical : BitTree V → Prop
  | leaf _ _ _ => True
  | node _ bit left right =>
    (∀ low ∈ left.entries, ∀ high ∈ right.entries, SplitAt bit low.key high.key) ∧
      left.Critical ∧ right.Critical

variable {tree : BitTree V}

/-- Keys increase from left to right. -/
theorem Critical.sorted (critical : tree.Critical) :
    tree.entries.Pairwise fun first second => first.key < second.key := by
  induction tree with
  | leaf index key value => exact pairwise_singleton _ _
  | node index bit left right leftHypothesis rightHypothesis =>
    obtain ⟨splits, leftCritical, rightCritical⟩ := critical
    exact pairwise_append.mpr ⟨leftHypothesis leftCritical,
      rightHypothesis rightCritical, fun low isLow high isHigh =>
        (splits low isLow high isHigh).lt⟩

/-- The keys below a node agree above its bit. -/
theorem Critical.agree (critical : (node index bit left right).Critical)
    (isFirst : first ∈ (node index bit left right).entries)
    (isSecond : second ∈ (node index bit left right).entries) (above : bit < position) :
    first.key.testBit position = second.key.testBit position := by
  -- Keys on the same side are compared with a key of the other side.
  have isLeft := mem_of_head? (head?_entries left)
  have isRight := mem_of_head? (head?_entries right)
  have same : ∀ entry ∈ (node index bit left right).entries,
      entry.key.testBit position = left.leftmost.key.testBit position := by
    intro entry listed
    have across := (critical.1 _ isLeft _ isRight).above position above
    rcases mem_append.mp listed with onLeft | onRight
    · rw [(critical.1 _ onLeft _ isRight).above position above, across]
    · exact ((critical.1 _ isLeft _ onRight).above position above).symm
  rw [same _ isFirst, same _ isSecond]

/-- A node branches at a higher bit than the nodes right below it. -/
theorem Critical.bit_lt (critical : (node index bit left right).Critical)
    (isChild : left = node index' bit' left' right' ∨ right = node index' bit' left' right') :
    bit' < bit := by
  have isLow := mem_of_head? (head?_entries left')
  have isHigh := mem_of_head? (head?_entries right')
  -- Two keys below the child differ at its bit, but not from the bit of the node on.
  have differ : ∀ position, bit ≤ position →
      left'.leftmost.key.testBit position = right'.leftmost.key.testBit position := by
    intro position above
    rcases Nat.lt_or_eq_of_le above with beyond | rfl
    · rcases isChild with rfl | rfl
      · exact critical.agree (mem_append_left _ (mem_append_left _ isLow))
          (mem_append_left _ (mem_append_right _ isHigh)) beyond
      · exact critical.agree (mem_append_right _ (mem_append_left _ isLow))
          (mem_append_right _ (mem_append_right _ isHigh)) beyond
    · rcases isChild with rfl | rfl
      · have other := mem_of_head? (head?_entries right)
        rw [(critical.1 _ (mem_append_left _ isLow) _ other).lowBit,
          (critical.1 _ (mem_append_right _ isHigh) _ other).lowBit]
      · have other := mem_of_head? (head?_entries left)
        rw [(critical.1 _ other _ (mem_append_left _ isLow)).highBit,
          (critical.1 _ other _ (mem_append_right _ isHigh)).highBit]
  have childCritical : (node index' bit' left' right').Critical := by
    rcases isChild with rfl | rfl
    · exact critical.2.1
    · exact critical.2.2
  have split := childCritical.1 _ isLow _ isHigh
  by_contra notLower
  have same := differ bit' (Nat.not_lt.mp notLower)
  rw [split.lowBit, split.highBit] at same
  cases same

/-! ## Searching for a key -/

/-- The leaf that is reached by following the bits of a key. -/
def closest (key : Nat) : BitTree V → Entry V
  | leaf index key' value => ⟨key', index, value⟩
  | node _ bit left right =>
    if key.testBit bit then right.closest key else left.closest key

theorem closest_mem (key : Nat) (tree : BitTree V) : tree.closest key ∈ tree.entries := by
  induction tree with
  | leaf index key' value => exact mem_singleton_self _
  | node index bit left right leftHypothesis rightHypothesis =>
    rw [closest, entries, mem_append]
    split
    · exact .inr rightHypothesis
    · exact .inl leftHypothesis

/-- A key that is present is found. -/
theorem Critical.closest_eq (critical : tree.Critical)
    (listed : entry ∈ tree.entries) :
    tree.closest entry.key = entry := by
  induction tree with
  | leaf index key value =>
    rw [mem_singleton.mp listed, closest]
  | node index bit left right leftHypothesis rightHypothesis =>
    obtain ⟨splits, leftCritical, rightCritical⟩ := critical
    rw [closest]
    rcases mem_append.mp listed with onLeft | onRight
    · have unset := (splits _ onLeft _ (closest_mem 0 right)).lowBit
      rw [if_neg (Bool.eq_false_iff.mp unset), leftHypothesis leftCritical onLeft]
    · have set := (splits _ (closest_mem 0 left) _ onRight).highBit
      rw [if_pos set, rightHypothesis rightCritical onRight]

/-- If a key agrees with the one that is searched for from some bit on, so does the
closest one. -/
theorem Critical.closest_agrees (critical : tree.Critical) (listed : entry ∈ tree.entries)
    (agrees : ∀ position, bits ≤ position → entry.key.testBit position = key.testBit position)
    (above : bits ≤ position) :
    (tree.closest key).key.testBit position = key.testBit position := by
  induction tree with
  | leaf index key' value =>
    rw [← agrees position above, mem_singleton.mp listed, closest]
  | node index bit left right leftHypothesis rightHypothesis =>
    by_cases beyond : bit < position
    · rw [← agrees position above]
      exact critical.agree (closest_mem key _) listed beyond
    · -- So the two keys agree at the bit of the node, and are on the same side.
      have here := agrees bit (above.trans (Nat.not_lt.mp beyond))
      obtain ⟨splits, leftCritical, rightCritical⟩ := critical
      rw [closest, ← here]
      rcases mem_append.mp listed with onLeft | onRight
      · have unset := (splits _ onLeft _ (closest_mem 0 right)).lowBit
        rw [if_neg (Bool.eq_false_iff.mp unset)]
        exact leftHypothesis leftCritical onLeft
      · have set := (splits _ (closest_mem 0 left) _ onRight).highBit
        rw [if_pos set]
        exact rightHypothesis rightCritical onRight

/-! ## Positions -/

/-- A node with a hole in the place of one of its subtrees. -/
structure Frame (V : Type u) where
  index : Nat
  bit : Nat
  onLeft : Bool
  sibling : BitTree V

/-- Fill the hole of a node. -/
def Frame.fill (frame : Frame V) (tree : BitTree V) : BitTree V :=
  if frame.onLeft then
    node frame.index frame.bit tree frame.sibling
  else
    node frame.index frame.bit frame.sibling tree

/-- Fill the hole of a path. -/
def plug : List (Frame V) → BitTree V → BitTree V
  | [], tree => tree
  | frame :: outer, tree => plug outer (frame.fill tree)

/-- The leaves before the hole of a path. -/
def before : List (Frame V) → List (Entry V)
  | [] => []
  | frame :: outer =>
    before outer ++ if frame.onLeft then [] else frame.sibling.entries

/-- The leaves after the hole of a path. -/
def after : List (Frame V) → List (Entry V)
  | [] => []
  | frame :: outer =>
    (if frame.onLeft then frame.sibling.entries else []) ++ after outer

/-- The entries of a tree around a hole. -/
theorem entries_plug (frames : List (Frame V)) (tree : BitTree V) :
    (plug frames tree).entries = before frames ++ tree.entries ++ after frames := by
  induction frames generalizing tree with
  | nil => rw [plug, before, after, nil_append, append_nil]
  | cons frame outer ih =>
    rw [plug, ih, before, after, Frame.fill]
    split
    · rw [entries, append_nil]
      simp only [append_assoc]
    · rw [entries, nil_append]
      simp only [append_assoc]

theorem mem_entries_plug (frames : List (Frame V)) (listed : entry ∈ tree.entries) :
    entry ∈ (plug frames tree).entries := by
  rw [entries_plug]
  exact mem_append_left _ (mem_append_right _ listed)

variable {entry : Entry V}

variable {frame : Frame V}

theorem mem_entries_fill :
    entry ∈ (frame.fill tree).entries ↔ entry ∈ tree.entries ∨ entry ∈ frame.sibling.entries := by
  unfold Frame.fill
  split
  · rw [entries, mem_append]
  · rw [entries, mem_append, or_comm]

theorem length_le_nodeCount (frames : List (Frame V)) (tree : BitTree V) :
    frames.length + tree.nodeCount ≤ (plug frames tree).nodeCount := by
  induction frames generalizing tree with
  | nil => rw [plug, length_nil, Nat.zero_add]
  | cons frame outer ih =>
    rw [plug, length_cons]
    apply Nat.le_trans _ (ih (frame.fill tree))
    unfold Frame.fill
    split <;> rw [nodeCount] <;> omega

theorem Critical.of_fill (critical : (frame.fill tree).Critical) :
    tree.Critical ∧ frame.sibling.Critical := by
  unfold Frame.fill at critical
  split at critical
  · exact critical.2
  · exact critical.2.symm

theorem Critical.of_plug {frames : List (Frame V)} (critical : (plug frames tree).Critical) :
    tree.Critical := by
  induction frames generalizing tree with
  | nil => exact critical
  | cons frame outer ih =>
    exact (ih critical).of_fill.1

/-- The keys at a position have the bits that lead there. -/
theorem Critical.testBit_of_plug {frames : List (Frame V)} (critical : (plug frames tree).Critical)
    (listed : entry ∈ tree.entries) (isFrame : frame ∈ frames) :
    entry.key.testBit frame.bit = !frame.onLeft := by
  induction frames generalizing tree with
  | nil => cases isFrame
  | cons inner outer ih =>
    rcases mem_cons.mp isFrame with rfl | isOuter
    · have whole : (plug outer (frame.fill tree)).Critical := critical
      have filled := whole.of_plug
      unfold Frame.fill at filled
      split at filled
      · next isLeft =>
        rw [isLeft, (filled.1 _ listed _ (closest_mem 0 _)).lowBit]
        rfl
      · next isRight =>
        rw [Bool.eq_false_iff.mpr isRight, (filled.1 _ (closest_mem 0 _) _ listed).highBit]
        rfl
    · exact ih critical (mem_entries_fill.mpr (.inl listed)) isOuter

/-- A key agrees with another one on all bits that matter on a path. -/
def Follows (frames : List (Frame V)) (key guide : Nat) : Prop :=
  ∀ frame ∈ frames, ∀ position, frame.bit ≤ position → key.testBit position = guide.testBit position

/-- A subtree of a node may be replaced by one whose keys are old ones or follow an
old one. -/
theorem Critical.fill {old new : BitTree V} (critical : (frame.fill old).Critical)
    (newCritical : new.Critical) (isGuide : guide ∈ old.entries)
    (known : ∀ entry ∈ new.entries, entry ∈ old.entries ∨ ∀ position, frame.bit ≤ position →
        entry.key.testBit position = guide.key.testBit position) :
    (frame.fill new).Critical := by
  have siblingCritical := critical.of_fill.2
  unfold Frame.fill at critical ⊢
  cases side : frame.onLeft with
  | true =>
    rw [side, if_pos rfl] at critical
    refine ⟨fun low isLow high isHigh => ?_, newCritical, siblingCritical⟩
    rcases known low isLow with isOld | same
    · exact critical.1 low isOld high isHigh
    · have split := critical.1 guide isGuide high isHigh
      exact ⟨(same _ le_rfl).trans split.lowBit, split.highBit,
        fun position beyond => (same _ beyond.le).trans (split.above _ beyond)⟩
  | false =>
    rw [side, if_neg Bool.false_ne_true] at critical
    refine ⟨fun low isLow high isHigh => ?_, siblingCritical, newCritical⟩
    rcases known high isHigh with isOld | same
    · exact critical.1 low isLow high isOld
    · have split := critical.1 low isLow guide isGuide
      exact ⟨split.lowBit, (same _ le_rfl).trans split.highBit,
        fun position beyond => (split.above _ beyond).trans (same _ beyond.le).symm⟩

/-- The subtree at a position may be replaced by one whose keys are old ones or
follow an old one. -/
theorem Critical.plug {old new : BitTree V} (critical : (plug frames old).Critical)
    (newCritical : new.Critical) (isGuide : guide ∈ old.entries)
    (known : ∀ entry ∈ new.entries, entry ∈ old.entries ∨ Follows frames entry.key guide.key) :
    (BitTree.plug frames new).Critical := by
  induction frames generalizing old new with
  | nil => exact newCritical
  | cons frame outer ih =>
    apply ih critical
    · have filled : (BitTree.plug outer (frame.fill old)).Critical := critical
      apply filled.of_plug.fill newCritical isGuide
      intro entry listed
      exact (known entry listed).imp id fun follows =>
        follows frame mem_cons_self
    · exact mem_entries_fill.mpr (.inl isGuide)
    · intro entry listed
      rcases mem_entries_fill.mp listed with isNew | isSibling
      · exact (known entry isNew).imp (fun isOld => mem_entries_fill.mpr (.inl isOld))
          (fun follows frame' listed' =>
            follows frame' (mem_cons_of_mem frame listed'))
      · exact .inl (mem_entries_fill.mpr (.inr isSibling))

/-! ## The position of a key -/

/-- Follow the bits of a key as long as the nodes branch at a bit that is not lower
than the given one. -/
def locate (key bit : Nat) : List (Frame V) → BitTree V → List (Frame V) × BitTree V
  | outer, leaf index key' value => (outer, leaf index key' value)
  | outer, node index bit' left right =>
    if bit' < bit then
      (outer, node index bit' left right)
    else if key.testBit bit' then
      locate key bit (⟨index, bit', false, left⟩ :: outer) right
    else
      locate key bit (⟨index, bit', true, right⟩ :: outer) left

/-- Locating a place does not change the tree. -/
theorem plug_locate (key bit : Nat) (outer : List (Frame V)) (tree : BitTree V) :
    plug (locate key bit outer tree).1 (locate key bit outer tree).2 = plug outer tree := by
  induction tree generalizing outer with
  | leaf index key' value => rfl
  | node index bit' left right leftHypothesis rightHypothesis =>
    rw [locate]
    split
    · rfl
    · split
      · rw [rightHypothesis]
        rfl
      · rw [leftHypothesis]
        rfl

/-- The search for the closest leaf passes through the position. -/
theorem closest_locate (key bit : Nat) (outer : List (Frame V)) (tree : BitTree V) :
    (locate key bit outer tree).2.closest key = tree.closest key := by
  induction tree generalizing outer with
  | leaf index key' value => rfl
  | node index bit' left right leftHypothesis rightHypothesis =>
    rw [locate]
    split
    · rfl
    · split
      · next set => rw [rightHypothesis, closest, if_pos set]
      · next unset => rw [leftHypothesis, closest, if_neg unset]

/-- The nodes on the way to the position branch at high bits, in the direction of
the key. -/
theorem locate_frames (tree : BitTree V)
    (around : ∀ frame ∈ outer, bit ≤ frame.bit ∧ key.testBit frame.bit = !frame.onLeft) :
    ∀ frame ∈ (locate key bit outer tree).1,
      bit ≤ frame.bit ∧ key.testBit frame.bit = !frame.onLeft := by
  induction tree generalizing outer with
  | leaf index key' value => exact around
  | node index bit' left right leftHypothesis rightHypothesis =>
    rw [locate]
    split
    · exact around
    · next high =>
      split
      · next set =>
        apply rightHypothesis
        exact forall_mem_cons.mpr ⟨⟨Nat.le_of_not_lt high, set⟩, around⟩
      · next unset =>
        apply leftHypothesis
        exact forall_mem_cons.mpr ⟨⟨Nat.le_of_not_lt high, Bool.eq_false_iff.mpr unset⟩, around⟩

/-- The keys below a located place agree above the bit. -/
theorem Critical.locate_agree (critical : tree.Critical)
    (isFirst : first ∈ (locate key bit outer tree).2.entries)
    (isSecond : second ∈ (locate key bit outer tree).2.entries) (above : bit ≤ position) :
    first.key.testBit position = second.key.testBit position := by
  induction tree generalizing outer with
  | leaf index key' value =>
    rw [mem_singleton.mp isFirst, mem_singleton.mp isSecond]
  | node index bit' left right leftHypothesis rightHypothesis =>
    rw [locate] at isFirst isSecond
    split at isFirst
    · next low =>
      rw [if_pos low] at isSecond
      exact critical.agree isFirst isSecond (Nat.lt_of_lt_of_le low above)
    · next high =>
      rw [if_neg high] at isSecond
      split at isFirst
      · next set =>
        rw [if_pos set] at isSecond
        exact rightHypothesis critical.2.2 isFirst isSecond
      · next unset =>
        rw [if_neg unset] at isSecond
        exact leftHypothesis critical.2.1 isFirst isSecond

/-! ## Inserting and removing leaves -/

/-- A new node over a subtree and a new leaf. -/
def fork (node bit leaf key : Nat) (value : V) (tree : BitTree V) : BitTree V :=
  if key.testBit bit then
    .node node bit tree (.leaf leaf key value)
  else
    .node node bit (.leaf leaf key value) tree

theorem mem_entries_fork {node bit leaf key : Nat} :
    entry ∈ (fork node bit leaf key value tree).entries ↔
      entry = ⟨key, leaf, value⟩ ∨ entry ∈ tree.entries := by
  unfold fork
  split
  · rw [entries, mem_append, or_comm, entries, mem_singleton]
  · rw [entries, mem_append, entries, mem_singleton]

/-- The tree with a new leaf at the position of its key. -/
def insert (node leaf key : Nat) (value : V) (tree : BitTree V) : BitTree V :=
  let bit := criticalBit (tree.closest key).key key
  let position := locate key bit [] tree
  plug position.1 (fork node bit leaf key value position.2)

/-- A new leaf fits next to a subtree whose keys agree from the bit on, unlike its
own key at that bit. -/
theorem Critical.fork (critical : tree.Critical)
    (differ : ∀ entry ∈ tree.entries, entry.key.testBit bit = !key.testBit bit)
    (agree : ∀ entry ∈ tree.entries, ∀ position, bit < position →
      entry.key.testBit position = key.testBit position)
    (node leaf : Nat) (value : V) :
    (fork node bit leaf key value tree).Critical := by
  unfold BitTree.fork
  split
  · next set =>
    refine ⟨fun low isLow high isHigh => ?_, critical, trivial⟩
    rw [mem_singleton.mp isHigh]
    exact ⟨by rw [differ low isLow, set]; rfl, set, agree low isLow⟩
  · next unset =>
    refine ⟨fun low isLow high isHigh => ?_, trivial, critical⟩
    rw [mem_singleton.mp isLow]
    have unset' : key.testBit bit = false := Bool.eq_false_iff.mpr unset
    exact ⟨unset', by rw [differ high isHigh, unset']; rfl,
      fun position above => (agree high isHigh position above).symm⟩

/-- Inserting a new key keeps the bits critical. -/
theorem Critical.insert (critical : tree.Critical) (differs : (tree.closest key).key ≠ key)
    (node leaf : Nat) (value : V) :
    (insert node leaf key value tree).Critical := by
  have agree := fun position (above : criticalBit _ _ < position) =>
    testBit_eq_of_criticalBit_lt differs above
  have disagree := testBit_criticalBit differs
  unfold BitTree.insert
  generalize criticalBit (tree.closest key).key key = bit at agree disagree ⊢
  have wholeCritical : (BitTree.plug (locate key bit [] tree).1
      (locate key bit [] tree).2).Critical := by
    rw [plug_locate]
    exact critical
  have isGuide : tree.closest key ∈ (locate key bit [] tree).2.entries := by
    rw [← closest_locate key bit []]
    exact closest_mem _ _
  -- At the position all keys agree with the closest one, from the bit on.
  have guided : ∀ entry ∈ (locate key bit [] tree).2.entries, ∀ position, bit ≤ position →
        entry.key.testBit position = (tree.closest key).key.testBit position :=
    fun entry listed position above => critical.locate_agree listed isGuide above
  apply wholeCritical.plug _ isGuide
  · intro entry listed
    rcases mem_entries_fork.mp listed with rfl | isOld
    · right
      intro frame isFrame position above
      obtain ⟨high, side⟩ := locate_frames tree (forall_mem_nil _) frame isFrame
      rcases Nat.lt_or_eq_of_le (Nat.le_trans high above) with beyond | same
      · exact (agree position beyond).symm
      · -- No node on the way branches at the bit itself: there the keys differ.
        have onPath := wholeCritical.testBit_of_plug isGuide isFrame
        have atBit : frame.bit = bit := by omega
        rw [atBit] at onPath side
        rw [disagree, side, Bool.not_eq_self] at onPath
        exact onPath.elim
    · exact .inl isOld
  · apply wholeCritical.of_plug.fork
    · exact fun entry listed => (guided entry listed bit le_rfl).trans disagree
    · exact fun entry listed position above =>
        (guided entry listed position above.le).trans (agree position above)

/-- Inserting a leaf adds it somewhere among the others. -/
theorem entries_insert (node leaf key : Nat) (value : V) (tree : BitTree V) :
    ∃ earlier later, tree.entries = earlier ++ later ∧ (insert node leaf key value tree).entries =
        earlier ++ ⟨key, leaf, value⟩ :: later := by
  unfold insert
  generalize criticalBit (tree.closest key).key key = bit
  have whole := entries_plug (locate key bit [] tree).1 (locate key bit [] tree).2
  rw [plug_locate] at whole
  rw [entries_plug]
  unfold fork
  split
  · refine ⟨_, _, whole, ?_⟩
    rw [entries, entries]
    simp only [append_assoc, singleton_append]
  · refine ⟨before (locate key bit [] tree).1,
      (locate key bit [] tree).2.entries ++ after (locate key bit [] tree).1, ?_, ?_⟩
    · rw [← append_assoc]
      exact whole
    · rw [entries, entries]
      simp only [append_assoc, cons_append, nil_append]

theorem mem_entries_insert {node leaf key : Nat} :
    entry ∈ (insert node leaf key value tree).entries ↔
      entry = ⟨key, leaf, value⟩ ∨ entry ∈ tree.entries := by
  obtain ⟨earlier, later, old, new⟩ := entries_insert node leaf key value tree
  rw [old, new, mem_append, mem_cons, mem_append, or_left_comm]

/-- The first entry of a sorted list is the old one, unless a new one comes before it. -/
theorem head?_sorted {R : α → α → Prop} {earlier : List α} {entry least : α}
    [Decidable (R entry least)] (asymmetric : ∀ {first second}, R first second → ¬R second first)
    (sorted : (earlier ++ entry :: later).Pairwise R)
    (first : (earlier ++ entry :: later).head? = some least')
    (oldFirst : (earlier ++ later).head? = some least) :
    least' = if R entry least then entry else least := by
  cases earlier with
  | nil =>
    cases first
    exact (if_pos ((pairwise_cons.mp sorted).1 _ (mem_of_head? oldFirst))).symm
  | cons other earlier =>
    cases first
    cases oldFirst
    have before := (pairwise_cons.mp sorted).1 entry (mem_append_right _ mem_cons_self)
    exact (if_neg (asymmetric before)).symm

/-- The leftmost leaf after inserting. -/
theorem Critical.leftmost_insert {node leaf key : Nat} {value : V}
    (critical : (BitTree.insert node leaf key value tree).Critical) :
    (BitTree.insert node leaf key value tree).leftmost =
      if key < tree.leftmost.key then ⟨key, leaf, value⟩ else tree.leftmost := by
  obtain ⟨earlier, later, old, new⟩ := entries_insert node leaf key value tree
  have sorted := critical.sorted
  have first := head?_entries (BitTree.insert node leaf key value tree)
  have oldFirst := head?_entries tree
  rw [new] at sorted first
  rw [old] at oldFirst
  exact head?_sorted (fun before => before.not_gt) sorted first oldFirst

/-- The rightmost leaf after inserting. -/
theorem Critical.rightmost_insert {node leaf key : Nat} {value : V}
    (critical : (BitTree.insert node leaf key value tree).Critical) :
    (BitTree.insert node leaf key value tree).rightmost =
      if tree.rightmost.key < key then ⟨key, leaf, value⟩ else tree.rightmost := by
  obtain ⟨earlier, later, old, new⟩ := entries_insert node leaf key value tree
  -- From the right, the keys decrease.
  have sorted := pairwise_reverse.mpr critical.sorted
  have last := getLast?_entries (BitTree.insert node leaf key value tree)
  have oldLast := getLast?_entries tree
  rw [← head?_reverse] at last oldLast
  rw [new, reverse_append, reverse_cons, append_assoc, singleton_append] at sorted last
  rw [old, reverse_append] at oldLast
  exact head?_sorted (fun after => after.not_gt) sorted last oldLast

/-- Removing a leaf: the sibling takes the place of the parent. -/
theorem Critical.remove {outer : List (Frame V)}
    (critical : (BitTree.plug (frame :: outer) tree).Critical) :
    (BitTree.plug outer frame.sibling).Critical := by
  have filled : (BitTree.plug outer (frame.fill tree)).Critical := critical
  apply filled.plug (of_plug filled).of_fill.2
  · exact mem_entries_fill.mpr (.inr (closest_mem 0 frame.sibling))
  · exact fun entry listed => .inl (mem_entries_fill.mpr (.inr listed))

theorem entries_remove (frame : Frame V) (outer : List (Frame V)) :
    (plug outer frame.sibling).entries = before (frame :: outer) ++ after (frame :: outer) := by
  rw [entries_plug, before, after]
  split
  · simp only [append_nil, append_assoc]
  · simp only [nil_append, append_assoc]

/-! ## Neighbours -/

/-- The next leaf is in the sibling of the first subtree on the way up that is a
left one. -/
theorem head?_after (frames : List (Frame V)) :
    (after frames).head? = (frames.find? (·.onLeft)).map fun frame => frame.sibling.leftmost := by
  induction frames with
  | nil => rfl
  | cons frame outer ih =>
    rw [after]
    cases side : frame.onLeft with
    | true =>
      rw [if_pos rfl, head?_entries_append, find?_cons_of_pos side]
      rfl
    | false =>
      rw [if_neg Bool.false_ne_true, nil_append, ih, find?_cons_of_neg (Bool.eq_false_iff.mp side)]

/-- The previous leaf is in the sibling of the first subtree on the way up that is
a right one. -/
theorem getLast?_before (frames : List (Frame V)) :
    (before frames).getLast? = (frames.find? fun frame => !frame.onLeft).map fun frame =>
        frame.sibling.rightmost := by
  induction frames with
  | nil => rfl
  | cons frame outer ih =>
    rw [before]
    cases side : frame.onLeft with
    | true =>
      rw [if_pos rfl, append_nil, ih, find?_cons_of_neg (by rw [side]; exact Bool.false_ne_true)]
    | false =>
      rw [if_neg Bool.false_ne_true, getLast?_append_entries, find?_cons_of_pos (by rw [side]; rfl)]
      rfl

/-- Every leaf has a position. -/
theorem exists_plug (listed : entry ∈ tree.entries) :
    ∃ frames, tree = plug frames (leaf entry.index entry.key entry.value) := by
  suffices ∀ outer, ∃ frames,
      plug outer tree = plug frames (leaf entry.index entry.key entry.value) from
    this []
  induction tree with
  | leaf index key value =>
    intro outer
    rw [mem_singleton.mp listed]
    exact ⟨outer, rfl⟩
  | node index bit left right leftHypothesis rightHypothesis =>
    intro outer
    rcases mem_append.mp listed with onLeft | onRight
    · exact leftHypothesis onLeft (⟨index, bit, true, right⟩ :: outer)
    · exact rightHypothesis onRight (⟨index, bit, false, left⟩ :: outer)

/-- The leaves around a leaf are those around its position. -/
theorem Critical.exists_position (critical : tree.Critical) {earlier later : List (Entry V)}
    (split : tree.entries = earlier ++ entry :: later) :
    ∃ frames, tree = BitTree.plug frames (leaf entry.index entry.key entry.value) ∧
      before frames = earlier ∧ after frames = later := by
  have listed : entry ∈ tree.entries := by
    rw [split]
    exact mem_append_right _ mem_cons_self
  obtain ⟨frames, rfl⟩ := exists_plug listed
  have around := entries_plug frames (leaf entry.index entry.key entry.value)
  rw [entries, append_assoc, singleton_append, split] at around
  -- Keys differ, so the leaf occurs only once.
  have sorted := critical.sorted
  rw [split, pairwise_append, pairwise_cons] at sorted
  have notEarlier : entry ∉ earlier := fun listed =>
    (sorted.2.2 entry listed entry mem_cons_self).false
  have notLater : entry ∉ later := fun listed => (sorted.2.1.1 entry listed).false
  obtain ⟨isEarlier, _, isLater⟩ := (append_cons_inj_of_notMem notEarlier notLater).mp around
  exact ⟨frames, rfl, isEarlier.symm, isLater.symm⟩

end BitTree

end Library
