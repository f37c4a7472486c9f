import Sui.Narwhal.Consensus.View

/-!
# Flattening the history of a leader

The depth-first search from a leader succeeds in every view, returns the part of
the leader's history that is neither committed nor garbage collected, and
returns the same sequence in any two views.
-/

namespace Sui.Narwhal

open Library
open List hiding after
open Certificate (digest)

namespace CertificateSet

variable {history : CertificateSet}

/-- What the search has found while it holds the certificates `stack`. -/
structure Searched
    (history : CertificateSet)
    (lastCommitted : LastCommitted)
    (gc : Nat)
    (leader : Certificate)
    (popped stack : List Certificate)
    (alreadyOrdered : List CertificateDigest) : Prop where
  path : ∀ certificate ∈ popped ++ stack, history.Path leader certificate ∧ gc < certificate.round
  fresh : ∀ certificate ∈ popped ++ stack,
    certificate = leader ∨ alreadyCommitted lastCommitted certificate = false
  marked : ∀ digest, digest ∈ alreadyOrdered ↔ ∃ certificate ∈ popped ++ stack,
      certificate ≠ leader ∧ certificate.digest = digest
  nodup : (popped ++ stack).Nodup
  covered : ∀ certificate ∈ popped, gc + 1 < certificate.round → ∀ parent,
    history.Parent certificate parent →
      parent ∈ popped ++ stack ∨ alreadyCommitted lastCommitted parent = true
  leaderFound : leader ∈ popped ++ stack

/-- The sequence of certificates that a leader commits. -/
structure Flattened
    (history : CertificateSet)
    (lastCommitted : LastCommitted)
    (gc : Nat)
    (leader : Certificate)
    (sequence : List Certificate) : Prop where
  path : ∀ certificate ∈ sequence, history.Path leader certificate ∧ gc < certificate.round
  fresh : ∀ certificate ∈ sequence,
    certificate = leader ∨ alreadyCommitted lastCommitted certificate = false
  nodup : sequence.Nodup
  covered : ∀ certificate ∈ sequence, gc + 1 < certificate.round → ∀ parent,
    history.Parent certificate parent →
      parent ∈ sequence ∨ alreadyCommitted lastCommitted parent = true
  leaderFound : leader ∈ sequence
  sorted : sequence.Pairwise fun left right => left.round ≤ right.round

namespace View

variable {gc : Nat} {state : ConsensusState}

/-- Pushing the parents of a certificate. -/
theorem pushParents_spec (view : history.View gc state.dag) (pushed : List Certificate)
    (alreadyOrdered : List CertificateDigest)
    (present : ∀ digest ∈ parents, ∃ parent, history.Parent child parent ∧
      InDag state.dag parent ∧ parent.digest = digest) :
    ∃ fresh : List Certificate, pushParents state child parents pushed alreadyOrdered =
        .ok (fresh ++ pushed, fresh.map digest ++ alreadyOrdered) ∧
      (∀ parent ∈ fresh, history.Parent child parent ∧
        InDag state.dag parent ∧ parent.digest ∉ alreadyOrdered ∧
        alreadyCommitted state.lastCommitted parent = false) ∧
      (fresh.map digest).Nodup ∧
      ∀ parent, history.Parent child parent → parent.digest ∈ parents →
        parent.digest ∈ fresh.map digest ++ alreadyOrdered ∨
          alreadyCommitted state.lastCommitted parent = true := by
  induction parents generalizing pushed alreadyOrdered with
  | nil => exact ⟨[], rfl, by simp, by simp, by simp⟩
  | cons digest parents ih =>
    obtain ⟨parent, step, inside, rfl⟩ := present digest mem_cons_self
    have rest : ∀ digest ∈ parents, ∃ parent, history.Parent child parent ∧
        InDag state.dag parent ∧ parent.digest = digest :=
      (forall_mem_cons.mp present).2
    rw [pushParents, view.findParent_eq inside step]
    by_cases skip : (alreadyOrdered.contains parent.digest ||
        alreadyCommitted state.lastCommitted parent) = true
    · obtain ⟨fresh, result, isFresh, nodup, covered⟩ := ih pushed alreadyOrdered rest
      refine ⟨fresh, ?_, isFresh, nodup, ?_⟩
      · simpa only [skip, if_true] using result
      · intro other otherStep listed
        rcases mem_cons.mp listed with same | later
        · obtain rfl := otherStep.unique_of_digest step same
          rcases (Bool.or_eq_true _ _).mp skip with marked | committed
          · exact .inl (mem_append_right _ (contains_iff_mem.mp marked))
          · exact .inr committed
        · exact covered other otherStep later
    · obtain ⟨fresh, result, isFresh, nodup, covered⟩ :=
        ih (parent :: pushed) (parent.digest :: alreadyOrdered) rest
      have notMarked : parent.digest ∉ alreadyOrdered := by
        intro marked
        exact skip (by simp [marked])
      have notCommitted : alreadyCommitted state.lastCommitted parent = false := by
        cases committed : alreadyCommitted state.lastCommitted parent with
        | false => rfl
        | true => exact absurd (by simp [committed]) skip
      refine ⟨fresh ++ [parent], ?_, ?_, ?_, ?_⟩
      · simpa only [skip, if_false, Bool.false_eq_true, append_assoc,
          singleton_append, map_append, map_cons, map_nil] using result
      · intro other listed
        rcases mem_snoc.mp listed with earlier | rfl
        · obtain ⟨otherStep, otherInside, unmarked, uncommitted⟩ := isFresh other earlier
          exact ⟨otherStep, otherInside, fun marked => unmarked (mem_cons_of_mem _ marked),
            uncommitted⟩
        · exact ⟨step, inside, notMarked, notCommitted⟩
      · rw [map_append, nodup_append]
        refine ⟨nodup, by simp, ?_⟩
        intro digest earlier digest' last
        obtain ⟨other, otherListed, rfl⟩ := mem_map.mp earlier
        rw [map_singleton, mem_singleton] at last
        rintro rfl
        exact (isFresh other otherListed).2.2.1 (last ▸ mem_cons_self)
      · intro other otherStep listed
        rcases mem_cons.mp listed with same | later
        · left
          simp [same]
        · rcases covered other otherStep later with found | committed
          · left
            simpa using found
          · exact .inr committed

/-- The parents of a certificate in memory are in memory when they are above
garbage collection. -/
theorem parents_present (view : history.View gc state.dag) (inside : InDag state.dag child)
    (above : gc + 1 < child.round) :
    ∀ digest ∈ child.parents, ∃ parent, history.Parent child parent ∧
      InDag state.dag parent ∧ parent.digest = digest := by
  intro digest listed
  obtain ⟨parent, member, rfl, below⟩ :=
    history.parentsPresent child (view.mem inside) (by omega) digest listed
  have step : history.Parent child parent := ⟨member, listed, below⟩
  exact ⟨parent, step, view.closed child parent inside above step, rfl⟩

end View

theorem digest_mem_dagDigests (inside : InDag dag certificate) :
    certificate.digest ∈ dagDigests dag := by
  obtain ⟨roundTable, found⟩ := exists_roundTable_of_dagEntry inside
  rw [dagDigests, mem_flatMap]
  refine ⟨roundTable, (Map.mem_values_iff _ _).mpr ⟨_, found⟩, ?_⟩
  exact mem_map.mpr ⟨_, (mem_values_iff_dagEntry found _).mpr ⟨_, inside⟩, rfl⟩

namespace Searched

variable {lastCommitted : LastCommitted} {bound : Nat} {leader : Certificate}

/-- The search before its first step. -/
theorem initial (above : bound < leader.round) :
    Searched history lastCommitted bound leader [] [leader] [] where
  path := by
    intro certificate listed
    obtain rfl : certificate = leader := by simpa using listed
    exact ⟨.refl _, above⟩
  fresh := by simp
  marked := by simp
  nodup := by simp
  covered := by simp
  leaderFound := by simp

/-- A finished certificate is replaced by its fresh parents. -/
theorem push {popped stack fresh : List Certificate}
    (searched : Searched history lastCommitted bound leader popped (item :: stack) alreadyOrdered)
    (isFresh : ∀ parent ∈ fresh, history.Parent item parent ∧ bound < parent.round ∧
      parent.digest ∉ alreadyOrdered ∧ alreadyCommitted lastCommitted parent = false)
    (nodup : (fresh.map digest).Nodup)
    (covered : bound + 1 < item.round → ∀ parent, history.Parent item parent →
      parent.digest ∈ fresh.map digest ++ alreadyOrdered ∨
        alreadyCommitted lastCommitted parent = true) :
    Searched history lastCommitted bound leader (popped ++ [item])
      (fresh ++ stack) (fresh.map digest ++ alreadyOrdered) := by
  have permuted : ((popped ++ [item]) ++ (fresh ++ stack)).Perm
      (fresh ++ (popped ++ item :: stack)) := by
    have assoc : popped ++ item :: stack = (popped ++ [item]) ++ stack := by simp
    rw [assoc, ← append_assoc, ← append_assoc]
    exact List.Perm.append_right stack perm_append_comm
  have split : ∀ certificate, certificate ∈ (popped ++ [item]) ++ (fresh ++ stack) ↔
        certificate ∈ fresh ∨ certificate ∈ popped ++ item :: stack := by
    intro certificate
    rw [permuted.mem_iff, mem_append]
  obtain ⟨itemPath, _⟩ := searched.path item (by simp)
  have freshPath : ∀ parent ∈ fresh, history.Path leader parent ∧
      bound < parent.round ∧ parent ≠ leader := by
    intro parent listed
    obtain ⟨step, above, _⟩ := isFresh parent listed
    have below := step.below
    have itemBelow := itemPath.round_le
    refine ⟨itemPath.tail step, above, ?_⟩
    rintro rfl
    omega
  refine ⟨?_, ?_, ?_, ?_, ?_, ?_⟩
  · intro certificate listed
    rcases (split certificate).mp listed with new | old
    · exact ⟨(freshPath certificate new).1, (freshPath certificate new).2.1⟩
    · exact searched.path certificate old
  · intro certificate listed
    rcases (split certificate).mp listed with new | old
    · exact .inr (isFresh certificate new).2.2.2
    · exact searched.fresh certificate old
  · intro digest
    rw [mem_append, searched.marked, mem_map]
    constructor
    · rintro (⟨parent, listed, rfl⟩ | ⟨certificate, listed, notLeader, rfl⟩)
      · exact ⟨parent, (split parent).mpr (.inl listed), (freshPath parent listed).2.2, rfl⟩
      · exact ⟨certificate, (split certificate).mpr (.inr listed), notLeader, rfl⟩
    · rintro ⟨certificate, listed, notLeader, rfl⟩
      rcases (split certificate).mp listed with new | old
      · exact .inl ⟨certificate, new, rfl⟩
      · exact .inr ⟨certificate, old, notLeader, rfl⟩
  · rw [permuted.nodup_iff, nodup_append]
    refine ⟨nodup.of_map _, searched.nodup, ?_⟩
    intro parent new certificate old
    rintro rfl
    -- A fresh parent is not the leader, so if it were found before it would be marked.
    exact (isFresh parent new).2.2.1 ((searched.marked _).mpr
      ⟨parent, old, (freshPath parent new).2.2, rfl⟩)
  · intro certificate listed certificateAbove parent step
    rw [split]
    rcases mem_snoc.mp listed with earlier | rfl
    · rcases searched.covered certificate earlier certificateAbove parent step
        with found | committed
      · exact .inl (.inr found)
      · exact .inr committed
    · rcases covered certificateAbove parent step with found | committed
      · left
        rcases mem_append.mp found with new | old
        · obtain ⟨other, otherListed, same⟩ := mem_map.mp new
          obtain rfl := (isFresh other otherListed).1.unique_of_digest step same
          exact .inl otherListed
        · obtain ⟨other, otherListed, notLeader, same⟩ := (searched.marked _).mp old
          have otherMember : other ∈ history := by
            obtain ⟨path, _⟩ := searched.path other otherListed
            cases path with
            | refl => exact absurd rfl notLeader
            | tail _ otherStep => exact otherStep.mem
          obtain rfl := history.collisionFree other otherMember parent step.mem same
          exact .inr otherListed
      · exact .inr committed
  · rw [split]
    exact .inr searched.leaderFound

end Searched

namespace View

variable {gc : Nat} {state : ConsensusState} {leader : Certificate}

/-- Expanding a certificate continues the search. -/
theorem expandParents_spec (view : history.View gc state.dag) (present : InDag state.dag leader)
    (lower : gc ≤ bound) {popped stack : List Certificate}
    (searched : Searched history state.lastCommitted bound leader popped
      (item :: stack) alreadyOrdered) :
    ∃ pushed next, expandParents state bound alreadyOrdered item = .ok (pushed, next) ∧
      pushed.length + unmarked (dagDigests state.dag) next ≤
        unmarked (dagDigests state.dag) alreadyOrdered ∧
      Searched history state.lastCommitted bound leader (popped ++ [item])
        (pushed ++ stack) next := by
  obtain ⟨itemPath, itemAbove⟩ := searched.path item (by simp)
  have inside := view.inDag_of_path present itemPath (by omega)
  rw [expandParents]
  split
  · next lowest =>
    exact ⟨[], alreadyOrdered, rfl, by simp, searched.push (by simp) nodup_nil
      fun above => absurd lowest above.ne'⟩
  · next notLowest =>
    obtain ⟨fresh, result, isFresh, nodup, covered⟩ := view.pushParents_spec
      [] alreadyOrdered (view.parents_present inside (by omega))
    rw [append_nil] at result
    refine ⟨fresh, _, result, ?_, searched.push ?_ nodup ?_⟩
    · rw [← length_map digest]
      apply length_add_unmarked_le _ _ nodup
      · intro digest listed
        obtain ⟨parent, parentListed, rfl⟩ := mem_map.mp listed
        exact digest_mem_dagDigests (isFresh parent parentListed).2.1
      · intro digest listed
        obtain ⟨parent, parentListed, rfl⟩ := mem_map.mp listed
        exact (isFresh parent parentListed).2.2.1
    · intro parent listed
      obtain ⟨step, _, unmarked, uncommitted⟩ := isFresh parent listed
      have below := step.below
      exact ⟨step, by omega, unmarked, uncommitted⟩
    · intro _ parent step
      exact covered parent step step.referred

/-- Flattening succeeds in a view and returns the uncommitted history of the
leader. -/
theorem orderDag_spec (view : history.View gc state.dag) (present : InDag state.dag leader)
    (positive : 0 < leader.round) (depth : 0 < state.gcDepth)
    (lower : gc ≤ gcRound leader.round state.gcDepth) :
    ∃ sequence, orderDag leader state = .ok sequence ∧ Flattened history state.lastCommitted
        (gcRound leader.round state.gcDepth) leader sequence := by
  have start : Searched history state.lastCommitted
      (gcRound leader.round state.gcDepth) leader [] [leader] [] := by
    apply Searched.initial
    unfold gcRound
    omega
  have enough : [leader].length + unmarked (dagDigests state.dag) [] <
      (dagDigests state.dag).length + 2 := by
    have := unmarked_le_length (dagDigests state.dag) []
    simp only [length_singleton]
    omega
  obtain ⟨ordered, marked, drained, searched⟩ := drain_spec Failure.outOfFuel
    (Searched history state.lastCommitted (gcRound leader.round state.gcDepth) leader)
    (unmarked (dagDigests state.dag))
    (fun _ _ _ _ => view.expandParents_spec present lower) start enough
  rw [orderDag, if_neg (by omega), drained]
  refine ⟨_, rfl, ?_⟩
  have permuted := perm_insertionSort
    (fun left right : Certificate => left.round ≤ right.round) ordered
  refine ⟨?_, ?_, permuted.nodup_iff.mpr ?_, ?_, ?_, ?_⟩
  · intro certificate listed
    exact searched.path certificate (by simpa using permuted.mem_iff.mp listed)
  · intro certificate listed
    exact searched.fresh certificate (by simpa using permuted.mem_iff.mp listed)
  · simpa using searched.nodup
  · intro certificate listed above parent step
    simpa using searched.covered certificate (permuted.mem_iff.mp listed) above parent step
  · simpa using searched.leaderFound
  · exact pairwise_insertionSort _ _

/-- Pushing parents depends only on what is found and committed. -/
theorem pushParents_congr (sameCommitted : state.lastCommitted = state'.lastCommitted)
    (sameParents : ∀ digest ∈ parents,
      findParent state.dag child digest = findParent state'.dag child digest)
    (pushed : List Certificate) (alreadyOrdered : List CertificateDigest) :
    pushParents state child parents pushed alreadyOrdered =
      pushParents state' child parents pushed alreadyOrdered := by
  induction parents generalizing pushed alreadyOrdered with
  | nil => rfl
  | cons digest parents ih =>
    have rest := ih (forall_mem_cons.mp sameParents).2
    rw [pushParents, pushParents, sameParents digest mem_cons_self, sameCommitted]
    simp only [rest]

/-- Flattening returns the same sequence in any two views. -/
theorem orderDag_congr (view : history.View gc state.dag) (view' : history.View gc' state'.dag)
    (present : InDag state.dag leader) (present' : InDag state'.dag leader)
    (sameCommitted : state.lastCommitted = state'.lastCommitted)
    (sameDepth : state.gcDepth = state'.gcDepth) (lower : gc ≤ gcRound leader.round state.gcDepth)
    (lower' : gc' ≤ gcRound leader.round state.gcDepth) (depth : 0 < state.gcDepth)
    {sequence sequence' : List Certificate} (ordered : orderDag leader state = .ok sequence)
    (ordered' : orderDag leader state' = .ok sequence') :
    sequence = sequence' := by
  rw [orderDag] at ordered ordered'
  rw [← sameDepth] at ordered'
  set bound := gcRound leader.round state.gcDepth with boundDefinition
  -- The search stays in the history of the leader above the bound, where both
  -- views find the same parents.
  let region : Certificate → Prop := fun certificate =>
    history.Path leader certificate ∧ bound < certificate.round
  have agree : ∀ alreadyOrdered certificate, region certificate →
      expandParents state bound alreadyOrdered certificate =
        expandParents state' bound alreadyOrdered certificate := by
    intro alreadyOrdered certificate inside
    rw [expandParents, expandParents]
    split
    · rfl
    · apply pushParents_congr sameCommitted
      intro digest listed
      have above := inside.2
      have inLeft := view.inDag_of_path present inside.1 (by omega)
      have inRight := view'.inDag_of_path present' inside.1 (by omega)
      obtain ⟨parent, step, parentLeft, rfl⟩ := view.parents_present inLeft (by omega) digest listed
      rw [view.findParent_eq parentLeft step, view'.findParent_eq
        (view'.closed certificate parent inRight (by omega) step) step]
  have closed : ∀ alreadyOrdered certificate pushed next, region certificate →
      expandParents state bound alreadyOrdered certificate = .ok (pushed, next) →
        ∀ new ∈ pushed, region new := by
    intro alreadyOrdered certificate pushed next inside expanded new listed
    rw [expandParents] at expanded
    split at expanded
    · cases expanded
      cases listed
    · have above := inside.2
      have inLeft := view.inDag_of_path present inside.1 (by omega)
      obtain ⟨fresh, result, isFresh, _⟩ := view.pushParents_spec [] alreadyOrdered
        (view.parents_present inLeft (by omega))
      rw [result] at expanded
      cases expanded
      have step := (isFresh new (by simpa using listed)).1
      have below := step.below
      exact ⟨inside.1.tail step, by omega⟩
  have start : ∀ certificate ∈ [leader], region certificate := by
    intro certificate listed
    obtain rfl := mem_singleton.mp listed
    split at ordered
    · cases ordered
    · refine ⟨.refl _, ?_⟩
      rw [boundDefinition, gcRound]
      omega
  split at ordered
  · cases ordered
  · split at ordered'
    · cases ordered'
    · split at ordered
      · cases ordered
      · next drained drainedEq =>
        split at ordered'
        · cases ordered'
        · next drained' drainedEq' =>
          cases ordered
          cases ordered'
          rw [drain_congr region agree closed start drainedEq drainedEq']

end View

end CertificateSet

end Sui.Narwhal
