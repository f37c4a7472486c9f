import Sui.Narwhal.Consensus.Bullshark

/-!
# Certified histories and their views

A certificate set is what all validators together could ever deliver: authors do
not equivocate in it, digests do not collide in it, and it contains the parents
of its certificates.  The set may be infinite.

The quorum argument of the commit rule is about such sets only.  A certificate
that enough stake of the next round has as parent is in the history of every
certificate that is at least two rounds above it.
-/

namespace Sui.Narwhal

/-- A set of certificates without equivocation. -/
structure CertificateSet where
  certificates : Set Certificate
  determined : ∀ left ∈ certificates, ∀ right ∈ certificates,
    left.origin = right.origin → left.round = right.round → left = right
  collisionFree : ∀ left ∈ certificates, ∀ right ∈ certificates,
    left.digest = right.digest → left = right
  parentsPresent : ∀ certificate ∈ certificates, 2 ≤ certificate.round →
    ∀ digest ∈ certificate.parents, ∃ parent ∈ certificates,
      parent.digest = digest ∧ parent.round + 1 = certificate.round
  parentsNonempty : ∀ certificate ∈ certificates, 2 ≤ certificate.round → certificate.parents ≠ []

namespace CertificateSet

instance : Membership Certificate CertificateSet :=
  ⟨fun history certificate => certificate ∈ history.certificates⟩

variable (history : CertificateSet)

/-- One certificate of the set is a parent of another one. -/
structure Parent (child parent : Certificate) : Prop where
  mem : parent ∈ history
  referred : parent.digest ∈ child.parents
  below : parent.round + 1 = child.round

/-- One certificate is in the history of another one. -/
def Path : Certificate → Certificate → Prop :=
  Relation.ReflTransGen history.Parent

/-- The parents of every certificate above the first round come from authors
that hold a quorum. -/
def HasQuorumParents (committee : Committee) : Prop :=
  ∀ certificate ∈ history, 2 ≤ certificate.round → ∃ parents : List Certificate,
      (∀ parent ∈ parents, history.Parent certificate parent) ∧
      (parents.map Certificate.origin).Nodup ∧
      committee.quorumThreshold ≤ ((parents.map Certificate.origin).map committee.stakeById).sum

/-- Authors of the next round that hold validity stake have a certificate as
parent. -/
def Supported (committee : Committee) (leader : Certificate) : Prop :=
  ∃ voters : List Certificate, (∀ voter ∈ voters, voter ∈ history ∧ history.Parent voter leader) ∧
    (voters.map Certificate.origin).Nodup ∧
    committee.validityThreshold ≤ ((voters.map Certificate.origin).map committee.stakeById).sum

variable {history}

theorem Parent.unique_of_digest (leftParent : history.Parent child left)
    (rightParent : history.Parent child right) (same : left.digest = right.digest) :
    left = right :=
  history.collisionFree left leftParent.mem right rightParent.mem same

/-- Above the first round there is a parent. -/
theorem exists_parent (member : certificate ∈ history) (above : 2 ≤ certificate.round) :
    ∃ parent, history.Parent certificate parent := by
  obtain ⟨digest, rest, parents⟩ :=
    List.exists_cons_of_ne_nil (history.parentsNonempty certificate member above)
  have listed : digest ∈ certificate.parents := by
    rw [parents]
    exact List.mem_cons_self
  obtain ⟨parent, present, rfl, below⟩ :=
    history.parentsPresent certificate member above digest listed
  exact ⟨parent, present, listed, below⟩

namespace Path

theorem refl (certificate : Certificate) : history.Path certificate certificate :=
  Relation.ReflTransGen.refl

section

variable (path : history.Path upper lower)

include path

theorem round_le : lower.round ≤ upper.round := by
  induction path with
  | refl => exact le_rfl
  | tail _ step ih =>
    have below := step.below
    omega

/-- Two certificates of one round are linked by the empty path only. -/
theorem eq_of_round_le (notBelow : upper.round ≤ lower.round) : upper = lower := by
  cases path with
  | refl => rfl
  | tail before step =>
    have := round_le before
    have := step.below
    omega

theorem mem (member : upper ∈ history) : lower ∈ history := by
  cases path with
  | refl => exact member
  | tail _ step => exact step.mem

end

end Path

/-- Every certificate reaches every round below it, down to the first. -/
theorem exists_path_to_round (member : certificate ∈ history) {round : Nat} (positive : 1 ≤ round)
    (below : round ≤ certificate.round) :
    ∃ lower, history.Path certificate lower ∧ lower.round = round := by
  obtain ⟨distance, apart⟩ := Nat.exists_eq_add_of_le below
  induction distance generalizing certificate with
  | zero => exact ⟨certificate, .refl certificate, by omega⟩
  | succ distance ih =>
    obtain ⟨parent, step⟩ := exists_parent member (by omega)
    have oneBelow := step.below
    obtain ⟨lower, path, reached⟩ := ih step.mem (by omega) (by omega)
    exact ⟨lower, path.head step, reached⟩

/-- A supported leader is linked from everything above. -/
theorem path_of_supported (quorum : history.HasQuorumParents committee)
    (supported : history.Supported committee leader) (member : certificate ∈ history)
    (above : leader.round + 2 ≤ certificate.round) :
    history.Path certificate leader := by
  obtain ⟨distance, apart⟩ := Nat.exists_eq_add_of_le above
  induction distance generalizing certificate with
  | zero =>
    obtain ⟨voters, isVoter, votersNodup, validity⟩ := supported
    obtain ⟨parents, isParent, parentsNodup, isQuorum⟩ := quorum certificate member (by omega)
    obtain ⟨author, inParents, inVoters⟩ :=
      committee.exists_common_of_quorum_of_validity parentsNodup votersNodup isQuorum validity
    obtain ⟨parent, parentListed, rfl⟩ := List.mem_map.mp inParents
    obtain ⟨voter, voterListed, sameAuthor⟩ := List.mem_map.mp inVoters
    have parentStep := isParent parent parentListed
    obtain ⟨voterMember, voterStep⟩ := isVoter voter voterListed
    have sameRound : voter.round = parent.round := by
      have := parentStep.below
      have := voterStep.below
      omega
    obtain rfl := history.determined voter voterMember parent parentStep.mem sameAuthor sameRound
    exact (Relation.ReflTransGen.single voterStep).head parentStep
  | succ distance ih =>
    obtain ⟨parent, step⟩ := exists_parent member (by omega)
    have oneBelow := step.below
    exact (ih step.mem (by omega) (by omega)).head step

end CertificateSet

/-! ## Views

The graph that a validator holds in memory is a view of a certificate set: its entries are
filed under their own round and origin, and above the garbage collection round it contains
the parents of its certificates.  The search for a path between two leaders in a view finds
exactly the paths of the certificate set. -/

open Library Bullshark
open List hiding after
open Std (ExtTreeMap)

/-- The entry of an origin in a round. -/
def dagEntry (dag : Dag) (round : Nat)
    (origin : AuthorityIdentifier) : Option (CertificateDigest × Certificate) :=
  dag[round]?.bind fun roundTable => roundTable[origin]?

/-- A certificate is filed under its round, origin and digest. -/
def InDag (dag : Dag) (certificate : Certificate) : Prop :=
  dagEntry dag certificate.round certificate.origin = some (certificate.digest, certificate)

@[simp] theorem dagEntry_empty (round : Nat) (origin : AuthorityIdentifier) :
    dagEntry ∅ round origin = none := by
  simp [dagEntry]

/-- Filing one entry changes the lookup of that entry only. -/
theorem dagEntry_insert (dag : Dag) (round round' : Nat) (origin origin' : AuthorityIdentifier)
    (entry : CertificateDigest × Certificate) :
    dagEntry (dag.insert round ((dag.getD round ∅).insert origin entry))
        round' origin' =
      if round = round' ∧ origin = origin' then some entry
      else dagEntry dag round' origin' := by
  rw [dagEntry, Map.getElem?_insert]
  by_cases sameRound : round = round'
  · subst sameRound
    by_cases sameOrigin : origin = origin'
    · simp [sameOrigin]
    · rw [dagEntry, ExtTreeMap.getD_eq_getD_getElem?]
      cases found : dag[round]? <;> simp [sameOrigin]
  · simp [sameRound, dagEntry]

/-- Garbage collection drops the rounds up to a bound. -/
theorem dagEntry_filter (dag : Dag) (bound round : Nat) (origin : AuthorityIdentifier) :
    dagEntry (dag.filter fun round _ => decide (bound < round)) round origin =
      if bound < round then dagEntry dag round origin else none := by
  rw [dagEntry, ExtTreeMap.getElem?_filter', dagEntry]
  by_cases kept : bound < round
  · cases found : dag[round]? <;> simp [kept, Option.filter]
  · cases found : dag[round]? <;> simp [kept, Option.filter]

variable {round : Nat}

theorem mem_values_iff_dagEntry (present : dag[round]? = some roundTable)
    (entry : CertificateDigest × Certificate) :
    entry ∈ Map.values roundTable ↔ ∃ origin, dagEntry dag round origin = some entry := by
  simp [dagEntry, present]

theorem exists_roundTable_of_dagEntry (filed : dagEntry dag round origin = some entry) :
    ∃ roundTable, dag[round]? = some roundTable := by
  rw [dagEntry] at filed
  cases found : dag[round]? with
  | none => simp [found] at filed
  | some roundTable => exact ⟨roundTable, rfl⟩

namespace CertificateSet

variable (history : CertificateSet)

/-- The graph `dag` is a view of the certificate set above the round `gc`. -/
structure View (gc : Nat) (dag : Dag) : Prop where
  sound : ∀ round origin digest certificate,
    dagEntry dag round origin = some (digest, certificate) →
      certificate ∈ history ∧ certificate.round = round ∧
        certificate.origin = origin ∧ certificate.digest = digest
  closed : ∀ child parent, InDag dag child → gc + 1 < child.round →
    history.Parent child parent → InDag dag parent

variable {history}

namespace View

variable {gc : Nat} {dag : Dag}

theorem empty : history.View gc ∅ where
  sound := by simp
  closed := by simp [InDag]

section

variable (view : history.View gc dag)

include view

theorem mem (present : InDag dag certificate) : certificate ∈ history :=
  (view.sound _ _ _ _ present).1

/-- Entries of a round are exactly the certificates in memory of that round. -/
theorem dagEntry_eq_some_iff {certificate : Certificate} :
    dagEntry dag round origin = some (digest, certificate) ↔
      InDag dag certificate ∧ certificate.round = round ∧
        certificate.origin = origin ∧ certificate.digest = digest := by
  constructor
  · intro filed
    obtain ⟨_, rfl, rfl, rfl⟩ := view.sound _ _ _ _ filed
    exact ⟨filed, rfl, rfl, rfl⟩
  · rintro ⟨present, rfl, rfl, rfl⟩
    exact present

/-- The entries of a round are the certificates in memory. -/
theorem mem_values_iff (present : dag[round]? = some roundTable) (digest : CertificateDigest)
    (certificate : Certificate) :
    (digest, certificate) ∈ Map.values roundTable ↔
      InDag dag certificate ∧ certificate.round = round ∧ certificate.digest = digest := by
  rw [mem_values_iff_dagEntry present]
  constructor
  · rintro ⟨origin, filed⟩
    obtain ⟨inside, sameRound, _, sameDigest⟩ := view.dagEntry_eq_some_iff.mp filed
    exact ⟨inside, sameRound, sameDigest⟩
  · rintro ⟨inside, sameRound, sameDigest⟩
    exact ⟨certificate.origin, view.dagEntry_eq_some_iff.mpr ⟨inside, sameRound, rfl, sameDigest⟩⟩

/-- The history of a certificate in memory is in memory, down to the round above
garbage collection. -/
theorem inDag_of_path (present : InDag dag upper)
    (path : history.Path upper lower) (above : gc < lower.round) :
    InDag dag lower := by
  induction path with
  | refl => exact present
  | tail _ step ih =>
    have below := step.below
    exact view.closed _ _ (ih (by omega)) (by omega) step

/-- Every round below a certificate in memory is in memory, down to the round
above garbage collection. -/
theorem exists_roundTable (present : InDag dag certificate)
    (above : gc < round) (below : round ≤ certificate.round) :
    ∃ roundTable, dag[round]? = some roundTable := by
  obtain ⟨lower, path, rfl⟩ := exists_path_to_round (view.mem present) (by omega) below
  exact exists_roundTable_of_dagEntry (view.inDag_of_path present path above)

/-- A parent in memory is found by its digest. -/
theorem findParent_eq (present : InDag dag parent) (step : history.Parent child parent) :
    findParent dag child parent.digest = some (parent.digest, parent) := by
  obtain ⟨roundTable, found⟩ := exists_roundTable_of_dagEntry present
  have sameRound : child.round - 1 = parent.round := by
    have := step.below
    omega
  have listed : (parent.digest, parent) ∈ Map.values roundTable :=
    (view.mem_values_iff found _ _).mpr ⟨present, rfl, rfl⟩
  rw [findParent, sameRound, found]
  cases search : (Map.values roundTable).find?
      (fun entry => entry.1 == parent.digest) with
  | none =>
    have absent := find?_eq_none.mp search (parent.digest, parent) listed
    simp at absent
  | some entry =>
    obtain ⟨digest, certificate⟩ := entry
    have matched := find?_some search
    simp only [beq_iff_eq] at matched
    subst matched
    have inside := (view.mem_values_iff found _ _).mp (mem_of_find?_eq_some search)
    have same : certificate = parent :=
      history.collisionFree _ (view.mem inside.1) _ step.mem inside.2.2
    simp [same, search]

/-- Garbage collection to a higher round keeps a view. -/
theorem filter (higher : gc ≤ bound) :
    history.View bound (dag.filter fun round _ => decide (bound < round)) where
  sound := by
    intro round origin digest certificate filed
    rw [dagEntry_filter] at filed
    split at filed
    · exact view.sound _ _ _ _ filed
    · cases filed
  closed := by
    intro child parent present above step
    have below := step.below
    have kept : bound < child.round := by omega
    have keptParent : bound < parent.round := by omega
    rw [InDag, dagEntry_filter, if_pos kept] at present
    rw [InDag, dagEntry_filter, if_pos keptParent]
    exact view.closed child parent present (by omega) step

end

theorem inDag_filter_iff {certificate : Certificate} :
    InDag (dag.filter fun round _ => decide (bound < round)) certificate ↔
      bound < certificate.round ∧ InDag dag certificate := by
  rw [InDag, dagEntry_filter, InDag]
  by_cases kept : bound < certificate.round <;> simp [kept]

/-! ## Insertion -/

section Insertion

variable {certificate : Certificate} (view : history.View gc dag) (member : certificate ∈ history)
  (parents : gc + 1 < certificate.round → ∀ parent,
    history.Parent certificate parent → InDag dag parent)

include view member parents

/-- The parent check passes when the parents above garbage collection are in
memory. -/
theorem checkParents_eq_ok : ConsensusState.checkParents certificate dag gc = .ok () := by
  rw [ConsensusState.checkParents]
  split
  · rfl
  · next above =>
    have above : gc + 1 < certificate.round := by omega
    obtain ⟨first, firstStep⟩ := exists_parent member (by omega)
    obtain ⟨roundTable, found⟩ := exists_roundTable_of_dagEntry (parents above first firstStep)
    have sameRound : certificate.round - 1 = first.round := by
      have := firstStep.below
      omega
    rw [sameRound, found]
    have allFound : certificate.parents.find? (fun parent =>
        !((Map.values roundTable).map Prod.fst).contains parent) =
          none := by
      rw [find?_eq_none]
      intro digest listed
      obtain ⟨parent, parentMember, rfl, below⟩ :=
        history.parentsPresent certificate member (by omega) digest listed
      have inside := parents above parent ⟨parentMember, listed, below⟩
      have entry : (parent.digest, parent) ∈ Map.values roundTable :=
        (view.mem_values_iff found _ _).mpr ⟨inside, by omega, rfl⟩
      have contained : ((Map.values roundTable).map Prod.fst).contains parent.digest = true :=
        contains_iff_mem.mpr (mem_map.mpr ⟨_, entry, rfl⟩)
      rw [contained]
      decide
    simp only [allFound]

/-- Filing a certificate of the set whose parents are in memory keeps a view and
adds this certificate only. -/
theorem insert :
    let inserted := dag.insert certificate.round
      ((dag.getD certificate.round ∅).insert certificate.origin (certificate.digest, certificate))
    history.View gc inserted ∧
      ∀ other, InDag inserted other ↔ InDag dag other ∨ other = certificate := by
  intro inserted
  have entries : ∀ round origin, dagEntry inserted round origin =
      if certificate.round = round ∧ certificate.origin = origin then
        some (certificate.digest, certificate)
      else dagEntry dag round origin :=
    fun round origin => dagEntry_insert dag _ round _ origin _
  have present : ∀ other, InDag inserted other ↔ InDag dag other ∨ other = certificate := by
    intro other
    rw [InDag, entries]
    split
    · next same =>
      constructor
      · intro filed
        simp only [Option.some.injEq, Prod.mk.injEq] at filed
        exact .inr filed.2.symm
      · rintro (inside | rfl)
        · have equal := history.determined other (view.mem inside) certificate
            member same.2.symm same.1.symm
          rw [equal]
        · rfl
    · next different =>
      constructor
      · exact .inl
      · rintro (inside | rfl)
        · exact inside
        · exact absurd ⟨rfl, rfl⟩ different
  refine ⟨⟨?_, ?_⟩, present⟩
  · intro round origin digest other filed
    rw [entries] at filed
    split at filed
    · next same =>
      cases filed
      exact ⟨member, same.1, same.2, rfl⟩
    · exact view.sound _ _ _ _ filed
  · intro child parent inside above step
    rw [present] at inside ⊢
    rcases inside with inside | rfl
    · exact .inl (view.closed child parent inside above step)
    · exact .inl (parents above parent step)

/-- Inserting into the graph keeps it a view. -/
theorem tryInsertInDag_spec (lastCommitted : LastCommitted) :
    ∃ inserted, ConsensusState.tryInsertInDag dag lastCommitted gc certificate =
        .ok (inserted, decide (gc < certificate.round ∧
          lastCommitted.getD certificate.origin 0 < certificate.round)) ∧
      history.View gc inserted ∧
      ∀ other, InDag inserted other ↔ InDag dag other ∨
        (other = certificate ∧ gc < certificate.round) := by
  rw [ConsensusState.tryInsertInDag]
  by_cases collected : certificate.round ≤ gc
  · refine ⟨dag, ?_, view, ?_⟩
    · simp [collected]
    · intro other
      have notAbove : ¬ gc < certificate.round := by omega
      simp [notAbove]
  · have above : gc < certificate.round := by omega
    rw [if_neg collected, view.checkParents_eq_ok member parents]
    obtain ⟨insertedView, present⟩ := view.insert member parents
    refine ⟨_, ?_, insertedView, by simpa [above] using present⟩
    have same : ∀ digest existing, (dag.getD certificate.round ∅)[certificate.origin]? =
          some (digest, existing) → existing = certificate := by
      intro digest existing found
      have filed : dagEntry dag certificate.round certificate.origin = some (digest, existing) := by
        rw [ExtTreeMap.getD_eq_getD_getElem?] at found
        rw [dagEntry]
        cases table : dag[certificate.round]? with
        | none => simp [table] at found
        | some roundTable => simpa [table] using found
      obtain ⟨existingMember, sameRound, sameOrigin, _⟩ := view.sound _ _ _ _ filed
      exact history.determined _ existingMember _ member sameOrigin sameRound
    cases found : (dag.getD certificate.round ∅)[certificate.origin]? with
    | none => simp [found, above]
    | some entry =>
      obtain ⟨digest, existing⟩ := entry
      obtain rfl := same digest existing found
      simp [found, above]

end Insertion

/-! ## Paths between leaders -/

section

variable (view : history.View gc dag)

include view

/-- One step of the search returns the parents in memory. -/
theorem linkedRound_spec (parents : List Certificate)
    (found : dag[round]? = some roundTable) :
    ∃ next, linkedRound dag parents round = .ok next ∧ ∀ certificate, certificate ∈ next ↔
        InDag dag certificate ∧ certificate.round = round ∧
          ∃ child ∈ parents, certificate.digest ∈ child.parents := by
  rw [linkedRound, found]
  refine ⟨_, rfl, ?_⟩
  intro certificate
  simp only [mem_map, mem_filter, any_eq_true, contains_iff_mem]
  constructor
  · rintro ⟨⟨digest, other⟩, ⟨listed, child, childListed, referred⟩, rfl⟩
    obtain ⟨inside, sameRound, rfl⟩ := (view.mem_values_iff found _ _).mp listed
    exact ⟨inside, sameRound, child, childListed, referred⟩
  · rintro ⟨inside, sameRound, child, childListed, referred⟩
    exact ⟨(certificate.digest, certificate),
      ⟨(view.mem_values_iff found _ _).mpr ⟨inside, sameRound, rfl⟩,
        child, childListed, referred⟩, rfl⟩

/-- Walking down reaches exactly what is linked. -/
theorem linkedRounds_spec (present : InDag dag leader) (rounds : Nat)
    (level : ∀ certificate, certificate ∈ parents ↔
      history.Path leader certificate ∧ certificate.round = round)
    (below : round ≤ leader.round) (above : gc + rounds < round) :
    ∃ final, linkedRounds dag rounds round parents = .ok final ∧
      ∀ certificate, certificate ∈ final ↔
        history.Path leader certificate ∧ certificate.round + rounds = round := by
  induction rounds generalizing round parents with
  | zero => exact ⟨parents, rfl, by simpa using level⟩
  | succ rounds ih =>
    obtain ⟨roundTable, found⟩ := view.exists_roundTable present
      (show gc < round - 1 by omega) (by omega)
    obtain ⟨next, searched, nextLevel⟩ := view.linkedRound_spec parents found
    have descended : ∀ certificate, certificate ∈ next ↔
        history.Path leader certificate ∧ certificate.round = round - 1 := by
      intro certificate
      rw [nextLevel]
      constructor
      · rintro ⟨inside, sameRound, child, childListed, referred⟩
        obtain ⟨path, childRound⟩ := (level child).mp childListed
        have step : history.Parent child certificate := ⟨view.mem inside, referred, by omega⟩
        exact ⟨path.tail step, sameRound⟩
      · rintro ⟨path, sameRound⟩
        have inside := view.inDag_of_path present path (by omega)
        refine ⟨inside, sameRound, ?_⟩
        cases path with
        | refl => omega
        | @tail child _ before step =>
          have childRound : child.round = round := by
            have := step.below
            omega
          exact ⟨child, (level child).mpr ⟨before, childRound⟩, step.referred⟩
    obtain ⟨final, finished, finalLevel⟩ := ih descended (by omega) (by omega)
    refine ⟨final, ?_, ?_⟩
    · rw [linkedRounds, searched]
      exact finished
    · intro certificate
      rw [finalLevel]
      exact and_congr_right fun _ => by omega

/-- Two leaders in memory are linked exactly when the earlier one is in the
history of the later one. -/
theorem linked_spec (present : InDag dag leader)
    (prevPresent : InDag dag prevLeader) (above : gc < prevLeader.round)
    (below : prevLeader.round ≤ leader.round) :
    ∃ answer, linked leader prevLeader dag = .ok answer ∧
      (answer = true ↔ history.Path leader prevLeader) := by
  have level : ∀ certificate, certificate ∈ [leader] ↔
      history.Path leader certificate ∧ certificate.round = leader.round := by
    intro certificate
    rw [mem_singleton]
    constructor
    · rintro rfl
      exact ⟨.refl _, rfl⟩
    · rintro ⟨path, sameRound⟩
      exact (path.eq_of_round_le sameRound.ge).symm
  obtain ⟨final, searched, finalLevel⟩ := view.linkedRounds_spec present
    (leader.round - prevLeader.round) level le_rfl (by omega)
  rw [linked, searched]
  refine ⟨_, rfl, ?_⟩
  rw [any_eq_true]
  constructor
  · rintro ⟨certificate, listed, same⟩
    obtain ⟨path, _⟩ := (finalLevel certificate).mp listed
    have equal := history.collisionFree certificate
      (path.mem (view.mem present)) prevLeader (view.mem prevPresent)
      (Certificate.digest_eq_of_eq same)
    exact equal ▸ path
  · intro path
    exact ⟨prevLeader, (finalLevel prevLeader).mpr ⟨path, by omega⟩, Certificate.eq_self prevLeader⟩

end

end View

end CertificateSet

end Sui.Narwhal
