import Mathlib

/-!
# Weighted quorums

Members carry natural-number weights.  Two sets of members whose weights add up
to more than the weight of the whole population have a member of positive
weight in common.  The list forms are the ones that a program which sums over a
duplicate-free list of members needs.
-/

namespace Library

section

variable {ι : Type*} [DecidableEq ι]

/-- Total weight of a finite set of members. -/
def weight (w : ι → Nat) (members : Finset ι) : Nat :=
  ∑ member ∈ members, w member

variable (w : ι → Nat)

include w

omit [DecidableEq ι] in
theorem weight_mono (subset : smaller ⊆ larger) : weight w smaller ≤ weight w larger :=
  Finset.sum_le_sum_of_subset subset

theorem weight_union_add_weight_inter (left right : Finset ι) :
    weight w (left ∪ right) + weight w (left ∩ right) = weight w left + weight w right :=
  Finset.sum_union_inter

/-- Taking a set away takes at most its weight away. -/
theorem weight_le_weight_sdiff_add (members removed : Finset ι) :
    weight w members ≤ weight w (members \ removed) + weight w removed := by
  have covered : members ⊆ (members \ removed) ∪ removed := by
    rw [Finset.sdiff_union_self_eq_union]
    exact Finset.subset_union_left
  have bounded := weight_mono w covered
  have split := weight_union_add_weight_inter w (members \ removed) removed
  omega

/-- The members of positive weight inside `population` that two sets share when
their weights exceed the weight of the population. -/
theorem exists_common_of_weight_lt (leftSubset : left ⊆ population)
    (rightSubset : right ⊆ population)
    (exceeds : weight w population < weight w left + weight w right) :
    ∃ member ∈ left, member ∈ right ∧ 0 < w member := by
  have union := weight_mono w (Finset.union_subset leftSubset rightSubset)
  have split := weight_union_add_weight_inter w left right
  have positive : 0 < weight w (left ∩ right) := by omega
  obtain ⟨member, present, weighs⟩ := Finset.exists_ne_zero_of_sum_ne_zero (Nat.ne_of_gt positive)
  rw [Finset.mem_inter] at present
  exact ⟨member, present.1, present.2, Nat.pos_of_ne_zero weighs⟩

/-- Summing over a duplicate-free list is weighing its set of members. -/
theorem sum_map_eq_weight {members : List ι} (nodup : members.Nodup) :
    (members.map w).sum = weight w members.toFinset := by
  rw [weight, List.sum_toFinset w nodup]

/-- Members of zero weight do not count. -/
theorem weight_filter_eq (members population : Finset ι)
    (outside : ∀ member, member ∉ population → w member = 0) :
    weight w (members.filter (· ∈ population)) = weight w members := by
  rw [weight, weight, Finset.sum_filter]
  apply Finset.sum_congr rfl
  intro member _
  by_cases inside : member ∈ population
  · simp [inside]
  · simp [inside, outside member inside]

/-- Two duplicate-free lists of members whose weights exceed the weight of the
population share a member of positive weight, when only the population has
weight at all. -/
theorem exists_common_of_sum_lt {left right : List ι} {population : Finset ι}
    (leftNodup : left.Nodup) (rightNodup : right.Nodup)
    (outside : ∀ member, member ∉ population → w member = 0)
    (exceeds : weight w population < (left.map w).sum + (right.map w).sum) :
    ∃ member ∈ left, member ∈ right ∧ 0 < w member := by
  rw [sum_map_eq_weight w leftNodup, sum_map_eq_weight w rightNodup,
    ← weight_filter_eq w left.toFinset population outside,
    ← weight_filter_eq w right.toFinset population outside] at exceeds
  obtain ⟨member, inLeft, inRight, positive⟩ := exists_common_of_weight_lt w
    (fun _ present => (Finset.mem_filter.mp present).2)
    (fun _ present => (Finset.mem_filter.mp present).2) exceeds
  rw [Finset.mem_filter, List.mem_toFinset] at inLeft inRight
  exact ⟨member, inLeft.1, inRight.1, positive⟩

end

/-! ## Weights of groups

Items with a key and a weight are added up by key. -/

open Finset

variable {item κ : Type*} [DecidableEq κ]

/-- The weight of the items with a key. -/
def groupWeight (key : item → κ) (weight : item → Nat) (items : List item) (group : κ) : Nat :=
  ((items.filter fun item => key item = group).map weight).sum

variable {key : item → κ} {weight : item → Nat}

@[simp] theorem groupWeight_nil (group : κ) : groupWeight key weight [] group = 0 :=
  rfl

@[simp] theorem groupWeight_cons (first : item) (items : List item) (group : κ) :
    groupWeight key weight (first :: items) group =
      (if key first = group then weight first else 0) +
        groupWeight key weight items group := by
  unfold groupWeight
  by_cases same : key first = group
  · simp [same]
  · simp [same]

@[simp] theorem groupWeight_append (left right : List item) (group : κ) :
    groupWeight key weight (left ++ right) group =
      groupWeight key weight left group + groupWeight key weight right group := by
  simp [groupWeight]

theorem groupWeight_perm (same : left.Perm right) (group : κ) :
    groupWeight key weight left group = groupWeight key weight right group :=
  ((same.filter _).map weight).sum_eq

theorem groupWeight_erase [DecidableEq item] (listed : taken ∈ items) (group : κ) :
    groupWeight key weight items group = (if key taken = group then weight taken else 0) +
        groupWeight key weight (items.erase taken) group := by
  rw [groupWeight_perm (List.perm_cons_erase listed), groupWeight_cons]

theorem groupWeight_eq_zero (other : ∀ item ∈ items, key item ≠ group) :
    groupWeight key weight items group = 0 := by
  unfold groupWeight
  rw [List.filter_eq_nil_iff.mpr]
  · rfl
  · intro item listed
    simpa using other item listed

/-- The weight of some groups is that of their items. -/
theorem sum_filter_eq_sum_group (items : List item) (groups : Finset κ) :
    ((items.filter fun item => key item ∈ groups).map weight).sum =
      ∑ group ∈ groups, groupWeight key weight items group := by
  induction items with
  | nil => simp
  | cons first items ih =>
    simp only [groupWeight_cons, sum_add_distrib, sum_ite_eq]
    by_cases grouped : key first ∈ groups
    · simp [grouped, ih]
    · simp [grouped, ih]

/-- If all items belong to some groups, they weigh as much as these groups. -/
theorem sum_eq_sum_group (grouped : ∀ item ∈ items, key item ∈ groups) :
    (items.map weight).sum = ∑ group ∈ groups, groupWeight key weight items group := by
  rw [← sum_filter_eq_sum_group, List.filter_eq_self.mpr]
  intro item listed
  simpa using grouped item listed

variable (key weight) in
/-- The items of some groups are worth at most what these groups are worth. -/
theorem sum_value_le_sum_group (value : κ → Nat → Nat)
    (superadditive : ∀ group left right,
      value group left + value group right ≤ value group (left + right))
    (items : List item) (groups : Finset κ) :
    ((items.filter fun item => key item ∈ groups).map
        fun item => value (key item) (weight item)).sum ≤
      ∑ group ∈ groups, value group (groupWeight key weight items group) := by
  induction items with
  | nil => simp
  | cons first items ih =>
    by_cases grouped : key first ∈ groups
    · simp only [grouped, decide_true, List.filter_cons_of_pos, List.map_cons, List.sum_cons]
      -- Only the group of the first item changes.
      rw [← add_sum_erase _ _ grouped]
      rw [← add_sum_erase _ _ grouped] at ih
      have others : ∑ group ∈ groups.erase (key first), value group
            (groupWeight key weight (first :: items) group) =
          ∑ group ∈ groups.erase (key first), value group (groupWeight key weight items group) := by
        apply sum_congr rfl
        intro group isOther
        rw [groupWeight_cons, if_neg (ne_of_mem_erase isOther).symm, Nat.zero_add]
      rw [others, groupWeight_cons, if_pos rfl]
      have joined := superadditive (key first) (weight first)
        (groupWeight key weight items (key first))
      omega
    · have unchanged : ∀ group ∈ groups,
          value group (groupWeight key weight (first :: items) group) =
            value group (groupWeight key weight items group) := by
        intro group isGroup
        have different : key first ≠ group := fun same =>
          grouped (same ▸ isGroup)
        rw [groupWeight_cons, if_neg different, Nat.zero_add]
      rw [sum_congr rfl unchanged]
      simpa [grouped] using ih

end Library
