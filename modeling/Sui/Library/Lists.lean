import Mathlib

/-!
# Lists that change in place

Lists that are related element by element, lists in which one element is replaced,
and lists from which elements are removed by their positions.
-/

namespace Library

open List hiding after

/-- What is kept stays present. -/
theorem isSome_of_kept {before after : Option α}
    (kept : ∀ value, before = some value → after = some value) (present : before.isSome) :
    after.isSome := by
  obtain ⟨value, found⟩ := Option.isSome_iff_exists.mp present
  exact Option.isSome_of_eq_some (kept value found)

variable {items : List α}

theorem forall_mem_snoc {property : α → Prop} :
    (∀ item ∈ items ++ [last], property item) ↔
      (∀ item ∈ items, property item) ∧ property last := by
  rw [forall_mem_append, forall_mem_singleton]

theorem mem_snoc : item ∈ items ++ [last] ↔ item ∈ items ∨ item = last := by
  rw [mem_append, mem_singleton]

theorem pairwise_snoc {relation : α → α → Prop} :
    (items ++ [last]).Pairwise relation ↔
      items.Pairwise relation ∧ ∀ item ∈ items, relation item last := by
  simp [pairwise_append]

/-- Some element has a property, or none has it. -/
theorem exists_or_forall_not (items : List α) (property : α → Prop) :
    (∃ item ∈ items, property item) ∨ ∀ item ∈ items, ¬ property item := by
  by_cases found : ∃ item ∈ items, property item
  · exact .inl found
  · exact .inr fun item listed holds => found ⟨item, listed, holds⟩

/-- Lists that are related element by element, with a list in between. -/
theorem forall₂_comp (combine : ∀ item middle result,
      first item middle → second middle result → both item result)
    (left : Forall₂ first items middles) (right : Forall₂ second middles results) :
    Forall₂ both items results := by
  induction left generalizing results with
  | nil =>
    cases right
    exact .nil
  | cons head _ ih =>
    cases right with
    | cons head' rest =>
      exact .cons (combine _ _ _ head head') (ih rest)

/-- A function with the same value on related elements. -/
theorem map_eq_of_forall₂ (same : ∀ item result, relation item result → right result = left item)
    (related : Forall₂ relation items results) :
    results.map right = items.map left := by
  induction related with
  | nil => rfl
  | cons head _ ih =>
    rw [map_cons, map_cons, same _ _ head, ih]

/-- Every element of a list is related to an element of the other one. -/
theorem exists_of_forall₂ (related : Forall₂ relation items results)
    (listed : result ∈ results) :
    ∃ item ∈ items, relation item result := by
  induction related with
  | nil => cases listed
  | cons head _ ih =>
    rcases mem_cons.mp listed with rfl | later
    · exact ⟨_, mem_cons_self, head⟩
    · obtain ⟨item, isItem, isRelated⟩ := ih later
      exact ⟨item, mem_cons_of_mem _ isItem, isRelated⟩

/-- Related lists stay so when one element is replaced by another one that is
related to the same elements. -/
theorem forall₂_set (related : Forall₂ relation items results)
    (found : results[index]? = some old)
    (replaces : ∀ item, relation item old → relation item new) :
    Forall₂ relation items (results.set index new) := by
  induction related generalizing index with
  | nil => cases found
  | cons head rest ih =>
    cases index with
    | zero =>
      cases found
      exact .cons (replaces _ head) rest
    | succ index => exact .cons head (ih found)

theorem cases_of_getElem?_set (found : (items.set index new)[other]? = some item) :
    other = index ∧ item = new ∨ other ≠ index ∧ items[other]? = some item := by
  rw [getElem?_set] at found
  split at found
  · next same =>
    split at found
    · exact .inl ⟨same.symm, (Option.some.inj found).symm⟩
    · cases found
  · next different => exact .inr ⟨Ne.symm different, found⟩

/-- Replacing an element by another one that looks the same. -/
theorem map_set_of_same (found : items[index]? = some old)
    (same : view new = view old) :
    (items.set index new).map view = items.map view := by
  obtain ⟨inside, rfl⟩ := List.getElem?_eq_some_iff.mp found
  have inside' : index < (items.map view).length := by rwa [length_map]
  rw [map_set, same, ← getElem_map view (h := inside'), set_getElem_self]

theorem perm_of_getElem? (found : items[index]? = some item) :
    items.Perm (item :: items.eraseIdx index) := by
  obtain ⟨inside, rfl⟩ := List.getElem?_eq_some_iff.mp found
  exact (getElem_cons_eraseIdx_perm inside).symm

/-- An element that is replaced comes first, up to the order. -/
theorem perm_set (found : items[index]? = some old) (new : α) :
    (items.set index new).Perm (new :: items.eraseIdx index) := by
  obtain ⟨inside, _⟩ := List.getElem?_eq_some_iff.mp found
  have first := perm_of_getElem? (getElem?_set_self (a := new) inside)
  rwa [eraseIdx_set_eq] at first

/-- An item is related to all others of the list. -/
theorem related_of_eraseIdx {relation : α → α → Prop}
    (symmetric : ∀ left right, relation left right → relation right left)
    (related : items.Pairwise relation) (found : items[index]? = some item) :
    (∀ other ∈ items.eraseIdx index, relation item other) ∧
      (items.eraseIdx index).Pairwise relation :=
  pairwise_cons.mp (((perm_of_getElem? found).pairwise_iff
    fun related => symmetric _ _ related).mp related)

/-- Two elements that are not related are the same. -/
theorem eq_of_pairwise (related : items.Pairwise relation)
    (leftListed : left ∈ items) (rightListed : right ∈ items) (unrelated : ¬ relation left right)
    (unrelated' : ¬ relation right left) :
    left = right := by
  induction related with
  | nil => cases leftListed
  | cons head _ ih =>
    rcases mem_cons.mp leftListed with rfl | leftLater
    · rcases mem_cons.mp rightListed with rfl | rightLater
      · rfl
      · exact absurd (head right rightLater) unrelated
    · rcases mem_cons.mp rightListed with rfl | rightLater
      · exact absurd (head left leftLater) unrelated'
      · exact ih leftLater rightLater

/-- Two selections of which never both apply are one selection. -/
theorem filterMap_append_perm (first second : α → Option β) (items : List α)
    (apart : ∀ item ∈ items, first item = none ∨ second item = none) :
    (items.filterMap first ++ items.filterMap second).Perm
      (items.filterMap fun item => (first item).or (second item)) := by
  induction items with
  | nil => exact .nil
  | cons item items ih =>
    have rest := ih (forall_mem_cons.mp apart).2
    cases isFirst : first item with
    | none =>
      cases isSecond : second item with
      | none =>
        rw [filterMap_cons_none isFirst, filterMap_cons_none isSecond,
          filterMap_cons_none (by rw [isFirst, isSecond]; rfl)]
        exact rest
      | some value =>
        rw [filterMap_cons_none isFirst, filterMap_cons_some isSecond,
          filterMap_cons_some (b := value) (by rw [isFirst, isSecond]; rfl)]
        exact perm_middle.trans (rest.cons value)
    | some value =>
      have isSecond : second item = none :=
        (apart item mem_cons_self).resolve_left (by rw [isFirst]; simp)
      rw [filterMap_cons_some isFirst, filterMap_cons_none isSecond,
        filterMap_cons_some (b := value) (by rw [isFirst]; rfl)]
      exact rest.cons value

/-- Replacing an element of a list whose elements are related pairwise. -/
theorem pairwise_set {relation : α → α → Prop}
    (symmetric : ∀ left right, relation left right → relation right left)
    (related : items.Pairwise relation) (found : items[index]? = some old)
    (fits : ∀ other ∈ items.eraseIdx index, relation old other → relation new other) :
    (items.set index new).Pairwise relation := by
  obtain ⟨oldRelated, rest⟩ := related_of_eraseIdx symmetric related found
  apply ((perm_set found new).pairwise_iff fun related => symmetric _ _ related).mpr
  exact pairwise_cons.mpr ⟨fun other listed => fits other listed (oldRelated other listed), rest⟩

/-- Replacing all elements of a list whose elements are related pairwise. -/
theorem pairwise_of_forall₂
    (keeps : ∀ left left' right right', kept left left' → kept right right' →
      relation left right → relation left' right')
    (replaced : Forall₂ kept items results) (related : items.Pairwise relation) :
    results.Pairwise relation := by
  induction replaced with
  | nil => exact .nil
  | cons head rest ih =>
    obtain ⟨first, others⟩ := pairwise_cons.mp related
    refine pairwise_cons.mpr ⟨fun result listed => ?_, ih others⟩
    obtain ⟨item, isItem, isKept⟩ := exists_of_forall₂ rest listed
    exact keeps _ _ _ _ head isKept (first item isItem)

/-- Removing the only element with some view. -/
theorem filter_view_ne [DecidableEq β] {view : α → β}
    (distinct : ((earlier ++ item :: later).map view).Nodup) :
    (earlier ++ item :: later).filter (fun other => view other ≠ view item) = earlier ++ later := by
  rw [map_append, map_cons, nodup_append, nodup_cons] at distinct
  have keepsEarlier : ∀ other ∈ earlier, decide (view other ≠ view item) = true :=
    fun other listed => decide_eq_true (distinct.2.2 _ (mem_map_of_mem listed) _
      mem_cons_self)
  have keepsLater : ∀ other ∈ later, decide (view other ≠ view item) = true :=
    fun other listed => decide_eq_true fun same =>
      distinct.2.1.1 (same ▸ mem_map_of_mem listed)
  rw [filter_append, filter_cons_of_neg (by simp),
    filter_eq_self.mpr keepsEarlier, filter_eq_self.mpr keepsLater]

/-! ## Removing positions -/

/-- The elements that are at none of the given positions. -/
def elsewhere (positions : List Nat) (items : List α) (start : Nat) : List α :=
  ((items.zipIdx start).filter fun entry => entry.2 ∉ positions).map Prod.fst

end Library
