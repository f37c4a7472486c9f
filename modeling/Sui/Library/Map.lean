import Sui.Library.Lists

/-!
# Lookups in ordered maps

The lookup equations of the extensional tree map, restated for keys whose order
is lawful, so that the side conditions are plain equations between keys.
-/

namespace Library

open List hiding after
open Std (ExtTreeMap ExtTreeSet TransOrd LawfulEqOrd)
open Std.ExtTreeMap

namespace Map

/-- Pairs are ordered by their first component, then by the second. -/
instance lexPair [Ord α] [Ord β] : Ord (α × β) :=
  lexOrd

theorem compare_eq_lt_iff (left right : Nat × Nat) :
    compare left right = .lt ↔
      left.1 < right.1 ∨ left.1 = right.1 ∧ left.2 < right.2 := by
  change compareLex (compareOn Prod.fst) (compareOn Prod.snd) left right = .lt ↔ _
  rw [compareLex, Ordering.then_eq_lt]
  simp only [compareOn, Nat.compare_eq_lt, Nat.compare_eq_eq]

theorem fst_le_of_compare_eq_lt {left right : Nat × Nat} (below : compare left right = .lt) :
    left.1 ≤ right.1 := by
  rcases (compare_eq_lt_iff left right).mp below with lower | ⟨same, _⟩
  · exact lower.le
  · exact same.le

/-- The first key of a map has the lowest first component. -/
theorem fst_le_of_head? {map : ExtTreeMap (Nat × Nat) γ} (head : map.toList.head? = some first)
    {key : Nat × Nat} {value : γ} (present : map[key]? = some value) :
    first.1.1 ≤ key.1 := by
  have listed : (key, value) ∈ map.toList := mem_toList_iff_getElem?_eq_some.mpr present
  have ordered : map.toList.Pairwise fun left right =>
      compare left.1 right.1 = .lt := ordered_keys_toList
  obtain ⟨rest, entries⟩ := head?_eq_some_iff.mp head
  rw [entries] at listed ordered
  rcases mem_cons.mp listed with rfl | later
  · exact le_rfl
  · exact fst_le_of_compare_eq_lt (rel_of_pairwise_cons ordered later)

/-- A partial function that is defined on a whole list maps it. -/
theorem mapM_eq_some_filterMap {f : α → Option β} {entries : List α}
    (defined : ∀ entry ∈ entries, (f entry).isSome) :
    entries.mapM f = some (entries.filterMap f) := by
  induction entries with
  | nil => rfl
  | cons entry entries ih =>
    obtain ⟨value, found⟩ := Option.isSome_iff_exists.mp (defined entry mem_cons_self)
    rw [mapM_cons, found, ih (forall_mem_cons.mp defined).2, filterMap_cons_some found]
    rfl

/-- A partial function that maps a list is defined on it. -/
theorem forall₂_of_mapM {entries : List α} (mapped : entries.mapM f = some results) :
    Forall₂ (fun result entry => f entry = some result) results entries := by
  induction entries generalizing results with
  | nil =>
    cases mapped
    exact .nil
  | cons first entries ih =>
    rw [mapM_cons] at mapped
    obtain ⟨value, found, rest⟩ := Option.bind_eq_some_iff.mp mapped
    obtain ⟨others, isOthers, same⟩ := Option.bind_eq_some_iff.mp rest
    cases same
    exact .cons found (ih isOthers)

/-- The fold of the maximum is reached and is not exceeded. -/
theorem foldl_max_eq {values : List Nat} (below : ∀ value ∈ values, value ≤ bound)
    (startBelow : start ≤ bound) (reached : start = bound ∨ bound ∈ values) :
    values.foldl max start = bound := by
  induction values generalizing start with
  | nil => simpa using reached
  | cons value values ih =>
    have first := below value mem_cons_self
    apply ih
    · exact (forall_mem_cons.mp below).2
    · exact max_le startBelow first
    · rcases reached with rfl | here
      · exact .inl (max_eq_left first)
      · rcases mem_cons.mp here with rfl | later
        · exact .inl (max_eq_right startBelow)
        · exact .inr later

/-- What bounds the fold of the maximum. -/
theorem foldl_max_le_iff {values : List Nat} {start bound : Nat} :
    values.foldl max start ≤ bound ↔ start ≤ bound ∧ ∀ value ∈ values, value ≤ bound := by
  induction values generalizing start with
  | nil => simp
  | cons value values ih =>
    rw [foldl_cons, ih, Nat.max_le, forall_mem_cons, and_assoc]

variable {κ : Type*} {β : Type*} [Ord κ] [TransOrd κ] [LawfulEqOrd κ]
  [DecidableEq κ]

@[simp] theorem getElem?_insert (map : ExtTreeMap κ β) (key lookup : κ) (value : β) :
    (map.insert key value)[lookup]? =
      if key = lookup then some value else map[lookup]? := by
  rw [ExtTreeMap.getElem?_insert]
  simp only [Std.compare_eq_iff_eq]

variable {map : ExtTreeMap κ β}

theorem cases_of_getElem?_insert (found : (map.insert key value)[other]? = some result) :
    other = key ∧ result = value ∨ other ≠ key ∧ map[other]? = some result := by
  rw [getElem?_insert] at found
  split at found
  · next same => exact .inl ⟨same.symm, (Option.some.inj found).symm⟩
  · next different => exact .inr ⟨Ne.symm different, found⟩

/-- What holds of the new entry and of those that were there holds of all entries. -/
theorem forall_insert {property : κ → β → Prop} (new : property key value)
    (old : ∀ other result, map[other]? = some result → property other result) (other : κ)
    (result : β) (found : (map.insert key value)[other]? = some result) :
    property other result := by
  rcases cases_of_getElem?_insert found with ⟨rfl, rfl⟩ | ⟨_, found⟩
  · exact new
  · exact old other result found

@[simp] theorem getElem?_erase (map : ExtTreeMap κ β) (key lookup : κ) :
    (map.erase key)[lookup]? = if key = lookup then none else map[lookup]? := by
  rw [ExtTreeMap.getElem?_erase]
  simp only [Std.compare_eq_iff_eq]

theorem of_getElem?_erase (found : (map.erase key)[other]? = some result) :
    other ≠ key ∧ map[other]? = some result := by
  rw [getElem?_erase] at found
  split at found
  · cases found
  · next different => exact ⟨Ne.symm different, found⟩

theorem forall_erase {property : κ → β → Prop}
    (old : ∀ other result, map[other]? = some result → property other result) (other : κ)
    (result : β) (found : (map.erase key)[other]? = some result) : property other result :=
  old other result (of_getElem?_erase found).2

theorem erase_insert (map : ExtTreeMap κ β) (key : κ) (value : β) :
    (map.insert key value).erase key = map.erase key := by
  apply ExtTreeMap.ext_getElem?
  intro lookup
  rw [getElem?_erase, getElem?_erase, getElem?_insert]
  split <;> rfl

theorem erase_of_absent (absent : map[key]? = none) : map.erase key = map := by
  apply ExtTreeMap.ext_getElem?
  intro lookup
  rw [getElem?_erase]
  split
  · next same => rw [← same, absent]
  · rfl

@[simp] theorem getElem?_alter (map : ExtTreeMap κ β) (key lookup : κ)
    (change : Option β → Option β) :
    (map.alter key change)[lookup]? =
      if key = lookup then change map[key]? else map[lookup]? := by
  rw [ExtTreeMap.getElem?_alter]
  simp only [Std.compare_eq_iff_eq]

omit [DecidableEq κ] in
theorem mem_foldl_insert (items : List κ) (set : ExtTreeSet κ) (item : κ) :
    item ∈ items.foldl (fun set item => set.insert item) set ↔ item ∈ items ∨ item ∈ set := by
  induction items generalizing set with
  | nil => simp
  | cons first items ih =>
    rw [foldl_cons, ih, ExtTreeSet.mem_insert, Std.compare_eq_iff_eq, mem_cons, eq_comm]
    tauto

omit [DecidableEq κ] in
/-- Erasing a key that is present makes a map smaller by one. -/
theorem size_erase_add_one (found : map[key]? = some value) :
    (map.erase key).size + 1 = map.size := by
  have present : map.contains key = true :=
    contains_iff_mem.mpr (mem_iff_isSome_getElem?.mpr (by rw [found]; rfl))
  have positive : 0 < map.toList.length := length_pos_of_mem
    (mem_toList_iff_getElem?_eq_some.mpr found)
  rw [length_toList] at positive
  rw [size_erase, if_pos present]
  omega

omit [LawfulEqOrd κ] [DecidableEq κ] in
theorem size_insert_of_present (found : map[key]? = some value)
    (value' : β) :
    (map.insert key value').size = map.size := by
  rw [size_insert, if_pos]
  exact mem_iff_isSome_getElem?.mpr (by rw [found]; rfl)

omit [LawfulEqOrd κ] [DecidableEq κ] in
/-- A new key makes a map larger by one. -/
theorem size_insert_of_absent (absent : map[key]? = none) (value : β) :
    (map.insert key value).size = map.size + 1 := by
  rw [size_insert, if_neg]
  intro present
  have isSome := mem_iff_isSome_getElem?.mp (contains_iff_mem.mp present)
  rw [absent] at isSome
  cases isSome

omit [DecidableEq κ] in
/-- A map that defines all keys of another one overwrites it. -/
theorem union_eq_right {left right : ExtTreeMap κ β}
    (defined : ∀ key : κ, (left[key]?).isSome → (right[key]?).isSome) :
    left ∪ right = right := by
  apply ExtTreeMap.ext_getElem?
  intro key
  rw [getElem?_union]
  cases found : right[key]? with
  | some value => rfl
  | none =>
    have absent : ¬ (left[key]?).isSome := by
      intro present
      have := defined key present
      simp [found] at this
    simpa using absent

/-- The values of a map in key order. -/
def values (map : ExtTreeMap κ β) : List β :=
  map.toList.map Prod.snd

omit [DecidableEq κ] in
@[simp] theorem mem_values_iff (map : ExtTreeMap κ β) (value : β) :
    value ∈ values map ↔ ∃ key : κ, map[key]? = some value := by
  rw [values, mem_map]
  constructor
  · rintro ⟨⟨key, value'⟩, listed, rfl⟩
    exact ⟨key, mem_toList_iff_getElem?_eq_some.mp listed⟩
  · rintro ⟨key, present⟩
    exact ⟨(key, value), mem_toList_iff_getElem?_eq_some.mpr present,
      rfl⟩

/-- A key above all others is listed last. -/
theorem toList_insert_of_lt (map : ExtTreeMap κ β) (value : β)
    (highest : ∀ entry ∈ map.toList, compare entry.1 key = .lt) :
    (map.insert key value).toList = map.toList ++ [(key, value)] := by
  have ordered : (map.toList ++ [(key, value)]).Pairwise fun left right =>
      compare left.1 right.1 = .lt := by
    exact pairwise_snoc.mpr ⟨ordered_keys_toList, highest⟩
  have irreflexive : ∀ left right : κ × β, compare left.1 right.1 = .lt →
      compare right.1 left.1 = .lt → left = right := by
    intro left right below above
    have contradiction := Std.OrientedCmp.gt_of_lt below
    rw [above] at contradiction
    cases contradiction
  have nodup : ∀ entries : List (κ × β), (entries.Pairwise fun left right =>
      compare left.1 right.1 = .lt) → entries.Nodup := by
    intro entries sorted
    apply sorted.imp
    rintro left right below rfl
    simp at below
  apply List.Perm.eq_of_pairwise (fun left right _ _ => irreflexive left right)
    ordered_keys_toList ordered
  rw [perm_ext_iff_of_nodup (nodup _ ordered_keys_toList) (nodup _ ordered)]
  rintro ⟨other, value'⟩
  rw [mem_toList_iff_getElem?_eq_some, getElem?_insert, mem_append, mem_toList_iff_getElem?_eq_some]
  split
  · next same =>
    subst same
    have absent : map[key]? ≠ some value' := by
      intro present
      have below := highest (key, value') (mem_toList_iff_getElem?_eq_some.mpr present)
      simp at below
    simp [absent, eq_comm]
  · next different =>
    simp [Ne.symm different]

end Map

/-! ## Sums over maps -/

namespace Map

variable {κ : Type*} {β : Type*} [Ord κ] [TransOrd κ] [LawfulEqOrd κ]

/-- The sum of a weight over all entries. -/
def total (weight : κ → β → Nat) (map : ExtTreeMap κ β) : Nat :=
  (map.toList.map fun entry => weight entry.1 entry.2).sum

theorem nodup_toList (map : ExtTreeMap κ β) : map.toList.Nodup := by
  apply distinct_keys_toList.imp
  rintro left right different rfl
  exact different Std.ReflOrd.compare_self

variable [DecidableEq κ]

/-- An entry can be listed first. -/
theorem toList_perm_cons_erase {map : ExtTreeMap κ β} (found : map[key]? = some value) :
    map.toList.Perm ((key, value) :: (map.erase key).toList) := by
  have fresh : (key, value) ∉ (map.erase key).toList := by
    rw [mem_toList_iff_getElem?_eq_some, getElem?_erase, if_pos rfl]
    exact Option.some_ne_none value ∘ Eq.symm
  rw [perm_ext_iff_of_nodup (nodup_toList map) (nodup_cons.mpr ⟨fresh, nodup_toList _⟩)]
  rintro ⟨other, value'⟩
  rw [mem_cons, mem_toList_iff_getElem?_eq_some,
    mem_toList_iff_getElem?_eq_some, getElem?_erase, Prod.mk.injEq]
  by_cases same : key = other
  · subst same
    simp [found, eq_comm]
  · simp [same, Ne.symm same]

/-- What an entry contributes to a sum. -/
theorem total_erase (weight : κ → β → Nat) {map : ExtTreeMap κ β} (found : map[key]? = some value) :
    total weight map = weight key value + total weight (map.erase key) := by
  unfold total
  rw [((toList_perm_cons_erase found).map _).sum_eq, map_cons, sum_cons]

/-- Erasing keys takes their entries out of the listing. -/
theorem toList_perm_foldl_erase (map : ExtTreeMap κ β) {keys : List κ} (nodup : keys.Nodup) :
    map.toList.Perm ((keys.filterMap fun key => map[key]?.map (Prod.mk key)) ++
      (keys.foldl erase map).toList) := by
  induction keys generalizing map with
  | nil => simp
  | cons key keys ih =>
    rw [nodup_cons] at nodup
    have rest := ih (map.erase key) nodup.2
    have others : (keys.filterMap fun other => (map.erase key)[other]?.map (Prod.mk other)) =
        keys.filterMap fun other => map[other]?.map (Prod.mk other) := by
      apply filterMap_congr
      intro other listed
      rw [getElem?_erase, if_neg]
      rintro rfl
      exact nodup.1 listed
    rw [others] at rest
    rw [foldl_cons]
    cases found : map[key]? with
    | none =>
      rw [filterMap_cons_none (by rw [found]; rfl)]
      rw [erase_of_absent found] at rest ⊢
      exact rest
    | some value =>
      rw [filterMap_cons_some (by rw [found]; rfl), cons_append]
      exact (toList_perm_cons_erase found).trans (rest.cons _)

theorem total_insert (weight : κ → β → Nat) (map : ExtTreeMap κ β) (key : κ) (value : β) :
    total weight (map.insert key value) = weight key value + total weight (map.erase key) := by
  have found : (map.insert key value)[key]? = some value := by
    rw [getElem?_insert, if_pos rfl]
  rw [total_erase weight found, erase_insert]

omit [LawfulEqOrd κ] [DecidableEq κ] in
@[simp] theorem total_empty (weight : κ → β → Nat) : total weight (∅ : ExtTreeMap κ β) = 0 :=
  rfl

end Map

/-! ## Tables with known entries

The order of the list does not matter, so an update is described where the entry
that changes is the first one. -/

/-- The entries of a table are those of a list, each with an index of its own. -/
structure Holds (table : ExtTreeMap Nat α) (entries : List (Nat × α)) : Prop where
  distinct : (entries.map Prod.fst).Nodup
  lookup : ∀ index entry, table[index]? = some entry ↔ (index, entry) ∈ entries

namespace Holds

variable {table : ExtTreeMap Nat α} {entries rest : List (Nat × α)} {index : Nat}
  {old : α}

theorem empty : Holds (∅ : ExtTreeMap Nat α) [] where
  distinct := .nil
  lookup := fun index entry => by simp

section

variable (holds : Holds table entries)

include holds

theorem perm (same : entries.Perm entries') :
    Holds table entries' where
  distinct := (same.map Prod.fst).nodup_iff.mp holds.distinct
  lookup := fun index entry => (holds.lookup index entry).trans same.mem_iff

theorem get (listed : (index, entry) ∈ entries) : table[index]? = some entry :=
  (holds.lookup index entry).mpr listed

theorem get_none (missing : index ∉ entries.map Prod.fst) : table[index]? = none := by
  rw [Option.eq_none_iff_forall_ne_some]
  intro entry found
  exact missing (mem_map_of_mem ((holds.lookup index entry).mp found))

/-- Adding an entry to the table. -/
theorem add (missing : index ∉ entries.map Prod.fst) (new : α) :
    Holds (table.insert index new) ((index, new) :: entries) where
  distinct := nodup_cons.mpr ⟨missing, holds.distinct⟩
  lookup := by
    intro other entry
    rw [Map.getElem?_insert, mem_cons, Prod.mk.injEq]
    split
    · next same =>
      subst same
      have elsewhere : (index, entry) ∉ entries := fun listed =>
        missing (mem_map_of_mem listed)
      simp only [Option.some.injEq, elsewhere, or_false, true_and]
      exact eq_comm
    · next differs =>
      rw [holds.lookup]
      simp only [Ne.symm differs, false_and, false_or]

end

/-- Removing an entry from the table. -/
theorem erase (holds : Holds table ((index, old) :: rest)) :
    Holds (table.erase index) rest where
  distinct := (nodup_cons.mp holds.distinct).2
  lookup := by
    intro other entry
    have missing : index ∉ rest.map Prod.fst := (nodup_cons.mp holds.distinct).1
    rw [Map.getElem?_erase]
    split
    · next same =>
      subst same
      simp only [reduceCtorEq, false_iff]
      exact fun listed => missing (mem_map_of_mem listed)
    · next differs =>
      rw [holds.lookup, mem_cons, Prod.mk.injEq]
      simp only [Ne.symm differs, false_and, false_or]

/-- Replacing an entry of the table. -/
theorem update (holds : Holds table ((index, old) :: rest)) (new : α) :
    Holds (table.insert index new) ((index, new) :: rest) := by
  have same : (table.erase index).insert index new = table.insert index new := by
    apply ExtTreeMap.ext_getElem?
    intro other
    rw [Map.getElem?_insert, Map.getElem?_insert, Map.getElem?_erase]
    split_ifs <;> rfl
  rw [← same]
  exact holds.erase.add (nodup_cons.mp holds.distinct).1 new

/-- The listing of a table is its entries in some order. -/
theorem toList_perm (holds : Holds table entries) : table.toList.Perm entries := by
  have nodup : table.toList.Nodup :=
    (ordered_keys_toList (t := table)).imp fun below same => by
      rw [same, Std.compare_self] at below
      cases below
  rw [perm_ext_iff_of_nodup nodup (List.Nodup.of_map _ holds.distinct)]
  intro entry
  exact mem_toList_iff_getElem?_eq_some.trans (holds.lookup entry.1 entry.2)

theorem size (holds : Holds table entries) : table.size = entries.length := by
  rw [← length_toList, holds.toList_perm.length_eq]

theorem eq_empty (holds : Holds table []) : table = ∅ :=
  eq_empty_iff_size_eq_zero.mpr holds.size

end Holds

/-! ## Seeking

An iterator over an ordered map can be placed at a key: on the first entry that is
not below it, or on the last one that is not above it. -/

/-- In an ordered list the first match is the least one. -/
theorem find?_eq_some_iff_of_pairwise {relation : α → α → Prop}
    (asymmetric : ∀ left right, relation left right → ¬ relation right left) {entries : List α}
    (ordered : entries.Pairwise relation) {entry : α} :
    entries.find? property = some entry ↔ entry ∈ entries ∧ property entry = true ∧
        ∀ other ∈ entries, property other = true → other = entry ∨ relation entry other := by
  rw [find?_eq_some_iff_append]
  constructor
  · rintro ⟨isEntry, before, after, rfl, passed⟩
    refine ⟨by simp, isEntry, ?_⟩
    intro other listed isOther
    rcases mem_append.mp listed with early | late
    · have lost := passed other early
      simp [isOther] at lost
    · rcases mem_cons.mp late with rfl | later
      · exact .inl rfl
      · exact .inr (rel_of_pairwise_cons (pairwise_append.mp ordered).2.1 later)
  · rintro ⟨listed, isEntry, lowest⟩
    obtain ⟨before, after, rfl⟩ := append_of_mem listed
    refine ⟨isEntry, before, after, rfl, ?_⟩
    intro other early
    have below := (pairwise_append.mp ordered).2.2 other early entry mem_cons_self
    cases isOther : property other with
    | false => rfl
    | true =>
      rcases lowest other (mem_append_left _ early) isOther with rfl | above
      · exact absurd below (asymmetric _ _ below)
      · exact absurd below (asymmetric _ _ above)

/-- In a list where a property does not come back once it is lost, those with the property
come first. -/
theorem takeWhile_eq_filter_of_pairwise {entries : List α}
    (closed : entries.Pairwise fun earlier later =>
      property later = true → property earlier = true) :
    entries.takeWhile property = entries.filter property := by
  induction entries with
  | nil => rfl
  | cons first entries ih =>
    rw [pairwise_cons] at closed
    cases holds : property first with
    | true =>
      rw [takeWhile_cons_of_pos holds, filter_cons_of_pos holds, ih closed.2]
    | false =>
      have lost : entries.filter property = [] := by
        rw [filter_eq_nil_iff]
        intro later listed isLater
        have first := closed.1 later listed isLater
        rw [holds] at first
        cases first
      rw [takeWhile_cons_of_neg (by simp [holds]),
        filter_cons_of_neg (by simp [holds]), lost]

namespace Map

variable {κ : Type*} {β : Type*} [Ord κ] [TransOrd κ] [LawfulEqOrd κ]
  {map : ExtTreeMap κ β}

/-- The entries from a key on. -/
def skipTo (map : ExtTreeMap κ β) (key : κ) : List (κ × β) :=
  map.toList.filter fun entry => compare entry.1 key != .lt

/-- The last entry that is not above a key. -/
def skipPriorTo (map : ExtTreeMap κ β) (key : κ) : Option (κ × β) :=
  (map.toList.filter fun entry => compare entry.1 key != .gt).getLast?

omit [LawfulEqOrd κ] in
theorem compare_asymmetric {left right : κ × β} (below : compare left.1 right.1 = .lt) :
    ¬ compare right.1 left.1 = .lt := by
  intro above
  have contradiction := Std.OrientedCmp.gt_of_lt below
  rw [above] at contradiction
  cases contradiction

variable {entry : κ × β}

omit [LawfulEqOrd κ] in
/-- The first match in an ordered listing of a map. -/
theorem find?_eq_some_iff_of_listing {map : ExtTreeMap κ β} {relation : κ × β → κ × β → Prop}
    (asymmetric : ∀ left right, relation left right → ¬ relation right left)
    {entries : List (κ × β)} (ordered : entries.Pairwise relation)
    (listing : ∀ entry, entry ∈ entries ↔ map[entry.1]? = some entry.2) (property : κ → Bool)
    :
    entries.find? (fun entry => property entry.1) = some entry ↔
      map[entry.1]? = some entry.2 ∧ property entry.1 = true ∧
        ∀ (other : κ) (value : β), map[other]? = some value → property other = true →
          other = entry.1 ∨ relation entry (other, value) := by
  rw [find?_eq_some_iff_of_pairwise asymmetric ordered]
  obtain ⟨entryKey, entryValue⟩ := entry
  simp only [Prod.forall, listing, Prod.mk.injEq]
  refine and_congr_right fun found => and_congr_right fun _ => ?_
  refine forall_congr' fun other => forall_congr' fun value => imp_congr_right fun present =>
    imp_congr_right fun _ => or_congr_left ?_
  constructor
  · exact And.left
  · rintro rfl
    exact ⟨rfl, Option.some.inj (present.symm.trans found)⟩

/-- The first entry from a key on is the lowest one of those. -/
theorem head?_skipTo_eq_some_iff {key : κ} :
    (skipTo map key).head? = some entry ↔ map[entry.1]? = some entry.2 ∧ compare entry.1 key ≠ .lt ∧
        ∀ (other : κ) (value : β), map[other]? = some value → compare other key ≠ .lt →
          other = entry.1 ∨ compare entry.1 other = .lt := by
  rw [skipTo, head?_filter, find?_eq_some_iff_of_listing (fun _ _ => compare_asymmetric)
    ExtTreeMap.ordered_keys_toList (fun _ => ExtTreeMap.mem_toList_iff_getElem?_eq_some)
    fun other => compare other key != .lt]
  simp only [bne_iff_ne]

/-- The last entry up to a key is the highest one of those. -/
theorem skipPriorTo_eq_some_iff {key : κ} :
    skipPriorTo map key = some entry ↔ map[entry.1]? = some entry.2 ∧ compare entry.1 key ≠ .gt ∧
        ∀ (other : κ) (value : β), map[other]? = some value → compare other key ≠ .gt →
          other = entry.1 ∨ compare other entry.1 = .lt := by
  have listing : ∀ entry : κ × β, entry ∈ map.toList.reverse ↔ map[entry.1]? = some entry.2 := by
    intro entry
    rw [mem_reverse, ExtTreeMap.mem_toList_iff_getElem?_eq_some]
  rw [skipPriorTo, getLast?_filter, find?_eq_some_iff_of_listing
    (fun _ _ => compare_asymmetric) (pairwise_reverse.mpr ExtTreeMap.ordered_keys_toList)
    listing fun other => compare other key != .gt]
  simp only [bne_iff_ne]

/-- Erasing keys one after the other. -/
theorem getElem?_foldl_erase [DecidableEq κ] (map : ExtTreeMap κ β) (keys : List κ) (lookup : κ) :
    (keys.foldl (fun table key => table.erase key) map)[lookup]? =
      if lookup ∈ keys then none else map[lookup]? := by
  induction keys generalizing map with
  | nil => simp
  | cons key keys ih =>
    rw [foldl_cons, ih, getElem?_erase]
    by_cases here : lookup = key
    · simp [here]
    · simp [here, Ne.symm here]

end Map

end Library

/-! ## Batches of writes to a table

What a key holds after a batch is decided by the last write to it. -/

namespace Library

open Std (ExtTreeMap TransOrd LawfulEqOrd)

/-- A write to a table. -/
inductive Write (κ β : Type)
  | insert (key : κ) (value : β)
  | delete (key : κ)

variable {κ β : Type} [Ord κ] [TransOrd κ]

/-- The table after a write. -/
def Write.apply (table : ExtTreeMap κ β) : Write κ β → ExtTreeMap κ β
  | .insert key value => table.insert key value
  | .delete key => table.erase key

/-- The table after a batch of writes. -/
def writeAll (table : ExtTreeMap κ β) (batch : List (Write κ β)) : ExtTreeMap κ β :=
  batch.foldl Write.apply table

/-- Insert entries. -/
def inserts (entries : List (κ × β)) : List (Write κ β) :=
  entries.map fun entry => .insert entry.1 entry.2

/-- Delete keys. -/
def deletes (keys : List κ) : List (Write κ β) :=
  keys.map .delete

omit [Ord κ] [TransOrd κ] in
@[simp] theorem deletes_append (first second : List κ) :
    (deletes (first ++ second) : List (Write κ β)) = deletes first ++ deletes second :=
  List.map_append

omit [Ord κ] [TransOrd κ] in
@[simp] theorem inserts_append (first second : List (κ × β)) :
    inserts (first ++ second) = inserts first ++ inserts second :=
  List.map_append

@[simp] theorem writeAll_append (table : ExtTreeMap κ β) (first second : List (Write κ β)) :
    writeAll table (first ++ second) = writeAll (writeAll table first) second :=
  List.foldl_append

variable [LawfulEqOrd κ] [DecidableEq κ]

section

variable (table : ExtTreeMap κ β)

include table

/-- A key that is not deleted keeps its value. -/
theorem getElem?_deletes_of_not_mem (missing : lookup ∉ keys) :
    (writeAll table (deletes keys))[lookup]? = table[lookup]? := by
  induction keys generalizing table with
  | nil => rfl
  | cons key keys ih =>
    rw [List.mem_cons, not_or] at missing
    change (writeAll (table.erase key) (deletes keys))[lookup]? = _
    rw [ih _ missing.2, Map.getElem?_erase, if_neg (Ne.symm missing.1)]

/-- A deleted key is absent. -/
theorem getElem?_deletes_of_mem (listed : lookup ∈ keys) :
    (writeAll table (deletes keys))[lookup]? = none := by
  induction keys generalizing table with
  | nil => cases listed
  | cons key keys ih =>
    change (writeAll (table.erase key) (deletes keys))[lookup]? = _
    by_cases later : lookup ∈ keys
    · exact ih _ later
    · obtain rfl := (List.mem_cons.mp listed).resolve_right later
      rw [getElem?_deletes_of_not_mem _ later, Map.getElem?_erase, if_pos rfl]

@[simp] theorem getElem?_deletes (keys : List κ) (lookup : κ) [Decidable (lookup ∈ keys)] :
    (writeAll table (deletes keys))[lookup]? =
      if lookup ∈ keys then none else table[lookup]? := by
  split
  case isTrue listed => exact getElem?_deletes_of_mem table listed
  case isFalse missing => exact getElem?_deletes_of_not_mem table missing

/-- A key that is not inserted keeps its value. -/
theorem getElem?_inserts_of_not_mem (missing : lookup ∉ entries.map Prod.fst) :
    (writeAll table (inserts entries))[lookup]? = table[lookup]? := by
  induction entries generalizing table with
  | nil => rfl
  | cons entry entries ih =>
    rw [List.map_cons, List.mem_cons, not_or] at missing
    change (writeAll (table.insert entry.1 entry.2) (inserts entries))[lookup]? = _
    rw [ih _ missing.2, Map.getElem?_insert, if_neg (Ne.symm missing.1)]

/-- A key that is always inserted with the same value has this value. -/
theorem getElem?_inserts_of_mem
    (consistent : ∀ other ∈ entries, other.1 = entry.1 → other = entry) (listed : entry ∈ entries) :
    (writeAll table (inserts entries))[entry.1]? = some entry.2 := by
  induction entries generalizing table with
  | nil => cases listed
  | cons first entries ih =>
    change (writeAll (table.insert first.1 first.2) (inserts entries))[entry.1]? = _
    by_cases later : entry ∈ entries
    · exact ih _ (List.forall_mem_cons.mp consistent).2 later
    · have missing : entry.1 ∉ entries.map Prod.fst := by
        intro present
        obtain ⟨other, isLater, same⟩ := List.mem_map.mp present
        exact later (consistent other (List.mem_cons_of_mem _ isLater) same ▸ isLater)
      obtain rfl := (List.mem_cons.mp listed).resolve_right later
      rw [getElem?_inserts_of_not_mem _ missing, Map.getElem?_insert, if_pos rfl]

/-- The table after one value was written to some keys. -/
theorem getElem?_inserts_const (keys : List κ) (value : β) (lookup : κ)
    [Decidable (lookup ∈ keys)] :
    (writeAll table (inserts (keys.map fun key => (key, value))))[lookup]? =
      if lookup ∈ keys then some value else table[lookup]? := by
  by_cases listed : lookup ∈ keys
  · have isEntry : (lookup, value) ∈ keys.map fun key => (key, value) := List.mem_map_of_mem listed
    rw [if_pos listed]
    refine getElem?_inserts_of_mem table (fun other isOther same => ?_) isEntry
    obtain ⟨key, _, rfl⟩ := List.mem_map.mp isOther
    exact congrArg (·, value) same
  · rw [if_neg listed, getElem?_inserts_of_not_mem]
    simpa using listed

/-- The keys that are present after insertions. -/
theorem isSome_inserts (entries : List (κ × β)) (lookup : κ) :
    ((writeAll table (inserts entries))[lookup]?).isSome ↔
      lookup ∈ entries.map Prod.fst ∨ (table[lookup]?).isSome := by
  induction entries generalizing table with
  | nil => simp [inserts, writeAll]
  | cons entry entries ih =>
    change ((writeAll (table.insert entry.1 entry.2) (inserts entries))[lookup]?).isSome ↔ _
    rw [ih, Map.getElem?_insert, List.map_cons, List.mem_cons]
    by_cases same : entry.1 = lookup
    · simp [same]
    · simp [same, Ne.symm same]

end

/-- What a key holds after insertions was inserted or was there. -/
theorem mem_of_getElem?_inserts {table : ExtTreeMap κ β}
    (found : (writeAll table (inserts entries))[lookup]? = some value) :
    (lookup, value) ∈ entries ∨ table[lookup]? = some value := by
  induction entries generalizing table with
  | nil => exact .inr found
  | cons entry entries ih =>
    change (writeAll (table.insert entry.1 entry.2) (inserts entries))[lookup]? = _ at found
    rcases ih found with later | before
    · exact .inl (List.mem_cons_of_mem _ later)
    · rcases Map.cases_of_getElem?_insert before with ⟨rfl, rfl⟩ | ⟨_, before⟩
      · exact .inl List.mem_cons_self
      · exact .inr before

/-- What a key holds after a batch depends on what it held before. -/
theorem getElem?_writeAll_congr {lookup : κ} (batch : List (Write κ β))
    (same : left[lookup]? = right[lookup]?) :
    (writeAll left batch)[lookup]? = (writeAll right batch)[lookup]? := by
  induction batch generalizing left right with
  | nil => exact same
  | cons write batch ih =>
    refine ih ?_
    cases write with
    | insert key value =>
      simp only [Write.apply, Map.getElem?_insert, same]
    | delete key => simp only [Write.apply, Map.getElem?_erase, same]

/-- Groups of insertions that do not concern a key can be left out. -/
theorem getElem?_inserts_filter {groups : List ι} {lookup : κ} (entries : ι → List (κ × β))
    (keep : ι → Bool) (table : ExtTreeMap κ β)
    (untouched : ∀ group ∈ groups, keep group = false → lookup ∉ (entries group).map Prod.fst) :
    (writeAll table (inserts (groups.flatMap entries)))[lookup]? =
      (writeAll table (inserts ((groups.filter keep).flatMap entries)))[lookup]? := by
  induction groups generalizing table with
  | nil => rfl
  | cons group groups ih =>
    have later := ih (writeAll table (inserts (entries group)))
      (List.forall_mem_cons.mp untouched).2
    rw [List.flatMap_cons, inserts_append, writeAll_append, later]
    cases isKept : keep group with
    | true =>
      rw [List.filter_cons_of_pos isKept, List.flatMap_cons, inserts_append, writeAll_append]
    | false =>
      rw [List.filter_cons_of_neg (by rw [isKept]; decide)]
      exact getElem?_writeAll_congr _ (getElem?_inserts_of_not_mem table
        (untouched group List.mem_cons_self isKept))

end Library
