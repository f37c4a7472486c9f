import Mathlib

/-!
# Maps that know the order of use

The entries of the map are kept in the order of their last use, so that those used
least recently can be dropped.  The map has no capacity of its own: an entry is only
lost when the map is cut down to a size.
-/

namespace Library

open List hiding after

/-- A map whose entries are listed from the last used one to the one used least
recently. -/
structure Lru (κ : Type*) (β : Type*) where
  entries : List (κ × β)
  distinct : (entries.map Prod.fst).Nodup

namespace Lru

def unbounded : Lru κ β :=
  ⟨[], List.nodup_nil⟩

/-- Drop the least recently used entries until at most some number is left. -/
def shrink (cache : Lru κ β) (size : Nat) : Lru κ β :=
  ⟨cache.entries.take size, by
    rw [List.map_take]
    exact cache.distinct.sublist (List.take_sublist _ _)⟩

variable [DecidableEq κ]

/-- The value of a key, without using the entry. -/
def peek (cache : Lru κ β) (key : κ) : Option β :=
  (cache.entries.find? fun entry => entry.1 = key).map Prod.snd

/-- Put an entry in front, in the place of the one that the key has. -/
def touch (cache : Lru κ β) (key : κ) (value : β) : Lru κ β :=
  ⟨(key, value) :: cache.entries.filter fun entry => entry.1 ≠ key, by
    rw [List.map_cons, List.nodup_cons]
    constructor
    · intro listed
      obtain ⟨entry, kept, same⟩ := List.mem_map.mp listed
      exact of_decide_eq_true (List.mem_filter.mp kept).2 same
    · exact cache.distinct.sublist (List.filter_sublist.map Prod.fst)⟩

/-- Put an entry, and return the one that the key had. -/
def push (cache : Lru κ β) (key : κ) (value : β) : Lru κ β × Option (κ × β) :=
  (cache.touch key value, (cache.peek key).map fun previous => (key, previous))

/-- Put an entry, and return the value that the key had. -/
def put (cache : Lru κ β) (key : κ) (value : β) : Lru κ β × Option β :=
  (cache.touch key value, cache.peek key)

/-- Use the entry of a key. -/
def get (cache : Lru κ β) (key : κ) : Lru κ β × Option β :=
  match cache.peek key with
  | some value => (cache.touch key value, some value)
  | none => (cache, none)

/-- Remove the entry of a key, and return its value. -/
def pop (cache : Lru κ β) (key : κ) : Lru κ β × Option β :=
  (⟨cache.entries.filter fun entry => entry.1 ≠ key,
    cache.distinct.sublist (List.filter_sublist.map Prod.fst)⟩, cache.peek key)

@[simp] theorem peek_unbounded (key : κ) : (unbounded : Lru κ β).peek key = none :=
  rfl

section

variable (cache : Lru κ β)

include cache

/-- What is left after a key was removed. -/
@[simp] theorem peek_pop (key lookup : κ) :
    (cache.pop key).1.peek lookup = if key = lookup then none else cache.peek lookup := by
  unfold peek pop
  rw [find?_filter]
  by_cases same : key = lookup
  · simp [same]
  · have others : ∀ entry : κ × β, (entry.1 ≠ key ∧ entry.1 = lookup) ↔ entry.1 = lookup := by
      intro entry
      exact ⟨And.right, fun here => ⟨fun isKey => same (isKey.symm.trans here), here⟩⟩
    rw [if_neg same]
    simp only [decide_eq_true_eq, others]

@[simp] theorem peek_touch (key lookup : κ) (value : β) :
    (cache.touch key value).peek lookup =
      if key = lookup then some value else cache.peek lookup := by
  have removed := peek_pop cache key lookup
  unfold peek touch at *
  rw [find?_cons]
  by_cases same : key = lookup
  · simp [same]
  · rw [if_neg same] at removed ⊢
    simp only [same, decide_false]
    exact removed

@[simp] theorem peek_get (key lookup : κ) : (cache.get key).1.peek lookup = cache.peek lookup := by
  unfold get
  split
  · next value found =>
    rw [peek_touch]
    split
    · next same => rw [← same, found]
    · rfl
  · rfl

@[simp] theorem get_snd (key : κ) : (cache.get key).2 = cache.peek key := by
  unfold get
  split
  · next value found => rw [found]
  · next found => rw [found]

end

/-- The cache answers with its entries. -/
theorem peek_eq_some_iff {cache : Lru κ β} {value : β} :
    cache.peek key = some value ↔ (key, value) ∈ cache.entries := by
  constructor
  · intro found
    obtain ⟨⟨key', value'⟩, isEntry, same⟩ := Option.map_eq_some_iff.mp found
    have isKey := find?_some isEntry
    obtain rfl : key' = key := of_decide_eq_true isKey
    obtain rfl : value' = value := same
    exact mem_of_find?_eq_some isEntry
  · intro listed
    have unique : ∀ entry ∈ cache.entries, entry.1 = key → entry = (key, value) :=
      fun entry isEntry same => inj_on_of_nodup_map cache.distinct isEntry listed same
    cases found : cache.entries.find? fun entry => decide (entry.1 = key) with
    | none => exact absurd (decide_eq_true rfl) (find?_eq_none.mp found (key, value) listed)
    | some entry =>
      have isKey := find?_some found
      have same := unique entry (mem_of_find?_eq_some found) (of_decide_eq_true isKey)
      rw [peek, found, same]
      rfl

/-- Cutting a map down forgets entries and changes none. -/
theorem peek_shrink {cache : Lru κ β} (found : (cache.shrink size).peek key = some value) :
    cache.peek key = some value := by
  obtain ⟨entry, isEntry, rfl⟩ := Option.map_eq_some_iff.mp found
  have first : cache.entries.find? (fun entry => decide (entry.1 = key)) = some entry := by
    rw [← take_append_drop size cache.entries, find?_append]
    exact Option.or_eq_some_iff.mpr (.inl isEntry)
  rw [peek, first]
  rfl

end Lru

end Library
