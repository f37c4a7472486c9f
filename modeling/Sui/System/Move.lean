import Sui.Library.Checked
import Sui.Library.Map

/-!
# What the system modules use of Move

Every function of the system either returns or aborts, and an aborted transaction
changes nothing.  Unsigned integers have 64 bits; an operation whose result does
not fit aborts.  Products of two such integers are computed in 128 bits, where
they always fit, so only the cast of the result back is checked.

A balance is the amount it holds.  A table is a map whose keys must not be added
twice and must be present when they are read or removed.  Object identifiers and
addresses are opaque numbers.
-/

namespace Sui.System

open Library
open Std (ExtTreeMap)

/-- Why a transaction aborts.  The modules number their errors. -/
inductive Abort
  /-- Overflow, underflow, a cast that does not fit or a division by zero. -/
  | arithmetic
  | fieldAlreadyExists
  | fieldDoesNotExist
  /-- An index of a vector is out of bounds, or an empty option is read. -/
  | indexOutOfBounds
  | invalidAsciiCharacter
  | balance (code : Nat)
  | vecMap (code : Nat)
  | vecSet (code : Nat)
  | stakingPool (code : Nat)
  | validator (code : Nat)
  | validatorSet (code : Nat)
  | votingPower (code : Nat)
  | systemState (code : Nat)
  | genesis (code : Nat)
  | critbit (code : Nat)
  | authenticatorState (code : Nat)
  /-- A loop that does not end, which uses up the gas. -/
  | outOfGas
  deriving DecidableEq

/-- Identifier of an object. -/
abbrev ID := Nat

/-- Address of an account. -/
abbrev Address := Nat

/-- A program that may abort. -/
abbrev Program := Except Abort

namespace U64

/-- The sum of two integers. -/
def add : Nat → Nat → Program Nat :=
  checkedAdd 64 .arithmetic

/-- The difference of two integers. -/
def sub : Nat → Nat → Program Nat :=
  checkedSub .arithmetic

/-- The quotient of two integers. -/
def div : Nat → Nat → Program Nat :=
  checkedDiv .arithmetic

/-- The cast of a wider integer. -/
def cast : Nat → Program Nat :=
  checkedCast 64 .arithmetic

@[simp] theorem add_eq_ok {left right sum : Nat} :
    add left right = .ok sum ↔ left + right < 2 ^ 64 ∧ left + right = sum :=
  checkedAdd_eq_ok

@[simp] theorem sub_eq_ok {left right difference : Nat} :
    sub left right = .ok difference ↔
      right ≤ left ∧ left - right = difference :=
  checkedSub_eq_ok

@[simp] theorem cast_eq_ok {value result : Nat} :
    cast value = .ok result ↔ value < 2 ^ 64 ∧ value = result :=
  checkedCast_eq_ok

end U64

/-- Take an amount out of a balance. -/
def splitBalance (balance amount : Nat) : Program Nat := do
  require (amount ≤ balance) (.balance 2)
  pure (balance - amount)

@[simp] theorem splitBalance_eq_ok {balance amount rest : Nat} :
    splitBalance balance amount = .ok rest ↔ amount ≤ balance ∧ balance - amount = rest := by
  simp [splitBalance]

/-- A vector of bytes. -/
abbrev Bytes := List UInt8

/-- The string of ASCII characters with the given bytes, which model it. -/
def asciiString (bytes : Bytes) : Program Bytes := do
  require (bytes.all (· < 128) = true) Abort.invalidAsciiCharacter
  pure bytes

@[simp] theorem asciiString_eq_ok {bytes text : Bytes} :
    asciiString bytes = .ok text ↔ bytes.all (· < 128) = true ∧ bytes = text := by
  simp [asciiString]

namespace Table

variable {α : Type}

/-- Add an entry under a new key. -/
def add (table : ExtTreeMap Nat α) (key : Nat) (value : α) :
    Program (ExtTreeMap Nat α) :=
  match table[key]? with
  | some _ => .error .fieldAlreadyExists
  | none => .ok (table.insert key value)

/-- Read an entry. -/
def borrow (table : ExtTreeMap Nat α) (key : Nat) : Program α :=
  match table[key]? with
  | some value => .ok value
  | none => .error .fieldDoesNotExist

/-- Remove an entry. -/
def remove (table : ExtTreeMap Nat α) (key : Nat) :
    Program (α × ExtTreeMap Nat α) := do
  let value ← borrow table key
  pure (value, table.erase key)

@[simp] theorem add_eq_ok {value : α} :
    add table key value = .ok after ↔ table[key]? = none ∧ table.insert key value = after := by
  unfold add
  split
  · next found => simp [found]
  · next missing => simp [missing]

@[simp] theorem borrow_eq_ok {value : α} :
    borrow table key = .ok value ↔ table[key]? = some value := by
  unfold borrow
  split
  · next found => simp [found]
  · next missing => simp [missing]

@[simp] theorem remove_eq_ok {value : α} :
    remove table key = .ok (value, after) ↔ table[key]? = some value ∧ table.erase key = after := by
  simp [remove]

end Table

/-! ## Maps and sets that are vectors -/

open List hiding after

/-- A map, as its entries in the order of their insertion. -/
abbrev VecMap (α β : Type) := List (α × β)

/-- A set, as its elements in the order of their insertion. -/
abbrev VecSet (α : Type) := List α

namespace VecMap

variable {α β : Type} [DecidableEq α]

/-- Whether a key is bound. -/
def contains (map : VecMap α β) (key : α) : Bool :=
  map.any fun entry => entry.1 = key

/-- The value of the first entry with a key. -/
def get (map : VecMap α β) (key : α) : Program β :=
  match map.find? fun entry => entry.1 = key with
  | some entry => pure entry.2
  | none => .error (.vecMap 1)

/-- Bind a new key. -/
def insert (map : VecMap α β) (key : α) (value : β) : Program (VecMap α β) := do
  require (map.contains key = false) (Abort.vecMap 0)
  pure (map ++ [(key, value)])

/-- Remove a key. -/
def remove (map : VecMap α β) (key : α) : Program (VecMap α β) := do
  require (map.contains key = true) (Abort.vecMap 1)
  pure (map.eraseP fun entry => entry.1 = key)

/-- Remove a key if it is bound. -/
def removeIfContains (map : VecMap α β) (key : α) : Program (VecMap α β) :=
  if map.contains key then map.remove key else pure map

/-- Write to the value of a key, if it is bound. -/
def set : VecMap α β → α → β → VecMap α β
  | [], _, _ => []
  | first :: map, key, value =>
    if first.1 = key then (key, value) :: map else first :: set map key value

def keys (map : VecMap α β) : List α :=
  map.map Prod.fst

variable {map : VecMap α β}

@[simp] theorem contains_eq_true {key : α} : map.contains key = true ↔ key ∈ map.keys := by
  simp [contains, keys]

@[simp] theorem contains_eq_false {key : α} : map.contains key = false ↔ key ∉ map.keys := by
  rw [← contains_eq_true, Bool.not_eq_true]

theorem mem_of_get (found : map.get key = .ok value) : (key, value) ∈ map := by
  unfold get at found
  split at found
  · next entry isFound =>
    cases found
    have same : entry.1 = key := by simpa using find?_some isFound
    have listed := mem_of_find?_eq_some isFound
    rw [← same]
    exact listed
  · cases found

theorem exists_get (bound : key ∈ map.keys) : ∃ value, map.get key = .ok value := by
  obtain ⟨entry, listed, isKey⟩ := mem_map.mp bound
  have isFound : (map.find? fun entry => entry.1 = key).isSome = true :=
    find?_isSome.mpr ⟨entry, listed, by simpa using isKey⟩
  obtain ⟨found, isFound⟩ := Option.isSome_iff_exists.mp isFound
  exact ⟨found.2, by rw [get, isFound]; rfl⟩

variable {after : VecMap α β}

theorem insert_eq_ok {value : β} :
    map.insert key value = .ok after ↔ key ∉ map.keys ∧ map ++ [(key, value)] = after := by
  simp [insert]

/-- A key that is bound can be removed. -/
theorem remove_of_mem (bound : key ∈ map.keys) :
    map.remove key = .ok (map.eraseP fun entry => entry.1 = key) := by
  rw [remove, require_of (contains_eq_true.mpr bound)]
  rfl

theorem removeIfContains_eq (map : VecMap α β) (key : α) :
    map.removeIfContains key = .ok (map.eraseP fun entry => entry.1 = key) := by
  unfold removeIfContains
  split
  · next bound => exact remove_of_mem (contains_eq_true.mp bound)
  · next absent =>
    rw [eraseP_of_forall_not]
    · rfl
    · exact fun entry listed isKey => absent (contains_eq_true.mpr
        (mem_map.mpr ⟨entry, listed, by simpa using isKey⟩))

/-- The entries after a key is removed. -/
theorem mem_eraseP (distinct : map.keys.Nodup) (entry : α × β) :
    entry ∈ map.eraseP (fun entry => entry.1 = key) ↔ entry ∈ map ∧ entry.1 ≠ key := by
  induction map with
  | nil => simp
  | cons first map ih =>
    obtain ⟨firstApart, restDistinct⟩ := nodup_cons.mp distinct
    by_cases same : first.1 = key
    · rw [eraseP_cons_of_pos (by simpa using same), mem_cons]
      constructor
      · intro listed
        refine ⟨.inr listed, fun isKey => firstApart ?_⟩
        rw [same, ← isKey]
        exact mem_map_of_mem listed
      · rintro ⟨rfl | listed, different⟩
        · exact absurd same different
        · exact listed
    · rw [eraseP_cons_of_neg (by simpa using same), mem_cons, ih restDistinct, mem_cons]
      constructor
      · rintro (rfl | ⟨listed, different⟩)
        · exact ⟨.inl rfl, same⟩
        · exact ⟨.inr listed, different⟩
      · rintro ⟨rfl | listed, different⟩
        · exact .inl rfl
        · exact .inr ⟨listed, different⟩

@[simp] theorem keys_set (map : VecMap α β) (key : α) (value : β) :
    (map.set key value).keys = map.keys := by
  induction map with
  | nil => rfl
  | cons first map ih =>
    unfold keys at ih ⊢
    rw [set]
    split
    · next same => simp [same]
    · simpa using ih

/-- The entries after the value of a key is written. -/
theorem mem_set (value : β) (distinct : map.keys.Nodup) (bound : key ∈ map.keys)
    (entry : α × β) :
    entry ∈ map.set key value ↔ entry = (key, value) ∨ entry ∈ map ∧ entry.1 ≠ key := by
  induction map with
  | nil => cases bound
  | cons first map ih =>
    obtain ⟨firstApart, restDistinct⟩ := nodup_cons.mp distinct
    by_cases same : first.1 = key
    · rw [set, if_pos same, mem_cons, mem_cons]
      constructor
      · rintro (rfl | listed)
        · exact .inl rfl
        · refine .inr ⟨.inr listed, fun isKey => firstApart ?_⟩
          rw [same, ← isKey]
          exact mem_map_of_mem listed
      · rintro (rfl | ⟨rfl | listed, different⟩)
        · exact .inl rfl
        · exact absurd same different
        · exact .inr listed
    · have boundLater : key ∈ VecMap.keys map := by
        rcases mem_cons.mp bound with isFirst | later
        · exact absurd isFirst.symm same
        · exact later
      rw [set, if_neg same, mem_cons, ih restDistinct boundLater, mem_cons]
      constructor
      · rintro (rfl | rfl | ⟨listed, different⟩)
        · exact .inr ⟨.inl rfl, same⟩
        · exact .inl rfl
        · exact .inr ⟨.inr listed, different⟩
      · rintro (rfl | ⟨rfl | listed, different⟩)
        · exact .inr (.inl rfl)
        · exact .inl rfl
        · exact .inr (.inr ⟨listed, different⟩)

/-! ## Other keys -/

variable {map after : VecMap α β} {key other : α}

/-- The entry of a key. -/
def find (map : VecMap α β) (key : α) : Option (α × β) :=
  map.find? fun entry => entry.1 = key

end VecMap

namespace VecSet

variable {α : Type} [DecidableEq α]

/-- Remove an element. -/
def remove (set : VecSet α) (key : α) : Program (VecSet α) := do
  require (key ∈ set) (Abort.vecSet 1)
  pure (set.erase key)

theorem remove_eq_ok {set after : VecSet α} {key : α} :
    remove set key = .ok after ↔ key ∈ set ∧ set.erase key = after := by
  simp [remove]

end VecSet

end Sui.System
