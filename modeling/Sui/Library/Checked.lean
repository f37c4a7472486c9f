import Sui.Library.Lists

/-!
# Programs that may fail

Small programs over `Except`: conditions that are required, arithmetic in a fixed
number of bits that fails instead of wrapping around, and the inversion lemmas
that take a successful run apart.
-/

namespace Library

/-- Fail unless a condition holds. -/
def require (condition : Prop) [Decidable condition] (failure : ε) :
    Except ε Unit :=
  if condition then .ok () else .error failure

/-- The sum, unless it does not fit. -/
def checkedAdd (bits : Nat) (failure : ε) (left right : Nat) : Except ε Nat :=
  if left + right < 2 ^ bits then .ok (left + right) else .error failure

/-- The difference, unless it is negative. -/
def checkedSub (failure : ε) (left right : Nat) : Except ε Nat :=
  if right ≤ left then .ok (left - right) else .error failure

/-- The quotient, unless the divisor is zero. -/
def checkedDiv (failure : ε) (left right : Nat) : Except ε Nat :=
  if right = 0 then .error failure else .ok (left / right)

/-- The value, unless it does not fit. -/
def checkedCast (bits : Nat) (failure : ε) (value : Nat) : Except ε Nat :=
  if value < 2 ^ bits then .ok value else .error failure

@[simp] theorem require_eq_ok [Decidable condition] {failure : ε} {result : Unit} :
    require condition failure = .ok result ↔ condition := by
  unfold require
  split
  · next holds => simp [holds]
  · next fails => simp [fails]

@[simp] theorem checkedAdd_eq_ok {failure : ε} :
    checkedAdd bits failure left right = .ok sum ↔
      left + right < 2 ^ bits ∧ left + right = sum := by
  unfold checkedAdd
  split
  · next fits => simp [fits]
  · next overflows => simp [overflows]

@[simp] theorem checkedSub_eq_ok {failure : ε} :
    checkedSub failure left right = .ok difference ↔
      right ≤ left ∧ left - right = difference := by
  unfold checkedSub
  split
  · next fits => simp [fits]
  · next underflows => simp [underflows]

@[simp] theorem checkedCast_eq_ok {failure : ε} :
    checkedCast bits failure value = .ok result ↔ value < 2 ^ bits ∧ value = result := by
  unfold checkedCast
  split
  · next fits => simp [fits]
  · next overflows => simp [overflows]

theorem require_of [Decidable condition] {failure : ε} (holds : condition) :
    require condition failure = .ok () :=
  if_pos holds

theorem require_of_not [Decidable condition] {failure : ε} (fails : ¬condition) :
    require condition failure = .error failure :=
  if_neg fails

theorem ok_bind (value : α) (continuation : α → Except ε β) :
    (Except.ok value >>= continuation) = continuation value :=
  rfl

theorem error_bind (failure : ε) (continuation : α → Except ε β) :
    (Except.error failure >>= continuation) = .error failure :=
  rfl

variable {program : Except ε α}

/-- A sequence of two programs succeeds when both do. -/
@[simp] theorem bind_eq_ok {result : β} :
    (program >>= continuation) = .ok result ↔
      ∃ value, program = .ok value ∧ continuation value = .ok result := by
  cases program with
  | error failure =>
    constructor
    · exact nofun
    · rintro ⟨_, impossible, _⟩
      cases impossible
  | ok value =>
    constructor
    · exact fun succeeds => ⟨value, rfl, succeeds⟩
    · rintro ⟨_, ⟨⟩, succeeds⟩
      exact succeeds

theorem bind_of {result : β} (first : program = .ok value)
    (second : continuation value = .ok result) :
    (program >>= continuation) = .ok result :=
  bind_eq_ok.mpr ⟨value, first, second⟩

@[simp] theorem map_eq_ok {result : β} :
    (function <$> program) = .ok result ↔
      ∃ value, program = .ok value ∧ function value = result := by
  cases program with
  | error failure =>
    constructor
    · exact nofun
    · rintro ⟨_, impossible, _⟩
      cases impossible
  | ok value =>
    constructor
    · exact fun same => ⟨value, rfl, Except.ok.inj same⟩
    · rintro ⟨_, ⟨⟩, rfl⟩
      rfl

@[simp] theorem pure_eq_ok {value result : α} :
    (pure value : Except ε α) = .ok result ↔ value = result :=
  ⟨fun same => Except.ok.inj same, fun same => congrArg Except.ok same⟩

/-- Programs that all succeed. -/
theorem mapM_eq_ok {program : α → Except ε β} {results : List β} :
    items.mapM program = .ok results ↔
      List.Forall₂ (fun item result => program item = .ok result) items results := by
  induction items generalizing results with
  | nil =>
    rw [List.mapM_nil, pure_eq_ok, List.forall₂_nil_left_iff]
    exact eq_comm
  | cons item items ih =>
    rw [List.mapM_cons, List.forall₂_cons_left_iff]
    simp only [bind_eq_ok, pure_eq_ok, ih]
    constructor
    · rintro ⟨result, first, others, rest, rfl⟩
      exact ⟨result, others, first, rest, rfl⟩
    · rintro ⟨result, others, first, rest, rfl⟩
      exact ⟨result, first, others, rest, rfl⟩

variable {items : List α}

/-- A list of programs succeeds if each one does. -/
theorem exists_mapM {program : α → Except ε β}
    (succeeds : ∀ item ∈ items, ∃ result, program item = .ok result) :
    ∃ results, items.mapM program = .ok results := by
  induction items with
  | nil => exact ⟨[], rfl⟩
  | cons item items ih =>
    obtain ⟨result, first⟩ := succeeds item List.mem_cons_self
    obtain ⟨results, rest⟩ := ih (List.forall_mem_cons.mp succeeds).2
    exact ⟨result :: results, mapM_eq_ok.mpr (.cons first (mapM_eq_ok.mp rest))⟩

/-- A filter succeeds when the condition does for every element. -/
theorem filterM_eq_ok {program : α → Except ε Bool} {items results : List α} :
    items.filterM program = .ok results ↔ (∀ item ∈ items, ∃ kept, program item = .ok kept) ∧
        items.filter (fun item => (program item).toOption = some true) = results := by
  have general (done results : List α) : items.filterAuxM program done = .ok results ↔
      (∀ item ∈ items, ∃ kept, program item = .ok kept) ∧
        (items.filter fun item => (program item).toOption = some true).reverse ++ done =
          results := by
    induction items generalizing done with
    | nil => simp [List.filterAuxM]
    | cons item items ih =>
      rw [List.filterAuxM, bind_eq_ok]
      cases outcome : program item with
      | error failure => simp [outcome]
      | ok kept => cases kept <;> simp [ih, outcome, Except.toOption]
  simp [List.filterM, general]

/-- A program that is run for every element of a list. -/
theorem forM_eq_ok {program : α → Except ε PUnit} {result : PUnit} :
    items.forM program = .ok result ↔ ∀ item ∈ items, program item = .ok PUnit.unit := by
  induction items with
  | nil => exact ⟨nofun, fun _ => rfl⟩
  | cons item items ih =>
    change (program item >>= fun _ => items.forM program) = _ ↔ _
    rw [bind_eq_ok, List.forall_mem_cons]
    simp only [ih]
    exact ⟨fun ⟨_, first, rest⟩ => ⟨first, rest⟩, fun ⟨first, rest⟩ => ⟨_, first, rest⟩⟩

variable {step : β → α → Except ε β}

/-- A property that every step of a fold keeps holds at its end. -/
theorem foldlM_invariant (property : β → Prop)
    (folded : items.foldlM step start = .ok finish) (initial : property start)
    (preserved : ∀ state item next, item ∈ items → property state →
      step state item = .ok next → property next) :
    property finish := by
  induction items generalizing start with
  | nil =>
    cases folded
    exact initial
  | cons item items ih =>
    obtain ⟨next, first, rest⟩ := bind_eq_ok.mp folded
    apply ih rest
    · exact preserved start item next List.mem_cons_self initial first
    · exact fun state other next listed =>
        preserved state other next (List.mem_cons_of_mem item listed)

/-- A fold succeeds when every step does, from a property of the state and of the items
that are left. -/
theorem exists_foldlM (property : List α → β → Prop)
    (initial : property items start)
    (advance : ∀ item rest state, property (item :: rest) state →
      ∃ next, step state item = .ok next ∧ property rest next) :
    ∃ finish, items.foldlM step start = .ok finish ∧ property [] finish := by
  induction items generalizing start with
  | nil => exact ⟨start, rfl, initial⟩
  | cons item items ih =>
    obtain ⟨next, first, kept⟩ := advance item items start initial
    obtain ⟨finish, rest, final⟩ := ih kept
    refine ⟨finish, ?_, final⟩
    exact bind_of first rest

/-! ## Failures -/

/-- The failure of a computation. -/
def failure : Except ε α → Option ε
  | .error failure => some failure
  | .ok _ => none

theorem failure_eq_some {reason : ε} : failure outcome = some reason ↔ outcome = .error reason := by
  cases outcome with
  | error failure => simp [Library.failure]
  | ok value => simp [Library.failure]

theorem map_toOption_eq_some {outcome : Except ε α} {change : α → β} :
    outcome.toOption.map change = some result ↔
      ∃ value, outcome = .ok value ∧ change value = result := by
  cases outcome <;> simp [Except.toOption]

theorem toOption_eq_some {outcome : Except ε α} :
    outcome.toOption = some value ↔ outcome = .ok value := by
  cases outcome <;> simp [Except.toOption]

end Library
