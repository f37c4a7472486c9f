import Mathlib

/-!
# Draining a work list

`drain` pops items off a stack, lets `expand` push new items in their place and
returns the items in the order in which they were popped.  A bound on the number
of iterations makes it structurally recursive.

`drain_spec` is its loop rule: an invariant over the popped items, the stack and
the state that `expand` threads through, together with a potential that pays for
every pushed item, yields a result for every sufficient bound.  `drain_congr`
says that two drains return the same items, whatever their bounds, when the
expansions agree on the items that can be reached.
-/

namespace Library

open List

variable {α σ ε : Type*}

/-- Pop and expand items until the stack is empty, for at most `fuel`
iterations. -/
def drain (exhausted : ε) (expand : σ → α → Except ε (List α × σ)) :
    Nat → List α → σ → Except ε (List α)
  | 0, _, _ => .error exhausted
  | _ + 1, [], _ => .ok []
  | fuel + 1, item :: stack, state =>
    match expand state item with
    | .error failure => .error failure
    | .ok (pushed, next) =>
      match drain exhausted expand fuel (pushed ++ stack) next with
      | .error failure => .error failure
      | .ok rest => .ok (item :: rest)

variable {exhausted : ε} {expand : σ → α → Except ε (List α × σ)}

/-- A returned nonempty drain begins with the top of the stack and continues
with the drain of what replaces it. -/
theorem drain_cons_eq_ok
    (returned : drain exhausted expand fuel (item :: stack) state = .ok result) :
    ∃ fuel' pushed next rest, expand state item = .ok (pushed, next) ∧ fuel = fuel' + 1 ∧
      drain exhausted expand fuel' (pushed ++ stack) next = .ok rest ∧
      result = item :: rest := by
  cases fuel with
  | zero => cases returned
  | succ fuel =>
    rw [drain] at returned
    split at returned
    · cases returned
    · next pushed next expanded =>
      split at returned
      · cases returned
      · next rest drained =>
        cases returned
        exact ⟨fuel, pushed, next, rest, expanded, rfl, drained, rfl⟩

/-- Loop rule for `drain`. -/
theorem drain_spec (exhausted : ε) (invariant : List α → List α → σ → Prop) (potential : σ → Nat)
    (step : ∀ popped item stack state, invariant popped (item :: stack) state →
        ∃ pushed next, expand state item = .ok (pushed, next) ∧
          pushed.length + potential next ≤ potential state ∧
          invariant (popped ++ [item]) (pushed ++ stack) next)
    (initial : invariant popped stack state) (enough : stack.length + potential state < fuel) :
    ∃ result final, drain exhausted expand fuel stack state = .ok result ∧
      invariant (popped ++ result) [] final := by
  induction fuel generalizing popped stack state with
  | zero => omega
  | succ fuel ih =>
    cases stack with
    | nil => exact ⟨[], state, rfl, by simpa using initial⟩
    | cons item stack =>
      obtain ⟨pushed, next, expanded, paid, holds⟩ := step popped item stack state initial
      have bound : (pushed ++ stack).length + potential next < fuel := by
        simp only [length_append, length_cons] at enough ⊢
        omega
      obtain ⟨result, final, drained, finished⟩ := ih holds bound
      refine ⟨item :: result, final, ?_, by simpa using finished⟩
      rw [drain, expanded]
      simp only [drained]

/-- Two expansions that agree on a closed region drain alike. -/
theorem drain_congr (region : α → Prop)
    (agree : ∀ state item, region item → expand state item = expand' state item)
    (closed : ∀ state item pushed next, region item →
      expand state item = .ok (pushed, next) → ∀ new ∈ pushed, region new)
    (inside : ∀ item ∈ stack, region item)
    (left : drain exhausted expand fuel stack state = .ok result)
    (right : drain exhausted expand' fuel' stack state = .ok result') :
    result = result' := by
  induction fuel generalizing fuel' stack result result' state with
  | zero => cases left
  | succ fuel ih =>
    cases stack with
    | nil =>
      cases left
      cases fuel' with
      | zero => cases right
      | succ fuel' =>
        cases right
        rfl
    | cons item stack =>
      obtain ⟨_, pushed, next, rest, expanded, sameFuel, drained, rfl⟩ := drain_cons_eq_ok left
      obtain ⟨fuel'', pushed', next', rest', expanded', _, drained', rfl⟩ := drain_cons_eq_ok right
      cases sameFuel
      obtain ⟨itemInside, others⟩ := forall_mem_cons.mp inside
      rw [← agree state item itemInside, expanded] at expanded'
      cases expanded'
      have stackInside : ∀ new ∈ pushed ++ stack, region new :=
        forall_mem_append.mpr ⟨closed state item pushed next itemInside expanded, others⟩
      rw [ih stackInside drained drained']

/-- The number of candidates that are not marked. -/
def unmarked [DecidableEq β] (candidates marked : List β) : Nat :=
  (candidates.filter fun candidate => candidate ∉ marked).length

theorem unmarked_le_length [DecidableEq β] (candidates marked : List β) :
    unmarked candidates marked ≤ candidates.length :=
  length_filter_le _ _

/-- Marking new candidates uses up as many unmarked ones. -/
theorem length_add_unmarked_le [DecidableEq β] (candidates marked : List β) (nodup : fresh.Nodup)
    (candidate : ∀ item ∈ fresh, item ∈ candidates) (notMarked : ∀ item ∈ fresh, item ∉ marked) :
    fresh.length + unmarked candidates (fresh ++ marked) ≤ unmarked candidates marked := by
  unfold unmarked
  set open' := candidates.filter fun item => item ∉ marked with openDefinition
  have split : (open'.filter fun item => item ∈ fresh).length +
      (open'.filter fun item => item ∉ fresh).length = open'.length := by
    simpa using (length_eq_length_filter_add fun item =>
      decide (item ∈ fresh)).symm
  have covers : fresh.length ≤ (open'.filter fun item => item ∈ fresh).length := by
    apply (nodup.subperm _).length_le
    intro item listed
    simp [openDefinition, listed, candidate item listed, notMarked item listed]
  have remaining : candidates.filter (fun item => item ∉ fresh ++ marked) =
      open'.filter fun item => item ∉ fresh := by
    rw [openDefinition, filter_filter]
    apply filter_congr
    intro item _
    simp [not_or]
  rw [remaining]
  omega

end Library
