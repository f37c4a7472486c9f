import Mathlib

/-!
# Runs of a machine with actions

A machine is a partial function: `perform state action` is the next state if the
action is possible in the state.  A run performs actions that are allowed, and a
property that every allowed action preserves holds at the end of every run.  When
it is decidable what is allowed, a list of actions can be executed.
-/

namespace Library

/-- Allowed actions lead from a state to another one. -/
inductive Run (perform : σ → act → Option σ) (allowed : σ → act → Prop)
    (start : σ) : σ → Prop
  | refl : Run perform allowed start start
  | step {state next : σ} {action : act} :
      Run perform allowed start state →
      allowed state action →
      perform state action = some next →
      Run perform allowed start next

variable {perform : σ → act → Option σ} {allowed : σ → act → Prop}

/-- What every allowed step preserves holds at the end of a run. -/
theorem Run.invariant (run : Run perform allowed start finish) (property : σ → Prop)
    (initial : property start)
    (preserved : ∀ state action next, property state → allowed state action →
      perform state action = some next → property next) :
    property finish := by
  induction run with
  | refl => exact initial
  | step _ isAllowed performed ih =>
    exact preserved _ _ _ ih isAllowed performed

theorem Run.mono (run : Run perform allowed start finish)
    (weaker : ∀ state action, allowed state action → more state action) :
    Run perform more start finish := by
  induction run with
  | refl => exact .refl
  | step _ isAllowed performed ih =>
    exact ih.step (weaker _ _ isAllowed) performed

section Execution

variable [∀ state action, Decidable (allowed state action)]

variable (perform allowed) in
/-- Perform actions one after the other, as long as they are allowed. -/
def performAll : List act → σ → Option σ
  | [], state => some state
  | action :: actions, state =>
    if allowed state action then
      (perform state action).bind (performAll actions)
    else
      none

/-- Actions that are performed extend a run. -/
theorem Run.performAll (run : Run perform allowed start state)
    (performed : performAll perform allowed actions state = some finish) :
    Run perform allowed start finish := by
  induction actions generalizing state with
  | nil =>
    cases performed
    exact run
  | cons action actions ih =>
    unfold Library.performAll at performed
    split at performed
    · next isAllowed =>
      obtain ⟨next, first, rest⟩ := Option.bind_eq_some_iff.mp performed
      exact ih (run.step isAllowed first) rest
    · cases performed

variable (perform allowed) in
/-- A property of the state after some actions is a property of the end of a
run. -/
theorem exists_run (start : σ) (actions : List act) (property : σ → Prop) [DecidablePred property]
    (holds : (performAll perform allowed actions start).any property = true) :
    ∃ finish, Run perform allowed start finish ∧ property finish := by
  obtain ⟨finish, performed, holds⟩ := (Option.any_eq_true _ _).mp holds
  exact ⟨finish, Run.performAll .refl performed, of_decide_eq_true holds⟩

end Execution

/-! ## Labelled traces

When the relation is functional, the labels of any two traces from one state are ordered
by the prefix relation. -/

/-- `Trace step start labels finish`: the relation `step` leads from `start` to
`finish` while emitting exactly `labels`. -/
inductive Trace (step : σ → lbl → σ → Prop) : σ → List lbl → σ → Prop
  | nil (state : σ) : Trace step state [] state
  | cons {first second last : σ} {label : lbl} {labels : List lbl} :
      step first label second →
      Trace step second labels last →
      Trace step first (label :: labels) last

/-- A relation whose next label and next state are determined by the state. -/
def Functional (step : σ → lbl → σ → Prop) : Prop :=
  ∀ state label next label' next', step state label next → step state label' next' →
      label = label' ∧ next = next'

namespace Trace

variable {step : σ → lbl → σ → Prop}

theorem append (left : Trace step first before second) (right : Trace step second after last) :
    Trace step first (before ++ after) last := by
  induction left with
  | nil state => exact right
  | cons head _ ih =>
    exact .cons head (ih right)

/-- A trace of one relation is a trace of every relation that contains it. -/
theorem mono (weaker : ∀ state label next, step state label next → step' state label next)
    (trace : Trace step first labels last) :
    Trace step' first labels last := by
  induction trace with
  | nil state => exact .nil state
  | cons head _ ih =>
    exact .cons (weaker _ _ _ head) ih

/-- A trace passes through a state after each of its beginnings. -/
theorem take (trace : Trace step first labels last) (count : Nat) :
    ∃ middle, Trace step first (labels.take count) middle := by
  induction trace generalizing count with
  | nil state => exact ⟨state, by simpa using Trace.nil state⟩
  | @cons first _ _ _ _ head _ ih =>
    cases count with
    | zero => exact ⟨first, .nil first⟩
    | succ count =>
      obtain ⟨middle, before⟩ := ih count
      exact ⟨middle, .cons head before⟩

theorem forall_mem {property : lbl → Prop}
    (holds : ∀ state label next, step state label next → property label)
    (trace : Trace step first labels last) :
    ∀ label ∈ labels, property label := by
  induction trace with
  | nil state => simp
  | cons head _ ih => exact List.forall_mem_cons.mpr ⟨holds _ _ _ head, ih⟩

theorem invariant (property : σ → Prop)
    (preserved : ∀ state label next, property state → step state label next → property next)
    (trace : Trace step first labels last) (initial : property first) :
    property last := by
  induction trace with
  | nil state => exact initial
  | cons head _ ih =>
    exact ih (preserved _ _ _ initial head)

/-- A property of the labels emitted so far and of the current state that every
step preserves holds at the end of a trace that starts with it. -/
theorem preserve (property : List lbl → σ → Prop)
    (preserved : ∀ emitted state label next, property emitted state → step state label next →
        property (emitted ++ [label]) next)
    (trace : Trace step first labels last) (initial : property emitted first) :
    property (emitted ++ labels) last := by
  induction trace generalizing emitted with
  | nil state => simpa using initial
  | cons head _ ih =>
    have next := ih (preserved emitted _ _ _ initial head)
    simpa using next

/-- Two traces of a functional relation from one state emit label sequences of
which one is a prefix of the other. -/
theorem prefix_or_prefix (functional : Functional step) (left : Trace step first labels last)
    (right : Trace step first labels' last') :
    labels <+: labels' ∨ labels' <+: labels := by
  induction left generalizing labels' with
  | nil state => exact .inl (List.nil_prefix)
  | cons head _ ih =>
    cases right with
    | nil => exact .inr (List.nil_prefix)
    | cons head' tail' =>
      obtain ⟨sameLabel, sameState⟩ := functional _ _ _ _ _ head head'
      subst sameLabel sameState
      rcases ih tail' with shorter | longer
      · exact .inl (List.cons_prefix_cons.mpr ⟨rfl, shorter⟩)
      · exact .inr (List.cons_prefix_cons.mpr ⟨rfl, longer⟩)

end Trace

/-! ## Computations that emit records and may fail

Records emitted before a failure stay emitted, as the writes of a program to a durable store
do.  `Follows` is the program logic of such computations: the emitted records are the labels
of a trace, and the returned value or the error is related to the state at its end. -/

/-- A computation that emits records of type `ω` and ends with a value of type
`α` or an error of type `ε`. -/
structure Emit (ω ε α : Type) where
  emitted : List ω
  result : Except ε α

namespace Emit

/-- Return a value and emit nothing. -/
protected def pure (value : α) : Emit ω ε α :=
  ⟨[], .ok value⟩

/-- Run a computation and, unless it fails, its continuation. -/
protected def bind (program : Emit ω ε α) (next : α → Emit ω ε β) : Emit ω ε β :=
  match program.result with
  | .ok value => ⟨program.emitted ++ (next value).emitted, (next value).result⟩
  | .error failure => ⟨program.emitted, .error failure⟩

instance : Monad (Emit ω ε) where
  pure := Emit.pure
  bind := Emit.bind

/-- Emit one record. -/
def emit (record : ω) : Emit ω ε Unit :=
  ⟨[record], .ok ()⟩

/-- A computation that emits nothing. -/
def ofExcept (result : Except ε α) : Emit ω ε α :=
  ⟨[], result⟩

section Equations

variable (value : α) (failure : ε) (record : ω) (next : α → Emit ω ε β)

theorem bind_eq_of_ok {program : Emit ω ε α} {value : α} (returned : program.result = .ok value) :
    (program >>= next) = ⟨program.emitted ++ (next value).emitted, (next value).result⟩ := by
  change Emit.bind program next = _
  rw [Emit.bind, returned]

theorem bind_eq_of_error {program : Emit ω ε α} {failure : ε}
    (failed : program.result = .error failure) :
    (program >>= next) = ⟨program.emitted, .error failure⟩ := by
  change Emit.bind program next = _
  rw [Emit.bind, failed]

end Equations

/-- The records that `program` emits lead the relation `step` from `start` to a
state that satisfies `returned` together with the returned value, or `failed`
together with the error. -/
def Follows (step : σ → ω → σ → Prop) (start : σ) (program : Emit ω ε α) (returned : α → σ → Prop)
    (failed : ε → σ → Prop) : Prop :=
  ∃ final, Trace step start program.emitted final ∧
    (∀ value, program.result = .ok value → returned value final) ∧
    (∀ failure, program.result = .error failure → failed failure final)

namespace Follows

variable {step : σ → ω → σ → Prop} {start : σ}

theorem pure {value : α} (holds : returned value start) :
    Follows step start (Pure.pure value : Emit ω ε α) returned failed := by
  refine ⟨start, .nil start, ?_, ?_⟩
  · intro value' equal
    cases equal
    exact holds
  · exact nofun

/-- Rule for a computation that emits nothing and returns. -/
theorem ofExcept_ok {result : Except ε α} (result_eq : result = .ok value)
    (rest : Follows step start (next value) returned failed) :
    Follows step start (ofExcept result >>= next) returned failed := by
  rw [result_eq]
  exact rest

/-- Rule for a computation that emits nothing and fails. -/
theorem ofExcept_error {result : Except ε α} {failure : ε} (result_eq : result = .error failure)
    (holds : failed failure start) :
    Follows step start (ofExcept result >>= next) returned failed := by
  rw [result_eq]
  refine ⟨start, .nil start, ?_, ?_⟩
  · exact nofun
  · intro failure' equal
    cases equal
    exact holds

/-- Rule for one emitted record. -/
theorem emit_bind (head : step start record second)
    (rest : Follows step second (next ()) returned failed) :
    Follows step start (emit record >>= next) returned failed := by
  obtain ⟨final, trace, onValue, onError⟩ := rest
  exact ⟨final, .cons head trace, onValue, onError⟩

/-- Rule for sequencing. -/
theorem bind {program : Emit ω ε α} {next : α → Emit ω ε β} {middle : α → σ → Prop}
    {returned : β → σ → Prop} {failed : ε → σ → Prop}
    (first : Follows step start program middle failed)
    (rest : ∀ value state, middle value state → Follows step state (next value) returned failed) :
    Follows step start (program >>= next) returned failed := by
  obtain ⟨state, trace, onValue, onError⟩ := first
  cases result : program.result with
  | ok value =>
    obtain ⟨final, tail, onValue', onError'⟩ := rest value state (onValue value result)
    rw [bind_eq_of_ok next result]
    exact ⟨final, trace.append tail, onValue', onError'⟩
  | error failure =>
    rw [bind_eq_of_error next result]
    refine ⟨state, trace, ?_, ?_⟩
    · exact nofun
    · intro failure' equal
      cases equal
      exact onError failure result

/-- Rule of consequence. -/
theorem mono (follows : Follows step start program returned failed)
    (onReturned : ∀ value state, returned value state → returned' value state)
    (onFailed : ∀ failure state, failed failure state → failed' failure state) :
    Follows step start program returned' failed' := by
  obtain ⟨final, trace, onValue, onError⟩ := follows
  exact ⟨final, trace, fun value equal => onReturned _ _ (onValue value equal),
    fun failure equal => onFailed _ _ (onError failure equal)⟩

/-- The relation of the records may be weakened. -/
theorem mono_step (follows : Follows step start program returned failed)
    (weaker : ∀ state record next, step state record next → step' state record next) :
    Follows step' start program returned failed := by
  obtain ⟨final, trace, onValue, onError⟩ := follows
  exact ⟨final, trace.mono weaker, onValue, onError⟩

end Follows

end Emit

end Library
