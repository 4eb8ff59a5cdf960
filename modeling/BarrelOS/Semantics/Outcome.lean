import Mathlib.Logic.Basic

namespace BarrelOS.Semantics

/-! How a call of a C function ends, and how calls compose. -/

/-- A call returns, panics with a message, meets an access the source gives no
meaning to, or is still running when its fuel is spent. Every case keeps the
state reached, so that effects before a panic stay observable. -/
inductive Outcome (State : Type) (Value : Type) where
  | done (value : Value) (after : State)
  | panicked (message : String) (after : State)
  | faulted (after : State)
  | running (after : State)
deriving Repr, DecidableEq

namespace Outcome

variable {State Whole Value Result : Type}

def after : Outcome State Value → State
  | .done _ after | .panicked _ after | .faulted after | .running after => after

def bind (outcome : Outcome State Value)
    (next : Value → State → Outcome State Result) : Outcome State Result :=
  match outcome with
  | .done value after => next value after
  | .panicked message after => .panicked message after
  | .faulted after => .faulted after
  | .running after => .running after

/-- Run a call on one component of a larger state. -/
def within (embed : State → Whole) : Outcome State Value → Outcome Whole Value
  | .done value after => .done value (embed after)
  | .panicked message after => .panicked message (embed after)
  | .faulted after => .faulted (embed after)
  | .running after => .running (embed after)

/-- An access to memory that may not be there. -/
def ofOption (value : Option Value) (state : State) : Outcome State Value :=
  match value with
  | some value => .done value state
  | none => .faulted state

@[simp] theorem done_bind (value : Value) (after : State)
    (next : Value → State → Outcome State Result) :
    (Outcome.done value after).bind next = next value after := rfl

theorem ofOption_not_panicked {value : Option Value} {state last : State} {message : String} :
    ofOption value state ≠ .panicked message last := by
  cases value <;> exact nofun

theorem done_unit {after last : State} : Outcome.done () after = .done () last ↔ last = after := by
  constructor
  · intro run
    cases run
    rfl
  · rintro rfl
    rfl

/-- A sequence of calls returns exactly when both of its calls do. -/
theorem bind_done {outcome : Outcome State Value}
    {next : Value → State → Outcome State Result} {result : Result} {last : State} :
    outcome.bind next = .done result last ↔
      ∃ value middle, outcome = .done value middle ∧ next value middle = .done result last := by
  cases outcome with
  | done value middle =>
      constructor
      · intro run
        exact ⟨value, middle, rfl, run⟩
      · rintro ⟨_, _, same, run⟩
        cases same
        exact run
  | _ => simp [bind]

theorem bind_panicked {outcome : Outcome State Value}
    {next : Value → State → Outcome State Result} {message : String} {last : State} :
    outcome.bind next = .panicked message last ↔
      outcome = .panicked message last ∨
        ∃ value middle, outcome = .done value middle ∧
          next value middle = .panicked message last := by
  cases outcome with
  | done value middle =>
      constructor
      · intro run
        exact .inr ⟨value, middle, rfl, run⟩
      · rintro (same | ⟨_, _, same, run⟩)
        · cases same
        · cases same
          exact run
  | _ => simp [bind]

theorem bind_unfinished {outcome : Outcome State Value} (unfinished : ∀ value middle, outcome ≠ .done value middle)
    (next : Value → State → Outcome State Result) :
    (outcome.bind next).after = outcome.after ∧ ∀ result last, outcome.bind next ≠ .done result last := by
  cases outcome with
  | done value middle => exact absurd rfl (unfinished value middle)
  | _ => exact ⟨rfl, nofun⟩

theorem within_done {embed : State → Whole} {outcome : Outcome State Value}
    {value : Value} {last : Whole} :
    outcome.within embed = .done value last ↔
      ∃ part, outcome = .done value part ∧ embed part = last := by
  cases outcome with
  | done returned part =>
      constructor
      · intro run
        cases run
        exact ⟨part, rfl, rfl⟩
      · rintro ⟨_, same, embedded⟩
        cases same
        cases embedded
        rfl
  | _ => simp [within]

theorem within_panicked {embed : State → Whole} {outcome : Outcome State Value}
    {message : String} {last : Whole} :
    outcome.within embed = .panicked message last ↔
      ∃ part, outcome = .panicked message part ∧ embed part = last := by
  cases outcome with
  | panicked text part =>
      constructor
      · intro run
        cases run
        exact ⟨part, rfl, rfl⟩
      · intro panicked
        obtain ⟨_, same, embedded⟩ := panicked
        cases same
        cases embedded
        rfl
  | _ => simp [within]

theorem within_after (embed : State → Whole) (outcome : Outcome State Value) :
    (outcome.within embed).after = embed outcome.after := by
  cases outcome <;> rfl

theorem within_bind {embed : State → Whole} {next : Value → State → Outcome State Result}
    {whole : Value → Whole → Outcome Whole Result}
    (same : ∀ value after, (next value after).within embed = whole value (embed after)) (outcome : Outcome State Value) :
    (outcome.bind next).within embed = (outcome.within embed).bind whole := by
  cases outcome with
  | done value after => exact same value after
  | _ => rfl

end Outcome

end BarrelOS.Semantics
