import Mathlib.Data.Fintype.Pigeonhole
import Mathlib.Data.Set.Finite.Basic
import Mathlib.Logic.Relation

namespace BarrelOS.Data

/-! The course of a loop that goes on with the next state as long as it is inside. -/

variable {State : Type} {inside : State → Prop} {next : State → State} {state later : State} {turns : Nat}

/-- One turn of the loop. -/
def LoopStep (inside : State → Prop) (next : State → State) (before after : State) : Prop :=
  inside before ∧ after = next before

/-- The loop ends when it starts in a state. -/
def LoopEnds (inside : State → Prop) (next : State → State) (state : State) : Prop :=
  ∃ turns : Nat, ¬ inside (next^[turns] state)

theorem LoopEnds.step (ends : LoopEnds inside next state) (turn : LoopStep inside next state later) :
    LoopEnds inside next later := by
  obtain ⟨turns, outside⟩ := ends
  obtain ⟨here, same⟩ := turn
  subst same
  cases turns with
  | zero => exact absurd here outside
  | succ turns => exact ⟨turns, outside⟩

theorem LoopEnds.reaches (ends : LoopEnds inside next state)
    (turns : Relation.ReflTransGen (LoopStep inside next) state later) : LoopEnds inside next later := by
  induction turns with
  | refl => exact ends
  | tail _ turn ih => exact ih.step turn

end BarrelOS.Data
