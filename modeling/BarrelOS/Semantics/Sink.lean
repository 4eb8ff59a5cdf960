import BarrelOS.Semantics.Outcome
import Mathlib.Algebra.Group.Int.Defs
import Mathlib.Data.List.Basic

namespace BarrelOS.Semantics

/-! Programs that write one item after another, behind an index which they count up -/

/-- Where items go, with the index of the next one; a write may not count the index up to the limit. -/
structure Sink (State Item : Type) where
  index : State → Int
  limit : Int
  store : Item → State → State
  index_store : ∀ item state, index (store item state) = index state + 1

namespace Sink

variable {State Item : Type}

def put (sink : Sink State Item) (item : Item) (state : State) : Outcome State Unit :=
  if sink.index state + 1 < sink.limit then .done () (sink.store item state) else .faulted state

def write (sink : Sink State Item) (text : List Item) (state : State) : State :=
  text.foldl (fun state item => sink.store item state) state

/-- With enough fuel a call writes a text and returns, or comes to the limit in it; with less
fuel it has written a part of the text. -/
structure Emits (sink : Sink State Item) (call : Nat → Outcome State Unit) (state : State) (text : List Item) : Prop where
  returns : sink.index state + text.length < sink.limit → ∃ needed, ∀ fuel ≥ needed, call fuel = .done () (sink.write text state)
  stops : sink.limit ≤ sink.index state + text.length → ∃ needed, ∀ fuel ≥ needed, ∃ front, front <+: text ∧
    sink.limit ≤ sink.index state + front.length + 1 ∧ call fuel = .faulted (sink.write front state)
  part : ∀ fuel, (sink.index state + text.length < sink.limit ∧ call fuel = .done () (sink.write text state)) ∨
    ∃ front, front <+: text ∧ (call fuel = .running (sink.write front state) ∨ call fuel = .faulted (sink.write front state))

variable {sink : Sink State Item} {call other : Nat → Outcome State Unit} {next : Nat → State → Outcome State Unit}
  {state : State} {item : Item} {text later : List Item} {n : Nat}

theorem write_append : sink.write (text ++ later) state = sink.write later (sink.write text state) := List.foldl_append

theorem index_write : sink.index (sink.write text state) = sink.index state + text.length := by
  induction text generalizing state with
  | nil => exact (Int.add_zero _).symm
  | cons item text ih =>
      have rest : sink.index (sink.write (item :: text) state) = sink.index (sink.store item state) + text.length := ih
      rw [rest, sink.index_store, List.length_cons]
      omega

namespace Emits

theorem nil (int : sink.index state < sink.limit) : Emits sink (fun _ => .done () state) state [] where
  returns := fun _ => ⟨0, fun _ _ => rfl⟩
  stops := fun full => absurd int (Int.not_lt.mpr (Int.le_trans full (Int.le_of_eq (Int.add_zero _))))
  part := fun _ => .inl ⟨(Int.add_zero _).symm ▸ int, rfl⟩

theorem put : Emits sink (fun _ => sink.put item state) state [item] where
  returns := fun room => ⟨0, fun _ _ => if_pos room⟩
  stops := by
    refine fun full => ⟨0, fun _ _ => ⟨[], List.nil_prefix, ?_, if_neg (Int.not_lt.mpr full)⟩⟩
    exact Int.le_trans full (Int.add_le_add_right (Int.le_of_eq (Int.add_zero _).symm) 1)
  part := by
    intro fuel
    by_cases room : sink.index state + 1 < sink.limit
    · exact .inl ⟨room, if_pos room⟩
    · exact .inr ⟨[], List.nil_prefix, .inr (if_neg room)⟩

/-- Two calls one after the other write one text after the other. -/
theorem bind (first : Emits sink call state text) (second : sink.index (sink.write text state) < sink.limit →
      Emits sink (fun fuel => next fuel (sink.write text state)) (sink.write text state) later) :
    Emits sink (fun fuel => (call fuel).bind fun _ state => next fuel state) state (text ++ later) := by
  have place : sink.index (sink.write text state) = sink.index state + text.length := index_write
  have behind : sink.index (sink.write text state) < sink.limit → ∀ front : List Item, sink.index state + (text ++ front).length =
      sink.index (sink.write text state) + front.length := fun _ front => by
    rw [place, List.length_append]
    omega
  refine ⟨fun room => ?_, fun full => ?_, fun fuel => ?_⟩
  · have inside : sink.index (sink.write text state) < sink.limit := by
      rw [List.length_append] at room
      omega
    obtain ⟨needed, runs⟩ := first.returns (place ▸ inside)
    obtain ⟨further, finishes⟩ := (second inside).returns (behind inside later ▸ room)
    refine ⟨max needed further, fun fuel enough => ?_⟩
    rw [runs fuel (by omega), Outcome.done_bind, write_append]
    exact finishes fuel (by omega)
  · by_cases inside : sink.index (sink.write text state) < sink.limit
    · obtain ⟨needed, runs⟩ := first.returns (place ▸ inside)
      obtain ⟨further, halts⟩ := (second inside).stops (behind inside later ▸ full)
      refine ⟨max needed further, fun fuel enough => ?_⟩
      obtain ⟨front, part, reached, halted⟩ := halts fuel (by omega)
      refine ⟨text ++ front, (List.prefix_append_right_inj text).mpr part, behind inside front ▸ reached, ?_⟩
      rw [runs fuel (by omega), Outcome.done_bind, write_append]
      exact halted
    · obtain ⟨needed, halts⟩ := first.stops (place ▸ Int.not_lt.mp inside)
      refine ⟨needed, fun fuel enough => ?_⟩
      obtain ⟨front, part, reached, halted⟩ := halts fuel enough
      exact ⟨front, part.trans (List.prefix_append _ _), reached, by rw [halted]; rfl⟩
  · rcases first.part fuel with ⟨inside, run⟩ | ⟨front, part, run | run⟩
    · rw [run, Outcome.done_bind]
      have inside := place ▸ inside
      rcases (second inside).part fuel with ⟨room, run⟩ | ⟨front, part, run⟩
      · exact .inl ⟨behind inside later ▸ room, write_append ▸ run⟩
      · exact .inr ⟨text ++ front, (List.prefix_append_right_inj text).mpr part, write_append ▸ run⟩
    · exact .inr ⟨front, part.trans (List.prefix_append _ _), .inl (by rw [run]; rfl)⟩
    · exact .inr ⟨front, part.trans (List.prefix_append _ _), .inr (by rw [run]; rfl)⟩

/-- A call that spends some fuel before it writes. -/
theorem delay (early : ∀ fuel < n, call fuel = .running state) (late : ∀ fuel, call (fuel + n) = other fuel)
    (emits : Emits sink other state text) : Emits sink call state text := by
  have spent : ∀ fuel ≥ n, call fuel = other (fuel - n) := fun fuel enough => by rw [← late, Nat.sub_add_cancel enough]
  refine ⟨fun room => ?_, fun full => ?_, fun fuel => ?_⟩
  · obtain ⟨needed, runs⟩ := emits.returns room
    exact ⟨needed + n, fun fuel enough => (spent fuel (by omega)).trans (runs _ (by omega))⟩
  · obtain ⟨needed, halts⟩ := emits.stops full
    refine ⟨needed + n, fun fuel enough => ?_⟩
    rw [spent fuel (by omega)]
    exact halts _ (by omega)
  · by_cases enough : n ≤ fuel
    · rw [spent fuel enough]
      exact emits.part _
    · exact .inr ⟨[], List.nil_prefix, .inl (early fuel (Nat.lt_of_not_le enough))⟩

theorem shift (emits : Emits sink call state text) : Emits sink (fun fuel => call (fuel + n)) state text := by
  refine ⟨fun room => ?_, fun full => ?_, fun fuel => emits.part _⟩
  · obtain ⟨needed, runs⟩ := emits.returns room
    exact ⟨needed, fun fuel enough => runs _ (Nat.le_add_right_of_le enough)⟩
  · obtain ⟨needed, halts⟩ := emits.stops full
    exact ⟨needed, fun fuel enough => halts _ (Nat.le_add_right_of_le enough)⟩

/-- A call that returns has found room for its text. -/
theorem room {fuel : Nat} {after : State} (emits : Emits sink call state text) (run : call fuel = .done () after) :
    sink.index state + text.length < sink.limit ∧ after = sink.write text state := by
  rcases emits.part fuel with ⟨room, same⟩ | ⟨_, _, same | same⟩
  · exact ⟨room, Outcome.done_unit.mp (same.symm.trans run)⟩
  · cases same.symm.trans run
  · cases same.symm.trans run

end Emits

end Sink

end BarrelOS.Semantics
