import Mathlib.Data.List.Basic

namespace BarrelOS.Data

/-- The bytes that a function may read, by their address. -/
abbrev Text := Nat → Option UInt8

namespace Text

variable {text : Text} {start : Nat} {char : UInt8} {chars other : List UInt8}

/-- A string, its terminator, and nothing else. -/
def only (start : Nat) (chars : List UInt8) : Text := fun address =>
  if start ≤ address then (chars ++ [0])[address - start]? else none

/-- A string of nonzero bytes and its terminator may be read at an address. -/
structure Holds (text : Text) (start : Nat) (chars : List UInt8) : Prop where
  nonzero : 0 ∉ chars
  readable : ∀ (i : Nat) (char : UInt8), (chars ++ [0])[i]? = some char → text (start + i) = some char

theorem only_holds (start : Nat) (nonzero : 0 ∉ chars) : (only start chars).Holds start chars where
  nonzero := nonzero
  readable := by
    intro i char here
    rw [only, if_pos (Nat.le_add_right _ _), Nat.add_sub_cancel_left, here]

theorem only_behind : only start chars (start + chars.length + 1) = none := by
  rw [only, if_pos (by omega)]
  refine List.getElem?_eq_none ?_
  rw [List.length_append, List.length_singleton]
  omega

namespace Holds

theorem head (holds : text.Holds start (char :: chars)) : text start = some char ∧ char ≠ 0 :=
  ⟨holds.readable 0 char rfl, fun zero => holds.nonzero (zero ▸ List.mem_cons_self)⟩

theorem nil (holds : text.Holds start []) : text start = some 0 := holds.readable 0 0 rfl

theorem suffix (holds : text.Holds start (other ++ chars)) : text.Holds (start + other.length) chars where
  nonzero := fun member => holds.nonzero (List.mem_append_right other member)
  readable := by
    intro i char here
    rw [Nat.add_assoc]
    refine holds.readable (other.length + i) char ?_
    rw [List.append_assoc, List.getElem?_append_right (Nat.le_add_right _ _), Nat.add_sub_cancel_left, here]

theorem tail (holds : text.Holds start (char :: chars)) : text.Holds (start + 1) chars :=
  @suffix text start chars [char] holds

theorem first (holds : text.Holds start chars) : text start = some (chars.head?.getD 0) := by
  cases chars with
  | nil => exact holds.nil
  | cons char rest => exact holds.head.1

end Holds

/-- A string that may be read at an address, behind whose terminator nothing may. -/
structure Alone (text : Text) (start : Nat) (chars : List UInt8) : Prop where
  holds : text.Holds start chars
  unreadable : text (start + chars.length + 1) = none

namespace Alone

theorem only (start : Nat) (nonzero : 0 ∉ chars) : (Text.only start chars).Alone start chars :=
  ⟨only_holds start nonzero, only_behind⟩

theorem suffix (alone : text.Alone start (other ++ chars)) : text.Alone (start + other.length) chars where
  holds := alone.holds.suffix
  unreadable := by
    rw [Nat.add_assoc start, ← List.length_append]
    exact alone.unreadable

theorem tail (alone : text.Alone start (char :: chars)) : text.Alone (start + 1) chars :=
  @suffix text start chars [char] alone

end Alone

end Text

end BarrelOS.Data
