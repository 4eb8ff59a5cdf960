import Mathlib.Algebra.Group.Nat.Defs

namespace BarrelOS.Data

/-! Memory of bytes at 32-bit addresses, read in little-endian words. -/

abbrev Bytes := Nat → UInt8

variable {memory : Bytes} {address n : Nat}

namespace Bytes

def load8 (memory : Bytes) (address : Nat) : Nat := (memory (address % 2 ^ 32)).toNat

def load16 (memory : Bytes) (address : Nat) : Nat :=
  memory.load8 address + 2 ^ 8 * memory.load8 (address + 1)

def load32 (memory : Bytes) (address : Nat) : Nat :=
  memory.load16 address + 2 ^ 16 * memory.load16 (address + 2)

def load64 (memory : Bytes) (address : Nat) : Nat :=
  memory.load32 address + 2 ^ 32 * memory.load32 (address + 4)

/-- Strings of bytes at their addresses, and zero elsewhere. -/
def holding (strings : List (Nat × List UInt8)) : Bytes := fun address =>
  (strings.findSome? fun (start, bytes) => if start ≤ address then bytes[address - start]? else none).getD 0

theorem load8_lt : memory.load8 address < 2 ^ 8 := UInt8.toNat_lt _

theorem load32_lt : memory.load32 address < 2 ^ 32 := by
  have first := @load8_lt memory address
  have second := @load8_lt memory (address + 1)
  have third := @load8_lt memory (address + 2)
  have last := @load8_lt memory (address + 2 + 1)
  unfold load32 load16
  omega

theorem load64_eq (bound : n < 2 ^ 32) :
    memory.load64 address = n ↔ memory.load32 address = n ∧ memory.load32 (address + 4) = 0 := by
  have low := @load32_lt memory address
  unfold load64
  omega

def Holds (memory : Bytes) (start : Nat) (bytes : List UInt8) : Prop :=
  ∀ (i : Nat) (byte : UInt8), bytes[i]? = some byte → memory ((start + i) % 2 ^ 32) = byte

/-- A string of nonzero bytes lies at an address, with a zero behind it. -/
structure HoldsString (memory : Bytes) (start : Nat) (chars : List UInt8) : Prop where
  nonzero : 0 ∉ chars
  holds : ∀ (i : Nat) (char : UInt8), chars[i]? = some char → memory ((start + i) % 2 ^ 32) = char
  terminated : memory ((start + chars.length) % 2 ^ 32) = 0

section

variable {start : Nat} {byte : UInt8} {bytes other : List UInt8}

theorem holds_cons : memory.Holds start (byte :: bytes) ↔ memory.load8 start = byte.toNat ∧ memory.Holds (start + 1) bytes := by
  have first : memory.load8 start = byte.toNat ↔ memory (start % 2 ^ 32) = byte := UInt8.toNat_inj
  rw [first]
  constructor
  · intro holds
    refine ⟨holds 0 byte rfl, fun i other here => ?_⟩
    rw [Nat.add_assoc, Nat.add_comm 1]
    exact holds (i + 1) other here
  · intro holds i other here
    cases i with
    | zero =>
        cases here
        exact holds.1
    | succ i =>
        rw [Nat.add_comm i 1, ← Nat.add_assoc]
        exact holds.2 i other here

theorem holds_append :
    memory.Holds start (bytes ++ other) ↔ memory.Holds start bytes ∧ memory.Holds (start + bytes.length) other := by
  induction bytes generalizing start with
  | nil => exact (and_iff_right nofun).symm
  | cons byte bytes ih =>
      rw [List.cons_append, holds_cons, holds_cons, ih, and_assoc, Nat.add_assoc, Nat.add_comm 1, List.length_cons]

/-- Behind an address lie bytes with a property and then one without it, if there is one at all. -/
theorem holds_until {P : UInt8 → Prop} {place : Nat} (found : ¬ P (memory (place % 2 ^ 32))) (start : Nat) :
    ∃ bytes last, memory.Holds start (bytes ++ [last]) ∧ (∀ byte ∈ bytes, P byte) ∧ ¬ P last := by
  obtain ⟨distance, same⟩ : ∃ distance, (start + distance) % 2 ^ 32 = place % 2 ^ 32 :=
    ⟨(place + (2 ^ 32 - start % 2 ^ 32)) % 2 ^ 32, by omega⟩
  rw [← same] at found
  clear same
  induction distance generalizing start with
  | zero => exact ⟨[], _, holds_cons.mpr ⟨rfl, nofun⟩, nofun, found⟩
  | succ distance ih =>
      by_cases here : P (memory (start % 2 ^ 32))
      · rw [Nat.add_comm distance 1, ← Nat.add_assoc] at found
        obtain ⟨bytes, last, holds, all, stop⟩ := ih (start + 1) found
        exact ⟨_ :: bytes, last, holds_cons.mpr ⟨rfl, holds⟩, List.forall_mem_cons.mpr ⟨here, all⟩, stop⟩
      · exact ⟨[], _, holds_cons.mpr ⟨rfl, nofun⟩, nofun, here⟩

end

namespace HoldsString

variable {start : Nat} {char : UInt8} {chars other : List UInt8}

theorem unique (left : memory.HoldsString start chars) (right : memory.HoldsString start other) : chars = other := by
  have shorter : ∀ {chars other : List UInt8}, memory.HoldsString start chars → memory.HoldsString start other →
      ¬ chars.length < other.length := by
    intro chars other left right less
    have here := right.holds _ _ (List.getElem?_eq_getElem less)
    exact right.nonzero (left.terminated.symm.trans here ▸ List.getElem_mem less)
  have length : chars.length = other.length :=
    Nat.le_antisymm (Nat.le_of_not_lt (shorter right left)) (Nat.le_of_not_lt (shorter left right))
  refine List.ext_getElem length fun i inside inside' => ?_
  have here := left.holds i _ (List.getElem?_eq_getElem inside)
  exact here.symm.trans (right.holds i _ (List.getElem?_eq_getElem inside'))

theorem of_holds (holds : memory.Holds start (chars ++ [0])) (nonzero : 0 ∉ chars) : memory.HoldsString start chars where
  nonzero := nonzero
  holds := (holds_append.mp holds).1
  terminated := (holds_append.mp holds).2 0 0 rfl

theorem whole (string : memory.HoldsString start chars) : memory.Holds start (chars ++ [0]) := by
  have last : memory.Holds (start + chars.length) [0] := holds_cons.mpr ⟨congrArg UInt8.toNat string.terminated, nofun⟩
  exact holds_append.mpr ⟨string.holds, last⟩

theorem exists_of_zero {place : Nat} (zero : memory (place % 2 ^ 32) = 0) (start : Nat) :
    ∃ chars, memory.HoldsString start chars := by
  obtain ⟨chars, last, holds, nonzero, stop⟩ := @holds_until memory (fun char => char ≠ 0) place (Decidable.not_not.mpr zero) start
  rw [Decidable.not_not.mp stop] at holds
  exact ⟨chars, .of_holds holds fun member => nonzero 0 member rfl⟩

theorem head (string : memory.HoldsString start (char :: chars)) :
    memory.load8 start = char.toNat ∧ memory.load8 start ≠ 0 := by
  have here : memory.load8 start = char.toNat := congrArg UInt8.toNat (string.holds 0 char rfl)
  refine ⟨here, fun zero => string.nonzero ?_⟩
  have null : char = 0 := UInt8.toNat_inj.mp (here.symm.trans zero)
  exact null ▸ List.mem_cons_self

theorem nil (string : memory.HoldsString start []) : memory.load8 start = 0 := congrArg UInt8.toNat string.terminated

theorem suffix (string : memory.HoldsString start (other ++ chars)) :
    memory.HoldsString (start + other.length) chars where
  nonzero := fun member => string.nonzero (List.mem_append_right other member)
  holds := by
    intro i char here
    rw [Nat.add_assoc]
    refine string.holds (other.length + i) char ?_
    rw [List.getElem?_append_right (Nat.le_add_right _ _), Nat.add_sub_cancel_left, here]
  terminated := by
    rw [Nat.add_assoc, ← List.length_append]
    exact string.terminated

theorem tail (string : memory.HoldsString start (char :: chars)) : memory.HoldsString (start + 1) chars :=
  @suffix memory start chars [char] string

theorem front (string : memory.HoldsString start chars) (holds : memory.Holds start other) (nonzero : 0 ∉ other) :
    ∃ later, chars = other ++ later := by
  induction other generalizing start chars with
  | nil => exact ⟨chars, rfl⟩
  | cons char other ih =>
      obtain ⟨here, behind⟩ := holds_cons.mp holds
      obtain ⟨some_char, others⟩ := not_or.mp (mt List.mem_cons.mpr nonzero)
      cases chars with
      | nil =>
          have zero : (0 : UInt8).toNat = char.toNat := string.nil.symm.trans here
          exact absurd (UInt8.toNat_inj.mp zero) some_char
      | cons first chars =>
          have same : first = char := UInt8.toNat_inj.mp (string.head.1.symm.trans here)
          obtain ⟨later, rest⟩ := ih string.tail behind others
          exact ⟨later, by rw [same, rest, List.cons_append]⟩

theorem of_holding (nonzero : 0 ∉ chars) (inside : start + chars.length < 2 ^ 32) :
    HoldsString (.holding [(start, chars)]) start chars := by
  have byte : ∀ i ≤ chars.length, Bytes.holding [(start, chars)] ((start + i) % 2 ^ 32) = chars[i]?.getD 0 := by
    intro i within
    have behind : start ≤ start + i := Nat.le_add_right start i
    rw [Nat.mod_eq_of_lt (by omega)]
    simp only [Bytes.holding, List.findSome?_cons, List.findSome?_nil, if_pos behind, Nat.add_sub_cancel_left]
    cases chars[i]? <;> rfl
  refine ⟨nonzero, fun i char here => ?_, ?_⟩
  · rw [byte i (Nat.le_of_lt (List.getElem?_eq_some_iff.mp here).1), here]
    rfl
  · rw [byte _ (Nat.le_refl _), List.getElem?_eq_none (Nat.le_refl _)]
    rfl

end HoldsString

end Bytes

end BarrelOS.Data
