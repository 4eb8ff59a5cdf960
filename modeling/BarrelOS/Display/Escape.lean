import BarrelOS.Lib.Libc
import BarrelOS.Semantics.Outcome

namespace BarrelOS.Display

open BarrelOS.Data BarrelOS.Semantics BarrelOS.Lib

/-! What `console_write` and `vga_puts` have in common: the parser of `ESC [ .. m`. -/

def esc : UInt8 := 0x1B

theorem esc_ne_zero : esc ≠ 0 := by decide

/-- `*str == '\033' && *(str + 1) == '['`. -/
def isEscape (text : Text) (str : Nat) : Option Bool := do
  if (← text str) = esc then return (← text (str + 1)) = '['.toUInt8
  return false

variable {State : Type}

/-- `while (*str != 'm') { buf[num] = *str++; num++; }`, with what `char buf[4]` holds so far. -/
def paramLoop (text : Text) : Nat → Nat → List UInt8 → State → Outcome State (List UInt8 × Nat)
  | 0, _, _, state => .running state
  | fuel + 1, str, buf, state =>
      (Outcome.ofOption (text str) state).bind fun char state =>
        if char ≠ 'm'.toUInt8 then
          if buf.length < 4 then paramLoop text fuel (str + 1) (buf ++ [char]) state else .faulted state
        else .done (buf, str) state

/-- The code of the sequence whose parameters begin at `str`, and where it ends. -/
def escapeCode (fuel : Nat) (text : Text) (str : Nat) (state : State) : Outcome State (Int × Nat) :=
  (paramLoop text fuel str [] state).bind fun (buf, str) state =>
    (Outcome.ofOption (atoi 0 (buf ++ List.replicate (4 - buf.length) 0)) state).bind fun code state =>
      .done (code, str + 1) state

/-- The code of at most three parameters. -/
def codeOf (params : List UInt8) : Int := (atoi 0 (params ++ List.replicate (4 - params.length) 0)).getD 0

variable {text : Text} {str fuel : Nat} {state : State} {char : UInt8} {rest params buf : List UInt8} {acum : Int}

theorem isEscape_of_holds (holds : text.Holds str (char :: rest)) :
    isEscape text str = some (decide (char = esc ∧ rest.head? = some '['.toUInt8)) := by
  have next : text (str + 1) = some (rest.head?.getD 0) := holds.tail.first
  by_cases escape : char = esc
  · cases rest with
    | nil =>
        simp [isEscape, holds.head.1, escape, next]
        decide
    | cons bracket rest => simp [isEscape, holds.head.1, escape, next]
  · simp [isEscape, holds.head.1, escape]

theorem paramLoop_params (holds : text.Holds str (params ++ 'm'.toUInt8 :: rest)) (inside : 'm'.toUInt8 ∉ params)
    (short : buf.length + params.length ≤ 4) (enough : params.length < fuel) :
    paramLoop text fuel str buf state = .done (buf ++ params, str + params.length) state := by
  induction params generalizing fuel str buf with
  | nil =>
      cases fuel with
      | zero => cases enough
      | succ fuel =>
          rw [paramLoop, holds.head.1, Outcome.ofOption, Outcome.done_bind, if_neg (not_not.mpr rfl), List.append_nil,
            List.length_nil, Nat.add_zero]
  | cons param params ih =>
      cases fuel with
      | zero => cases enough
      | succ fuel =>
          obtain ⟨other, later⟩ := not_or.mp (mt List.mem_cons.mpr inside)
          rw [List.length_cons] at short
          have room : buf.length < 4 := by omega
          have shorter : (buf ++ [param]).length + params.length ≤ 4 := by
            rw [List.length_append, List.length_singleton]
            omega
          rw [paramLoop, holds.head.1, Outcome.ofOption, Outcome.done_bind, if_pos (Ne.symm other), if_pos room,
            ih holds.tail later shorter (Nat.lt_of_succ_lt_succ enough), List.append_assoc, List.singleton_append,
            List.length_cons, Nat.add_assoc, Nat.add_comm 1]

/-- Nine digits are an `int` in any case. -/
theorem atoi_terminated {places : Nat} (low : 0 ≤ acum) (small : acum < (10 ^ places : Nat)) (few : places + params.length ≤ 9) :
    ∃ code, atoi acum (params ++ 0 :: rest) = some code := by
  induction params generalizing acum places with
  | nil => exact ⟨acum, if_neg (by decide)⟩
  | cons param params ih =>
      rw [List.length_cons] at few
      rw [List.cons_append, atoi]
      split
      · rename_i digit
        have first : 48 ≤ param.toNat := digit.1
        have last : param.toNat ≤ 57 := digit.2
        have power : 10 ^ (places + 1) ≤ 10 ^ 9 := Nat.pow_le_pow_right (by decide) (by omega)
        have next : acum * 10 + (param.toNat - 48) < (10 ^ (places + 1) : Nat) := by
          rw [Nat.pow_succ]
          omega
        simp only [checkInt_eq (show -2 ^ 31 ≤ acum * 10 by omega) (by omega), Option.bind_eq_bind, Option.bind_some,
          checkInt_eq (show -2 ^ 31 ≤ acum * 10 + (param.toNat - 48) by omega) (by omega)]
        exact ih (by omega) next (by omega)
      · exact ⟨acum, rfl⟩

theorem escapeCode_params (holds : text.Holds str (params ++ 'm'.toUInt8 :: rest)) (inside : 'm'.toUInt8 ∉ params)
    (short : params.length ≤ 3) (enough : params.length < fuel) :
    escapeCode fuel text str state = .done (codeOf params, str + params.length + 1) state := by
  have terminated : List.replicate (4 - params.length) (0 : UInt8) = 0 :: List.replicate (3 - params.length) 0 := by
    rw [← List.replicate_succ]
    congr 1
    omega
  obtain ⟨code, same⟩ : ∃ code, atoi 0 (params ++ List.replicate (4 - params.length) 0) = some code := by
    rw [terminated]
    exact @atoi_terminated _ _ _ 0 (Int.le_refl 0) (by decide) (by omega)
  have fits : ([] : List UInt8).length + params.length ≤ 4 := by
    rw [List.length_nil]
    omega
  rw [escapeCode, paramLoop_params holds inside fits enough, Outcome.done_bind, List.nil_append, codeOf, same]
  simp only [same]
  rfl

/-- A piece of a string: a byte, or a sequence with its parameters. -/
inductive Token where
  | byte (char : UInt8)
  | sequence (params : List UInt8)
deriving DecidableEq

def Token.bytes : Token → List UInt8
  | byte char => [char]
  | sequence params => esc :: '['.toUInt8 :: params ++ ['m'.toUInt8]

theorem length_sequence : ((Token.sequence params).bytes ++ rest).length = params.length + rest.length + 3 := by
  simp only [Token.bytes, List.length_append, List.length_cons, List.length_nil]
  omega

section

variable (holds : text.Holds str ((Token.sequence params).bytes ++ rest))
include holds

theorem holds_params : text.Holds (str + 2) (params ++ 'm'.toUInt8 :: rest) := by
  rw [Token.bytes, List.cons_append, List.cons_append, List.append_assoc, List.singleton_append] at holds
  exact holds.tail.tail

theorem holds_behind : text.Holds (str + 2 + params.length + 1) rest := (holds_params holds).suffix.tail

theorem esc_at : text str = some esc := holds.head.1

theorem isEscape_sequence : isEscape text str = some true := isEscape_of_holds holds

end

/-- The tokens of a string in which every `ESC [` is closed after at most three bytes. -/
inductive Closed : List Token → List UInt8 → Prop
  | nil : Closed [] []
  | byte {char : UInt8} {tokens : List Token} {rest : List UInt8} (plain : ¬ (char = esc ∧ rest.head? = some '['.toUInt8))
      (later : Closed tokens rest) : Closed (.byte char :: tokens) (char :: rest)
  | sequence {params : List UInt8} {tokens : List Token} {rest : List UInt8} (short : params.length ≤ 3)
      (inside : 'm'.toUInt8 ∉ params) (later : Closed tokens rest) :
      Closed (.sequence params :: tokens) ((Token.sequence params).bytes ++ rest)

end BarrelOS.Display
