import BarrelOS.Data.Served
import BarrelOS.Lib.Writes

namespace BarrelOS.Lib

open BarrelOS.Data BarrelOS.Semantics

/-! `sprintf` piece by piece -/

def lead (zeroPadding : Bool) (digits : List UInt8) : List UInt8 :=
  '%'.toUInt8 :: ((if zeroPadding then ['0'.toUInt8] else []) ++ digits)

theorem bytes_directive (zeroPadding : Bool) (digits : List UInt8) (letter : UInt8) :
    (Piece.directive zeroPadding digits letter).bytes = lead zeroPadding digits ++ [letter] := rfl

namespace Piece

/-- What a piece writes, with the arguments in front of it and behind it. -/
inductive Yields (memory : Bytes) : Piece → Stream' UInt32 → Stream' UInt32 → List UInt8 → Prop
  | literal {char : UInt8} {args : Stream' UInt32} : Yields memory (.literal char) args args [char]
  | number {zeroPadding : Bool} {digits : List UInt8} {args : Stream' UInt32} :
      Yields memory (.directive zeroPadding digits 'd'.toUInt8) args args.tail
        (numberText 10 args.head.toNat (value digits) zeroPadding)
  | hex {zeroPadding : Bool} {digits : List UInt8} {args : Stream' UInt32} :
      Yields memory (.directive zeroPadding digits 'x'.toUInt8) args args.tail (hexText args.head.toNat)
  | string {zeroPadding : Bool} {digits chars : List UInt8} {args : Stream' UInt32} (present : args.head ≠ 0)
      (string : memory.HoldsString args.head.toNat chars) :
      Yields memory (.directive zeroPadding digits 's'.toUInt8) args args.tail chars
  | null {zeroPadding : Bool} {digits : List UInt8} {args : Stream' UInt32} (absent : args.head = 0) :
      Yields memory (.directive zeroPadding digits 's'.toUInt8) args args.tail nullText
  | char {zeroPadding : Bool} {digits : List UInt8} {args : Stream' UInt32} :
      Yields memory (.directive zeroPadding digits 'c'.toUInt8) args args.tail [args.head.toUInt8]
  | other {zeroPadding : Bool} {digits : List UInt8} {letter : UInt8} {args : Stream' UInt32}
      (unknown : letter ∉ ['d'.toUInt8, 'x'.toUInt8, 's'.toUInt8, 'c'.toUInt8]) :
      Yields memory (.directive zeroPadding digits letter) args args []

/-- The number of bytes in front of its last one. -/
def front : Piece → Nat
  | literal _ => 0
  | directive zeroPadding digits _ => (lead zeroPadding digits).length

theorem length_bytes (piece : Piece) : piece.bytes.length = piece.front + 1 := by
  cases piece with
  | literal => rfl
  | directive zeroPadding digits letter => rw [bytes_directive, List.length_append, List.length_singleton, front]

end Piece

/-- A number of bytes on, with these arguments left and a text written. -/
def Formatting.go (n : Nat) (args : Stream' UInt32) (text : List UInt8) (state : Formatting) : Formatting where
  fmt := state.fmt + n
  args
  written := state.written ++ text

/-- With enough fuel a call writes a text and returns, or comes to the greatest `int` in it; with
less fuel it has written a part of the text. -/
structure Finishes (call : Nat → Outcome Formatting Unit) (written text : List UInt8) (after : Formatting) : Prop where
  returns : written.length + text.length < 2 ^ 31 → ∃ needed, ∀ fuel ≥ needed, call fuel = .done () after
  stops : 2 ^ 31 ≤ written.length + text.length → ∃ needed, ∀ fuel ≥ needed, ∃ last front, call fuel = .faulted last ∧
    last.written = written ++ front ∧ 2 ^ 31 ≤ last.written.length + 1
  part : ∀ fuel, (written.length + text.length < 2 ^ 31 ∧ call fuel = .done () after) ∨
    ∃ last front, (call fuel = .running last ∨ call fuel = .faulted last) ∧ last.written = written ++ front ∧ front <+: text

variable {memory : Bytes} {state moved : Formatting} {piece : Piece} {pieces : List Piece} {args rest : Stream' UInt32}
  {chars digits out text : List UInt8} {char letter : UInt8} {zeroPadding : Bool} {fuel start str fmt place : Nat}

theorem go_skip : (state.go piece.front rest text).skip 1 = state.go piece.bytes.length rest text := by
  rw [Formatting.go, Formatting.go, Formatting.skip, Piece.length_bytes, Nat.add_assoc]

theorem Formatting.sink_write : Formatting.sink.write text state = state.go 0 state.args text := by
  induction text generalizing state with
  | nil => rw [Formatting.go, List.append_nil]; rfl
  | cons char text ih =>
      have rest : Formatting.sink.write (char :: text) state =
          Formatting.sink.write text { state with written := state.written ++ [char] } := rfl
      rw [rest, ih, Formatting.go, List.append_assoc]
      rfl

/-! One turn -/

theorem Finishes.of_emits {call : Nat → Outcome Formatting Unit} (emits : Formatting.sink.Emits call moved text)
    (same : moved.written = state.written) : Finishes call state.written text (moved.go 0 moved.args text) := by
  have index : Formatting.sink.index moved = state.written.length := by rw [← same]; rfl
  have limit : Formatting.sink.limit = 2 ^ 31 := rfl
  obtain ⟨returns, stops, part⟩ := emits
  simp only [Formatting.sink_write, index, limit] at returns stops part
  refine ⟨fun room => returns (by exact_mod_cast room), fun full => ?_, fun fuel => ?_⟩
  · obtain ⟨needed, halts⟩ := stops (by exact_mod_cast full)
    refine ⟨needed, fun fuel enough => ?_⟩
    obtain ⟨front, _, reached, run⟩ := halts fuel enough
    refine ⟨_, front, run, by rw [Formatting.go, same], ?_⟩
    rw [Formatting.go, same, List.length_append]
    omega
  · rcases part fuel with ⟨room, run⟩ | ⟨front, part, run⟩
    · exact .inl ⟨by exact_mod_cast room, run⟩
    · exact .inr ⟨_, front, run, by rw [Formatting.go, same], part⟩

theorem valueFrom_ge (digits : List UInt8) (start : Nat) : start ≤ valueFrom start digits := by
  induction digits generalizing start with
  | nil => exact Nat.le_refl start
  | cons digit digits ih =>
      have rest : start * 10 + (digit.toNat - '0'.toNat) ≤ valueFrom start (digit :: digits) := ih _
      omega

theorem widthStep_eq (digit : isDigit letter.toNat) : widthStep start letter.toNat =
    if start * 10 + (letter.toNat - '0'.toNat) < 2 ^ 31 then some ((start * 10 + (letter.toNat - '0'.toNat) : Nat) : Int)
    else none := by
  have first : '0'.toNat ≤ letter.toNat := digit.1
  have sum : (start : Int) * 10 + (letter.toNat - '0'.toNat) = (start * 10 + (letter.toNat - '0'.toNat) : Nat) := by omega
  by_cases fits : start * 10 + (letter.toNat - '0'.toNat) < 2 ^ 31
  · rw [widthStep, checkInt_eq (by omega) (by omega), Option.bind_eq_bind, Option.bind_some, sum, checkInt_eq (by omega) (by omega),
      if_pos fits]
  · rw [if_neg fits]
    by_cases shifted : (start : Int) * 10 < 2 ^ 31
    · rw [widthStep, checkInt_eq (by omega) shifted, Option.bind_eq_bind, Option.bind_some, sum, checkInt, if_neg (by omega)]
    · rw [widthStep, checkInt, if_neg (by omega)]
      rfl

/-- The loop over the digits of a width returns if they denote an `int` and there is fuel for them. -/
theorem widthLoop_digits (holds : memory.Holds state.fmt (digits ++ [letter])) (all : ∀ digit ∈ digits, isDigit digit.toNat)
    (stop : ¬ isDigit letter.toNat) (int : start < 2 ^ 31) :
    ((valueFrom start digits < 2 ^ 31 ∧ digits.length < fuel) ∧
      widthLoop memory fuel start state = .done (valueFrom start digits : Nat) (state.skip digits.length)) ∨
    ¬ (valueFrom start digits < 2 ^ 31 ∧ digits.length < fuel) ∧ ∃ last, last.written = state.written ∧
      (widthLoop memory fuel start state = .running last ∨ widthLoop memory fuel start state = .faulted last) := by
  induction digits generalizing fuel start state with
  | nil =>
      cases fuel with
      | zero => exact .inr ⟨fun fits => absurd fits.2 (Nat.lt_irrefl _), state, rfl, .inl rfl⟩
      | succ fuel =>
          refine .inl ⟨⟨int, Nat.succ_pos fuel⟩, ?_⟩
          rw [widthLoop, (Bytes.holds_cons.mp holds).1, if_neg stop]
          rfl
  | cons digit digits ih =>
      cases fuel with
      | zero => exact .inr ⟨fun fits => absurd fits.2 (Nat.not_lt_zero _), state, rfl, .inl rfl⟩
      | succ fuel =>
          obtain ⟨head, tail⟩ := Bytes.holds_cons.mp holds
          obtain ⟨here, others⟩ := List.forall_mem_cons.mp all
          rw [widthLoop, head, if_pos here, widthStep_eq here]
          by_cases next : start * 10 + (digit.toNat - '0'.toNat) < 2 ^ 31
          · have rest : memory.Holds (state.skip 1).fmt (digits ++ [letter]) := tail
            have place : (state.skip 1).skip digits.length = state.skip (digit :: digits).length := by
              rw [Formatting.skip, Formatting.skip, Formatting.skip, List.length_cons, Nat.add_assoc, Nat.add_comm 1]
            rw [if_pos next, Outcome.ofOption, Outcome.done_bind]
            rcases @ih (state.skip 1) fuel _ rest others next with ⟨fits, run⟩ | ⟨unfit, stops⟩
            · exact .inl ⟨⟨fits.1, Nat.succ_lt_succ fits.2⟩, place ▸ run⟩
            · exact .inr ⟨fun fits => unfit ⟨fits.1, Nat.lt_of_succ_lt_succ fits.2⟩, stops⟩
          · refine .inr ⟨fun fits => next ?_, state, rfl, .inr ?_⟩
            · exact Nat.lt_of_le_of_lt (valueFrom_ge digits _) fits.1
            · rw [if_neg next]
              rfl

theorem sprintfTurn_literal (holds : memory.Holds state.fmt [char]) (plain : char ≠ '%'.toUInt8) :
    sprintfTurn fuel memory state = Formatting.sink.put char state := by
  have here : memory.load8 state.fmt = char.toNat := (Bytes.holds_cons.mp holds).1
  have other : ¬ memory.load8 state.fmt = '%'.toNat := by
    rw [here]
    exact fun same => plain (UInt8.toNat_inj.mp same)
  rw [sprintfTurn, if_neg other, here, UInt8.ofNat_toNat]

section

variable (holds : memory.Holds state.fmt (lead zeroPadding digits ++ [letter]))
include holds

theorem letter_at : memory.load8 (state.skip (lead zeroPadding digits).length).fmt = letter.toNat :=
  (Bytes.holds_cons.mp (Bytes.holds_append.mp holds).2).1

theorem flag_at (wellFormed : (Piece.directive zeroPadding digits letter).WellFormed) :
    (memory.load8 (state.skip 1).fmt = '0'.toNat ↔ zeroPadding = true) ∧
      memory.Holds (state.skip (if zeroPadding then 2 else 1)).fmt (digits ++ [letter]) := by
  obtain ⟨_, stop, unflagged⟩ := wellFormed
  obtain ⟨_, behind⟩ := Bytes.holds_cons.mp holds
  cases zeroPadding with
  | true =>
      obtain ⟨zero, tail⟩ := Bytes.holds_cons.mp behind
      exact ⟨iff_of_true zero rfl, tail⟩
  | false =>
      have width : memory.Holds (state.skip 1).fmt (digits ++ [letter]) := behind
      refine ⟨iff_of_false (fun zero => ?_) Bool.false_ne_true, width⟩
      cases digits with
      | nil =>
          rw [(Bytes.holds_cons.mp width).1] at zero
          exact stop (zero ▸ ⟨Nat.le_refl _, by decide⟩)
      | cons digit rest =>
          rw [(Bytes.holds_cons.mp width).1] at zero
          exact unflagged rfl (congrArg some (UInt8.toNat_inj.mp zero))

theorem sprintfTurn_flag (wellFormed : (Piece.directive zeroPadding digits letter).WellFormed) :
    sprintfTurn fuel memory state = (widthLoop memory fuel 0 (state.skip (if zeroPadding then 2 else 1))).bind
      fun width state => directive fuel memory width zeroPadding state := by
  have percent : memory.load8 state.fmt = '%'.toNat := (Bytes.holds_cons.mp holds).1
  have flag := (flag_at holds wellFormed).1
  rw [sprintfTurn, if_pos percent]
  cases zeroPadding with
  | true =>
      simp only [flag.mpr rfl, if_true, decide_true]
      rfl
  | false =>
      have plain := mt flag.mp Bool.false_ne_true
      simp only [plain, if_false, decide_false]
      rfl

/-- A turn comes to the letter of a directive if the width is an `int` and there is fuel for its digits. -/
theorem sprintfTurn_lead (wellFormed : (Piece.directive zeroPadding digits letter).WellFormed) (fuel : Nat) :
    ((value digits < 2 ^ 31 ∧ digits.length < fuel) ∧ sprintfTurn fuel memory state =
      directive fuel memory (value digits) zeroPadding (state.skip (lead zeroPadding digits).length)) ∨
    ¬ (value digits < 2 ^ 31 ∧ digits.length < fuel) ∧ ∃ last, last.written = state.written ∧
      (sprintfTurn fuel memory state = .running last ∨ sprintfTurn fuel memory state = .faulted last) := by
  have width := (flag_at holds wellFormed).2
  have place : (state.skip (if zeroPadding then 2 else 1)).skip digits.length =
      state.skip (lead zeroPadding digits).length := by
    simp only [Formatting.skip, lead, List.length_cons, List.length_append]
    congr 1
    cases zeroPadding <;> simp <;> omega
  rw [sprintfTurn_flag holds wellFormed]
  rcases @widthLoop_digits _ _ _ _ fuel 0 width wellFormed.1 wellFormed.2.1 (by decide) with ⟨fits, run⟩ | ⟨unfit, last, same, run | run⟩
  · refine .inl ⟨fits, ?_⟩
    rw [← place, ← Nat.cast_zero, run, Outcome.done_bind]
    rfl
  · refine .inr ⟨unfit, last, same, .inl ?_⟩
    rw [← Nat.cast_zero, run]
    rfl
  · refine .inr ⟨unfit, last, same, .inr ?_⟩
    rw [← Nat.cast_zero, run]
    rfl

end

theorem directive_letter {width : Int} (here : memory.load8 state.fmt = letter.toNat) :
    directive fuel memory width zeroPadding state =
      if letter = 'd'.toUInt8 then parseNum Formatting.sink fuel state.args.head.toNat 10 width zeroPadding state.vaArg
      else if letter = 'x'.toUInt8 then parseHex Formatting.sink state.args.head.toNat state.vaArg
      else if letter = 's'.toUInt8 then parseString Formatting.sink fuel memory state.args.head.toNat state.vaArg
      else if letter = 'c'.toUInt8 then Formatting.sink.put state.args.head.toUInt8 state.vaArg
      else .done () state := by
  have code : ∀ char : UInt8, memory.load8 state.fmt = char.toNat ↔ letter = char := fun char => by
    rw [here, UInt8.toNat_inj]
  unfold directive
  exact if_congr (code 'd'.toUInt8) rfl (if_congr (code 'x'.toUInt8) rfl
    (if_congr (code 's'.toUInt8) rfl (if_congr (code 'c'.toUInt8) rfl rfl)))

theorem directive_emits (here : memory.load8 state.fmt = letter.toNat)
    (yields : Piece.Yields memory (.directive zeroPadding digits letter) state.args rest text) (int : state.written.length < 2 ^ 31) :
    Formatting.sink.Emits (fun fuel => directive fuel memory (value digits) zeroPadding state) { state with args := rest } text := by
  have room : ∀ args, Formatting.sink.index { state with args } < Formatting.sink.limit := fun _ => by
    change (state.written.length : Int) < 2 ^ 31
    omega
  have letters := fun fuel => @directive_letter memory state letter zeroPadding fuel (value digits) here
  cases yields with
  | number =>
      have few : (Nat.digits 10 state.args.head.toNat).length ≤ 32 := digits_length_le (by decide) (UInt32.toNat_lt _)
      have run := fun fuel => (letters fuel).trans (if_pos rfl)
      simp only [run]
      exact parseNum_emits (by decide) few (by omega) (room _)
  | hex =>
      have run := fun fuel => (letters fuel).trans ((if_neg (by decide)).trans (if_pos rfl))
      simp only [run]
      exact hexLoop_emits (room _)
  | string present string =>
      have run := fun fuel => (letters fuel).trans ((if_neg (by decide)).trans ((if_neg (by decide)).trans (if_pos rfl)))
      have pointer : state.args.head.toNat ≠ 0 := fun zero => present (UInt32.toNat_inj.mp zero)
      simp only [run, parseString, if_neg pointer]
      exact stringLoop_emits string (room _)
  | null absent =>
      have run := fun fuel => (letters fuel).trans ((if_neg (by decide)).trans ((if_neg (by decide)).trans (if_pos rfl)))
      simp only [run, absent]
      exact parseString_null
  | char =>
      have run := fun fuel => (letters fuel).trans ((if_neg (by decide)).trans ((if_neg (by decide)).trans
        ((if_neg (by decide)).trans (if_pos rfl))))
      simp only [run]
      exact .put
  | other unknown =>
      simp only [List.mem_cons, not_or] at unknown
      simp only [letters, if_neg unknown.1, if_neg unknown.2.1, if_neg unknown.2.2.1, if_neg unknown.2.2.2.1]
      exact .nil (room _)

section

variable (wellFormed : piece.WellFormed) (holds : memory.Holds state.fmt piece.bytes)
include wellFormed holds

/-- A turn over a directive finishes if its letter does. -/
theorem sprintfTurn_directive {after : Formatting} (same : piece = .directive zeroPadding digits letter)
    (fits : value digits < 2 ^ 31)
    (finishes : Finishes (fun fuel => directive fuel memory (value digits) zeroPadding (state.skip piece.front))
      state.written text after) : Finishes (fun fuel => sprintfTurn fuel memory state) state.written text after := by
  subst same
  have turn : ∀ fuel, digits.length < fuel → sprintfTurn fuel memory state = _ := fun fuel enough =>
    ((sprintfTurn_lead holds wellFormed fuel).resolve_right fun unfit => unfit.1 ⟨fits, enough⟩).2
  obtain ⟨returns, stops, part⟩ := finishes
  refine ⟨fun room => ?_, fun full => ?_, fun fuel => ?_⟩
  · obtain ⟨needed, done⟩ := returns room
    exact ⟨digits.length + 1 + needed, fun fuel more => (turn fuel (by omega)).trans (done fuel (by omega))⟩
  · obtain ⟨needed, halts⟩ := stops full
    refine ⟨digits.length + 1 + needed, fun fuel more => ?_⟩
    obtain ⟨last, front, run, halted⟩ := halts fuel (by omega)
    exact ⟨last, front, (turn fuel (by omega)).trans run, halted⟩
  · by_cases enough : digits.length < fuel
    · rw [turn fuel enough]
      exact part fuel
    · rcases sprintfTurn_lead holds wellFormed fuel with fits | ⟨_, last, same, run⟩
      · exact absurd fits.1.2 enough
      · exact .inr ⟨last, [], run, same.trans (List.append_nil _).symm, List.nil_prefix⟩

theorem sprintfTurn_yields (yields : piece.Yields memory state.args rest text) (fits : piece.WidthFits)
    (int : state.written.length < 2 ^ 31) :
    Finishes (fun fuel => sprintfTurn fuel memory state) state.written text (state.go piece.front rest text) := by
  cases piece with
  | literal char =>
      cases yields
      simp only [sprintfTurn_literal holds wellFormed]
      exact .of_emits .put rfl
  | directive zeroPadding digits letter =>
      have emits := @directive_emits memory (state.skip (lead zeroPadding digits).length) rest digits text letter zeroPadding
        (letter_at holds) yields int
      exact sprintfTurn_directive wellFormed holds rfl fits (.of_emits emits rfl)

/-- A width that is no `int` stops the turn with nothing written. -/
theorem sprintfTurn_overflows (unfit : ¬ piece.WidthFits) (fuel : Nat) : ∃ last, last.written = state.written ∧
    (sprintfTurn fuel memory state = .running last ∨ sprintfTurn fuel memory state = .faulted last) := by
  cases piece with
  | literal => exact absurd trivial unfit
  | directive zeroPadding digits letter => exact ((sprintfTurn_lead holds wellFormed fuel).resolve_left fun fits => unfit fits.1.1).2

end

/-! A whole format -/

/-- Pieces lie at an address, and none of them is the end of a string; the letter of a directive may be. -/
structure PiecesAt (memory : Bytes) (start : Nat) (pieces : List Piece) : Prop where
  holds : memory.Holds start (pieces.flatMap Piece.bytes)
  wellFormed : ∀ piece ∈ pieces, piece.WellFormed
  begins : .literal 0 ∉ pieces

namespace PiecesAt

theorem cons : PiecesAt memory str (piece :: pieces) ↔ memory.Holds str piece.bytes ∧ piece.WellFormed ∧
    piece ≠ .literal 0 ∧ PiecesAt memory (str + piece.bytes.length) pieces := by
  constructor
  · intro at_start
    obtain ⟨holds, wellFormed, begins⟩ := at_start
    rw [List.flatMap_cons, Bytes.holds_append] at holds
    obtain ⟨here, later⟩ := List.forall_mem_cons.mp wellFormed
    obtain ⟨first, others⟩ := not_or.mp (mt List.mem_cons.mpr begins)
    exact ⟨holds.1, here, Ne.symm first, holds.2, later, others⟩
  · intro parts
    obtain ⟨holds, here, first, behind, later, others⟩ := parts
    refine ⟨?_, List.forall_mem_cons.mpr ⟨here, later⟩, fun member => ?_⟩
    · rw [List.flatMap_cons, Bytes.holds_append]
      exact ⟨holds, behind⟩
    · rcases List.mem_cons.mp member with same | member
      · exact first same.symm
      · exact others member

theorem of_string (string : memory.HoldsString fmt (pieces.flatMap Piece.bytes))
    (wellFormed : ∀ piece ∈ pieces, piece.WellFormed) : PiecesAt memory fmt pieces where
  holds := string.holds
  wellFormed
  begins := fun member => string.nonzero (List.mem_flatMap.mpr ⟨_, member, List.mem_cons_self⟩)

end PiecesAt

theorem starts (holds : memory.Holds str piece.bytes) (begins : piece ≠ .literal 0) : memory.load8 str ≠ 0 := by
  cases piece with
  | literal char =>
      rw [(Bytes.holds_cons.mp holds).1]
      exact fun zero => begins (congrArg Piece.literal (UInt8.toNat_inj.mp zero))
  | directive zeroPadding digits letter =>
      have percent : memory.load8 str = '%'.toUInt8.toNat := (Bytes.holds_cons.mp holds).1
      rw [percent]
      decide

theorem sprintfLoop_turn (nonzero : memory.load8 state.fmt ≠ 0) : sprintfLoop memory (fuel + 1) state =
    (sprintfTurn fuel memory state).bind fun _ state => sprintfLoop memory fuel (state.skip 1) := if_pos nonzero

section

variable (served : Served (Piece.Yields memory) pieces args rest out)
include served

theorem sprintfLoop_served (at_start : PiecesAt memory state.fmt pieces) (same : state.args = args)
    (fits : ∀ piece ∈ pieces, piece.WidthFits) (room : state.written.length + out.length < 2 ^ 31) :
    ∃ needed, ∀ fuel ≥ needed, sprintfLoop memory (fuel + pieces.length) state =
      sprintfLoop memory fuel (state.go (pieces.flatMap Piece.bytes).length rest out) := by
  induction served generalizing state with
  | nil =>
      subst same
      refine ⟨0, fun fuel _ => ?_⟩
      rw [Formatting.go, List.append_nil]
      rfl
  | @cons piece pieces args middle rest text out here _ ih =>
      subst same
      obtain ⟨holds, wellFormed, begins, behind⟩ := PiecesAt.cons.mp at_start
      obtain ⟨first, others⟩ := List.forall_mem_cons.mp fits
      rw [List.length_append] at room
      obtain ⟨needed, turn⟩ := (sprintfTurn_yields wellFormed holds here first (by omega)).returns (by omega)
      have later : (state.go piece.bytes.length middle text).written.length + out.length < 2 ^ 31 := by
        rw [Formatting.go, List.length_append]
        omega
      obtain ⟨further, runs⟩ := @ih (state.go piece.bytes.length middle text) behind rfl others later
      refine ⟨needed + further, fun fuel more => ?_⟩
      rw [List.length_cons, ← Nat.add_assoc, sprintfLoop_turn (starts holds begins), turn _ (by omega), Outcome.done_bind,
        go_skip, runs fuel (by omega), List.flatMap_cons, List.length_append]
      simp only [Formatting.go, Nat.add_assoc, List.append_assoc]

/-- A run that returns has had room for the pieces it begins with. -/
theorem sprintfLoop_fits {after : Formatting} (at_start : PiecesAt memory state.fmt pieces) (same : state.args = args)
    (int : state.written.length < 2 ^ 31) (run : sprintfLoop memory fuel state = .done () after) :
    (∀ piece ∈ pieces, piece.WidthFits) ∧ state.written.length + out.length < 2 ^ 31 := by
  induction served generalizing state fuel with
  | nil => exact ⟨nofun, int⟩
  | @cons piece pieces args middle rest text out here _ ih =>
      subst same
      obtain ⟨holds, wellFormed, begins, behind⟩ := PiecesAt.cons.mp at_start
      cases fuel with
      | zero => cases run
      | succ fuel =>
          rw [sprintfLoop_turn (starts holds begins)] at run
          obtain ⟨_, _, turn, run⟩ := Outcome.bind_done.mp run
          by_cases first : piece.WidthFits
          · rcases (sprintfTurn_yields wellFormed holds here first int).part fuel with ⟨room, goes⟩ | ⟨_, _, stops | stops, _⟩
            · cases goes.symm.trans turn
              rw [go_skip] at run
              have inside : (state.go piece.bytes.length middle text).written.length < 2 ^ 31 := by
                rw [Formatting.go, List.length_append]
                exact room
              obtain ⟨others, later⟩ := @ih (state.go piece.bytes.length middle text) fuel behind rfl inside run
              rw [Formatting.go, List.length_append, Nat.add_assoc, ← List.length_append] at later
              exact ⟨List.forall_mem_cons.mpr ⟨first, others⟩, later⟩
            · cases stops.symm.trans turn
            · cases stops.symm.trans turn
          · obtain ⟨_, _, stops | stops⟩ := sprintfTurn_overflows wellFormed holds first fuel
            · cases stops.symm.trans turn
            · cases stops.symm.trans turn

end

/-- `sprintf` returns the length of this text, with these arguments left. -/
def Returns (memory : Bytes) (fmt : Nat) (args rest : Stream' UInt32) (out : List UInt8) : Prop :=
  ∃ enough, ∀ fuel ≥ enough, ∃ last, sprintf fuel memory fmt args = .done out.length ⟨last, rest, out⟩

section

variable (served : Served (Piece.Yields memory) pieces args rest out)
include served

theorem sprintf_returns (at_start : PiecesAt memory fmt pieces) (ends : memory.load8 (fmt + (pieces.flatMap Piece.bytes).length) = 0)
    (fits : ∀ piece ∈ pieces, piece.WidthFits) (room : out.length < 2 ^ 31) : Returns memory fmt args rest out := by
  have room : ([] : List UInt8).length + out.length < 2 ^ 31 := by rwa [List.length_nil, Nat.zero_add]
  obtain ⟨needed, runs⟩ := @sprintfLoop_served memory ⟨fmt, args, []⟩ _ _ _ _ served at_start rfl fits room
  refine ⟨needed + 1 + pieces.length, fun fuel more => ⟨fmt + (pieces.flatMap Piece.bytes).length, ?_⟩⟩
  obtain ⟨fuel, rfl⟩ : ∃ smaller, fuel = smaller + 1 + pieces.length := ⟨fuel - 1 - pieces.length, by omega⟩
  have ends : memory.load8 (Formatting.go (pieces.flatMap Piece.bytes).length rest out ⟨fmt, args, []⟩).fmt = 0 := ends
  rw [sprintf, runs (fuel + 1) (by omega), sprintfLoop, if_neg (not_not.mpr ends)]
  rfl

/-- Over a whole format `sprintf` returns exactly when its widths and the length of its text are `int`s. -/
theorem sprintf_returns_iff (wellFormed : ∀ piece ∈ pieces, piece.WellFormed)
    (format : memory.HoldsString fmt (pieces.flatMap Piece.bytes)) :
    Returns memory fmt args rest out ↔ (∀ piece ∈ pieces, piece.WidthFits) ∧ out.length < 2 ^ 31 := by
  have at_start : PiecesAt memory fmt pieces := .of_string format wellFormed
  constructor
  · intro returns
    obtain ⟨enough, runs⟩ := returns
    obtain ⟨last, run⟩ := runs enough (Nat.le_refl _)
    obtain ⟨_, _, run, _⟩ := Outcome.bind_done.mp run
    obtain ⟨fits, room⟩ := @sprintfLoop_fits memory ⟨fmt, args, []⟩ _ _ _ _ _ served _ at_start rfl (Nat.two_pow_pos 31) run
    exact ⟨fits, by rwa [List.length_nil, Nat.zero_add] at room⟩
  · intro condition
    exact sprintf_returns served at_start (congrArg UInt8.toNat format.terminated) condition.1 condition.2

end

/-! Every byte but a zero begins a piece -/

section

variable (zero : memory (place % 2 ^ 32) = 0)
include zero

theorem exists_piece (some_char : memory.load8 str ≠ 0) :
    ∃ piece : Piece, memory.Holds str piece.bytes ∧ piece.WellFormed ∧ piece ≠ .literal 0 := by
  have here : memory.load8 str = (memory (str % 2 ^ 32)).toNat := rfl
  by_cases percent : memory (str % 2 ^ 32) = '%'.toUInt8
  · have stop : ¬ isDigit (memory (place % 2 ^ 32)).toNat := by
      rw [zero]
      decide
    by_cases flag : memory.load8 (str + 1) = '0'.toNat
    · obtain ⟨digits, letter, holds, all, last⟩ :=
        @Bytes.holds_until memory (fun digit => isDigit digit.toNat) place stop (str + 1 + 1)
      refine ⟨.directive true digits letter, ?_, ⟨all, last, nofun⟩, nofun⟩
      exact Bytes.holds_cons.mpr ⟨congrArg UInt8.toNat percent, Bytes.holds_cons.mpr ⟨flag, holds⟩⟩
    · obtain ⟨digits, letter, holds, all, last⟩ :=
        @Bytes.holds_until memory (fun digit => isDigit digit.toNat) place stop (str + 1)
      refine ⟨.directive false digits letter, Bytes.holds_cons.mpr ⟨congrArg UInt8.toNat percent, holds⟩,
        ⟨all, last, fun _ first => flag ?_⟩, nofun⟩
      obtain ⟨others, rfl⟩ := List.head?_eq_some_iff.mp first
      exact (Bytes.holds_cons.mp holds).1
  · refine ⟨.literal (memory (str % 2 ^ 32)), Bytes.holds_cons.mpr ⟨here, nofun⟩, percent, fun same => some_char ?_⟩
    rw [here, Piece.literal.inj same]
    rfl

theorem exists_yields (piece : Piece) (args : Stream' UInt32) : ∃ rest text, piece.Yields memory args rest text := by
  cases piece with
  | literal char => exact ⟨_, _, .literal⟩
  | directive zeroPadding digits letter =>
      by_cases takes : letter ∈ ['d'.toUInt8, 'x'.toUInt8, 's'.toUInt8, 'c'.toUInt8]
      · simp only [List.mem_cons, List.not_mem_nil, or_false] at takes
        obtain rfl | rfl | rfl | rfl := takes
        · exact ⟨_, _, .number⟩
        · exact ⟨_, _, .hex⟩
        · by_cases null : args.head = 0
          · exact ⟨_, _, .null null⟩
          · obtain ⟨chars, string⟩ := Bytes.HoldsString.exists_of_zero zero args.head.toNat
            exact ⟨_, _, .string null string⟩
        · exact ⟨_, _, .char⟩
      · exact ⟨_, _, .other takes⟩

/-- A turn returns behind its piece, or it stops with a part of the text of the piece, of which
there is none if the width is no `int`. -/
theorem sprintfTurn_cases (wellFormed : piece.WellFormed) (holds : memory.Holds state.fmt piece.bytes)
    (int : state.written.length < 2 ^ 31) (fuel : Nat) :
    (∃ rest text, piece.Yields memory state.args rest text ∧ piece.WidthFits ∧ state.written.length + text.length < 2 ^ 31 ∧
      sprintfTurn fuel memory state = .done () (state.go piece.front rest text)) ∨
    (∀ value after, sprintfTurn fuel memory state ≠ .done value after) ∧
      ∃ front, (sprintfTurn fuel memory state).after.written = state.written ++ front ∧
        (front = [] ∨ piece.WidthFits ∧ ∃ rest text, piece.Yields memory state.args rest text ∧ front <+: text) := by
  by_cases fits : piece.WidthFits
  · obtain ⟨rest, text, yields⟩ := exists_yields zero piece state.args
    rcases (sprintfTurn_yields wellFormed holds yields fits int).part fuel with ⟨room, run⟩ | ⟨last, front, run | run, written, part⟩
    · exact .inl ⟨rest, text, yields, fits, room, run⟩
    · rw [run]
      exact .inr ⟨nofun, front, written, .inr ⟨fits, rest, text, yields, part⟩⟩
    · rw [run]
      exact .inr ⟨nofun, front, written, .inr ⟨fits, rest, text, yields, part⟩⟩
  · obtain ⟨last, same, run | run⟩ := sprintfTurn_overflows wellFormed holds fits fuel
    · rw [run]
      exact .inr ⟨nofun, [], same.trans (List.append_nil _).symm, .inl rfl⟩
    · rw [run]
      exact .inr ⟨nofun, [], same.trans (List.append_nil _).symm, .inl rfl⟩

end

end BarrelOS.Lib
