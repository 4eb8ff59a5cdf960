import BarrelOS.Lib.Spans

namespace BarrelOS.Lib

open BarrelOS.Data BarrelOS.Semantics

/-! The buffer of `printf` and `vprintf` -/

/-- Whatever pieces the format begins with, up to a width that is no `int`, the buffer has room for
them, and at the end of the format either one place more or a zero among them. -/
structure FitsBuffer (memory : Bytes) (fmt : Nat) (args : Stream' UInt32) : Prop where
  inside : ∀ {pieces rest spans}, PiecesAt memory fmt pieces → (∀ piece ∈ pieces, piece.WidthFits) →
    Served (Piece.Spans memory) pieces args rest spans → room spans ≤ 1024
  ends : ∀ {pieces rest spans}, PiecesAt memory fmt pieces → (∀ piece ∈ pieces, piece.WidthFits) →
    Served (Piece.Spans memory) pieces args rest spans → memory.load8 (fmt + (pieces.flatMap Piece.bytes).length) = 0 →
      room spans < 1024 ∨ ∃ span ∈ spans, span.zero

/-- `printf` or `vprintf` writes to no place behind its buffer, and leaves a zero in it. -/
structure StaysInBuffer (print : Nat → Bytes → Bytes → Output → Nat → Stream' UInt32 → Outcome Formatting Printed)
    (memory stack : Bytes) (output : Output) (fmt : Nat) (args : Stream' UInt32) : Prop where
  inside : ∀ fuel, (print fuel memory stack output fmt args).after.written.length ≤ 1024
  ends : ∀ fuel printed after, print fuel memory stack output fmt args = .done printed after →
    ∀ call ∈ printed.calls, ∃ i < 1024, call.2 i = 0

variable {memory stack : Bytes} {output : Output} {state after : Formatting} {piece : Piece} {pieces : List Piece}
  {args rest : Stream' UInt32} {chars digits out text : List UInt8} {spans : List Span} {fuel fmt place : Nat}

/-! The course of a run -/

section

variable (zero : memory (place % 2 ^ 32) = 0)
include zero

/-- Wherever a run is, it has gone through pieces of the format, and has at most the text of these written. -/
theorem sprintfLoop_comes (fuel : Nat) (state : Formatting) (int : state.written.length < 2 ^ 31) :
    ∃ pieces rest out front, PiecesAt memory state.fmt pieces ∧ (∀ piece ∈ pieces, piece.WidthFits) ∧
      Served (Piece.Yields memory) pieces state.args rest out ∧
        (sprintfLoop memory fuel state).after.written = state.written ++ front ∧ front <+: out ∧
          ∀ after, sprintfLoop memory fuel state = .done () after →
            memory.load8 (state.fmt + (pieces.flatMap Piece.bytes).length) = 0 ∧ front = out := by
  have none : ∀ fmt, PiecesAt memory fmt [] := fun _ => ⟨nofun, nofun, List.not_mem_nil⟩
  induction fuel generalizing state with
  | zero => exact ⟨[], state.args, [], [], none _, nofun, .nil, (List.append_nil _).symm, List.nil_prefix, nofun⟩
  | succ fuel ih =>
      by_cases some_char : memory.load8 state.fmt ≠ 0
      · rw [sprintfLoop_turn some_char]
        obtain ⟨piece, holds, wellFormed, begins⟩ := exists_piece zero some_char
        rcases sprintfTurn_cases zero wellFormed holds int fuel with goes | stops
        · obtain ⟨middle, text, yields, fits, room, run⟩ := goes
          have inside : (state.go piece.bytes.length middle text).written.length < 2 ^ 31 := by
            rw [Formatting.go, List.length_append]
            exact room
          obtain ⟨pieces, rest, out, front, behind, others, served, written, part, finish⟩ :=
            ih (state.go piece.bytes.length middle text) inside
          rw [run, Outcome.done_bind, go_skip]
          refine ⟨piece :: pieces, rest, text ++ out, text ++ front, PiecesAt.cons.mpr ⟨holds, wellFormed, begins, behind⟩,
            List.forall_mem_cons.mpr ⟨fits, others⟩, .cons yields served, ?_, List.prefix_append_right_inj text |>.mpr part,
            fun after returned => ?_⟩
          · rw [written, Formatting.go, List.append_assoc]
          · obtain ⟨ends, whole⟩ := finish after returned
            rw [List.flatMap_cons, List.length_append, ← Nat.add_assoc, whole]
            exact ⟨ends, rfl⟩
        · obtain ⟨unfinished, front, written, texts⟩ := stops
          obtain ⟨stopped, never⟩ := Outcome.bind_unfinished unfinished fun _ state => sprintfLoop memory fuel (state.skip 1)
          rw [stopped]
          rcases texts with empty | ⟨fits, rest, text, yields, part⟩
          · subst empty
            exact ⟨[], state.args, [], [], none _, nofun, .nil, written, List.nil_prefix, fun after run => absurd run (never () after)⟩
          · exact ⟨[piece], rest, text, front, PiecesAt.cons.mpr ⟨holds, wellFormed, begins, none _⟩,
              List.forall_mem_singleton.mpr fits, .single yields, written, part, fun after run => absurd run (never () after)⟩
      · rw [sprintfLoop, if_neg some_char]
        refine ⟨[], state.args, [], [], none _, nofun, .nil, (List.append_nil _).symm, List.nil_prefix, fun after _ => ?_⟩
        exact ⟨Decidable.not_not.mp some_char, rfl⟩

/-- A long enough run has written the text of any pieces, or comes to the greatest index in it. -/
theorem sprintfLoop_writes (served : Served (Piece.Yields memory) pieces args rest out) (at_start : PiecesAt memory state.fmt pieces)
    (same : state.args = args) (fits : ∀ piece ∈ pieces, piece.WidthFits) (int : state.written.length < 2 ^ 31) :
    ∃ needed, ∀ fuel ≥ needed, state.written.length + out.length ≤ (sprintfLoop memory fuel state).after.written.length ∨
      2 ^ 31 ≤ (sprintfLoop memory fuel state).after.written.length + 1 := by
  induction served generalizing state with
  | nil =>
      refine ⟨0, fun fuel _ => .inl ?_⟩
      obtain ⟨_, _, _, front, _, _, _, written, _⟩ := sprintfLoop_comes zero fuel state int
      rw [written, List.length_append, List.length_nil, Nat.add_zero]
      exact Nat.le_add_right _ _
  | @cons piece pieces args middle rest text out here _ ih =>
      subst same
      obtain ⟨holds, wellFormed, begins, behind⟩ := PiecesAt.cons.mp at_start
      obtain ⟨first, others⟩ := List.forall_mem_cons.mp fits
      have turn := sprintfTurn_yields wellFormed holds here first int
      by_cases room : state.written.length + text.length < 2 ^ 31
      · obtain ⟨needed, runs⟩ := turn.returns room
        have inside : (state.go piece.bytes.length middle text).written.length < 2 ^ 31 := by
          rw [Formatting.go, List.length_append]
          exact room
        obtain ⟨later, writes⟩ := @ih (state.go piece.bytes.length middle text) behind rfl others inside
        refine ⟨needed + later + 1, fun fuel enough => ?_⟩
        obtain ⟨fuel, rfl⟩ := Nat.exists_eq_add_one.mpr (show 0 < fuel by omega)
        rw [sprintfLoop_turn (starts holds begins), runs fuel (by omega), Outcome.done_bind, go_skip, List.length_append, ← Nat.add_assoc,
          ← List.length_append]
        exact writes fuel (by omega)
      · obtain ⟨needed, halts⟩ := turn.stops (Nat.le_of_not_lt room)
        refine ⟨needed + 1, fun fuel enough => .inr ?_⟩
        obtain ⟨fuel, rfl⟩ := Nat.exists_eq_add_one.mpr (show 0 < fuel by omega)
        obtain ⟨last, _, run, _, full⟩ := halts fuel (by omega)
        rw [sprintfLoop_turn (starts holds begins), run]
        exact full

end

/-! The buffer after a run -/

theorem formatAndShow_after :
    (formatAndShow fuel memory stack output fmt args).after = (sprintfLoop memory fuel ⟨fmt, args, []⟩).after := by
  rw [formatAndShow, sprintf]
  cases sprintfLoop memory fuel ⟨fmt, args, []⟩ <;> rfl

/-- A text of at most 1024 bytes leaves a zero in the buffer unless it fills it with others. -/
theorem fillBuf_zero_iff (inside : out.length ≤ 1024) :
    (∃ i < 1024, fillBuf out (initialBuf stack) i = 0) ↔ out.length < 1024 ∨ 0 ∈ out := by
  constructor
  · intro zero
    obtain ⟨i, below, zero⟩ := zero
    by_cases written : i < out.length
    · rw [fillBuf, List.getElem?_eq_getElem written] at zero
      have zero : out[i] = 0 := zero
      exact .inr (zero ▸ List.getElem_mem written)
    · exact .inl (by omega)
  · intro zero
    rcases zero with short | member
    · have behind : out.length ≤ max out.length 1 := Nat.le_max_left _ _
      refine ⟨max out.length 1, by omega, ?_⟩
      rw [fillBuf, List.getElem?_eq_none behind, Option.getD_none, initialBuf, if_neg (by omega), if_pos (by omega)]
    · obtain ⟨i, here⟩ := List.mem_iff_getElem?.mp member
      have written := (List.getElem?_eq_some_iff.mp here).1
      exact ⟨i, by omega, by rw [fillBuf, here]; rfl⟩

section

variable (zero : memory (place % 2 ^ 32) = 0)
include zero

theorem fitsBuffer_of_stays (stays : StaysInBuffer formatAndShow memory stack output fmt args) : FitsBuffer memory fmt args := by
  have inside : ∀ {pieces rest out}, PiecesAt memory fmt pieces → (∀ piece ∈ pieces, piece.WidthFits) →
      Served (Piece.Yields memory) pieces args rest out → out.length ≤ 1024 := by
    intro pieces rest out at_start fits served
    obtain ⟨needed, writes⟩ := @sprintfLoop_writes memory ⟨fmt, args, []⟩ _ _ _ _ _ zero served at_start rfl fits (Nat.two_pow_pos 31)
    have bound := stays.inside needed
    rw [formatAndShow_after] at bound
    have written := writes needed (Nat.le_refl _)
    rw [List.length_nil] at written
    omega
  refine ⟨fun at_start fits takes => ?_, fun {pieces rest spans} at_start fits takes ends => ?_⟩
  · obtain ⟨out, served, spanned⟩ := spans_served at_start takes
    rw [spanned.size]
    exact inside at_start fits served
  · obtain ⟨out, served, spanned⟩ := spans_served at_start takes
    have bound := inside at_start fits served
    obtain ⟨enough, returns⟩ := sprintf_returns served at_start ends fits (by omega)
    obtain ⟨last, run⟩ := returns enough (Nat.le_refl _)
    have shown : formatAndShow enough memory stack output fmt args = .done _ _ := Outcome.bind_done.mpr ⟨_, _, run, rfl⟩
    have stops := stays.ends _ _ _ shown _ (List.mem_map_of_mem List.mem_cons_self)
    rw [spanned.size, spanned.zero]
    exact (fillBuf_zero_iff bound).mp stops

theorem staysInBuffer_of_fits (fits : FitsBuffer memory fmt args) : StaysInBuffer formatAndShow memory stack output fmt args := by
  have course := fun fuel => sprintfLoop_comes zero fuel ⟨fmt, args, []⟩ (Nat.two_pow_pos 31)
  refine ⟨fun fuel => ?_, fun fuel printed after shown call member => ?_⟩
  · obtain ⟨pieces, rest, out, front, at_start, widths, served, written, part, _⟩ := course fuel
    obtain ⟨spans, takes, spanned⟩ := served_spans at_start served
    have bound := fits.inside at_start widths takes
    rw [spanned.size] at bound
    rw [formatAndShow_after, written]
    exact Nat.le_trans part.length_le bound
  · obtain ⟨_, last, returned, shown⟩ := Outcome.bind_done.mp shown
    obtain ⟨_, _, run, same⟩ := Outcome.bind_done.mp returned
    cases same
    obtain ⟨pieces, rest, out, front, at_start, widths, served, written, _, finish⟩ := course fuel
    obtain ⟨ends, whole⟩ := finish _ run
    obtain ⟨spans, takes, spanned⟩ := served_spans at_start served
    have bound := fits.inside at_start widths takes
    have stops := fits.ends at_start widths takes ends
    rw [spanned.size] at bound stops
    rw [spanned.zero] at stops
    have text : last.written = out := by
      rw [run, whole] at written
      exact written
    cases shown
    obtain ⟨backEnd, _, same⟩ := List.mem_map.mp member
    subst same
    rw [text]
    exact (fillBuf_zero_iff bound).mpr stops

end

/-- `printf` and `vprintf` stay in their buffer exactly when it has room for the pieces of the format. -/
theorem printf_stays_iff (format : memory.HoldsString fmt chars) :
    ∀ print ∈ [printf, vprintf], (StaysInBuffer print memory stack output fmt args ↔ FitsBuffer memory fmt args) := by
  have stays : StaysInBuffer formatAndShow memory stack output fmt args ↔ FitsBuffer memory fmt args :=
    ⟨fitsBuffer_of_stays format.terminated, staysInBuffer_of_fits format.terminated⟩
  exact List.forall_mem_cons.mpr ⟨stays, List.forall_mem_singleton.mpr stays⟩

theorem printf_stays_letter :
    StaysInBuffer printf (.holding [(0x1000, [0x6E])]) (fun _ => 0) ⟨true, false⟩ 0x1000 (.const 0) := by
  have format : Bytes.HoldsString (.holding [(0x1000, [0x6E])]) 0x1000 [0x6E] := .of_holding (by decide) (by decide)
  have small : ∀ {pieces rest spans}, PiecesAt (.holding [(0x1000, [0x6E])]) 0x1000 pieces →
      Served (Piece.Spans (.holding [(0x1000, [0x6E])])) pieces (.const 0) rest spans → room spans ≤ 1 := by
    intro pieces rest spans at_start takes
    cases takes with
    | nil => exact Nat.zero_le 1
    | @cons piece pieces _ _ _ spans later here behind =>
        obtain ⟨holds, _, _, others⟩ := PiecesAt.cons.mp at_start
        cases piece with
        | directive zeroPadding digits letter =>
            have percent := (Bytes.holds_cons.mp holds).1
            exact absurd percent (by decide)
        | literal char =>
            cases here
            cases behind with
            | nil => exact Nat.le_refl 1
            | cons =>
                obtain ⟨holds, _, begins, _⟩ := PiecesAt.cons.mp others
                have ends : Bytes.load8 (.holding [(0x1000, [0x6E])]) (0x1000 + 1) = 0 := by decide
                exact absurd ends (starts holds begins)
  have fits : FitsBuffer (.holding [(0x1000, [0x6E])]) 0x1000 (.const 0) := by
    refine ⟨fun at_start _ takes => ?_, fun at_start _ takes _ => .inl ?_⟩
    · exact Nat.le_trans (small at_start takes) (by decide)
    · exact Nat.lt_of_le_of_lt (small at_start takes) (by decide)
  exact (printf_stays_iff format printf List.mem_cons_self).mpr fits

/-- `printf("%1025d", 0)` writes 1025 bytes. -/
theorem printf_overruns : Bytes.HoldsString (.holding [(0x1000, [0x25, 0x31, 0x30, 0x32, 0x35, 0x64])]) 0x1000
      [0x25, 0x31, 0x30, 0x32, 0x35, 0x64] ∧
    ¬ StaysInBuffer printf (.holding [(0x1000, [0x25, 0x31, 0x30, 0x32, 0x35, 0x64])]) (fun _ => 0) ⟨true, false⟩ 0x1000 (.const 0) := by
  have format : Bytes.HoldsString (.holding [(0x1000, [0x25, 0x31, 0x30, 0x32, 0x35, 0x64])]) 0x1000
      [0x25, 0x31, 0x30, 0x32, 0x35, 0x64] := .of_holding (by decide) (by decide)
  have at_start : PiecesAt (.holding [(0x1000, [0x25, 0x31, 0x30, 0x32, 0x35, 0x64])]) 0x1000
      [.directive false [0x31, 0x30, 0x32, 0x35] 0x64] := .of_string format (by decide)
  refine ⟨format, fun stays => ?_⟩
  have room := (fitsBuffer_of_stays format.terminated stays).inside at_start (by decide) (.single .number)
  exact absurd room (by decide)

end BarrelOS.Lib
