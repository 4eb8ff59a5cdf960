import BarrelOS.Lib.Spans

namespace BarrelOS.Lib

open BarrelOS.Data BarrelOS.Semantics

/-! The bytes of its format that `sprintf` reads -/

/-- What the loop over a width reads, which ends at an overflow. -/
def widthReads (memory : Bytes) : Nat → Int → Nat → List Nat
  | 0, _, _ => []
  | fuel + 1, width, fmt =>
      fmt ::
        if isDigit (memory.load8 fmt) then
          match widthStep width (memory.load8 fmt) with
          | some width => widthReads memory fuel width (fmt + 1)
          | none => []
        else []

/-- What is read of a directive behind its `%`; the `switch` reads the last of these once more. -/
def directiveReads (memory : Bytes) (fuel fmt : Nat) : List Nat :=
  fmt :: widthReads memory fuel 0 (if memory.load8 fmt = '0'.toNat then fmt + 1 else fmt)

def formatReads (memory : Bytes) : Nat → Formatting → List Nat
  | 0, _ => []
  | fuel + 1, state =>
      state.fmt ::
        if memory.load8 state.fmt ≠ 0 then
          (if memory.load8 state.fmt = '%'.toNat then directiveReads memory fuel (state.fmt + 1) else []) ++
            match sprintfTurn fuel memory state with
            | .done _ state => formatReads memory fuel (state.skip 1)
            | _ => []
        else []

/-- A format ends in front of the letter of a directive, behind pieces whose text has room behind
what is written; none of its widths is too large for an `int`. -/
structure CutAt (memory : Bytes) (chars : List UInt8) (args : Stream' UInt32) (written : Nat) (pieces : List Piece)
    (zeroPadding : Bool) (digits : List UInt8) : Prop where
  wellFormed : ∀ piece ∈ pieces ++ [.directive zeroPadding digits 0], piece.WellFormed
  ends : chars = pieces.flatMap Piece.bytes ++ lead zeroPadding digits
  widths : ∀ piece ∈ pieces ++ [.directive zeroPadding digits 0], piece.WidthFits
  inside : ∃ rest spans, Served (Piece.Spans memory) pieces args rest spans ∧ written + room spans < 2 ^ 31

/-- `sprintf` comes to a directive that the end of the format cuts short. -/
def CutShort (memory : Bytes) (chars : List UInt8) (args : Stream' UInt32) : Prop :=
  ∃ pieces zeroPadding digits, CutAt memory chars args 0 pieces zeroPadding digits

variable {memory : Bytes} {state : Formatting} {piece : Piece} {pieces : List Piece} {args rest : Stream' UInt32}
  {chars digits later out text : List UInt8} {letter : UInt8} {zeroPadding : Bool} {fuel str fmt address : Nat} {width : Int}

theorem not_mem_of_not_isDigit {char : UInt8} (all : ∀ digit ∈ digits, isDigit digit.toNat) (other : ¬ isDigit char.toNat) :
    char ∉ digits := fun member => other (all char member)

theorem zero_not_mem_lead (all : ∀ digit ∈ digits, isDigit digit.toNat) : 0 ∉ lead zeroPadding digits := by
  have digits_nonzero : 0 ∉ digits := not_mem_of_not_isDigit all (by decide)
  cases zeroPadding <;> simp [lead, digits_nonzero] <;> decide

/-- A piece at the start of a string is one of the string's, or its lead is the whole string. -/
theorem piece_of_string (string : memory.HoldsString str chars) (holds : memory.Holds str piece.bytes)
    (wellFormed : piece.WellFormed) (begins : piece ≠ .literal 0) :
    (∃ later, chars = piece.bytes ++ later) ∨
      ∃ zeroPadding digits, piece = .directive zeroPadding digits 0 ∧ chars = lead zeroPadding digits := by
  cases piece with
  | literal char =>
      refine .inl (string.front holds fun member => begins ?_)
      rw [List.mem_singleton.mp member]
  | directive zeroPadding digits letter =>
      rw [bytes_directive] at holds
      obtain ⟨head, last⟩ := Bytes.holds_append.mp holds
      obtain ⟨later, same⟩ := string.front head (zero_not_mem_lead wellFormed.1)
      subst same
      have behind := string.suffix
      cases later with
      | nil =>
          have zero : letter = 0 := UInt8.toNat_inj.mp ((Bytes.holds_cons.mp last).1.symm.trans behind.nil)
          exact .inr ⟨zeroPadding, digits, zero ▸ rfl, List.append_nil _⟩
      | cons char later =>
          have same : letter = char := UInt8.toNat_inj.mp ((Bytes.holds_cons.mp last).1.symm.trans behind.head.1)
          refine .inl ⟨later, ?_⟩
          rw [same, bytes_directive, List.append_assoc, List.singleton_append]

theorem widthReads_le (holds : memory.Holds str (digits ++ [letter])) (stop : ¬ isDigit letter.toNat)
    (read : address ∈ widthReads memory fuel width str) : address ≤ str + digits.length := by
  induction digits generalizing fuel width str with
  | nil =>
      cases fuel with
      | zero => cases read
      | succ fuel =>
          rw [widthReads, (Bytes.holds_cons.mp holds).1, if_neg stop] at read
          rw [List.mem_singleton.mp read]
          exact Nat.le_refl _
  | cons digit digits ih =>
      cases fuel with
      | zero => cases read
      | succ fuel =>
          rw [widthReads] at read
          rcases List.mem_cons.mp read with same | later
          · rw [same]
            exact Nat.le_add_right _ _
          · split at later
            · split at later
              · have bound := ih (Bytes.holds_cons.mp holds).2 later
                rw [List.length_cons]
                omega
              · cases later
            · cases later

theorem directiveReads_le (holds : memory.Holds state.fmt (lead zeroPadding digits ++ [letter]))
    (wellFormed : (Piece.directive zeroPadding digits letter).WellFormed)
    (read : address ∈ directiveReads memory fuel (state.fmt + 1)) : address ≤ state.fmt + (lead zeroPadding digits).length := by
  obtain ⟨flag, width⟩ := flag_at holds wellFormed
  have flag : memory.load8 (state.fmt + 1) = '0'.toNat ↔ zeroPadding = true := flag
  have length : (lead zeroPadding digits).length = (if zeroPadding then 2 else 1) + digits.length := by
    cases zeroPadding <;> simp [lead] <;> omega
  have start : (if memory.load8 (state.fmt + 1) = '0'.toNat then state.fmt + 1 + 1 else state.fmt + 1) =
      state.fmt + (if zeroPadding then 2 else 1) := by
    cases zeroPadding with
    | true => rw [if_pos (flag.mpr rfl), if_pos rfl]
    | false => rw [if_neg (mt flag.mp Bool.false_ne_true), if_neg Bool.false_ne_true]
  rw [directiveReads, start] at read
  rw [length]
  rcases List.mem_cons.mp read with first | later
  · split <;> omega
  · have bound := widthReads_le width wellFormed.2.1 later
    rw [← Nat.add_assoc]
    exact bound

theorem turnReads_le (holds : memory.Holds state.fmt piece.bytes) (wellFormed : piece.WellFormed)
    (read : address ∈ if memory.load8 state.fmt = '%'.toNat then directiveReads memory fuel (state.fmt + 1) else []) :
    address ≤ state.fmt + piece.front := by
  split at read
  · rename_i percent
    cases piece with
    | literal char =>
        have same : char.toNat = '%'.toUInt8.toNat := (Bytes.holds_cons.mp holds).1.symm.trans percent
        exact absurd (UInt8.toNat_inj.mp same) wellFormed
    | directive zeroPadding digits letter => exact directiveReads_le holds wellFormed read
  · cases read

theorem formatReads_served (served : Served (Piece.Yields memory) pieces args rest out)
    (at_start : PiecesAt memory state.fmt pieces) (same : state.args = args) (fits : ∀ piece ∈ pieces, piece.WidthFits)
    (room : state.written.length + out.length < 2 ^ 31) :
    ∃ needed, ∀ fuel ≥ needed, ∀ address ∈ formatReads memory fuel (state.go (pieces.flatMap Piece.bytes).length rest out),
      address ∈ formatReads memory (fuel + pieces.length) state := by
  induction served generalizing state with
  | nil =>
      subst same
      refine ⟨0, fun fuel _ address read => ?_⟩
      rw [Formatting.go, List.append_nil] at read
      exact read
  | @cons piece pieces args middle rest text out here _ ih =>
      subst same
      obtain ⟨holds, wellFormed, begins, behind⟩ := PiecesAt.cons.mp at_start
      obtain ⟨first, others⟩ := List.forall_mem_cons.mp fits
      rw [List.length_append] at room
      obtain ⟨needed, turn⟩ := (sprintfTurn_yields wellFormed holds here first (by omega)).returns (by omega)
      have inside : (state.go piece.bytes.length middle text).written.length + out.length < 2 ^ 31 := by
        rw [Formatting.go, List.length_append]
        omega
      obtain ⟨later, reads⟩ := @ih (state.go piece.bytes.length middle text) behind rfl others inside
      refine ⟨needed + later, fun fuel more address read => ?_⟩
      rw [List.flatMap_cons, List.length_append] at read
      have read : address ∈ formatReads memory fuel ((state.go piece.bytes.length middle text).go
          (pieces.flatMap Piece.bytes).length rest out) := by
        simp only [Formatting.go, Nat.add_assoc, List.append_assoc] at read ⊢
        exact read
      rw [List.length_cons, ← Nat.add_assoc, formatReads, if_pos (starts holds begins), turn _ (by omega)]
      refine List.mem_cons_of_mem _ (List.mem_append_right _ ?_)
      simp only [go_skip]
      exact reads fuel (by omega) address read

theorem CutAt.cons {written : Nat} {cut : List Piece} (short : CutAt memory later rest (written + text.length) cut zeroPadding digits)
    (wellFormed : piece.WellFormed) (fits : piece.WidthFits) (begins : piece ≠ .literal 0)
    (yields : piece.Yields memory args rest text) :
    CutAt memory (piece.bytes ++ later) args written (piece :: cut) zeroPadding digits where
  wellFormed := List.forall_mem_cons.mpr ⟨wellFormed, short.wellFormed⟩
  ends := by rw [short.ends, List.flatMap_cons, List.append_assoc]
  widths := List.forall_mem_cons.mpr ⟨fits, short.widths⟩
  inside := by
    obtain ⟨last, spans, takes, inside⟩ := short.inside
    obtain ⟨first, here, spanned⟩ := spans_of_yields begins yields
    refine ⟨last, first ++ spans, .cons here takes, ?_⟩
    have size := spanned.size
    simp only [room, List.map_append, List.sum_append] at *
    omega

/-- No turn in front of the end of the format reads behind it. -/
theorem formatReads_le (string : memory.HoldsString state.fmt chars) (int : state.written.length < 2 ^ 31)
    (whole : ∀ pieces zeroPadding digits, ¬ CutAt memory chars state.args state.written.length pieces zeroPadding digits)
    (read : address ∈ formatReads memory fuel state) : address ≤ state.fmt + chars.length := by
  induction fuel generalizing state chars with
  | zero => cases read
  | succ fuel ih =>
      rw [formatReads] at read
      rcases List.mem_cons.mp read with same | read
      · rw [same]
        exact Nat.le_add_right _ _
      split at read
      · rename_i some_char
        obtain ⟨piece, holds, wellFormed, begins⟩ := exists_piece string.terminated some_char
        rcases piece_of_string string holds wellFormed begins with inside | cut
        · obtain ⟨later, same⟩ := inside
          subst same
          rw [List.length_append, Piece.length_bytes]
          rcases List.mem_append.mp read with read | read
          · have bound := turnReads_le holds wellFormed read
            omega
          · split at read
            · next after run =>
                rcases sprintfTurn_cases string.terminated wellFormed holds int fuel with goes | stops
                · obtain ⟨rest, text, yields, fits, room, turn⟩ := goes
                  cases run.symm.trans turn
                  rw [go_skip] at read
                  have inside : (state.go piece.bytes.length rest text).written.length < 2 ^ 31 := by
                    rw [Formatting.go, List.length_append]
                    exact room
                  have bound : address ≤ state.fmt + piece.bytes.length + later.length := by
                    refine ih string.suffix inside (fun pieces zeroPadding digits cut => ?_) read
                    rw [Formatting.go, List.length_append] at cut
                    exact whole _ _ _ (cut.cons wellFormed fits begins yields)
                  rw [Piece.length_bytes] at bound
                  omega
                · exact absurd run (stops.1 () after)
            · cases read
        · obtain ⟨zeroPadding, digits, same, all⟩ := cut
          subst same
          have unfit : ¬ (Piece.directive zeroPadding digits 0).WidthFits := by
            refine fun fits => whole [] zeroPadding digits ⟨List.forall_mem_singleton.mpr wellFormed, all,
              List.forall_mem_singleton.mpr fits, ⟨_, [], .nil, int⟩⟩
          rw [all]
          rcases List.mem_append.mp read with read | read
          · exact turnReads_le holds wellFormed read
          · obtain ⟨last, _, stops | stops⟩ := sprintfTurn_overflows wellFormed holds unfit fuel
            · rw [stops] at read
              cases read
            · rw [stops] at read
              cases read
      · cases read

/-- `sprintf` stays inside its format exactly when it does not come to a directive that the end cuts short. -/
theorem sprintf_reads_inside_iff (string : memory.HoldsString fmt chars) :
    (∀ fuel, ∀ address ∈ formatReads memory fuel ⟨fmt, args, []⟩, address ≤ fmt + chars.length) ↔ ¬ CutShort memory chars args := by
  constructor
  · intro inside cut
    obtain ⟨pieces, zeroPadding, digits, cut⟩ := cut
    have bytes : (pieces ++ [Piece.directive zeroPadding digits 0]).flatMap Piece.bytes = chars ++ [0] := by
      rw [List.flatMap_append, List.flatMap_singleton, bytes_directive, ← List.append_assoc, cut.ends]
    have at_start : PiecesAt memory fmt (pieces ++ [.directive zeroPadding digits 0]) := by
      refine ⟨bytes ▸ string.whole, cut.wellFormed, fun member => ?_⟩
      rcases List.mem_append.mp member with member | member
      · refine string.nonzero (cut.ends ▸ List.mem_append_left _ ?_)
        exact List.mem_flatMap.mpr ⟨_, member, List.mem_cons_self⟩
      · cases List.mem_singleton.mp member
    have front : PiecesAt memory fmt pieces := ⟨(Bytes.holds_append.mp (List.flatMap_append ▸ at_start.holds)).1,
      (List.forall_mem_append.mp cut.wellFormed).1, fun member => at_start.begins (List.mem_append_left _ member)⟩
    obtain ⟨rest, spans, takes, short⟩ := cut.inside
    obtain ⟨out, served, spanned⟩ := spans_served front takes
    have last : Piece.Yields memory (.directive zeroPadding digits 0) rest rest [] := .other (by decide)
    have inside_int : ([] : List UInt8).length + (out ++ []).length < 2 ^ 31 := by
      rw [List.append_nil, ← spanned.size]
      exact short
    obtain ⟨needed, reads⟩ := @formatReads_served memory ⟨fmt, args, []⟩ _ _ _ _ (served.append (.single last)) at_start rfl
      cut.widths inside_int
    have behind := inside _ _ (reads (needed + 1) (Nat.le_succ _) _ List.mem_cons_self)
    rw [bytes, List.length_append] at behind
    have place : fmt + (chars.length + [(0 : UInt8)].length) ≤ fmt + chars.length := behind
    rw [List.length_singleton] at place
    omega
  · intro whole fuel address read
    refine @formatReads_le memory ⟨fmt, args, []⟩ chars fuel address string (Nat.two_pow_pos 31) (fun _ _ _ cut => ?_) read
    exact whole ⟨_, _, _, cut⟩

theorem CutShort.last (cut : CutShort memory chars args) :
    chars.getLast? = some '%'.toUInt8 ∨ ∃ digit, isDigit digit.toNat ∧ chars.getLast? = some digit := by
  obtain ⟨pieces, zeroPadding, digits, cut⟩ := cut
  have wellFormed := (List.forall_mem_append.mp cut.wellFormed).2 _ List.mem_cons_self
  have all : ∀ digit ∈ (if zeroPadding then ['0'.toUInt8] else []) ++ digits, isDigit digit.toNat := by
    refine List.forall_mem_append.mpr ⟨?_, wellFormed.1⟩
    cases zeroPadding <;> simp
    decide
  have some_byte : lead zeroPadding digits ≠ [] := List.cons_ne_nil _ _
  rw [cut.ends, List.getLast?_append_of_ne_nil _ some_byte, lead]
  rcases List.eq_nil_or_concat ((if zeroPadding then ['0'.toUInt8] else []) ++ digits) with none | ⟨front, digit, behind⟩
  · rw [none]
    exact .inl rfl
  · rw [behind] at all ⊢
    refine .inr ⟨digit, all digit (by simp), ?_⟩
    rw [List.concat_eq_append, ← List.cons_append, List.getLast?_concat]

theorem sprintf_reads_inside_number : Bytes.HoldsString (.holding [(0x1000, [0x25, 0x64])]) 0x1000 [0x25, 0x64] ∧
    ∀ fuel, ∀ address ∈ formatReads (.holding [(0x1000, [0x25, 0x64])]) fuel ⟨0x1000, .const 5, []⟩, address ≤ 0x1002 := by
  have string : Bytes.HoldsString (.holding [(0x1000, [0x25, 0x64])]) 0x1000 [0x25, 0x64] := .of_holding (by decide) (by decide)
  refine ⟨string, (sprintf_reads_inside_iff string).mpr fun cut => ?_⟩
  rcases cut.last with percent | ⟨digit, range, last⟩
  · exact absurd percent (by decide)
  · cases last
    exact absurd range (by decide)

/-- A format that ends in `%` is read on behind its end. -/
theorem sprintf_reads_behind_percent : Bytes.HoldsString (.holding [(0x1000, [0x25])]) 0x1000 [0x25] ∧
    ¬ ∀ fuel, ∀ address ∈ formatReads (.holding [(0x1000, [0x25])]) fuel ⟨0x1000, .const 0, []⟩, address ≤ 0x1001 := by
  refine ⟨.of_holding (by decide) (by decide), fun inside => ?_⟩
  have behind : 0x1002 ∈ formatReads (.holding [(0x1000, [0x25])]) 2 ⟨0x1000, .const 0, []⟩ := by decide
  exact absurd (inside _ _ behind) (by decide)

end BarrelOS.Lib
