import BarrelOS.Lib.Directives

namespace BarrelOS.Lib

open BarrelOS.Data BarrelOS.Semantics

/-! The room for the text of a format -/

/-- The room that a text takes, and whether there is a zero in it. -/
structure Span where
  size : Nat
  zero : Bool

/-- The room that a piece takes, with the arguments in front of it and behind it. -/
inductive Piece.Spans (memory : Bytes) : Piece → Stream' UInt32 → Stream' UInt32 → List Span → Prop
  | literal {char : UInt8} {args : Stream' UInt32} : Spans memory (.literal char) args args [⟨1, false⟩]
  | number {zeroPadding : Bool} {digits : List UInt8} {args : Stream' UInt32} :
      Spans memory (.directive zeroPadding digits 'd'.toUInt8) args args.tail
        [⟨max (value digits) (decimal args.head.toNat).length, false⟩]
  | hex {zeroPadding : Bool} {digits : List UInt8} {args : Stream' UInt32} :
      Spans memory (.directive zeroPadding digits 'x'.toUInt8) args args.tail [⟨8, false⟩]
  | string {zeroPadding : Bool} {digits chars : List UInt8} {args : Stream' UInt32} (present : args.head ≠ 0)
      (string : memory.HoldsString args.head.toNat chars) :
      Spans memory (.directive zeroPadding digits 's'.toUInt8) args args.tail [⟨chars.length, false⟩]
  | null {zeroPadding : Bool} {digits : List UInt8} {args : Stream' UInt32} (absent : args.head = 0) :
      Spans memory (.directive zeroPadding digits 's'.toUInt8) args args.tail [⟨6, false⟩]
  | char {zeroPadding : Bool} {digits : List UInt8} {args : Stream' UInt32} :
      Spans memory (.directive zeroPadding digits 'c'.toUInt8) args args.tail [⟨1, args.head.toUInt8 = 0⟩]
  | other {zeroPadding : Bool} {digits : List UInt8} {letter : UInt8} {args : Stream' UInt32}
      (unknown : letter ∉ ['d'.toUInt8, 'x'.toUInt8, 's'.toUInt8, 'c'.toUInt8]) :
      Spans memory (.directive zeroPadding digits letter) args args []

def room (spans : List Span) : Nat := (spans.map Span.size).sum

variable {memory : Bytes} {piece : Piece} {pieces : List Piece} {args rest : Stream' UInt32} {digits out text : List UInt8}
  {spans : List Span} {fmt : Nat}

structure Spanned (text : List UInt8) (spans : List Span) : Prop where
  size : room spans = text.length
  zero : (∃ span ∈ spans, span.zero) ↔ 0 ∈ text

namespace Spanned

theorem nil : Spanned [] [] := ⟨rfl, by simp⟩

theorem append {more : List UInt8} {later : List Span} (first : Spanned text spans) (second : Spanned more later) :
    Spanned (text ++ more) (spans ++ later) where
  size := by
    have sizes := first.size
    have others := second.size
    simp only [room, List.map_append, List.sum_append, List.length_append] at *
    rw [sizes, others]
  zero := by
    rw [List.mem_append, ← first.zero, ← second.zero]
    simp only [List.mem_append, or_and_right, exists_or]

theorem plain {size : Nat} (length : size = text.length) (nonzero : 0 ∉ text) : Spanned text [⟨size, false⟩] where
  size := by simp [room, length]
  zero := by simp [nonzero]

end Spanned

theorem zero_not_mem_number (n width : Nat) (zeroPadding : Bool) : 0 ∉ (decimal n).leftpad width (fill zeroPadding) := by
  intro member
  rcases List.mem_append.mp member with padded | digit
  · have same := List.eq_of_mem_replicate padded
    cases zeroPadding <;> exact absurd same (by decide)
  · exact absurd (isDigit_of_mem_decimal digit) (by decide)

theorem hexText_spanned (word : Nat) : Spanned (hexText word) [⟨8, false⟩] := by
  refine .plain rfl fun member => ?_
  obtain ⟨i, _, zero⟩ := List.mem_map.mp member
  have nibble : word >>> (i * 4) &&& 0x0F < 16 := Nat.lt_of_le_of_lt Nat.and_le_right (by decide)
  have digits : ∀ digit < 16, UInt8.ofNat (if digit < 10 then digit + 48 else digit - 10 + 97) ≠ 0 := by decide
  exact digits _ nibble zero

theorem numberText_spanned (n width : Nat) (zeroPadding : Bool) :
    Spanned (numberText 10 n width zeroPadding) [⟨max width (decimal n).length, false⟩] := by
  rw [numberText_eq]
  exact .plain List.length_leftpad.symm (zero_not_mem_number _ _ _)

theorem char_spanned (char : UInt8) : Spanned [char] [⟨1, char = 0⟩] where
  size := rfl
  zero := by
    simp only [List.mem_singleton, exists_eq_left, decide_eq_true_eq]
    exact eq_comm

theorem literal_spanned {char : UInt8} (begins : Piece.literal char ≠ .literal 0) : Spanned [char] [⟨1, false⟩] :=
  .plain rfl fun member => begins (congrArg Piece.literal (List.mem_singleton.mp member).symm)

theorem spans_of_yields (begins : piece ≠ .literal 0) (yields : piece.Yields memory args rest text) :
    ∃ spans, piece.Spans memory args rest spans ∧ Spanned text spans := by
  cases yields with
  | literal => exact ⟨_, .literal, literal_spanned begins⟩
  | number => exact ⟨_, .number, numberText_spanned _ _ _⟩
  | hex => exact ⟨_, .hex, hexText_spanned _⟩
  | string present string => exact ⟨_, .string present string, .plain rfl string.nonzero⟩
  | null absent => exact ⟨_, .null absent, .plain rfl (by decide)⟩
  | char => exact ⟨_, .char, char_spanned _⟩
  | other unknown => exact ⟨_, .other unknown, .nil⟩

theorem yields_of_spans (begins : piece ≠ .literal 0) (takes : piece.Spans memory args rest spans) :
    ∃ text, piece.Yields memory args rest text ∧ Spanned text spans := by
  cases takes with
  | literal => exact ⟨_, .literal, literal_spanned begins⟩
  | number => exact ⟨_, .number, numberText_spanned _ _ _⟩
  | hex => exact ⟨_, .hex, hexText_spanned _⟩
  | string present string => exact ⟨_, .string present string, .plain rfl string.nonzero⟩
  | null absent => exact ⟨_, .null absent, .plain rfl (by decide)⟩
  | char => exact ⟨_, .char, char_spanned _⟩
  | other unknown => exact ⟨_, .other unknown, .nil⟩

section

variable (at_start : PiecesAt memory fmt pieces)
include at_start

theorem served_spans (served : Served (Piece.Yields memory) pieces args rest out) :
    ∃ spans, Served (Piece.Spans memory) pieces args rest spans ∧ Spanned out spans :=
  served.transfer (fun piece => piece ≠ .literal 0) Spanned .nil Spanned.append spans_of_yields
    fun _ member same => at_start.begins (same ▸ member)

theorem spans_served (served : Served (Piece.Spans memory) pieces args rest spans) :
    ∃ out, Served (Piece.Yields memory) pieces args rest out ∧ Spanned out spans :=
  served.transfer (fun piece => piece ≠ .literal 0) (fun spans out => Spanned out spans) .nil
    (fun first second => first.append second) yields_of_spans fun _ member same => at_start.begins (same ▸ member)

end

end BarrelOS.Lib
