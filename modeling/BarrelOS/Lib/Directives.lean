import BarrelOS.Lib.Format
import Mathlib.Algebra.Group.Int.Defs
import Mathlib.Algebra.Ring.Nat

namespace BarrelOS.Lib

open BarrelOS.Data BarrelOS.Semantics

/-! What the directives of a format mean -/

def decimal (n : Nat) : List UInt8 := (Nat.toDigits 10 n).map Char.toUInt8

def hexadecimal (n : Nat) : List UInt8 := (Nat.toDigits 16 n).map Char.toUInt8

def fill (zeroPadding : Bool) : UInt8 := if zeroPadding then '0'.toUInt8 else ' '.toUInt8

/-- What a piece stands for, with the arguments in front of it and behind it; a number is not negative. -/
inductive Piece.Means (memory : Bytes) : Piece → Stream' UInt32 → Stream' UInt32 → List UInt8 → Prop
  | literal {char : UInt8} {args : Stream' UInt32} : Means memory (.literal char) args args [char]
  | number {zeroPadding : Bool} {digits : List UInt8} {args : Stream' UInt32} (nonnegative : args.head.toNat < 2 ^ 31) :
      Means memory (.directive zeroPadding digits 'd'.toUInt8) args args.tail
        ((decimal args.head.toNat).leftpad (value digits) (fill zeroPadding))
  | hex {zeroPadding : Bool} {digits : List UInt8} {args : Stream' UInt32} :
      Means memory (.directive zeroPadding digits 'x'.toUInt8) args args.tail
        ((hexadecimal args.head.toNat).leftpad 8 '0'.toUInt8)
  | string {zeroPadding : Bool} {digits chars : List UInt8} {args : Stream' UInt32} (present : args.head ≠ 0)
      (string : memory.HoldsString args.head.toNat chars) :
      Means memory (.directive zeroPadding digits 's'.toUInt8) args args.tail chars
  | null {zeroPadding : Bool} {digits : List UInt8} {args : Stream' UInt32} (absent : args.head = 0) :
      Means memory (.directive zeroPadding digits 's'.toUInt8) args args.tail ("(null)".toList.map Char.toUInt8)
  | char {zeroPadding : Bool} {digits : List UInt8} {args : Stream' UInt32} :
      Means memory (.directive zeroPadding digits 'c'.toUInt8) args args.tail [args.head.toUInt8]

/-- The word that a 32-bit `int` is passed in. -/
def word (n : Int) : UInt32 := UInt32.ofNat (n % 2 ^ 32).toNat

def sign (n : Int) : List UInt8 := if n < 0 then ['-'.toUInt8] else []

/-- A text is the signed decimal notation of a number, padded to a width in front of the sign or behind it. -/
structure Denotes (n : Int) (width : Nat) (zeroPadding : Bool) (text : List UInt8) : Prop where
  filled : width ≤ text.length
  digits : ∃ count, text = List.replicate count (fill zeroPadding) ++ (sign n ++ decimal n.natAbs) ∨
    text = sign n ++ (List.replicate count (fill zeroPadding) ++ decimal n.natAbs)

variable {memory : Bytes} {state : Formatting} {piece : Piece} {pieces : List Piece} {args rest : Stream' UInt32}
  {digits out text : List UInt8} {zeroPadding : Bool} {fmt width n places : Nat}

/-! The digits of a number -/

theorem digitChar_toUInt8 : ∀ digit < 16,
    (Nat.digitChar digit).toUInt8 = UInt8.ofNat (if digit < 10 then digit + 48 else digit - 10 + 97) := by
  decide

theorem decimal_step (n : Nat) : decimal n = (if n < 10 then [] else decimal (n / 10)) ++ [UInt8.ofNat (n % 10 + 48)] := by
  have digit : ∀ k < 10, (Nat.digitChar k).toUInt8 = UInt8.ofNat (k + 48) := by decide
  rw [decimal, Nat.toDigits_eq_if (by decide)]
  split
  · rename_i single
    rw [Nat.mod_eq_of_lt single, ← digit n single]
    rfl
  · rw [List.map_append, ← digit (n % 10) (Nat.mod_lt _ (by decide))]
    rfl

theorem numeral_decimal (n : Nat) : numeral 10 n = decimal n := by
  induction n using Nat.strongRecOn with
  | ind n ih =>
      have digit : ∀ k < 10, digitByte k = UInt8.ofNat (k + 48) := by decide
      rw [decimal_step, ← digit _ (Nat.mod_lt n (by decide))]
      by_cases single : n < 10
      · rw [if_pos single, Nat.mod_eq_of_lt single]
        by_cases zero : n = 0
        · subst zero
          rfl
        · rw [numeral, if_neg zero, Nat.digits_of_lt 10 n zero single]
          rfl
      · have higher : n / 10 ≠ 0 := by omega
        rw [if_neg single, ← ih (n / 10) (by omega), numeral, numeral, if_neg (by omega), if_neg higher,
          Nat.digits_eq_cons_digits_div (by decide) (by omega), List.map_cons, List.reverse_cons]

theorem numberText_eq (n width : Nat) : numberText 10 n width zeroPadding = (decimal n).leftpad width (fill zeroPadding) := by
  have length : digitCount 10 n = (decimal n).length := by rw [← numeral_length, numeral_decimal]
  have count : ((width : Int) - (decimal n).length).toNat = width - (decimal n).length := by omega
  rw [numberText, padding, length, count, numeral_decimal]
  rfl

/-- The hexadecimal digits of a number in a number of places. -/
def hexPlaces (places n : Nat) : List UInt8 :=
  (List.range places).reverse.map fun i => (Nat.digitChar (n / 16 ^ i % 16)).toUInt8

theorem hexPlaces_succ : hexPlaces (places + 1) n = hexPlaces places (n / 16) ++ [(Nat.digitChar (n % 16)).toUInt8] := by
  have shift : ∀ i, n / 16 ^ (i + 1) = n / 16 / 16 ^ i := by
    intro i
    rw [Nat.div_div_eq_div_mul, Nat.pow_succ']
  simp only [hexPlaces, List.range_succ_eq_map, List.reverse_cons, List.map_append, List.map_reverse, List.map_map,
    Function.comp_def, Nat.succ_eq_add_one, shift, List.map_cons, List.map_nil, Nat.pow_zero, Nat.div_one]

theorem hexPlaces_zero : hexPlaces places 0 = List.replicate places '0'.toUInt8 := by
  induction places with
  | zero => rfl
  | succ places ih =>
      rw [hexPlaces_succ, Nat.zero_div, ih, List.replicate_succ']
      rfl

theorem hexPlaces_eq (bound : n < 16 ^ (places + 1)) :
    hexPlaces (places + 1) n = (hexadecimal n).leftpad (places + 1) '0'.toUInt8 := by
  induction places generalizing n with
  | zero =>
      have single : n < 16 := bound
      rw [hexPlaces_succ, hexadecimal, Nat.toDigits_of_lt_base single, Nat.mod_eq_of_lt single]
      rfl
  | succ places ih =>
      rw [hexPlaces_succ, hexadecimal, Nat.toDigits_eq_if (by decide)]
      split
      · rename_i single
        rw [Nat.div_eq_of_lt single, hexPlaces_zero, Nat.mod_eq_of_lt single]
        rfl
      · rw [ih (by omega), List.map_append, List.leftpad, List.leftpad, List.length_append, hexadecimal]
        simp only [List.map_cons, List.map_nil, List.length_cons, List.length_nil, Nat.add_sub_add_right,
          List.append_assoc]

theorem hexText_eq (word : UInt32) : hexText word.toNat = (hexadecimal word.toNat).leftpad 8 '0'.toUInt8 := by
  have bound : word.toNat < 16 ^ (7 + 1) := UInt32.toNat_lt word
  rw [← hexPlaces_eq bound, hexText, hexPlaces]
  refine List.map_congr_left fun i _ => ?_
  have nibble : word.toNat >>> (i * 4) &&& 0x0F = word.toNat / 16 ^ i % 16 := by
    have power : 2 ^ (i * 4) = 16 ^ i := by rw [Nat.mul_comm, Nat.pow_mul]
    rw [← power, ← Nat.shiftRight_eq_div_pow]
    exact Nat.and_two_pow_sub_one_eq_mod _ 4
  simp only [hexDigit, nibble]
  exact (digitChar_toUInt8 _ (Nat.mod_lt _ (by decide))).symm

/-! A piece writes what it means -/

theorem Piece.Means.yields (means : piece.Means memory args rest text) : piece.Yields memory args rest text := by
  cases means with
  | literal => exact .literal
  | number => exact numberText_eq _ _ ▸ .number
  | hex => exact hexText_eq _ ▸ .hex
  | string present string => exact .string present string
  | null absent => exact .null absent
  | char => exact .char

theorem means_yields (means : Served (Piece.Means memory) pieces args rest out) :
    Served (Piece.Yields memory) pieces args rest out := by
  induction means with
  | nil => exact .nil
  | cons here _ ih => exact .cons here.yields ih

/-- `sprintf` writes what its format means, if its length is an `int`, and leaves the arguments
behind it, for the whole format and for any two parts of it one after the other. -/
theorem sprintf_formats (wellFormed : ∀ piece ∈ pieces, piece.WellFormed) (widths : ∀ piece ∈ pieces, piece.WidthFits)
    (means : Served (Piece.Means memory) pieces args rest out) (int : out.length < 2 ^ 31) :
    (∀ fmt, memory.HoldsString fmt (pieces.flatMap Piece.bytes) → Returns memory fmt args rest out) ∧
      ∀ first second, pieces = first ++ second → ∃ middle head tail, out = head ++ tail ∧
        (∀ fmt, memory.HoldsString fmt (first.flatMap Piece.bytes) → Returns memory fmt args middle head) ∧
          ∀ fmt, memory.HoldsString fmt (second.flatMap Piece.bytes) → Returns memory fmt middle rest tail := by
  have served := means_yields means
  refine ⟨fun fmt format => (sprintf_returns_iff served wellFormed format).mpr ⟨widths, int⟩, ?_⟩
  intro first second same
  subst same
  obtain ⟨middle, head, tail, earlier, later, parts⟩ := served.split
  rw [List.forall_mem_append] at wellFormed widths
  rw [parts, List.length_append] at int
  refine ⟨middle, head, tail, parts, fun fmt format => ?_, fun fmt format => ?_⟩
  · exact (sprintf_returns_iff earlier wellFormed.1 format).mpr ⟨widths.1, by omega⟩
  · exact (sprintf_returns_iff later wellFormed.2 format).mpr ⟨widths.2, by omega⟩

def paddedMemory : Bytes := .holding [(0x1000, [0x25, 0x30, 0x33, 0x64, 0x7C, 0x25, 0x73]), (0x2000, [0x6F, 0x6B])]

theorem sprintf_formats_padded : Returns paddedMemory 0x1000 (.cons 42 (.cons 0x2000 (.const 0))) (.const 0)
    [0x30, 0x34, 0x32, 0x7C, 0x6F, 0x6B] := by
  have string : paddedMemory.HoldsString 0x2000 [0x6F, 0x6B] := by
    refine ⟨by decide, fun i char here => ?_, rfl⟩
    match i with
    | 0 | 1 => exact Option.some_inj.mp here
  have format : paddedMemory.HoldsString 0x1000 [0x25, 0x30, 0x33, 0x64, 0x7C, 0x25, 0x73] := by
    refine ⟨by decide, fun i char here => ?_, rfl⟩
    match i with
    | 0 | 1 | 2 | 3 | 4 | 5 | 6 => exact Option.some_inj.mp here
  have number : Piece.Means paddedMemory (.directive true [0x33] 0x64) (.cons 42 (.cons 0x2000 (.const 0)))
      (.cons 0x2000 (.const 0)) [0x30, 0x34, 0x32] := .number (by decide)
  have bar : Piece.Means paddedMemory (.literal 0x7C) (.cons 0x2000 (.const 0)) (.cons 0x2000 (.const 0)) [0x7C] := .literal
  have letters : Piece.Means paddedMemory (.directive false [] 0x73) (.cons 0x2000 (.const 0)) (.const 0) [0x6F, 0x6B] :=
    .string (by decide) string
  have means : Served (Piece.Means paddedMemory) [.directive true [0x33] 0x64, .literal 0x7C, .directive false [] 0x73]
      (.cons 42 (.cons 0x2000 (.const 0))) (.const 0) [0x30, 0x34, 0x32, 0x7C, 0x6F, 0x6B] := .cons number (.cons bar (.single letters))
  exact (sprintf_formats (by decide) (by decide) means (by decide)).1 0x1000 format

def longFormat : List UInt8 := [0x61, 0x25, 0x32, 0x31, 0x34, 0x37, 0x34, 0x38, 0x33, 0x36, 0x34, 0x37, 0x64]

def longPieces : List Piece := [.literal 0x61, .directive false [0x32, 0x31, 0x34, 0x37, 0x34, 0x38, 0x33, 0x36, 0x34, 0x37] 0x64]

/-- `sprintf(s, "a%2147483647d", 0)` would have to return 2147483648. -/
theorem sprintf_length_overflows : ∃ out, Bytes.HoldsString (.holding [(0x1000, longFormat)]) 0x1000 (longPieces.flatMap Piece.bytes) ∧
    (∀ piece ∈ longPieces, piece.WellFormed ∧ piece.WidthFits) ∧
      Served (Piece.Means (.holding [(0x1000, longFormat)])) longPieces (.const 0) (.const 0) out ∧ out.length = 2 ^ 31 ∧
        ¬ Returns (.holding [(0x1000, longFormat)]) 0x1000 (.const 0) (.const 0) out := by
  have format : Bytes.HoldsString (.holding [(0x1000, longFormat)]) 0x1000 (longPieces.flatMap Piece.bytes) :=
    .of_holding (by decide) (by decide)
  have means : Served (Piece.Means (.holding [(0x1000, longFormat)])) longPieces (.const 0) (.const 0) _ :=
    .cons .literal (.single (.number (by decide)))
  have length : ([0x61] ++ (decimal 0).leftpad (value [0x32, 0x31, 0x34, 0x37, 0x34, 0x38, 0x33, 0x36, 0x34, 0x37])
      (fill false)).length = 2 ^ 31 := by
    rw [List.length_append, List.length_leftpad]
    decide
  refine ⟨_, format, by decide, means, length, fun returns => ?_⟩
  have short := ((sprintf_returns_iff (means_yields means) (by decide) format).mp returns).2
  exact absurd length (Nat.ne_of_lt short)

/-! `%d` for either sign -/

theorem isDigit_of_mem_decimal {byte : UInt8} (member : byte ∈ decimal n) : isDigit byte.toNat := by
  induction n using Nat.strongRecOn with
  | ind n ih =>
      rw [decimal_step] at member
      rcases List.mem_append.mp member with earlier | last
      · split at earlier
        · cases earlier
        · exact ih (n / 10) (by omega) earlier
      · have digit : ∀ k < 10, isDigit (UInt8.ofNat (k + 48)).toNat := by decide
        rw [List.mem_singleton.mp last]
        exact digit _ (Nat.mod_lt _ (by decide))

theorem word_natAbs {n : Int} (nonnegative : 0 ≤ n) (high : n < 2 ^ 31) : (word n).toNat = n.natAbs := by
  rw [word, UInt32.toNat_ofNat']
  omega

theorem Denotes.minus {n : Int} (denotes : Denotes n width zeroPadding text) (negative : n < 0) : '-'.toUInt8 ∈ text := by
  have signed : sign n = ['-'.toUInt8] := if_pos negative
  obtain ⟨_, count, shape⟩ := denotes
  rw [signed] at shape
  rcases shape with same | same
  · simp [same]
  · simp [same]

/-- The text for a `%d` denotes its number exactly when that is not negative. -/
theorem leftpad_denotes_iff {n : Int} (high : n < 2 ^ 31) :
    Denotes n width zeroPadding ((decimal (word n).toNat).leftpad width (fill zeroPadding)) ↔ 0 ≤ n := by
  constructor
  · intro denotes
    by_contra negative
    have minus := denotes.minus (Int.not_le.mp negative)
    rcases List.mem_append.mp minus with padded | digit
    · have same := List.eq_of_mem_replicate padded
      cases zeroPadding <;> exact absurd same (by decide)
    · exact absurd (isDigit_of_mem_decimal digit) (by decide)
  · intro nonnegative
    have unsigned : sign n = [] := if_neg (Int.not_lt.mpr nonnegative)
    rw [word_natAbs nonnegative high]
    refine ⟨?_, width - (decimal n.natAbs).length, .inl ?_⟩
    · rw [List.length_leftpad]
      exact Nat.le_max_left _ _
    · rw [unsigned]
      rfl

/-- A turn over a `%d` returns with the signed notation of its number written exactly when that is
not negative and neither its width nor the index behind it is too large for an `int`. -/
theorem sprintf_signed_iff {n : Int} (high : n < 2 ^ 31)
    (wellFormed : (Piece.directive zeroPadding digits 'd'.toUInt8).WellFormed)
    (holds : memory.Holds state.fmt (Piece.directive zeroPadding digits 'd'.toUInt8).bytes)
    (next : state.args.head = word n) (int : state.written.length < 2 ^ 31) :
    (∃ text, (∃ needed, ∀ fuel ≥ needed, sprintfTurn fuel memory state =
        .done () (state.go (Piece.directive zeroPadding digits 'd'.toUInt8).front state.args.tail text)) ∧
      Denotes n (value digits) zeroPadding text) ↔
    0 ≤ n ∧ value digits < 2 ^ 31 ∧ state.written.length + max (value digits) (decimal n.natAbs).length < 2 ^ 31 := by
  have number : Piece.Yields memory (.directive zeroPadding digits 'd'.toUInt8) state.args state.args.tail _ := .number
  rw [next, numberText_eq] at number
  have length : ((decimal (word n).toNat).leftpad (value digits) (fill zeroPadding)).length =
      max (value digits) (decimal (word n).toNat).length := List.length_leftpad
  constructor
  · rintro ⟨text, ⟨needed, runs⟩, denotes⟩
    have run := runs needed (Nat.le_refl _)
    have fits : (Piece.directive zeroPadding digits 'd'.toUInt8).WidthFits := by
      by_contra unfit
      obtain ⟨_, _, stops | stops⟩ := sprintfTurn_overflows wellFormed holds unfit needed
      · cases stops.symm.trans run
      · cases stops.symm.trans run
    rcases (sprintfTurn_yields wellFormed holds number fits int).part needed with ⟨room, goes⟩ | ⟨_, _, stops | stops, _⟩
    · have same := congrArg Formatting.written (Outcome.done_unit.mp (run.symm.trans goes))
      have same := List.append_cancel_left same
      rw [← same] at denotes
      have nonnegative := (leftpad_denotes_iff high).mp denotes
      rw [length, word_natAbs nonnegative high] at room
      exact ⟨nonnegative, fits, room⟩
    · cases stops.symm.trans run
    · cases stops.symm.trans run
  · rintro ⟨nonnegative, fits, room⟩
    have inside : state.written.length + ((decimal (word n).toNat).leftpad (value digits) (fill zeroPadding)).length < 2 ^ 31 := by
      rw [length, word_natAbs nonnegative high]
      exact room
    obtain ⟨needed, runs⟩ := (sprintfTurn_yields wellFormed holds number fits int).returns inside
    exact ⟨_, ⟨needed, runs⟩, (leftpad_denotes_iff high).mpr nonnegative⟩

def numberMemory : Bytes := .holding [(0x1000, [0x25, 0x64])]

theorem sprintf_signed_five : ∃ text, (∃ needed, ∀ fuel ≥ needed, sprintfTurn fuel numberMemory ⟨0x1000, .const 5, []⟩ =
    .done () ⟨0x1001, .const 5, text⟩) ∧ Denotes 5 0 false text := by
  have holds : numberMemory.Holds 0x1000 [0x25, 0x64] :=
    Bytes.holds_cons.mpr ⟨by decide, Bytes.holds_cons.mpr ⟨by decide, nofun⟩⟩
  exact (@sprintf_signed_iff numberMemory ⟨0x1000, .const 5, []⟩ [] false 5 (by decide) (by decide) holds rfl
    (by decide)).mpr (by decide)

/-- -1 is printed as 4294967295. -/
theorem sprintf_drops_sign :
    sprintf 12 numberMemory 0x1000 (.const (word (-1))) =
      .done 10 ⟨0x1002, .const (word (-1)), [0x34, 0x32, 0x39, 0x34, 0x39, 0x36, 0x37, 0x32, 0x39, 0x35]⟩ ∧
    ¬ Denotes (-1) 0 false [0x34, 0x32, 0x39, 0x34, 0x39, 0x36, 0x37, 0x32, 0x39, 0x35] := by
  refine ⟨rfl, fun denotes => ?_⟩
  exact absurd (denotes.minus (by decide)) (by decide)

end BarrelOS.Lib
