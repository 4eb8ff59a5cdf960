import BarrelOS.Lib.Directives

namespace BarrelOS.Lib

open BarrelOS.Data BarrelOS.Semantics

/-! What `printf` and `vprintf` hand to the back ends -/

/-- Some piece of the format writes a byte: only directives of other letters and `%s`
of an empty string write none. -/
def Prints (memory : Bytes) : List Piece → Stream' UInt32 → Prop
  | [], _ => False
  | .literal _ :: _, _ => True
  | .directive _ _ letter :: rest, args =>
      if letter = 's'.toUInt8 then args.head = 0 ∨ memory.load8 args.head.toNat ≠ 0 ∨ Prints memory rest args.tail
      else letter ∈ ['d'.toUInt8, 'x'.toUInt8, 'c'.toUInt8] ∨ Prints memory rest args

variable {memory stack : Bytes} {fmt : Nat} {args rest : Stream' UInt32} {output : Output} {pieces : List Piece} {out : List UInt8}

theorem numberText_ne_nil (base val : Nat) (width : Int) (zeroPadding : Bool) : numberText base val width zeroPadding ≠ [] := by
  refine List.append_ne_nil_of_right_ne_nil _ (List.length_pos_iff.mp ?_)
  rw [numeral_length]
  exact Nat.le_max_left 1 _

theorem prints_iff (served : Served (Piece.Yields memory) pieces args rest out) : Prints memory pieces args ↔ out ≠ [] := by
  induction served with
  | nil => exact iff_of_false id (not_not.mpr rfl)
  | @cons piece pieces args middle left text later here _ ih =>
      have given : ∀ {condition : Prop}, condition → text ≠ [] → (condition ↔ text ++ later ≠ []) := fun holds some_byte =>
        iff_of_true holds (List.append_ne_nil_of_left_ne_nil some_byte _)
      cases here with
      | literal => exact given trivial (List.cons_ne_nil _ _)
      | number =>
          rw [Prints, if_neg (by decide)]
          exact given (.inl (by decide)) (numberText_ne_nil _ _ _ _)
      | hex =>
          rw [Prints, if_neg (by decide)]
          exact given (.inl (by decide)) (List.cons_ne_nil _ _)
      | string present pointed =>
          rw [Prints, if_pos rfl]
          cases text with
          | nil =>
              have ends : ¬ memory.load8 args.head.toNat ≠ 0 := not_not.mpr pointed.nil
              rw [or_iff_right present, or_iff_right ends]
              exact ih
          | cons char text => exact given (.inr (.inl pointed.head.2)) (List.cons_ne_nil _ _)
      | null absent =>
          rw [Prints, if_pos rfl]
          exact given (.inl absent) (List.cons_ne_nil _ _)
      | char =>
          rw [Prints, if_neg (by decide)]
          exact given (.inl (by decide)) (List.cons_ne_nil _ _)
      | other unknown =>
          simp only [List.mem_cons, List.not_mem_nil, or_false, not_or] at unknown
          rw [Prints, if_neg unknown.2.2.1]
          refine Iff.trans ?_ ih
          simp only [List.mem_cons, List.not_mem_nil, or_false, unknown, false_or]

/-- The text is handed to every back end as a string, and its length is returned. -/
structure Shows (output : Output) (out : List UInt8) (printed : Printed) : Prop where
  ret : printed.ret = out.length
  called : printed.calls.map Prod.fst = output.backEnds
  handed : ∀ call ∈ printed.calls, call.2.HoldsString 0 out

theorem fillBuf_holdsString (plain : 0 ∉ out) (short : out.length ≤ 1023) :
    (fillBuf out (initialBuf stack)).HoldsString 0 out ↔ out ≠ [] := by
  constructor
  · rintro string rfl
    exact absurd string.terminated (by decide : (0xFF : UInt8) ≠ 0)
  · intro some_text
    have positive : 0 < out.length := List.length_pos_iff.mpr some_text
    refine ⟨plain, fun i char here => ?_, ?_⟩
    · have inside : i < out.length := (List.getElem?_eq_some_iff.mp here).1
      rw [Nat.zero_add, Nat.mod_eq_of_lt (by omega), fillBuf, here]
      rfl
    · rw [Nat.zero_add, Nat.mod_eq_of_lt (by omega), fillBuf, List.getElem?_eq_none (Nat.le_refl _), Option.getD_none,
        initialBuf, if_neg (by omega), if_pos (by omega)]

/-- `printf` returns with this text handed over. -/
def HandsOver (print : Nat → Bytes → Bytes → Output → Nat → Stream' UInt32 → Outcome Formatting Printed)
    (memory stack : Bytes) (output : Output) (fmt : Nat) (args : Stream' UInt32) (out : List UInt8) : Prop :=
  ∃ enough, ∀ fuel ≥ enough, ∃ printed state, print fuel memory stack output fmt args = .done printed state ∧ Shows output out printed

theorem formatAndShow_hands_over (wellFormed : ∀ piece ∈ pieces, piece.WellFormed)
    (format : memory.HoldsString fmt (pieces.flatMap Piece.bytes)) (served : Served (Piece.Yields memory) pieces args rest out)
    (plain : 0 ∉ out) (short : out.length ≤ 1023) :
    HandsOver formatAndShow memory stack output fmt args out ↔ Prints memory pieces args ∧ ∀ piece ∈ pieces, piece.WidthFits := by
  have returns := sprintf_returns_iff served wellFormed format
  have handed : (fillBuf out (initialBuf stack)).HoldsString 0 out ↔ out ≠ [] := fillBuf_holdsString plain short
  rw [prints_iff served, ← handed]
  constructor
  · intro hands
    obtain ⟨enough, runs⟩ := hands
    have widths : ∀ piece ∈ pieces, piece.WidthFits := by
      obtain ⟨_, _, run, _⟩ := runs enough (Nat.le_refl _)
      obtain ⟨_, _, run, _⟩ := Outcome.bind_done.mp run
      obtain ⟨_, _, run, _⟩ := Outcome.bind_done.mp run
      exact (@sprintfLoop_fits memory ⟨fmt, args, []⟩ _ _ _ _ _ served _ (.of_string format wellFormed) rfl (Nat.two_pow_pos 31) run).1
    obtain ⟨needed, finishes⟩ := returns.mpr ⟨widths, by omega⟩
    obtain ⟨printed, state, shown, shows⟩ := runs (max enough needed) (Nat.le_max_left _ _)
    obtain ⟨last, run⟩ := finishes (max enough needed) (Nat.le_max_right _ _)
    rw [formatAndShow, run, Outcome.done_bind] at shown
    cases shown
    obtain ⟨backEnd, called⟩ : ∃ backEnd, backEnd ∈ output.backEnds := ⟨_, List.mem_cons_self⟩
    exact ⟨shows.handed _ (List.mem_map_of_mem called), widths⟩
  · intro condition
    obtain ⟨string, widths⟩ := condition
    obtain ⟨needed, finishes⟩ := returns.mpr ⟨widths, by omega⟩
    refine ⟨needed, fun fuel more => ?_⟩
    obtain ⟨last, run⟩ := finishes fuel more
    refine ⟨_, _, Outcome.bind_done.mpr ⟨_, _, run, rfl⟩, rfl, ?_, ?_⟩
    · rw [List.map_map]
      exact List.map_id _
    · intro call member
      obtain ⟨backEnd, _, rfl⟩ := List.mem_map.mp member
      exact string

/-- The back ends get the formatted text as a string exactly when it has a byte and every width is an `int`. -/
theorem printf_hands_over (wellFormed : ∀ piece ∈ pieces, piece.WellFormed)
    (format : memory.HoldsString fmt (pieces.flatMap Piece.bytes)) (served : Served (Piece.Yields memory) pieces args rest out)
    (plain : 0 ∉ out) (short : out.length ≤ 1023) :
    ∀ print ∈ [printf, vprintf], (HandsOver print memory stack output fmt args out ↔
      Prints memory pieces args ∧ ∀ piece ∈ pieces, piece.WidthFits) := by
  have hands : HandsOver formatAndShow memory stack output fmt args out ↔ _ :=
    formatAndShow_hands_over wellFormed format served plain short
  exact List.forall_mem_cons.mpr ⟨hands, List.forall_mem_singleton.mpr hands⟩

theorem printf_hands_over_number : HandsOver printf (.holding [(0x1000, [0x6E, 0x25, 0x64])]) (fun _ => 0) ⟨true, false⟩ 0x1000
    (.const 42) [0x6E, 0x34, 0x32] := by
  have text : numberText 10 (Stream'.const (42 : UInt32)).head.toNat (value []) false = [0x34, 0x32] := by
    rw [numberText_eq]
    decide
  have number : Piece.Yields (.holding [(0x1000, [0x6E, 0x25, 0x64])]) (.directive false [] 0x64) (.const 42) (.const 42) _ := .number
  have served : Served (Piece.Yields (.holding [(0x1000, [0x6E, 0x25, 0x64])])) [.literal 0x6E, .directive false [] 0x64]
      (.const 42) (.const 42) ([0x6E] ++ _) := .cons .literal (.single number)
  rw [text] at served
  have format : Bytes.HoldsString (.holding [(0x1000, [0x6E, 0x25, 0x64])]) 0x1000
      ([Piece.literal 0x6E, .directive false [] 0x64].flatMap Piece.bytes) := .of_holding (by decide) (by decide)
  exact (printf_hands_over (by decide) format served (by decide) (by decide) printf List.mem_cons_self).mpr ⟨trivial, by decide⟩

/-- `printf("")` hands over the byte 0xFF that the buffer starts with. -/
theorem printf_shows_stale_byte : ∃ printed state,
    printf 1 (.holding []) (fun _ => 0) ⟨false, false⟩ 0x1000 (.const 0) = .done printed state ∧ printed.ret = 0 ∧
      printed.calls.map Prod.fst = [.vgaPuts] ∧ (∀ call ∈ printed.calls, call.2.HoldsString 0 [0xFF]) ∧
      ¬ Shows ⟨false, false⟩ [] printed := by
  have stale : (fillBuf [] (initialBuf fun _ => 0)).HoldsString 0 [0xFF] := by
    refine ⟨by decide, fun i char here => ?_, rfl⟩
    match i with
    | 0 => exact Option.some_inj.mp here
  refine ⟨_, _, rfl, rfl, rfl, List.forall_mem_singleton.mpr stale, fun shows => ?_⟩
  have empty := shows.handed _ (List.mem_singleton.mpr rfl)
  exact absurd (stale.unique empty) (List.cons_ne_nil _ _)

end BarrelOS.Lib
