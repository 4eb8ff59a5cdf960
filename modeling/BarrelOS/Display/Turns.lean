import BarrelOS.Display.Vga

namespace BarrelOS.Display

open BarrelOS.Data BarrelOS.Semantics BarrelOS.Lib

/-! The turns of the loop of `vga_puts` -/

/-- What a turn takes: a byte, one of the two commands, or a colour sequence with the byte
behind it, which is not looked at. -/
inductive Turn where
  | byte (c : UInt8)
  | clear
  | home
  | select (params : List UInt8) (c : UInt8)
deriving DecidableEq

namespace Turn

def clearCommand : List UInt8 := ['2'.toUInt8, 'J'.toUInt8]

def homeCommand : List UInt8 := ['H'.toUInt8]

def bytes : Turn → List UInt8
  | byte c => [c]
  | clear => esc :: '['.toUInt8 :: clearCommand
  | home => esc :: '['.toUInt8 :: homeCommand
  | select params c => (Token.sequence params).bytes ++ [c]

end Turn

def Vga.home (vga : Vga) : Vga := { vga with x := 0, y := 0 }.updateCursor

def Vga.turn (vga : Vga) : Turn → Vga
  | .byte c => vga.type c
  | .clear => vga.clear
  | .home => vga.home
  | .select params c => (vga.select (codeOf params)).type c

/-- Parameters that the buffer has room for and that are not taken for a command. -/
structure Selects (params : List UInt8) : Prop where
  short : params.length ≤ 3
  inside : 'm'.toUInt8 ∉ params
  clear : ¬ Turn.clearCommand <+: params
  home : ¬ Turn.homeCommand <+: params

/-- The turn taken at the start of a string, and what it leaves. -/
inductive Takes : Turn → List UInt8 → List UInt8 → Prop
  | byte {c : UInt8} {rest : List UInt8} (plain : ¬ (c = esc ∧ rest.head? = some '['.toUInt8)) :
      Takes (.byte c) (c :: rest) rest
  | clear {rest : List UInt8} : Takes .clear (Turn.clear.bytes ++ rest) rest
  | home {rest : List UInt8} : Takes .home (Turn.home.bytes ++ rest) rest
  | select {params : List UInt8} {c : UInt8} {rest : List UInt8} (selects : Selects params) :
      Takes (.select params c) ((Turn.select params c).bytes ++ rest) rest

/-- The turns taken from the start of a string on, and what they leave. -/
inductive Turns : List Turn → List UInt8 → List UInt8 → Prop
  | nil {chars : List UInt8} : Turns [] chars chars
  | cons {turn : Turn} {turns : List Turn} {chars middle rest : List UInt8} (takes : Takes turn chars middle)
      (later : Turns turns middle rest) : Turns (turn :: turns) chars rest

variable {text x y : Text} {str fuel : Nat} {vga : Vga} {c : UInt8} {chars rest last params command : List UInt8}
  {turn other : Turn} {turns : List Turn}

/-! Commands -/

theorem strncmp_clear (holds : text.Holds str chars) :
    ∃ diff, strncmp text (.only 0 ['2'.toUInt8, 'J'.toUInt8]) 2 str 0 = some diff ∧ (diff = 0 ↔ Turn.clearCommand <+: chars) :=
  strncmp_prefix holds (Text.only_holds 0 (by decide) : (Text.only 0 Turn.clearCommand).Holds 0 Turn.clearCommand)

theorem strncmp_home (holds : text.Holds str chars) :
    ∃ diff, strncmp text (.only 0 ['H'.toUInt8]) 1 str 0 = some diff ∧ (diff = 0 ↔ Turn.homeCommand <+: chars) :=
  strncmp_prefix holds (Text.only_holds 0 (by decide) : (Text.only 0 Turn.homeCommand).Holds 0 Turn.homeCommand)

theorem vgaEscape_eq (holds : text.Holds (str + 2) chars) : vgaEscape fuel text str vga =
    if Turn.clearCommand <+: chars then .done (true, str + 4) vga.clear
    else if Turn.homeCommand <+: chars then .done (true, str + 3) vga.home
    else (escapeCode fuel text (str + 2) vga).bind fun (code, str) vga => .done (false, str) (vga.select code) := by
  obtain ⟨diff, clear_run, cleared⟩ := strncmp_clear holds
  obtain ⟨other, home_run, homed⟩ := strncmp_home holds
  simp only [vgaEscape, clear_run, home_run, Outcome.ofOption, Outcome.done_bind, cleared, homed]
  rfl

theorem prefix_of_stop (begins : command <+: params ++ c :: rest) (stop : c ∉ command) : command <+: params := by
  induction command generalizing params with
  | nil => exact List.nil_prefix
  | cons char command ih =>
      obtain ⟨other, others⟩ := not_or.mp (mt List.mem_cons.mpr stop)
      cases params with
      | nil => exact absurd (List.cons_prefix_cons.mp begins).1.symm other
      | cons param params =>
          obtain ⟨same, behind⟩ := List.cons_prefix_cons.mp begins
          exact List.cons_prefix_cons.mpr ⟨same, ih behind others⟩

theorem home_not_clear : ¬ Turn.clearCommand <+: Turn.homeCommand ++ rest := by
  intro begins
  exact absurd (List.cons_prefix_cons.mp begins).1 (by decide)

theorem Selects.plain (selects : Selects params) (rest : List UInt8) :
    ¬ Turn.clearCommand <+: params ++ 'm'.toUInt8 :: rest ∧ ¬ Turn.homeCommand <+: params ++ 'm'.toUInt8 :: rest :=
  ⟨fun begins => selects.clear (prefix_of_stop begins (by decide)), fun begins => selects.home (prefix_of_stop begins (by decide))⟩

theorem selects_of_digits (short : params.length ≤ 3) (plain : ∀ digit ∈ params, isDigit digit.toNat) : Selects params where
  short := short
  inside := fun member => digit_ne (plain _ member) (by decide) rfl
  clear := fun begins => digit_ne (plain 'J'.toUInt8 (begins.subset (by decide))) (by decide) rfl
  home := fun begins => digit_ne (plain 'H'.toUInt8 (begins.subset (by decide))) (by decide) rfl

theorem vgaEscape_select (holds : text.Holds str (esc :: '['.toUInt8 :: (params ++ 'm'.toUInt8 :: rest)))
    (selects : Selects params) (enough : params.length < fuel) :
    vgaEscape fuel text str vga = .done (false, str + 2 + params.length + 1) (vga.select (codeOf params)) := by
  obtain ⟨clear, home⟩ := selects.plain rest
  rw [vgaEscape_eq holds.tail.tail, if_neg clear, if_neg home,
    escapeCode_params holds.tail.tail selects.inside selects.short enough]
  rfl

/-! A turn, and all of them -/

theorem vgaPuts_escape (holds : text.Holds str (esc :: '['.toUInt8 :: rest)) :
    vgaPuts (fuel + 1) text str vga = (vgaEscape fuel text str vga).bind fun (continued, str) vga =>
      if continued then vgaPuts fuel text str vga
      else (Outcome.ofOption (text str) vga).bind fun char vga =>
        (vgaPutchar fuel char vga).bind fun _ vga => vgaPuts fuel text (str + 1) vga := by
  rw [vgaPuts, holds.head.1, isEscape_of_holds holds]
  simp only [Outcome.ofOption, Outcome.done_bind, if_pos holds.head.2]
  rfl

theorem select_bytes : (Turn.select params c).bytes ++ rest = esc :: '['.toUInt8 :: (params ++ 'm'.toUInt8 :: c :: rest) := by
  simp only [Turn.bytes, Token.bytes, List.cons_append, List.append_assoc, List.nil_append]

theorem Takes.bytes (takes : Takes turn chars rest) : chars = turn.bytes ++ rest := by
  cases takes <;> rfl

theorem Turn.bytes_pos (turn : Turn) : 0 < turn.bytes.length := by
  cases turn <;> exact Nat.succ_pos _

theorem vgaPuts_takes (takes : Takes turn chars rest) (holds : text.Holds str chars) (enough : 6 ≤ fuel) :
    vgaPuts (fuel + 1) text str vga = vgaPuts fuel text (str + turn.bytes.length) (vga.turn turn) := by
  cases takes with
  | byte plain =>
      rw [vgaPuts_byte holds plain, vgaPutchar_type enough, Outcome.done_bind]
      rfl
  | clear =>
      have command : text.Holds (str + 2) (Turn.clearCommand ++ rest) := holds.tail.tail
      rw [vgaPuts_escape holds, vgaEscape_eq command, if_pos (List.prefix_append _ rest)]
      rfl
  | home =>
      have command : text.Holds (str + 2) (Turn.homeCommand ++ rest) := holds.tail.tail
      rw [vgaPuts_escape holds, vgaEscape_eq command, if_neg home_not_clear, if_pos (List.prefix_append _ rest)]
      rfl
  | @select params c _ selects =>
      have short := selects.short
      rw [select_bytes] at holds
      have behind : text.Holds (str + 2 + params.length + 1) (c :: rest) := holds.tail.tail.suffix.tail
      have place : str + (Turn.select params c).bytes.length = str + 2 + params.length + 1 + 1 := by
        simp only [Turn.bytes, Token.bytes, List.length_append, List.length_cons, List.length_nil]
        omega
      rw [vgaPuts_escape holds, vgaEscape_select holds selects (by omega), place]
      simp only [Outcome.done_bind, Bool.false_eq_true, if_false, behind.head.1, Outcome.ofOption, vgaPutchar_type enough]
      rfl

theorem Takes.of_plain (takes : Takes turn (c :: chars) rest) (plain : ¬ (c = esc ∧ chars.head? = some '['.toUInt8)) :
    turn = .byte c ∧ rest = chars := by
  generalize same : c :: chars = whole at takes
  cases takes with
  | byte =>
      cases same
      exact ⟨rfl, rfl⟩
  | clear =>
      cases same
      exact absurd ⟨rfl, rfl⟩ plain
  | home =>
      cases same
      exact absurd ⟨rfl, rfl⟩ plain
  | select =>
      rw [select_bytes] at same
      cases same
      exact absurd ⟨rfl, rfl⟩ plain

theorem Takes.of_escape (takes : Takes turn (esc :: '['.toUInt8 :: chars) rest) :
    (turn = .clear ∧ chars = Turn.clearCommand ++ rest) ∨ (turn = .home ∧ chars = Turn.homeCommand ++ rest) ∨
      ∃ params c, turn = .select params c ∧ Selects params ∧ chars = params ++ 'm'.toUInt8 :: c :: rest := by
  generalize same : esc :: '['.toUInt8 :: chars = whole at takes
  cases takes with
  | byte plain =>
      cases same
      exact absurd ⟨rfl, rfl⟩ plain
  | clear =>
      cases same
      exact .inl ⟨rfl, rfl⟩
  | home =>
      cases same
      exact .inr (.inl ⟨rfl, rfl⟩)
  | select selects =>
      rw [select_bytes] at same
      cases same
      exact .inr (.inr ⟨_, _, rfl, selects, rfl⟩)

/-- There is one way to split a string at its first `stop`. -/
theorem split_unique {stop : UInt8} {front behind : List UInt8} (outside : stop ∉ front) (other : stop ∉ params)
    (same : front ++ stop :: behind = params ++ stop :: rest) : params = front ∧ rest = behind := by
  induction front generalizing params with
  | nil =>
      cases params with
      | nil => exact ⟨rfl, (List.cons.inj same).2.symm⟩
      | cons param params => exact absurd (List.cons.inj same).1 (not_or.mp (mt List.mem_cons.mpr other)).1
  | cons char front ih =>
      obtain ⟨first, later⟩ := not_or.mp (mt List.mem_cons.mpr outside)
      cases params with
      | nil => exact absurd (List.cons.inj same).1.symm first
      | cons param params =>
          obtain ⟨here, behind⟩ := List.cons.inj same
          obtain ⟨front, rest⟩ := ih later (not_or.mp (mt List.mem_cons.mpr other)).2 behind
          exact ⟨by rw [here, front], rest⟩

theorem Takes.unique (takes : Takes turn chars rest) (again : Takes other chars last) : other = turn ∧ last = rest := by
  cases takes with
  | byte plain => exact again.of_plain plain
  | clear =>
      obtain ⟨same, more⟩ | ⟨_, more⟩ | ⟨params, c, _, selects, more⟩ := Takes.of_escape again
      · exact ⟨same, (List.append_cancel_left more).symm⟩
      · cases more
      · exact absurd ⟨rest, more⟩ (selects.plain (c :: last)).1
  | home =>
      obtain ⟨_, more⟩ | ⟨same, more⟩ | ⟨params, c, _, selects, more⟩ := Takes.of_escape again
      · cases more
      · exact ⟨same, (List.append_cancel_left more).symm⟩
      · exact absurd ⟨rest, more⟩ (selects.plain (c :: last)).2
  | @select params c _ selects =>
      rw [select_bytes] at again
      obtain ⟨_, more⟩ | ⟨_, more⟩ | ⟨params, c, same, others, more⟩ := again.of_escape
      · exact absurd ⟨last, more.symm⟩ (selects.plain (c :: rest)).1
      · exact absurd ⟨last, more.symm⟩ (selects.plain (c :: rest)).2
      · obtain ⟨rfl, behind⟩ := split_unique selects.inside others.inside more
        cases behind
        exact ⟨same, rfl⟩

theorem Turns.bytes (taken : Turns turns chars rest) : chars = turns.flatMap Turn.bytes ++ rest := by
  induction taken with
  | nil => rfl
  | cons takes _ ih => rw [takes.bytes, ih, List.flatMap_cons, List.append_assoc]

theorem turns_length_le (turns : List Turn) : turns.length ≤ (turns.flatMap Turn.bytes).length := by
  induction turns with
  | nil => exact Nat.le_refl 0
  | cons turn turns ih =>
      have positive := turn.bytes_pos
      rw [List.flatMap_cons, List.length_append, List.length_cons]
      omega

theorem vgaPuts_turns (taken : Turns turns chars rest) (holds : text.Holds str chars) (enough : 6 ≤ fuel) :
    vgaPuts (turns.length + fuel) text str vga =
      vgaPuts fuel text (str + (turns.flatMap Turn.bytes).length) (turns.foldl Vga.turn vga) := by
  induction taken generalizing str vga with
  | nil => rw [List.length_nil, Nat.zero_add, List.flatMap_nil, List.length_nil, Nat.add_zero, List.foldl_nil]
  | @cons turn turns chars middle rest takes _ ih =>
      have whole := takes.bytes
      subst whole
      rw [List.length_cons, Nat.succ_add, vgaPuts_takes takes holds (Nat.le_add_left_of_le enough), ih holds.suffix, List.foldl_cons,
        List.flatMap_cons, List.length_append, Nat.add_assoc]

theorem vgaPuts_ends (taken : Turns turns chars []) (holds : text.Holds str chars) (enough : chars.length + 7 ≤ fuel) :
    vgaPuts fuel text str vga = .done (str + chars.length) (turns.foldl Vga.turn vga) := by
  have whole := taken.bytes
  have fewer := turns_length_le turns
  rw [List.append_nil] at whole
  obtain ⟨more, rfl⟩ : ∃ more, fuel = turns.length + (more + 7) := ⟨fuel - turns.length - 7, by rw [whole] at enough; omega⟩
  have last : text.Holds (str + (turns.flatMap Turn.bytes).length) [] := by
    refine Text.Holds.suffix ?_
    rwa [List.append_nil, ← whole]
  rw [vgaPuts_turns taken holds (Nat.le_add_left_of_le (by decide)), ← whole]
  rw [← whole] at last
  exact vgaPuts_nil last

end BarrelOS.Display
