import BarrelOS.Display.BackEnds

namespace BarrelOS.Display

open BarrelOS.Data BarrelOS.Semantics BarrelOS.Lib

/-! Strings that `vga_puts` prints one after the other -/

/-- A part of a string: a byte, a colour sequence, or one of the two commands. -/
inductive Part where
  | byte (c : UInt8)
  | color (digits : List UInt8)
  | clear
  | home
deriving DecidableEq

namespace Part

def bytes : Part → List UInt8
  | byte c => [c]
  | color digits => (Token.sequence digits).bytes
  | clear => Turn.clear.bytes
  | home => Turn.home.bytes

/-- A character other than the escape, or a sequence with a code of at most three digits. -/
def Plain : Part → Prop
  | byte c => c ≠ 0 ∧ c ≠ esc
  | color digits => digits.length ≤ 3 ∧ ∀ digit ∈ digits, isDigit digit.toNat
  | clear | home => True

instance : DecidablePred Part.Plain
  | .byte _ => inferInstanceAs (Decidable (_ ∧ _))
  | .color digits => @instDecidableAnd _ _ inferInstance (List.decidableBAll _ digits)
  | .clear | .home => inferInstanceAs (Decidable True)

/-- What is no text is to be interpreted. -/
def command : Part → Option Part
  | byte _ => none
  | part => some part

/-- What `vga_puts` makes of the parts: behind a colour sequence it takes the next one for text. -/
def turns : List Part → List Turn
  | [] => []
  | .byte c :: rest => .byte c :: turns rest
  | .clear :: rest => .clear :: turns rest
  | .home :: rest => .home :: turns rest
  | [.color _] => []
  | .color digits :: part :: rest => .select digits (part.bytes.headD 0) :: part.bytes.tail.map .byte ++ turns rest

/-- Every colour sequence that `vga_puts` interprets has a part behind it. -/
def Followed : List Part → Prop
  | [] => True
  | .byte _ :: rest | .clear :: rest | .home :: rest => Followed rest
  | [.color _] => False
  | .color _ :: _ :: rest => Followed rest

/-- Every colour sequence has a character behind it. -/
def Spaced : List Part → Prop
  | [] => True
  | .byte _ :: rest | .clear :: rest | .home :: rest => Spaced rest
  | .color _ :: .byte _ :: rest => Spaced rest
  | .color _ :: _ => False

end Part

/-- What a turn interprets. -/
def Turn.command : Turn → Option Part
  | byte _ => none
  | clear => some .clear
  | home => some .home
  | select params _ => some (.color params)

variable {text : Text} {str str1 str2 ret fuel : Nat} {vga : Vga} {chars rest last digits others : List UInt8} {part : Part}
  {parts parts1 parts2 : List Part} {turns more : List Turn}

namespace Part

theorem Plain.uncons (plain : part.Plain) : part.bytes = part.bytes.headD 0 :: part.bytes.tail ∧ ∀ c ∈ part.bytes.tail, c ≠ esc := by
  cases part with
  | byte c => exact ⟨rfl, fun _ => nofun⟩
  | color digits =>
      refine ⟨rfl, fun c member => ?_⟩
      have member : c ∈ '['.toUInt8 :: (digits ++ ['m'.toUInt8]) := member
      obtain rfl | member := List.mem_cons.mp member
      · decide
      · obtain digit | last := List.mem_append.mp member
        · exact digit_ne (plain.2 c digit) (by decide)
        · rw [List.mem_singleton.mp last]
          decide
  | clear => exact ⟨rfl, @of_decide_eq_true _ (List.decidableBAll _ _) rfl⟩
  | home => exact ⟨rfl, @of_decide_eq_true _ (List.decidableBAll _ _) rfl⟩

theorem Plain.nonzero (plain : part.Plain) : 0 ∉ part.bytes := by
  cases part with
  | byte c => exact fun member => plain.1 (List.mem_singleton.mp member).symm
  | color digits =>
      intro member
      simp only [bytes, Token.bytes, List.mem_cons, List.mem_append, List.cons_append] at member
      obtain first | bracket | digit | last | none := member
      · exact absurd first (by decide)
      · exact absurd bracket (by decide)
      · exact digit_ne (plain.2 0 digit) (by decide) rfl
      · exact absurd last (by decide)
      · cases none
  | clear => decide
  | home => decide

end Part

theorem turns_of_bytes (plain : ∀ c ∈ chars, c ≠ esc) (later : Turns turns rest last) :
    Turns (chars.map Turn.byte ++ turns) (chars ++ rest) last := by
  induction chars with
  | nil => exact later
  | cons c chars ih =>
      obtain ⟨other, others⟩ := List.forall_mem_cons.mp plain
      exact .cons (.byte fun escape => other escape.1) (ih others)

theorem Turns.append {middle : List UInt8} (first : Turns turns chars middle) (later : Turns more middle rest) :
    Turns (turns ++ more) chars rest := by
  induction first with
  | nil => exact later
  | cons takes _ ih => exact .cons takes (ih later)

namespace Part

theorem Followed.taken (followed : Followed parts) (plain : ∀ part ∈ parts, part.Plain) (rest : List UInt8) :
    Turns (Part.turns parts) (parts.flatMap bytes ++ rest) rest := by
  induction parts using turns.induct with
  | case1 => exact .nil
  | case2 c parts ih =>
      obtain ⟨here, later⟩ := List.forall_mem_cons.mp plain
      exact .cons (.byte fun escape => here.2 escape.1) (ih followed later)
  | case3 parts ih =>
      rw [List.flatMap_cons, List.append_assoc]
      exact .cons .clear (ih followed (List.forall_mem_cons.mp plain).2)
  | case4 parts ih =>
      rw [List.flatMap_cons, List.append_assoc]
      exact .cons .home (ih followed (List.forall_mem_cons.mp plain).2)
  | case5 => cases followed
  | case6 digits part parts ih =>
      obtain ⟨color, plain⟩ := List.forall_mem_cons.mp plain
      obtain ⟨here, plain⟩ := List.forall_mem_cons.mp plain
      obtain ⟨same, others⟩ := here.uncons
      have selects := selects_of_digits color.1 color.2
      have later := turns_of_bytes others (ih followed plain)
      have whole := Turns.cons (@Takes.select digits (part.bytes.headD 0) _ selects) later
      rw [Turn.bytes, List.append_assoc, List.singleton_append] at whole
      rw [List.flatMap_cons, List.flatMap_cons, List.append_assoc, List.append_assoc, same]
      exact whole

theorem exists_open (open_end : ¬ Followed parts) :
    ∃ front digits, parts = front ++ [.color digits] ∧ Followed front := by
  induction parts using turns.induct with
  | case1 => exact absurd trivial open_end
  | case2 c parts ih =>
      obtain ⟨front, digits, same, followed⟩ := ih open_end
      exact ⟨.byte c :: front, digits, congrArg _ same, followed⟩
  | case3 parts ih =>
      obtain ⟨front, digits, same, followed⟩ := ih open_end
      exact ⟨.clear :: front, digits, congrArg _ same, followed⟩
  | case4 parts ih =>
      obtain ⟨front, digits, same, followed⟩ := ih open_end
      exact ⟨.home :: front, digits, congrArg _ same, followed⟩
  | case5 digits => exact ⟨[], digits, rfl, trivial⟩
  | case6 digits part parts ih =>
      obtain ⟨front, last, same, followed⟩ := ih open_end
      exact ⟨.color digits :: part :: front, last, congrArg (fun parts => .color digits :: part :: parts) same, followed⟩

end Part

/-- The byte behind a colour sequence at the end of a string is the terminator, behind
which `vga_puts` goes on. -/
theorem vgaPuts_last (plain : (Part.color digits).Plain) (alone : text.Alone str (Part.color digits).bytes) (enough : 7 ≤ fuel) :
    ∃ after, vgaPuts (fuel + 1) text str vga = .faulted after := by
  have selects := selects_of_digits plain.1 plain.2
  have short := selects.short
  have behind : text.Alone (str + 2 + digits.length + 1) [] := by
    have behind := alone.tail.tail
    exact behind.suffix.tail
  have unreadable : text (str + 2 + digits.length + 1 + 1) = none := behind.unreadable
  rw [vgaPuts_escape alone.holds, vgaEscape_select alone.holds selects (by omega)]
  simp only [Outcome.done_bind, Bool.false_eq_true, if_false, behind.holds.nil, Outcome.ofOption,
    vgaPutchar_type (Nat.le_of_succ_le enough)]
  obtain ⟨fuel, rfl⟩ := Nat.exists_eq_add_of_le' (Nat.le_of_add_left_le enough : 1 ≤ fuel)
  rw [vgaPuts, unreadable]
  exact ⟨_, rfl⟩

theorem nonzero_of_plain (plain : ∀ part ∈ parts, part.Plain) : 0 ∉ parts.flatMap Part.bytes := by
  intro member
  obtain ⟨part, here, zero⟩ := List.mem_flatMap.mp member
  exact (plain part here).nonzero zero

theorem vgaPuts_followed (followed : Part.Followed parts) (plain : ∀ part ∈ parts, part.Plain)
    (enough : (parts.flatMap Part.bytes).length + 7 ≤ fuel) :
    vgaPuts fuel (.only str (parts.flatMap Part.bytes)) str vga =
      .done (str + (parts.flatMap Part.bytes).length) ((Part.turns parts).foldl Vga.turn vga) := by
  have taken := followed.taken plain []
  rw [List.append_nil] at taken
  exact vgaPuts_ends taken (Text.only_holds str (nonzero_of_plain plain)) enough

theorem vgaPuts_unfollowed (open_end : ¬ Part.Followed parts) (plain : ∀ part ∈ parts, part.Plain)
    (enough : (parts.flatMap Part.bytes).length + 8 ≤ fuel) :
    ∃ after, vgaPuts fuel (.only str (parts.flatMap Part.bytes)) str vga = .faulted after := by
  obtain ⟨front, digits, same, followed⟩ := Part.exists_open open_end
  have alone := Text.Alone.only str (nonzero_of_plain plain)
  subst same
  obtain ⟨before, color⟩ := List.forall_mem_append.mp plain
  have taken := followed.taken before (Part.color digits).bytes
  have whole := taken.bytes
  have fewer := turns_length_le (Part.turns front)
  have last : (front ++ [Part.color digits]).flatMap Part.bytes = front.flatMap Part.bytes ++ (Part.color digits).bytes := by
    rw [List.flatMap_append, List.flatMap_singleton]
  rw [last, whole, List.length_append] at enough
  rw [last] at alone ⊢
  obtain ⟨more, rfl⟩ : ∃ more, fuel = (Part.turns front).length + (more + 7 + 1) := ⟨fuel - (Part.turns front).length - 8, by omega⟩
  rw [vgaPuts_turns taken alone.holds (by omega)]
  rw [whole] at alone ⊢
  exact vgaPuts_last (color _ (List.mem_singleton_self _)) alone.suffix (Nat.le_add_left 7 more)

theorem followed_of_done {after : Vga} (run : vgaPuts fuel (.only str (parts.flatMap Part.bytes)) str vga = .done ret after)
    (plain : ∀ part ∈ parts, part.Plain) (enough : (parts.flatMap Part.bytes).length + 8 ≤ fuel) : Part.Followed parts := by
  by_contra open_end
  obtain ⟨_, fault⟩ := vgaPuts_unfollowed open_end plain enough
  cases run.symm.trans fault

/-! The law -/

/-- Two calls do what one call with both strings does. -/
def Splits (str1 str2 str : Nat) (s1 s2 : List UInt8) (vga : Vga) : Prop :=
  ∃ enough, ∀ fuel ≥ enough, ∃ middle last,
    vgaPuts fuel (.only str1 s1) str1 vga = .done (str1 + s1.length) middle ∧
    vgaPuts fuel (.only str2 s2) str2 middle = .done (str2 + s2.length) last ∧
    vgaPuts fuel (.only str (s1 ++ s2)) str vga = .done (str + (s1 ++ s2).length) last

/-- No sequence is taken for text: the string is taken in turns that interpret all of them. -/
def Interpreted (parts : List Part) : Prop :=
  ∃ turns, Turns turns (parts.flatMap Part.bytes) [] ∧ turns.filterMap Turn.command = parts.filterMap Part.command

theorem splits_iff_followed (plain1 : ∀ part ∈ parts1, part.Plain) (plain2 : ∀ part ∈ parts2, part.Plain) :
    Splits str1 str2 str (parts1.flatMap Part.bytes) (parts2.flatMap Part.bytes) vga ↔
      Part.Followed parts1 ∧ Part.Followed parts2 := by
  constructor
  · intro splits
    obtain ⟨enough, runs⟩ := splits
    let fuel := enough + (parts1.flatMap Part.bytes).length + (parts2.flatMap Part.bytes).length + 8
    obtain ⟨_, _, first, second, _⟩ := runs fuel (by omega)
    exact ⟨followed_of_done first plain1 (by omega), followed_of_done second plain2 (by omega)⟩
  · intro followed
    obtain ⟨first, second⟩ := followed
    have behind := second.taken plain2 []
    rw [List.append_nil] at behind
    have taken := (first.taken plain1 (parts2.flatMap Part.bytes)).append behind
    have nonzero : 0 ∉ parts1.flatMap Part.bytes ++ parts2.flatMap Part.bytes :=
      mt List.mem_append.mp (not_or.mpr ⟨nonzero_of_plain plain1, nonzero_of_plain plain2⟩)
    refine ⟨(parts1.flatMap Part.bytes).length + (parts2.flatMap Part.bytes).length + 7, fun fuel enough => ?_⟩
    have whole : vgaPuts fuel _ str vga = _ := vgaPuts_ends taken (Text.only_holds str nonzero) (by rwa [List.length_append])
    rw [List.foldl_append] at whole
    exact ⟨_, _, vgaPuts_followed first plain1 (by omega), vgaPuts_followed second plain2 (by omega), whole⟩

theorem Turns.unique (taken : Turns turns chars []) (again : Turns more chars []) : more = turns := by
  generalize ended : [] = last at taken
  induction taken generalizing more with
  | nil =>
      cases again with
      | nil => rfl
      | @cons turn _ _ middle _ takes later =>
          have positive := turn.bytes_pos
          have whole := congrArg List.length (ended.trans takes.bytes)
          rw [List.length_append, List.length_nil] at whole
          omega
  | @cons turn turns chars middle _ takes _ ih =>
      cases again with
      | nil =>
          have positive := turn.bytes_pos
          have whole := congrArg List.length takes.bytes
          rw [List.length_append, List.length_nil] at whole
          omega
      | cons other later =>
          obtain ⟨rfl, rfl⟩ := takes.unique other
          rw [ih later ended]

theorem filterMap_bytes (chars : List UInt8) : (chars.map Turn.byte).filterMap Turn.command = [] := by
  rw [List.filterMap_map]
  exact List.filterMap_eq_nil_iff.mpr fun _ _ => rfl

namespace Part

theorem commands_color (digits : List UInt8) (part : Part) (parts : List Part) :
    (Part.turns (.color digits :: part :: parts)).filterMap Turn.command =
      .color digits :: (Part.turns parts).filterMap Turn.command := by
  rw [Part.turns, List.cons_append, List.filterMap_cons, List.filterMap_append, filterMap_bytes]
  rfl

theorem commands_length_le (parts : List Part) :
    ((Part.turns parts).filterMap Turn.command).length ≤ (parts.filterMap command).length := by
  induction parts using turns.induct with
  | case1 => exact Nat.le_refl 0
  | case2 c parts ih => exact ih
  | case3 parts ih => exact Nat.succ_le_succ ih
  | case4 parts ih => exact Nat.succ_le_succ ih
  | case5 digits => exact Nat.zero_le 1
  | case6 digits part parts ih =>
      have fewer : (parts.filterMap command).length ≤ ((part :: parts).filterMap command).length := by
        cases part with
        | byte c => exact Nat.le_refl _
        | _ => exact Nat.le_succ _
      rw [commands_color]
      exact Nat.succ_le_succ (ih.trans fewer)

theorem spaced_iff_commands : Spaced parts ↔ (Part.turns parts).filterMap Turn.command = parts.filterMap command := by
  induction parts using turns.induct with
  | case1 => exact iff_of_true trivial rfl
  | case2 c parts ih => exact ih
  | case3 parts ih => exact ih.trans (List.cons_inj_right _).symm
  | case4 parts ih => exact ih.trans (List.cons_inj_right _).symm
  | case5 digits => exact iff_of_false id nofun
  | case6 digits part parts ih =>
      rw [commands_color]
      cases part with
      | byte c => exact ih.trans (List.cons_inj_right _).symm
      | _ =>
          have fewer := commands_length_le parts
          refine iff_of_false id fun same => ?_
          have length := congrArg List.length (List.cons.inj same).2
          exact absurd length (Nat.ne_of_lt (Nat.lt_succ_of_le fewer))

theorem Spaced.followed (spaced : Spaced parts) : Followed parts := by
  induction parts using turns.induct with
  | case1 => trivial
  | case2 _ _ ih => exact ih spaced
  | case3 _ ih => exact ih spaced
  | case4 _ ih => exact ih spaced
  | case5 => exact spaced
  | case6 digits part parts ih =>
      cases part with
      | byte c => exact ih spaced
      | _ => exact spaced.elim

theorem Spaced.append (first : Spaced parts1) (second : Spaced parts2) : Spaced (parts1 ++ parts2) := by
  induction parts1 using turns.induct with
  | case1 => exact second
  | case2 _ _ ih => exact ih first
  | case3 _ ih => exact ih first
  | case4 _ ih => exact ih first
  | case5 => exact first.elim
  | case6 digits part parts ih =>
      cases part with
      | byte c => exact ih first
      | _ => exact first.elim

end Part

/-- Interpreted strings end, and their turns are those of their parts. -/
theorem Interpreted.spaced (interpreted : Interpreted parts) (plain : ∀ part ∈ parts, part.Plain) : Part.Spaced parts := by
  obtain ⟨turns, taken, same⟩ := interpreted
  have run : vgaPuts _ _ _ greyVga = _ := vgaPuts_ends taken (Text.only_holds 0 (nonzero_of_plain plain)) (Nat.le_succ _)
  have canonical := (followed_of_done run plain (Nat.le_refl _)).taken plain []
  rw [List.append_nil] at canonical
  rw [← taken.unique canonical] at same
  exact Part.spaced_iff_commands.mpr same

theorem Part.Spaced.interpreted (spaced : Part.Spaced parts) (plain : ∀ part ∈ parts, part.Plain) : Interpreted parts := by
  have taken := spaced.followed.taken plain []
  rw [List.append_nil] at taken
  exact ⟨_, taken, Part.spaced_iff_commands.mp spaced⟩

/-- The screen does not tell two calls from one, and no sequence of the strings is taken for text. -/
structure SplitLaw (str1 str2 str : Nat) (parts1 parts2 : List Part) (vga : Vga) : Prop where
  splits : Splits str1 str2 str (parts1.flatMap Part.bytes) (parts2.flatMap Part.bytes) vga
  first : Interpreted parts1
  second : Interpreted parts2
  whole : Interpreted (parts1 ++ parts2)

/-- The law holds exactly for strings with a character behind every colour sequence. -/
theorem vgaPuts_splits_iff (plain1 : ∀ part ∈ parts1, part.Plain) (plain2 : ∀ part ∈ parts2, part.Plain) :
    SplitLaw str1 str2 str parts1 parts2 vga ↔ Part.Spaced parts1 ∧ Part.Spaced parts2 := by
  constructor
  · intro law
    exact ⟨law.first.spaced plain1, law.second.spaced plain2⟩
  · intro spaced
    obtain ⟨first, second⟩ := spaced
    exact {
      splits := (splits_iff_followed plain1 plain2).mpr ⟨first.followed, second.followed⟩
      first := first.interpreted plain1
      second := second.interpreted plain2
      whole := (first.append second).interpreted (List.forall_mem_append.mpr ⟨plain1, plain2⟩) }

theorem vgaPuts_splits_red : SplitLaw 0 0 0 [.color [0x33, 0x31], .byte 0x41] [.home, .byte 0x42] greyVga := by
  have plain1 : ∀ part ∈ [Part.color [0x33, 0x31], .byte 0x41], part.Plain := by decide
  have plain2 : ∀ part ∈ [Part.home, .byte 0x42], part.Plain := by decide
  exact (vgaPuts_splits_iff plain1 plain2).mpr ⟨trivial, trivial⟩

/-- Behind `"\033[31m"` the terminator is printed and the string left, and the escape of
`"\033[32mX"` is printed if it comes next. -/
theorem sequence_swallows : ¬ Splits 0 0 0 [0x1B, 0x5B, 0x33, 0x31, 0x6D] [0x1B, 0x5B, 0x33, 0x32, 0x6D, 0x58] greyVga ∧
    ¬ Interpreted [.color [0x33, 0x31], .color [0x33, 0x32], .byte 0x58] := by
  have plain1 : ∀ part ∈ [Part.color [0x33, 0x31]], part.Plain := by decide
  have plain2 : ∀ part ∈ [Part.color [0x33, 0x32], .byte 0x58], part.Plain := by decide
  have adjacent : ∀ part ∈ [Part.color [0x33, 0x31], .color [0x33, 0x32], .byte 0x58], part.Plain := by decide
  exact ⟨fun splits => ((splits_iff_followed plain1 plain2).mp splits).1, fun interpreted => interpreted.spaced adjacent⟩

end BarrelOS.Display
