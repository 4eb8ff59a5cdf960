import BarrelOS.Display.BackEnds

namespace BarrelOS.Display

open BarrelOS.Data BarrelOS.Semantics BarrelOS.Lib

/-! Which strings the two parsers get through -/

/-- `char buf[4] = {0}` behind the loop that fills it. -/
def paramBuf (buf : List UInt8) : List UInt8 := buf ++ List.replicate (4 - buf.length) 0

/-- The buffers that `console_write` gives to `atoi`. -/
def consoleBuffers (text : Text) : Nat → Nat → List (List UInt8)
  | 0, _ => []
  | fuel + 1, str =>
      match text str, isEscape text str with
      | some char, some escape =>
          if char = 0 then []
          else if escape then
            match paramLoop text fuel (str + 2) [] () with
            | .done (buf, str) _ => paramBuf buf :: consoleBuffers text fuel (str + 1)
            | _ => []
          else consoleBuffers text fuel (str + 1)
      | _, _ => []

/-- The buffers that `vga_puts` gives to `atoi`; behind a sequence it takes one more byte. -/
def vgaBuffers (text : Text) : Nat → Nat → List (List UInt8)
  | 0, _ => []
  | fuel + 1, str =>
      match text str, isEscape text str with
      | some char, some escape =>
          if char = 0 then []
          else if escape then
            if strncmp text (.only 0 ['2'.toUInt8, 'J'.toUInt8]) 2 (str + 2) 0 = some 0 then vgaBuffers text fuel (str + 4)
            else if strncmp text (.only 0 ['H'.toUInt8]) 1 (str + 2) 0 = some 0 then vgaBuffers text fuel (str + 3)
            else match paramLoop text fuel (str + 2) [] () with
            | .done (buf, str) _ => paramBuf buf :: vgaBuffers text fuel (str + 2)
            | _ => []
          else vgaBuffers text fuel (str + 1)
      | _, _ => []

variable {State : Type} {font : Nat → UInt8} {text : Text} {fuel str stop ret : Nat} {state after : State} {screen last : Screen}
  {vga left : Vga} {c : UInt8} {chars rest params buf all : List UInt8} {tokens : List Token} {turn : Turn} {turns : List Turn}

/-! The loop over the parameters -/

/-- A loop that ends has found an `m` in the string, with room for everything in front of it. -/
theorem paramLoop_done (run : paramLoop text fuel str buf state = .done (all, stop) after) (alone : text.Alone str chars)
    (fits : buf.length ≤ 4) :
    ∃ params rest, chars = params ++ 'm'.toUInt8 :: rest ∧ 'm'.toUInt8 ∉ params ∧ all = buf ++ params ∧
      stop = str + params.length ∧ after = state ∧ buf.length + params.length ≤ 4 ∧ params.length < fuel := by
  induction fuel generalizing str buf chars with
  | zero => cases run
  | succ fuel ih =>
      cases chars with
      | nil =>
          have other : (0 : UInt8) ≠ 'm'.toUInt8 := by decide
          have behind : text (str + 1) = none := alone.unreadable
          rw [paramLoop, alone.holds.nil, Outcome.ofOption, Outcome.done_bind, if_pos other] at run
          split at run
          · cases fuel with
            | zero => cases run
            | succ fuel =>
                rw [paramLoop, behind] at run
                cases run
          · cases run
      | cons char chars =>
          rw [paramLoop, alone.holds.head.1, Outcome.ofOption, Outcome.done_bind] at run
          by_cases found : char = 'm'.toUInt8
          · rw [if_neg (not_not.mpr found)] at run
            cases run
            rw [found]
            exact ⟨[], chars, rfl, List.not_mem_nil, (List.append_nil _).symm, rfl, rfl, fits, Nat.succ_pos fuel⟩
          · rw [if_pos found] at run
            split at run
            · have room : (buf ++ [char]).length ≤ 4 := by
                rw [List.length_append, List.length_singleton]
                omega
              obtain ⟨params, rest, same, inside, copied, place, kept, length, enough⟩ := ih run alone.tail room
              rw [List.length_append, List.length_singleton, Nat.add_assoc, Nat.add_comm 1] at length
              refine ⟨char :: params, rest, ?_, ?_, ?_, ?_, kept, length, Nat.succ_lt_succ enough⟩
              · rw [same, List.cons_append]
              · exact mt List.mem_cons.mp (not_or.mpr ⟨Ne.symm found, inside⟩)
              · rw [copied, List.append_assoc, List.singleton_append]
              · rw [place, List.length_cons, Nat.add_assoc, Nat.add_comm 1]
            · cases run

theorem zero_mem_paramBuf (nonzero : 0 ∉ params) : 0 ∈ paramBuf params ↔ params.length ≤ 3 := by
  rw [paramBuf, List.mem_append, or_iff_right nonzero, List.mem_replicate, and_iff_left rfl]
  omega

theorem escapeCode_done {code : Int} (run : escapeCode fuel text str state = .done (code, stop) after)
    (alone : text.Alone str chars) :
    ∃ params rest, chars = params ++ 'm'.toUInt8 :: rest ∧ 'm'.toUInt8 ∉ params ∧ stop = str + params.length + 1 ∧
      paramLoop text fuel str [] () = .done (params, str + params.length) () := by
  obtain ⟨⟨buf, place⟩, middle, loop, coded⟩ := Outcome.bind_done.mp run
  obtain ⟨params, rest, same, inside, copied, found, _, length, enough⟩ := paramLoop_done loop alone (Nat.zero_le 4)
  obtain ⟨_, _, _, ended⟩ := Outcome.bind_done.mp coded
  cases ended
  have holds := alone.holds
  rw [same] at holds
  exact ⟨params, rest, same, inside, by rw [found], paramLoop_params holds inside length enough⟩

/-! `console_write` -/

theorem consoleBuffers_nil (holds : text.Holds str []) : consoleBuffers text fuel str = [] := by
  cases fuel with
  | zero => rfl
  | succ fuel =>
      rw [consoleBuffers, holds.nil]
      split
      · next zero _ => rw [if_pos (Option.some.inj zero).symm]
      · rfl

theorem consoleBuffers_byte (holds : text.Holds str (c :: rest)) (plain : ¬ (c = esc ∧ rest.head? = some '['.toUInt8)) :
    consoleBuffers text (fuel + 1) str = consoleBuffers text fuel (str + 1) := by
  rw [consoleBuffers, holds.head.1, isEscape_of_holds holds, decide_eq_false plain]
  simp only [if_neg holds.head.2, Bool.false_eq_true, if_false]

theorem consoleBuffers_escape (holds : text.Holds str (esc :: '['.toUInt8 :: rest))
    (loop : paramLoop text fuel (str + 2) [] () = .done (params, stop) ()) :
    consoleBuffers text (fuel + 1) str = paramBuf params :: consoleBuffers text fuel (stop + 1) := by
  rw [consoleBuffers, holds.head.1, isEscape_of_holds holds]
  simp only [if_neg holds.head.2, List.head?_cons, and_self, decide_true, if_true, loop]

theorem consoleWrite_byte (holds : text.Holds str (c :: rest)) (plain : ¬ (c = esc ∧ rest.head? = some '['.toUInt8)) :
    consoleWrite font text (fuel + 1) str screen = consoleWrite font text fuel (str + 1) (consolePutchar font c screen) := by
  rw [consoleWrite, holds.head.1, isEscape_of_holds holds, decide_eq_false plain]
  simp only [Outcome.ofOption, Outcome.done_bind, if_pos holds.head.2, Bool.false_eq_true, if_false]

theorem consoleWrite_escape (holds : text.Holds str (esc :: '['.toUInt8 :: rest)) :
    consoleWrite font text (fuel + 1) str screen = (escapeCode fuel text (str + 2) screen).bind fun (code, str) screen =>
      consoleWrite font text fuel str { screen with console := screen.console.select code } := by
  rw [consoleWrite, holds.head.1, isEscape_of_holds holds]
  simp only [Outcome.ofOption, Outcome.done_bind, if_pos holds.head.2, List.head?_cons, and_self, decide_true, if_true]

theorem escape_or_plain (c : UInt8) (rest : List UInt8) :
    (∃ behind, c = esc ∧ rest = '['.toUInt8 :: behind) ∨ ¬ (c = esc ∧ rest.head? = some '['.toUInt8) := by
  by_cases escape : c = esc ∧ rest.head? = some '['.toUInt8
  · obtain ⟨behind, same⟩ := List.head?_eq_some_iff.mp escape.2
    exact .inl ⟨behind, escape.1, same⟩
  · exact .inr escape

theorem closed_of_done (run : consoleWrite font text fuel str screen = .done ret last) (alone : text.Alone str chars)
    (terminated : ∀ buf ∈ consoleBuffers text fuel str, 0 ∈ buf) : ∃ tokens, Closed tokens chars := by
  induction fuel generalizing str chars screen with
  | zero => cases run
  | succ fuel ih =>
      cases chars with
      | nil => exact ⟨[], .nil⟩
      | cons c rest =>
          obtain ⟨behind, rfl, rfl⟩ | plain := escape_or_plain c rest
          · rw [consoleWrite_escape alone.holds] at run
            obtain ⟨⟨code, place⟩, _, coded, later⟩ := Outcome.bind_done.mp run
            obtain ⟨params, rest, rfl, inside, rfl, loop⟩ := escapeCode_done coded alone.tail.tail
            rw [consoleBuffers_escape alone.holds loop] at terminated
            obtain ⟨first, others⟩ := List.forall_mem_cons.mp terminated
            have nonzero : 0 ∉ params := fun member => alone.tail.tail.holds.nonzero (List.mem_append_left _ member)
            obtain ⟨tokens, closed⟩ := ih later alone.tail.tail.suffix.tail others
            have sequence := Closed.sequence ((zero_mem_paramBuf nonzero).mp first) inside closed
            rw [Token.bytes, List.cons_append, List.cons_append, List.append_assoc, List.singleton_append] at sequence
            exact ⟨_, sequence⟩
          · rw [consoleWrite_byte alone.holds plain] at run
            rw [consoleBuffers_byte alone.holds plain] at terminated
            obtain ⟨tokens, closed⟩ := ih run alone.tail terminated
            exact ⟨_, .byte plain closed⟩

theorem consoleBuffers_closed (closed : Closed tokens chars) (holds : text.Holds str chars) (enough : chars.length < fuel) :
    ∀ buf ∈ consoleBuffers text fuel str, 0 ∈ buf := by
  induction closed generalizing fuel str with
  | nil =>
      rw [consoleBuffers_nil holds]
      exact List.forall_mem_nil _
  | byte plain _ ih =>
      cases fuel with
      | zero => cases enough
      | succ fuel =>
          rw [consoleBuffers_byte holds plain]
          exact ih holds.tail (Nat.lt_of_succ_lt_succ enough)
  | @sequence params tokens rest short inside later ih =>
      cases fuel with
      | zero => cases enough
      | succ fuel =>
          rw [length_sequence] at enough
          have nonzero : 0 ∉ params := fun member => (holds_params holds).nonzero (List.mem_append_left _ member)
          have loop : paramLoop text fuel (str + 2) [] () = .done (params, str + 2 + params.length) () :=
            paramLoop_params (holds_params holds) inside (by rw [List.length_nil]; omega) (by omega)
          rw [consoleBuffers_escape holds loop]
          exact List.forall_mem_cons.mpr ⟨(zero_mem_paramBuf nonzero).mpr short, ih (holds_behind holds) (by omega)⟩

/-! `vga_puts` -/

theorem vgaBuffers_nil (holds : text.Holds str []) : vgaBuffers text fuel str = [] := by
  cases fuel with
  | zero => rfl
  | succ fuel =>
      rw [vgaBuffers, holds.nil]
      split
      · next zero _ => rw [if_pos (Option.some.inj zero).symm]
      · rfl

theorem vgaBuffers_byte (holds : text.Holds str (c :: rest)) (plain : ¬ (c = esc ∧ rest.head? = some '['.toUInt8)) :
    vgaBuffers text (fuel + 1) str = vgaBuffers text fuel (str + 1) := by
  rw [vgaBuffers, holds.head.1, isEscape_of_holds holds, decide_eq_false plain]
  simp only [if_neg holds.head.2, Bool.false_eq_true, if_false]

theorem vgaBuffers_escape (holds : text.Holds str (esc :: '['.toUInt8 :: rest)) :
    vgaBuffers text (fuel + 1) str =
      if Turn.clearCommand <+: rest then vgaBuffers text fuel (str + 4)
      else if Turn.homeCommand <+: rest then vgaBuffers text fuel (str + 3)
      else match paramLoop text fuel (str + 2) [] () with
        | .done (buf, str) _ => paramBuf buf :: vgaBuffers text fuel (str + 2)
        | _ => [] := by
  obtain ⟨diff, clear_run, cleared⟩ := strncmp_clear holds.tail.tail
  obtain ⟨other, home_run, homed⟩ := strncmp_home holds.tail.tail
  rw [vgaBuffers, holds.head.1, isEscape_of_holds holds]
  simp only [if_neg holds.head.2, List.head?_cons, and_self, decide_true, if_true, clear_run, home_run, Option.some_inj,
    cleared, homed]

theorem vgaBuffers_select (holds : text.Holds str (esc :: '['.toUInt8 :: (params ++ 'm'.toUInt8 :: rest)))
    (selects : Selects params) (enough : params.length < fuel) :
    vgaBuffers text (fuel + 1) str = paramBuf params :: vgaBuffers text fuel (str + 2 + params.length + 2) := by
  obtain ⟨clear, home⟩ := selects.plain rest
  have short := selects.short
  have loop : paramLoop text fuel (str + 2) [] () = .done (params, str + 2 + params.length) () :=
    paramLoop_params holds.tail.tail selects.inside (by rw [List.length_nil]; omega) enough
  rw [vgaBuffers_escape holds, if_neg clear, if_neg home, loop]

/-- The byte that `vga_puts` takes behind a sequence is not the terminator, behind which it would go on. -/
theorem uncons_of_done (run : vgaPuts fuel text (str + 1) vga = .done ret left) (alone : text.Alone str chars) :
    ∃ c rest, chars = c :: rest := by
  cases chars with
  | nil =>
      have behind : text (str + 1) = none := alone.unreadable
      cases fuel with
      | zero => cases run
      | succ fuel =>
          rw [vgaPuts, behind] at run
          cases run
  | cons c rest => exact ⟨c, rest, rfl⟩

/-- What is taken of a sequence that is not a command, and the byte behind it, when there is a return. -/
theorem select_of_done (run : vgaPuts (fuel + 1) text str vga = .done ret left)
    (alone : text.Alone str (esc :: '['.toUInt8 :: chars)) (clear : ¬ Turn.clearCommand <+: chars)
    (home : ¬ Turn.homeCommand <+: chars) :
    ∃ params c rest vga, chars = params ++ 'm'.toUInt8 :: c :: rest ∧ 'm'.toUInt8 ∉ params ∧
      paramLoop text fuel (str + 2) [] () = .done (params, str + 2 + params.length) () ∧
      vgaPuts fuel text (str + 2 + params.length + 2) vga = .done ret left := by
  rw [vgaPuts_escape alone.holds, vgaEscape_eq alone.tail.tail.holds, if_neg clear, if_neg home] at run
  obtain ⟨⟨continued, place⟩, _, escape, printed⟩ := Outcome.bind_done.mp run
  obtain ⟨⟨code, stop⟩, middle, coded, selected⟩ := Outcome.bind_done.mp escape
  cases selected
  obtain ⟨params, rest, rfl, inside, rfl, loop⟩ := escapeCode_done coded alone.tail.tail
  obtain ⟨_, _, _, put⟩ := Outcome.bind_done.mp printed
  obtain ⟨_, vga, _, later⟩ := Outcome.bind_done.mp put
  have behind : text.Alone (str + 2 + params.length + 1) rest := alone.tail.tail.suffix.tail
  obtain ⟨c, rest, rfl⟩ := uncons_of_done later behind
  exact ⟨params, c, rest, vga, rfl, inside, loop, later⟩

theorem turns_of_done (run : vgaPuts fuel text str vga = .done ret left) (alone : text.Alone str chars)
    (terminated : ∀ buf ∈ vgaBuffers text fuel str, 0 ∈ buf) : ∃ turns, Turns turns chars [] := by
  induction fuel generalizing str chars vga with
  | zero => cases run
  | succ fuel ih =>
      cases chars with
      | nil => exact ⟨[], .nil⟩
      | cons c rest =>
          obtain ⟨behind, rfl, rfl⟩ | plain := escape_or_plain c rest
          · have escape := run
            rw [vgaPuts_escape alone.holds, vgaEscape_eq alone.tail.tail.holds] at escape
            rw [vgaBuffers_escape alone.holds] at terminated
            by_cases clear : Turn.clearCommand <+: behind
            · rw [if_pos clear] at escape terminated
              obtain ⟨rest, rfl⟩ := clear
              have later : text.Alone (str + 4) rest := @Text.Alone.suffix text str rest Turn.clear.bytes alone
              obtain ⟨turns, taken⟩ := ih escape later terminated
              exact ⟨_, .cons .clear taken⟩
            · by_cases home : Turn.homeCommand <+: behind
              · rw [if_neg clear, if_pos home] at escape terminated
                obtain ⟨rest, rfl⟩ := home
                have later : text.Alone (str + 3) rest := @Text.Alone.suffix text str rest Turn.home.bytes alone
                obtain ⟨turns, taken⟩ := ih escape later terminated
                exact ⟨_, .cons .home taken⟩
              · obtain ⟨params, c, rest, vga, rfl, inside, loop, later⟩ := select_of_done run alone clear home
                rw [if_neg clear, if_neg home, loop] at terminated
                obtain ⟨first, others⟩ := List.forall_mem_cons.mp terminated
                have nonzero : 0 ∉ params := fun member => alone.tail.tail.holds.nonzero (List.mem_append_left _ member)
                have selects : Selects params :=
                  ⟨(zero_mem_paramBuf nonzero).mp first, inside, fun begins => clear (begins.trans (List.prefix_append _ _)),
                    fun begins => home (begins.trans (List.prefix_append _ _))⟩
                obtain ⟨turns, taken⟩ := ih later alone.tail.tail.suffix.tail.tail others
                have whole := Turns.cons (@Takes.select params c rest selects) taken
                rw [select_bytes] at whole
                exact ⟨_, whole⟩
          · rw [vgaPuts_byte alone.holds plain] at run
            rw [vgaBuffers_byte alone.holds plain] at terminated
            obtain ⟨_, _, _, later⟩ := Outcome.bind_done.mp run
            obtain ⟨turns, taken⟩ := ih later alone.tail terminated
            exact ⟨_, .cons (.byte plain) taken⟩

theorem vgaBuffers_turns (taken : Turns turns chars []) (holds : text.Holds str chars) (enough : chars.length < fuel) :
    ∀ buf ∈ vgaBuffers text fuel str, 0 ∈ buf := by
  generalize ended : [] = last at taken
  induction taken generalizing fuel str with
  | nil =>
      subst ended
      rw [vgaBuffers_nil holds]
      exact List.forall_mem_nil _
  | @cons turn turns chars rest _ takes _ ih =>
      cases fuel with
      | zero => cases enough
      | succ fuel =>
          have positive := turn.bytes_pos
          have whole := takes.bytes
          have suffix : text.Holds (str + turn.bytes.length) rest := Text.Holds.suffix (whole ▸ holds)
          have fewer : rest.length < fuel := by
            rw [whole, List.length_append] at enough
            omega
          cases takes with
          | byte plain =>
              rw [vgaBuffers_byte holds plain]
              exact ih suffix fewer ended
          | clear =>
              have command : text.Holds str (esc :: '['.toUInt8 :: (Turn.clearCommand ++ rest)) := holds
              rw [vgaBuffers_escape command, if_pos (List.prefix_append _ rest)]
              exact ih suffix fewer ended
          | home =>
              have command : text.Holds str (esc :: '['.toUInt8 :: (Turn.homeCommand ++ rest)) := holds
              rw [vgaBuffers_escape command, if_neg home_not_clear, if_pos (List.prefix_append _ rest)]
              exact ih suffix fewer ended
          | @select params c _ selects =>
              have place : str + (Turn.select params c).bytes.length = str + 2 + params.length + 2 := by
                simp only [Turn.bytes, Token.bytes, List.length_append, List.length_cons, List.length_nil]
                omega
              rw [place] at suffix
              rw [select_bytes] at holds enough
              simp only [List.length_append, List.length_cons] at enough
              have nonzero : 0 ∉ params := fun member => holds.tail.tail.nonzero (List.mem_append_left _ member)
              rw [vgaBuffers_select holds selects (by omega)]
              exact List.forall_mem_cons.mpr ⟨(zero_mem_paramBuf nonzero).mpr selects.short, ih suffix fewer ended⟩

/-! Both of them -/

/-- Both parsers end at the terminator of a string that is all there is to read, with a
terminator in every buffer they give to `atoi`. -/
def ParsesSafely (font : Nat → UInt8) (str : Nat) (chars : List UInt8) (vga : Vga) (screen : Screen) : Prop :=
  ∃ enough, ∀ fuel ≥ enough,
    (∃ last, consoleWrite font (.only str chars) fuel str screen = .done (str + chars.length) last) ∧
    (∃ left, vgaPuts fuel (.only str chars) str vga = .done (str + chars.length) left) ∧
    ∀ buf ∈ consoleBuffers (.only str chars) fuel str ++ vgaBuffers (.only str chars) fuel str, 0 ∈ buf

theorem ParsesSafely.grammar (safe : ParsesSafely font str chars vga screen) (nonzero : 0 ∉ chars) :
    (∃ tokens, Closed tokens chars) ∧ ∃ turns, Turns turns chars [] := by
  obtain ⟨enough, runs⟩ := safe
  obtain ⟨⟨last, written⟩, ⟨left, put⟩, terminated⟩ := runs enough (Nat.le_refl enough)
  obtain ⟨console, vga⟩ := List.forall_mem_append.mp terminated
  exact ⟨closed_of_done written (.only str nonzero) console, turns_of_done put (.only str nonzero) vga⟩

/-- The parsers get through exactly the strings in which each finds every sequence closed
after at most three bytes, and `vga_puts` also one more byte behind it. -/
theorem parsesSafely_iff (nonzero : 0 ∉ chars) : ParsesSafely font str chars vga screen ↔
    (∃ tokens, Closed tokens chars) ∧ ∃ turns, Turns turns chars [] := by
  constructor
  · intro safe
    exact safe.grammar nonzero
  · intro grammar
    obtain ⟨⟨tokens, closed⟩, turns, taken⟩ := grammar
    have holds := Text.only_holds str nonzero
    refine ⟨chars.length + 7, fun fuel enough => ?_⟩
    have console := consoleBuffers_closed closed holds (by omega : chars.length < fuel)
    have vga := vgaBuffers_turns taken holds (by omega : chars.length < fuel)
    exact ⟨⟨_, consoleWrite_closed closed holds (by omega)⟩, ⟨_, vgaPuts_ends taken holds enough⟩,
      List.forall_mem_append.mpr ⟨console, vga⟩⟩

theorem parsesSafely_red : ParsesSafely (fun _ => 0x3C) 0 [0x1B, 0x5B, 0x33, 0x31, 0x6D, 0x41] greyVga greyScreen := by
  have closed : Closed [.sequence [0x33, 0x31], .byte 0x41] [0x1B, 0x5B, 0x33, 0x31, 0x6D, 0x41] :=
    .sequence (by decide) (by decide) (.byte (by decide) .nil)
  have taken : Turns [.select [0x33, 0x31] 0x41] [0x1B, 0x5B, 0x33, 0x31, 0x6D, 0x41] [] :=
    .cons (.select ⟨by decide, by decide, by decide, by decide⟩) .nil
  exact (parsesSafely_iff (by decide)).mpr ⟨⟨_, closed⟩, _, taken⟩

/-- `vga_puts` goes on behind the end of `"\033[0m"`, and both do behind that of `"\033["`. -/
theorem parses_behind_end : ¬ ParsesSafely (fun _ => 0x3C) 0 [0x1B, 0x5B, 0x30, 0x6D] greyVga greyScreen ∧
    ¬ ParsesSafely (fun _ => 0x3C) 0 [0x1B, 0x5B] greyVga greyScreen := by
  constructor
  · intro safe
    have plain : ∀ token ∈ [Token.sequence [0x30]], token.Plain := by decide
    have faulting : Comes (.only 0 [0x1B, 0x5B, 0x30, 0x6D]) 0 greyVga fun outcome => ∃ after, outcome = .faulted after :=
      vgaPuts_faults plain id (only_holds_tokens 0 plain) rfl Text.only_behind
    obtain ⟨enough, runs⟩ := safe
    obtain ⟨more, faults⟩ := faulting
    obtain ⟨_, ⟨_, run⟩, _⟩ := runs (max enough more) (Nat.le_max_left _ _)
    obtain ⟨_, fault⟩ := faults (max enough more) (Nat.le_max_right _ _)
    cases run.symm.trans fault
  · intro safe
    obtain ⟨⟨tokens, closed⟩, _⟩ := safe.grammar (by decide)
    generalize same : ([0x1B, 0x5B] : List UInt8) = chars at closed
    cases closed with
    | nil => cases same
    | byte plain _ =>
        cases same
        exact plain ⟨rfl, rfl⟩
    | sequence =>
        have length := congrArg List.length same
        rw [length_sequence] at length
        simp only [List.length_cons, List.length_nil] at length
        omega

end BarrelOS.Display
