import BarrelOS.Display.Cursor
import BarrelOS.Display.Turns

namespace BarrelOS.Display

open BarrelOS.Data BarrelOS.Semantics BarrelOS.Lib

/-- A printable character, a control character that both back ends may get, or a
sequence with a code of at most three digits. -/
def Token.Plain : Token → Prop
  | byte c => c ∈ ['\n'.toUInt8, '\t'.toUInt8, '\x08'.toUInt8] ∨ (0x20 ≤ c ∧ c ≤ 0x7E)
  | sequence params => params.length ≤ 3 ∧ ∀ digit ∈ params, isDigit digit.toNat

instance : DecidablePred Token.Plain
  | .byte _ => inferInstanceAs (Decidable (_ ∨ _))
  | .sequence params => @instDecidableAnd _ _ inferInstance (List.decidableBAll _ params)

/-- The characters `vga_puts` puts on the screen: behind a sequence it takes the next
token for text, whatever it is. -/
def vgaView : List Token → List UInt8
  | [] => []
  | .byte c :: rest => c :: vgaView rest
  | [.sequence _] => []
  | .sequence _ :: token :: rest => token.bytes ++ vgaView rest

def consoleView (tokens : List Token) : List UInt8 :=
  tokens.flatMap fun
    | .byte c => [c]
    | .sequence _ => []

/-- Every sequence that `vga_puts` interprets has a token behind it: the string does not
end with an odd number of sequences. -/
def Followed : List Token → Prop
  | [] => True
  | .byte _ :: rest => Followed rest
  | [.sequence _] => False
  | .sequence _ :: _ :: rest => Followed rest

variable {text : Text} {str ret fuel : Nat} {vga : Vga} {cursor : Cursor} {c digit : UInt8} {chars rest params : List UInt8}
  {tokens : List Token} {token : Token} {screen : Screen} {font : Nat → UInt8}

theorem Token.Plain.byte_ne_esc (plain : (Token.byte c).Plain) : c ≠ esc := by
  intro same
  subst same
  exact absurd plain (by decide)

theorem Token.Plain.uncons (plain : token.Plain) : ∃ c later, token.bytes = c :: later ∧ ∀ d ∈ later, d ≠ esc := by
  cases token with
  | byte c => exact ⟨c, [], rfl, fun _ => nofun⟩
  | sequence params =>
      refine ⟨esc, '['.toUInt8 :: params ++ ['m'.toUInt8], rfl, ?_⟩
      intro d member
      rw [List.cons_append] at member
      rcases List.mem_cons.mp member with rfl | member
      · decide
      · rcases List.mem_append.mp member with digits | last
        · exact digit_ne (plain.2 d digits) (by decide)
        · rw [List.mem_singleton.mp last]
          decide

theorem Token.Plain.nonzero (plain : token.Plain) : 0 ∉ token.bytes := by
  cases token with
  | byte c =>
      intro member
      rw [← List.mem_singleton.mp member] at plain
      exact absurd plain (by decide)
  | sequence params =>
      intro member
      simp only [bytes, List.mem_cons, List.mem_append, List.cons_append] at member
      rcases member with first | bracket | digits | last | none
      · exact absurd first (by decide)
      · exact absurd bracket (by decide)
      · exact digit_ne (plain.2 0 digits) (by decide) rfl
      · exact absurd last (by decide)
      · cases none

theorem closed_of_plain (plain : ∀ token ∈ tokens, token.Plain) : Closed tokens (tokens.flatMap Token.bytes) := by
  induction tokens with
  | nil => exact .nil
  | cons token tokens ih =>
      obtain ⟨here, later⟩ := List.forall_mem_cons.mp plain
      cases token with
      | byte c => exact .byte (fun escape => here.byte_ne_esc escape.1) (ih later)
      | sequence params =>
          exact .sequence here.1 (fun member => digit_ne (here.2 _ member) (by decide) rfl) (ih later)

/-! `vga_puts`, token by token -/

theorem vgaEscape_digits (holds : text.Holds str ((Token.sequence params).bytes ++ rest))
    (plain : (Token.sequence params).Plain) (enough : params.length < fuel) :
    vgaEscape fuel text str vga = .done (false, str + 2 + params.length + 1) (vga.select (codeOf params)) := by
  rw [Token.bytes, List.cons_append, List.cons_append, List.append_assoc, List.singleton_append] at holds
  exact vgaEscape_select holds (selects_of_digits plain.1 plain.2) enough

/-- With enough fuel, `vga_puts` ends like this. -/
def Comes (text : Text) (str : Nat) (vga : Vga) (post : Outcome Vga Nat → Prop) : Prop :=
  ∃ enough, ∀ fuel ≥ enough, post (vgaPuts fuel text str vga)

namespace Comes

variable {post : Outcome Vga Nat → Prop}

theorem nil (holds : text.Holds str []) (ended : post (.done str vga)) : Comes text str vga post := by
  refine ⟨1, fun fuel enough => ?_⟩
  obtain ⟨fuel, rfl⟩ := Nat.exists_eq_add_of_le' enough
  rwa [vgaPuts_nil holds]

theorem byte (holds : text.Holds str (c :: rest)) (plain : c ≠ esc) (later : Comes text (str + 1) (vga.type c) post) :
    Comes text str vga post := by
  obtain ⟨enough, runs⟩ := later
  refine ⟨enough + 7, fun fuel more => ?_⟩
  obtain ⟨fuel, rfl⟩ := Nat.exists_eq_add_of_le' (Nat.le_of_add_left_le more : 7 ≤ fuel)
  rw [vgaPuts_byte holds (fun escape => plain escape.1), vgaPutchar_type (by omega)]
  exact runs (fuel + 6) (by omega)

theorem bytes (holds : text.Holds str (chars ++ rest)) (plain : ∀ c ∈ chars, c ≠ esc)
    (later : Comes text (str + chars.length) (chars.foldl (fun vga c => vga.type c) vga) post) : Comes text str vga post := by
  induction chars generalizing str vga with
  | nil => exact later
  | cons c chars ih =>
      obtain ⟨other, others⟩ := List.forall_mem_cons.mp plain
      refine byte holds other (ih holds.tail others ?_)
      rw [Nat.add_assoc, Nat.add_comm 1]
      exact later

theorem sequence (holds : text.Holds str ((Token.sequence params).bytes ++ rest)) (plain : (Token.sequence params).Plain)
    (next : text (str + 2 + params.length + 1) = some c)
    (later : Comes text (str + 2 + params.length + 2) ((vga.select (codeOf params)).type c) post) :
    Comes text str vga post := by
  obtain ⟨enough, runs⟩ := later
  refine ⟨enough + params.length + 7, fun fuel more => ?_⟩
  obtain ⟨fuel, rfl⟩ : ∃ fewer, fuel = fewer + 1 := ⟨fuel - 1, by omega⟩
  have room : params.length < fuel := by omega
  have put : vgaPutchar fuel c (vga.select (codeOf params)) = .done () ((vga.select (codeOf params)).type c) :=
    vgaPutchar_type (by omega)
  rw [vgaPuts, esc_at holds, isEscape_sequence holds]
  simp only [Outcome.ofOption, Outcome.done_bind, ne_eq, esc_ne_zero, not_false_eq_true, if_true,
    vgaEscape_digits holds plain room, next, Bool.false_eq_true, if_false, put]
  exact runs fuel (by omega)

end Comes

theorem Cursor.Stays.append {tab : Nat} (stays : Cursor.Stays tab (chars ++ rest) cursor) :
    Cursor.Stays tab chars cursor ∧ Cursor.Stays tab rest (chars.foldl (Cursor.step tab) cursor) := by
  induction chars generalizing cursor with
  | nil => exact ⟨trivial, stays⟩
  | cons c chars ih => exact ⟨⟨stays.1, (ih stays.2).1⟩, (ih stays.2).2⟩

theorem Vga.At.types (here : vga.At cursor) (stays : Cursor.Stays 4 chars cursor) :
    (chars.foldl (fun vga c => vga.type c) vga).At (chars.foldl (Cursor.step 4) cursor) := by
  induction chars generalizing vga cursor with
  | nil => exact here
  | cons c chars ih => exact ih (here.type stays.1) stays.2

theorem Comes.pair {post : Outcome Vga Nat → Prop}
    (holds : text.Holds str ((Token.sequence params).bytes ++ (token.bytes ++ rest))) (plain : (Token.sequence params).Plain)
    (next : token.Plain)
    (later : Comes text (str + (Token.sequence params).bytes.length + token.bytes.length)
      (token.bytes.foldl (fun vga c => vga.type c) (vga.select (codeOf params))) post) :
    Comes text str vga post := by
  obtain ⟨c, others, same, unescaped⟩ := next.uncons
  have behind : text.Holds (str + 2 + params.length + 1) (c :: (others ++ rest)) := by
    have string := holds_behind holds
    rwa [same] at string
  have place : str + (Token.sequence params).bytes.length + token.bytes.length = str + 2 + params.length + 2 + others.length := by
    rw [same]
    simp only [Token.bytes, List.length_append, List.length_cons, List.length_nil]
    omega
  rw [place, same] at later
  exact .sequence holds plain behind.head.1 (.bytes behind.tail unescaped later)

/-- With a token behind every sequence, `vga_puts` stops at the end of the string. -/
theorem vgaPuts_lands (plain : ∀ token ∈ tokens, token.Plain) (followed : Followed tokens)
    (holds : text.Holds str (tokens.flatMap Token.bytes)) (stop : str + (tokens.flatMap Token.bytes).length = ret)
    (here : vga.At cursor) (stays : Cursor.Stays 4 (vgaView tokens) cursor) :
    Comes text str vga fun outcome => ∃ after, outcome = .done ret after ∧
      after.At ((vgaView tokens).foldl (Cursor.step 4) cursor) := by
  induction tokens using vgaView.induct generalizing str vga cursor with
  | case1 => exact .nil holds ⟨vga, by rw [← stop]; rfl, here⟩
  | case2 c tokens ih =>
      obtain ⟨first, others⟩ := List.forall_mem_cons.mp plain
      rw [List.flatMap_cons, List.length_append, ← Nat.add_assoc] at stop
      exact .byte holds first.byte_ne_esc (ih others followed holds.tail stop (here.type stays.1) stays.2)
  | case3 params => cases followed
  | case4 params token tokens ih =>
      obtain ⟨first, others⟩ := List.forall_mem_cons.mp plain
      obtain ⟨second, others⟩ := List.forall_mem_cons.mp others
      obtain ⟨inside, outside⟩ := stays.append
      rw [List.flatMap_cons, List.flatMap_cons, List.length_append, List.length_append, ← Nat.add_assoc, ← Nat.add_assoc] at stop
      refine .pair holds first second ?_
      have later := ih others followed holds.suffix.suffix stop ((here.select (codeOf params)).types inside) outside
      rwa [← List.foldl_append] at later

/-- Otherwise it goes on behind the end of the string. -/
theorem vgaPuts_faults (plain : ∀ token ∈ tokens, token.Plain) (open_end : ¬ Followed tokens)
    (holds : text.Holds str (tokens.flatMap Token.bytes)) (stop : str + (tokens.flatMap Token.bytes).length = ret)
    (unreadable : text (ret + 1) = none) : Comes text str vga fun outcome => ∃ after, outcome = .faulted after := by
  induction tokens using vgaView.induct generalizing str vga with
  | case1 => exact absurd trivial open_end
  | case2 c tokens ih =>
      obtain ⟨first, others⟩ := List.forall_mem_cons.mp plain
      rw [List.flatMap_cons, List.length_append, ← Nat.add_assoc] at stop
      exact .byte holds first.byte_ne_esc (ih others open_end holds.tail stop)
  | case3 params =>
      have whole := List.forall_mem_singleton.mp plain
      have behind : text.Holds (str + 2 + params.length + 1) [] := holds_behind holds
      refine .sequence holds whole behind.nil ⟨1, fun fuel enough => ?_⟩
      obtain ⟨fuel, rfl⟩ := Nat.exists_eq_add_of_le' enough
      have length : [Token.sequence params].flatMap Token.bytes = (Token.sequence params).bytes ++ [] := rfl
      rw [length, length_sequence, List.length_nil] at stop
      have off : text (str + 2 + params.length + 2) = none := by
        rw [← unreadable, ← stop]
        congr 1
        omega
      rw [vgaPuts, off]
      exact ⟨_, rfl⟩
  | case4 params token tokens ih =>
      obtain ⟨first, others⟩ := List.forall_mem_cons.mp plain
      obtain ⟨second, others⟩ := List.forall_mem_cons.mp others
      rw [List.flatMap_cons, List.flatMap_cons, List.length_append, List.length_append, ← Nat.add_assoc, ← Nat.add_assoc] at stop
      exact .pair holds first second (ih others open_end holds.suffix.suffix stop)

/-! `console_write`, token by token -/

theorem Screen.At.feeds (here : screen.At cursor)
    (stays : Cursor.Stays 1 (consoleView tokens) cursor) :
    (tokens.foldl (Screen.feed font) screen).At ((consoleView tokens).foldl (Cursor.step 1) cursor) := by
  induction tokens generalizing screen cursor with
  | nil => exact here
  | cons token tokens ih =>
      cases token with
      | byte c => exact ih (here.putchar stays.1) stays.2
      | sequence params => exact ih (here.select (codeOf params)) stays

/-! Both of them -/

/-- Both back ends get by with the string and its terminator, at which they stop, and
leave their cursors at the same place. -/
def Agree (font : Nat → UInt8) (str : Nat) (chars : List UInt8) (vga : Vga) (screen : Screen) : Prop :=
  ∃ enough, ∀ fuel ≥ enough, ∃ left right,
    vgaPuts fuel (.only str chars) str vga = .done (str + chars.length) left ∧
    consoleWrite font (.only str chars) fuel str screen = .done (str + chars.length) right ∧
    right.console.x = left.x.toNat ∧ right.console.y = left.y.toNat

theorem only_holds_tokens (str : Nat) (plain : ∀ token ∈ tokens, token.Plain) :
    (Text.only str (tokens.flatMap Token.bytes)).Holds str (tokens.flatMap Token.bytes) := by
  refine Text.only_holds str fun member => ?_
  obtain ⟨token, here, zero⟩ := List.mem_flatMap.mp member
  exact (plain token here).nonzero zero

theorem not_agree_of_open (plain : ∀ token ∈ tokens, token.Plain) (open_end : ¬ Followed tokens) :
    ¬ Agree font str (tokens.flatMap Token.bytes) vga screen := by
  intro agree
  obtain ⟨enough, runs⟩ := agree
  have faulting : Comes (.only str (tokens.flatMap Token.bytes)) str vga fun outcome => ∃ after, outcome = .faulted after :=
    vgaPuts_faults plain open_end (only_holds_tokens str plain) rfl Text.only_behind
  obtain ⟨more, faults⟩ := faulting
  obtain ⟨left, _, run, _⟩ := runs (max enough more) (Nat.le_max_left _ _)
  obtain ⟨after, fault⟩ := faults (max enough more) (Nat.le_max_right _ _)
  cases run.symm.trans fault

theorem agree_iff_landing (plain : ∀ token ∈ tokens, token.Plain) (followed : Followed tokens) (vgaAt : vga.At cursor)
    (consoleAt : screen.At cursor) (vgaStays : Cursor.Stays 4 (vgaView tokens) cursor)
    (consoleStays : Cursor.Stays 1 (consoleView tokens) cursor) :
    Agree font str (tokens.flatMap Token.bytes) vga screen ↔
      (vgaView tokens).foldl (Cursor.step 4) cursor = (consoleView tokens).foldl (Cursor.step 1) cursor := by
  have holds := only_holds_tokens str plain
  obtain ⟨more, lands⟩ := vgaPuts_lands plain followed holds rfl vgaAt vgaStays
  have right : (consoleDrawCursor false (tokens.foldl (Screen.feed font) screen)).At
      ((consoleView tokens).foldl (Cursor.step 1) cursor) := (consoleAt.feeds consoleStays).drawCursor false
  have writes : ∀ fuel > (tokens.flatMap Token.bytes).length, consoleWrite font (.only str (tokens.flatMap Token.bytes)) fuel str
      screen = .done _ (consoleDrawCursor false (tokens.foldl (Screen.feed font) screen)) :=
    fun fuel enough => consoleWrite_closed (closed_of_plain plain) holds enough
  constructor
  · intro agree
    obtain ⟨enough, runs⟩ := agree
    let fuel := max enough (max more ((tokens.flatMap Token.bytes).length + 1))
    obtain ⟨left, last, vgaRun, consoleRun, x, y⟩ := runs fuel (by omega)
    obtain ⟨after, run, left_at⟩ := lands fuel (by omega)
    cases vgaRun.symm.trans run
    cases consoleRun.symm.trans (writes fuel (by omega))
    rw [right.x, left_at.1] at x
    rw [right.y, left_at.2] at y
    exact Cursor.ext (Int.ofNat_inj.mp x).symm (Int.ofNat_inj.mp y).symm
  · intro same
    refine ⟨max more ((tokens.flatMap Token.bytes).length + 1), fun fuel enough => ?_⟩
    obtain ⟨after, run, left_at⟩ := lands fuel (by omega)
    refine ⟨after, _, run, writes fuel (by omega), ?_, ?_⟩
    · rw [right.x, left_at.1, same]
    · rw [right.y, left_at.2, same]

/-- Without tabs, and with a character behind every sequence, nothing that the back ends
do differently happens. -/
def Undisturbed : List Token → Prop
  | [] => True
  | .byte c :: rest => c ≠ '\t'.toUInt8 ∧ Undisturbed rest
  | .sequence _ :: .byte c :: rest => c ≠ '\t'.toUInt8 ∧ Undisturbed rest
  | [.sequence _] => False
  | .sequence _ :: .sequence _ :: _ => False

theorem step_eq (visible : c ≠ '\t'.toUInt8) (tab other : Nat) : cursor.step tab c = cursor.step other c := by
  unfold Cursor.step
  rw [if_neg visible, if_neg visible]

theorem Undisturbed.landing (undisturbed : Undisturbed tokens) : Followed tokens ∧
    (vgaView tokens).foldl (Cursor.step 4) cursor = (consoleView tokens).foldl (Cursor.step 1) cursor := by
  induction tokens using Undisturbed.induct generalizing cursor with
  | case1 => exact ⟨trivial, rfl⟩
  | case2 c rest ih =>
      obtain ⟨visible, later⟩ := undisturbed
      obtain ⟨followed, same⟩ := @ih (cursor.step 4 c) later
      refine ⟨followed, same.trans ?_⟩
      rw [step_eq visible 4 1]
      rfl
  | case3 params c rest ih =>
      obtain ⟨visible, later⟩ := undisturbed
      obtain ⟨followed, same⟩ := @ih (cursor.step 4 c) later
      refine ⟨followed, same.trans ?_⟩
      rw [step_eq visible 4 1]
      rfl
  | case4 => exact undisturbed.elim
  | case5 => exact undisturbed.elim

/-- The back ends agree about a string exactly when `vga_puts` has a token behind every
sequence it interprets, and tabs of four columns instead of one and sequences taken for
text make no difference to where the string ends. -/
theorem back_ends_agree (plain : ∀ token ∈ tokens, token.Plain) (vgaAt : vga.At cursor) (consoleAt : screen.At cursor)
    (vgaStays : Cursor.Stays 4 (vgaView tokens) cursor) (consoleStays : Cursor.Stays 1 (consoleView tokens) cursor) :
    Agree font str (tokens.flatMap Token.bytes) vga screen ↔ Followed tokens ∧
      (vgaView tokens).foldl (Cursor.step 4) cursor = (consoleView tokens).foldl (Cursor.step 1) cursor := by
  by_cases followed : Followed tokens
  · exact (agree_iff_landing plain followed vgaAt consoleAt vgaStays consoleStays).trans (and_iff_right followed).symm
  · exact iff_of_false (not_agree_of_open plain followed) (mt And.left followed)

/-- A framebuffer of 640x400 pixels has a grid of 80x25. -/
def greyScreen : Screen := ⟨consoleInit ⟨0xFD000000, 640, 400, 2560⟩ ⟨0, 0, 0, 0, 0, 0, 0, 0, ⟨0, 0, 0, 0⟩⟩, fun _ => 0⟩

def greyVga : Vga := ⟨0, 0, 0x07, fun _ => 0x0700, 0⟩

def origin : Cursor := ⟨0, 0, Nat.succ_pos 79, Nat.succ_pos 24⟩

theorem greyVga_at : greyVga.At origin := ⟨rfl, rfl⟩

theorem greyScreen_at : greyScreen.At origin := ⟨by decide, by decide, rfl, rfl⟩

theorem back_ends_agree_red : Agree (fun _ => 0x3C) 0 [0x1B, 0x5B, 0x33, 0x31, 0x6D, 0x41] greyVga greyScreen := by
  have plain : ∀ token ∈ [Token.sequence [0x33, 0x31], .byte 0x41], token.Plain := by decide
  exact (back_ends_agree plain greyVga_at greyScreen_at ⟨by decide, trivial⟩ ⟨by decide, trivial⟩).mpr
    (Undisturbed.landing ⟨by decide, trivial⟩)

/-- `vga_puts` reads behind the end of `"\033[0m"`, and a tab takes it to another column. -/
theorem back_ends_differ : ¬ Agree (fun _ => 0x3C) 0 [0x1B, 0x5B, 0x30, 0x6D] greyVga greyScreen ∧
    ¬ Agree (fun _ => 0x3C) 0 [0x09] greyVga greyScreen := by
  have sequence : ∀ token ∈ [Token.sequence [0x30]], token.Plain := by decide
  have tab : ∀ token ∈ [Token.byte 0x09], token.Plain := by decide
  refine ⟨not_agree_of_open sequence id, fun agree => ?_⟩
  have same := (agree_iff_landing tab trivial greyVga_at greyScreen_at ⟨by decide, trivial⟩ ⟨by decide, trivial⟩).mp agree
  exact absurd (congrArg Cursor.col same) (by decide)

end BarrelOS.Display
