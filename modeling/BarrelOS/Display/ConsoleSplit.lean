import BarrelOS.Display.Console

namespace BarrelOS.Display

open BarrelOS.Data BarrelOS.Semantics

/-- The writes to the rows of the cursor's cell from `first` on, in the order of their pixels. -/
def Console.cellWrites (console : Console) (first : Nat) (color : Nat → Nat → UInt32) : List (Nat × UInt8) :=
  (List.range' first (16 - first)).flatMap fun i : Nat => (List.range 8).flatMap fun o : Nat =>
    console.fb.pixel (console.cursorIndex i o) (color i o)

variable {font : Nat → UInt8} {c : UInt8} {screen marked : Screen} {console : Console} {tokens : List Token}
  {chars : List UInt8} {first row : Nat} {color other : Nat → Nat → UInt32}

theorem pixel_places (fb : Framebuffer) (index : Int) (color other : UInt32) :
    (fb.pixel index color).map Prod.fst = (fb.pixel index other).map Prod.fst := by
  rw [Framebuffer.pixel, Framebuffer.pixel, List.map_map, List.map_map]
  rfl

theorem cellWrites_subset (fewer : row ≤ first) (inside : first ≤ 16) :
    (console.cellWrites first color).map Prod.fst ⊆ (console.cellWrites row other).map Prod.fst := by
  simp only [Console.cellWrites, List.map_flatMap]
  intro place written
  obtain ⟨i, rows, written⟩ := List.mem_flatMap.mp written
  obtain ⟨o, column, written⟩ := List.mem_flatMap.mp written
  refine List.mem_flatMap.mpr ⟨i, ?_, List.mem_flatMap.mpr ⟨o, column, ?_⟩⟩
  · rw [List.mem_range'_1] at rows ⊢
    omega
  · rwa [pixel_places console.fb _ (color i o) (other i o)] at written

/-- An underline in some colour may be drawn over the cell of the cursor. -/
def Underlined (screen marked : Screen) : Prop :=
  marked.console = screen.console ∧
    ∃ color, marked.memory = stores screen.memory (screen.console.cellWrites 13 color)

theorem Underlined.painted (underlined : Underlined screen marked) :
    stores marked.memory (screen.console.cellWrites 0 color) = stores screen.memory (screen.console.cellWrites 0 color) := by
  obtain ⟨_, _, memory⟩ := underlined
  rw [memory]
  exact stores_overwritten (cellWrites_subset (Nat.zero_le 13) (by decide))

theorem drawCursor_true : consoleDrawCursor true screen =
    { screen with memory := stores screen.memory (screen.console.cellWrites 0 fun _ _ => ansiToRgb screen.console.background) } :=
  rfl

theorem drawCursor_false : consoleDrawCursor false screen =
    { screen with memory := stores screen.memory (screen.console.cellWrites 13 fun _ _ => ansiToRgb screen.console.foreground) } :=
  rfl

theorem fbDrawChar_cell (fore back : UInt32) (memory : Bytes) :
    fbDrawChar font console.fb (console.x * 8 + console.borderX) (console.y * 16 + console.borderY) c fore back memory =
      stores memory (console.cellWrites 0 fun i o =>
        if font (c.toNat * 16 + i) &&& 1 <<< (7 - UInt8.ofNat o) ≠ 0 then fore else back) := by
  have same : ∀ i o : Nat, (console.y * 16 + console.borderY + i) * console.fb.width + (console.x * 8 + console.borderX) + o =
      console.cursorIndex i o := by
    intro i o
    rw [Console.cursorIndex]
    ring
  simp only [fbDrawChar, same]
  rfl

theorem Underlined.drawn (screen : Screen) : Underlined screen (consoleDrawCursor false screen) :=
  ⟨rfl, fun _ _ => ansiToRgb screen.console.foreground, by rw [drawCursor_false]⟩

namespace Underlined

variable (underlined : Underlined screen marked)
include underlined

theorem drawCursor : consoleDrawCursor true marked = consoleDrawCursor true screen := by
  rw [drawCursor_true, drawCursor_true, underlined.1, underlined.painted]

/-- Each case of `console_putchar` paints the cell of the cursor before anything else. -/
theorem putchar : consolePutchar font c marked = consolePutchar font c screen := by
  unfold consolePutchar
  simp only [underlined.drawCursor, underlined.1, fbDrawChar_cell, underlined.painted]

theorem select (code : Int) : Underlined { screen with console := screen.console.select code }
    { marked with console := marked.console.select code } := by
  obtain ⟨console, color, memory⟩ := underlined
  refine ⟨congrArg (Console.select code) console, color, memory.trans ?_⟩
  unfold Console.select
  repeat' split
  all_goals rfl

/-- The underline that a write leaves is gone when the next one ends. -/
theorem finish (tokens : List Token) :
    consoleDrawCursor false (tokens.foldl (Screen.feed font) marked) =
      consoleDrawCursor false (tokens.foldl (Screen.feed font) screen) := by
  induction tokens generalizing screen marked with
  | nil =>
      obtain ⟨console, color, memory⟩ := underlined
      rw [List.foldl_nil, List.foldl_nil, drawCursor_false, drawCursor_false, console, memory,
        stores_overwritten (cellWrites_subset (Nat.le_refl 13) (by decide))]
  | cons token tokens ih =>
      cases token with
      | byte c =>
          have same : Screen.feed font marked (.byte c) = Screen.feed font screen (.byte c) := underlined.putchar
          rw [List.foldl_cons, List.foldl_cons, same]
      | sequence params => exact ih (underlined.select (codeOf params))

end Underlined

/-! Strings one after the other -/

theorem Closed.append {more : List Token} {next : List UInt8} (closed : Closed tokens chars) (later : Closed more next)
    (ended : chars.getLast? ≠ some esc) : Closed (tokens ++ more) (chars ++ next) := by
  induction closed with
  | nil => exact later
  | @byte c _ rest plain _ ih =>
      cases rest with
      | nil =>
          have other : c ≠ esc := fun same => ended (congrArg some same)
          exact .byte (fun escape => other escape.1) (ih (by simp))
      | cons first rest => exact .byte plain (ih ended)
  | @sequence params tokens rest short inside _ ih =>
      rw [List.cons_append, List.append_assoc]
      refine .sequence short inside (ih fun last => ended ?_)
      rw [List.getLast?_append, last]
      rfl

theorem consoleWrite_append {text1 text2 both : Text} {s1 s2 : List UInt8} {str1 str2 str : Nat} {tokens1 tokens2 : List Token}
    (closed1 : Closed tokens1 s1) (closed2 : Closed tokens2 s2) (ended : s1.getLast? ≠ some esc)
    (first : text1.Holds str1 s1) (second : text2.Holds str2 s2) (whole : both.Holds str (s1 ++ s2)) (start : Screen) {fuel : Nat}
    (enough : s1.length + s2.length < fuel) :
    ∃ ret1 ret2 ret middle last, consoleWrite font text1 fuel str1 start = .done ret1 middle ∧
      consoleWrite font text2 fuel str2 middle = .done ret2 last ∧ consoleWrite font both fuel str start = .done ret last := by
  have short1 : s1.length < fuel := by omega
  have short2 : s2.length < fuel := by omega
  have length : (s1 ++ s2).length < fuel := by rwa [List.length_append]
  have left := Underlined.drawn (tokens1.foldl (Screen.feed font) start)
  refine ⟨_, _, str + (s1 ++ s2).length, _, _, consoleWrite_closed closed1 first short1,
    consoleWrite_closed closed2 second short2, ?_⟩
  rw [left.finish tokens2, ← List.foldl_append]
  exact consoleWrite_closed (closed1.append closed2 ended) whole length

/-- A write in two parts does what one write of both does. -/
theorem console_write_append (fb : Framebuffer) (console : Console) (memory : Bytes) {text1 text2 both : Text}
    {s1 s2 : List UInt8} {str1 str2 str : Nat} {tokens1 tokens2 : List Token} (closed1 : Closed tokens1 s1)
    (closed2 : Closed tokens2 s2) (ended : s1.getLast? ≠ some esc) (first : text1.Holds str1 s1) (second : text2.Holds str2 s2)
    (whole : both.Holds str (s1 ++ s2)) :
    ∃ enough, ∀ fuel ≥ enough, ∃ ret1 ret2 ret middle last,
      consoleWrite font text1 fuel str1 ⟨consoleInit fb console, memory⟩ = .done ret1 middle ∧
      consoleWrite font text2 fuel str2 middle = .done ret2 last ∧
      consoleWrite font both fuel str ⟨consoleInit fb console, memory⟩ = .done ret last :=
  ⟨s1.length + s2.length + 1, fun _ more => consoleWrite_append closed1 closed2 ended first second whole _ more⟩

theorem console_write_append_red : ∃ enough, ∀ fuel ≥ enough, ∃ ret1 ret2 ret middle last,
    consoleWrite (fun _ => 0x3C) (.only 0 [0x41]) fuel 0
      ⟨consoleInit ⟨0xFD000000, 640, 480, 2560⟩ ⟨0, 0, 0, 0, 0, 0, 0, 0, ⟨0, 0, 0, 0⟩⟩, fun _ => 0⟩ = .done ret1 middle ∧
    consoleWrite (fun _ => 0x3C) (.only 0 [0x1B, 0x5B, 0x33, 0x31, 0x6D, 0x42]) fuel 0 middle = .done ret2 last ∧
    consoleWrite (fun _ => 0x3C) (.only 0 [0x41, 0x1B, 0x5B, 0x33, 0x31, 0x6D, 0x42]) fuel 0
      ⟨consoleInit ⟨0xFD000000, 640, 480, 2560⟩ ⟨0, 0, 0, 0, 0, 0, 0, 0, ⟨0, 0, 0, 0⟩⟩, fun _ => 0⟩ = .done ret last := by
  have closed1 : Closed [.byte 0x41] [0x41] := .byte (by decide) .nil
  have closed2 : Closed [.sequence [0x33, 0x31], .byte 0x42] [0x1B, 0x5B, 0x33, 0x31, 0x6D, 0x42] :=
    .sequence (by decide) (by decide) (.byte (by decide) .nil)
  exact console_write_append _ _ _ closed1 closed2 (by decide) (Text.only_holds 0 (by decide)) (Text.only_holds 0 (by decide))
    (Text.only_holds 0 (by decide))

end BarrelOS.Display
