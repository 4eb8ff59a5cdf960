import BarrelOS.Display.Escape
import Mathlib.Tactic.Ring

namespace BarrelOS.Display

open BarrelOS.Data BarrelOS.Semantics BarrelOS.Lib

/-- `struct framebuffer_t`. -/
structure Framebuffer where
  addr : Nat
  width : Int
  height : Int
  pitch : Int

/-- `struct console_t`. -/
structure Console where
  x : Int
  y : Int
  width : Int
  height : Int
  borderX : Int
  borderY : Int
  foreground : Int
  background : Int
  fb : Framebuffer

/-- A console with the memory its framebuffer lies in. -/
structure Screen where
  console : Console
  memory : Bytes

def Framebuffer.address (fb : Framebuffer) (offset : Int) : Nat := ((fb.addr + offset) % 2 ^ 32).toNat

/-- `addr[index] = color`, byte by byte. -/
def Framebuffer.pixel (fb : Framebuffer) (index : Int) (color : UInt32) : List (Nat × UInt8) :=
  (List.range 4).map fun byte : Nat => (fb.address (4 * index + byte), (color >>> (8 * UInt32.ofNat byte)).toUInt8)

/-- `builtin_font` is a parameter. -/
def fbDrawChar (font : Nat → UInt8) (fb : Framebuffer) (x y : Int) (c : UInt8) (fore back : UInt32) (memory : Bytes) : Bytes :=
  stores memory ((List.range 16).flatMap fun i : Nat => (List.range 8).flatMap fun o : Nat =>
    fb.pixel ((y + i) * fb.width + x + o)
      (if font (c.toNat * 16 + i) &&& 1 <<< (7 - UInt8.ofNat o) ≠ 0 then fore else back))

def rgbTable : List UInt32 :=
  [0xFF000000, 0xFF0000AA, 0xFF00AA00, 0xFF00AAAA, 0xFFAA0000, 0xFFAA00AA, 0xFFAA5500, 0xFFAAAAAA,
    0xFF555555, 0xFFFF5555, 0xFF55FF55, 0xFFFFFF55, 0xFF5555FF, 0xFFFF55FF, 0xFF55FFFF, 0xFFFFFFFF]

def ansiToRgb (ansi : Int) : UInt32 :=
  let entry := fun base : Int => rgbTable.getD (ansi - base).toNat 0
  if ansi = 0 then 0xAAAAAA
  else if ansi ≥ 30 ∧ ansi ≤ 37 then entry 30
  else if ansi ≥ 40 ∧ ansi ≤ 47 then entry 40
  else if ansi ≥ 90 ∧ ansi ≤ 97 then entry 82
  else if ansi ≥ 100 ∧ ansi ≤ 107 then entry 92
  else 0

/-- The pixel of the cursor's cell that `console_draw_cursor` takes. -/
def Console.cursorIndex (console : Console) (i o : Nat) : Int :=
  (console.y * 16 + i + console.borderY) * console.fb.width + (console.x * 8 + console.borderX) + o

def consoleDrawCursor (inverted : Bool) (screen : Screen) : Screen :=
  let console := screen.console
  let first := if inverted then 0 else 13
  let color := ansiToRgb (if inverted then console.background else console.foreground)
  { screen with
    memory := stores screen.memory ((List.range' first (16 - first)).flatMap fun i => (List.range 8).flatMap fun o =>
      console.fb.pixel (console.cursorIndex i o) color) }

def consoleScroll (screen : Screen) : Screen :=
  let console := screen.console
  let fb := console.fb
  let copied := memcpy (fb.address (fb.pitch * console.borderY)) (fb.address ((16 + console.borderY) * fb.pitch))
    ((fb.height - 16) * fb.pitch % 2 ^ 32).toNat screen.memory
  { memory := memset (fb.address ((fb.height - 16 - console.borderY) * fb.pitch)) 0 (16 * fb.pitch % 2 ^ 32).toNat copied
    console := { console with y := console.y - 1 } }

def Screen.move (x y : Int) (screen : Screen) : Screen := { screen with console := { screen.console with x, y } }

/-- What `console_putchar` does at its end. -/
def Screen.wrap (screen : Screen) : Screen :=
  if screen.console.x ≥ screen.console.width then
    let screen := screen.move 0 (screen.console.y + 1)
    if screen.console.y ≥ screen.console.height then consoleScroll screen else screen
  else screen

def consolePutchar (font : Nat → UInt8) (c : UInt8) (screen : Screen) : Screen :=
  Screen.wrap <|
    if c = '\n'.toUInt8 then
      let screen := consoleDrawCursor true screen
      screen.move screen.console.width screen.console.y
    else if c = '\x08'.toUInt8 then
      let screen := consoleDrawCursor true screen
      consoleDrawCursor true <|
        if screen.console.x = 0 then screen.move (screen.console.width - 1) (screen.console.y - 1)
        else screen.move (screen.console.x - 1) screen.console.y
    else
      let console := screen.console
      let memory := fbDrawChar font console.fb (console.x * 8 + console.borderX) (console.y * 16 + console.borderY) c
        (ansiToRgb console.foreground) (ansiToRgb console.background) screen.memory
      { screen with memory }.move (console.x + 1) console.y

/-- What a code does in `console_write`. -/
def Console.select (code : Int) (console : Console) : Console :=
  if code = 0 then { console with foreground := 37, background := 40 }
  else if (code ≥ 30 ∧ code ≤ 37) ∨ (code ≥ 90 ∧ code ≤ 97) then { console with foreground := code }
  else if (code ≥ 40 ∧ code ≤ 47) ∨ (code ≥ 100 ∧ code ≤ 107) then { console with background := code }
  else console

/-- It returns where the string ended. -/
def consoleWrite (font : Nat → UInt8) (text : Text) : Nat → Nat → Screen → Outcome Screen Nat
  | 0, _, screen => .running screen
  | fuel + 1, str, screen =>
      (Outcome.ofOption (text str) screen).bind fun char screen =>
        if char ≠ 0 then
          (Outcome.ofOption (isEscape text str) screen).bind fun escape screen =>
            if escape then
              (escapeCode fuel text (str + 2) screen).bind fun (code, str) screen =>
                consoleWrite font text fuel str { screen with console := screen.console.select code }
            else consoleWrite font text fuel (str + 1) (consolePutchar font char screen)
        else .done str (consoleDrawCursor false screen)

/-- The divisions of `long` round towards zero; `border` is a `uint32_t`, which makes
`fb->width - border` one too. -/
def consoleInit (fb : Framebuffer) (console : Console) : Console :=
  let border := (fb.height.tmod 16).tdiv 2
  { console with
    width := (fb.width - border) % 2 ^ 32 / 8
    height := fb.height.tdiv 16
    borderX := border
    borderY := border
    fb
    foreground := 37
    background := 40 }

/-! What a string does, token by token -/

def Screen.feed (font : Nat → UInt8) (screen : Screen) : Token → Screen
  | .byte c => consolePutchar font c screen
  | .sequence params => { screen with console := screen.console.select (codeOf params) }

variable {font : Nat → UInt8} {text : Text} {fuel str : Nat} {screen : Screen} {tokens : List Token} {chars : List UInt8}

theorem consoleWrite_closed (closed : Closed tokens chars) (holds : text.Holds str chars) (enough : chars.length < fuel) :
    consoleWrite font text fuel str screen =
      .done (str + chars.length) (consoleDrawCursor false (tokens.foldl (Screen.feed font) screen)) := by
  induction closed generalizing fuel str screen with
  | nil =>
      cases fuel with
      | zero => cases enough
      | succ fuel =>
          rw [consoleWrite, holds.nil, Outcome.ofOption, Outcome.done_bind, if_neg (not_not.mpr rfl)]
          rfl
  | byte plain later ih =>
      cases fuel with
      | zero => cases enough
      | succ fuel =>
          rw [consoleWrite, holds.head.1, isEscape_of_holds holds, decide_eq_false plain]
          simp only [Outcome.ofOption, Outcome.done_bind, if_pos holds.head.2, Bool.false_eq_true, if_false]
          rw [ih holds.tail (Nat.lt_of_succ_lt_succ enough), List.length_cons, Nat.add_assoc, Nat.add_comm 1]
          rfl
  | @sequence params tokens rest short inside later ih =>
      cases fuel with
      | zero => cases enough
      | succ fuel =>
          rw [length_sequence] at enough
          have room : params.length < fuel := by omega
          have fewer : rest.length < fuel := by omega
          have place : str + 2 + params.length + 1 + rest.length = str + (params.length + rest.length + 3) := by omega
          rw [consoleWrite, esc_at holds, isEscape_sequence holds, length_sequence]
          simp only [Outcome.ofOption, Outcome.done_bind, ne_eq, esc_ne_zero, not_false_eq_true, if_true,
            escapeCode_params (holds_params holds) inside short room]
          rw [ih (holds_behind holds) fewer, place]
          rfl

end BarrelOS.Display
