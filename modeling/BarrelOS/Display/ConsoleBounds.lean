import BarrelOS.Display.BackEnds
import BarrelOS.Display.ConsoleSplit

namespace BarrelOS.Display

open BarrelOS.Data BarrelOS.Semantics

/-! The cursor and the pixels of the framebuffer console -/

/-- `console_putchar` up to the check of the column. -/
def Screen.print (font : Nat → UInt8) (c : UInt8) (screen : Screen) : Screen :=
  if c = '\n'.toUInt8 then
    let screen := consoleDrawCursor true screen
    screen.move screen.console.width screen.console.y
  else if c = '\x08'.toUInt8 then
    let screen := consoleDrawCursor true screen
    consoleDrawCursor true <|
      if screen.console.x = 0 then screen.move (screen.console.width - 1) (screen.console.y - 1)
      else screen.move (screen.console.x - 1) screen.console.y
  else
    let console := screen.console
    let memory := fbDrawChar font console.fb (console.x * 8 + console.borderX) (console.y * 16 + console.borderY) c
      (ansiToRgb console.foreground) (ansiToRgb console.background) screen.memory
    { screen with memory }.move (console.x + 1) console.y

namespace Console

def moved (x y : Int) (console : Console) : Console := { console with x, y }

def stepBack (console : Console) : Console :=
  if console.x = 0 then console.moved (console.width - 1) (console.y - 1) else console.moved (console.x - 1) console.y

/-- The columns and rows of the pixels of the cursor's cell. -/
def pixels (console : Console) : List (Int × Int) :=
  (List.range 16).flatMap fun i : Nat => (List.range 8).map fun o : Nat =>
    (console.x * 8 + console.borderX + o, console.y * 16 + console.borderY + i)

/-- The pixels that a character paints. -/
def painted (c : UInt8) (console : Console) : List (Int × Int) :=
  if c = '\x08'.toUInt8 then console.pixels ++ console.stepBack.pixels else console.pixels

structure Inside (console : Console) : Prop where
  left : 0 ≤ console.x
  right : console.x < console.width
  top : 0 ≤ console.y
  bottom : console.y < console.height

/-- The grid is in the framebuffer. -/
structure Fits (console : Console) : Prop where
  columns : 0 < console.width
  rows : 0 < console.height
  left : 0 ≤ console.borderX
  top : 0 ≤ console.borderY
  across : console.width * 8 + console.borderX ≤ console.fb.width
  down : console.height * 16 + console.borderY ≤ console.fb.height

end Console

namespace Framebuffer

/-- At least two cells wide and one high, with rows without a gap; the fields are `long`. -/
structure Usable (fb : Framebuffer) : Prop where
  wide : 16 ≤ fb.width
  high : 16 ≤ fb.height
  gapless : fb.pitch = 4 * fb.width
  long_height : fb.height < 2 ^ 31
  long_pitch : fb.pitch < 2 ^ 31

def Contains (fb : Framebuffer) (pixel : Int × Int) : Prop :=
  (0 ≤ pixel.1 ∧ pixel.1 < fb.width) ∧ 0 ≤ pixel.2 ∧ pixel.2 < fb.height

def bytesOf (fb : Framebuffer) (pixel : Int × Int) : List Nat :=
  (fb.pixel (pixel.2 * fb.width + pixel.1) 0).map Prod.fst

end Framebuffer

/-- The cursor stays in the grid, and the pixels in the framebuffer. -/
def StaysInside (font : Nat → UInt8) : List UInt8 → Screen → Prop
  | [], screen => screen.console.Inside
  | c :: rest, screen =>
      screen.console.Inside ∧ (∀ pixel ∈ screen.console.painted c, screen.console.fb.Contains pixel) ∧
      StaysInside font rest (consolePutchar font c screen)

/-- No backspace is executed at the origin. -/
def ErasesInside (font : Nat → UInt8) : List UInt8 → Screen → Prop
  | [], _ => True
  | c :: rest, screen =>
      (c = '\x08'.toUInt8 → ¬ (screen.console.x = 0 ∧ screen.console.y = 0)) ∧
      ErasesInside font rest (consolePutchar font c screen)

variable {font : Nat → UInt8} {c : UInt8} {screen : Screen} {console : Console} {fb : Framebuffer} {chars : List UInt8}
  {x y : Int} {place : Nat} {memory : Bytes}

theorem consolePutchar_print (font : Nat → UInt8) (c : UInt8) (screen : Screen) :
    consolePutchar font c screen = (screen.print font c).wrap := rfl

/-! What is painted is all that is written -/

theorem cellWrites_pixels (color : Nat → Nat → UInt32) :
    (console.cellWrites 0 color).map Prod.fst = console.pixels.flatMap console.fb.bytesOf := by
  have same : ∀ i o : Nat, (console.fb.pixel (console.cursorIndex i o) (color i o)).map Prod.fst =
      console.fb.bytesOf (console.x * 8 + console.borderX + o, console.y * 16 + console.borderY + i) := by
    intro i o
    have index : console.cursorIndex i o =
        (console.y * 16 + console.borderY + i) * console.fb.width + (console.x * 8 + console.borderX + o) := by
      rw [Console.cursorIndex]
      ring
    rw [index, Framebuffer.bytesOf]
    exact pixel_places console.fb _ (color i o) 0
  simp only [Console.cellWrites, Console.pixels, List.map_flatMap, List.flatMap_assoc, List.flatMap_map, same, Nat.sub_zero,
    List.range_eq_range']

theorem cell_memory {color : Nat → Nat → UInt32} (outside : ∀ pixel ∈ console.pixels, place ∉ console.fb.bytesOf pixel) :
    stores memory (console.cellWrites 0 color) place = memory place := by
  refine stores_of_not_mem fun written => ?_
  rw [cellWrites_pixels] at written
  obtain ⟨pixel, here, byte⟩ := List.mem_flatMap.mp written
  exact outside pixel here byte

theorem stepBack_fb (console : Console) : console.stepBack.fb = console.fb := by
  unfold Console.stepBack
  split <;> rfl

theorem drawn_console (screen : Screen) : (consoleDrawCursor true screen).console = screen.console := by
  rw [drawCursor_true]

theorem move_back (screen : Screen) :
    (if screen.console.x = 0 then screen.move (screen.console.width - 1) (screen.console.y - 1)
      else screen.move (screen.console.x - 1) screen.console.y) = { screen with console := screen.console.stepBack } := by
  unfold Console.stepBack
  split <;> rfl

theorem print_memory (outside : ∀ pixel ∈ screen.console.painted c, place ∉ screen.console.fb.bytesOf pixel) :
    (screen.print font c).memory place = screen.memory place := by
  unfold Console.painted at outside
  unfold Screen.print
  by_cases erase : c = '\x08'.toUInt8
  · have newline : ¬ c = '\n'.toUInt8 := by
      rw [erase]
      decide
    rw [if_pos erase] at outside
    obtain ⟨before, after⟩ := List.forall_mem_append.mp outside
    rw [if_neg newline, if_pos erase]
    have first : (consoleDrawCursor true screen).memory place = screen.memory place := by
      simp only [drawCursor_true, cell_memory before]
    have console := drawn_console screen
    generalize consoleDrawCursor true screen = drawn at first console
    rw [← console] at after
    rw [← stepBack_fb] at after
    simp only [move_back, drawCursor_true, cell_memory after, first]
  · rw [if_neg erase] at outside
    rw [if_neg erase]
    split
    · simp only [drawCursor_true, Screen.move, cell_memory outside]
    · simp only [fbDrawChar_cell, Screen.move, cell_memory outside]

/-! Bounds -/

theorem Console.Fits.moved (fits : console.Fits) (x y : Int) : (console.moved x y).Fits :=
  ⟨fits.columns, fits.rows, fits.left, fits.top, fits.across, fits.down⟩

theorem Console.Fits.pixels (fits : console.Fits) (inside : console.Inside) :
    ∀ pixel ∈ console.pixels, console.fb.Contains pixel := by
  intro pixel here
  obtain ⟨i, row, here⟩ := List.mem_flatMap.mp here
  obtain ⟨o, column, same⟩ := List.mem_map.mp here
  have row := List.mem_range.mp row
  have column := List.mem_range.mp column
  obtain ⟨columns, rows, left, top, across, down⟩ := fits
  obtain ⟨x, narrow, y, high⟩ := inside
  subst same
  refine ⟨⟨?_, ?_⟩, ?_, ?_⟩ <;> simp only <;> omega

/-- The border is half of what the rows leave of the height, so it is at most that much, and
the columns leave as much of the width. -/
theorem consoleInit_fits (usable : fb.Usable) (console : Console) : (consoleInit fb console).Fits := by
  obtain ⟨wide, high, gapless, long_height, long_pitch⟩ := usable
  have remainder : fb.height.tmod 16 = fb.height % 16 := Int.tmod_eq_emod_of_nonneg (by omega)
  have rows : fb.height.tdiv 16 = fb.height / 16 := Int.tdiv_eq_ediv_of_nonneg (by omega)
  have half : (fb.height % 16).tdiv 2 = fb.height % 16 / 2 := Int.tdiv_eq_ediv_of_nonneg (by omega)
  unfold consoleInit
  simp only [remainder, rows, half]
  refine ⟨?_, ?_, ?_, ?_, ?_, ?_⟩ <;> simp only <;> omega

/-- Where a character takes the cursor before the check of the column. -/
def Console.step (c : UInt8) (console : Console) : Console :=
  if c = '\n'.toUInt8 then console.moved console.width console.y
  else if c = '\x08'.toUInt8 then console.stepBack
  else console.moved (console.x + 1) console.y

theorem print_console (font : Nat → UInt8) (c : UInt8) (screen : Screen) :
    (screen.print font c).console = screen.console.step c := by
  unfold Screen.print Console.step
  split
  · rfl
  · split
    · rw [drawn_console, move_back, drawn_console]
    · rfl

/-- The check of the column and of the row brings the cursor back into the grid. -/
theorem wrap_inside (columns : 0 < screen.console.width) (left : 0 ≤ screen.console.x) (top : 0 ≤ screen.console.y)
    (bottom : screen.console.y < screen.console.height) :
    ∃ x y, screen.wrap.console = screen.console.moved x y ∧ (screen.console.moved x y).Inside := by
  by_cases full : screen.console.x ≥ screen.console.width
  · by_cases low : screen.console.y + 1 ≥ screen.console.height
    · have scrolled : screen.wrap = consoleScroll (screen.move 0 (screen.console.y + 1)) := by
        rw [Screen.wrap, if_pos full]
        exact if_pos low
      refine ⟨0, screen.console.y + 1 - 1, ?_, ⟨Int.le_refl 0, columns, ?_, ?_⟩⟩
      · rw [scrolled]
        rfl
      · change 0 ≤ screen.console.y + 1 - 1
        omega
      · change screen.console.y + 1 - 1 < screen.console.height
        omega
    · have next : screen.wrap = screen.move 0 (screen.console.y + 1) := by
        rw [Screen.wrap, if_pos full]
        exact if_neg low
      refine ⟨0, screen.console.y + 1, ?_, ⟨Int.le_refl 0, columns, ?_, ?_⟩⟩
      · rw [next]
        rfl
      · change 0 ≤ screen.console.y + 1
        omega
      · exact Int.lt_of_not_ge low
  · refine ⟨screen.console.x, screen.console.y, ?_, ⟨left, Int.lt_of_not_ge full, top, bottom⟩⟩
    rw [Screen.wrap, if_neg full]
    rfl

theorem stepBack_inside (inside : console.Inside) (stays : ¬ (console.x = 0 ∧ console.y = 0)) : console.stepBack.Inside := by
  obtain ⟨left, right, top, bottom⟩ := inside
  unfold Console.stepBack
  split
  · next first =>
      have row : console.y ≠ 0 := fun zero => stays ⟨first, zero⟩
      refine ⟨?_, ?_, ?_, ?_⟩ <;> simp only [Console.moved] <;> omega
  · refine ⟨?_, ?_, ?_, ?_⟩ <;> simp only [Console.moved] <;> omega

theorem stepBack_moved (console : Console) : ∃ x y, console.stepBack = console.moved x y := by
  unfold Console.stepBack
  split
  · exact ⟨_, _, rfl⟩
  · exact ⟨_, _, rfl⟩

theorem painted_contained (fits : console.Fits) (inside : console.Inside)
    (stays : c = '\x08'.toUInt8 → ¬ (console.x = 0 ∧ console.y = 0)) :
    ∀ pixel ∈ console.painted c, console.fb.Contains pixel := by
  unfold Console.painted
  split
  · next erase =>
      have back := stepBack_inside inside (stays erase)
      obtain ⟨x, y, same⟩ := stepBack_moved console
      rw [same] at back ⊢
      exact List.forall_mem_append.mpr ⟨fits.pixels inside, (fits.moved x y).pixels back⟩
  · exact fits.pixels inside

/-- Inside the grid a character changes no bytes but those of pixels in the framebuffer. -/
theorem print_outside (fits : screen.console.Fits) (inside : screen.console.Inside)
    (stays : c = '\x08'.toUInt8 → ¬ (screen.console.x = 0 ∧ screen.console.y = 0))
    (outside : ∀ pixel, screen.console.fb.Contains pixel → place ∉ screen.console.fb.bytesOf pixel) :
    (screen.print font c).memory place = screen.memory place :=
  print_memory fun pixel here => outside pixel (painted_contained fits inside stays pixel here)

theorem step_moved (inside : console.Inside) (stays : c = '\x08'.toUInt8 → ¬ (console.x = 0 ∧ console.y = 0)) :
    ∃ x y, console.step c = console.moved x y ∧ 0 ≤ x ∧ 0 ≤ y ∧ y < console.height := by
  have columns := Int.lt_of_le_of_lt inside.left inside.right
  unfold Console.step
  split
  · exact ⟨_, _, rfl, Int.le_of_lt columns, inside.top, inside.bottom⟩
  · split
    · next erase =>
        have back := stepBack_inside inside (stays erase)
        obtain ⟨x, y, same⟩ := stepBack_moved console
        rw [same] at back ⊢
        exact ⟨x, y, rfl, back.left, back.top, back.bottom⟩
    · exact ⟨_, _, rfl, Int.le_add_one inside.left, inside.top, inside.bottom⟩

theorem putchar_inside (fits : screen.console.Fits) (inside : screen.console.Inside)
    (stays : c = '\x08'.toUInt8 → ¬ (screen.console.x = 0 ∧ screen.console.y = 0)) :
    (consolePutchar font c screen).console.Fits ∧ (consolePutchar font c screen).console.Inside := by
  obtain ⟨x, y, same, left, top, bottom⟩ := step_moved inside stays
  have printed := (print_console font c screen).trans same
  rw [consolePutchar_print]
  generalize screen.print font c = next at printed
  have wrapped := @wrap_inside next
  rw [printed] at wrapped
  obtain ⟨x, y, console, after⟩ := wrapped fits.columns left top bottom
  rw [console]
  exact ⟨(fits.moved _ _).moved x y, after⟩

/-- At the origin it takes the cursor to the row above the first one. -/
theorem putchar_origin (origin : screen.console.x = 0 ∧ screen.console.y = 0) :
    ¬ (consolePutchar font '\x08'.toUInt8 screen).console.Inside := by
  have printed : (screen.print font '\x08'.toUInt8).console =
      screen.console.moved (screen.console.width - 1) (screen.console.y - 1) := by
    rw [print_console, Console.step, if_neg (by decide), if_pos rfl, Console.stepBack, if_pos origin.1]
  rw [consolePutchar_print]
  generalize screen.print font '\x08'.toUInt8 = next at printed
  have narrow : ¬ next.console.x ≥ next.console.width := by
    rw [printed]
    change ¬ screen.console.width - 1 ≥ screen.console.width
    omega
  rw [Screen.wrap, if_neg narrow, printed]
  intro after
  have row : 0 ≤ screen.console.y - 1 := after.top
  have first := origin.2
  omega

theorem StaysInside.inside (stays : StaysInside font chars screen) : screen.console.Inside := by
  cases chars with
  | nil => exact stays
  | cons c chars => exact stays.1

theorem staysInside_iff (fits : screen.console.Fits) (inside : screen.console.Inside) :
    StaysInside font chars screen ↔ ErasesInside font chars screen := by
  induction chars generalizing screen with
  | nil => exact iff_of_true inside trivial
  | cons c chars ih =>
      rw [StaysInside, ErasesInside, and_iff_right inside]
      by_cases stays : c = '\x08'.toUInt8 → ¬ (screen.console.x = 0 ∧ screen.console.y = 0)
      · obtain ⟨fits_after, inside_after⟩ := @putchar_inside font c screen fits inside stays
        rw [and_iff_right (painted_contained fits inside stays), and_iff_right stays, ih fits_after inside_after]
      · refine iff_of_false (fun within => stays fun erase origin => ?_) (fun within => stays within.1)
        have after := within.2.inside
        rw [erase] at after
        exact putchar_origin origin after

/-- From `console_init` on, the cursor and the pixels stay inside exactly in the runs without
a backspace at the origin. -/
theorem console_stays_iff (usable : fb.Usable) (x : console.x = 0) (y : console.y = 0) :
    StaysInside font chars ⟨consoleInit fb console, memory⟩ ↔ ErasesInside font chars ⟨consoleInit fb console, memory⟩ := by
  have fits := consoleInit_fits usable console
  have inside : (consoleInit fb console).Inside := by
    refine ⟨Int.le_of_eq x.symm, ?_, Int.le_of_eq y.symm, ?_⟩
    · change console.x < _
      rw [x]
      exact fits.columns
    · change console.y < _
      rw [y]
      exact fits.rows
  exact staysInside_iff fits inside

theorem greyScreen_usable : Framebuffer.Usable ⟨0xFD000000, 640, 400, 2560⟩ :=
  ⟨by decide, by decide, by decide, by decide, by decide⟩

theorem console_stays_erasing : StaysInside (fun _ => 0x3C) [0x41, 0x08] greyScreen :=
  (console_stays_iff greyScreen_usable rfl rfl).mpr ⟨by decide, by decide, trivial⟩

/-- A backspace as the first character takes the cursor above the first row. -/
theorem backspace_leaves_grid : ¬ StaysInside (fun _ => 0x3C) [0x08] greyScreen := by
  intro stays
  exact putchar_origin ⟨rfl, rfl⟩ stays.2.2

end BarrelOS.Display
