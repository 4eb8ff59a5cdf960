import BarrelOS.Data.Words
import BarrelOS.Display.ConsoleBounds
import BarrelOS.Display.Stride

namespace BarrelOS.Display

open BarrelOS.Data BarrelOS.Semantics BarrelOS.Lib

/-- Paper of which the screen shows some rows: the first of them, the row and the column being written, the
colours, and the pixels of each cell. -/
structure Sheet where
  top : Nat
  row : Nat
  col : Nat
  ink : UInt32
  paper : UInt32
  cell : Nat → Nat → Nat → Nat → UInt32

namespace Sheet

/-- The cell being written gets new pixels from one of its rows on. -/
def paint (first : Nat) (color : Nat → Nat → UInt32) (sheet : Sheet) : Sheet :=
  { sheet with
    cell := fun row col i o => if (row = sheet.row ∧ col = sheet.col) ∧ first ≤ i then color i o else sheet.cell row col i o }

def erase (sheet : Sheet) : Sheet := sheet.paint 0 fun _ _ => sheet.paper

def underline (sheet : Sheet) : Sheet := sheet.paint 13 fun _ _ => sheet.ink

def nextRow (height : Nat) (sheet : Sheet) : Sheet :=
  { sheet with row := sheet.row + 1, col := 0, top := max sheet.top (sheet.row + 2 - height) }

def stepBack (width : Nat) (sheet : Sheet) : Sheet :=
  if sheet.col = 0 then { sheet with row := sheet.row - 1, col := width - 1 } else { sheet with col := sheet.col - 1 }

/-- A newline ends the row, a backspace erases the cell before, and what fills the last cell of a row ends it too. -/
def type (font : Nat → UInt8) (width height : Nat) (c : UInt8) (sheet : Sheet) : Sheet :=
  if c = '\n'.toUInt8 then sheet.erase.nextRow height
  else if c = '\x08'.toUInt8 then (sheet.erase.stepBack width).erase
  else
    let drawn := sheet.paint 0 (glyphColor font c sheet.ink sheet.paper)
    if sheet.col + 1 = width then drawn.nextRow height else { drawn with col := sheet.col + 1 }

def select (code : Int) (sheet : Sheet) : Sheet :=
  if code = 0 then { sheet with ink := ansiToRgb 37, paper := ansiToRgb 40 }
  else if (code ≥ 30 ∧ code ≤ 37) ∨ (code ≥ 90 ∧ code ≤ 97) then { sheet with ink := ansiToRgb code }
  else if (code ≥ 40 ∧ code ≤ 47) ∨ (code ≥ 100 ∧ code ≤ 107) then { sheet with paper := ansiToRgb code }
  else sheet

def take (font : Nat → UInt8) (width height : Nat) (sheet : Sheet) : Token → Sheet
  | .byte c => sheet.type font width height c
  | .sequence params => sheet.select (codeOf params)

def write (font : Nat → UInt8) (width height : Nat) (sheet : Sheet) (tokens : List Token) : Sheet :=
  (tokens.foldl (take font width height) sheet).underline

/-- No backspace comes at the first cell of the screen. -/
def Erasable (font : Nat → UInt8) (width height : Nat) : List Token → Sheet → Prop
  | [], _ => True
  | token :: rest, sheet =>
      (token = .byte '\x08'.toUInt8 → ¬ (sheet.row = sheet.top ∧ sheet.col = 0)) ∧
        Erasable font width height rest (sheet.take font width height token)

def AllErasable (font : Nat → UInt8) (width height : Nat) : List (List Token) → Sheet → Prop
  | [], _ => True
  | tokens :: rest, sheet =>
      Erasable font width height tokens sheet ∧ AllErasable font width height rest (sheet.write font width height tokens)

end Sheet

/-- One write after another. -/
def writeAll (font : Nat → UInt8) (fuel : Nat) : List (Text × Nat) → Screen → Outcome Screen Unit
  | [], screen => .done () screen
  | (text, str) :: rest, screen => (consoleWrite font text fuel str screen).bind fun _ screen => writeAll font fuel rest screen

namespace Framebuffer

/-- Cells fill the framebuffer from its first to its last row, and its rows lie without a gap in memory. -/
structure Grid (fb : Framebuffer) (width height : Nat) : Prop where
  columns : 0 < width
  rows : 2 ≤ height
  across : fb.width / 8 = width
  down : 16 * (height : Int) = fb.height
  gapless : fb.pitch = 4 * fb.width
  inside : fb.addr + fb.height * fb.pitch ≤ 2 ^ 32

/-- The byte of a pixel of a cell. -/
def place (fb : Framebuffer) (line column i o byte : Nat) : Nat :=
  fb.address (((line : Int) * 16 + i) * fb.pitch + (4 * ((column : Int) * 8 + o) + byte))

/-- The pixels of a cell as they are in memory. -/
def colors (fb : Framebuffer) (memory : Bytes) (line column i o : Nat) : UInt32 :=
  UInt32.ofNat (memory.load32 (fb.place line column i o 0))

end Framebuffer

/-- The sheet on a screen that nothing was written to, with whatever was in memory. -/
def Sheet.start (fb : Framebuffer) (height : Nat) (memory : Bytes) : Sheet :=
  ⟨0, 0, 0, ansiToRgb 37, ansiToRgb 40, fun row column i o => if row < height then fb.colors memory row column i o else 0⟩

/-- The rows from the first on the screen are in the framebuffer, and none is written below it. -/
structure Sheet.Shown (fb : Framebuffer) (width height : Nat) (sheet : Sheet) (screen : Screen) : Prop where
  framebuffer : screen.console.fb = fb
  columns : screen.console.width = width
  rows : screen.console.height = height
  unbordered : screen.console.borderX = 0 ∧ screen.console.borderY = 0
  x : screen.console.x = sheet.col
  y : screen.console.y + sheet.top = sheet.row
  ink : ansiToRgb screen.console.foreground = sheet.ink
  paper : ansiToRgb screen.console.background = sheet.paper
  above : sheet.top ≤ sheet.row
  below : sheet.row < sheet.top + height
  cells : ∀ line < height, ∀ column < width,
    fb.Displays screen.memory ((column : Int) * 8) ((line : Int) * 16) (sheet.cell (sheet.top + line) column)
  unwritten : ∀ row ≥ sheet.top + height, ∀ column < width, ∀ i < 16, ∀ o < 8, sheet.cell row column i o = 0

variable {fb : Framebuffer} {width height : Nat} {sheet : Sheet} {screen : Screen} {font : Nat → UInt8} {memory : Bytes}
  {color : Nat → Nat → UInt32} {first : Nat} {c : UInt8}

/-! Where the pixels of the cells are -/

theorem Framebuffer.Grid.place (grid : fb.Grid width height) {line column i o byte : Nat} (high : line < height)
    (narrow : column < width) (row : i < 16) (pixel : o < 8) (fewer : byte < 4) :
    (fb.place line column i o byte : Int) = fb.addr + (((line : Int) * 16 + i) * fb.pitch + (4 * ((column : Int) * 8 + o) + byte)) := by
  obtain ⟨_, _, across, down, gapless, inside⟩ := grid
  exact row_address inside (by omega) (by omega) (by omega) (by omega)

theorem Framebuffer.Grid.place_unique (grid : fb.Grid width height) {line column i o byte line' column' i' o' byte' : Nat}
    (high : line < height) (narrow : column < width) (row : i < 16) (pixel : o < 8) (fewer : byte < 4)
    (high' : line' < height) (narrow' : column' < width) (row' : i' < 16) (pixel' : o' < 8) (fewer' : byte' < 4)
    (same : fb.place line column i o byte = fb.place line' column' i' o' byte') :
    line = line' ∧ column = column' ∧ i = i' ∧ o = o' ∧ byte = byte' := by
  have left := grid.place high narrow row pixel fewer
  have right := grid.place high' narrow' row' pixel' fewer'
  obtain ⟨_, _, across, _, gapless, _⟩ := grid
  have both : ((line : Int) * 16 + i) * fb.pitch + (4 * ((column : Int) * 8 + o) + byte) =
      ((line' : Int) * 16 + i') * fb.pitch + (4 * ((column' : Int) * 8 + o') + byte') := by omega
  obtain ⟨rows, places⟩ := row_unique (by omega) (by omega) (by omega) (by omega) both
  omega

theorem displays_iff {line column : Nat} : fb.Displays memory ((column : Int) * 8) ((line : Int) * 16) color ↔
    ∀ i < 16, ∀ o < 8, ∀ byte < 4, memory (fb.place line column i o byte) = (color i o >>> (8 * UInt32.ofNat byte)).toUInt8 := by
  simp only [Framebuffer.Displays, Framebuffer.pitched, List.forall_mem_map, List.mem_range, Framebuffer.place]

namespace Sheet.Shown

variable (shown : sheet.Shown fb width height screen) (grid : fb.Grid width height)
include shown grid

theorem mem_cellWrites {write : Nat × UInt8} : write ∈ screen.console.cellWrites first color ↔
    ∃ i, (first ≤ i ∧ i < 16) ∧ ∃ o < 8, ∃ byte < 4,
      write = (fb.place (sheet.row - sheet.top) sheet.col i o byte, (color i o >>> (8 * UInt32.ofNat byte)).toUInt8) := by
  have line : ((sheet.row - sheet.top : Nat) : Int) = screen.console.y := by
    have y := shown.y
    have above := shown.above
    omega
  have index : ∀ i o : Nat, screen.console.fb.pixel (screen.console.cursorIndex i o) (color i o) =
      fb.pitched ((sheet.col : Int) * 8 + o) (((sheet.row - sheet.top : Nat) : Int) * 16 + i) (color i o) := by
    intro i o
    rw [Console.cursorIndex, shown.framebuffer, shown.unbordered.1, shown.unbordered.2, Int.add_zero, Int.add_zero, shown.x, line]
    exact pixel_pitched grid.gapless ..
  have rows : ∀ i, i ∈ List.range' first (16 - first) ↔ first ≤ i ∧ i < 16 := by
    intro i
    rw [List.mem_range'_1]
    omega
  simp only [Console.cellWrites, index, Framebuffer.pitched, List.mem_flatMap, List.mem_map, List.mem_range, rows, Framebuffer.place,
    eq_comm]

theorem painted (room : sheet.col < width) {line column : Nat} (high : line < height) (narrow : column < width) :
    fb.Displays (stores screen.memory (screen.console.cellWrites first color)) ((column : Int) * 8) ((line : Int) * 16)
      ((sheet.paint first color).cell (sheet.top + line) column) := by
  have writes (write : Nat × UInt8) : write ∈ screen.console.cellWrites first color ↔ _ := shown.mem_cellWrites grid
  have old := displays_iff.mp (shown.cells line high column narrow)
  refine displays_iff.mpr fun i row o pixel byte fewer => ?_
  have above := shown.above
  have below := shown.below
  simp only [Sheet.paint]
  split
  · next here =>
      obtain ⟨⟨sameRow, sameColumn⟩, drawn⟩ := here
      have sameLine : line = sheet.row - sheet.top := by omega
      subst sameLine sameColumn
      refine stores_of_forall (List.mem_map.mpr ⟨_, (writes _).mpr ⟨i, ⟨drawn, row⟩, o, pixel, byte, fewer, rfl⟩, rfl⟩) ?_
      intro write member same
      obtain ⟨i', ⟨_, row'⟩, o', pixel', byte', fewer', rfl⟩ := (writes write).mp member
      obtain ⟨_, _, rfl, rfl, rfl⟩ := grid.place_unique high narrow row' pixel' fewer' high narrow row pixel fewer same
      rfl
  · next elsewhere =>
      rw [stores_of_not_mem, old i row o pixel byte fewer]
      intro covered
      obtain ⟨write, member, same⟩ := List.mem_map.mp covered
      obtain ⟨i', ⟨drawn, row'⟩, o', pixel', byte', fewer', rfl⟩ := (writes write).mp member
      obtain ⟨sameLine, sameColumn, sameRow, _⟩ :=
        grid.place_unique (by omega) room row' pixel' fewer' high narrow row pixel fewer same
      exact elsewhere ⟨⟨by omega, sameColumn.symm⟩, sameRow ▸ drawn⟩

theorem paint (room : sheet.col < width) (first : Nat) (color : Nat → Nat → UInt32) :
    (sheet.paint first color).Shown fb width height
      { screen with memory := stores screen.memory (screen.console.cellWrites first color) } where
  framebuffer := shown.framebuffer
  columns := shown.columns
  rows := shown.rows
  unbordered := shown.unbordered
  x := shown.x
  y := shown.y
  ink := shown.ink
  paper := shown.paper
  above := shown.above
  below := shown.below
  cells := fun _ high _ narrow => shown.painted grid room high narrow
  unwritten := by
    intro row low column narrow i inside o pixel
    have low : sheet.top + height ≤ row := low
    have below := shown.below
    change (if _ then _ else _) = _
    rw [if_neg fun here => by omega]
    exact shown.unwritten row low column narrow i inside o pixel

theorem erase (room : sheet.col < width) : sheet.erase.Shown fb width height (consoleDrawCursor true screen) := by
  have painted := shown.paint grid room 0 fun _ _ => sheet.paper
  rw [← shown.paper] at painted
  rw [drawCursor_true]
  rwa [Sheet.erase, ← shown.paper]

theorem underline (room : sheet.col < width) : sheet.underline.Shown fb width height (consoleDrawCursor false screen) := by
  have painted := shown.paint grid room 13 fun _ _ => sheet.ink
  rw [← shown.ink] at painted
  rw [drawCursor_false]
  rwa [Sheet.underline, ← shown.ink]

omit grid

theorem move {row col : Nat} {x y : Int} (above : sheet.top ≤ row) (below : row < sheet.top + height) (column : x = col)
    (line : y + sheet.top = row) : { sheet with row, col }.Shown fb width height (screen.move x y) :=
  { shown with x := column, y := line, above, below }

theorem select (code : Int) :
    (sheet.select code).Shown fb width height { screen with console := screen.console.select code } := by
  unfold Sheet.select Console.select
  split
  · exact { shown with ink := rfl, paper := rfl }
  · split
    · exact { shown with ink := rfl }
    · split
      · exact { shown with paper := rfl }
      · exact shown

include grid

/-- A scroll puts the next row of the sheet on every line. -/
theorem scrolled {x y : Int} {line column : Nat} (high : line < height) (narrow : column < width) :
    fb.Displays (consoleScroll (screen.move x y)).memory ((column : Int) * 8) ((line : Int) * 16)
      (sheet.cell (sheet.top + 1 + line) column) := by
  refine displays_iff.mpr fun i inside o pixel byte fewer => ?_
  obtain ⟨_, _, across, down, gapless, fits⟩ := grid
  have same : (screen.move x y).console.fb = fb := shown.framebuffer
  have moved := @scroll_row (screen.move x y) ((line : Int) * 16 + i) (4 * ((column : Int) * 8 + o) + byte)
    (by rw [same]; omega) (by rw [same]; exact fits) shown.unbordered.2 (by omega) (by rw [same]; omega) (by omega) (by rw [same]; omega)
  rw [same] at moved
  refine moved.trans ?_
  split
  · next upper =>
      have old := displays_iff.mp (shown.cells (line + 1) (by omega) column narrow) i inside o pixel byte fewer
      have sameRow : sheet.top + 1 + line = sheet.top + (line + 1) := by omega
      have source : ((line : Int) * 16 + i + 16) = (((line + 1 : Nat) : Int) * 16 + i) := by omega
      rw [sameRow, source]
      exact old
  · next lower =>
      have bottom : sheet.top + height ≤ sheet.top + 1 + line := by omega
      rw [shown.unwritten _ bottom column narrow i inside o pixel, UInt32.zero_shiftRight]
      rfl

/-- After the last column comes the next row, for which the screen moves on by one if it was the last. -/
theorem wrap_full (full : screen.console.x = width) : (sheet.nextRow height).Shown fb width height screen.wrap := by
  have y := shown.y
  have above := shown.above
  have below := shown.below
  have tall := grid.rows
  have wide : screen.console.x ≥ screen.console.width := by rw [shown.columns, full]
  rw [Screen.wrap, if_pos wide]
  by_cases last : sheet.row + 1 = sheet.top + height
  · have low : (screen.move 0 (screen.console.y + 1)).console.y ≥ (screen.move 0 (screen.console.y + 1)).console.height := by
      change screen.console.y + 1 ≥ screen.console.height
      rw [shown.rows]
      omega
    have next : sheet.nextRow height = { sheet with row := sheet.row + 1, col := 0, top := sheet.top + 1 } := by
      have first : max sheet.top (sheet.row + 2 - height) = sheet.top + 1 := by omega
      rw [Sheet.nextRow, first]
    rw [if_pos low, next]
    refine ⟨shown.framebuffer, shown.columns, shown.rows, shown.unbordered, rfl, ?_, shown.ink, shown.paper, ?_, ?_, ?_, ?_⟩
    · change screen.console.y + 1 - 1 + ((sheet.top + 1 : Nat) : Int) = ((sheet.row + 1 : Nat) : Int)
      omega
    · exact Nat.succ_le_succ above
    · change sheet.row + 1 < sheet.top + 1 + height
      omega
    · exact fun line high column narrow => shown.scrolled grid high narrow
    · intro row low
      exact shown.unwritten row (Nat.le_trans (by change _ ≤ sheet.top + 1 + height; omega) low)
  · have high : ¬ (screen.move 0 (screen.console.y + 1)).console.y ≥ (screen.move 0 (screen.console.y + 1)).console.height := by
      change ¬ screen.console.y + 1 ≥ screen.console.height
      rw [shown.rows]
      omega
    have next : sheet.nextRow height = { sheet with row := sheet.row + 1, col := 0 } := by
      have first : max sheet.top (sheet.row + 2 - height) = sheet.top := by omega
      rw [Sheet.nextRow, first]
    rw [if_neg high, next]
    exact shown.move (by omega) (by omega) rfl (by omega)

omit grid in
theorem wrap_inside (room : sheet.col < width) : sheet.Shown fb width height screen.wrap := by
  have narrow : ¬ screen.console.x ≥ screen.console.width := by
    rw [shown.columns, shown.x]
    omega
  rwa [Screen.wrap, if_neg narrow]

omit grid in
theorem stepBack (room : sheet.col < width) (stays : ¬ (sheet.row = sheet.top ∧ sheet.col = 0)) :
    (sheet.stepBack width).Shown fb width height { screen with console := screen.console.stepBack } ∧
      (sheet.stepBack width).col < width := by
  have x := shown.x
  have y := shown.y
  have above := shown.above
  have below := shown.below
  unfold Sheet.stepBack Console.stepBack
  by_cases first : sheet.col = 0
  · rw [if_pos first, if_pos (by omega), shown.columns]
    exact ⟨shown.move (by omega) (by omega) (by omega) (by omega), by change width - 1 < width; omega⟩
  · rw [if_neg first, if_neg (by omega)]
    exact ⟨shown.move above below (by omega) y, by change sheet.col - 1 < width; omega⟩

theorem newline (room : sheet.col < width) :
    (sheet.erase.nextRow height).Shown fb width height
      (Screen.wrap ((consoleDrawCursor true screen).move screen.console.width screen.console.y)) := by
  have erased := shown.erase grid room
  have ended : { sheet.erase with col := width }.Shown fb width height
      ((consoleDrawCursor true screen).move screen.console.width screen.console.y) :=
    erased.move erased.above erased.below erased.columns erased.y
  exact ended.wrap_full grid erased.columns

theorem backspace (room : sheet.col < width) (stays : ¬ (sheet.row = sheet.top ∧ sheet.col = 0)) :
    (sheet.stepBack width).erase.Shown fb width height (Screen.wrap (consoleDrawCursor true
        (if screen.console.x = 0 then screen.move (screen.console.width - 1) (screen.console.y - 1)
          else screen.move (screen.console.x - 1) screen.console.y))) ∧ (sheet.stepBack width).erase.col < width := by
  obtain ⟨back, room⟩ := shown.stepBack room stays
  rw [move_back]
  generalize { screen with console := screen.console.stepBack } = stepped at back ⊢
  exact ⟨(back.erase grid room).wrap_inside room, room⟩

theorem draw (room : sheet.col < width) :
    { sheet.paint 0 (glyphColor font c sheet.ink sheet.paper) with col := sheet.col + 1 }.Shown fb width height
      ({ screen with
        memory := fbDrawChar font screen.console.fb (screen.console.x * 8 + screen.console.borderX)
          (screen.console.y * 16 + screen.console.borderY) c (ansiToRgb screen.console.foreground)
          (ansiToRgb screen.console.background) screen.memory }.move (screen.console.x + 1) screen.console.y) := by
  have drawn := shown.paint grid room 0 (glyphColor font c sheet.ink sheet.paper)
  rw [fbDrawChar_cell, shown.ink, shown.paper]
  refine drawn.move shown.above shown.below ?_ shown.y
  rw [shown.x]
  rfl

theorem type (room : sheet.col < width) (stays : c = '\x08'.toUInt8 → ¬ (sheet.row = sheet.top ∧ sheet.col = 0)) :
    (sheet.type font width height c).Shown fb width height (consolePutchar font c screen) ∧
      (sheet.type font width height c).col < width := by
  rw [consolePutchar_print, Screen.print, Sheet.type]
  by_cases newline : c = '\n'.toUInt8
  · rw [if_pos newline, if_pos newline]
    exact ⟨shown.newline grid room, grid.columns⟩
  · rw [if_neg newline, if_neg newline]
    by_cases erases : c = '\x08'.toUInt8
    · rw [if_pos erases, if_pos erases]
      exact (shown.erase grid room).backspace grid room (stays erases)
    · rw [if_neg erases, if_neg erases]
      have drawn := @draw fb width height sheet screen font c shown grid room
      by_cases full : sheet.col + 1 = width
      · simp only [if_pos full]
        refine ⟨drawn.wrap_full grid ?_, grid.columns⟩
        exact drawn.x.trans (congrArg _ full)
      · simp only [if_neg full]
        have room : sheet.col + 1 < width := by omega
        exact ⟨drawn.wrap_inside room, room⟩

theorem take {token : Token} (room : sheet.col < width)
    (stays : token = .byte '\x08'.toUInt8 → ¬ (sheet.row = sheet.top ∧ sheet.col = 0)) :
    (sheet.take font width height token).Shown fb width height (screen.feed font token) ∧
      (sheet.take font width height token).col < width := by
  cases token with
  | byte c => exact shown.type grid room fun same => stays (congrArg Token.byte same)
  | sequence params =>
      refine ⟨shown.select (codeOf params), ?_⟩
      change (sheet.select (codeOf params)).col < width
      unfold Sheet.select
      repeat' split
      all_goals exact room

theorem write {tokens : List Token} (room : sheet.col < width) (erasable : Erasable font width height tokens sheet) :
    (sheet.write font width height tokens).Shown fb width height (consoleDrawCursor false (tokens.foldl (Screen.feed font) screen)) ∧
      (sheet.write font width height tokens).col < width := by
  induction tokens generalizing sheet screen with
  | nil => exact ⟨shown.underline grid room, room⟩
  | cons token tokens ih =>
      obtain ⟨next, inside⟩ := @take fb width height sheet screen font shown grid token room erasable.1
      exact ih next inside erasable.2

end Sheet.Shown

theorem Framebuffer.Grid.shown_start (grid : fb.Grid width height) {console : Console} (first : console.x = 0 ∧ console.y = 0)
    (memory : Bytes) :
    (Sheet.start fb height memory).Shown fb width height ⟨consoleInit fb console, memory⟩ := by
  have placed := fun line column i o byte => @Framebuffer.Grid.place fb width height grid line column i o byte
  obtain ⟨columns, rows, across, down, gapless, inside⟩ := grid
  have remainder : fb.height.tmod 16 = 0 := by
    rw [Int.tmod_eq_emod_of_nonneg (by omega)]
    omega
  have border : (consoleInit fb console).borderX = 0 := by
    change (fb.height.tmod 16).tdiv 2 = 0
    rw [remainder, Int.zero_tdiv]
  have most : 32 * fb.pitch ≤ fb.height * fb.pitch := Int.mul_le_mul_of_nonneg_right (by omega) (by omega)
  refine ⟨rfl, ?_, ?_, ⟨border, border⟩, first.1, ?_, rfl, rfl, Nat.le_refl 0, ?_, ?_, ?_⟩
  · change (fb.width - (fb.height.tmod 16).tdiv 2) % 2 ^ 32 / 8 = width
    rw [remainder, Int.zero_tdiv, Int.sub_zero]
    omega
  · change fb.height.tdiv 16 = height
    rw [Int.tdiv_eq_ediv_of_nonneg (by omega)]
    omega
  · exact (Int.add_zero _).trans first.2
  · change 0 < 0 + height
    omega
  · intro line high column narrow
    refine displays_iff.mpr fun i row o pixel byte fewer => ?_
    have start := placed line column i o 0 high narrow row pixel (by decide)
    have here := placed line column i o byte high narrow row pixel fewer
    have cell : (Sheet.start fb height memory).cell (0 + line) column i o = fb.colors memory line column i o := by
      rw [Nat.zero_add]
      exact if_pos high
    have below : fb.place line column i o byte < 2 ^ 32 := by
      unfold Framebuffer.place Framebuffer.address
      omega
    have same : fb.place line column i o byte = (fb.place line column i o 0 + byte) % 2 ^ 32 := by omega
    change _ = ((Sheet.start fb height memory).cell (0 + line) column i o >>> _).toUInt8
    rw [cell, Framebuffer.colors, Bytes.load32_byte fewer, ← same]
  · intro row low column _ i _ o _
    have low : 0 + height ≤ row := low
    exact if_neg (by omega)

theorem writeAll_shows {strings : List (Text × Nat)} {writes : List (List Token)} (grid : fb.Grid width height)
    (texts : List.Forall₂ (fun string tokens => ∃ chars, Closed tokens chars ∧ string.1.Holds string.2 chars) strings writes)
    (shown : sheet.Shown fb width height screen) (room : sheet.col < width) (erasable : Sheet.AllErasable font width height writes sheet) :
    ∃ enough, ∀ fuel ≥ enough, ∃ after, writeAll font fuel strings screen = .done () after ∧
      (writes.foldl (Sheet.write font width height) sheet).Shown fb width height after := by
  induction texts generalizing sheet screen with
  | nil => exact ⟨0, fun _ _ => ⟨screen, rfl, shown⟩⟩
  | @cons string tokens strings writes text texts ih =>
      obtain ⟨chars, closed, holds⟩ := text
      obtain ⟨next, inside⟩ := shown.write grid room erasable.1
      obtain ⟨enough, later⟩ := ih next inside erasable.2
      refine ⟨max (chars.length + 1) enough, fun fuel more => ?_⟩
      obtain ⟨after, runs, shows⟩ := later fuel (Nat.le_trans (Nat.le_max_right ..) more)
      refine ⟨after, ?_, shows⟩
      rw [writeAll, consoleWrite_closed closed holds (Nat.le_trans (Nat.le_max_left ..) more), Outcome.done_bind]
      exact runs

/-- Whatever is written, in as many writes as one likes, the framebuffer shows the rows of the sheet that end with
the lowest one written, pixel by pixel. -/
theorem console_shows_sheet {strings : List (Text × Nat)} {writes : List (List Token)} (grid : fb.Grid width height) {console : Console}
    (first : console.x = 0 ∧ console.y = 0) (memory : Bytes)
    (texts : List.Forall₂ (fun string tokens => ∃ chars, Closed tokens chars ∧ string.1.Holds string.2 chars) strings writes)
    (erasable : Sheet.AllErasable font width height writes (.start fb height memory)) :
    ∃ enough, ∀ fuel ≥ enough, ∃ after, writeAll font fuel strings ⟨consoleInit fb console, memory⟩ = .done () after ∧
      (writes.foldl (Sheet.write font width height) (.start fb height memory)).Shown fb width height after :=
  writeAll_shows grid texts (grid.shown_start first memory) grid.columns erasable

/-- A letter is taken back, and another one comes in red. -/
def correctedText : List (Text × Nat) := [(.only 0 [0x41, 0x08], 0), (.only 0 [0x1B, 0x5B, 0x33, 0x31, 0x6D, 0x42], 0)]

def correctedTokens : List (List Token) := [[.byte 0x41, .byte 0x08], [.sequence [0x33, 0x31], .byte 0x42]]

theorem console_shows_sheet_corrected : ∃ enough, ∀ fuel ≥ enough, ∃ after,
    writeAll (fun _ => 0x3C) fuel correctedText
        ⟨consoleInit ⟨0xFD000000, 640, 480, 2560⟩ ⟨0, 0, 0, 0, 0, 0, 0, 0, ⟨0, 0, 0, 0⟩⟩, fun _ => 0xFF⟩ = .done () after ∧
      (correctedTokens.foldl (Sheet.write (fun _ => 0x3C) 80 30) (.start ⟨0xFD000000, 640, 480, 2560⟩ 30 fun _ => 0xFF)).Shown
        ⟨0xFD000000, 640, 480, 2560⟩ 80 30 after := by
  have closed1 : Closed [.byte 0x41, .byte 0x08] [0x41, 0x08] := .byte (by decide) (.byte (by decide) .nil)
  have closed2 : Closed [.sequence [0x33, 0x31], .byte 0x42] [0x1B, 0x5B, 0x33, 0x31, 0x6D, 0x42] :=
    .sequence (by decide) (by decide) (.byte (by decide) .nil)
  refine console_shows_sheet ⟨by decide, by decide, by decide, by decide, by decide, by decide⟩ ⟨rfl, rfl⟩ _ ?_ ?_
  · exact .cons ⟨_, closed1, Text.only_holds 0 (by decide)⟩ (.cons ⟨_, closed2, Text.only_holds 0 (by decide)⟩ .nil)
  · exact ⟨⟨fun same => absurd same (by decide), fun _ here => absurd here.2 (by decide), trivial⟩,
      ⟨fun same => absurd same (by decide), fun same => absurd same (by decide), trivial⟩, trivial⟩

end BarrelOS.Display
