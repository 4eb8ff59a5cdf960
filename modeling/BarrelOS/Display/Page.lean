import BarrelOS.Display.Vga

namespace BarrelOS.Display

open BarrelOS.Data BarrelOS.Semantics

/-- A page of unbounded height: the row being written, the column reached in it, and
the characters written so far. -/
structure Page where
  row : Nat
  col : Nat
  char : Nat → Nat → Option UInt8

namespace Page

def empty : Page := ⟨0, 0, fun _ _ => none⟩

def nextRow (page : Page) : Page := { page with row := page.row + 1, col := 0 }

def add (c : UInt8) (page : Page) : Page :=
  { page with
    char := fun row col => if row = page.row ∧ col = page.col then some c else page.char row col
    col := page.col + 1 }

/-- A newline ends the row, and so does the character that fills its last cell. -/
def type (width : Nat) (page : Page) (c : UInt8) : Page :=
  if c = '\n'.toUInt8 then page.nextRow
  else if page.col + 1 = width then (page.add c).nextRow
  else page.add c

def layout (width : Nat) (chars : List UInt8) : Page := chars.foldl (type width) empty

end Page

/-- A cell of the screen, blank or with a character, in the given colours. -/
def cellOf (color : UInt8) : Option UInt8 → UInt16
  | none => color.toUInt16 <<< 8
  | some c => color.toUInt16 <<< 8 ||| c.toUInt16

/-- The screen is the window of 25 rows of the page that ends with the row being written. -/
structure Shown (color : UInt8) (page : Page) (vga : Vga) : Prop where
  tint : vga.color = color
  x : vga.x.toNat = page.col
  y : vga.y.toNat = min page.row 24
  cells : ∀ j < 25, ∀ c < 80, vga.buffer (j * 80 + c) = cellOf color (page.char (j + (page.row - 24)) c)
  below : ∀ row > page.row, ∀ c, page.char row c = none

variable {color c : UInt8} {page : Page} {vga : Vga}

theorem toUInt16_of_ascii (ascii : c < 0x80) : c.toInt8.toInt16.toUInt16 = c.toUInt16 := by
  have positive : c.toBitVec.msb = false := by
    rw [BitVec.msb_eq_false_iff_two_mul_lt]
    have small : c.toNat < 0x80 := ascii
    change 2 * c.toNat < 2 ^ 8
    omega
  exact UInt16.toBitVec_inj.mp (BitVec.signExtend_eq_setWidth_of_msb_false positive)

namespace Shown

theorem newline (shown : Shown color page vga) : Shown color { page with col := 80 } vga.newline :=
  { shown with x := rfl }

theorem draw (shown : Shown color page vga) (room : page.col < 80) (ascii : c < 0x80) :
    Shown color (page.add c) (vga.draw c) where
  tint := shown.tint
  x := by
    change (vga.x + 1).toNat = page.col + 1
    rw [UInt8.toNat_add, shown.x]
    exact Nat.mod_eq_of_lt (Nat.lt_of_le_of_lt room (by decide))
  y := shown.y
  cells := by
    intro j inside col within
    have place : vga.place = min page.row 24 * 80 + page.col := by rw [Vga.place, shown.x, shown.y]
    change Function.update vga.buffer vga.place _ (j * 80 + col) = cellOf color
      (if j + (page.row - 24) = page.row ∧ col = page.col then some c else page.char (j + (page.row - 24)) col)
    rw [Function.update_apply, place, toUInt16_of_ascii ascii, Vga.blank, shown.tint]
    by_cases here : j + (page.row - 24) = page.row ∧ col = page.col
    · rw [if_pos here, if_pos (by omega)]
      rfl
    · rw [if_neg here, if_neg (by omega)]
      exact shown.cells j inside col within
  below := by
    intro row later col
    change (if _ then _ else _) = none
    rw [if_neg (fun here => Nat.ne_of_gt later here.1)]
    exact shown.below row later col

theorem wrap_inside (shown : Shown color page vga) (room : page.col < 80) : Shown color page vga.wrap := by
  have narrow : ¬ vga.x ≥ 80 := fun wide => by
    have wide : 80 ≤ vga.x.toNat := wide
    rw [shown.x] at wide
    omega
  have high : ¬ vga.y ≥ 25 := fun low => by
    have low : 25 ≤ vga.y.toNat := low
    rw [shown.y] at low
    omega
  rw [Vga.wrap, if_neg narrow, if_neg high]
  exact ⟨shown.tint, shown.x, shown.y, shown.cells, shown.below⟩

/-- A full row is followed by the next one, for which the screen scrolls if it was the last. -/
theorem wrap_full (shown : Shown color page vga) (full : page.col = 80) : Shown color page.nextRow vga.wrap := by
  have wide : vga.x ≥ 80 := by
    change 80 ≤ vga.x.toNat
    exact Nat.le_of_eq (shown.x.trans full).symm
  have next : (vga.y + 1).toNat = min page.row 24 + 1 := by
    have small : min page.row 24 + 1 < 2 ^ 8 := by omega
    rw [UInt8.toNat_add, shown.y]
    exact Nat.mod_eq_of_lt small
  have below : ∀ row > page.nextRow.row, ∀ c, page.nextRow.char row c = none :=
    fun row later => shown.below row (Nat.lt_of_succ_lt later)
  rw [Vga.wrap, if_pos wide]
  by_cases last : 24 ≤ page.row
  · have low : vga.y + 1 ≥ 25 := by
      change 25 ≤ (vga.y + 1).toNat
      omega
    rw [if_pos low]
    refine ⟨shown.tint, rfl, ?_, ?_, below⟩
    · change (vga.y + 1 - 1).toNat = min (page.row + 1) 24
      rw [UInt8.add_sub_cancel, shown.y]
      omega
    · intro j inside col within
      change fill (80 * 24) 80 vga.blank (shiftDown 80 (80 * 24) vga.buffer) (j * 80 + col) =
        cellOf color (page.char (j + (page.row + 1 - 24)) col)
      rw [fill_apply, shiftDown_apply]
      by_cases bottom : j = 24
      · rw [if_pos (by omega), shown.below _ (by omega), Vga.blank, shown.tint]
        rfl
      · have above : j * 80 + col + 80 = (j + 1) * 80 + col := by omega
        have row : j + 1 + (page.row - 24) = j + (page.row + 1 - 24) := by omega
        rw [if_neg (by omega), if_pos (by omega), above, shown.cells (j + 1) (by omega) col within, row]
  · have high : ¬ vga.y + 1 ≥ 25 := fun low => by
      have low : 25 ≤ (vga.y + 1).toNat := low
      omega
    rw [if_neg high]
    refine ⟨shown.tint, rfl, ?_, ?_, below⟩
    · change (vga.y + 1).toNat = min (page.row + 1) 24
      omega
    · intro j inside col within
      have row : page.row - 24 = page.row + 1 - 24 := by omega
      change vga.buffer (j * 80 + col) = cellOf color (page.char (j + (page.row + 1 - 24)) col)
      rw [shown.cells j inside col within, row]

theorem put (shown : Shown color page vga) (room : page.col < 80)
    (printed : c = '\n'.toUInt8 ∨ (0x20 ≤ c ∧ c < 0x80)) :
    Shown color (page.type 80 c) (vga.put c) ∧ (page.type 80 c).col < 80 := by
  rw [Vga.put, Page.type]
  by_cases newline : c = '\n'.toUInt8
  · rw [if_pos newline, if_pos newline]
    exact ⟨shown.newline.wrap_full rfl, Nat.zero_lt_succ 79⟩
  · obtain ⟨visible, ascii⟩ := printed.resolve_left newline
    have other : ¬ c = '\x08'.toUInt8 := by
      intro same
      subst same
      exact absurd visible (by decide)
    rw [if_neg newline, if_neg newline, if_neg other]
    split
    · rename_i full
      exact ⟨(shown.draw room ascii).wrap_full full, Nat.zero_lt_succ 79⟩
    · rename_i within
      have inside : (page.add c).col < 80 := Nat.lt_of_le_of_ne room within
      exact ⟨(shown.draw room ascii).wrap_inside inside, inside⟩

end Shown

variable {text : Text} {str : Nat} {chars : List UInt8}

theorem Shown.puts (shown : Shown color page vga) (room : page.col < 80)
    (printed : ∀ c ∈ chars, c = '\n'.toUInt8 ∨ (0x20 ≤ c ∧ c < 0x80)) :
    Shown color (chars.foldl (Page.type 80) page) (chars.foldl (fun vga c => vga.put c) vga) := by
  induction chars generalizing page vga with
  | nil => exact shown
  | cons c rest ih =>
      obtain ⟨here, later⟩ := List.forall_mem_cons.mp printed
      obtain ⟨next, inside⟩ := shown.put room here
      exact ih next inside later

theorem shown_clear (vga : Vga) : Shown vga.color .empty { vga with x := 0, y := 0 }.clear where
  tint := rfl
  x := rfl
  y := rfl
  cells := by
    intro j inside c within
    exact Vga.clear_buffer (by omega)
  below := fun _ _ _ => rfl

/-- After any text of visible characters and newlines, the screen shows the window of
25 rows of the page that ends with the row being written. -/
theorem vga_shows_window (vga : Vga) (holds : text.Holds str chars)
    (printed : ∀ c ∈ chars, c = '\n'.toUInt8 ∨ (0x20 ≤ c ∧ c ≤ 0x7E)) :
    ∃ enough, ∀ fuel ≥ enough, ∃ ret after, vgaPuts fuel text str { vga with x := 0, y := 0 }.clear = .done ret after ∧
      after.x.toNat = (Page.layout 80 chars).col ∧ after.y.toNat = min (Page.layout 80 chars).row 24 ∧
      ∀ j < 25, ∀ c < 80, after.buffer (j * 80 + c) =
        cellOf vga.color ((Page.layout 80 chars).char (j + ((Page.layout 80 chars).row - 24)) c) := by
  have ascii : ∀ c ∈ chars, c = '\n'.toUInt8 ∨ (0x20 ≤ c ∧ c < 0x80) := fun c member =>
    (printed c member).imp_right fun visible => ⟨visible.1, UInt8.lt_of_le_of_lt visible.2 (by decide)⟩
  have plain : ∀ c ∈ chars, c ≠ esc ∧ c ≠ '\t'.toUInt8 := by
    intro c member
    constructor
    · intro same
      subst same
      exact absurd (printed _ member) (by decide)
    · intro same
      subst same
      exact absurd (printed _ member) (by decide)
  have shown := (shown_clear vga).puts (Nat.zero_lt_succ 79) ascii
  exact ⟨chars.length + 1, fun fuel enough => ⟨_, _, vgaPuts_put holds plain enough, shown.x, shown.y, shown.cells⟩⟩

theorem vga_shows_window_line : ∃ enough, ∀ fuel ≥ enough, ∃ ret after,
    vgaPuts fuel (.only 0 [0x41, 0x0A]) 0 { (⟨0, 0, 0x07, fun _ => 0, 0⟩ : Vga) with x := 0, y := 0 }.clear = .done ret after ∧
      after.x.toNat = 0 ∧ after.y.toNat = 1 ∧ after.buffer 0 = 0x0741 ∧ after.buffer 1 = 0x0700 := by
  obtain ⟨enough, runs⟩ := vga_shows_window ⟨0, 0, 0x07, fun _ => 0, 0⟩
    (Text.only_holds 0 (by decide : 0 ∉ [(0x41 : UInt8), 0x0A]))
    (List.forall_mem_cons.mpr ⟨by decide, List.forall_mem_singleton.mpr (by decide)⟩)
  refine ⟨enough, fun fuel more => ?_⟩
  obtain ⟨ret, after, run, x, y, cells⟩ := runs fuel more
  exact ⟨ret, after, run, x, y, cells 0 (by decide) 0 (by decide), cells 0 (by decide) 1 (by decide)⟩

end BarrelOS.Display
