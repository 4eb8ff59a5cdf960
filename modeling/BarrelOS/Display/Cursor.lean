import BarrelOS.Display.Console
import BarrelOS.Display.Vga

namespace BarrelOS.Display

open BarrelOS.Data BarrelOS.Semantics BarrelOS.Lib

/-- A place in a grid of 80 columns and 25 rows. -/
structure Cursor where
  col : Nat
  row : Nat
  narrow : col < 80
  high : row < 25
deriving DecidableEq

namespace Cursor

theorem ext {left right : Cursor} (col : left.col = right.col) (row : left.row = right.row) : left = right := by
  cases left
  cases right
  cases col
  cases row
  rfl

/-- The first place of the next row, or of the last one again. -/
def nextRow (cursor : Cursor) : Cursor := ⟨0, min (cursor.row + 1) 24, by decide, by omega⟩

def advance (cursor : Cursor) : Cursor :=
  if inside : cursor.col + 1 < 80 then ⟨cursor.col + 1, cursor.row, inside, cursor.high⟩ else cursor.nextRow

def back (cursor : Cursor) : Cursor :=
  if cursor.col = 0 then ⟨79, cursor.row - 1, by decide, Nat.lt_of_le_of_lt (Nat.sub_le _ _) cursor.high⟩
  else ⟨cursor.col - 1, cursor.row, Nat.lt_of_le_of_lt (Nat.sub_le _ _) cursor.narrow, cursor.high⟩

/-- Where a character takes the cursor if a tab is `tab` columns wide. -/
def step (tab : Nat) (cursor : Cursor) (c : UInt8) : Cursor :=
  if c = '\n'.toUInt8 then cursor.nextRow
  else if c = '\x08'.toUInt8 then cursor.back
  else if c = '\t'.toUInt8 then Nat.iterate advance tab cursor
  else cursor.advance

/-- No backspace is executed at the origin. -/
def Stays (tab : Nat) : List UInt8 → Cursor → Prop
  | [], _ => True
  | c :: rest, cursor =>
      (c = '\x08'.toUInt8 → ¬ (cursor.col = 0 ∧ cursor.row = 0)) ∧ Stays tab rest (cursor.step tab c)

end Cursor

/-! The cursor of `vga.c` -/

def Vga.At (vga : Vga) (cursor : Cursor) : Prop := vga.x.toNat = cursor.col ∧ vga.y.toNat = cursor.row

variable {vga : Vga} {cursor : Cursor} {c : UInt8} {screen : Screen} {font : Nat → UInt8}

theorem uint8_succ {n : UInt8} (bound : n.toNat < 255) : (n + 1).toNat = n.toNat + 1 := by
  rw [UInt8.toNat_add]
  exact Nat.mod_eq_of_lt (Nat.succ_lt_succ bound)

theorem uint8_pred {n : UInt8} (positive : n.toNat ≠ 0) : (n - 1).toNat = n.toNat - 1 :=
  UInt8.toNat_sub_of_le _ _ (Nat.pos_of_ne_zero positive)

namespace Vga.At

theorem nextRow (wide : 80 ≤ vga.x.toNat) (row : vga.y.toNat = cursor.row) : vga.wrap.At cursor.nextRow := by
  have high := cursor.high
  have next : (vga.y + 1).toNat = cursor.row + 1 := by rw [uint8_succ (by omega), row]
  have wide : vga.x ≥ 80 := wide
  rw [Vga.wrap, if_pos wide]
  by_cases last : cursor.row = 24
  · have low : vga.y + 1 ≥ 25 := by
      change 25 ≤ (vga.y + 1).toNat
      omega
    rw [if_pos low]
    refine ⟨rfl, ?_⟩
    change (vga.y + 1 - 1).toNat = min (cursor.row + 1) 24
    rw [UInt8.add_sub_cancel, row]
    omega
  · have inside : ¬ vga.y + 1 ≥ 25 := fun low => by
      have low : 25 ≤ (vga.y + 1).toNat := low
      omega
    rw [if_neg inside]
    refine ⟨rfl, ?_⟩
    change (vga.y + 1).toNat = min (cursor.row + 1) 24
    omega

theorem wrap (here : vga.At cursor) : vga.wrap.At cursor := by
  have narrow : ¬ vga.x ≥ 80 := fun wide => Nat.not_le.mpr cursor.narrow (here.1 ▸ wide)
  have high : ¬ vga.y ≥ 25 := fun low => Nat.not_le.mpr cursor.high (here.2 ▸ low)
  rw [Vga.wrap, if_neg narrow, if_neg high]
  exact here

theorem draw (here : vga.At cursor) : (vga.draw c).wrap.At cursor.advance := by
  have narrow := cursor.narrow
  have next : (vga.draw c).x.toNat = cursor.col + 1 := by
    change (vga.x + 1).toNat = cursor.col + 1
    have column := here.1
    rw [uint8_succ (by omega), column]
  unfold Cursor.advance
  split
  · have place : (vga.draw c).At ⟨cursor.col + 1, cursor.row, by assumption, cursor.high⟩ := ⟨next, here.2⟩
    exact place.wrap
  · exact nextRow (by omega) here.2

theorem back (here : vga.At cursor) (stays : ¬ (cursor.col = 0 ∧ cursor.row = 0)) : vga.back.At cursor.back := by
  unfold Vga.back Cursor.back
  by_cases first : cursor.col = 0
  · have zero : vga.x = 0 := UInt8.toNat_inj.mp (here.1.trans first)
    have positive : vga.y.toNat ≠ 0 := fun top => stays ⟨first, here.2.symm.trans top⟩
    rw [if_pos zero, if_pos first]
    refine ⟨rfl, ?_⟩
    change (vga.y - 1).toNat = cursor.row - 1
    rw [uint8_pred positive, here.2]
  · have positive : vga.x.toNat ≠ 0 := fun zero => first (here.1.symm.trans zero)
    have nonzero : ¬ vga.x = 0 := fun zero => positive (congrArg UInt8.toNat zero)
    rw [if_neg nonzero, if_neg first]
    refine ⟨?_, here.2⟩
    change (vga.x - 1).toNat = cursor.col - 1
    rw [uint8_pred positive, here.1]

theorem put (here : vga.At cursor) (stays : c = '\x08'.toUInt8 → ¬ (cursor.col = 0 ∧ cursor.row = 0))
    (visible : c ≠ '\t'.toUInt8) (tab : Nat) : (vga.put c).At (cursor.step tab c) := by
  unfold Vga.put Cursor.step
  by_cases newline : c = '\n'.toUInt8
  · rw [if_pos newline, if_pos newline]
    exact nextRow (Nat.le_refl 80) here.2
  · rw [if_neg newline, if_neg newline]
    by_cases erase : c = '\x08'.toUInt8
    · rw [if_pos erase, if_pos erase]
      exact (here.back (stays erase)).wrap
    · rw [if_neg erase, if_neg erase, if_neg visible]
      exact here.draw

theorem type (here : vga.At cursor) (stays : c = '\x08'.toUInt8 → ¬ (cursor.col = 0 ∧ cursor.row = 0)) :
    (vga.type c).At (cursor.step 4 c) := by
  unfold Vga.type
  by_cases tab : c = '\t'.toUInt8
  · have space : ∀ {vga : Vga} {cursor : Cursor}, vga.At cursor → (vga.put ' '.toUInt8).At cursor.advance :=
      fun here => here.put (fun same => absurd same (by decide)) (by decide) 4
    rw [if_pos tab, tab]
    exact (space (space (space (space here)))).wrap
  · rw [if_neg tab]
    exact here.put stays tab 4

theorem select (here : vga.At cursor) (code : Int) : (vga.select code).At cursor := by
  unfold Vga.select
  repeat' split
  all_goals exact here

end Vga.At

/-! The cursor of `console.c` -/

structure Screen.At (screen : Screen) (cursor : Cursor) : Prop where
  width : screen.console.width = 80
  height : screen.console.height = 25
  x : screen.console.x = cursor.col
  y : screen.console.y = cursor.row

namespace Screen.At

theorem nextRow (width : screen.console.width = 80) (height : screen.console.height = 25) (wide : 80 ≤ screen.console.x)
    (row : screen.console.y = cursor.row) : screen.wrap.At cursor.nextRow := by
  have high := cursor.high
  have full : screen.console.x ≥ screen.console.width := by omega
  rw [Screen.wrap, if_pos full]
  by_cases last : cursor.row = 24
  · have low : (screen.move 0 (screen.console.y + 1)).console.y ≥ (screen.move 0 (screen.console.y + 1)).console.height := by
      change screen.console.y + 1 ≥ screen.console.height
      omega
    simp only [if_pos low]
    refine ⟨width, height, rfl, ?_⟩
    change screen.console.y + 1 - 1 = ((min (cursor.row + 1) 24 : Nat) : Int)
    omega
  · have inside : ¬ (screen.move 0 (screen.console.y + 1)).console.y ≥ (screen.move 0 (screen.console.y + 1)).console.height := by
      change ¬ screen.console.y + 1 ≥ screen.console.height
      omega
    simp only [if_neg inside]
    refine ⟨width, height, rfl, ?_⟩
    change screen.console.y + 1 = ((min (cursor.row + 1) 24 : Nat) : Int)
    omega

theorem wrap (here : screen.At cursor) : screen.wrap.At cursor := by
  have narrow := cursor.narrow
  have inside : ¬ screen.console.x ≥ screen.console.width := by
    rw [here.x, here.width]
    omega
  rwa [Screen.wrap, if_neg inside]

theorem drawCursor (here : screen.At cursor) (inverted : Bool) : (consoleDrawCursor inverted screen).At cursor :=
  ⟨here.width, here.height, here.x, here.y⟩

theorem back (here : screen.At cursor) (stays : ¬ (cursor.col = 0 ∧ cursor.row = 0)) :
    Screen.At (if screen.console.x = 0 then screen.move (screen.console.width - 1) (screen.console.y - 1)
      else screen.move (screen.console.x - 1) screen.console.y) cursor.back := by
  have width := here.width
  have column := here.x
  have row := here.y
  unfold Cursor.back
  by_cases first : cursor.col = 0
  · have zero : screen.console.x = 0 := by omega
    rw [if_pos zero, if_pos first]
    refine ⟨width, here.height, ?_, ?_⟩
    · change screen.console.width - 1 = ((79 : Nat) : Int)
      omega
    · change screen.console.y - 1 = ((cursor.row - 1 : Nat) : Int)
      omega
  · have nonzero : ¬ screen.console.x = 0 := by omega
    rw [if_neg nonzero, if_neg first]
    refine ⟨width, here.height, ?_, row⟩
    change screen.console.x - 1 = ((cursor.col - 1 : Nat) : Int)
    omega

theorem advance (here : screen.At cursor) (memory : Bytes) :
    (Screen.move (screen.console.x + 1) screen.console.y { screen with memory }).wrap.At cursor.advance := by
  have column := here.x
  unfold Cursor.advance
  split
  · have place : (Screen.move (screen.console.x + 1) screen.console.y { screen with memory }).At
        ⟨cursor.col + 1, cursor.row, by assumption, cursor.high⟩ :=
      ⟨here.width, here.height, congrArg (· + 1) column, here.y⟩
    exact place.wrap
  · have wide : 80 ≤ screen.console.x + 1 := by omega
    exact nextRow here.width here.height wide here.y

/-- In `console.c` a tab is a character like others. -/
theorem putchar (here : screen.At cursor) (stays : c = '\x08'.toUInt8 → ¬ (cursor.col = 0 ∧ cursor.row = 0)) :
    (consolePutchar font c screen).At (cursor.step 1 c) := by
  unfold consolePutchar Cursor.step
  by_cases newline : c = '\n'.toUInt8
  · rw [if_pos newline, if_pos newline]
    have wide : 80 ≤ screen.console.width := by rw [here.width]
    exact nextRow here.width here.height wide here.y
  · rw [if_neg newline, if_neg newline]
    by_cases erase : c = '\x08'.toUInt8
    · rw [if_pos erase, if_pos erase]
      exact (((here.drawCursor true).back (stays erase)).drawCursor true).wrap
    · rw [if_neg erase, if_neg erase]
      split
      · exact here.advance _
      · exact here.advance _

theorem select (here : screen.At cursor) (code : Int) : Screen.At { screen with console := screen.console.select code } cursor := by
  unfold Console.select
  repeat' split
  all_goals exact ⟨here.width, here.height, here.x, here.y⟩

end Screen.At

end BarrelOS.Display
