import BarrelOS.Data.Stores
import BarrelOS.Display.Escape

namespace BarrelOS.Display

open BarrelOS.Data BarrelOS.Semantics BarrelOS.Lib

/-- The globals of `vga.c`, the cells of `vga_buffer`, and the position that the
cursor registers of the display controller hold. -/
structure Vga where
  x : UInt8
  y : UInt8
  color : UInt8
  buffer : Nat → UInt16
  cursor : UInt16

def vgaTable : List UInt8 :=
  [0x00, 0x04, 0x02, 0x06, 0x01, 0x05, 0x03, 0x07, 0x08, 0x0C, 0x0A, 0x0E, 0x09, 0x0D, 0x0B, 0x0F]

def ansiToVga (ansi : Int) : UInt8 :=
  let entry := fun base : Int => vgaTable.getD (ansi - base).toNat 0
  if ansi ≥ 30 ∧ ansi ≤ 37 then entry 30
  else if ansi ≥ 40 ∧ ansi ≤ 47 then entry 40
  else if ansi ≥ 90 ∧ ansi ≤ 97 then entry 82
  else if ansi ≥ 100 ∧ ansi ≤ 107 then entry 92
  else 0

namespace Vga

/-- `vga_color << 8`. -/
def blank (vga : Vga) : UInt16 := vga.color.toUInt16 <<< 8

/-- `vga_y * 80 + vga_x`. -/
def place (vga : Vga) : Nat := vga.y.toNat * 80 + vga.x.toNat

def updateCursor (vga : Vga) : Vga := { vga with cursor := UInt16.ofNat vga.place }

def clear (vga : Vga) : Vga := { vga with buffer := fill 0 (80 * 25) vga.blank vga.buffer }

def scroll (vga : Vga) : Vga :=
  { vga with buffer := fill (80 * 24) 80 vga.blank (shiftDown 80 (80 * 24) vga.buffer), y := vga.y - 1 }

/-- What a code that is no cursor command does. -/
def select (code : Int) (vga : Vga) : Vga :=
  if code = 0 then { vga with color := 0x07 }
  else if (code ≥ 30 ∧ code ≤ 37) ∨ (code ≥ 90 ∧ code ≤ 97) then
    { vga with color := vga.color &&& 0xF0 ||| ansiToVga code &&& 0x0F }
  else if (code ≥ 40 ∧ code ≤ 47) ∨ (code ≥ 100 ∧ code ≤ 107) then
    { vga with color := vga.color &&& 0x0F ||| ansiToVga code &&& 0xF0 }
  else vga

def newline (vga : Vga) : Vga := { vga with x := 80 }

def back (vga : Vga) : Vga :=
  let vga := if vga.x = 0 then { vga with x := 79, y := vga.y - 1 } else { vga with x := vga.x - 1 }
  { vga with buffer := Function.update vga.buffer vga.place vga.blank }

/-- The other cases; a `char` is signed. -/
def draw (c : UInt8) (vga : Vga) : Vga :=
  { vga with buffer := Function.update vga.buffer vga.place (vga.blank ||| c.toInt8.toInt16.toUInt16), x := vga.x + 1 }

/-- What `vga_putchar` does at its end. -/
def wrap (vga : Vga) : Vga :=
  let vga := if vga.x ≥ 80 then { vga with x := 0, y := vga.y + 1 } else vga
  updateCursor (if vga.y ≥ 25 then vga.scroll else vga)

/-- `vga_putchar` of a character other than a tab. -/
def put (c : UInt8) (vga : Vga) : Vga :=
  (if c = '\n'.toUInt8 then vga.newline else if c = '\x08'.toUInt8 then vga.back else vga.draw c).wrap

end Vga

/-- The sequence at `str`: whether the loop continues behind it, and where it ends. -/
def vgaEscape (fuel : Nat) (text : Text) (str : Nat) (vga : Vga) : Outcome Vga (Bool × Nat) :=
  let str := str + 2
  (Outcome.ofOption (strncmp text (.only 0 ['2'.toUInt8, 'J'.toUInt8]) 2 str 0) vga).bind fun diff vga =>
    if diff = 0 then .done (true, str + 2) vga.clear
    else (Outcome.ofOption (strncmp text (.only 0 ['H'.toUInt8]) 1 str 0) vga).bind fun diff vga =>
      if diff = 0 then .done (true, str + 1) { vga with x := 0, y := 0 }.updateCursor
      else (escapeCode fuel text str vga).bind fun (code, str) vga => .done (false, str) (vga.select code)

def tabSpaces : List UInt8 := List.replicate 4 ' '.toUInt8

mutual

/-- It returns where the string ended. -/
def vgaPuts : Nat → Text → Nat → Vga → Outcome Vga Nat
  | 0, _, _, vga => .running vga
  | fuel + 1, text, str, vga =>
      (Outcome.ofOption (text str) vga).bind fun char vga =>
        if char ≠ 0 then
          (Outcome.ofOption (isEscape text str) vga).bind fun escape vga =>
            (if escape then vgaEscape fuel text str vga else .done (false, str) vga).bind fun (continued, str) vga =>
              if continued then vgaPuts fuel text str vga
              else (Outcome.ofOption (text str) vga).bind fun char vga =>
                (vgaPutchar fuel char vga).bind fun _ vga => vgaPuts fuel text (str + 1) vga
        else .done str vga

def vgaPutchar : Nat → UInt8 → Vga → Outcome Vga Unit
  | 0, _, vga => .running vga
  | fuel + 1, c, vga =>
      (if c = '\n'.toUInt8 then .done () vga.newline
      else if c = '\x08'.toUInt8 then .done () vga.back
      else if c = '\t'.toUInt8 then (vgaPuts fuel (.only 0 tabSpaces) 0 vga).bind fun _ vga => .done () vga
      else .done () (vga.draw c)).bind fun _ vga => .done () vga.wrap

end

/-- `vga_putchar` of any character. -/
def Vga.type (c : UInt8) (vga : Vga) : Vga :=
  if c = '\t'.toUInt8 then (tabSpaces.foldl (fun vga c => vga.put c) vga).wrap else vga.put c

variable {fuel str : Nat} {text : Text} {vga : Vga} {c : UInt8} {rest chars : List UInt8}

theorem Vga.clear_buffer {place : Nat} (inside : place < 2000) : vga.clear.buffer place = vga.blank := by
  have bounds : 0 ≤ place ∧ place < 0 + 80 * 25 := by omega
  simp only [clear, fill_apply, if_pos bounds]

theorem vgaPutchar_put (visible : c ≠ '\t'.toUInt8) : vgaPutchar (fuel + 1) c vga = .done () (vga.put c) := by
  rw [vgaPutchar, if_neg visible, Vga.put]
  split
  · rfl
  · split <;> rfl

theorem vgaPuts_nil (holds : text.Holds str []) : vgaPuts (fuel + 1) text str vga = .done str vga := by
  rw [vgaPuts, holds.nil, Outcome.ofOption, Outcome.done_bind, if_neg (not_not.mpr rfl)]

theorem vgaPuts_byte (holds : text.Holds str (c :: rest)) (plain : ¬ (c = esc ∧ rest.head? = some '['.toUInt8)) :
    vgaPuts (fuel + 1) text str vga = (vgaPutchar fuel c vga).bind fun _ vga => vgaPuts fuel text (str + 1) vga := by
  rw [vgaPuts, holds.head.1, isEscape_of_holds holds, decide_eq_false plain]
  simp only [Outcome.ofOption, Outcome.done_bind, if_pos holds.head.2, Bool.false_eq_true, if_false, holds.head.1]

theorem vgaPuts_put (holds : text.Holds str chars) (plain : ∀ c ∈ chars, c ≠ esc ∧ c ≠ '\t'.toUInt8)
    (enough : chars.length < fuel) :
    vgaPuts fuel text str vga = .done (str + chars.length) (chars.foldl (fun vga c => vga.put c) vga) := by
  induction chars generalizing fuel str vga with
  | nil =>
      cases fuel with
      | zero => cases enough
      | succ fuel => exact vgaPuts_nil holds
  | cons c rest ih =>
      obtain ⟨fuel, rfl⟩ : ∃ fewer, fuel = fewer + 2 := by
        rw [List.length_cons] at enough
        exact ⟨fuel - 2, by omega⟩
      obtain ⟨⟨other, visible⟩, later⟩ := List.forall_mem_cons.mp plain
      rw [vgaPuts_byte holds (fun escape => other escape.1), vgaPutchar_put visible, Outcome.done_bind,
        ih holds.tail later (Nat.lt_of_succ_lt_succ enough), List.length_cons, Nat.add_assoc, Nat.add_comm 1]
      rfl

theorem tabSpaces_plain : ∀ c ∈ tabSpaces, c ≠ esc ∧ c ≠ '\t'.toUInt8 := by
  intro c member
  rw [List.eq_of_mem_replicate member]
  decide

theorem vgaPutchar_type (enough : 6 ≤ fuel) : vgaPutchar fuel c vga = .done () (vga.type c) := by
  obtain ⟨fuel, rfl⟩ := Nat.exists_eq_add_of_le' enough
  by_cases tab : c = '\t'.toUInt8
  · have spaces := @vgaPuts_put (fuel + 5) 0 (.only 0 tabSpaces) vga tabSpaces (Text.only_holds 0 (by decide)) tabSpaces_plain
      (Nat.lt_add_left fuel (by decide))
    rw [vgaPutchar, if_neg (by rw [tab]; decide), if_neg (by rw [tab]; decide), if_pos tab, spaces, Vga.type, if_pos tab]
    rfl
  · rw [vgaPutchar_put tab, Vga.type, if_neg tab]

end BarrelOS.Display
