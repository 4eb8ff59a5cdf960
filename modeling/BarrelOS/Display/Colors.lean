import BarrelOS.Display.VgaSplit

namespace BarrelOS.Display

open BarrelOS.Data BarrelOS.Semantics BarrelOS.Lib

/-! The colours of the cells that `vga_puts` writes -/

/-- The foreground and the background that the codes executed so far ask for. -/
structure Shade where
  fg : UInt8
  bg : UInt8
  fg_nibble : fg < 16
  bg_nibble : bg < 16

def Foreground (code : Int) : Prop := (code ≥ 30 ∧ code ≤ 37) ∨ (code ≥ 90 ∧ code ≤ 97)

def Background (code : Int) : Prop := (code ≥ 40 ∧ code ≤ 47) ∨ (code ≥ 100 ∧ code ≤ 107)

instance : DecidablePred Foreground := fun _ => inferInstanceAs (Decidable (_ ∨ _))

instance : DecidablePred Background := fun _ => inferInstanceAs (Decidable (_ ∨ _))

theorem ansiToVga_lt (code : Int) : ansiToVga code < 16 := by
  have listed : ∀ entry ∈ vgaTable, entry < 16 := @of_decide_eq_true _ (List.decidableBAll _ _) rfl
  have entries : ∀ n, vgaTable.getD n 0 < 16 := by
    intro n
    rw [List.getD_eq_getElem?_getD]
    cases found : vgaTable[n]? with
    | none => decide
    | some entry => exact listed entry (List.mem_of_getElem? found)
  unfold ansiToVga
  repeat' split
  all_goals first | exact entries _ | decide

namespace Shade

/-- The colours before any code and after code 0. -/
def grey : Shade := ⟨7, 0, by decide, by decide⟩

def execute (code : Int) (shade : Shade) : Shade :=
  if code = 0 then grey
  else if Foreground code then { shade with fg := ansiToVga code, fg_nibble := ansiToVga_lt code }
  else if Background code then { shade with bg := ansiToVga code, bg_nibble := ansiToVga_lt code }
  else shade

def turn (shade : Shade) : Turn → Shade
  | .select params _ => shade.execute (codeOf params)
  | _ => shade

end Shade

namespace Turn

/-- A byte from 0x20 on or a newline, perhaps with a colour sequence of at most three digits
in front of it, or a command. -/
def Ordinary : Turn → Prop
  | byte c => c = '\n'.toUInt8 ∨ 0x20 ≤ c
  | select params c => (params.length ≤ 3 ∧ ∀ digit ∈ params, isDigit digit.toNat) ∧ (c = '\n'.toUInt8 ∨ 0x20 ≤ c)
  | clear | home => True

instance : DecidablePred Ordinary
  | byte _ => inferInstanceAs (Decidable (_ ∨ _))
  | select params _ => @instDecidableAnd _ _ (@instDecidableAnd _ _ inferInstance (List.decidableBAll _ params)) inferInstance
  | clear | home => inferInstanceAs (Decidable True)

/-- The byte that gets a cell. -/
def printed : Turn → Option UInt8
  | byte c | select _ c => if c = '\n'.toUInt8 then none else some c
  | clear | home => none

end Turn

/-- The state in which a turn prints its byte. -/
def Vga.ready (vga : Vga) : Turn → Vga
  | .select params _ => vga.select (codeOf params)
  | _ => vga

def Vga.cell (vga : Vga) (c : UInt8) : UInt16 := (vga.draw c).buffer vga.place

def attr (cell : UInt16) : UInt8 := (cell >>> 8).toUInt8

/-- A cell with a byte in the colours asked for. -/
structure Shows (c : UInt8) (shade : Shade) (cell : UInt16) : Prop where
  char : cell.toUInt8 = c
  fg : attr cell &&& 0x0F = shade.fg
  bg : attr cell >>> 4 = shade.bg

/-- A code for one of the colours leaves the other one alone. -/
def Keeps (vga : Vga) : Turn → Prop
  | .select params _ =>
      (Foreground (codeOf params) → (vga.select (codeOf params)).color >>> 4 = vga.color >>> 4) ∧
      (Background (codeOf params) → (vga.select (codeOf params)).color &&& 0x0F = vga.color &&& 0x0F)
  | _ => True

/-- The cells carry the colours that are asked for when they are written. -/
def Carries : List Turn → Shade → Vga → Prop
  | [], _, _ => True
  | turn :: rest, shade, vga =>
      Keeps vga turn ∧ (∀ c ∈ turn.printed, Shows c (shade.turn turn) ((vga.ready turn).cell c)) ∧
      Carries rest (shade.turn turn) (vga.turn turn)

/-- The colours in which a byte comes out right: for bytes below 0x80 the background is never
anything but black, and the sign of the others sets all of the attribute. -/
def Shade.Reaches (shade : Shade) (c : UInt8) : Prop := if c < 0x80 then shade.bg = 0 else shade.fg = 15 ∧ shade.bg = 15

instance (shade : Shade) (c : UInt8) : Decidable (shade.Reaches c) :=
  inferInstanceAs (Decidable (if c < 0x80 then _ else _))

/-- Bytes are printed only in colours in which they come out right. -/
def Reached : List Turn → Shade → Prop
  | [], _ => True
  | turn :: rest, shade => (∀ c ∈ turn.printed, (shade.turn turn).Reaches c) ∧ Reached rest (shade.turn turn)

variable {vga : Vga} {shade : Shade} {c n : UInt8} {turn : Turn} {turns : List Turn} {str : Nat} {code : Int} {rest : List UInt8}

/-! Bits -/

theorem forall_byte {P : UInt8 → Prop} (all : ∀ high < 16, ∀ low < 16, P (UInt8.ofNat (high * 16 + low))) (c : UInt8) : P c := by
  have bound := c.toNat_lt
  have here := all (c.toNat / 16) (by omega) (c.toNat % 16) (by omega)
  rwa [Nat.div_add_mod', UInt8.ofNat_toNat] at here

theorem nibble (low : n < 16) : n &&& 0xF0 = 0 ∧ n &&& 0x0F = n ∧ n >>> 4 = 0 :=
  forall_byte (P := fun n => n < 16 → n &&& 0xF0 = 0 ∧ n &&& 0x0F = n ∧ n >>> 4 = 0) (by decide) n low

theorem shifted (c : UInt8) : (c.toUInt16 <<< 8).toUInt8 = 0 ∧ attr (c.toUInt16 <<< 8) = c :=
  forall_byte (P := fun c => (c.toUInt16 <<< 8).toUInt8 = 0 ∧ attr (c.toUInt16 <<< 8) = c) (by decide) c

/-- The sign of a `char` runs into the attribute. -/
theorem extended (c : UInt8) :
    c.toInt8.toInt16.toUInt16.toUInt8 = c ∧ attr c.toInt8.toInt16.toUInt16 = if c < 0x80 then 0 else 0xFF :=
  forall_byte (P := fun c => c.toInt8.toInt16.toUInt16.toUInt8 = c ∧
    attr c.toInt8.toInt16.toUInt16 = if c < 0x80 then 0 else 0xFF) (by decide) c

theorem attr_or (left right : UInt16) : attr (left ||| right) = attr left ||| attr right := by
  have shift : (left ||| right) >>> 8 = left >>> 8 ||| right >>> 8 := by
    apply UInt16.toBitVec_inj.mp
    simp [BitVec.ushiftRight_or_distrib]
  rw [attr, shift, UInt16.toUInt8_or]
  rfl

theorem or_all (n : UInt8) : n ||| 0xFF = 0xFF := forall_byte (P := fun n => n ||| 0xFF = 0xFF) (by decide) n

/-! A cell -/

theorem cell_eq (vga : Vga) (c : UInt8) : vga.cell c = vga.blank ||| c.toInt8.toInt16.toUInt16 := Function.update_self ..

theorem cell_char (vga : Vga) (c : UInt8) : (vga.cell c).toUInt8 = c := by
  rw [cell_eq, UInt16.toUInt8_or, Vga.blank, (shifted vga.color).1, (extended c).1, UInt8.zero_or]

theorem cell_attr (vga : Vga) (c : UInt8) : attr (vga.cell c) = if c < 0x80 then vga.color else 0xFF := by
  rw [cell_eq, attr_or, Vga.blank, (shifted vga.color).2, (extended c).2]
  split
  · exact UInt8.or_zero
  · exact or_all vga.color

theorem shows_iff (colored : vga.color = shade.fg) : Shows c shade (vga.cell c) ↔ shade.Reaches c := by
  obtain ⟨_, low, high⟩ := nibble shade.fg_nibble
  have attributes := cell_attr vga c
  unfold Shade.Reaches
  split at attributes
  · next ascii =>
      rw [if_pos ascii]
      constructor
      · intro shows
        rw [← shows.bg, attributes, colored, high]
      · intro black
        exact ⟨cell_char vga c, by rw [attributes, colored, low], by rw [attributes, colored, high, black]⟩
  · next extended =>
      rw [if_neg extended]
      constructor
      · intro shows
        rw [← shows.fg, ← shows.bg, attributes]
        decide
      · intro white
        exact ⟨cell_char vga c, by rw [attributes, white.1]; rfl, by rw [attributes, white.2]; rfl⟩

/-! The colour of `vga.c` is always the foreground asked for -/

theorem wrap_color (vga : Vga) : vga.wrap.color = vga.color := by
  have scrolled : ∀ vga : Vga, (Vga.updateCursor (if vga.y ≥ 25 then vga.scroll else vga)).color = vga.color := by
    intro vga
    split <;> rfl
  rw [Vga.wrap, scrolled]
  split <;> rfl

theorem put_color (vga : Vga) (c : UInt8) : (vga.put c).color = vga.color := by
  rw [Vga.put, wrap_color]
  split
  · rfl
  · split
    · unfold Vga.back
      split <;> rfl
    · rfl

theorem puts_color (chars : List UInt8) (vga : Vga) : (chars.foldl (fun vga c => vga.put c) vga).color = vga.color := by
  induction chars generalizing vga with
  | nil => rfl
  | cons c chars ih => exact (ih (vga.put c)).trans (put_color vga c)

theorem type_color (vga : Vga) (c : UInt8) : (vga.type c).color = vga.color := by
  unfold Vga.type
  split
  · rw [wrap_color, puts_color]
  · exact put_color vga c

theorem select_eq (code : Int) (vga : Vga) : vga.select code =
    if code = 0 then { vga with color := 0x07 }
    else if Foreground code then { vga with color := vga.color &&& 0xF0 ||| ansiToVga code &&& 0x0F }
    else if Background code then { vga with color := vga.color &&& 0x0F ||| ansiToVga code &&& 0xF0 }
    else vga := rfl

/-- `ansi_to_vga(code) & 0xF0` is zero, so the background never changes. -/
theorem select_color (colored : vga.color = shade.fg) (code : Int) : (vga.select code).color = (shade.execute code).fg := by
  obtain ⟨high, low, _⟩ := nibble shade.fg_nibble
  obtain ⟨table_high, table_low, _⟩ := nibble (ansiToVga_lt code)
  rw [select_eq, Shade.execute]
  by_cases reset : code = 0
  · rw [if_pos reset, if_pos reset]
    rfl
  · rw [if_neg reset, if_neg reset]
    by_cases front : Foreground code
    · rw [if_pos front, if_pos front]
      change vga.color &&& 0xF0 ||| ansiToVga code &&& 0x0F = ansiToVga code
      rw [colored, high, table_low, UInt8.zero_or]
    · rw [if_neg front, if_neg front]
      by_cases behind : Background code
      · rw [if_pos behind, if_pos behind]
        change vga.color &&& 0x0F ||| ansiToVga code &&& 0xF0 = shade.fg
        rw [colored, low, table_high, UInt8.or_zero]
      · rw [if_neg behind, if_neg behind]
        exact colored

theorem execute_background (behind : Background code) : (shade.execute code).fg = shade.fg := by
  have nonzero : code ≠ 0 := by
    unfold Background at behind
    omega
  have other : ¬ Foreground code := by
    unfold Background at behind
    unfold Foreground
    omega
  rw [Shade.execute, if_neg nonzero, if_neg other, if_pos behind]

theorem turn_color (colored : vga.color = shade.fg) (turn : Turn) :
    (vga.ready turn).color = (shade.turn turn).fg ∧ (vga.turn turn).color = (shade.turn turn).fg := by
  cases turn with
  | byte c => exact ⟨colored, (type_color vga c).trans colored⟩
  | clear =>
      have kept : vga.clear.color = vga.color := by rw [Vga.clear]
      exact ⟨colored, kept.trans colored⟩
  | home => exact ⟨colored, colored⟩
  | select params c =>
      have selected := select_color colored (codeOf params)
      exact ⟨selected, (type_color _ c).trans selected⟩

theorem keeps (colored : vga.color = shade.fg) (turn : Turn) : Keeps vga turn := by
  cases turn with
  | select params c =>
      have selected := select_color colored (codeOf params)
      refine ⟨fun _ => ?_, fun behind => ?_⟩
      · rw [selected, colored, (nibble (shade.execute (codeOf params)).fg_nibble).2.2, (nibble shade.fg_nibble).2.2]
      · rw [selected, colored, execute_background behind]
  | _ => trivial

theorem carries_iff (colored : vga.color = shade.fg) : Carries turns shade vga ↔ Reached turns shade := by
  induction turns generalizing shade vga with
  | nil => exact Iff.rfl
  | cons turn turns ih =>
      obtain ⟨ready, after⟩ := turn_color colored turn
      rw [Carries, Reached, and_iff_right (keeps colored turn), ih after]
      exact and_congr_left fun _ => forall₂_congr fun c _ => shows_iff ready

/-! A string of ordinary turns -/

theorem Turn.Ordinary.taken (ordinary : turn.Ordinary) (rest : List UInt8) :
    Takes turn (turn.bytes ++ rest) rest ∧ 0 ∉ turn.bytes := by
  have visible : ∀ {c : UInt8}, c = '\n'.toUInt8 ∨ 0x20 ≤ c → c ≠ esc ∧ c ≠ 0 := by
    intro c ordinary
    refine ⟨?_, ?_⟩ <;>
    · intro same
      subst same
      exact absurd ordinary (by decide)
  cases turn with
  | byte c =>
      obtain ⟨other, nonzero⟩ := visible ordinary
      exact ⟨.byte fun escape => other escape.1, fun member => nonzero (List.mem_singleton.mp member).symm⟩
  | clear => exact ⟨.clear, by decide⟩
  | home => exact ⟨.home, by decide⟩
  | select params c =>
      obtain ⟨⟨short, digits⟩, ordinary⟩ := ordinary
      have plain : (Part.color params).Plain := ⟨short, digits⟩
      refine ⟨.select (selects_of_digits short digits), fun member => ?_⟩
      obtain color | last := List.mem_append.mp member
      · exact plain.nonzero color
      · exact (visible ordinary).2 (List.mem_singleton.mp last).symm

theorem ordinary_turns (ordinary : ∀ turn ∈ turns, turn.Ordinary) : Turns turns (turns.flatMap Turn.bytes) [] := by
  induction turns with
  | nil => exact .nil
  | cons turn turns ih =>
      obtain ⟨here, later⟩ := List.forall_mem_cons.mp ordinary
      exact .cons (here.taken _).1 (ih later)

theorem ordinary_nonzero (ordinary : ∀ turn ∈ turns, turn.Ordinary) : 0 ∉ turns.flatMap Turn.bytes := by
  intro member
  obtain ⟨turn, here, zero⟩ := List.mem_flatMap.mp member
  exact ((ordinary turn here).taken []).2 zero

/-- The string is printed turn by turn, and its cells carry their colours. -/
structure ShowsColors (str : Nat) (turns : List Turn) (vga : Vga) : Prop where
  prints : ∃ enough, ∀ fuel ≥ enough, vgaPuts fuel (.only str (turns.flatMap Turn.bytes)) str vga =
    .done (str + (turns.flatMap Turn.bytes).length) (turns.foldl Vga.turn vga)
  carries : Carries turns .grey vga

/-- The cells carry the colours asked for exactly if ASCII is printed on black only, and
everything else in white on white. -/
theorem vgaPuts_colors_iff (ordinary : ∀ turn ∈ turns, turn.Ordinary) (fresh : vga.color = 0x07) :
    ShowsColors str turns vga ↔ Reached turns .grey := by
  constructor
  · intro shows
    exact (carries_iff fresh).mp shows.carries
  · intro reached
    have holds := Text.only_holds str (ordinary_nonzero ordinary)
    exact ⟨⟨_, fun fuel enough => vgaPuts_ends (ordinary_turns ordinary) holds enough⟩, (carries_iff fresh).mpr reached⟩

theorem vgaPuts_colors_red : ShowsColors 0 [.select [0x33, 0x31] 0x41] greyVga := by
  have ordinary : ∀ turn ∈ [Turn.select [0x33, 0x31] 0x41], turn.Ordinary := by decide
  have reaches : (Shade.grey.execute (codeOf [0x33, 0x31])).Reaches 0x41 := by decide
  refine (vgaPuts_colors_iff ordinary rfl).mpr ⟨fun c here => ?_, trivial⟩
  cases here
  exact reaches

/-- The `A` of `"\033[44mA"` is not on blue, and the byte 0x8E is white on white. -/
theorem colors_get_lost : ¬ ShowsColors 0 [.select [0x34, 0x34] 0x41] greyVga ∧ ¬ ShowsColors 0 [.byte 0x8E] greyVga := by
  have grey : greyVga.color = Shade.grey.fg := rfl
  have blue : ¬ (Shade.grey.execute (codeOf [0x34, 0x34])).Reaches 0x41 := by decide
  have high : ¬ Shade.grey.Reaches 0x8E := by decide
  refine ⟨fun shows => blue ?_, fun shows => high ?_⟩
  · exact ((carries_iff grey).mp shows.carries).1 0x41 rfl
  · exact ((carries_iff grey).mp shows.carries).1 0x8E rfl

end BarrelOS.Display
