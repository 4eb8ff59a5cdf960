import BarrelOS.Display.ConsoleSplit
import BarrelOS.Display.Scroll

namespace BarrelOS.Display

open BarrelOS.Data BarrelOS.Lib

/-! The distance of the rows, for drawing and for scrolling -/

/-- The writes of `fb_draw_char`, in their order. -/
def glyphWrites (fb : Framebuffer) (x y : Int) (color : Nat → Nat → UInt32) : List (Nat × UInt8) :=
  (List.range 16).flatMap fun i : Nat => (List.range 8).flatMap fun o : Nat => fb.pixel ((y + i) * fb.width + x + o) (color i o)

def glyphColor (font : Nat → UInt8) (c : UInt8) (fore back : UInt32) (i o : Nat) : UInt32 :=
  if font (c.toNat * 16 + i) &&& 1 <<< (7 - UInt8.ofNat o) ≠ 0 then fore else back

namespace Framebuffer

/-- The writes of a pixel in a column and a row that are `pitch` bytes apart. -/
def pitched (fb : Framebuffer) (px py : Int) (color : UInt32) : List (Nat × UInt8) :=
  (List.range 4).map fun byte : Nat => (fb.address (py * fb.pitch + (4 * px + byte)), (color >>> (8 * UInt32.ofNat byte)).toUInt8)

/-- In memory lie the pixels of a glyph. -/
def Displays (fb : Framebuffer) (memory : Bytes) (x y : Int) (color : Nat → Nat → UInt32) : Prop :=
  ∀ i : Nat, i < 16 → ∀ o : Nat, o < 8 → ∀ write ∈ fb.pitched (x + o) (y + i) (color i o), memory write.1 = write.2

end Framebuffer

/-- Drawing and scrolling agree on where the pixels are, so glyphs stay intact. -/
structure StridesAgree (fb : Framebuffer) : Prop where
  glyph : ∀ x y color, glyphWrites fb x y color =
    (List.range 16).flatMap fun i : Nat => (List.range 8).flatMap fun o : Nat => fb.pitched (x + o) (y + i) (color i o)
  cursor : ∀ (console : Console) first color, console.fb = fb → console.cellWrites first color =
    (List.range' first (16 - first)).flatMap fun i : Nat => (List.range 8).flatMap fun o : Nat =>
      fb.pitched (console.x * 8 + console.borderX + o) (console.y * 16 + console.borderY + i) (color i o)
  scrolled : 32 ≤ fb.width → 32 ≤ fb.height → fb.height % 16 = 0 → ∀ (console : Console) font c fore back memory (column line : Int),
    0 ≤ column → column < (consoleInit fb console).width → 0 ≤ line → line + 1 < (consoleInit fb console).height →
      fb.Displays (consoleScroll ⟨consoleInit fb console,
          fbDrawChar font fb (column * 8 + (consoleInit fb console).borderX) ((line + 1) * 16 + (consoleInit fb console).borderY)
            c fore back memory⟩).memory
        (column * 8 + (consoleInit fb console).borderX) (line * 16 + (consoleInit fb console).borderY) (glyphColor font c fore back)

variable {fb : Framebuffer} {memory : Bytes} {font : Nat → UInt8} {c : UInt8} {fore back color : UInt32} {x y px py : Int}

theorem fbDrawChar_writes : fbDrawChar font fb x y c fore back memory = stores memory (glyphWrites fb x y (glyphColor font c fore back)) :=
  rfl

/-- Without a gap between the rows a pixel is where it is looked for. -/
theorem pixel_pitched (gapless : fb.pitch = 4 * fb.width) (py px : Int) (o : Nat) (color : UInt32) :
    fb.pixel (py * fb.width + px + o) color = fb.pitched (px + o) py color := by
  refine List.map_congr_left fun byte _ => ?_
  have offset : 4 * (py * fb.width + px + o) + byte = py * fb.pitch + (4 * (px + o) + byte) := by
    rw [gapless]
    ring
  rw [offset]

theorem mem_glyphWrites {colors : Nat → Nat → UInt32} {write : Nat × UInt8} (gapless : fb.pitch = 4 * fb.width) :
    write ∈ glyphWrites fb x y colors ↔ ∃ i < 16, ∃ o < 8, ∃ byte < 4,
      write = (fb.address ((y + (i : Nat)) * fb.pitch + (4 * (x + (o : Nat)) + (byte : Nat))),
        (colors i o >>> (8 * UInt32.ofNat byte)).toUInt8) := by
  simp only [glyphWrites, pixel_pitched gapless, Framebuffer.pitched, List.mem_flatMap, List.mem_map, List.mem_range, eq_comm]

/-- Two bytes of rows that do not overlap are at one place only if they are the same byte. -/
theorem row_unique {pitch row other first second : Int} (left : 0 ≤ first) (right : first < pitch) (left' : 0 ≤ second)
    (right' : second < pitch) (same : row * pitch + first = other * pitch + second) : row = other ∧ first = second := by
  have gaps : 0 ≤ pitch := by omega
  obtain above | equal | below := Int.lt_trichotomy row other
  · have apart : (row + 1) * pitch ≤ other * pitch := Int.mul_le_mul_of_nonneg_right above gaps
    rw [Int.add_mul, Int.one_mul] at apart
    omega
  · subst equal
    exact ⟨rfl, by omega⟩
  · have apart : (other + 1) * pitch ≤ row * pitch := Int.mul_le_mul_of_nonneg_right below gaps
    rw [Int.add_mul, Int.one_mul] at apart
    omega

theorem fbDrawChar_displays (gapless : fb.pitch = 4 * fb.width) (left : 0 ≤ x) (right : x + 8 ≤ fb.width) (top : 0 ≤ y)
    (bottom : y + 16 ≤ fb.height) (inside : fb.addr + fb.height * fb.pitch ≤ 2 ^ 32) :
    fb.Displays (fbDrawChar font fb x y c fore back memory) x y (glyphColor font c fore back) := by
  have placed : ∀ (i o byte : Nat), i < 16 → o < 8 → byte < 4 → (fb.address ((y + i) * fb.pitch + (4 * (x + o) + byte)) : Int) =
      fb.addr + ((y + i) * fb.pitch + (4 * (x + o) + byte)) := fun i o byte row column fewer =>
    row_address inside (by omega) (by omega) (by omega) (by omega)
  intro i row o column write drawn
  obtain ⟨byte, fewer, same⟩ := List.mem_map.mp drawn
  have fewer := List.mem_range.mp fewer
  subst same
  rw [fbDrawChar_writes]
  refine stores_of_forall ?_ ?_
  · exact List.mem_map.mpr ⟨_, (mem_glyphWrites gapless).mpr ⟨i, row, o, column, byte, fewer, rfl⟩, rfl⟩
  · intro write drawn here
    obtain ⟨i', row', o', column', byte', fewer', same⟩ := (mem_glyphWrites gapless).mp drawn
    subst same
    have first := placed i o byte row column fewer
    have second := placed i' o' byte' row' column' fewer'
    obtain ⟨rows, places⟩ := @row_unique fb.pitch (y + i') (y + i) (4 * (x + o') + byte') (4 * (x + o) + byte) (by omega) (by omega)
      (by omega) (by omega) (by simp only at here; omega)
    have same_row : i' = i := by omega
    have same_column : o' = o := by omega
    have same_byte : byte' = byte := by omega
    rw [same_row, same_column, same_byte]

theorem glyph_scrolled {console : Console} {column line : Int} (gapless : fb.pitch = 4 * fb.width)
    (inside : fb.addr + fb.height * fb.pitch ≤ 2 ^ 32) (wide : 32 ≤ fb.width) (tall : 32 ≤ fb.height) (lines : fb.height % 16 = 0)
    (left : 0 ≤ column) (right : column < (consoleInit fb console).width) (top : 0 ≤ line)
    (bottom : line + 1 < (consoleInit fb console).height) :
    fb.Displays (consoleScroll ⟨consoleInit fb console,
        fbDrawChar font fb (column * 8 + (consoleInit fb console).borderX) ((line + 1) * 16 + (consoleInit fb console).borderY)
          c fore back memory⟩).memory
      (column * 8 + (consoleInit fb console).borderX) (line * 16 + (consoleInit fb console).borderY) (glyphColor font c fore back) := by
  have remainder : fb.height.tmod 16 = 0 := by rw [Int.tmod_eq_emod_of_nonneg (by omega), lines]
  have borderX : (consoleInit fb console).borderX = 0 := by
    change (fb.height.tmod 16).tdiv 2 = 0
    rw [remainder, Int.zero_tdiv]
  have borderY : (consoleInit fb console).borderY = 0 := borderX
  have width : (consoleInit fb console).width = fb.width % 2 ^ 32 / 8 := by
    change (fb.width - (fb.height.tmod 16).tdiv 2) % 2 ^ 32 / 8 = _
    rw [remainder, Int.zero_tdiv, Int.sub_zero]
  have height : (consoleInit fb console).height = fb.height / 16 := Int.tdiv_eq_ediv_of_nonneg (by omega)
  rw [width] at right
  rw [height] at bottom
  rw [borderX, borderY, Int.add_zero, Int.add_zero, Int.add_zero]
  intro i row o column_inside write drawn
  have shown := @fbDrawChar_displays fb memory font c fore back (column * 8) ((line + 1) * 16) gapless (by omega) (by omega)
    (by omega) (by omega) inside i row o column_inside
  obtain ⟨byte, fewer, same⟩ := List.mem_map.mp drawn
  have fewer := List.mem_range.mp fewer
  subst same
  have next : line * 16 + i + 16 = (line + 1) * 16 + i := by omega
  have scrolled := @scroll_row ⟨consoleInit fb console, fbDrawChar font fb (column * 8) ((line + 1) * 16) c fore back memory⟩
    (line * 16 + i) (4 * (column * 8 + o) + byte) tall inside borderY (by omega) (by change _ < fb.height; omega) (by omega)
    (by change _ < fb.pitch; omega)
  rw [if_pos (by change _ < fb.height - 16; omega), next] at scrolled
  have pixel := List.forall_mem_map.mp shown byte (List.mem_range.mpr fewer)
  have kept : (consoleInit fb console).fb = fb := rfl
  simp only [kept] at scrolled
  exact scrolled.trans pixel

theorem blocks_eq {Block Item : Type} {blocks : List Block} {first second : Block → List Item}
    (length : ∀ block ∈ blocks, (first block).length = (second block).length) (same : blocks.flatMap first = blocks.flatMap second) :
    ∀ block ∈ blocks, first block = second block := by
  induction blocks with
  | nil => exact List.forall_mem_nil _
  | cons block blocks ih =>
      obtain ⟨here, others⟩ := List.forall_mem_cons.mp length
      obtain ⟨head, tail⟩ := List.append_inj same here
      exact List.forall_mem_cons.mpr ⟨head, ih others tail⟩

theorem pixel_length (fb : Framebuffer) (index : Int) (color : UInt32) : (fb.pixel index color).length = 4 := by
  rw [Framebuffer.pixel, List.length_map, List.length_range]

theorem pitched_length (fb : Framebuffer) (px py : Int) (color : UInt32) : (fb.pitched px py color).length = 4 := by
  rw [Framebuffer.pitched, List.length_map, List.length_range]

/-- The first pixel of the second row shows the distance. -/
theorem StridesAgree.gapless (agree : StridesAgree fb) (wide : 0 ≤ fb.width) (gaps : 4 * fb.width ≤ fb.pitch)
    (long : fb.pitch < 2 ^ 31) : fb.pitch = 4 * fb.width := by
  have length : ∀ i ∈ List.range 16, ((List.range 8).flatMap fun o : Nat => fb.pixel ((0 + (i : Nat)) * fb.width + 0 + o) 0).length =
      ((List.range 8).flatMap fun o : Nat => fb.pitched (0 + o) (0 + i) 0).length := by
    intro i _
    simp only [List.length_flatMap, pixel_length, pitched_length]
  have second := blocks_eq length (agree.glyph 0 0 fun _ _ => 0) 1 (by decide)
  have pixel := blocks_eq (fun o _ => (pixel_length ..).trans (pitched_length ..).symm) second 0 (by decide)
  have place := congrArg (fun writes => writes.head?.map Prod.fst) pixel
  have same : fb.address (4 * ((0 + (1 : Nat)) * fb.width + 0 + (0 : Nat)) + (0 : Nat)) =
      fb.address ((0 + (1 : Nat)) * fb.pitch + (4 * (0 + (0 : Nat)) + (0 : Nat))) := Option.some.inj place
  unfold Framebuffer.address at same
  omega

/-- Drawing and scrolling agree exactly on framebuffers without a gap between the rows. -/
theorem strides_agree_iff (wide : 0 ≤ fb.width) (gaps : 4 * fb.width ≤ fb.pitch) (long : fb.pitch < 2 ^ 31)
    (inside : fb.addr + fb.height * fb.pitch ≤ 2 ^ 32) : StridesAgree fb ↔ fb.pitch = 4 * fb.width := by
  constructor
  · exact fun agree => agree.gapless wide gaps long
  · intro gapless
    refine ⟨fun x y color => ?_, fun console first color same => ?_, ?_⟩
    · simp only [glyphWrites, pixel_pitched gapless]
    · subst same
      have index : ∀ i o : Nat, console.cursorIndex i o =
          (console.y * 16 + console.borderY + i) * console.fb.width + (console.x * 8 + console.borderX) + o := by
        intro i o
        rw [Console.cursorIndex]
        ring
      simp only [Console.cellWrites, index, pixel_pitched gapless]
    · intro wide tall lines console font c fore back memory column line left right top bottom
      exact glyph_scrolled gapless inside wide tall lines left right top bottom

theorem strides_agree_vga : StridesAgree ⟨0xFD000000, 640, 480, 2560⟩ :=
  (strides_agree_iff (by decide) (by decide) (by decide) (by decide)).mpr rfl

/-- Rows of 800 pixels that are padded to 3328 bytes. -/
theorem strides_differ_padded : ¬ StridesAgree ⟨0xFD000000, 800, 608, 3328⟩ := by
  intro agree
  exact absurd (agree.gapless (by decide) (by decide) (by decide)) (by decide)

end BarrelOS.Display
