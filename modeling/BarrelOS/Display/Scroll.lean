import BarrelOS.Display.Console
import BarrelOS.Lib.Memory

namespace BarrelOS.Display

open BarrelOS.Data BarrelOS.Lib

/-! What `console_scroll` reads, writes and moves -/

namespace Screen

def scrollReads (screen : Screen) : List Nat :=
  let fb := screen.console.fb
  addresses (fb.address ((16 + screen.console.borderY) * fb.pitch)) ((fb.height - 16) * fb.pitch % 2 ^ 32).toNat

def scrollWrites (screen : Screen) : List Nat :=
  let fb := screen.console.fb
  addresses (fb.address (fb.pitch * screen.console.borderY)) ((fb.height - 16) * fb.pitch % 2 ^ 32).toNat ++
    addresses (fb.address ((fb.height - 16 - screen.console.borderY) * fb.pitch)) (16 * fb.pitch % 2 ^ 32).toNat

/-- The byte at an offset in a pixel row of a line of text. -/
def textByte (screen : Screen) (line row offset : Int) : Nat :=
  let fb := screen.console.fb
  fb.address ((screen.console.borderY + 16 * line + row) * fb.pitch + offset)

end Screen

namespace Framebuffer

/-- Pixels in memory, with room for two lines of text and rows without a gap. -/
structure Placed (fb : Framebuffer) : Prop where
  present : 0 < fb.addr
  wide : 0 ≤ fb.width
  high : 32 ≤ fb.height
  gapless : fb.pitch = 4 * fb.width
  inside : fb.addr + fb.height * fb.pitch ≤ 2 ^ 32

def Owns (fb : Framebuffer) (place : Nat) : Prop := fb.addr ≤ place ∧ place < fb.addr + fb.height * fb.pitch

def BottomBlack (fb : Framebuffer) (memory : Bytes) : Prop :=
  ∀ offset : Int, 0 ≤ offset → offset < fb.pitch → memory (fb.address ((fb.height - 1) * fb.pitch + offset)) = 0

end Framebuffer

/-- The lines of text move up by one, the last one is black, and only the framebuffer is touched. -/
structure ScrollsUp (screen : Screen) : Prop where
  reads : ∀ place ∈ screen.scrollReads, screen.console.fb.Owns place
  writes : ∀ place ∈ screen.scrollWrites, screen.console.fb.Owns place
  moved : ∀ line row offset : Int, 0 ≤ line → line < screen.console.fb.height / 16 - 1 → 0 ≤ row → row < 16 → 0 ≤ offset →
    offset < screen.console.fb.pitch →
      (consoleScroll screen).memory (screen.textByte line row offset) = screen.memory (screen.textByte (line + 1) row offset)
  cleared : ∀ row offset : Int, 0 ≤ row → row < 16 → 0 ≤ offset → offset < screen.console.fb.pitch →
    (consoleScroll screen).memory (screen.textByte (screen.console.fb.height / 16 - 1) row offset) = 0

variable {screen other : Screen} {fb : Framebuffer} {memory : Bytes} {line row offset : Int} {place : Nat}

theorem consoleScroll_outside (outside : place ∉ screen.scrollWrites) :
    (consoleScroll screen).memory place = screen.memory place := by
  obtain ⟨uncopied, uncleared⟩ := not_or.mp (mt List.mem_append.mpr outside)
  exact (memset_outside uncleared).trans (memcpy_outside uncopied)

/-- What is written depends on what is read only. -/
theorem consoleScroll_congr (console : other.console = screen.console)
    (same : ∀ place ∈ screen.scrollReads, screen.memory place = other.memory place) (written : place ∈ screen.scrollWrites) :
    (consoleScroll screen).memory place = (consoleScroll other).memory place := by
  obtain ⟨_, memory⟩ := other
  subst console
  unfold consoleScroll
  by_cases cleared : place ∈ addresses (screen.console.fb.address
      ((screen.console.fb.height - 16 - screen.console.borderY) * screen.console.fb.pitch)) (16 * screen.console.fb.pitch % 2 ^ 32).toNat
  · exact memset_covers cleared
  · have copied := (List.mem_append.mp written).resolve_right cleared
    simp only [memset_outside cleared]
    exact memcpy_congr same copied

/-! Rows -/

theorem address_eq (lower : 0 ≤ offset) (upper : fb.addr + offset < 2 ^ 32) : (fb.address offset : Int) = fb.addr + offset := by
  unfold Framebuffer.address
  omega

theorem row_address (inside : fb.addr + fb.height * fb.pitch ≤ 2 ^ 32) (top : 0 ≤ row) (bottom : row < fb.height)
    (left : 0 ≤ offset) (right : offset < fb.pitch) :
    (fb.address (row * fb.pitch + offset) : Int) = fb.addr + (row * fb.pitch + offset) := by
  have gaps : 0 ≤ fb.pitch := by omega
  have below : (row + 1) * fb.pitch ≤ fb.height * fb.pitch := Int.mul_le_mul_of_nonneg_right bottom gaps
  have above : 0 ≤ row * fb.pitch := Int.mul_nonneg top gaps
  rw [Int.add_mul, Int.one_mul] at below
  exact address_eq (by omega) (by omega)

section

variable (tall : 32 ≤ screen.console.fb.height)
  (inside : screen.console.fb.addr + screen.console.fb.height * screen.console.fb.pitch ≤ 2 ^ 32)
  (border : screen.console.borderY = 0)
include tall inside border

/-- Without a border a row gets what was sixteen rows below, and the last sixteen become black. -/
theorem scroll_row (top : 0 ≤ row) (bottom : row < screen.console.fb.height) (left : 0 ≤ offset)
    (right : offset < screen.console.fb.pitch) :
    (consoleScroll screen).memory (screen.console.fb.address (row * screen.console.fb.pitch + offset)) =
      if row < screen.console.fb.height - 16 then
        screen.memory (screen.console.fb.address ((row + 16) * screen.console.fb.pitch + offset))
      else 0 := by
  obtain ⟨⟨_, _, _, _, _, borderY, _, _, fb⟩, memory⟩ := screen
  subst border
  simp only [consoleScroll] at *
  have gaps : 0 ≤ fb.pitch := by omega
  have below : (row + 1) * fb.pitch ≤ fb.height * fb.pitch := Int.mul_le_mul_of_nonneg_right bottom gaps
  have above : 0 ≤ row * fb.pitch := Int.mul_nonneg top gaps
  have most : 32 * fb.pitch ≤ fb.height * fb.pitch := Int.mul_le_mul_of_nonneg_right tall gaps
  have size : (fb.height - 16) * fb.pitch = fb.height * fb.pitch - 16 * fb.pitch := Int.sub_mul ..
  have next : (row + 16) * fb.pitch = row * fb.pitch + 16 * fb.pitch := Int.add_mul ..
  have target : (fb.address (fb.pitch * 0) : Int) = fb.addr + fb.pitch * 0 := address_eq (by omega) (by omega)
  have source : (fb.address ((16 + 0) * fb.pitch) : Int) = fb.addr + (16 + 0) * fb.pitch := address_eq (by omega) (by omega)
  have last : (fb.height - 16 - 0) * fb.pitch = fb.height * fb.pitch - 16 * fb.pitch := by rw [Int.sub_zero, size]
  have black : (fb.address ((fb.height - 16 - 0) * fb.pitch) : Int) = fb.addr + (fb.height - 16 - 0) * fb.pitch :=
    address_eq (by omega) (by omega)
  have here := row_address inside top bottom left right
  rw [memset_apply (by omega), memcpy_apply (by omega) (by omega) (.inl (by omega))]
  by_cases upper : row < fb.height - 16
  · have rows : (row + 1) * fb.pitch ≤ (fb.height - 16) * fb.pitch := Int.mul_le_mul_of_nonneg_right upper gaps
    rw [Int.add_mul, Int.one_mul, size] at rows
    have source_here := row_address inside (by omega : 0 ≤ row + 16) (by omega) left right
    rw [if_pos upper, if_neg (by omega), if_pos (by omega)]
    refine congrArg memory ?_
    omega
  · have rows : (fb.height - 16) * fb.pitch ≤ row * fb.pitch := Int.mul_le_mul_of_nonneg_right (by omega) gaps
    rw [Int.add_mul, Int.one_mul] at below
    rw [if_neg upper, if_pos (by omega)]

theorem scroll_line (top : 0 ≤ 16 * line + row) (bottom : 16 * line + row < screen.console.fb.height) (left : 0 ≤ offset)
    (right : offset < screen.console.fb.pitch) :
    (consoleScroll screen).memory (screen.textByte line row offset) =
      if 16 * line + row < screen.console.fb.height - 16 then screen.memory (screen.textByte (line + 1) row offset) else 0 := by
  have here : screen.console.borderY + 16 * line + row = 16 * line + row := by omega
  have next : screen.console.borderY + 16 * (line + 1) + row = 16 * line + row + 16 := by omega
  simp only [Screen.textByte, here, next]
  exact scroll_row tall inside border top bottom left right

end

/-! Which heights fit -/

section

variable (placed : screen.console.fb.Placed)
include placed

/-- Below a border the copy reads on behind the framebuffer. -/
theorem scrollReads_behind (wide : 0 < screen.console.fb.width) (border : 0 < screen.console.borderY)
    (low : screen.console.borderY ≤ 7) : ∃ place ∈ screen.scrollReads, ¬ screen.console.fb.Owns place := by
  obtain ⟨present, _, high, gapless, inside⟩ := placed
  obtain ⟨⟨_, _, _, _, _, borderY, _, _, fb⟩, memory⟩ := screen
  simp only [Screen.scrollReads] at *
  have gaps : 0 < fb.pitch := by omega
  have rows : 0 < borderY * fb.pitch := Int.mul_pos border gaps
  have few : borderY * fb.pitch ≤ 7 * fb.pitch := Int.mul_le_mul_of_nonneg_right low (Int.le_of_lt gaps)
  have most : 32 * fb.pitch ≤ fb.height * fb.pitch := Int.mul_le_mul_of_nonneg_right high (Int.le_of_lt gaps)
  have size : (fb.height - 16) * fb.pitch = fb.height * fb.pitch - 16 * fb.pitch := Int.sub_mul ..
  have start : (16 + borderY) * fb.pitch = 16 * fb.pitch + borderY * fb.pitch := Int.add_mul ..
  refine ⟨_, mem_addresses.mpr ⟨(fb.height * fb.pitch - (16 + borderY) * fb.pitch).toNat, by omega, rfl⟩, fun owned => ?_⟩
  obtain ⟨lower, upper⟩ := owned
  have source : (fb.address ((16 + borderY) * fb.pitch) : Int) = fb.addr + (16 + borderY) * fb.pitch :=
    address_eq (by omega) (by omega)
  omega

theorem owns_addresses {n : Nat} (lower : 0 ≤ offset)
    (upper : offset + n ≤ screen.console.fb.height * screen.console.fb.pitch)
    (member : place ∈ addresses (screen.console.fb.address offset) n) : screen.console.fb.Owns place := by
  obtain ⟨i, fewer, same⟩ := mem_addresses.mp member
  have inside := placed.inside
  have start : (screen.console.fb.address offset : Int) = screen.console.fb.addr + offset := address_eq lower (by omega)
  unfold Framebuffer.Owns
  omega

theorem scroll_owned (border : screen.console.borderY = 0) (place : Nat)
    (touched : place ∈ screen.scrollReads ∨ place ∈ screen.scrollWrites) : screen.console.fb.Owns place := by
  have most : 32 * screen.console.fb.pitch ≤ screen.console.fb.height * screen.console.fb.pitch := by
    have gaps := placed.gapless
    have wide := placed.wide
    exact Int.mul_le_mul_of_nonneg_right placed.high (by omega)
  have inside := placed.inside
  have gapless := placed.gapless
  have wide := placed.wide
  have size : (screen.console.fb.height - 16) * screen.console.fb.pitch =
      screen.console.fb.height * screen.console.fb.pitch - 16 * screen.console.fb.pitch := Int.sub_mul ..
  simp only [Screen.scrollReads, Screen.scrollWrites, List.mem_append, border, Int.add_zero, Int.sub_zero, Int.mul_zero] at touched
  rcases touched with read | copied | cleared
  · exact owns_addresses placed (by omega) (by omega) read
  · exact owns_addresses placed (by omega) (by omega) copied
  · exact owns_addresses placed (by omega) (by omega) cleared

theorem ScrollsUp.unbordered (scrolls : ScrollsUp screen) (wide : 0 < screen.console.fb.width)
    (border : screen.console.borderY = screen.console.fb.height % 16 / 2) : screen.console.borderY = 0 := by
  by_contra bordered
  obtain ⟨place, read, behind⟩ := scrollReads_behind placed wide (by omega) (by omega)
  exact behind (scrolls.reads place read)

/-- With one row below the text, that row is copied to the first row of the last line. -/
theorem scrollsUp_iff_black (unbordered : screen.console.borderY = 0) (spare : screen.console.fb.height % 16 ≤ 1) :
    ScrollsUp screen ↔ screen.console.fb.height % 16 = 0 ∨ screen.console.fb.BottomBlack screen.memory := by
  have tall := placed.high
  have bottomRow : ∀ row, 16 * (screen.console.fb.height / 16 - 1) + row < screen.console.fb.height - 16 → 0 ≤ row →
      screen.console.fb.height % 16 = 1 ∧
        screen.console.borderY + 16 * (screen.console.fb.height / 16 - 1 + 1) + row = screen.console.fb.height - 1 := by
    intro row upper top
    omega
  constructor
  · intro scrolls
    refine or_iff_not_imp_left.mpr fun rest offset left right => ?_
    have upper : 16 * (screen.console.fb.height / 16 - 1) + 0 < screen.console.fb.height - 16 := by omega
    have black := scrolls.cleared 0 offset (by decide) (by decide) left right
    rwa [scroll_line tall placed.inside unbordered (by omega) (by omega) left right, if_pos upper, Screen.textByte,
      (bottomRow 0 upper (Int.le_refl 0)).2] at black
  · intro fits
    refine ⟨fun place read => scroll_owned placed unbordered place (.inl read),
      fun place written => scroll_owned placed unbordered place (.inr written), ?_, ?_⟩
    · intro line row offset first last top bottom left right
      rw [scroll_line tall placed.inside unbordered (by omega) (by omega) left right, if_pos (by omega)]
    · intro row offset top bottom left right
      rw [scroll_line tall placed.inside unbordered (by omega) (by omega) left right]
      split
      · next upper =>
          obtain ⟨one, last⟩ := bottomRow row upper top
          rw [Screen.textByte, last]
          exact (fits.resolve_left (by omega)) offset left right
      · rfl

theorem scrollsUp_empty (empty : screen.console.fb.width = 0) : ScrollsUp screen := by
  have gapless : screen.console.fb.pitch = 0 := by rw [placed.gapless, empty, Int.mul_zero]
  refine ⟨?_, ?_, ?_, ?_⟩
  · simp [Screen.scrollReads, gapless, addresses]
  · simp [Screen.scrollWrites, gapless, addresses]
  · intro _ _ offset _ _ _ _ left right
    omega
  · intro _ offset _ _ left right
    omega

end

/-- Scrolling moves the text and touches only the framebuffer exactly if the height leaves no
border, and no black row below the text is needed or there is one. -/
theorem console_scroll_iff (placed : screen.console.fb.Placed)
    (border : screen.console.borderY = screen.console.fb.height % 16 / 2) :
    ScrollsUp screen ↔ screen.console.fb.width = 0 ∨ screen.console.fb.height % 16 = 0 ∨
      screen.console.fb.height % 16 = 1 ∧ screen.console.fb.BottomBlack screen.memory := by
  obtain empty | wide : screen.console.fb.width = 0 ∨ 0 < screen.console.fb.width := by
    have wide := placed.wide
    omega
  · exact iff_of_true (scrollsUp_empty placed empty) (.inl empty)
  · constructor
    · intro scrolls
      have unbordered := scrolls.unbordered placed wide border
      have spare : screen.console.fb.height % 16 ≤ 1 := by omega
      obtain whole | black := (scrollsUp_iff_black placed unbordered spare).mp scrolls
      · exact .inr (.inl whole)
      · by_cases whole : screen.console.fb.height % 16 = 0
        · exact .inr (.inl whole)
        · exact .inr (.inr ⟨by omega, black⟩)
    · intro fits
      refine (scrollsUp_iff_black placed (by omega) (by omega)).mpr ?_
      obtain none | whole | ⟨_, black⟩ := fits
      · omega
      · exact .inl whole
      · exact .inr black

def whiteScreen (height : Int) : Screen :=
  ⟨consoleInit ⟨0xFD000000, 800, height, 3200⟩ ⟨0, 0, 0, 0, 0, 0, 0, 0, ⟨0, 0, 0, 0⟩⟩, fun _ => 0xFF⟩

theorem console_scroll_tall : ScrollsUp (whiteScreen 480) :=
  (console_scroll_iff ⟨by decide, by decide, by decide, by decide, by decide⟩ rfl).mpr (.inr (.inl rfl))

/-- With 600 rows the border is of four, and as many rows are read behind the framebuffer. -/
theorem scroll_reads_behind : ¬ ScrollsUp (whiteScreen 600) := by
  intro scrolls
  have placed : (whiteScreen 600).console.fb.Placed := ⟨by decide, by decide, by decide, by decide, by decide⟩
  obtain ⟨place, read, behind⟩ := scrollReads_behind placed (by decide) (by decide) (by decide)
  exact behind (scrolls.reads place read)

end BarrelOS.Display
