import BarrelOS.Lib.Writes

namespace BarrelOS.Lib

open BarrelOS.Data BarrelOS.Semantics

/-! Numbers that `parse_num` writes to memory, and what `atoi` reads of them -/

/-- The memory with the text in it, and `*ptr`. -/
structure Rendering where
  memory : Bytes
  ptr : Int

/-- `s[(*ptr)++] = c`. -/
def Rendering.sink (s : Nat) : Sink Rendering UInt8 where
  index := Rendering.ptr
  limit := 2 ^ 31
  store := fun c state => ⟨Function.update state.memory ((s + state.ptr) % 2 ^ 32).toNat c, state.ptr + 1⟩
  index_store := fun _ _ => rfl

def parseNumAt (fuel s val base : Nat) (width : Int) (zeroPadding : Bool) (state : Rendering) : Outcome Rendering Unit :=
  parseNum (Rendering.sink s) fuel val base width zeroPadding state

/-- The writes of a text from an index of `s` on. -/
def placed (s : Nat) (ptr : Int) : List UInt8 → List (Nat × UInt8)
  | [] => []
  | c :: text => (((s + ptr) % 2 ^ 32).toNat, c) :: placed s (ptr + 1) text

def Rendering.puts (s : Nat) (text : List UInt8) (state : Rendering) : Rendering :=
  ⟨stores state.memory (placed s state.ptr text), state.ptr + text.length⟩

/-- `parse_num` returns, and has written a number padded to a width, which `atoi` reads back. -/
structure RendersNumber (s val base : Nat) (width : Int) (zeroPadding : Bool) (before : Rendering) (text : List UInt8) : Prop where
  written : ∃ enough, ∀ fuel ≥ enough, parseNumAt fuel s val base width zeroPadding before = .done () (before.puts s text)
  length : (text.length : Int) = max width (digitCount base val)
  shape : ∃ digits, Notates base val digits ∧ text = padding (width - digits.length) zeroPadding ++ digits
  reads : base = 10 → val < 2 ^ 31 → zeroPadding = true ∨ width ≤ digitCount base val → ∀ stop rest, ¬ isDigit (UInt8.toNat stop) →
    atoi 0 (text ++ stop :: rest) = some val

variable {s base val fuel : Nat} {width : Int} {c : UInt8} {state after : Rendering} {text more : List UInt8}
  {zeroPadding : Bool}

theorem placed_append {ptr : Int} : placed s ptr (text ++ more) = placed s ptr text ++ placed s (ptr + text.length) more := by
  induction text generalizing ptr with
  | nil => simp [placed]
  | cons c text ih =>
      have shifted : ptr + (c :: text).length = ptr + 1 + text.length := by
        rw [List.length_cons]
        omega
      simp only [List.cons_append, placed, ih, shifted]

namespace Rendering

theorem puts_nil : state.puts s [] = state := by simp [puts, placed, stores]

theorem puts_append : state.puts s (text ++ more) = (state.puts s text).puts s more := by
  simp only [puts, placed_append, stores_append, List.length_append, Nat.cast_add, add_assoc]

theorem sink_write : (sink s).write text state = state.puts s text := by
  induction text generalizing state with
  | nil => exact puts_nil.symm
  | cons c text ih =>
      have once : (sink s).store c state = state.puts s [c] := rfl
      have rest : (sink s).write (c :: text) state = (sink s).write text ((sink s).store c state) := rfl
      rw [rest, ih, once, ← puts_append]
      rfl

end Rendering

/-! What `atoi` reads -/

theorem digitValue_decimal {digit : Nat} (denotes : digitValue c = some digit) (decimal : digit < 10) :
    isDigit c.toNat ∧ c.toNat = digit + 48 := by
  unfold digitValue at denotes
  split at denotes
  · rename_i range
    have digits : isDigit c.toNat := ⟨UInt8.le_iff_toNat_le.mp range.1, UInt8.le_iff_toNat_le.mp range.2⟩
    have least : 48 ≤ c.toNat := digits.1
    have value : c.toNat - 48 = digit := Option.some_inj.mp denotes
    exact ⟨digits, by omega⟩
  split at denotes
  · have value : c.toNat - 65 + 10 = digit := Option.some_inj.mp denotes
    omega
  · cases denotes

theorem atoi_decode {acc : Nat} {stop : UInt8} {rest : List UInt8} (decodes : decode 10 acc text = some val)
    (int : val < 2 ^ 31) (apart : ¬ isDigit stop.toNat) : atoi acc (text ++ stop :: rest) = some (val : Int) := by
  induction text generalizing acc with
  | nil =>
      rw [List.nil_append, atoi, if_neg apart, Option.some_inj.mp decodes]
  | cons c text ih =>
      obtain ⟨digit, denotes, later⟩ := Option.bind_eq_some_iff.mp decodes
      split at later
      · rename_i decimal
        obtain ⟨digits, value⟩ := digitValue_decimal denotes decimal
        have bound := decode_ge (by decide) later
        have shifted : checkInt ((acc : Int) * 10) = some ((acc : Int) * 10) := if_pos (by omega)
        have added : checkInt ((acc : Int) * 10 + (c.toNat - 48)) = some ((acc * 10 + digit : Nat) : Int) := by
          have sum : (acc : Int) * 10 + (c.toNat - 48) = (acc * 10 + digit : Nat) := by omega
          rw [sum, checkInt, if_pos (by omega)]
        simp only [List.cons_append, atoi, if_pos digits, Option.bind_eq_bind, Option.bind_some, shifted, added]
        exact ih later
      · cases later

theorem numberText_decimal (filled : zeroPadding = true ∨ width ≤ digitCount 10 val) :
    ∃ count, numberText 10 val width zeroPadding = List.replicate count '0'.toUInt8 ++ numeral 10 val := by
  rw [numberText, padding]
  rcases filled with rfl | narrow
  · exact ⟨_, rfl⟩
  · have none : (width - digitCount 10 val).toNat = 0 := by omega
    exact ⟨0, by rw [none]; rfl⟩

theorem numberText_reads {stop : UInt8} {rest : List UInt8} (int : val < 2 ^ 31) (filled : zeroPadding = true ∨ width ≤ digitCount 10 val)
    (apart : ¬ isDigit stop.toNat) : atoi 0 (numberText 10 val width zeroPadding ++ stop :: rest) = some (val : Int) := by
  have notates : Notates 10 val (numeral 10 val) := numeral_notates (by decide) (by decide)
  obtain ⟨count, same⟩ := numberText_decimal filled
  rw [same]
  exact atoi_decode ((decode_padding (by decide) count).trans notates.decodes) int apart

/-! What `parse_num` writes -/

theorem numberText_length : ((numberText base val width zeroPadding).length : Int) = max width (digitCount base val) := by
  rw [numberText, padding, List.length_append, List.length_replicate, numeral_length]
  omega

section

variable (large : 1 < base) (word : val < 2 ^ 32) (least : -2 ^ 31 ≤ width) (int : state.ptr < 2 ^ 31)
include large word least int

theorem parseNumAt_fits (run : parseNumAt fuel s val base width zeroPadding state = .done () after) :
    -2 ^ 31 + (Nat.digits base val).length < width ∧ state.ptr + max width (digitCount base val) < 2 ^ 31 := by
  have few := digits_length_le large word
  by_cases above : -2 ^ 31 + (Nat.digits base val).length < width
  · have emits : (Rendering.sink s).Emits (fun fuel => parseNumAt fuel s val base width zeroPadding state) state _ :=
      parseNum_emits large few above int
    have room : state.ptr + ((numberText base val width zeroPadding).length : Int) < 2 ^ 31 := (emits.room run).1
    rw [numberText_length] at room
    exact ⟨above, room⟩
  · exact absurd run (parseNum_halts large few least (Int.not_lt.mp above))

theorem RendersNumber.fits (renders : RendersNumber s val base width zeroPadding state text) :
    -2 ^ 31 + (Nat.digits base val).length < width ∧ state.ptr + max width (digitCount base val) < 2 ^ 31 := by
  obtain ⟨enough, written⟩ := renders.written
  exact parseNumAt_fits large word least int (written enough (Nat.le_refl _))

end

/-- `parse_num` renders a number unless the count of its padding or `*ptr` overflows an `int`. -/
theorem parseNum_renders (large : 2 ≤ base) (small : base ≤ 36) (word : val < 2 ^ 32) (least : -2 ^ 31 ≤ width)
    (int : state.ptr < 2 ^ 31) :
    (∃ text, RendersNumber s val base width zeroPadding state text) ↔
      -2 ^ 31 + (Nat.digits base val).length < width ∧ state.ptr + max width (digitCount base val) < 2 ^ 31 := by
  constructor
  · rintro ⟨text, renders⟩
    exact renders.fits large word least int
  · rintro ⟨above, room⟩
    have emits : (Rendering.sink s).Emits (fun fuel => parseNumAt fuel s val base width zeroPadding state) state _ :=
      parseNum_emits large (digits_length_le large word) above int
    refine ⟨numberText base val width zeroPadding, ?_, numberText_length, ?_, ?_⟩
    · obtain ⟨enough, written⟩ := emits.returns (numberText_length.symm ▸ room)
      exact ⟨enough, fun fuel more => Rendering.sink_write ▸ written fuel more⟩
    · refine ⟨numeral base val, numeral_notates large small, ?_⟩
      rw [numberText, numeral_length]
    · rintro rfl int filled stop rest apart
      exact numberText_reads int filled apart

/-- The answer in five places, filled with zeros. -/
theorem parseNum_renders_answer : ∃ text, RendersNumber 0x1000 42 10 5 true ⟨fun _ => 0, 0⟩ text :=
  (parseNum_renders (by decide) (by decide) (by decide) (by decide) (by decide)).mpr ⟨by simp, by simp [digitCount]⟩

/-- The least width: the count of the padding for a single digit is no `int`. -/
theorem parseNum_overflows : ¬ ∃ text, RendersNumber 0x1000 1 10 (-2 ^ 31) false ⟨fun _ => 0, 0⟩ text := by
  rintro ⟨text, renders⟩
  have fits := renders.fits (by decide) (by decide) (by decide) (by decide)
  exact absurd fits.1 (by simp)

end BarrelOS.Lib
