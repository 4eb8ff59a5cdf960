import Mathlib.Logic.Function.Basic
import Mathlib.Algebra.Group.Nat.Defs

namespace BarrelOS.Memory

/-- The bytes from `pmm_bitmap` on. The array is unbounded: what the source
reads or writes behind the end of the bitmap is memory as well. -/
abbrev Bitmap := Nat → BitVec 8

def bitmapSet (bitmap : Bitmap) (bit : Nat) : Bitmap :=
  Function.update bitmap (bit / 8) (bitmap (bit / 8) ||| 1#8 <<< (bit % 8))

def bitmapClear (bitmap : Bitmap) (bit : Nat) : Bitmap :=
  Function.update bitmap (bit / 8) (bitmap (bit / 8) &&& ~~~(1#8 <<< (bit % 8)))

def bitmapGet (bitmap : Bitmap) (bit : Nat) : Bool :=
  bitmap (bit / 8) &&& 1#8 <<< (bit % 8) != 0#8

private theorem getLsbD_one_shift (shift index : Nat) (bound : shift < 8) :
    (1#8 <<< shift).getLsbD index = decide (index = shift) := by
  rw [Bool.eq_iff_iff]
  simp only [BitVec.getLsbD_shiftLeft, BitVec.getLsbD_one, Bool.and_eq_true, Bool.not_eq_true',
    decide_eq_true_eq, decide_eq_false_iff_not]
  omega

theorem bitmapGet_eq_getLsbD (bitmap : Bitmap) (bit : Nat) :
    bitmapGet bitmap bit = (bitmap (bit / 8)).getLsbD (bit % 8) := by
  have bound : bit % 8 < 8 := Nat.mod_lt _ (by decide)
  cases read : (bitmap (bit / 8)).getLsbD (bit % 8) with
  | true =>
      have differs : bitmap (bit / 8) &&& 1#8 <<< (bit % 8) ≠ 0#8 := by
        intro zero
        have at_bit := congrArg (fun byte => byte.getLsbD (bit % 8)) zero
        simp [getLsbD_one_shift _ _ bound, read] at at_bit
      simpa [bitmapGet] using differs
  | false =>
      have zero : bitmap (bit / 8) &&& 1#8 <<< (bit % 8) = 0#8 := by
        apply BitVec.eq_of_getLsbD_eq
        intro index _
        by_cases same : index = bit % 8
        · simp [same, read]
        · simp [getLsbD_one_shift _ _ bound, same]
      simp [bitmapGet, zero]

@[simp] theorem bitmapGet_bitmapSet (bitmap : Bitmap) (bit other : Nat) :
    bitmapGet (bitmapSet bitmap bit) other = (bitmapGet bitmap other || decide (other = bit)) := by
  have bound : bit % 8 < 8 := Nat.mod_lt _ (by decide)
  simp only [bitmapGet_eq_getLsbD, bitmapSet]
  by_cases byte : other / 8 = bit / 8
  · rw [byte, Function.update_self, BitVec.getLsbD_or, getLsbD_one_shift _ _ bound]
    have same : other % 8 = bit % 8 ↔ other = bit := by omega
    simp only [same]
  · have differs : other ≠ bit := fun same => byte (by rw [same])
    simp [Function.update_of_ne byte, differs]

@[simp] theorem bitmapGet_bitmapClear (bitmap : Bitmap) (bit other : Nat) :
    bitmapGet (bitmapClear bitmap bit) other = (bitmapGet bitmap other && decide (other ≠ bit)) := by
  have bound : bit % 8 < 8 := Nat.mod_lt _ (by decide)
  have otherBound : other % 8 < 8 := Nat.mod_lt _ (by decide)
  simp only [bitmapGet_eq_getLsbD, bitmapClear]
  by_cases byte : other / 8 = bit / 8
  · rw [byte, Function.update_self, BitVec.getLsbD_and, BitVec.getLsbD_not,
      getLsbD_one_shift _ _ bound]
    have same : other % 8 = bit % 8 ↔ other = bit := by omega
    simp only [same, otherBound, decide_true, Bool.true_and, ne_eq, decide_not]
  · have differs : other ≠ bit := fun same => byte (by rw [same])
    simp [Function.update_of_ne byte, differs]

theorem bitmap_ext {left right : Bitmap}
    (bits : ∀ bit, bitmapGet left bit = bitmapGet right bit) : left = right := by
  funext byte
  apply BitVec.eq_of_getLsbD_eq
  intro index bound
  have at_bit := bits (byte * 8 + index)
  have quotient : (byte * 8 + index) / 8 = byte := by omega
  have remainder : (byte * 8 + index) % 8 = index := by omega
  simpa only [bitmapGet_eq_getLsbD, quotient, remainder] using at_bit

end BarrelOS.Memory
