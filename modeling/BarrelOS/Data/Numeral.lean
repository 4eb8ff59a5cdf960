import Mathlib.Data.Nat.Digits.Lemmas

namespace BarrelOS.Data

/-! Numbers in a base, whose digits above 9 are the letters from A on -/

def digitValue (c : UInt8) : Option Nat :=
  if '0'.toUInt8 ≤ c ∧ c ≤ '9'.toUInt8 then some (c.toNat - '0'.toNat)
  else if 'A'.toUInt8 ≤ c ∧ c ≤ 'Z'.toUInt8 then some (c.toNat - 'A'.toNat + 10)
  else none

def digitByte (digit : Nat) : UInt8 := UInt8.ofNat (if digit < 10 then digit + 48 else digit - 10 + 65)

/-- The number that digits denote in a base, the highest one first. -/
def decode (base acc : Nat) : List UInt8 → Option Nat
  | [] => some acc
  | c :: rest => do
      let digit ← digitValue c
      if digit < base then decode base (acc * base + digit) rest else none

/-- The number of digits, which for zero is one. -/
def digitCount (base val : Nat) : Nat := max 1 (Nat.digits base val).length

/-- The digits of a number, the highest one first, and none fewer than one. -/
def numeral (base val : Nat) : List UInt8 := if val = 0 then ['0'.toUInt8] else ((Nat.digits base val).map digitByte).reverse

/-- The shortest digits that denote a number in a base. -/
structure Notates (base val : Nat) (digits : List UInt8) : Prop where
  decodes : decode base 0 digits = some val
  length : digits.length = digitCount base val
  leading : digits.head? = some '0'.toUInt8 → val = 0

variable {base val acc : Nat} {c : UInt8} {text : List UInt8}

theorem numeral_length : (numeral base val).length = digitCount base val := by
  rw [numeral, digitCount]
  split
  · rename_i zero
    rw [zero, Nat.digits_zero]
    rfl
  · rename_i nonzero
    have some_digit : 0 < (Nat.digits base val).length := List.length_pos_iff.mpr (Nat.digits_ne_nil_iff_ne_zero.mpr nonzero)
    rw [List.length_reverse, List.length_map]
    omega

theorem digitValue_digitByte : ∀ digit < 36, digitValue (digitByte digit) = some digit := by decide

theorem decode_digits {digits : List Nat} (all : ∀ digit ∈ digits, digit < base) (small : base ≤ 36) :
    decode base acc (digits.map digitByte) = some (digits.foldl (fun acc digit => acc * base + digit) acc) := by
  induction digits generalizing acc with
  | nil => rfl
  | cons digit digits ih =>
      obtain ⟨first, others⟩ := List.forall_mem_cons.mp all
      have here := digitValue_digitByte digit (Nat.lt_of_lt_of_le first small)
      simp only [List.map_cons, decode, here, Option.bind_eq_bind, Option.bind_some, if_pos first]
      exact ih others

theorem foldl_digits : (Nat.digits base val).reverse.foldl (fun acc digit => acc * base + digit) 0 = val := by
  have same : Nat.ofDigits base (Nat.digits base val) = val := Nat.ofDigits_digits base val
  rw [Nat.ofDigits_eq_foldr] at same
  rw [List.foldl_reverse]
  simpa only [Nat.cast_id, Nat.mul_comm, Nat.add_comm] using same

theorem decode_padding (positive : 0 < base) (count : Nat) :
    decode base 0 (List.replicate count '0'.toUInt8 ++ text) = decode base 0 text := by
  induction count with
  | zero => rfl
  | succ count ih =>
      have zero : digitValue '0'.toUInt8 = some 0 := by decide
      simp only [List.replicate_succ, List.cons_append, decode, zero, Option.bind_eq_bind, Option.bind_some, if_pos positive,
        Nat.zero_mul]
      exact ih

theorem numeral_notates (large : 1 < base) (small : base ≤ 36) : Notates base val (numeral base val) where
  decodes := by
    rw [numeral]
    split
    · rename_i zero
      rw [zero]
      exact decode_padding (Nat.zero_lt_of_lt large) 1
    · have all : ∀ digit ∈ (Nat.digits base val).reverse, digit < base := fun digit member =>
        Nat.digits_lt_base large (List.mem_reverse.mp member)
      rw [← List.map_reverse, decode_digits all small, foldl_digits]
  length := numeral_length
  leading := by
    intro leads
    by_contra nonzero
    have some_digit := Nat.digits_ne_nil_iff_ne_zero (b := base) |>.mpr nonzero
    have highest : (Nat.digits base val).getLast some_digit < 36 :=
      Nat.lt_of_lt_of_le (Nat.digits_lt_base large (List.getLast_mem some_digit)) small
    rw [numeral, if_neg nonzero, List.head?_reverse, List.getLast?_map, List.getLast?_eq_getLast_of_ne_nil some_digit] at leads
    have zero : ∀ digit < 36, digitByte digit = '0'.toUInt8 → digit = 0 := by decide
    exact Nat.getLast_digit_ne_zero base nonzero (zero _ highest (Option.some_inj.mp leads))

theorem decode_ge (positive : 0 < base) (decodes : decode base acc text = some val) : acc ≤ val := by
  induction text generalizing acc with
  | nil => exact Nat.le_of_eq (Option.some_inj.mp decodes)
  | cons c text ih =>
      obtain ⟨digit, _, rest⟩ := Option.bind_eq_some_iff.mp decodes
      split at rest
      · have larger : acc ≤ acc * base := Nat.le_mul_of_pos_right acc positive
        exact Nat.le_trans (Nat.le_trans larger (Nat.le_add_right _ digit)) (ih rest)
      · cases rest

end BarrelOS.Data
