import Mathlib.Algebra.Group.Nat.Defs

namespace BarrelOS.Data

/-! A 32-bit word with a page address in its upper twenty bits and flags in its
lower twelve. -/

variable {word flags mask : Nat}

def pageBase (word : Nat) : Nat := word &&& 0xFFFFF000

def pageFlags (word : Nat) : Nat := word &&& 0xFFF

theorem pageFlags_eq_mod (word : Nat) : pageFlags word = word % 4096 :=
  Nat.and_two_pow_sub_one_eq_mod word 12

theorem pageBase_of_flags (small : flags < 4096) : pageBase flags = 0 := by
  have kept : flags &&& 0xFFF = flags := (pageFlags_eq_mod flags).trans (Nat.mod_eq_of_lt small)
  have apart : 0xFFF &&& 0xFFFFF000 = 0 := by decide
  rw [pageBase, ← kept, Nat.and_assoc, apart, Nat.and_zero]

theorem pageBase_of_aligned (bound : word < 2 ^ 32) (aligned : word % 4096 = 0) :
    pageBase word = word := by
  have none : word &&& 0xFFF = 0 := (pageFlags_eq_mod word).trans aligned
  have whole : word &&& (0xFFFFF000 ||| 0xFFF) = word :=
    (Nat.and_two_pow_sub_one_eq_mod word 32).trans (Nat.mod_eq_of_lt bound)
  rw [Nat.and_or_distrib_left, none, Nat.or_zero] at whole
  exact whole

theorem pageBase_eq (bound : word < 2 ^ 32) : pageBase word = word / 4096 * 4096 := by
  have small : word % 4096 < 2 ^ 12 := Nat.mod_lt _ (by decide)
  have parts : word = word / 4096 * 4096 ||| word % 4096 := by
    calc
      word = 2 ^ 12 * (word / 4096) + word % 4096 := by omega
      _ = 2 ^ 12 * (word / 4096) ||| word % 4096 := Nat.two_pow_add_eq_or_of_lt small _
      _ = word / 4096 * 4096 ||| word % 4096 := by rw [Nat.mul_comm]
  calc
    pageBase word = pageBase (word / 4096 * 4096 ||| word % 4096) := by rw [← parts]
    _ = pageBase (word / 4096 * 4096) ||| pageBase (word % 4096) := Nat.and_or_distrib_right ..
    _ = word / 4096 * 4096 := by
      rw [pageBase_of_aligned (by omega) (by omega), pageBase_of_flags small, Nat.or_zero]

theorem pageBase_and_mask (small : mask < 4096) : pageBase word &&& mask = 0 := by
  rw [pageBase, Nat.and_assoc, Nat.and_comm _ mask]
  exact (congrArg (word &&& ·) (pageBase_of_flags small)).trans (Nat.and_zero _)

theorem pageBase_pageBase : pageBase (pageBase word) = pageBase word := by
  rw [pageBase, pageBase, Nat.and_assoc, Nat.and_self]

theorem pageBase_or_flags (small : flags < 4096) : pageBase (pageBase word ||| flags) = pageBase word := by
  calc
    pageBase (pageBase word ||| flags) = pageBase (pageBase word) ||| pageBase flags :=
      Nat.and_or_distrib_right ..
    _ = pageBase word := by rw [pageBase_pageBase, pageBase_of_flags small, Nat.or_zero]

theorem or_flags_and_mask (small : mask < 4096) : (pageBase word ||| flags) &&& mask = flags &&& mask := by
  rw [Nat.and_or_distrib_right, pageBase_and_mask small, Nat.zero_or]

theorem pageFlags_or_flags (small : flags < 4096) : pageFlags (pageBase word ||| flags) = flags := by
  rw [pageFlags, or_flags_and_mask (by decide)]
  exact (pageFlags_eq_mod flags).trans (Nat.mod_eq_of_lt small)

theorem pageBase_lt (word : Nat) : pageBase word < 2 ^ 32 :=
  Nat.lt_of_le_of_lt Nat.and_le_right (by decide)

theorem pageBase_aligned (word : Nat) : pageBase word % 4096 = 0 := by
  rw [← pageFlags_eq_mod]
  exact pageBase_and_mask (by decide)

end BarrelOS.Data
