import Mathlib.Algebra.Group.Nat.Defs

namespace BarrelOS.Boot

/-- `MULTIBOOT_MEMORY_AVAILABLE`. -/
def multibootMemoryAvailable : Nat := 1

/-- The fields of `struct multiboot_memory_map_t` that the memory manager reads. -/
structure MultibootMemoryMap where
  addrLow : Nat
  lenLow : Nat
  type : Nat
  addrLow_lt : addrLow < 2 ^ 32 := by decide
  lenLow_lt : lenLow < 2 ^ 32 := by decide
deriving DecidableEq

/-- The fields of `struct multiboot_info_t` that the memory manager reads.
`mmap` lists the entries at `mmap_addr + 24 * i` for `24 * i < mmap_length`,
the stride both loops of `pmm_install` use. -/
structure MultibootInfo where
  flags : Nat
  mmap : List MultibootMemoryMap
  vbeMode : Nat
  framebufferAddr : Nat
  framebufferPitch : Nat
  framebufferHeight : Nat

/-- An entry either loop of `pmm_install` treats as usable memory. -/
def MultibootMemoryMap.Usable (entry : MultibootMemoryMap) : Prop :=
  entry.type = multibootMemoryAvailable ∧ 0x100000 ≤ entry.addrLow

instance (entry : MultibootMemoryMap) : Decidable entry.Usable :=
  inferInstanceAs (Decidable (_ ∧ _))

end BarrelOS.Boot
