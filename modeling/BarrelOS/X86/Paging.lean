import BarrelOS.Data.Bytes
import BarrelOS.Data.Word

namespace BarrelOS.X86

open BarrelOS.Data

/-! The processor's way through page tables of two levels -/

/-- The frame and the flags that the words in memory give to an address. The bits for accessed and dirty pages
are left out. -/
def pageWalk (memory : Bytes) (cr3 virt : Nat) : Option (Nat × Nat) :=
  let pde := memory.load32 (pageBase cr3 + 4 * (virt >>> 22))
  if pde &&& 0x1 = 0 then none
  else
    let pte := memory.load32 (pageBase pde + 4 * (virt >>> 12 &&& 0x3FF))
    if pte &&& 0x1 = 0 then none else some (pageBase pte, pageFlags pte)

/-- Without write protection in `cr0`, the kernel may write to every page that is present. -/
def translate (memory : Bytes) (cr3 virt : Nat) : Option Nat :=
  (pageWalk memory cr3 virt).map fun (frame, _) => frame + virt % 4096

end BarrelOS.X86
