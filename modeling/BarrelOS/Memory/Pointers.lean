import BarrelOS.Memory.Installed

namespace BarrelOS.Memory

open BarrelOS.Boot BarrelOS.Data BarrelOS.Semantics

variable {system start : System} {fuel phys virt flags : Nat} {before after : Vmm}

end BarrelOS.Memory
