import BarrelOS.Acpi.Walk

namespace BarrelOS.Acpi

open BarrelOS.Data BarrelOS.Lib BarrelOS.Memory BarrelOS.Semantics

/-! The tables that `madt_init` reads, and the places of its lists that it writes -/

/-- `madt_init` is halted at no table that is `NULL` or outside the address space, and fills and
counts no places behind the 64 of its lists. -/
structure StaysInside (apic : Nat) (root : Root) (globals : Madt) : Prop where
  accesses : ∀ fuel after, madtInit fuel apic root globals ≠ .faulted after
  ioapics : ∀ fuel, (madtInit fuel apic root globals).after.ioapics.count ≤ 64
  isos : ∀ fuel, (madtInit fuel apic root globals).after.isos.count ≤ 64

variable {memory : Bytes} {apic fuel i turns : Nat} {root : Root} {globals : Madt}

end BarrelOS.Acpi
