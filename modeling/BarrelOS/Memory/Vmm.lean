import BarrelOS.Data.Word
import BarrelOS.Memory.Pmm

namespace BarrelOS.Memory

open BarrelOS.Boot BarrelOS.Data BarrelOS.Semantics

/-- `PTE_PRESENT` and `PTE_WRITABLE`. -/
def ptePresent : Nat := 0x1

def pteWritable : Nat := 0x2

/-- The linker's symbols. -/
structure Image where
  textStart : Nat
  textEnd : Nat
  rodataStart : Nat
  rodataEnd : Nat
  dataStart : Nat
  dataEnd : Nat
  bssStart : Nat
  bssEnd : Nat
  firstPageTable : Nat

/-- The globals of the virtual memory manager. `memory` holds the words of the
page at a physical address, which is how the source reaches a page table.
`derefs` is no variable of the source: it records, latest first, every physical
page used as a pointer, and whether the page tables mapped it to itself at the
time; where they did not, the kernel page-faults. No function reads it. -/
structure Vmm where
  pmm : Pmm
  pageDirectory : Nat → Nat
  memory : Nat → Nat → Nat
  derefs : List (Nat × Bool)

namespace Vmm

/-- The two-level walk of a virtual address. -/
def walk (vmm : Vmm) (virt : Nat) : Option (Nat × Nat) :=
  let pde := vmm.pageDirectory (virt >>> 22)
  if pde &&& 0x1 = 0 then none
  else
    let pte := vmm.memory (pageBase pde) (virt >>> 12 &&& 0x3FF)
    if pte &&& 0x1 = 0 then none else some (pageBase pte, pageFlags pte)

/-- The page of `virt` is present and writable on both levels and lies at `phys`. -/
def mapsTo (vmm : Vmm) (virt phys : Nat) : Bool :=
  (vmm.pageDirectory (virt >>> 22) &&& 0x3 == 0x3) &&
    (vmm.walk virt).any fun (frame, flags) => frame == pageBase phys && flags &&& 0x3 == 0x3

def deref (vmm : Vmm) (address : Nat) : Vmm :=
  { vmm with derefs := (address, vmm.mapsTo address address) :: vmm.derefs }

def store (vmm : Vmm) (page index word : Nat) : Vmm :=
  { vmm with memory := Function.update vmm.memory page (Function.update (vmm.memory page) index word) }

def setDirectory (vmm : Vmm) (index word : Nat) : Vmm :=
  { vmm with pageDirectory := Function.update vmm.pageDirectory index word }

end Vmm

/-! `vmm_map` and `vmm_unmap` -/

/-- `for (i = 0; i < 1024; i++) new_pt[i] = 0`. -/
def clearTable (newPt : Nat) (vmm : Vmm) : Vmm :=
  { vmm with
    memory := Function.update vmm.memory newPt fun i => if i < 1024 then 0 else vmm.memory newPt i }

/-- The page table for a directory entry that is not present. -/
def newTable (fuel pdindex : Nat) (vmm : Vmm) : Outcome Vmm Unit :=
  ((pmmAlloc fuel 1 vmm.pmm).within fun pmm => { vmm with pmm }).bind fun newPt vmm =>
    .done () ((clearTable newPt (vmm.deref newPt)).setDirectory pdindex
      (newPt ||| ptePresent ||| pteWritable))

def vmmMap (fuel phys virt flags : Nat) (vmm : Vmm) : Outcome Vmm Unit :=
  let pdindex := virt >>> 22
  let ptindex := virt >>> 12 &&& 0x3FF
  (if vmm.pageDirectory pdindex &&& 0x1 = 0 then newTable fuel pdindex vmm else .done () vmm).bind
    fun _ vmm =>
      let pt := pageBase (vmm.pageDirectory pdindex)
      .done () ((vmm.deref pt).store pt ptindex (pageBase phys ||| flags))

/-- The scan of `vmm_unmap` for an entry that is present. -/
def tableEmpty (vmm : Vmm) (pt : Nat) : Bool :=
  (List.range 1024).all fun i => vmm.memory pt i &&& 0x1 == 0

def vmmUnmap (virt : Nat) (vmm : Vmm) : Vmm :=
  let pdindex := virt >>> 22
  let ptindex := virt >>> 12 &&& 0x3FF
  if vmm.pageDirectory pdindex &&& 0x1 = 0 then vmm
  else
    let pt := pageBase (vmm.pageDirectory pdindex)
    let vmm := ((vmm.deref pt).store pt ptindex 0).deref pt
    if tableEmpty vmm pt then
      { vmm with pmm := pmmFree pt 1 vmm.pmm }.setDirectory pdindex 0
    else vmm

/-! `vmm_install` -/

/-- The page directory and the first page table as they are filled before
paging is enabled. -/
def fillDirectory (image : Image) (vmm : Vmm) : Vmm :=
  { vmm with
    pageDirectory := fun i =>
      if i = 0 then image.firstPageTable ||| ptePresent ||| pteWritable
      else if i < 1024 then pteWritable
      else vmm.pageDirectory i
    memory := Function.update vmm.memory image.firstPageTable fun i =>
      if i < 1024 then i * 0x1000 ||| ptePresent ||| pteWritable
      else vmm.memory image.firstPageTable i }

/-- `for (address = start; address < limit; address += PAGE_SIZE)` around a
`vmm_map` of the page. -/
def mapPages (fuel flags : Nat) (virt : Nat → Nat) (limit : Nat) : Nat → Nat → Vmm → Outcome Vmm Unit
  | 0, _, vmm => .running vmm
  | turns + 1, address, vmm =>
      if address < limit then
        (vmmMap fuel address (virt address) flags vmm).bind fun _ vmm =>
          mapPages fuel flags virt limit turns ((address + 4096) % 2 ^ 32) vmm
      else .done () vmm

/-- Where a section's page is mapped: `address - virt_base + phys_base`. -/
def sectionAddress (image : Image) (address : Nat) : Nat :=
  (address + 2 ^ 32 - 0xC0000000 + image.textStart) % 2 ^ 32

/-- The loops of `vmm_install` behind `vmm_enable_paging`. -/
def mapKernel (fuel : Nat) (image : Image) (mbootInfo : MultibootInfo) (vmm : Vmm) : Outcome Vmm Unit :=
  (mapPages fuel ptePresent (sectionAddress image) image.textEnd fuel image.textStart vmm).bind fun _ vmm =>
  (mapPages fuel ptePresent (sectionAddress image) image.rodataEnd fuel image.rodataStart vmm).bind fun _ vmm =>
  (mapPages fuel (ptePresent ||| pteWritable) (sectionAddress image) image.dataEnd fuel
    image.dataStart vmm).bind fun _ vmm =>
  (mapPages fuel (ptePresent ||| pteWritable) (sectionAddress image) image.bssEnd fuel
    image.bssStart vmm).bind fun _ vmm =>
  if mbootInfo.vbeMode ≠ 3 then
    mapPages fuel (ptePresent ||| pteWritable) (fun vmem => vmem)
      ((mbootInfo.framebufferAddr + mbootInfo.framebufferHeight * mbootInfo.framebufferPitch % 2 ^ 32) % 2 ^ 32)
      fuel (mbootInfo.framebufferAddr % 2 ^ 32) vmm
  else .done () vmm

def vmmInstall (fuel : Nat) (image : Image) (mbootInfo : MultibootInfo) (vmm : Vmm) : Outcome Vmm Unit :=
  mapKernel fuel image mbootInfo (fillDirectory image vmm)

end BarrelOS.Memory
