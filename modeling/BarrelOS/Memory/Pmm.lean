import BarrelOS.Boot.Multiboot
import BarrelOS.Memory.Bitmap
import BarrelOS.Semantics.Outcome

namespace BarrelOS.Memory

open BarrelOS.Boot BarrelOS.Semantics

/-- `DIV_CEILING` and `ALIGN_UP` in 32-bit arithmetic. -/
def divCeiling (x y : Nat) : Nat := (x + (y - 1)) % 2 ^ 32 / y

def alignUp (x y : Nat) : Nat := divCeiling x y * y

/-- The globals of the physical memory manager, 32-bit words apart from the
bitmap. `touched` is no variable of the source: it records, latest first, every
bit index handed to `bitmap_set`, `bitmap_clear` or `bitmap_get`, and no
function reads it. -/
structure Pmm where
  bitmap : Bitmap
  lastPage : Nat
  pageCount : Nat
  usableMem : Nat
  bitmapSize : Nat
  touched : List Nat
  lastPage_lt : lastPage < 2 ^ 32
  pageCount_lt : pageCount < 2 ^ 32

namespace Pmm

/-- The globals before `pmm_install`, over whatever the memory holds. -/
def initial (memory : Bitmap) : Pmm where
  bitmap := memory
  lastPage := 0
  pageCount := 0
  usableMem := 0
  bitmapSize := 0
  touched := []
  lastPage_lt := by decide
  pageCount_lt := by decide

def set (pmm : Pmm) (bit : Nat) : Pmm :=
  { pmm with bitmap := bitmapSet pmm.bitmap bit, touched := bit :: pmm.touched }

def clear (pmm : Pmm) (bit : Nat) : Pmm :=
  { pmm with bitmap := bitmapClear pmm.bitmap bit, touched := bit :: pmm.touched }

/-- An assignment to `pmm_last_page`. -/
def withLastPage (pmm : Pmm) (lastPage : Nat) : Pmm :=
  { pmm with lastPage := lastPage % 2 ^ 32, lastPage_lt := Nat.mod_lt _ (by decide) }

@[simp] theorem withLastPage_lastPage (pmm : Pmm) (lastPage : Nat) :
    (pmm.withLastPage lastPage).lastPage = lastPage % 2 ^ 32 := rfl

@[simp] theorem withLastPage_bitmap (pmm : Pmm) (lastPage : Nat) :
    (pmm.withLastPage lastPage).bitmap = pmm.bitmap := rfl

@[simp] theorem withLastPage_bitmapSize (pmm : Pmm) (lastPage : Nat) :
    (pmm.withLastPage lastPage).bitmapSize = pmm.bitmapSize := rfl

@[simp] theorem withLastPage_touched (pmm : Pmm) (lastPage : Nat) :
    (pmm.withLastPage lastPage).touched = pmm.touched := rfl

@[simp] theorem withLastPage_pageCount (pmm : Pmm) (lastPage : Nat) :
    (pmm.withLastPage lastPage).pageCount = pmm.pageCount := rfl

/-- The effect of a `bitmap_get`; its value is `bitmapGet pmm.bitmap bit`. -/
def probe (pmm : Pmm) (bit : Nat) : Pmm :=
  { pmm with touched := bit :: pmm.touched }

end Pmm

/-! `pmm_install` -/

/-- The first loop: the index of the first usable entry, which becomes the
kernel's region. The loop's `higher_address` is never read. -/
def findKernelRegion (mmap : List MultibootMemoryMap) : Option Nat :=
  mmap.findIdx? fun entry => decide entry.Usable

/-- The loop over the pages of one entry, from offset `o` on. -/
def clearRegion (entry : MultibootMemoryMap) : Nat → Nat → Pmm → Outcome Pmm Unit
  | 0, _, pmm => .running pmm
  | fuel + 1, o, pmm =>
      if o < entry.lenLow then
        clearRegion entry fuel ((o + 4096) % 2 ^ 32)
          (if entry.Usable then pmm.clear ((entry.addrLow + o) % 2 ^ 32 / 4096) else pmm)
      else .done () pmm

def clearRegions (fuel : Nat) : List MultibootMemoryMap → Pmm → Outcome Pmm Unit
  | [], pmm => .done () pmm
  | entry :: rest, pmm => (clearRegion entry fuel 0 pmm).bind fun _ pmm => clearRegions fuel rest pmm

/-- The kernel's entry after the in-place adjustment of its length and base. -/
def adjustRegion (region : MultibootMemoryMap) (kernelEnd bitmapSize : Nat) : MultibootMemoryMap :=
  { region with
    lenLow := (region.lenLow + 2 ^ 32 - (kernelEnd + 2 ^ 32 - region.addrLow) % 2 ^ 32) % 2 ^ 32
    addrLow := (kernelEnd + bitmapSize) % 2 ^ 32
    addrLow_lt := Nat.mod_lt _ (by decide)
    lenLow_lt := Nat.mod_lt _ (by decide) }

/-- The globals as they stand before the page-marking loop: `pmm_bitmap` is the
linker's `end`, and `memset` has filled the bitmap with ones. -/
def prepareBitmap (region : MultibootMemoryMap) (pmm : Pmm) : Pmm :=
  let pageCount := region.lenLow / 4096
  let bitmapSize := alignUp (pageCount / 8) 4096
  { pmm with
    usableMem := region.lenLow
    pageCount
    pageCount_lt := Nat.lt_of_le_of_lt (Nat.div_le_self _ _) region.lenLow_lt
    bitmapSize
    bitmap := fun byte => if byte < bitmapSize then 0xFF#8 else pmm.bitmap byte }

/-- `kernelEnd` is the address of the linker's `end`, where the bitmap lies. A
map without a usable entry leaves `kernel_mmmt` a null pointer. -/
def pmmInstall (fuel : Nat) (mbd : MultibootInfo) (kernelEnd : Nat) (pmm : Pmm) : Outcome Pmm Unit :=
  if mbd.flags >>> 6 &&& 0x1 = 0 then .panicked "invalid multiboot memory map" pmm
  else
    match findKernelRegion mbd.mmap with
    | none => .faulted pmm
    | some kernel =>
        match mbd.mmap[kernel]? with
        | none => .faulted pmm
        | some region =>
            let pmm := prepareBitmap region pmm
            clearRegions fuel (mbd.mmap.set kernel (adjustRegion region kernelEnd pmm.bitmapSize)) pmm

/-! `pmm_alloc` and `pmm_free` -/

/-- `for (i = 0; i < count; i++) bitmap_set(pmm_bitmap, first_page + i)`. -/
def setPages (firstPage : Nat) : Nat → Pmm → Pmm
  | 0, pmm => pmm
  | count + 1, pmm => (setPages firstPage count pmm).set ((firstPage + count) % 2 ^ 32)

/-- `for (i = 0; i < count; i++) bitmap_clear(pmm_bitmap, page + i)`. -/
def clearPages (page : Nat) : Nat → Pmm → Pmm
  | 0, pmm => pmm
  | count + 1, pmm => (clearPages page count pmm).clear ((page + count) % 2 ^ 32)

/-- The search loop of `pmm_find_pages`, with `pages` clear bits found in a row
from `firstPage` on. -/
def findPagesLoop (pageCount : Nat) : Nat → Nat → Nat → Pmm → Outcome Pmm Nat
  | 0, _, _, pmm => .running pmm
  | fuel + 1, pages, firstPage, pmm =>
      if pages < pageCount then
        if pmm.lastPage = pmm.pageCount then .panicked "out of memory" pmm
        else
          let bit := (pmm.lastPage + pages) % 2 ^ 32
          if bitmapGet pmm.bitmap bit = false then
            if pages + 1 = pageCount then
              let pmm := setPages firstPage (pages + 1) (pmm.probe bit)
              .done firstPage (pmm.withLastPage (pmm.lastPage + (pages + 1)))
            else findPagesLoop pageCount fuel (pages + 1) firstPage (pmm.probe bit)
          else
            let pmm := (pmm.probe bit).withLastPage (pmm.lastPage + if pages = 0 then 1 else pages)
            findPagesLoop pageCount fuel 0 pmm.lastPage pmm
      else .done 0 pmm

def pmmFindPages (fuel pageCount : Nat) (pmm : Pmm) : Outcome Pmm Nat :=
  findPagesLoop pageCount fuel 0 pmm.lastPage pmm

def pmmAlloc (fuel pageCount : Nat) (pmm : Pmm) : Outcome Pmm Nat :=
  (pmmFindPages fuel pageCount pmm).bind fun pages pmm =>
    if pages = 0 then
      (pmmFindPages fuel pageCount (pmm.withLastPage 0)).bind fun pages pmm =>
        .done (pages * 4096 % 2 ^ 32) pmm
    else .done (pages * 4096 % 2 ^ 32) pmm

def pmmFree (ptr pageCount : Nat) (pmm : Pmm) : Pmm :=
  clearPages (ptr / 4096) pageCount pmm

/-! `pmm_get_total_mem` and `pmm_get_used_mem` -/

def pmmGetTotalMem (pmm : Pmm) : Nat := pmm.bitmapSize * 4096 % 2 ^ 32 * 8 % 2 ^ 32

/-- The loop over the first bits of one byte, from the bytes counted so far on. -/
def usedBits (byte : BitVec 8) (usedBytes : Nat) : Nat → Nat
  | 0 => usedBytes
  | bit + 1 =>
      let used := usedBits byte usedBytes bit
      if byte &&& 1#8 <<< bit ≠ 0#8 then (used + 4096) % 2 ^ 32 else used

/-- The loop over the first bytes of the bitmap. -/
def usedBytes (bitmap : Bitmap) : Nat → Nat
  | 0 => 0
  | i + 1 =>
      let used := usedBytes bitmap i
      if bitmap i ≠ 0#8 then usedBits (bitmap i) used 8 else used

def pmmGetUsedMem (pmm : Pmm) : Nat := usedBytes pmm.bitmap pmm.bitmapSize

end BarrelOS.Memory
