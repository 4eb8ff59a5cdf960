import BarrelOS.Memory.Accounts
import BarrelOS.Memory.Usable

namespace BarrelOS.Memory

open BarrelOS.Boot BarrelOS.Data BarrelOS.Semantics

variable {mbd : MultibootInfo} {kernelEnd fuel virt : Nat} {image : Image} {system start : System} {vmm : Vmm}

/-- The machine at the moment `vmm_install` has switched paging on: the memory map
is read, the page directory is filled, and nothing has been handed out. The page
of `first_page_table` is not free. -/
structure PagingOn (mbd : MultibootInfo) (kernelEnd : Nat) (image : Image) (system : System) : Prop where
  installed : ∃ (fuel : Nat) (memory : Bitmap) (pmm : Pmm) (vmm : Vmm),
    pmmInstall fuel mbd kernelEnd (Pmm.initial memory) = .done () pmm ∧
    system.kernel.vmm = fillDirectory image { vmm with pmm, derefs := [] }
  word : image.firstPageTable < 2 ^ 32
  aligned : image.firstPageTable % 4096 = 0
  reserved : image.firstPageTable / 4096 ∈ system.used
  unheld : system.held = []

/-- Sound accounts over a page directory whose present entries are writable. -/
structure Paged (system : System) : Prop extends Sound system where
  writable : system.kernel.vmm.DirectoryWritable

theorem SystemRuns.induct {limit : Nat} {allowed : System → Call → Prop} {Inv : System → Prop}
    (run : SystemRuns limit allowed start system) (physical : limit ≤ 2 ^ 20) (initial : Inv start)
    (step : ∀ before call after, Inv before → Makes before call after → Fits limit before call →
      allowed before call → HandsOutBelow limit before.kernel.vmm.pmm after.kernel.vmm.pmm → Inv after) :
    Inv system := by
  induction run with
  | refl => exact initial
  | tail _ last ih =>
      obtain ⟨call, makes, fits, permitted⟩ := last
      exact step _ call _ ih makes fits permitted (makes.handed fits physical)

theorem HandsOutBelow.mono {lower upper : Nat} {before after : Pmm} (handed : HandsOutBelow lower before after)
    (bound : lower ≤ upper) : HandsOutBelow upper before after :=
  fun page set => (handed page set).imp_right fun below => Nat.lt_of_lt_of_le below bound

theorem Makes.paged {before after : System} {call : Call} (makes : Makes before call after)
    (paged : Paged before) (handed : HandsOutBelow (2 ^ 20) before.kernel.vmm.pmm after.kernel.vmm.pmm) :
    Paged after :=
  ⟨makes.sound paged.toSound handed, makes.writable paged.toSound handed paged.writable⟩

/-- `pmm_install` leaves the kernel's pages reserved, as far as they have bits: they
lie between the base of the kernel's region and the end of the bitmap. -/
theorem pmmInstall_keeps_kernel {pmm : Pmm} {memory : Bitmap} {front back : List MultibootMemoryMap}
    {region : MultibootMemoryMap} {page : Nat} (map : BootMap mbd.mmap kernelEnd front region back)
    (install : pmmInstall fuel mbd kernelEnd (Pmm.initial memory) = .done () pmm)
    (above : region.addrLow ≤ page * 4096) (inside : (page + 1) * 4096 ≤ kernelEnd)
    (covered : page < 8 * bitmapSizeOf region) : page ∈ pmm.used := by
  change bitmapGet pmm.bitmap page = true
  rw [← Bool.not_eq_false, (pmmInstall_free_iff map install).2 _ covered]
  intro free
  have between : region.addrLow ≤ page * 4096 ∧ page * 4096 < kernelEnd + bitmapSizeOf region := by omega
  rcases free with ⟨_, outside⟩ | ⟨_, overrun⟩
  · exact outside between
  · exact overrun_outside map overrun between

namespace PagingOn

theorem root {slot page : Nat} (paging : PagingOn mbd kernelEnd image system)
    (used : system.kernel.vmm.tree.root slot = some page) : slot = 0 ∧ page = image.firstPageTable := by
  obtain ⟨_, _, _, vmm, _, filled⟩ := paging.installed
  rw [filled] at used
  obtain ⟨first, table⟩ := fillDirectory_root used
  exact ⟨first, table.trans (pageBase_tableWord paging.word paging.aligned)⟩

theorem table (paging : PagingOn mbd kernelEnd image system) :
    system.kernel.vmm.tree.root 0 = some image.firstPageTable := by
  obtain ⟨_, _, _, vmm, _, filled⟩ := paging.installed
  rw [filled]
  refine Vmm.tree_root_some.mpr ⟨by decide, tableWord_present paging.word paging.aligned, ?_⟩
  exact pageBase_tableWord paging.word paging.aligned

theorem root_eq (paging : PagingOn mbd kernelEnd image system) (slot : Nat) :
    system.kernel.vmm.tree.root slot = if slot = 0 then some image.firstPageTable else none := by
  by_cases first : slot = 0
  · rw [if_pos first, first, paging.table]
  · rw [if_neg first]
    by_contra present
    obtain ⟨page, used⟩ := Option.ne_none_iff_exists'.mp present
    exact first (paging.root used).1

theorem accounted (paging : PagingOn mbd kernelEnd image system) : Accounted system := by
  refine .of_tables paging.unheld ?_ ?_
  · intro slot other page first second
    rw [(paging.root first).1, (paging.root second).1]
  · intro slot page used
    exact (paging.root used).2 ▸ paging.reserved

theorem paged (paging : PagingOn mbd kernelEnd image system) : Paged system where
  toAccounted := paging.accounted
  header := by simp [paging.unheld]
  writable := by
    obtain ⟨_, _, _, vmm, _, filled⟩ := paging.installed
    rw [filled]
    exact fillDirectory_writable paging.word paging.aligned

theorem walk (paging : PagingOn mbd kernelEnd image system) (bound : virt < 2 ^ 32) :
    system.kernel.vmm.walk virt =
      if virt < 0x400000 then some (pageBase virt, ptePresent ||| pteWritable) else none := by
  obtain ⟨_, _, _, vmm, _, filled⟩ := paging.installed
  rw [filled]
  exact fillDirectory_walk paging.word paging.aligned bound

end PagingOn

end BarrelOS.Memory
