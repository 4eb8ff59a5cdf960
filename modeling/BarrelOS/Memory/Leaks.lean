import BarrelOS.Memory.Installed

namespace BarrelOS.Memory

open BarrelOS.Boot BarrelOS.Data BarrelOS.Semantics

variable {fuel phys virt flags slot pt index : Nat} {vmm : Vmm} {before after start system : System}
  {kernel : Kernel} {pmm : Pmm} {call : Call} {block : Block} {holder : Holder}

/-- A state the heap can be used in: page 0 is reserved, every page table is a
reserved page of its own and holds an entry, the heap's two pages are
reserved, and no page that can be handed out is mapped at its higher-half
address. -/
structure HeapReady (kernel : Kernel) : Prop where
  reserved : bitmapGet kernel.vmm.pmm.bitmap 0 = true
  apart : kernel.vmm.tree.Apart
  tables : ∀ slot page, kernel.vmm.tree.root slot = some page → page / 4096 ∈ kernel.vmm.pmm.used
  inhabited : kernel.vmm.tree.Inhabited
  heap : kernel.kernelHeap / 4096 ∈ kernel.vmm.pmm.used
  head : kernel.head kernel.kernelHeap / 4096 ∈ kernel.vmm.pmm.used
  unmapped : ∀ page < 2 ^ 18, page ∉ kernel.vmm.pmm.used → kernel.vmm.walk (higherHalf (page * 4096)) = none

/-! Page tables in use are inhabited -/

theorem entryOf_ne_none (small : flags < 4096) (present : Present flags) :
    entryOf (pageBase phys ||| flags) ≠ none := by
  rw [entryOf_flags small present]
  exact nofun

theorem Mapping.inhabited {before after : Vmm} (mapping : Mapping fuel phys virt flags before after)
    (present : entryOf (pageBase phys ||| flags) ≠ none) (inhabited : before.tree.Inhabited) :
    after.tree.Inhabited := by
  cases mapping with
  | shared _ _ tree =>
      rw [tree]
      refine inhabited.write.close ⟨virt >>> 12 &&& 0x3FF, ?_⟩
      rwa [Directory.write_table_self]
  | created _ _ attached tree =>
      rw [tree, attached]
      refine inhabited.attach.write.close ⟨virt >>> 12 &&& 0x3FF, ?_⟩
      rwa [Directory.write_table_self]

theorem Unmapping.inhabited {before after : Vmm} (unmapping : Unmapping virt before after)
    (apart : before.tree.Apart) (inhabited : before.tree.Inhabited) : after.tree.Inhabited := by
  cases unmapping with
  | absent _ same => exact same ▸ inhabited
  | kept _ cleared used _ tree =>
      rw [cleared] at used
      rw [tree, cleared]
      exact inhabited.write.close used
  | released table cleared _ _ tree =>
      rw [tree, cleared]
      exact inhabited.write.detach apart.write (by rw [Directory.write_root, table])

/-! Tables and the addresses they serve -/

theorem exists_address (slots : slot < 1024) (indices : index < 1024) :
    ∃ virt < 2 ^ 32, virt >>> 22 = slot ∧ virt >>> 12 &&& 0x3FF = index := by
  refine ⟨slot * 2 ^ 22 + index * 4096, by omega, ?_, ?_⟩
  · rw [slotOf_eq]
    omega
  · rw [indexOf_eq]
    omega

theorem exists_mapped (inhabited : vmm.tree.Inhabited) (used : vmm.tree.root slot = some pt) :
    ∃ virt < 2 ^ 32, virt >>> 22 = slot ∧ vmm.walk virt ≠ none := by
  obtain ⟨index, present⟩ := inhabited slot pt used
  have slots := (Vmm.tree_root_some.mp used).1
  have indices : index < 1024 := by
    by_contra beyond
    exact present (if_neg beyond)
  obtain ⟨virt, bound, rfl, rfl⟩ := exists_address slots indices
  refine ⟨virt, bound, rfl, ?_⟩
  rw [walk_eq_lookup bound, Directory.lookup, used]
  exact present

theorem walk_vacant (bound : virt < 2 ^ 32) (vacant : vmm.tree.root (virt >>> 22) = none) : vmm.walk virt = none := by
  rw [walk_eq_lookup bound, Directory.lookup, vacant]
  rfl

theorem Unmapping.directory_kept {before after : Vmm} (unmapping : Unmapping virt before after)
    (used : after.tree.root slot ≠ none) : after.pageDirectory slot = before.pageDirectory slot := by
  cases unmapping with
  | absent _ same => rw [same]
  | kept _ _ _ _ _ unchanged directory => rw [directory, unchanged]
  | released _ _ _ _ tree unchanged directory =>
      have elsewhere : slot ≠ virt >>> 22 := by
        intro same
        refine used ?_
        rw [tree, same]
        exact Function.update_self ..
      rw [directory, Function.update_of_ne elsewhere, unchanged]

/-- Every translation is what it was, apart from those of the first pages of live
blocks, which there were none of. -/
structure Restorable (start system : System) : Prop where
  unaliased : ∀ block, .block block ∈ system.held → start.kernel.vmm.walk block.header = none
  walk : ∀ virt < 2 ^ 32, (∀ block, .block block ∈ system.held → virt / 4096 ≠ block.header / 4096) →
    system.kernel.vmm.walk virt = start.kernel.vmm.walk virt

/-- A table that was there is never given back: it serves a mapped address, which
lies in no block. -/
theorem Restorable.root (restorable : Restorable start system) (inhabited : start.kernel.vmm.tree.Inhabited)
    (used : start.kernel.vmm.tree.root slot ≠ none) : system.kernel.vmm.tree.root slot ≠ none := by
  obtain ⟨pt, used⟩ := Option.ne_none_iff_exists'.mp used
  intro gone
  obtain ⟨virt, bound, rfl, mapped⟩ := exists_mapped inhabited used
  have elsewhere : ∀ block, .block block ∈ system.held → virt / 4096 ≠ block.header / 4096 := by
    intro block member same
    exact mapped ((walk_page same).trans (restorable.unaliased block member))
  exact mapped ((restorable.walk virt bound elsewhere).symm.trans (walk_vacant bound gone))

/-- What a run of the heap keeps: the pages in use are those from the start, those
of live blocks, and those of page tables that were not there. -/
structure Settling (start system : System) : Prop extends Sound system, Restorable start system where
  inhabited : system.kernel.vmm.tree.Inhabited
  directory : ∀ slot, start.kernel.vmm.tree.root slot ≠ none →
    system.kernel.vmm.pageDirectory slot = start.kernel.vmm.pageDirectory slot
  ledger : Ledger Owner.pages start.used system.used (system.owners \ start.owners)

theorem HeapReady.settling (ready : HeapReady kernel) : Settling ⟨kernel, []⟩ ⟨kernel, []⟩ where
  toAccounted := .of_tables rfl ready.apart ready.tables
  header := by simp
  unaliased := by simp
  walk := fun _ _ _ => rfl
  inhabited := ready.inhabited
  directory := fun _ _ => rfl
  ledger := by
    rw [sdiff_self]
    exact Ledger.opened

/-! The ledger of pages -/

section

variable {base : Set Nat} {old : Set Owner}

theorem TableTaken.ledger (taken : TableTaken before slot after)
    (ledger : Ledger Owner.pages base before.used (before.owners \ old)) (reserved : 0 ∈ base)
    (handed : HandsOutBelow (2 ^ 20) before.kernel.vmm.pmm after.kernel.vmm.pmm)
    (fresh : before.kernel.vmm.tree.root slot = none → ∀ pt, Owner.table slot pt ∉ old) :
    Ledger Owner.pages base after.used (after.owners \ old) := by
  cases taken with
  | shared owners used => rwa [owners, used]
  | @created _ pt vacant alloc owners =>
      have granted := pmmAlloc_granted (ledger.reserved reserved) Nat.one_pos alloc handed (Nat.le_refl _)
      rw [owners, Set.insert_sdiff_of_notMem _ (fresh vacant pt)]
      exact ledger.acquire granted.unused_used granted.used

theorem TableGiven.ledger (given : TableGiven before slot after)
    (ledger : Ledger Owner.pages base before.used (before.owners \ old))
    (fresh : after.kernel.vmm.tree.root slot = none → ∀ pt, Owner.table slot pt ∉ old) :
    Ledger Owner.pages base after.used (after.owners \ old) := by
  cases given with
  | kept owners used => rwa [owners, used]
  | @released pt table gone owners used =>
      rw [owners, Set.sdiff_sdiff_comm]
      exact ledger.release ⟨table, fresh gone pt⟩ used

end

namespace Settling

theorem vacant (settling : Settling start system) (gone : system.kernel.vmm.tree.root slot = none) :
    start.kernel.vmm.tree.root slot = none := by
  by_contra used
  exact used ((root_eq (settling.directory slot used)).symm.trans gone)

/-- A new block's first page could be handed out, so nothing was mapped at its header. -/
theorem unaliased_new {position : Nat} (ready : HeapReady kernel) (settling : Settling ⟨kernel, []⟩ before)
    (served : Served fuel position pmm before block after.kernel) (size : block.size + sizeofHeapBlock + 4095 < 2 ^ 32)
    (below : position % 2 ^ 32 + heapPages block.size ≤ 2 ^ 18) : kernel.vmm.walk block.header = none := by
  have placed := served.placed
  have first : block.allocation.ptr / 4096 < 2 ^ 18 := by
    have positive := heapPages_pos size
    rw [served.start, pageAddress]
    change position % 2 ^ 32 * 4096 % 2 ^ 32 / 4096 < 2 ^ 18
    omega
  have unused : block.allocation.ptr / 4096 ∉ kernel.vmm.pmm.used := by
    intro used
    exact Set.disjoint_left.mp served.provided.unused placed.first (settling.ledger.reserved used)
  rw [Block.header_page placed]
  exact ready.unmapped _ first unused

theorem ledger_heapAlloc {position : Nat} {last : Kernel} (ready : HeapReady kernel)
    (settling : Settling ⟨kernel, []⟩ before) (served : Served fuel position pmm before block last)
    (size : block.size + sizeofHeapBlock + 4095 < 2 ^ 32)
    (handed : HandsOutBelow (2 ^ 20) before.kernel.vmm.pmm last.vmm.pmm) :
    Ledger Owner.pages kernel.vmm.pmm.used last.vmm.pmm.used
      ((System.mk last (.block block :: before.held)).owners \ (System.mk kernel []).owners) := by
  have granted := pmmAlloc_granted (settling.ledger.reserved ready.reserved) (heapPages_pos size) served.alloc
    (fun page set => handed page (served.mapping.kept set)) (Nat.le_refl _)
  have pages : (Owner.caller (.block block)).pages =
      (Allocation.mk (pageAddress position) (heapPages block.size)).pages := congrArg Allocation.pages served.start
  have middle : Ledger Owner.pages kernel.vmm.pmm.used pmm.used
      ((System.mk (before.kernel.withPmm pmm) (.block block :: before.held)).owners \ (System.mk kernel []).owners) := by
    rw [owners_cons, Set.insert_sdiff_of_notMem _ (show Owner.caller _ ∉ _ from List.not_mem_nil)]
    exact settling.ledger.acquire (pages ▸ granted.unused_used) (pages ▸ granted.used)
  have taken : TableTaken ⟨before.kernel.withPmm pmm, .block block :: before.held⟩ (block.header >>> 22)
      ⟨last, .block block :: before.held⟩ := served.mapping.tableTaken
  refine taken.ledger middle ready.reserved served.handed ?_
  intro gone pt used
  exact absurd ((settling.vacant gone).symm.trans used) nofun

theorem heapAlloc (ready : HeapReady kernel) (settling : Settling ⟨kernel, []⟩ before)
    (makes : Makes before (.heapAlloc n) after) (fits : Fits (2 ^ 18) before (.heapAlloc n)) :
    Settling ⟨kernel, []⟩ after := by
  have handed := (makes.handed fits (by decide)).mono (show 2 ^ 18 ≤ 2 ^ 20 by decide)
  have sound := makes.sound settling.toSound handed
  obtain ⟨fuel, position, pmm, ptr, size, held, served⟩ := makes.served settling.toSound handed
  refine ⟨sound, ⟨?_, ?_⟩, ?_, ?_, ?_⟩
  · intro block member
    rw [held] at member
    rcases List.mem_cons.mp member with here | older
    · cases here
      exact unaliased_new ready settling served size (fits _ _ position served.request)
    · exact settling.unaliased block older
  · intro virt bound elsewhere
    rw [held] at elsewhere
    rw [served.walk bound, if_neg (elsewhere _ List.mem_cons_self)]
    exact settling.walk virt bound fun block older => elsewhere block (List.mem_cons_of_mem _ older)
  · exact served.mapping.inhabited (entryOf_ne_none (by decide) (by decide)) settling.inhabited
  · intro slot used
    have present : before.kernel.vmm.tree.root slot ≠ none := fun gone => used (settling.vacant gone)
    exact (served.mapping.directory_kept present).trans (settling.directory slot used)
  · have ledger := ledger_heapAlloc ready settling served size handed
    rw [← held] at ledger
    exact ledger

theorem restorable_heapFree (settling : Settling start before) (member : .block block ∈ before.held) :
    Restorable start ⟨Memory.heapFree block.ptr before.kernel, before.held.erase (.block block)⟩ := by
  refine ⟨fun other kept => settling.unaliased other (List.mem_of_mem_erase kept), ?_⟩
  intro virt bound elsewhere
  change (Memory.heapFree block.ptr before.kernel).vmm.walk virt = start.kernel.vmm.walk virt
  rw [settling.heapFree_walk member bound]
  split
  · rename_i here
    exact ((walk_page here).trans (settling.unaliased block member)).symm
  · rename_i away
    refine settling.walk virt bound ?_
    intro other older
    by_cases same : other = block
    · exact same ▸ away
    · exact elsewhere other ((List.mem_erase_of_ne fun equal => same (Holder.block.inj equal)).mpr older)

theorem ledger_heapFree (ready : HeapReady kernel) (settling : Settling ⟨kernel, []⟩ before)
    (member : .block block ∈ before.held) :
    Ledger Owner.pages kernel.vmm.pmm.used (Memory.heapFree block.ptr before.kernel).vmm.pmm.used
      ((System.mk (Memory.heapFree block.ptr before.kernel) (before.held.erase (.block block))).owners \
        (System.mk kernel []).owners) := by
  have below := (settling.block_placed member).below
  have freed : (pmmFree block.allocation.ptr block.allocation.count before.kernel.vmm.pmm).used =
      before.used \ (Owner.caller (.block block)).pages := used_pmmFree (by omega)
  have middle : Ledger Owner.pages kernel.vmm.pmm.used
      (pmmFree block.allocation.ptr block.allocation.count before.kernel.vmm.pmm).used
      ((System.mk (before.kernel.withPmm (pmmFree block.allocation.ptr block.allocation.count
        before.kernel.vmm.pmm)) (before.held.erase (.block block))).owners \ (System.mk kernel []).owners) := by
    rw [owners_erase settling.distinct, Set.sdiff_sdiff_comm]
    exact settling.ledger.release ⟨member, List.not_mem_nil⟩ freed
  have given : TableGiven ⟨before.kernel.withPmm (pmmFree block.allocation.ptr block.allocation.count
      before.kernel.vmm.pmm), before.held.erase (.block block)⟩ (block.header >>> 22)
      ⟨Memory.heapFree block.ptr before.kernel, before.held.erase (.block block)⟩ :=
    (settling.heapFree_unmapping member).tableGiven
  refine given.ledger middle ?_
  intro gone pt used
  have present : kernel.vmm.tree.root (block.header >>> 22) ≠ none := by
    rw [show kernel.vmm.tree.root (block.header >>> 22) = some pt from used]
    exact nofun
  exact (restorable_heapFree settling member).root ready.inhabited present gone

theorem heapFree (ready : HeapReady kernel) (settling : Settling ⟨kernel, []⟩ before)
    (member : .block block ∈ before.held) :
    Settling ⟨kernel, []⟩ ⟨Memory.heapFree block.ptr before.kernel, before.held.erase (.block block)⟩ := by
  have unmapping := settling.heapFree_unmapping member
  have restorable := restorable_heapFree settling member
  refine ⟨settling.toSound.heapFree member, restorable, unmapping.inhabited settling.apart settling.inhabited, ?_,
    ledger_heapFree ready settling member⟩
  intro slot used
  exact (unmapping.directory_kept (restorable.root ready.inhabited used)).trans (settling.directory slot used)

theorem step (ready : HeapReady kernel) (settling : Settling ⟨kernel, []⟩ before) (makes : Makes before call after)
    (fits : Fits (2 ^ 18) before call) (heap : call.Heap) : Settling ⟨kernel, []⟩ after := by
  cases makes with
  | heapAlloc size run => exact settling.heapAlloc ready (.heapAlloc size run) fits
  | heapFree member => exact settling.heapFree ready member
  | _ => exact heap.elim

variable (settling : Settling start system) (freed : system.held = [])
include settling freed

theorem walk_restored (bound : virt < 2 ^ 32) : system.kernel.vmm.walk virt = start.kernel.vmm.walk virt :=
  settling.walk virt bound (by simp [freed])

theorem root_restored (used : system.kernel.vmm.tree.root slot = some pt) :
    start.kernel.vmm.tree.root slot = some pt := by
  obtain ⟨virt, bound, rfl, mapped⟩ := exists_mapped settling.inhabited used
  rw [settling.walk_restored freed bound] at mapped
  have present : start.kernel.vmm.tree.root (virt >>> 22) ≠ none := fun gone => mapped (walk_vacant bound gone)
  rw [← used]
  exact (root_eq (settling.directory _ present)).symm

theorem bitmap_restored : system.kernel.vmm.pmm.bitmap = start.kernel.vmm.pmm.bitmap := by
  have owners : system.owners \ start.owners = ∅ := by
    rw [Set.sdiff_eq_empty]
    intro owner member
    cases owner with
    | caller holder => exact absurd (freed ▸ member : holder ∈ []) List.not_mem_nil
    | table slot pt => exact settling.root_restored freed member
  have settled : system.used = start.used := Ledger.settled (owners ▸ settling.ledger)
  apply bitmap_ext
  intro bit
  exact Bool.eq_iff_iff.mpr (iff_of_eq (congrArg (bit ∈ ·) settled))

theorem mapsTo_restored (bound : virt < 2 ^ 32) :
    system.kernel.vmm.mapsTo virt phys = start.kernel.vmm.mapsTo virt phys := by
  rw [Vmm.mapsTo, Vmm.mapsTo, settling.walk_restored freed bound]
  cases walk : start.kernel.vmm.walk virt with
  | none => simp
  | some _ =>
      have present : start.kernel.vmm.tree.root (virt >>> 22) ≠ none := by
        intro gone
        rw [walk_vacant bound gone] at walk
        cases walk
      rw [settling.directory _ present]

end Settling

/-- `kmalloc` and `kfree` leak nothing: once every block is freed, the bitmap and
every translation are what they were. -/
theorem heap_leaks_nothing (ready : HeapReady kernel)
    (run : SystemRuns (2 ^ 18) (fun _ call => call.Heap) ⟨kernel, []⟩ system) (freed : system.held = []) :
    system.kernel.vmm.pmm.bitmap = kernel.vmm.pmm.bitmap ∧
      ∀ virt < 2 ^ 32, system.kernel.vmm.walk virt = kernel.vmm.walk virt ∧
        ∀ phys, system.kernel.vmm.mapsTo virt phys = kernel.vmm.mapsTo virt phys := by
  have settling : Settling ⟨kernel, []⟩ system := run.induct (by decide) ready.settling
    fun _ _ _ before makes fits heap _ => before.step ready makes fits heap
  refine ⟨settling.bitmap_restored freed, ?_⟩
  intro virt bound
  exact ⟨settling.walk_restored freed bound, fun _ => settling.mapsTo_restored freed bound⟩

/-! The heap `malloc_init` creates -/

theorem Makes.heapReady (makes : Makes start .mallocInit system) (sound : Sound start)
    (fits : Fits (2 ^ 20) start .mallocInit) (reserved : 0 ∈ start.used) (inhabited : start.kernel.vmm.tree.Inhabited)
    (blank : ∀ virt < 2 ^ 32, 0xC0000000 ≤ virt → start.kernel.vmm.walk virt = none) : HeapReady system.kernel := by
  have handed := makes.handed fits (Nat.le_refl _)
  have opened := makes.sound sound handed
  have frame : ∀ virt < 2 ^ 32, system.kernel.vmm.walk virt = start.kernel.vmm.walk virt :=
    fun _ bound => makes.walk_frame sound handed bound nofun
  cases makes with
  | @mallocInit _ kernel first run =>
      obtain ⟨heap, head, alloc, again, vmm⟩ := mallocInit_done run
      have tree : kernel.vmm.tree = start.kernel.vmm.tree := by
        rw [vmm]
        rfl
      refine ⟨?_, opened.apart, ?_, ?_, ?_, ?_, ?_⟩
      · have kept := (pmmAlloc_kept Nat.one_pos alloc).trans (pmmAlloc_kept Nat.one_pos again)
        rw [vmm]
        exact kept reserved
      · intro slot page used
        exact opened.owned.held (.table slot page) used (Owner.mem_table slot page)
      · change kernel.vmm.tree.Inhabited
        rw [tree]
        exact inhabited
      · exact opened.owned.held (.caller (.heap _)) (List.mem_cons_of_mem _ List.mem_cons_self) (Owner.mem_table 0 _)
      · exact opened.owned.held (.caller (.heap _)) List.mem_cons_self (Owner.mem_table 0 _)
      · intro page below _
        have high : 0xC0000000 ≤ higherHalf (page * 4096) := by
          unfold higherHalf
          omega
        exact (frame _ (higherHalf_lt _)).trans (blank _ (higherHalf_lt _) high)

/-- A block of 100 bytes is allocated and freed again. -/
theorem heap_leaks_nothing_small :
    ∃ booted installed kernel held system,
      VmmInstalled (pcInfo 0x7EE0000 (by decide)) 0x220000 smallImage (pcSystem booted) installed ∧
      Makes installed .mallocInit ⟨kernel, held⟩ ∧ HeapReady kernel ∧
      SystemRuns (2 ^ 18) (fun _ call => call.Heap) ⟨kernel, []⟩ system ∧
      system.kernel.vmm.pmm.bitmap = kernel.vmm.pmm.bitmap ∧
      ∀ virt < 2 ^ 32, system.kernel.vmm.walk virt = kernel.vmm.walk virt ∧
        ∀ phys, system.kernel.vmm.mapsTo virt phys = kernel.vmm.mapsTo virt phys := by
  obtain ⟨booted, installed, ⟨kernel, held⟩, sample, init, initFits, following⟩ := pcHeap
  have ready : HeapReady kernel := by
    refine init.heapReady sample.paged.toSound initFits sample.null sample.inhabited fun virt bound high => ?_
    have slot : virt >>> 22 ≠ 0x101 := by
      rw [slotOf_eq]
      omega
    exact (sample.walk virt bound slot).trans (if_neg (by omega))
  have opened : (System.mk kernel []).kernel.vmm.pmm.Ascending 0x224 0x7EE0 := following
  obtain ⟨after, alloc, _⟩ := opened.heapAlloc (n := 100) (by decide) (by decide)
  have fits : Fits (2 ^ 18) ⟨kernel, []⟩ (.heapAlloc 100) :=
    opened.fits (show 0 < heapPages 100 by decide) (by decide) (by decide)
  have allocated : SystemRuns (2 ^ 18) (fun _ call => call.Heap) _ _ := .single alloc fits trivial
  have run := allocated.step (.heapFree List.mem_cons_self) nofun trivial
  exact ⟨booted, installed, kernel, held, _, sample.installed, init, ready, run, heap_leaks_nothing ready run (by simp)⟩

end BarrelOS.Memory
