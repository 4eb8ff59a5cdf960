import BarrelOS.Memory.HeapStart
import BarrelOS.Memory.Tables

namespace BarrelOS.Memory

open BarrelOS.Boot BarrelOS.Data BarrelOS.Semantics BarrelOS.X86

/-! Calls of the two managers of pages, on bytes -/

/-- The machine, with the pages that others hold of it. -/
structure RamSystem where
  ram : Ram
  held : List Holder

/-- A call that returns. What is given back is held. -/
inductive RamMakes (directory : Nat) : RamSystem → Call → RamSystem → Prop
  | pmmAlloc {system : RamSystem} {fuel count ptr : Nat} {after : Ram} (positive : 0 < count)
      (run : system.ram.pmmAlloc fuel count = .done ptr after) :
      RamMakes directory system (.pmmAlloc count) ⟨after, .raw ⟨ptr, count⟩ :: system.held⟩
  | pmmFree {system : RamSystem} {owner : Allocation} (member : .raw owner ∈ system.held) :
      RamMakes directory system (.pmmFree owner)
        ⟨system.ram.pmmFree owner.ptr owner.count, system.held.erase (.raw owner)⟩
  | vmmMap {system : RamSystem} {fuel phys virt flags : Nat} {after : Ram} (address : virt < 2 ^ 32)
      (run : system.ram.vmmMap directory fuel phys virt flags = .done () after) :
      RamMakes directory system (.vmmMap phys virt flags) ⟨after, system.held⟩
  | vmmUnmap {system : RamSystem} {virt : Nat} {after : Ram} (address : virt < 2 ^ 32)
      (run : system.ram.vmmUnmap directory virt = .done () after) :
      RamMakes directory system (.vmmUnmap virt) ⟨after, system.held⟩

/-- A call and the bytes it is made on. -/
abbrev RamEvent := Ram × Call

namespace Ram

variable (directory : Nat)

/-- A present entry of the page directory. -/
def TableAt (ram : Ram) (slot pt : Nat) : Prop :=
  slot < 1024 ∧ Present (ram.memory.load32 (directory + 4 * slot)) ∧
    pageBase (ram.memory.load32 (directory + 4 * slot)) = pt

/-- A page that `vmm_map` gets from `pmm_alloc`, for an entry it reads as absent. -/
def Obtains : RamEvent → Nat → Prop
  | (ram, .vmmMap _ virt _), pt =>
      (∃ pde, ram.read directory (directory + 4 * (virt >>> 22)) = .done pde ram ∧ ¬ Present pde) ∧
        ∃ fuel pmm, Memory.pmmAlloc fuel 1 ram.pmm = .done pt pmm
  | _, _ => False

/-- A page that `vmm_unmap` passes to `pmm_free`: a table that it reads as empty. -/
def Frees : RamEvent → Nat → Prop
  | (ram, .vmmUnmap virt), pt => virt < 2 ^ 32 ∧ ∃ pde cleared,
      ram.read directory (directory + 4 * (virt >>> 22)) = .done pde ram ∧ Present pde ∧ pageBase pde = pt ∧
        ram.write directory (pt + 4 * (virt >>> 12 &&& 0x3FF)) 0 = .done () cleared ∧
        cleared.tableEmpty directory pt 0 1024 = .done true cleared
  | _, _ => False

/-- The page table that a call works on, or takes for a new one. -/
def WorksOn : RamEvent → Nat → Prop
  | (ram, .vmmMap phys virt flags), pt => ram.TableAt directory (virt >>> 22) pt ∨ Obtains directory (ram, .vmmMap phys virt flags) pt
  | (ram, .vmmUnmap virt), pt => ram.TableAt directory (virt >>> 22) pt
  | _, _ => False

/-- The pages a call takes lie in the address space. -/
def Fits : RamEvent → Prop
  | (ram, .pmmAlloc count) => ∀ position rest, ram.pmm.Next count position rest → position % 2 ^ 32 + count ≤ 2 ^ 20
  | (ram, .vmmMap _ virt _) => (∀ pt, ¬ ram.TableAt directory (virt >>> 22) pt) →
      ∀ position rest, ram.pmm.Next 1 position rest → position % 2 ^ 32 + 1 ≤ 2 ^ 20
  | _ => True

/-- The memory of the kernel, and the page table that the call works on or takes, are
mapped to themselves. -/
structure Reaches (kernelStart kernelFinish : Nat) (event : RamEvent) : Prop where
  kernel : ∀ address, kernelStart ≤ address → address < kernelFinish →
    X86.translate event.1.memory directory address = some address
  table : ∀ pt, WorksOn directory event pt → X86.translate event.1.memory directory pt = some pt

/-- The pages obtained before a run and in it. -/
def ObtainedBy (initial : Set Nat) (trace : List RamEvent) : Set Nat :=
  initial ∪ { pt | ∃ event ∈ trace, Obtains directory event pt }

/-- Every page given to `pmm_free` had been obtained before. -/
def FreesOwn (initial : Set Nat) : List RamEvent → Prop
  | [] => True
  | event :: earlier => (∀ pt, Frees directory event pt → pt ∈ ObtainedBy directory initial earlier) ∧ FreesOwn initial earlier

/-- A present directory entry points to the first page table or to a page `vmm_map`
obtained, which is still reserved; no two point to the same table. -/
structure TablesOwned (firstPageTable : Nat) (obtained : Set Nat) (ram : Ram) : Prop where
  owned : ∀ slot pt, ram.TableAt directory slot pt → pt = firstPageTable ∨ pt ∈ obtained ∧ pt / 4096 ∈ ram.pmm.used
  apart : ∀ slot other pt, ram.TableAt directory slot pt → ram.TableAt directory other pt → slot = other

end Ram

/-- A run of such calls with its events, the latest first. -/
inductive RamTraced (directory : Nat) (start : RamSystem) : List RamEvent → RamSystem → Prop
  | start : RamTraced directory start [] start
  | step {trace : List RamEvent} {before after : RamSystem} {call : Call} (earlier : RamTraced directory start trace before)
      (makes : RamMakes directory before call after) (fits : Ram.Fits directory (before.ram, call)) :
      RamTraced directory start ((before.ram, call) :: trace) after

/-- The end of the kernel's memory: behind `end` lies the bitmap. -/
def kernelFinish (mbd : MultibootInfo) (kernelEnd : Nat) : Nat :=
  kernelEnd + (((findKernelRegion mbd.mmap).bind (mbd.mmap[·]?)).map bitmapSizeOf).getD 0

/-- The page directory and the first page table are pages of the kernel in the first 4 MiB. -/
structure Image.Directory (image : Image) (finish directory : Nat) : Prop where
  aligned : directory % 4096 = 0
  inside : image.textStart ≤ directory ∧ directory < finish
  first : image.textStart ≤ image.firstPageTable ∧ image.firstPageTable < finish
  apart : directory / 4096 ≠ image.firstPageTable / 4096
  low : directory < 0x400000 ∧ image.firstPageTable < 0x400000

variable {mbd : MultibootInfo} {kernelEnd directory fuel count virt phys flags slot page pt first finish word start : Nat} {image : Image}
  {system : System} {before after state : RamSystem} {call : Call} {trace : List RamEvent} {vmm : Vmm} {kernel : Kernel}
  {ram last : Ram} {live : Set Site} {site : Site} {obtained initial : Set Nat}

/-! What the bytes say about the page tables -/

/-- A page elsewhere shows the same behind a store to a table. -/
theorem Views.store (views : Views directory kernel start site) (apart : kernel.vmm.tree.Apart)
    (used : kernel.vmm.tree.root (virt >>> 22) = some pt) (elsewhere : start / 4096 ≠ virt / 4096) :
    Views directory (kernel.withVmm (kernel.vmm.store pt (virt >>> 12 &&& 0x3FF) 0)) start site := by
  refine views.of_walk ?_
  change (kernel.vmm.store pt (virt >>> 12 &&& 0x3FF) 0).walk start = _
  rw [Vmm.walk_store apart used views.word, if_neg elsewhere]

namespace Represents

theorem views_of_translate (represents : Represents directory live kernel ram) (aligned : start % 4096 = 0) (bound : start < 2 ^ 32)
    (page : (sites directory).page site * 4096 = start) (here : X86.translate ram.memory directory start = some start) :
    Views directory kernel start site := by
  rw [X86.translate, represents.pageWalk bound, aligned, Option.map_eq_some_iff] at here
  obtain ⟨entry, walk, frame⟩ := here
  obtain ⟨frame', flags⟩ := entry
  cases frame
  exact ⟨aligned, bound, flags, by rw [page]; exact walk⟩

theorem table_views (represents : Represents directory live kernel ram) (used : vmm.tree.root slot = some pt)
    (here : X86.translate ram.memory directory pt = some pt) : Views directory kernel pt (.table pt) := by
  obtain ⟨_, _, base⟩ := Vmm.tree_root_some.mp used
  have aligned : pt % 4096 = 0 := base ▸ pageBase_aligned _
  refine represents.views_of_translate aligned (base ▸ pageBase_lt _) ?_ here
  change pt / 4096 * 4096 = pt
  omega

theorem tableAt_iff (represents : Represents directory live kernel ram) :
    ram.TableAt directory slot pt ↔ kernel.vmm.tree.root slot = some pt := by
  rw [Vmm.tree_root_some]
  refine and_congr_right fun bound => ?_
  have entry := represents.words _ represents.root slot bound
  have aligned := represents.aligned
  have address : (sites directory).address .directory slot = directory + 4 * slot := by
    change directory / 4096 * 4096 + 4 * slot = _
    omega
  rw [address] at entry
  rw [entry]
  change Present (kernel.vmm.pageDirectory slot % 2 ^ 32) ∧ pageBase (kernel.vmm.pageDirectory slot % 2 ^ 32) = pt ↔ _
  rw [Present, Present, and_one_mod, pageBase_mod]

theorem obtains_iff (represents : Represents directory live system.kernel ram) (root : Views directory system.kernel directory .directory)
    (bound : virt < 2 ^ 32) (phys flags : Nat) :
    Ram.Obtains directory (ram, .vmmMap phys virt flags) pt ↔ Obtains (system, .vmmMap phys virt flags) pt := by
  have read := represents.read_entry root bound
  have vacant : (∃ pde, ram.read directory (directory + 4 * (virt >>> 22)) = .done pde ram ∧ ¬ Present pde) ↔ system.Vacant virt := by
    rw [System.Vacant, Vmm.tree_root_none (slotOf_lt bound), read]
    constructor
    · intro absent
      obtain ⟨pde, same, missing⟩ := absent
      cases same
      rwa [Present, and_one_mod] at missing
    · intro missing
      exact ⟨_, rfl, by rwa [Present, and_one_mod]⟩
  exact and_congr vacant (by rw [represents.pmm])

/-- The scan of a table whose own page has just been unmapped. -/
theorem scan_faults (represents : Represents directory live kernel ram) (apart : kernel.vmm.tree.Apart)
    (used : kernel.vmm.tree.root (virt >>> 22) = some pt) (same : pt / 4096 = virt / 4096) :
    (ram.put directory (.table pt) (virt >>> 12 &&& 0x3FF) 0).tableEmpty directory pt 0 1024 =
      .faulted (ram.put directory (.table pt) (virt >>> 12 &&& 0x3FF) 0) := by
  obtain ⟨_, _, base⟩ := Vmm.tree_root_some.mp used
  have bound : pt < 2 ^ 32 := base ▸ pageBase_lt _
  have cleared := represents.store (represents.tables _ _ used) (indexOf_lt virt) 0
  have walk : (kernel.vmm.store pt (virt >>> 12 &&& 0x3FF) 0).walk pt = none := by
    rw [Vmm.walk_store apart used bound, if_pos same]
    rfl
  have unmapped : X86.translate (ram.put directory (.table pt) (virt >>> 12 &&& 0x3FF) 0).memory directory pt = none := by
    rw [X86.translate, cleared.pageWalk bound]
    exact congrArg (Option.map _) walk
  rw [Ram.tableEmpty, Nat.mul_zero, Nat.add_zero, Ram.read, unmapped]
  rfl

theorem scanned (represents : Represents directory live kernel ram) (apart : kernel.vmm.tree.Apart)
    (used : kernel.vmm.tree.root (virt >>> 22) = some pt) (views : Views directory kernel pt (.table pt)) {empty : Bool}
    (scan : (ram.put directory (.table pt) (virt >>> 12 &&& 0x3FF) 0).tableEmpty directory pt 0 1024 = .done empty last) :
    pt / 4096 ≠ virt / 4096 ∧ empty = Memory.tableEmpty (kernel.vmm.store pt (virt >>> 12 &&& 0x3FF) 0) pt := by
  have elsewhere : pt / 4096 ≠ virt / 4096 := by
    intro same
    rw [represents.scan_faults apart used same] at scan
    cases scan
  have member := represents.tables _ _ used
  have cleared := represents.store member (indexOf_lt virt) 0
  have still : Views directory (kernel.withVmm (kernel.vmm.store pt (virt >>> 12 &&& 0x3FF) 0)) pt (.table pt) :=
    views.store apart used elsewhere
  have whole := cleared.tableEmpty still member (Nat.le_of_eq (Nat.zero_add 1024))
  rw [whole] at scan
  cases scan
  refine ⟨elsewhere, ?_⟩
  rw [Memory.tableEmpty, List.range_eq_range']
  rfl

theorem frees (represents : Represents directory live system.kernel ram) (apart : system.kernel.vmm.tree.Apart)
    (root : Views directory system.kernel directory .directory)
    (reached : ∀ pt, system.kernel.vmm.tree.root (virt >>> 22) = some pt → Views directory system.kernel pt (.table pt))
    (frees : Ram.Frees directory (ram, .vmmUnmap virt) pt) : Frees (system, .vmmUnmap virt) pt := by
  obtain ⟨bound, pde, cleared, read, present, base, write, scan⟩ := frees
  rw [represents.read_entry root bound] at read
  cases read
  rw [pageBase_mod] at base
  rw [Present, and_one_mod] at present
  have used : system.kernel.vmm.tree.root (virt >>> 22) = some pt := Vmm.tree_root_some.mpr ⟨slotOf_lt bound, present, base⟩
  have views := reached pt used
  rw [represents.write views (represents.tables _ _ used) (indexOf_lt virt) 0] at write
  cases write
  exact ⟨used, (represents.scanned apart used views scan).2.symm⟩

/-- A `vmm_map` that returns has got a page for an absent table. -/
theorem vmmMap_returned (represents : Represents directory live kernel ram) (root : Views directory kernel directory .directory)
    (bound : virt < 2 ^ 32) (run : ram.vmmMap directory fuel phys virt flags = .done () last) :
    ∃ vmm, Memory.vmmMap fuel phys virt flags kernel.vmm = .done () vmm := by
  obtain ⟨pde, middle, read, rest⟩ := Outcome.bind_done.mp run
  rw [represents.read_entry root bound] at read
  cases read
  obtain ⟨_, made, table, _⟩ := Outcome.bind_done.mp rest
  rw [and_one_mod] at table
  by_cases vacant : kernel.vmm.pageDirectory (virt >>> 22) &&& 0x1 = 0
  · rw [if_pos vacant] at table
    obtain ⟨pt, taken, alloc, _⟩ := Outcome.bind_done.mp table
    obtain ⟨pmm, alloc, _⟩ := Outcome.within_done.mp alloc
    rw [represents.pmm] at alloc
    have returns : ∃ after, ∀ larger, fuel ≤ larger → Memory.vmmMap larger phys virt flags kernel.vmm = .done () after :=
      vmmMap_returns bound fun _ larger more => pmmAlloc_more more alloc
    obtain ⟨after, map⟩ := returns
    exact ⟨after, map fuel (Nat.le_refl _)⟩
  · have present : kernel.vmm.tree.root (virt >>> 22) ≠ none := mt (Vmm.tree_root_none (slotOf_lt bound)).mp (not_not.mpr vacant)
    have returns : ∃ after, ∀ larger, fuel ≤ larger → Memory.vmmMap larger phys virt flags kernel.vmm = .done () after :=
      @vmmMap_returns fuel phys virt flags kernel.vmm.pmm kernel.vmm bound 0 fun absent => absurd absent present
    obtain ⟨after, map⟩ := returns
    exact ⟨after, map fuel (Nat.le_refl _)⟩

theorem vmmUnmap_returned (represents : Represents directory live kernel ram) (root : Views directory kernel directory .directory)
    (apart : kernel.vmm.tree.Apart) (bound : virt < 2 ^ 32)
    (reached : ∀ pt, kernel.vmm.tree.root (virt >>> 22) = some pt → Views directory kernel pt (.table pt))
    (kept : ∀ pt, kernel.vmm.tree.root (virt >>> 22) = some pt →
      Memory.tableEmpty (kernel.vmm.store pt (virt >>> 12 &&& 0x3FF) 0) pt = true → directory / 4096 ≠ virt / 4096)
    (run : ram.vmmUnmap directory virt = .done () last) :
    Represents directory live (kernel.withVmm (Memory.vmmUnmap virt kernel.vmm)) last := by
  have elsewhere : ∀ pt, kernel.vmm.tree.root (virt >>> 22) = some pt → pt / 4096 ≠ virt / 4096 := by
    intro pt used
    obtain ⟨_, present, base⟩ := Vmm.tree_root_some.mp used
    obtain ⟨pde, middle, read, rest⟩ := Outcome.bind_done.mp run
    rw [represents.read_entry root bound] at read
    cases read
    rw [and_one_mod, if_neg present] at rest
    obtain ⟨_, cleared, write, rest⟩ := Outcome.bind_done.mp rest
    obtain ⟨empty, _, scan, _⟩ := Outcome.bind_done.mp rest
    rw [pageBase_mod, base, represents.write (reached pt used) (represents.tables _ _ used) (indexOf_lt virt) 0] at write
    cases write
    rw [pageBase_mod, base] at scan
    exact (represents.scanned apart used (reached pt used) scan).1
  obtain ⟨after, returned, represented, _⟩ := represents.vmmUnmap root bound
    (fun pt used => ⟨reached pt used, (reached pt used).store apart used (elsewhere pt used)⟩)
    fun pt used empty => root.store apart used (kept pt used empty)
  rw [run] at returned
  cases returned
  exact represented

end Represents

/-! What every such run keeps -/

theorem Accounted.tableSites_apart (accounted : Accounted system) (reserves : system.Reserves (directory / 4096))
    (bound : directory < 2 ^ 32) : (sites directory).Apart (insert .directory system.kernel.vmm.tableSites) where
  distinct := by
    intro site member other also same
    rcases member with rfl | ⟨slot, page, used, rfl⟩
    · rcases also with rfl | ⟨slot, page, used, rfl⟩
      · rfl
      · have here : directory / 4096 = page / 4096 := same
        exact absurd (here ▸ Owner.mem_table slot page) (reserves.unheld (.table slot page) used)
    · rcases also with rfl | ⟨second, pt, also, rfl⟩
      · have here : page / 4096 = directory / 4096 := same
        exact absurd (here ▸ Owner.mem_table slot page) (reserves.unheld (.table slot page) used)
      · have here : page / 4096 = pt / 4096 := same
        by_contra differ
        have owners : Owner.table slot page ≠ .table second pt := by
          intro equal
          cases equal
          exact differ rfl
        have disjoint := accounted.owned.apart (show Owner.table slot page ∈ system.owners from used)
          (show Owner.table second pt ∈ system.owners from also) owners
        exact Set.disjoint_left.mp disjoint (Owner.mem_table slot page) (here ▸ Owner.mem_table second pt)
  inside := by
    intro site member
    rcases member with rfl | ⟨slot, page, used, rfl⟩
    · change directory / 4096 < 2 ^ 20
      omega
    · exact Owner.page_lt accounted (show Owner.table slot page ∈ system.owners from used) (Owner.mem_table slot page)
  fits := by
    intro site member
    rcases member with rfl | ⟨slot, page, used, rfl⟩
    · exact Nat.le_refl 1024
    · exact Nat.le_refl 1024

/-- The tables in use before a `vmm_map` are in use behind it. -/
theorem Mapping.tableSites {after : Vmm} (mapping : Mapping fuel phys virt flags vmm after) :
    insert .directory vmm.tableSites ∪ after.tableSites = insert .directory after.tableSites := by
  rw [Set.insert_union, Set.union_eq_self_of_subset_left]
  intro site used
  obtain ⟨slot, page, used, rfl⟩ := used
  exact ⟨slot, page, mapping.root_kept used, rfl⟩

/-- The bytes stand for page tables that were obtained, and the page of the directory is the kernel's own. -/
structure Standing (directory first : Nat) (obtained : Set Nat) (state : RamSystem) (system : System) : Prop
    extends Provenance first obtained system where
  represents : Represents directory (insert .directory system.kernel.vmm.tableSites) system.kernel state.ram
  held : state.held = system.held
  reserves : system.Reserves (directory / 4096)

namespace Standing

variable (standing : Standing directory first obtained state system)
include standing

theorem tablesOwned : state.ram.TablesOwned directory first obtained where
  owned := by
    intro slot pt present
    rw [standing.represents.pmm]
    exact standing.owned_page (standing.represents.tableAt_iff.mp present)
  apart := by
    intro slot other pt one two
    exact standing.toSound.apart slot other pt (standing.represents.tableAt_iff.mp one) (standing.represents.tableAt_iff.mp two)

theorem fits (fits : Ram.Fits directory (state.ram, call)) (makes : RamMakes directory state call after) :
    Fits (2 ^ 20) system call := by
  intro purpose count position request
  cases request with
  | pages next => exact fits position _ (standing.represents.pmm.symm ▸ next)
  | table vacant next =>
      refine fits (fun pt present => ?_) position _ (standing.represents.pmm.symm ▸ next)
      cases vacant.symm.trans (standing.represents.tableAt_iff.mp present)
  | heap | head | block | blockTable => cases makes

theorem pmmAlloc {ptr : Nat} (positive : 0 < count) (run : state.ram.pmmAlloc fuel count = .done ptr ram)
    (fits : Fits (2 ^ 20) system (.pmmAlloc count)) :
    ∃ next, Standing directory first obtained ⟨ram, .raw ⟨ptr, count⟩ :: state.held⟩ next := by
  obtain ⟨pmm, alloc, rfl⟩ := Outcome.within_done.mp run
  rw [standing.represents.pmm] at alloc
  have makes : Makes system (.pmmAlloc count) ⟨system.kernel.withPmm pmm, .raw ⟨ptr, count⟩ :: system.held⟩ := .pmmAlloc positive alloc
  have handed := makes.handed fits (Nat.le_refl _)
  have provided : Provided system.kernel.vmm.pmm (Holder.raw ⟨ptr, count⟩).allocation (2 ^ 20) pmm :=
    pmmAlloc_provided positive alloc handed (Nat.le_refl _)
  exact ⟨_, standing.toProvenance.kept (makes.sound standing.toSound handed) rfl, standing.represents.withPmm pmm,
    congrArg (_ :: ·) standing.held, standing.reserves.acquire provided⟩

theorem pmmFree {owner : Allocation} (member : .raw owner ∈ state.held) :
    ∃ next, Standing directory first obtained
      ⟨state.ram.pmmFree owner.ptr owner.count, state.held.erase (.raw owner)⟩ next := by
  rw [standing.held] at member ⊢
  have makes : Makes system (.pmmFree owner) _ := .pmmFree member
  have sound := makes.sound standing.toSound (.of_subset used_pmmFree_subset)
  have represented := standing.represents.withPmm (Memory.pmmFree owner.ptr owner.count system.kernel.vmm.pmm)
  rw [← standing.represents.pmm] at represented
  exact ⟨_, standing.toProvenance.kept sound rfl, by rw [← standing.represents.pmm]; exact represented, rfl,
    standing.reserves.release standing.toAccounted member⟩

theorem vmmMap (root : Views directory system.kernel directory .directory) (bound : virt < 2 ^ 32)
    (reached : ∀ pt, Ram.WorksOn directory (state.ram, .vmmMap phys virt flags) pt → X86.translate state.ram.memory directory pt = some pt)
    (run : state.ram.vmmMap directory fuel phys virt flags = .done () ram) (fits : Fits (2 ^ 20) system (.vmmMap phys virt flags)) :
    ∃ next, Standing directory first (obtained ∪ { pt | Ram.Obtains directory (state.ram, .vmmMap phys virt flags) pt })
      ⟨ram, state.held⟩ next := by
  obtain ⟨vmm, map⟩ := standing.represents.vmmMap_returned root bound run
  have makes : Makes system (.vmmMap phys virt flags) ⟨system.kernel.withVmm vmm, system.held⟩ := .vmmMap bound map
  have handed := makes.handed fits (Nat.le_refl _)
  have sound := makes.sound standing.toSound handed
  have mapping := vmmMap_done bound map
  have reserves : System.Reserves ⟨system.kernel.withVmm vmm, system.held⟩ (directory / 4096) :=
    standing.reserves.mapping mapping handed
  have sites := mapping.tableSites
  have views : ∀ pt, vmm.tree.root (virt >>> 22) = some pt → Views directory system.kernel pt (.table pt) := by
    intro pt used
    refine standing.represents.table_views used (reached pt ?_)
    rcases mapping.table_from used with earlier | ⟨vacant, alloc⟩
    · exact .inl (standing.represents.tableAt_iff.mpr earlier)
    · exact .inr ((standing.represents.obtains_iff root bound phys flags).mpr ⟨vacant, fuel, vmm.pmm, alloc⟩)
  have apart := Accounted.tableSites_apart sound.toAccounted reserves root.word
  have fresh : FreshTable fuel virt system.kernel.vmm vmm := standing.toSound.freshTable handed
  obtain ⟨after, returned, represented, _⟩ := standing.represents.vmmMap root bound map fresh views (sites ▸ apart)
  rw [run] at returned
  cases returned
  rw [sites] at represented
  have same : { pt | Ram.Obtains directory (state.ram, .vmmMap phys virt flags) pt } =
      { pt | Obtains (system, .vmmMap phys virt flags) pt } := by
    ext pt
    exact standing.represents.obtains_iff root bound phys flags
  rw [same]
  exact ⟨_, standing.toProvenance.map sound mapping handed, represented, standing.held, reserves⟩

theorem vmmUnmap (root : Views directory system.kernel directory .directory) (bound : virt < 2 ^ 32)
    (reached : ∀ pt, state.ram.TableAt directory (virt >>> 22) pt → X86.translate state.ram.memory directory pt = some pt)
    (low : directory < 0x400000) (keeps : KeepsFirstTable (system, .vmmUnmap virt))
    (run : state.ram.vmmUnmap directory virt = .done () ram) :
    ∃ next, Standing directory first obtained ⟨ram, state.held⟩ next := by
  have makes : Makes system (.vmmUnmap virt) _ := .vmmUnmap bound
  have unmapping : Unmapping virt system.kernel.vmm (Memory.vmmUnmap virt system.kernel.vmm) := vmmUnmap_cases bound
  have sound := makes.sound standing.toSound (.of_subset unmapping.used_subset)
  have represented := standing.represents.vmmUnmap_returned root standing.toSound.apart bound
    (fun pt used => standing.represents.table_views used (reached pt (standing.represents.tableAt_iff.mpr used))) ?_ run
  · have fewer : insert Site.directory (Memory.vmmUnmap virt system.kernel.vmm).tableSites ⊆
        insert .directory system.kernel.vmm.tableSites := by
      refine Set.insert_subset_insert fun site used => ?_
      obtain ⟨slot, page, used, rfl⟩ := used
      exact ⟨slot, page, unmapping.table_from used, rfl⟩
    exact ⟨_, standing.toProvenance.unmap sound unmapping keeps, represented.mono fewer (Set.mem_insert _ _) (Set.subset_insert _ _),
      standing.held, standing.reserves.unmapping unmapping⟩
  · intro pt used empty same
    refine keeps.frees standing.table ⟨used, empty⟩ ?_
    rw [slotOf_eq]
    omega

/-- A call that reaches the kernel and its page table keeps all this. -/
theorem step (placed : image.Directory finish directory) (here : image.firstPageTable = first)
    (reaches : Ram.Reaches directory image.textStart finish (state.ram, call)) :
    (∀ after, RamMakes directory state call after → Ram.Fits directory (state.ram, call) →
      ∃ next, Standing directory first (obtained ∪ { pt | Ram.Obtains directory (state.ram, call) pt }) after next) ∧
    ∀ pt, Ram.Frees directory (state.ram, call) pt → pt ∈ obtained := by
  have inside := placed.inside
  have root : Views directory system.kernel directory .directory := by
    have low := placed.low.1
    refine standing.represents.views_of_translate placed.aligned (by omega) ?_ (reaches.kernel directory inside.1 inside.2)
    have aligned := placed.aligned
    change directory / 4096 * 4096 = directory
    omega
  have mapped : ∀ address, image.textStart ≤ address → address < finish → address < 0x400000 → system.kernel.vmm.walk address ≠ none := by
    intro address lower upper low absent
    have there := reaches.kernel address lower upper
    rw [X86.translate, standing.represents.pageWalk (by omega), absent] at there
    cases there
  have keeps : ∀ virt, KeepsFirstTable (system, .vmmUnmap virt) := by
    intro virt _
    have low := placed.low
    by_cases other : directory / 4096 = virt / 4096
    · refine ⟨first, here ▸ low.2, ?_, here ▸ mapped _ placed.first.1 placed.first.2 low.2⟩
      have apart := placed.apart
      omega
    · exact ⟨directory, low.1, other, mapped directory inside.1 inside.2 low.1⟩
  have quiet : ∀ {other : Call} {next : RamSystem}, (∀ pt, ¬ Ram.Obtains directory (state.ram, other) pt) →
      (∃ system, Standing directory first obtained next system) →
      ∃ system, Standing directory first (obtained ∪ { pt | Ram.Obtains directory (state.ram, other) pt }) next system := by
    intro other next none reached
    rw [Set.eq_empty_of_forall_notMem (s := { pt | Ram.Obtains directory (state.ram, other) pt }) none, Set.union_empty]
    exact reached
  refine ⟨fun after makes fits => ?_, fun pt frees => ?_⟩
  · have fits := standing.fits fits makes
    cases makes with
    | pmmAlloc positive run => exact quiet (fun _ => id) (standing.pmmAlloc positive run fits)
    | pmmFree member => exact quiet (fun _ => id) (standing.pmmFree member)
    | vmmMap bound run => exact standing.vmmMap root bound reaches.table run fits
    | vmmUnmap bound run => exact quiet (fun _ => id) (standing.vmmUnmap root bound reaches.table placed.low.1 (keeps _) run)
  · cases call with
    | vmmUnmap virt =>
        have structured : Frees (system, .vmmUnmap virt) pt := standing.represents.frees standing.toSound.apart root
          (fun pt used => standing.represents.table_views used (reaches.table pt (standing.represents.tableAt_iff.mpr used))) frees
        exact standing.toProvenance.frees (keeps virt) structured
    | _ => exact frees.elim

end Standing

theorem RamTraced.standing {start : RamSystem} (run : RamTraced directory start trace state)
    (standing : Standing directory image.firstPageTable initial start system) (placed : image.Directory finish directory)
    (reaches : ∀ event ∈ trace, Ram.Reaches directory image.textStart finish event) :
    (∃ next, Standing directory image.firstPageTable (Ram.ObtainedBy directory initial trace) state next) ∧
      Ram.FreesOwn directory initial trace := by
  induction run with
  | start =>
      have none : Ram.ObtainedBy directory initial [] = initial := by simp [Ram.ObtainedBy]
      exact ⟨⟨system, none.symm ▸ standing⟩, trivial⟩
  | @step trace before after call _ makes fits ih =>
      obtain ⟨here, earlier⟩ := List.forall_mem_cons.mp reaches
      obtain ⟨⟨next, reached⟩, own⟩ := ih earlier
      obtain ⟨kept, frees⟩ := reached.step placed rfl here
      have cons : Ram.ObtainedBy directory initial ((before.ram, call) :: trace) =
          Ram.ObtainedBy directory initial trace ∪ { pt | Ram.Obtains directory (before.ram, call) pt } := by
        ext pt
        simp only [Ram.ObtainedBy, Set.mem_union, Set.mem_ofPred_eq, List.exists_mem_cons_iff, or_assoc]
        rw [or_comm (a := Ram.Obtains directory (before.ram, call) pt)]
      rw [cons]
      exact ⟨kept after makes fits, frees, own⟩

/-- The bytes behind `vmm_install`. -/
theorem VmmInstalled.standing {boot : System} (installed : VmmInstalled mbd kernelEnd image boot system)
    (handed : HandsOutBelow (2 ^ 20) boot.kernel.vmm.pmm system.kernel.vmm.pmm) (reserves : boot.Reserves (directory / 4096))
    (represents : Represents directory (insert .directory system.kernel.vmm.tableSites) system.kernel ram) :
    ∃ boots, Traced boot boots system ∧ Standing directory image.firstPageTable (ObtainedBy boots) ⟨ram, []⟩ system := by
  obtain ⟨paging, fuel, vmm, run, rfl⟩ := installed
  obtain ⟨boots, traced, provenance, reserved⟩ := paging.mapKernel_traced reserves run handed
  exact ⟨boots, traced, provenance, represents, rfl, reserved⟩

/-- From the state `vmm_install` builds, the frames of page tables are owned in every run
whose calls reach the kernel and their page tables, and no call of them frees another's
frame, whether it returns or not. -/
theorem page_tables_owned {boot : System} (installed : VmmInstalled mbd kernelEnd image boot system)
    (handed : HandsOutBelow (2 ^ 20) boot.kernel.vmm.pmm system.kernel.vmm.pmm)
    (placed : image.Directory (kernelFinish mbd kernelEnd) directory) (reserves : boot.Reserves (directory / 4096))
    (represents : Represents directory (insert .directory system.kernel.vmm.tableSites) system.kernel ram)
    (run : RamTraced directory ⟨ram, []⟩ trace state)
    (reaches : ∀ event ∈ (state.ram, call) :: trace, Ram.Reaches directory image.textStart (kernelFinish mbd kernelEnd) event) :
    ∃ boots, Traced boot boots system ∧
      state.ram.TablesOwned directory image.firstPageTable (Ram.ObtainedBy directory (ObtainedBy boots) trace) ∧
      Ram.FreesOwn directory (ObtainedBy boots) ((state.ram, call) :: trace) := by
  obtain ⟨here, earlier⟩ := List.forall_mem_cons.mp reaches
  obtain ⟨boots, traced, standing⟩ := installed.standing handed reserves represents
  obtain ⟨⟨next, reached⟩, own⟩ := run.standing standing placed earlier
  exact ⟨boots, traced, reached.tablesOwned, (reached.step placed rfl here).2, own⟩

/-! Where the condition fails -/

/-- A table that is made for a page and given back with it is left empty. -/
theorem Mapping.unmapped {before middle after : Vmm} (mapping : Mapping fuel phys virt flags before middle)
    (vacant : before.tree.root (virt >>> 22) = none) (used : middle.tree.root (virt >>> 22) = some pt)
    (unmapping : Unmapping virt middle after) :
    after.tree.root = before.tree.root ∧ ∀ index, after.tree.table pt index = none := by
  cases mapping with
  | shared table => cases vacant.symm.trans table
  | @created made attachedTo _ alloc attached tree =>
      have root : middle.tree.root = Function.update before.tree.root (virt >>> 22) (some made) := by
        rw [tree, attached]
        rfl
      rw [root, Function.update_self] at used
      cases used
      have cleared : ∀ index, (middle.tree.write pt (virt >>> 12 &&& 0x3FF) none).table pt index = none := by
        refine Directory.write_none_empty.mpr fun index other => ?_
        rw [tree, attached]
        simp only [Directory.write, Directory.attach, Function.update_self, Function.update_of_ne other]
      have here : middle.tree.root (virt >>> 22) = some pt := by rw [root, Function.update_self]
      cases unmapping with
      | absent missing => cases missing.symm.trans here
      | kept table erased remains =>
          cases table.symm.trans here
          rw [erased] at remains
          exact absurd cleared (not_forall.mpr remains)
      | released table erased _ _ detached =>
          cases table.symm.trans here
          rw [detached, erased]
          refine ⟨?_, cleared⟩
          change Function.update middle.tree.root (virt >>> 22) none = before.tree.root
          rw [root, Function.update_idem, ← vacant, Function.update_eq_self]

namespace Represents

/-- A `vmm_map` of a page over another one, whose table it reaches: behind it the one shows the other. -/
theorem vmmMap_shows {seen : Nat} (represents : Represents directory live kernel ram) (apart : kernel.vmm.tree.Apart)
    (root : Views directory kernel directory .directory) (bound : virt < 2 ^ 32) (aligned : virt % 4096 = 0)
    (used : kernel.vmm.tree.root (virt >>> 22) = some pt) (reached : Views directory kernel pt (.table pt))
    (elsewhere : directory / 4096 ≠ virt / 4096) (word : seen < 2 ^ 32) (other : seen ≠ pt) :
    ∃ vmm after, ram.vmmMap directory 0 seen virt 0x3 = .done () after ∧ Represents directory live (kernel.withVmm vmm) after ∧
      vmm.tree.root = kernel.vmm.tree.root ∧ vmm.tree.table seen = kernel.vmm.tree.table seen ∧
      (∀ start < 2 ^ 32, start / 4096 ≠ virt / 4096 → vmm.walk start = kernel.vmm.walk start) ∧
      Views directory (kernel.withVmm vmm) directory .directory ∧ Views directory (kernel.withVmm vmm) virt (.table seen) := by
  have present : kernel.vmm.tree.root (virt >>> 22) = none →
      ∀ larger, 0 ≤ larger → pmmAlloc larger 1 kernel.vmm.pmm = .done 0 kernel.vmm.pmm :=
    fun absent => by cases absent.symm.trans used
  have returns : ∃ vmm, ∀ larger, 0 ≤ larger → Memory.vmmMap larger seen virt 0x3 kernel.vmm = .done () vmm :=
    vmmMap_returns bound present
  obtain ⟨vmm, map⟩ := returns
  have map := map 0 (Nat.le_refl _)
  have mapping := vmmMap_done bound map
  have fresh : FreshTable 0 virt kernel.vmm vmm := fun _ absent => by cases absent.symm.trans used
  have tree : vmm.tree = kernel.vmm.tree.write pt (virt >>> 12 &&& 0x3FF) (entryOf (pageBase seen ||| 0x3)) := by
    cases mapping with
    | shared table _ tree =>
        cases used.symm.trans table
        exact tree
    | created absent => cases absent.symm.trans used
  have same : vmm.tree.root = kernel.vmm.tree.root := by rw [tree, Directory.write_root]
  have union : live ∪ vmm.tableSites = live := by
    refine Set.union_eq_left.mpr fun site named => ?_
    obtain ⟨slot, frame, named, rfl⟩ := named
    exact represents.tables slot frame (same ▸ named)
  have tables : ∀ page, vmm.tree.root (virt >>> 22) = some page → Views directory kernel page (.table page) := by
    intro page named
    rw [same] at named
    cases used.symm.trans named
    exact reached
  obtain ⟨after, run, represented, _⟩ := represents.vmmMap root bound map fresh tables (by rw [union]; exact represents.apart)
  have walk : ∀ {start : Nat}, start < 2 ^ 32 → vmm.walk start =
      if start / 4096 = virt / 4096 then some (pageBase seen, 0x3) else kernel.vmm.walk start :=
    fun below => mapping.walk_flags fresh apart (by decide) (by decide) below
  refine ⟨vmm, after, run, union ▸ represented, same, ?_, fun start below away => (walk below).trans (if_neg away),
    root.of_walk ((walk root.word).trans (if_neg elsewhere)), aligned, bound, 0x3, (walk bound).trans ((if_pos rfl).trans ?_)⟩
  · rw [tree]
    simp only [Directory.write, Function.update_of_ne other]
  · change some (pageBase seen, 0x3) = some (seen / 4096 * 4096, 0x3)
    rw [pageBase_eq word]

/-- `vmm_unmap` gives a table back, whatever is in it, where its page shows another one
that is empty and in nobody's use. -/
theorem vmmUnmap_through {seen : Nat} (represents : Represents directory live system.kernel ram)
    (root : Views directory system.kernel directory .directory) (bound : virt < 2 ^ 32)
    (used : system.kernel.vmm.tree.root (virt >>> 22) = some pt) (window : Views directory system.kernel pt (.table seen))
    (member : .table seen ∈ live) (unused : system.kernel.vmm.tree.Unused seen)
    (empty : ∀ index, system.kernel.vmm.tree.table seen index = none) :
    Ram.Frees directory (ram, .vmmUnmap virt) pt ∧ ∃ after, ram.vmmUnmap directory virt = .done () after := by
  obtain ⟨_, present, base⟩ := Vmm.tree_root_some.mp used
  have index := indexOf_lt virt
  have read := represents.read_entry root bound
  have written := represents.write window member index 0
  have cleared := represents.store member index 0
  have still : ∀ {start : Nat} {site : Site}, Views directory system.kernel start site →
      Views directory (system.kernel.withVmm (system.kernel.vmm.store seen (virt >>> 12 &&& 0x3FF) 0)) start site :=
    fun views => views.of_walk (withTable_walk unused views.word)
  have scan := cleared.tableEmpty (still window) member (Nat.le_of_eq (Nat.zero_add 1024))
  have clear : ((List.range' 0 1024).all fun i =>
      (system.kernel.vmm.store seen (virt >>> 12 &&& 0x3FF) 0).memory seen i &&& 0x1 == 0) = true := by
    have whole : Memory.tableEmpty (system.kernel.vmm.store seen (virt >>> 12 &&& 0x3FF) 0) seen = true := by
      rw [tableEmpty_iff, Vmm.tree_store index]
      exact Directory.write_none_empty.mpr fun other _ => empty other
    rwa [Memory.tableEmpty, List.range_eq_range'] at whole
  have scan : (ram.put directory (.table seen) (virt >>> 12 &&& 0x3FF) 0).tableEmpty directory pt 0 1024 =
      .done true (ram.put directory (.table seen) (virt >>> 12 &&& 0x3FF) 0) := by
    rw [scan]
    exact congrArg (Outcome.done · (ram.put directory (.table seen) (virt >>> 12 &&& 0x3FF) 0)) clear
  refine ⟨⟨bound, _, _, read, by rwa [Present, and_one_mod], by rwa [pageBase_mod], written, scan⟩, ?_⟩
  have freed := cleared.withPmm (pmmFree pt 1 system.kernel.vmm.pmm)
  have last := freed.write ((still root).of_walk rfl) freed.root (slotOf_lt bound) 0
  have whole : ram.vmmUnmap directory virt = ((ram.put directory (.table seen) (virt >>> 12 &&& 0x3FF) 0).pmmFree pt 1).write
      directory (directory + 4 * (virt >>> 22)) 0 := by
    have there : ¬ system.kernel.vmm.pageDirectory (virt >>> 22) &&& 0x1 = 0 := present
    simp only [Ram.vmmUnmap, read, Outcome.done_bind, and_one_mod, if_neg there, pageBase_mod, base, written, scan]
    rfl
  rw [Ram.pmmFree, show (ram.put directory _ _ 0).pmm = system.kernel.vmm.pmm from represents.pmm] at whole
  exact ⟨_, whole.trans last⟩

end Represents

/-! The sample machine, with its page directory at 0x218000 -/

theorem Accounted.represented (accounted : Accounted system) (reserves : system.Reserves (directory / 4096))
    (bound : directory < 2 ^ 32) (aligned : directory % 4096 = 0) :
    ∃ ram, Represents directory (insert .directory system.kernel.vmm.tableSites) system.kernel ram := by
  have apart := accounted.tableSites_apart reserves bound
  obtain ⟨memory, holds⟩ := Layout.exists_holds apart system.kernel.word
  exact ⟨⟨memory, system.kernel.vmm.pmm, system.kernel.kernelHeap⟩, aligned, apart, Set.mem_insert _ _,
    fun slot page used => Set.mem_insert_of_mem _ ⟨slot, page, used, rfl⟩, holds, rfl, rfl⟩

theorem smallImage_directory : smallImage.Directory (kernelFinish (pcInfo 0x7EE0000 (by decide)) 0x220000) 0x218000 :=
  ⟨by decide, by decide, by decide, by decide, by decide⟩

theorem pcFrames : ∃ booted installed ram, PcInstalled 0x7EE0000 (by decide) 0x221 (pcSystem booted) installed ∧
    (pcSystem booted).Reserves (0x218000 / 4096) ∧ installed.Reserves (0x218000 / 4096) ∧
    Represents 0x218000 (insert .directory installed.kernel.vmm.tableSites) installed.kernel ram := by
  obtain ⟨booted, installed, sample⟩ := pcInstalled
  have map := pcMap_boot 0x7EE0000 (by decide) (by decide) (by decide) (by decide)
  have reserves : (pcSystem booted).Reserves (0x218000 / 4096) := by
    refine sample.installed.paging.reserves map ?_ (by decide) (by decide) (by decide)
    change 0x100000 ≤ 0x218000 / 4096 * 4096
    decide
  obtain ⟨fuel, vmm, run, same⟩ := sample.installed.returns
  have handed := sample.handed
  rw [same] at handed
  obtain ⟨_, _, _, reserved⟩ := sample.installed.paging.mapKernel_traced reserves run handed
  rw [← same] at reserved
  obtain ⟨ram, represents⟩ := sample.paged.toAccounted.represented reserved (by decide) (by decide)
  exact ⟨booted, installed, ram, sample, reserves, reserved, represents⟩

theorem PcInstalled.lowIdentity {boot : System} (sample : PcInstalled 0x7EE0000 (by decide) 0x221 boot system) :
    system.kernel.vmm.LowIdentity := by
  intro virt low
  have apart : virt >>> 22 ≠ 0x101 := by
    rw [slotOf_eq]
    omega
  rw [sample.walk virt (by omega) apart, if_pos low]

theorem Represents.translate_of_walk {flags : Nat} (represents : Represents directory live kernel ram) (bound : start < 2 ^ 32)
    (walk : kernel.vmm.walk start = some (pageBase start, flags)) : X86.translate ram.memory directory start = some start := by
  rw [X86.translate, represents.pageWalk bound, walk]
  change some (pageBase start + start % 4096) = some start
  rw [pageBase_eq bound]
  exact congrArg some (by omega)

theorem Represents.translate_low (represents : Represents directory live kernel ram) (low : kernel.vmm.LowIdentity)
    (small : start < 0x400000) : X86.translate ram.memory directory start = some start :=
  represents.translate_of_walk (Nat.lt_trans small (by decide)) (low start small)

theorem Represents.reaches (represents : Represents directory live kernel ram) (low : kernel.vmm.LowIdentity)
    (inside : finish ≤ 0x400000) (table : ∀ pt, Ram.WorksOn directory (ram, call) pt → pt < 0x400000) :
    Ram.Reaches directory start finish (ram, call) where
  kernel _ _ upper := represents.translate_low low (Nat.lt_of_lt_of_le upper inside)
  table pt works := represents.translate_low low (table pt works)

/-- A page is mapped at 0x40000000: the first clear page, 0x222000, becomes the table. -/
structure PcMapped (installed : System) (ram : Ram) (fuel : Nat) (vmm : Vmm) (mapped : Ram) : Prop where
  mapping : Mapping fuel 0x7000000 0x40000000 0x3 installed.kernel.vmm vmm
  alloc : pmmAlloc fuel 1 installed.kernel.vmm.pmm = .done 0x222000 vmm.pmm
  run : ram.vmmMap 0x218000 fuel 0x7000000 0x40000000 0x3 = .done () mapped
  fits : Ram.Fits 0x218000 (ram, .vmmMap 0x7000000 0x40000000 0x3)
  represents : Represents 0x218000 (insert .directory vmm.tableSites) (installed.kernel.withVmm vmm) mapped
  paged : Paged ⟨installed.kernel.withVmm vmm, []⟩
  low : vmm.LowIdentity
  root : vmm.tree.root = Function.update installed.kernel.vmm.tree.root 0x100 (some 0x222000)

theorem PcInstalled.mapped {boot installed : System} (sample : PcInstalled 0x7EE0000 (by decide) 0x221 boot installed)
    (reserves : installed.Reserves (0x218000 / 4096))
    (represents : Represents 0x218000 (insert .directory installed.kernel.vmm.tableSites) installed.kernel ram) :
    ∃ fuel vmm mapped, PcMapped installed ram fuel vmm mapped := by
  have ascending : installed.kernel.vmm.pmm.Ascending 0x222 0x7EE0 := sample.ascending
  have room : 0x222 + 1 ≤ 0x7EE0 := by decide
  have low := sample.lowIdentity
  have vacant : installed.kernel.vmm.tree.root 0x100 = none := sample.root 0x100
  obtain ⟨fuel, vmm, map, _, _⟩ := ascending.mapping 0x7000000 0x3 (show 0x40000000 < 2 ^ 32 by decide) room
  have map := map fuel (Nat.le_refl _)
  have makes : Makes installed (.vmmMap 0x7000000 0x40000000 0x3) ⟨installed.kernel.withVmm vmm, installed.held⟩ := .vmmMap (by decide) map
  have handed := makes.handed (ascending.fits trivial room (by decide)) (Nat.le_refl _)
  have mapping := vmmMap_done (show 0x40000000 < 2 ^ 32 by decide) map
  have alloc : pmmAlloc fuel 1 installed.kernel.vmm.pmm = .done 0x222000 vmm.pmm := by
    cases mapping with
    | shared table => cases vacant.symm.trans table
    | created _ alloc =>
        rw [alloc, (ascending.taken Nat.one_pos room alloc).1]
        rfl
  have root : vmm.tree.root = Function.update installed.kernel.vmm.tree.root 0x100 (some 0x222000) := by
    cases mapping with
    | shared table => cases vacant.symm.trans table
    | created _ again attached tree =>
        rw [alloc] at again
        cases again
        rw [tree, attached]
        rfl
  have unheld : System.mk installed.kernel [] = installed := by
    rw [← sample.unheld]
  have held : System.mk (installed.kernel.withVmm vmm) installed.held = ⟨installed.kernel.withVmm vmm, []⟩ := by
    rw [sample.unheld]
  obtain ⟨paged, identity⟩ := vmmMap_lowIdentity (unheld.symm ▸ sample.paged) low
    (show KernelPage 0x7000000 0x40000000 0x3 from ⟨by decide, .inl (by decide)⟩) map handed
  have reserved : System.Reserves ⟨installed.kernel.withVmm vmm, installed.held⟩ (0x218000 / 4096) :=
    reserves.mapping mapping handed
  have union := mapping.tableSites
  have apart : (sites 0x218000).Apart (insert .directory vmm.tableSites) :=
    Accounted.tableSites_apart (held ▸ paged.toAccounted) reserved (by decide)
  have made : ∀ pt, vmm.tree.root (0x40000000 >>> 22) = some pt → Views 0x218000 installed.kernel pt (.table pt) := by
    intro pt used
    refine .used low used ?_
    rw [root] at used
    cases (Function.update_self ..).symm.trans used
    decide
  obtain ⟨mapped, run, represented, _⟩ := represents.vmmMap (.root low (by decide) represents.aligned)
    (show 0x40000000 < 2 ^ 32 by decide) map (sample.paged.freshTable handed) made (union ▸ apart)
  refine ⟨fuel, vmm, mapped, mapping, alloc, run, fun _ position rest next => ?_, union ▸ represented, paged, identity, root⟩
  rw [represents.pmm] at next
  rw [(ascending.window Nat.one_pos room next).1]
  decide

theorem page_tables_owned_apic : ∃ booted installed ram state trace boots,
    VmmInstalled (pcInfo 0x7EE0000 (by decide)) 0x220000 smallImage (pcSystem booted) installed ∧
    RamTraced 0x218000 ⟨ram, []⟩ trace state ∧ trace ≠ [] ∧ Traced (pcSystem booted) boots installed ∧
    state.ram.TablesOwned 0x218000 smallImage.firstPageTable (Ram.ObtainedBy 0x218000 (ObtainedBy boots) trace) ∧
    Ram.FreesOwn 0x218000 (ObtainedBy boots) ((state.ram, .vmmUnmap 0x40000000) :: trace) := by
  obtain ⟨booted, installed, ram, sample, reserves, reserved, represents⟩ := pcFrames
  obtain ⟨fuel, vmm, mapped, step⟩ := sample.mapped reserved represents
  have run : RamTraced 0x218000 ⟨ram, []⟩ [(ram, .vmmMap 0x7000000 0x40000000 0x3)] ⟨mapped, []⟩ :=
    .step .start (.vmmMap (by decide) step.run) step.fits
  have first : Ram.Reaches 0x218000 smallImage.textStart (kernelFinish (pcInfo 0x7EE0000 (by decide)) 0x220000)
      (ram, .vmmMap 0x7000000 0x40000000 0x3) := by
    refine represents.reaches sample.lowIdentity (by decide) fun pt works => ?_
    rcases works with present | obtains
    · have vacant : installed.kernel.vmm.tree.root 0x100 = none := sample.root 0x100
      cases vacant.symm.trans (represents.tableAt_iff.mp present)
    · obtain ⟨_, _, _, alloc⟩ := obtains
      rw [represents.pmm] at alloc
      have ascending : installed.kernel.vmm.pmm.Ascending 0x222 0x7EE0 := sample.ascending
      rw [(ascending.taken Nat.one_pos (by decide) alloc).1]
      decide
  have second : Ram.Reaches 0x218000 smallImage.textStart (kernelFinish (pcInfo 0x7EE0000 (by decide)) 0x220000)
      (mapped, .vmmUnmap 0x40000000) := by
    refine step.represents.reaches step.low (by decide) fun pt present => ?_
    have used := step.represents.tableAt_iff.mp present
    change vmm.tree.root 0x100 = some pt at used
    rw [step.root, Function.update_self] at used
    cases used
    decide
  obtain ⟨boots, traced, owned, own⟩ := page_tables_owned sample.installed sample.handed smallImage_directory reserves represents run
    (List.forall_mem_cons.mpr ⟨second, List.forall_mem_singleton.mpr first⟩)
  exact ⟨booted, installed, ram, ⟨mapped, []⟩, _, boots, sample.installed, run, List.cons_ne_nil _ _, traced, owned, own⟩

theorem PcMapped.emptied {boot installed : System} {mapped : Ram} (step : PcMapped installed ram fuel vmm mapped)
    (sample : PcInstalled 0x7EE0000 (by decide) 0x221 boot installed) :
    ∃ after, mapped.vmmUnmap 0x218000 0x40000000 = .done () after ∧
      Represents 0x218000 (insert .directory vmm.tableSites) (installed.kernel.withVmm (vmmUnmap 0x40000000 vmm)) after ∧
      (vmmUnmap 0x40000000 vmm).tree.Apart ∧ (vmmUnmap 0x40000000 vmm).LowIdentity ∧
      (vmmUnmap 0x40000000 vmm).tree.root = installed.kernel.vmm.tree.root ∧
      ∀ index, (vmmUnmap 0x40000000 vmm).tree.table 0x222000 index = none := by
  have bound : 0x40000000 < 2 ^ 32 := by decide
  have unmapping : Unmapping 0x40000000 vmm (vmmUnmap 0x40000000 vmm) := vmmUnmap_cases bound
  have vacant : installed.kernel.vmm.tree.root (0x40000000 >>> 22) = none := sample.root 0x100
  have made : vmm.tree.root (0x40000000 >>> 22) = some 0x222000 := by
    rw [step.root]
    exact Function.update_self ..
  have apart : vmm.tree.Apart := step.paged.apart
  obtain ⟨root, empty⟩ := step.mapping.unmapped vacant made unmapping
  have below : vmm.TablesBelow := by
    intro slot page used
    rw [step.root, Function.update_apply] at used
    split at used
    · cases used
      decide
    · exact ((sample.anchored (by decide) (by decide)).tables slot page used).2
  obtain ⟨after, run, represented, _⟩ := step.represents.vmmUnmap_high (by decide) step.low apart below bound (by decide)
  refine ⟨after, run, represented, unmapping.apart apart, fun virt small => ?_, root, empty⟩
  rw [unmapping.walk apart (by omega), if_neg (by omega)]
  exact step.low virt small

/-- The calls that follow it: the empty table is mapped over the page of `first_page_table`,
whose table is then given back for it. -/
structure PcHidden (mapped second third fourth : Ram) : Prop where
  unmap : mapped.vmmUnmap 0x218000 0x40000000 = .done () second
  remap : second.vmmMap 0x218000 0 0x222000 0x219000 0x3 = .done () third
  last : third.vmmUnmap 0x218000 0x3FF000 = .done () fourth
  table : second.TableAt 0x218000 0 0x219000
  shared : ∀ pt, ¬ Ram.Obtains 0x218000 (second, .vmmMap 0x222000 0x219000 0x3) pt
  frees : Ram.Frees 0x218000 (third, .vmmUnmap 0x3FF000) 0x219000
  low : ∀ address < 0x400000, X86.translate second.memory 0x218000 address = some address
  others : ∀ address < 0x400000, address / 4096 ≠ 0x219 → X86.translate third.memory 0x218000 address = some address

theorem PcMapped.hidden {boot installed : System} {mapped : Ram} (step : PcMapped installed ram fuel vmm mapped)
    (sample : PcInstalled 0x7EE0000 (by decide) 0x221 boot installed) :
    ∃ second third fourth, PcHidden mapped second third fourth := by
  obtain ⟨second, unmap, represented, apart, low, root, empty⟩ := step.emptied sample
  generalize vmmUnmap 0x40000000 vmm = emptied at represented apart low root empty
  have directory : Views 0x218000 (installed.kernel.withVmm emptied) 0x218000 .directory := .root low (by decide) (by decide)
  have first : emptied.tree.root 0 = some 0x219000 := root ▸ sample.root 0
  have reached : Views 0x218000 (installed.kernel.withVmm emptied) 0x219000 (.table 0x219000) := .used low first (by decide)
  obtain ⟨last, third, remap, seen, same, table, kept, there, window⟩ := represented.vmmMap_shows apart directory
    (show 0x219000 < 2 ^ 32 by decide) (by decide) first reached (by decide) (show 0x222000 < 2 ^ 32 by decide) (by decide)
  have unused : last.tree.Unused 0x222000 := by
    intro slot used
    change last.tree.root = emptied.tree.root at same
    rw [same, root, sample.root] at used
    split at used
    · cases used
    · split at used
      · cases used
      · cases used
  have member : Site.table 0x222000 ∈ insert Site.directory vmm.tableSites := by
    refine .inr ⟨0x100, 0x222000, ?_, rfl⟩
    rw [step.root, Function.update_self]
  have hidden : Represents 0x218000 (insert .directory vmm.tableSites) (System.mk (installed.kernel.withVmm last) []).kernel third := seen
  obtain ⟨frees, fourth, unmapLast⟩ := hidden.vmmUnmap_through there
    (show 0x3FF000 < 2 ^ 32 by decide) (show last.tree.root 0 = some 0x219000 from same ▸ first) window member unused
    fun index => (congrFun table index).trans (empty index)
  refine ⟨second, third, fourth, unmap, remap, unmapLast, represented.tableAt_iff.mpr first, fun pt obtains => ?_, frees,
    fun address small => represented.translate_low low small, fun address small away => ?_⟩
  · have behind : Represents 0x218000 (insert .directory vmm.tableSites) (System.mk (installed.kernel.withVmm emptied) []).kernel second :=
      represented
    have vacant := ((behind.obtains_iff directory (by decide) 0x222000 0x3).mp obtains).1
    cases first.symm.trans vacant
  · have word : address < 2 ^ 32 := Nat.lt_trans small (by decide)
    exact hidden.translate_of_walk word ((kept address word away).trans (low address small))

/-- A page is mapped at 0x40000000 and unmapped again, which leaves its table empty at 0x222000.
With that page mapped over the one of `first_page_table`, the next `vmm_unmap` below 4 MiB
passes `first_page_table` to `pmm_free`. Before every call all other pages of the first 4 MiB,
with the kernel in them, are mapped to themselves. -/
theorem vmmUnmap_frees_first : ∃ booted installed ram state trace boots,
    VmmInstalled (pcInfo 0x7EE0000 (by decide)) 0x220000 smallImage (pcSystem booted) installed ∧
    Represents 0x218000 (insert .directory installed.kernel.vmm.tableSites) installed.kernel ram ∧
    Traced (pcSystem booted) boots installed ∧ RamTraced 0x218000 ⟨ram, []⟩ trace state ∧
    (∀ event ∈ trace, ∀ address < 0x400000, address / 4096 ≠ smallImage.firstPageTable / 4096 →
      X86.translate event.1.memory 0x218000 address = some address) ∧
    ¬ Ram.FreesOwn 0x218000 (ObtainedBy boots) trace := by
  obtain ⟨booted, installed, ram, sample, reserves, reserved, represents⟩ := pcFrames
  obtain ⟨fuel, vmm, mapped, step⟩ := sample.mapped reserved represents
  obtain ⟨boots, traced, standing⟩ := sample.installed.standing sample.handed reserves represents
  obtain ⟨second, third, fourth, hidden⟩ := step.hidden sample
  have one : RamMakes 0x218000 ⟨ram, []⟩ (.vmmMap 0x7000000 0x40000000 0x3) ⟨mapped, []⟩ := .vmmMap (by decide) step.run
  have two : RamMakes 0x218000 ⟨mapped, []⟩ (.vmmUnmap 0x40000000) ⟨second, []⟩ := .vmmUnmap (by decide) hidden.unmap
  have three : RamMakes 0x218000 ⟨second, []⟩ (.vmmMap 0x222000 0x219000 0x3) ⟨third, []⟩ := .vmmMap (by decide) hidden.remap
  have four : RamMakes 0x218000 ⟨third, []⟩ (.vmmUnmap 0x3FF000) ⟨fourth, []⟩ := .vmmUnmap (by decide) hidden.last
  have fits : Ram.Fits 0x218000 (second, .vmmMap 0x222000 0x219000 0x3) := fun absent => absurd hidden.table (absent _)
  have run : RamTraced 0x218000 ⟨ram, []⟩ [(third, .vmmUnmap 0x3FF000), (second, .vmmMap 0x222000 0x219000 0x3),
      (mapped, .vmmUnmap 0x40000000), (ram, .vmmMap 0x7000000 0x40000000 0x3)] ⟨fourth, []⟩ :=
    .step (.step (.step (.step .start one step.fits) two trivial) three fits) four trivial
  refine ⟨booted, installed, ram, _, _, boots, sample.installed, represents, traced, run, ?_, fun own => ?_⟩
  · refine List.forall_mem_cons.mpr ⟨hidden.others, List.forall_mem_cons.mpr ⟨fun address small _ => hidden.low address small,
      List.forall_mem_cons.mpr ⟨?_, List.forall_mem_singleton.mpr ?_⟩⟩⟩
    · exact fun address small _ => step.represents.translate_low step.low small
    · exact fun address small _ => represents.translate_low sample.lowIdentity small
  · rcases own.1 0x219000 hidden.frees with earlier | ⟨event, member, obtains⟩
    · exact standing.never earlier
    · rcases List.mem_cons.mp member with rfl | member
      · exact hidden.shared 0x219000 obtains
      · rcases List.mem_cons.mp member with rfl | member
        · exact obtains
        · cases List.mem_singleton.mp member
          obtain ⟨_, _, _, alloc⟩ := obtains
          rw [represents.pmm] at alloc
          have ascending : installed.kernel.vmm.pmm.Ascending 0x222 0x7EE0 := sample.ascending
          exact absurd (ascending.taken Nat.one_pos (by decide) alloc).1 (by decide)

end BarrelOS.Memory
