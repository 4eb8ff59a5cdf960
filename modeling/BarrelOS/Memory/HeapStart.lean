import BarrelOS.Memory.RamCalls

namespace BarrelOS.Memory

open BarrelOS.Boot BarrelOS.Data BarrelOS.Semantics

/-! The heap as the boot leaves it -/

variable {mbd : MultibootInfo} {kernelEnd fuel phys virt flags lead limit page bound directory : Nat} {image : Image} {kernel : Kernel}
  {vmm after : Vmm} {pmm : Pmm} {system start : System}

/-- What the kernel reaches by its physical address lies below 4 MiB, and the page of the directory is its own. -/
structure LowStart (directory : Nat) (start : System) : Prop where
  directoryLow : directory < 0x400000
  reserves : start.Reserves (directory / 4096)
  heapLow : start.kernel.kernelHeap < 0x400000
  headLow : start.kernel.listHead < 0x400000
  tables : start.kernel.vmm.TablesBelow

theorem mallocInit_linked {before : Kernel} (run : mallocInit fuel before = .done () kernel) :
    (kernel.block kernel.listHead).next = kernel.listHead ∧ (kernel.block kernel.listHead).prev = kernel.listHead := by
  obtain ⟨h, created, create, finished⟩ := Outcome.bind_done.mp run
  cases finished
  have unlinked := heapCreate_unlinked create
  exact ⟨unlinked.next, unlinked.prev⟩

theorem Booted.steady (booted : Booted mbd kernelEnd image start) (low : LowStart directory start) : Steady directory start := by
  have undisturbed := booted.undisturbed
  obtain ⟨_, _, _, _, _, _, init, _⟩ := booted.installed
  cases init with
  | @mallocInit _ kernel _ run =>
      have unheld : ∀ block, .block block ∉ [Holder.heap (kernel.head kernel.kernelHeap), .heap kernel.kernelHeap] := by simp
      have linked := mallocInit_linked run
      refine ⟨undisturbed, ⟨?_, ?_, ?_, low.heapLow, low.headLow, fun block member => absurd member (unheld block)⟩,
        low.directoryLow, low.reserves, low.tables, ?_, fun block member => absurd member (unheld block)⟩
      · exact List.mem_cons_of_mem _ List.mem_cons_self
      · exact List.mem_cons_self
      · intro same
        have distinct := undisturbed.distinct
        refine (List.nodup_cons.mp distinct).1 (List.mem_cons.mpr (.inl ?_))
        exact congrArg Holder.heap same
      · intro node named
        rcases named with rfl | ⟨block, member, _⟩
        · exact linked
        · exact absurd member (unheld block)

/-! The boot leaves the page of the directory alone, and takes pages from the bottom -/

theorem Pmm.Ascending.below_limit (ascending : pmm.Ascending lead limit) (less : bound ≤ limit) : pmm.Ascending lead bound :=
  ⟨ascending.hint, ascending.passed, fun page above below => ascending.free page above (Nat.lt_of_lt_of_le below less),
    Nat.le_trans less ascending.below, ascending.nonzero⟩

theorem System.Reserves.withKernel (reserves : system.Reserves page) (used : kernel.vmm.pmm.used = system.used)
    (root : kernel.vmm.tree.root = system.kernel.vmm.tree.root) : { system with kernel }.Reserves page where
  used := (show page ∈ kernel.vmm.pmm.used from used ▸ reserves.used)
  unheld := by
    rw [owners_withKernel root]
    exact reserves.unheld

theorem System.Reserves.mallocInit (reserves : system.Reserves page) (run : mallocInit fuel system.kernel = .done () kernel)
    (handed : HandsOutBelow (2 ^ 20) system.kernel.vmm.pmm kernel.vmm.pmm) :
    (System.mk kernel (.heap (kernel.head kernel.kernelHeap) :: .heap kernel.kernelHeap :: system.held)).Reserves page := by
  obtain ⟨first, second, alloc, again, vmm⟩ := mallocInit_done run
  have last : kernel.vmm.pmm = second := by rw [vmm, Vmm.deref_pmm, Vmm.deref_pmm]
  rw [last] at handed
  have kept := pmmAlloc_kept Nat.one_pos again
  have heap := pmmAlloc_provided Nat.one_pos alloc (fun page set => handed page (kept set)) (Nat.le_refl _)
  have head := pmmAlloc_provided Nat.one_pos again
    (fun page set => (handed page set).imp_left fun earlier => heap.kept earlier) (Nat.le_refl _)
  have middle : (System.mk (system.kernel.withPmm first) (.heap kernel.kernelHeap :: system.held)).Reserves page := reserves.acquire heap
  have taken : (System.mk ((system.kernel.withPmm first).withPmm second) (.heap (kernel.head kernel.kernelHeap) ::
      .heap kernel.kernelHeap :: system.held)).Reserves page := middle.acquire head
  refine taken.withKernel (congrArg Pmm.used last) ?_
  rw [vmm]
  rfl

theorem Mapping.tables_below (mapping : Mapping fuel phys virt flags vmm after) (handed : HandsOutBelow 0x400 vmm.pmm after.pmm)
    (below : vmm.TablesBelow) : after.TablesBelow := by
  intro slot page used
  rcases mapping.table_from used with earlier | ⟨_, alloc⟩
  · exact below slot page earlier
  · have fits : page / 4096 + 1 ≤ 0x400 := (pmmAlloc_provided Nat.one_pos alloc handed (by decide)).below
    omega

theorem PagingOn.reserves {front back : List MultibootMemoryMap} {region : MultibootMemoryMap}
    (paging : PagingOn mbd kernelEnd image system) (map : BootMap mbd.mmap kernelEnd front region back)
    (above : region.addrLow ≤ page * 4096) (inside : (page + 1) * 4096 ≤ kernelEnd) (covered : page < 8 * bitmapSizeOf region)
    (other : page ≠ image.firstPageTable / 4096) : system.Reserves page where
  used := by
    obtain ⟨fuel, memory, pmm, vmm, install, filled⟩ := paging.installed
    have used := pmmInstall_keeps_kernel map install above inside covered
    change page ∈ system.kernel.vmm.pmm.used
    rw [filled]
    exact used
  unheld := by
    intro owner member taken
    cases owner with
    | caller holder =>
        have held : holder ∈ system.held := member
        rw [paging.unheld] at held
        cases held
    | table slot pt =>
        have here := (paging.root member).2
        have lower : pt / 4096 ≤ page := taken.1
        have upper : page < pt / 4096 + 1 := taken.2
        rw [here] at lower upper
        omega

/-- What `mapKernel` and `mallocInit` take below 4 MiB stays there. -/
theorem lowStart (low : image.Low) {mapped : Vmm} (small : image.firstPageTable < 0x400000) (paging : PagingOn mbd kernelEnd image system)
    (directoryLow : directory < 0x400000) (reserves : system.Reserves (directory / 4096))
    (run : mapKernel fuel image mbd system.kernel.vmm = .done () mapped) (handed : HandsOutBelow 0x400 system.kernel.vmm.pmm mapped.pmm)
    {more : Nat} (init : mallocInit more (system.kernel.withVmm mapped) = .done () kernel)
    (taken : HandsOutBelow 0x400 mapped.pmm kernel.vmm.pmm) :
    LowStart directory ⟨kernel, [.heap (kernel.head kernel.kernelHeap), .heap kernel.kernelHeap]⟩ := by
  have step : ∀ phys virt flags, KernelPage phys virt flags → Keeps 0x400
      (fun vmm => (System.mk (system.kernel.withVmm vmm) []).Reserves (directory / 4096) ∧ vmm.TablesBelow)
      (vmmMap fuel phys virt flags) := by
    intro phys virt flags page
    constructor
    · intro before after map
      exact (vmmMap_done page.1 map).kept
    · intro before after map handed invariant
      have mapping := vmmMap_done page.1 map
      exact ⟨invariant.1.mapping mapping (handed.mono (by decide)), mapping.tables_below handed invariant.2⟩
  have first : (System.mk (system.kernel.withVmm system.kernel.vmm) []).Reserves (directory / 4096) := by
    rw [← paging.unheld]
    exact reserves
  have filled : system.kernel.vmm.TablesBelow := fun slot page used => (paging.root used).2 ▸ small
  obtain ⟨reserved, tables⟩ := (Keeps.mapKernel low step).keeps _ _ run handed ⟨first, filled⟩
  obtain ⟨middle, last, alloc, again, vmm⟩ := mallocInit_done init
  have same : kernel.vmm.pmm = last := by rw [vmm, Vmm.deref_pmm, Vmm.deref_pmm]
  rw [same] at taken
  have kept := pmmAlloc_kept Nat.one_pos again
  have heap := (pmmAlloc_provided Nat.one_pos alloc (fun page set => taken page (kept set)) (by decide)).below
  have head := (pmmAlloc_provided Nat.one_pos again
    (fun page set => (taken page set).imp_left fun earlier => pmmAlloc_kept Nat.one_pos alloc earlier) (by decide)).below
  refine ⟨directoryLow, reserved.mallocInit init (same ▸ taken.mono (by decide)), ?_, ?_, ?_⟩
  · change kernel.kernelHeap / 4096 + 1 ≤ 0x400 at heap
    change kernel.kernelHeap < 0x400000
    omega
  · change kernel.head kernel.kernelHeap / 4096 + 1 ≤ 0x400 at head
    change kernel.head kernel.kernelHeap < 0x400000
    omega
  · intro slot page used
    refine tables slot page ?_
    change kernel.vmm.tree.root slot = some page at used
    rw [vmm] at used
    exact used

/-! The sample machine, with its page directory at 0x218000 -/

theorem pcStart : ∃ start lead, Booted (pcInfo 0x7EE0000 (by decide)) 0x220000 smallImage start ∧ LowStart 0x218000 start ∧
    start.kernel.vmm.pmm.Ascending lead 0x400 ∧ lead ≤ 0x2FF := by
  obtain ⟨booted, paging, _, wide⟩ := pcSystem_small
  have ascending := wide.below_limit (show 0x400 ≤ 0x7EE0 by decide)
  have low : smallImage.Low := ⟨by decide, by decide, by decide, by decide, by decide⟩
  have textMode : (pcInfo 0x7EE0000 (by decide)).vbeMode = 3 := rfl
  obtain ⟨fuel, vmm, lead, run, mapped, least, most, handed⟩ :=
    ascending.mapKernel_within low 0x10 (by decide) (by decide) (by decide) (by decide) textMode (by decide) (by decide)
  have middle : (System.mk ((pcSystem booted).kernel.withVmm vmm) []).kernel.vmm.pmm.Ascending lead 0x400 := mapped
  obtain ⟨after, init, following⟩ := middle.mallocInit rfl (by omega)
  have fits : Fits 0x400 ⟨(pcSystem booted).kernel.withVmm vmm, []⟩ .mallocInit :=
    middle.fits trivial (show lead + 2 ≤ 0x400 by omega) (show lead + 2 ≤ 0x400 by omega)
  have wider : Fits (2 ^ 20) ⟨(pcSystem booted).kernel.withVmm vmm, []⟩ .mallocInit :=
    middle.fits trivial (show lead + 2 ≤ 0x400 by omega) (show lead + 2 ≤ 2 ^ 20 by omega)
  have taken := init.handed fits (by decide)
  have booting : Booted (pcInfo 0x7EE0000 (by decide)) 0x220000 smallImage _ :=
    ⟨low, pcSystem booted, fuel, vmm, paging, run, handed.mono (by decide), init, wider⟩
  refine ⟨_, lead + 2, booting, ?_, following, by omega⟩
  have map := pcMap_boot 0x7EE0000 (by decide) (by decide) (by decide) (by decide)
  have reserves : (pcSystem booted).Reserves (0x218000 / 4096) := by
    refine paging.reserves map ?_ (by decide) (by decide) (by decide)
    change 0x100000 ≤ 0x218000 / 4096 * 4096
    decide
  cases init with
  | mallocInit _ first => exact lowStart low (by decide) paging (by decide) reserves run handed first taken

theorem Steady.represented (steady : Steady directory system) (aligned : directory % 4096 = 0) :
    ∃ ram, Represents directory system.sites system.kernel ram := by
  obtain ⟨memory, holds⟩ := Layout.exists_holds steady.sites_apart system.kernel.word
  have tables : system.kernel.vmm.tableSites ⊆ system.sites := fun site table => System.mem_sites.mpr (.inr (.inl table))
  exact ⟨⟨memory, system.kernel.vmm.pmm, system.kernel.kernelHeap⟩, aligned, steady.sites_apart, System.mem_sites.mpr (.inl rfl),
    fun slot page used => tables ⟨slot, page, used, rfl⟩, holds, rfl, rfl⟩

end BarrelOS.Memory
