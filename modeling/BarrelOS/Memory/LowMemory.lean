import BarrelOS.Memory.Installed

namespace BarrelOS.Memory

open BarrelOS.Boot BarrelOS.Data BarrelOS.Semantics

variable {mbd : MultibootInfo} {kernelEnd fuel n virt : Nat} {image : Image} {system start before after : System}
  {call : Call} {block : Block} {kernel : Kernel}

/-- The machine once `vmm_install` and `malloc_init` have returned, with a kernel
whose sections end inside the first 4 MiB. -/
structure Booted (mbd : MultibootInfo) (kernelEnd : Nat) (image : Image) (start : System) : Prop where
  low : image.Low
  installed : ∃ (paging : System) (fuel : Nat) (vmm : Vmm), PagingOn mbd kernelEnd image paging ∧
    mapKernel fuel image mbd paging.kernel.vmm = .done () vmm ∧
    HandsOutBelow (2 ^ 20) paging.kernel.vmm.pmm vmm.pmm ∧
    Makes ⟨paging.kernel.withVmm vmm, []⟩ .mallocInit start ∧
    Fits (2 ^ 20) ⟨paging.kernel.withVmm vmm, []⟩ .mallocInit

def Vmm.LowIdentity (vmm : Vmm) : Prop :=
  ∀ virt < 0x400000, vmm.walk virt = some (pageBase virt, ptePresent ||| pteWritable)

/-- Every byte of the block, its header included, lies in the higher half. -/
def Block.High (block : Block) : Prop :=
  ∀ i < sizeofHeapBlock + block.size, 0xC0000000 ≤ (block.header + i) % 2 ^ 32

/-- The heap is all that is used, and every block takes pages below 1 GiB, which
have an address in the higher half. -/
def StaysHigh (system : System) : Call → Prop
  | .heapAlloc n => ∀ count position, Requests system (.heapAlloc n) .block count position →
      pageAddress position / 4096 + count ≤ 2 ^ 18
  | .heapFree _ => True
  | _ => False

/-! Where blocks lie -/

theorem Block.high_iff (placed : block.allocation.Placed) (size : block.size + sizeofHeapBlock + 4095 < 2 ^ 32) :
    block.High ↔ block.allocation.ptr / 4096 + block.allocation.count ≤ 2 ^ 18 := by
  have aligned := placed.aligned
  have below := placed.below
  have count : block.allocation.count = (block.size + 15) / 4096 + 1 := heapPages_eq size
  unfold Block.High
  rw [block.header_eq]
  simp only [higherHalf, sizeofHeapBlock] at *
  constructor
  · intro high
    by_contra wraps
    by_cases low : block.allocation.ptr < 0x40000000
    · have first := high (0x40000000 - block.allocation.ptr) (by omega)
      omega
    · have first := high 0 (by omega)
      omega
  · intro fits i inside
    omega

theorem Block.header_high (placed : block.allocation.Placed)
    (fits : block.allocation.ptr / 4096 + block.allocation.count ≤ 2 ^ 18) : 0xC0000000 ≤ block.header := by
  have aligned := placed.aligned
  have positive := placed.positive
  rw [block.header_eq]
  unfold higherHalf
  omega

/-! The kernel's own mappings -/

theorem vmmMap_lowIdentity (paged : Paged ⟨kernel, []⟩) (identity : kernel.vmm.LowIdentity) {phys flags : Nat}
    {vmm : Vmm} (page : KernelPage phys virt flags) (run : vmmMap fuel phys virt flags kernel.vmm = .done () vmm)
    (handed : HandsOutBelow (2 ^ 20) kernel.vmm.pmm vmm.pmm) :
    Paged ⟨kernel.withVmm vmm, []⟩ ∧ vmm.LowIdentity := by
  have makes : Makes ⟨kernel, []⟩ (.vmmMap phys virt flags) ⟨kernel.withVmm vmm, []⟩ := .vmmMap page.1 run
  refine ⟨makes.paged paged handed, ?_⟩
  intro address low
  have word : address < 2 ^ 32 := Nat.lt_trans low (by decide)
  rw [(vmmMap_done page.1 run).walk (paged.freshTable handed) paged.apart word]
  split
  · rename_i same
    rcases page.2 with ⟨high, _, _⟩ | ⟨rfl, rfl⟩
    · omega
    · rw [entryOf_flags (by decide) (by decide), pageBase_eq word, pageBase_eq page.1, same]
  · exact identity address low

/-- What holds after every call: the accounts are sound, the first 4 MiB are mapped
to themselves, and every block lies in the higher half. -/
structure Undisturbed (system : System) : Prop extends Paged system where
  identity : system.kernel.vmm.LowIdentity
  size : ∀ block, .block block ∈ system.held → block.size + sizeofHeapBlock + 4095 < 2 ^ 32
  below : ∀ block, .block block ∈ system.held → block.allocation.ptr / 4096 + block.allocation.count ≤ 2 ^ 18

theorem Booted.undisturbed (booted : Booted mbd kernelEnd image start) : Undisturbed start := by
  obtain ⟨first, fuel, vmm, paging, run, handed, init, fits⟩ := booted.installed
  have step : ∀ phys virt flags, KernelPage phys virt flags → Keeps (2 ^ 20)
      (fun vmm => Paged ⟨first.kernel.withVmm vmm, []⟩ ∧ vmm.LowIdentity) (vmmMap fuel phys virt flags) := by
    intro phys virt flags page
    constructor
    · intro before after map
      exact (vmmMap_done page.1 map).kept
    · intro before after map handed invariant
      exact vmmMap_lowIdentity invariant.1 invariant.2 page map handed
  have mapped : Paged ⟨first.kernel.withVmm vmm, []⟩ ∧ vmm.LowIdentity := by
    refine (Keeps.mapKernel booted.low step).keeps _ _ run handed ⟨paging.unheld ▸ paging.paged, ?_⟩
    intro address low
    rw [paging.walk (Nat.lt_trans low (by decide)), if_pos low]
  have taken := init.handed fits (Nat.le_refl _)
  have unheld : ∀ block, .block block ∉ start.held := by
    intro block member
    rcases init.block_member mapped.1.toSound taken member with ⟨older, _⟩ | ⟨_, _, _, other, _⟩
    · cases older
    · cases other
  refine ⟨init.paged mapped.1 taken, ?_, fun block member => absurd member (unheld block),
    fun block member => absurd member (unheld block)⟩
  intro address low
  rw [init.walk_frame mapped.1.toSound taken (Nat.lt_trans low (by decide)) nofun]
  exact mapped.2 address low

theorem Served.high {position : Nat} {pmm : Pmm} (served : Served fuel position pmm system block kernel) :
    block.allocation.ptr / 4096 + block.allocation.count ≤ 2 ^ 18 ↔ StaysHigh system (.heapAlloc block.size) := by
  rw [served.start]
  constructor
  · intro below count other request
    obtain ⟨rfl, rfl⟩ := served.unique request
    exact below
  · intro allowed
    exact allowed _ _ served.request

theorem Undisturbed.step (undisturbed : Undisturbed before) (makes : Makes before call after)
    (allowed : StaysHigh before call)
    (handed : HandsOutBelow (2 ^ 20) before.kernel.vmm.pmm after.kernel.vmm.pmm) : Undisturbed after := by
  have paged := undisturbed.toPaged
  have sound := paged.toSound
  refine ⟨makes.paged paged handed, ?_, ?_, ?_⟩
  · intro address low
    have elsewhere : ∀ named, Names before call named → address / 4096 ≠ named / 4096 := by
      have apart : ∀ {block : Block}, block.allocation.Placed →
          block.allocation.ptr / 4096 + block.allocation.count ≤ 2 ^ 18 → address / 4096 ≠ block.header / 4096 := by
        intro block placed below
        have high := Block.header_high placed below
        omega
      intro named names
      cases makes with
      | pmmAlloc | pmmFree | vmmMap | vmmUnmap | mallocInit => exact allowed.elim
      | heapAlloc size run =>
          obtain ⟨position, pmm, served⟩ := sound.served size run handed
          rw [served.named names]
          exact apart served.placed (served.high.mpr allowed)
      | heapFree member =>
          cases names
          exact apart (paged.block_placed member) (undisturbed.below _ member)
    rw [makes.walk_frame sound handed (Nat.lt_trans low (by decide)) elsewhere]
    exact undisturbed.identity address low
  · intro block member
    rcases makes.block_member sound handed member with ⟨older, _⟩ | ⟨_, _, _, _, size, _⟩
    · exact undisturbed.size block older
    · exact size
  · intro block member
    rcases makes.block_member sound handed member with ⟨older, _⟩ | ⟨_, _, _, rfl, _, served⟩
    · exact undisturbed.below block older
    · exact served.high.mpr allowed

theorem Undisturbed.high (undisturbed : Undisturbed system) (member : .block block ∈ system.held) : block.High :=
  (Block.high_iff (undisturbed.block_placed member) (undisturbed.size block member)).mpr
    (undisturbed.below block member)

/-- As long as blocks take pages below 1 GiB, the first 4 MiB stay mapped to
themselves and every block lies in the higher half; a block that takes others
does not. -/
theorem heap_leaves_low_memory (booted : Booted mbd kernelEnd image start)
    (run : SystemRuns (2 ^ 20) StaysHigh start system) :
    (∀ virt < 0x400000, system.kernel.vmm.walk virt = some (pageBase virt, ptePresent ||| pteWritable)) ∧
      (∀ block, .block block ∈ system.held → block.High) ∧
      ∀ n after, Makes system (.heapAlloc n) after → Fits (2 ^ 20) system (.heapAlloc n) →
        ((∀ block, .block block ∈ after.held → block.High) ↔ StaysHigh system (.heapAlloc n)) := by
  have undisturbed : Undisturbed system := run.induct (Nat.le_refl _) booted.undisturbed
    fun _ _ _ before makes _ allowed handed => before.step makes allowed handed
  refine ⟨undisturbed.identity, fun block member => undisturbed.high member, ?_⟩
  intro n after makes fits
  have handed := makes.handed fits (Nat.le_refl _)
  constructor
  · intro high
    cases makes with
    | heapAlloc size run =>
        obtain ⟨position, pmm, served⟩ := undisturbed.served size run handed
        exact served.high.mp ((Block.high_iff served.placed size).mp (high _ List.mem_cons_self))
  · intro allowed block member
    exact (undisturbed.step makes allowed handed).high member

/-! A machine with 2 GiB of extended memory -/

theorem pcBooted : ∃ start, Booted (pcInfo 0x7FF00000 (by decide)) 0x220000 smallImage start ∧ Anchored start ∧
    start.kernel.vmm.pmm.Ascending 0x233 0x7FF00 ∧ start.Vacant (higherHalf (pageAddress 0x233)) := by
  have size : 0x220 + bitmapSizeOf (pcRegion 0x7FF00000 (by decide)) / 4096 = 0x230 := by decide
  obtain ⟨booted, installed, sample⟩ : ∃ booted installed, PcInstalled 0x7FF00000 (by decide) 0x230 (pcSystem booted) installed :=
    size ▸ pcSystem_installed 0x7FF00000 (by decide) (by decide) (by decide) (by decide) (by decide) (by decide)
  have ascending : installed.kernel.vmm.pmm.Ascending 0x231 0x7FF00 := sample.ascending
  have room : 0x231 + Call.mallocInit.most ≤ 0x7FF00 := by decide
  obtain ⟨after, init, following⟩ := ascending.mallocInit sample.unheld room
  have fits : Fits (2 ^ 20) installed .mallocInit := ascending.fits trivial room (by decide)
  have anchored := (sample.anchored (by decide) (by decide)).step init fits (ascending.takesLow trivial room (by decide)) nofun
  have vacant : installed.Vacant (higherHalf (pageAddress 0x233)) := sample.root _
  obtain ⟨paging, fuel, vmm, run, rfl⟩ := sample.installed
  have handed : HandsOutBelow (2 ^ 20) (pcSystem booted).kernel.vmm.pmm vmm.pmm := sample.handed
  refine ⟨_, ⟨smallImage_low, _, fuel, vmm, paging, run, handed, init, fits⟩, anchored, following, ?_⟩
  rw [System.Vacant, init.mallocInit_tree]
  exact vacant

/-- A block of 100 bytes on the sample machine, which needs a page table of its own. -/
theorem pcBooted_small : ∃ start system, Booted (pcInfo 0x7FF00000 (by decide)) 0x220000 smallImage start ∧
    Makes start (.heapAlloc 100) system ∧ Fits (2 ^ 20) start (.heapAlloc 100) ∧ StaysHigh start (.heapAlloc 100) ∧
    (∃ block, .block block ∈ system.held) ∧ Anchored system ∧ system.kernel.vmm.pmm.Ascending 0x235 0x7FF00 ∧
    ¬ system.Vacant (higherHalf (pageAddress 0x235)) := by
  obtain ⟨start, booted, anchored, ascending, vacant⟩ := pcBooted
  have one : heapPages 100 = 1 := by decide
  have room : 0x233 + (Call.heapAlloc 100).most ≤ 0x7FF00 := by decide
  obtain ⟨after, makes, following⟩ := ascending.heapAlloc (n := 100) (by decide) room
  have fits : Fits (2 ^ 20) start (.heapAlloc 100) := ascending.fits (show 0 < heapPages 100 by decide) room (by decide)
  have placed : ∀ {count position : Nat}, Requests start (.heapAlloc 100) .block count position → count = 1 ∧ position = 0x233 :=
    fun request => ascending.block (by decide) (by decide) request
  rw [if_pos vacant] at following
  refine ⟨start, _, booted, makes, fits, fun count position request => ?_, ⟨_, List.mem_cons_self⟩, ?_, following, ?_⟩
  · obtain ⟨rfl, rfl⟩ := placed request
    decide
  · refine anchored.step makes fits (ascending.takesLow (show 0 < heapPages 100 by decide) room (by decide)) fun named names => ?_
    cases names with
    | block request =>
        obtain ⟨rfl, rfl⟩ := placed request
        decide
  · cases makes with
    | heapAlloc _ run =>
        obtain ⟨phys, pmm, alloc, map, _⟩ := heapAlloc_done run
        obtain ⟨rfl, _⟩ := ascending.taken (by decide) (by decide) alloc
        exact (vmmMap_done (higherHalf_lt _) map).present

theorem heap_leaves_low_memory_small :
    ∃ (start system : System) (block : Block),
      Booted (pcInfo 0x7FF00000 (by decide)) 0x220000 smallImage start ∧
      SystemRuns (2 ^ 20) StaysHigh start system ∧ .block block ∈ system.held ∧ block.High ∧
      ∀ virt < 0x400000, system.kernel.vmm.walk virt = some (pageBase virt, ptePresent ||| pteWritable) := by
  obtain ⟨start, system, booted, makes, fits, high, ⟨block, member⟩, _⟩ := pcBooted_small
  have run := SystemRuns.single makes fits high
  have kept := heap_leaves_low_memory booted run
  exact ⟨start, system, block, booted, run, member, kept.2.1 block member, kept.1⟩

/-- A block that lies at 1 GiB takes the bottom of memory. -/
theorem heapAlloc_remaps (anchored : Anchored system) (ascending : system.kernel.vmm.pmm.Ascending (2 ^ 18) 0x7FF00) :
    ∃ after, Makes system (.heapAlloc 100) after ∧ Fits (2 ^ 20) system (.heapAlloc 100) ∧
      after.kernel.vmm.walk 0 = some (0x40000000, ptePresent ||| pteWritable) ∧
      ∀ entry ∈ after.kernel.vmm.derefs, entry.2 = true := by
  have room : 2 ^ 18 + (Call.heapAlloc 100).most ≤ 0x7FF00 := by decide
  obtain ⟨after, makes, _⟩ := ascending.heapAlloc (n := 100) (by decide) room
  have fits : Fits (2 ^ 20) system (.heapAlloc 100) := ascending.fits (show 0 < heapPages 100 by decide) room (by decide)
  have handed := makes.handed fits (Nat.le_refl _)
  have placed : ∀ {count position : Nat}, Requests system (.heapAlloc 100) .block count position → position = 2 ^ 18 :=
    fun request => (ascending.block (by decide) (by decide) request).2
  have mapped : system.kernel.vmm.tree.root 0 ≠ none := by
    intro missing
    obtain ⟨_, walk, _⟩ := (mapsTo_iff anchored.writable (by decide)).mp (anchored.identity 0 (by decide))
    rw [walk_eq_lookup (by decide), Directory.lookup, show (0 : Nat) >>> 22 = 0 from rfl, missing] at walk
    cases walk
  have keeps : KeepsIdentity system (.heapAlloc 100) := by
    constructor
    · intro purpose count position for_what request
      cases request with
      | block => rcases for_what with wrong | wrong <;> cases wrong
      | blockTable first vacant _ =>
          rw [placed (.block first)] at vacant
          exact absurd vacant mapped
    · intro named names slot pt used
      have above := (anchored.tables slot pt used).1
      cases names with
      | block request =>
          rw [placed request, show higherHalf (pageAddress (2 ^ 18)) = 0 by decide]
          omega
  have reached := makes.reached anchored.toPaged handed keeps anchored.reached
  obtain ⟨_, position, _, ptr, _, _, served⟩ := makes.served anchored.toSound handed
  have start : (Block.mk ptr 100).allocation.ptr = 0x40000000 := by
    rw [served.start, placed served.request]
    exact show pageAddress (2 ^ 18) = 0x40000000 by decide
  have header : (Block.mk ptr 100).header = 0 := by
    rw [Block.header_eq, start]
    decide
  have walk := served.walk (show 0 < 2 ^ 32 by decide)
  rw [header, if_pos rfl, start] at walk
  exact ⟨_, makes, fits, walk, reached.derefs⟩

/-- The second block takes what is left of the first gigabyte. The next one lies at
1 GiB, whose higher-half address wraps to the bottom of memory. -/
theorem heapAlloc_remaps_low_memory :
    ∃ start system : System, Booted (pcInfo 0x7FF00000 (by decide)) 0x220000 smallImage start ∧
      SystemRuns (2 ^ 20) (fun _ call => call.Heap) start system ∧ (∀ entry ∈ system.kernel.vmm.derefs, entry.2 = true) ∧
      system.kernel.vmm.walk 0 = some (0x40000000, ptePresent ||| pteWritable) := by
  obtain ⟨start, first, booted, small, smallFits, _, _, anchored, ascending, present⟩ := pcBooted_small
  have pages : heapPages 0x3FDCAFF0 = 0x3FDCB := by decide
  have room : 0x235 + (Call.heapAlloc 0x3FDCAFF0).most ≤ 0x7FF00 := by decide
  obtain ⟨second, makes, following⟩ := ascending.heapAlloc (n := 0x3FDCAFF0) (by decide) room
  rw [if_neg present] at following
  have fits : Fits (2 ^ 20) first (.heapAlloc 0x3FDCAFF0) :=
    ascending.fits (show 0 < heapPages 0x3FDCAFF0 by decide) room (by decide)
  have placed : ∀ {count position : Nat}, Requests first (.heapAlloc 0x3FDCAFF0) .block count position → position = 0x235 :=
    fun request => (ascending.block (by decide) (by decide) request).2
  have low : TakesLow first (.heapAlloc 0x3FDCAFF0) := by
    intro purpose count position for_what request
    cases request with
    | block => rcases for_what with wrong | wrong <;> cases wrong
    | blockTable earlier vacant _ =>
        rw [placed (.block earlier)] at vacant
        exact absurd vacant present
  have kept := anchored.step makes fits low fun named names => by
    cases names with
    | block request =>
        rw [placed request]
        decide
  obtain ⟨after, last, lastFits, walk, derefs⟩ := heapAlloc_remaps kept following
  exact ⟨start, after, booted, ((SystemRuns.single small smallFits trivial).step makes fits trivial).step last lastFits trivial,
    derefs, walk⟩

end BarrelOS.Memory
