import BarrelOS.Memory.HeapList

namespace BarrelOS.Memory

open BarrelOS.Boot BarrelOS.Data BarrelOS.Semantics

variable {fuel h n ptr slot page pages : Nat} {start kernel last : Kernel} {block : Block} {base : List Holder}
  {heap before after : HeapState} {system : System}

/-! Blocks of any 32-bit size -/

/-- Page 0, which nothing hands out. -/
def nullPage : Holder := .raw ⟨0, 1⟩

/-- What is held when `base` is held besides: a block without pages holds none. -/
def HeapState.held (base : List Holder) (heap : HeapState) : List Holder :=
  (heap.live.filter fun block => 0 < heapPages block.size).map Holder.block ++ base

theorem held_cons (positive : 0 < heapPages block.size) :
    HeapState.held base { heap with kernel, live := block :: heap.live } = .block block :: heap.held base := by
  simp [HeapState.held, positive]

theorem held_cons_empty (none : heapPages block.size = 0) :
    HeapState.held base { heap with kernel, live := block :: heap.live } = heap.held base := by
  simp [HeapState.held, none]

theorem held_member (member : block ∈ heap.live) (positive : 0 < heapPages block.size) :
    .block block ∈ heap.held base := by
  refine List.mem_append_left _ (List.mem_map_of_mem ?_)
  simpa using ⟨member, positive⟩

theorem held_erase {freed : List Block} (member : block ∈ heap.live) (positive : 0 < heapPages block.size) :
    HeapState.held base ⟨kernel, heap.live.erase block, freed⟩ = (heap.held base).erase (.block block) := by
  have listed : Holder.block block ∈
      (heap.live.filter fun block => 0 < heapPages block.size).map Holder.block := by
    refine List.mem_map_of_mem ?_
    simpa using ⟨member, positive⟩
  rw [HeapState.held, HeapState.held, List.erase_append_left _ listed, ← List.erase_filter,
    List.map_erase fun _ _ same => Holder.block.inj same]

theorem held_erase_empty {freed : List Block} (none : heapPages block.size = 0) :
    HeapState.held base ⟨kernel, heap.live.erase block, freed⟩ = heap.held base := by
  rw [HeapState.held, HeapState.held, ← List.erase_filter, List.erase_of_not_mem]
  simp [none]

/-- A request whose pages wrap to none is put at the higher-half address of page 0. -/
theorem heapAlloc_empty (none : heapPages n = 0) (run : heapAlloc fuel h n kernel = .done ptr last) :
    (Block.mk ptr n).header = higherHalf 0 ∧
      Mapping fuel 0 (higherHalf 0) (ptePresent ||| pteWritable)
        (kernel.withPmm (kernel.vmm.pmm.withLastPage 0)).vmm last.vmm ∧
      ∃ header, last.block = Function.update kernel.block (higherHalf 0) header ∧ header.size = n ∧
        header.magic = heapMagic := by
  obtain ⟨phys, pmm, alloc, map, returned, _, _, written⟩ := heapAlloc_done run
  rw [none] at alloc
  obtain ⟨rfl, rfl⟩ := pmmAlloc_zero alloc
  have mapping := vmmMap_done (higherHalf_lt 0) map
  rw [physical_higherHalf (by decide)] at mapping
  exact ⟨(Block.of_done (by decide) returned).1, mapping, _, written, rfl, rfl⟩

theorem Sound.header_ne (sound : Sound system) (null : nullPage ∈ system.held)
    (member : .block block ∈ system.held) : block.header ≠ higherHalf 0 := by
  intro same
  have first : block.allocation.ptr = 0 := by
    change physical block.header = 0
    rw [same]
    decide
  have disjoint := sound.owned.apart (show Owner.caller (.block block) ∈ system.owners from member)
    (show Owner.caller nullPage ∈ system.owners from null) nofun
  have inside := (sound.block_placed member).first
  rw [first] at inside
  exact Set.disjoint_left.mp disjoint inside ⟨Nat.le_refl _, Nat.one_pos⟩

/-- The heap's accounts: its blocks are sound over what else is held, and a block
without pages has the header that the last one of them got. -/
structure HeapSound (base : List Holder) (heap : HeapState) : Prop where
  sound : Sound ⟨heap.kernel, heap.held base⟩
  reserved : nullPage ∈ base
  empty : ∀ block ∈ heap.live, heapPages block.size = 0 → block.header = higherHalf 0 ∧
    heapPages (heap.kernel.block (higherHalf 0)).size = 0 ∧ (heap.kernel.block (higherHalf 0)).magic = heapMagic

theorem Sound.opened {freed : List Block} (sound : Sound ⟨kernel, base⟩) (reserved : nullPage ∈ base) :
    HeapSound base ⟨kernel, [], freed⟩ where
  sound := by simpa [HeapState.held] using sound
  reserved
  empty := by simp

namespace HeapSound

theorem null (sound : HeapSound base heap) : nullPage ∈ heap.held base :=
  List.mem_append_right _ sound.reserved

/-- The search hint is in nobody's accounts. -/
theorem rewound (sound : HeapSound base heap) :
    Accounted ⟨heap.kernel.withPmm (heap.kernel.vmm.pmm.withLastPage 0), heap.held base⟩ :=
  ⟨sound.sound.owned, sound.sound.placed, sound.sound.distinct⟩

theorem header (sound : HeapSound base heap) (member : block ∈ heap.live) :
    heapPages (heap.kernel.block block.header).size = heapPages block.size ∧
      (heap.kernel.block block.header).magic = heapMagic := by
  rcases Nat.eq_zero_or_pos (heapPages block.size) with none | positive
  · obtain ⟨here, size, magic⟩ := sound.empty block member none
    rw [here, none]
    exact ⟨size, magic⟩
  · obtain ⟨size, magic⟩ := sound.sound.header block (held_member member positive)
    exact ⟨congrArg heapPages size, magic⟩

theorem alloc (sound : HeapSound base before) (run : heapAlloc fuel h n before.kernel = .done ptr kernel)
    (handed : HandsOutBelow (2 ^ 20) before.kernel.vmm.pmm kernel.vmm.pmm) :
    HeapSound base { before with kernel, live := ⟨ptr, n⟩ :: before.live } := by
  rcases Nat.eq_zero_or_pos (heapPages n) with none | positive
  · obtain ⟨here, mapping, header, written, size, magic⟩ := heapAlloc_empty none run
    have mapped : Accounted ⟨kernel, before.held base⟩ := sound.rewound.mapping mapping handed
    have same := @held_cons_empty kernel ⟨ptr, n⟩ base before none
    have new : (kernel.block (higherHalf 0)).size = n ∧ (kernel.block (higherHalf 0)).magic = heapMagic := by
      rw [written, Function.update_self]
      exact ⟨size, magic⟩
    refine ⟨same ▸ ⟨mapped, ?_⟩, sound.reserved, ?_⟩
    · intro block member
      rw [written, Function.update_of_ne (sound.sound.header_ne sound.null member)]
      exact sound.sound.header block member
    · intro block member empty
      refine ⟨?_, by rw [new.1, none], new.2⟩
      rcases List.mem_cons.mp member with first | older
      · exact first ▸ here
      · exact (sound.empty block older empty).1
  · have same := @held_cons kernel ⟨ptr, n⟩ base before positive
    have following := sound.sound.heapAlloc positive run handed
    refine ⟨same ▸ following, sound.reserved, ?_⟩
    intro block member empty
    rcases List.mem_cons.mp member with first | older
    · subst first
      exact absurd empty (Nat.ne_of_gt positive)
    · obtain ⟨position, pmm, served⟩ := sound.sound.provides positive run handed
      have apart := following.header_ne (List.mem_cons_of_mem _ sound.null) List.mem_cons_self
      obtain ⟨header, written, _⟩ := served.written
      rw [written, Function.update_of_ne apart.symm]
      exact sound.empty block older empty

/-- A `heap_free` gives the pages back that the block was allocated with, and unmaps
its first page. -/
theorem freed (sound : HeapSound base heap) (member : block ∈ heap.live) :
    (heapFree block.ptr heap.kernel).vmm = vmmUnmap block.header
        { heap.kernel.vmm with pmm := pmmFree (physical block.header) (heapPages block.size) heap.kernel.vmm.pmm } ∧
      ∀ address, ((heapFree block.ptr heap.kernel).block address).size = (heap.kernel.block address).size ∧
        ((heapFree block.ptr heap.kernel).block address).magic = (heap.kernel.block address).magic := by
  obtain ⟨size, magic⟩ := sound.header member
  have here : (block.ptr + 2 ^ 32 - sizeofHeapBlock) % 2 ^ 32 = block.header := rfl
  obtain ⟨vmm, _, _, headers⟩ := heapFree_done here magic
  rw [size] at vmm
  exact ⟨vmm, headers⟩

theorem free (sound : HeapSound base before) (member : block ∈ before.live) :
    HeapSound base ⟨heapFree block.ptr before.kernel, before.live.erase block, block :: before.freed⟩ := by
  obtain ⟨vmm, headers⟩ := sound.freed member
  have empties : ∀ other ∈ before.live.erase block, heapPages other.size = 0 → other.header = higherHalf 0 ∧
      heapPages ((heapFree block.ptr before.kernel).block (higherHalf 0)).size = 0 ∧
      ((heapFree block.ptr before.kernel).block (higherHalf 0)).magic = heapMagic := by
    intro other kept empty
    rw [(headers (higherHalf 0)).1, (headers (higherHalf 0)).2]
    exact sound.empty other (List.mem_of_mem_erase kept) empty
  rcases Nat.eq_zero_or_pos (heapPages block.size) with none | positive
  · rw [none] at vmm
    have unmapping : Unmapping block.header before.kernel.vmm (heapFree block.ptr before.kernel).vmm := by
      rw [vmm]
      exact vmmUnmap_cases block.header_lt
    have same := @held_erase_empty (heapFree block.ptr before.kernel) block base before (block :: before.freed) none
    refine ⟨same ▸ ⟨sound.sound.unmapping unmapping, ?_⟩, sound.reserved, empties⟩
    intro other kept
    rw [(headers other.header).1, (headers other.header).2]
    exact sound.sound.header other kept
  · have same := @held_erase (heapFree block.ptr before.kernel) block base before (block :: before.freed) member positive
    exact ⟨same ▸ sound.sound.heapFree (held_member member positive), sound.reserved, empties⟩

theorem call (sound : HeapSound base before) (made : HeapCall h before after)
    (handed : HandsOutBelow (2 ^ 20) before.kernel.vmm.pmm after.kernel.vmm.pmm) : HeapSound base after := by
  cases made with
  | alloc _ run => exact sound.alloc run handed
  | free member => exact sound.free member

theorem runs (sound : HeapSound base before) (run : HeapRuns (HandsOutBelow (2 ^ 20)) h before after) :
    HeapSound base after := by
  induction run with
  | refl => exact sound
  | tail _ step ih => exact ih.call step.1 step.2

end HeapSound

/-! What `heap_alloc` takes is what `heap_free` gives back -/

/-- A `heap_free` of the block accepts it and hands so many pages to `pmm_free`,
before it unmaps the block. -/
def GivesBack (kernel : Kernel) (block : Block) (pages : Nat) : Prop :=
  (kernel.block block.header).magic = heapMagic ∧
    (heapFree block.ptr kernel).vmm = vmmUnmap block.header
      { kernel.vmm with pmm := pmmFree (physical block.header) pages kernel.vmm.pmm }

/-- Page 0 can be held besides, where no page table lies in it. -/
theorem Sound.holdsNull (sound : Sound system) (unheld : system.held = []) (reserved : 0 ∈ system.used)
    (above : ∀ slot page, system.kernel.vmm.tree.root slot = some page → 4096 ≤ page) :
    Sound { system with held := [nullPage] } where
  owned := by
    have owners : System.owners { system with held := [nullPage] } = insert (.caller nullPage) system.owners := by
      have cons := @owners_cons system system.kernel.vmm.pmm nullPage
      rwa [unheld] at cons
    rw [owners]
    have null : ∀ resource ∈ (Owner.caller nullPage).pages, resource = 0 :=
      fun resource inside => Nat.lt_one_iff.mp (show resource < 0 + 1 from inside.2)
    refine ⟨?_, sound.owned.apart.insert ?_⟩
    · intro owner member resource inside
      rcases Set.mem_insert_iff.mp member with here | older
      · subst owner
        exact null resource inside ▸ reserved
      · exact sound.owned.held owner older inside
    · intro owner member _
      refine Set.disjoint_left.mpr ?_
      intro resource inside table
      rw [null resource inside] at table
      cases owner with
      | caller holder => exact absurd (unheld ▸ member : holder ∈ []) List.not_mem_nil
      | table slot page =>
          have first := above slot page member
          have lower : page / 4096 ≤ 0 := table.1
          omega
  placed := by
    intro holder member
    cases List.mem_singleton.mp member
    exact ⟨rfl, Nat.one_pos, by decide⟩
  distinct := List.nodup_singleton _
  header := by
    intro block member
    cases List.mem_singleton.mp member

/-- `malloc_init` on the sample machine, which holds page 0. -/
theorem pcHeap_sound : ∃ booted installed fuel kernel base,
    VmmInstalled (pcInfo 0x7EE0000 (by decide)) 0x220000 smallImage (pcSystem booted) installed ∧
    mallocInit fuel installed.kernel = .done () kernel ∧ Sound ⟨kernel, base⟩ ∧ nullPage ∈ base ∧
    kernel.vmm.pmm.Ascending 0x224 0x7EE0 := by
  obtain ⟨booted, installed, started, sample, makes, fits, following⟩ := pcHeap
  have handed := makes.handed fits (Nat.le_refl _)
  have opened : Sound { installed with held := [nullPage] } := by
    refine sample.paged.toSound.holdsNull sample.unheld sample.null fun slot page used => ?_
    rw [sample.root] at used
    split at used
    · cases used
      decide
    · split at used
      · cases used
        decide
      · cases used
  cases makes with
  | @mallocInit _ kernel _ run =>
      have first : ∀ block, Holder.block block ∉ [nullPage] := by
        intro block member
        cases List.mem_singleton.mp member
      have again : Makes { installed with held := [nullPage] } .mallocInit _ := .mallocInit first run
      exact ⟨booted, installed, _, kernel, _, sample.installed, run, again.sound opened handed, by simp, following⟩

theorem pcHeap_hundred : ∃ booted installed fuel more kernel base last,
    VmmInstalled (pcInfo 0x7EE0000 (by decide)) 0x220000 smallImage (pcSystem booted) installed ∧
    mallocInit fuel installed.kernel = .done () kernel ∧ Sound ⟨kernel, base⟩ ∧ nullPage ∈ base ∧
    heapAlloc more kernel.kernelHeap 100 kernel = .done 0xC0224010 last ∧
    HandsOutBelow (2 ^ 20) kernel.vmm.pmm last.vmm.pmm := by
  obtain ⟨booted, installed, fuel, kernel, base, behind, init, sound, reserved, ascending⟩ := pcHeap_sound
  obtain ⟨more, last, run, _⟩ :=
    @Pmm.Ascending.served 0x224 0x7EE0 100 kernel ascending kernel.kernelHeap (by decide) (by decide)
  have alloc := run more (Nat.le_refl _)
  have system : (System.mk kernel base).kernel.vmm.pmm.Ascending 0x224 0x7EE0 := ascending
  have fits : Fits (2 ^ 20) ⟨kernel, base⟩ (.heapAlloc 100) :=
    system.fits (show 0 < heapPages 100 by decide) (by decide) (by decide)
  have makes : Makes ⟨kernel, base⟩ (.heapAlloc 100) _ := .heapAlloc (by decide) alloc
  exact ⟨booted, installed, fuel, more, kernel, base, last, behind, init, sound, reserved, alloc,
    makes.handed fits (Nat.le_refl _)⟩

end BarrelOS.Memory
