import BarrelOS.Memory.HeapSizes

namespace BarrelOS.Memory

open BarrelOS.Boot BarrelOS.Data BarrelOS.Semantics

variable {fuel h n ptr virt : Nat} {start kernel last : Kernel} {block : Block} {base : List Holder}
  {heap before after : HeapState} {grant : Pmm → Pmm → Prop}

/-- A `heap_free` that rejects the block: it reads the magic number of a mapped page,
finds another one, and changes neither the bitmap nor a translation nor a block. -/
structure Rejected (kernel : Kernel) (block : Block) : Prop where
  mapped : kernel.vmm.walk block.header ≠ none
  reported : (kernel.block block.header).magic ≠ heapMagic
  bitmap : (heapFree block.ptr kernel).vmm.pmm.bitmap = kernel.vmm.pmm.bitmap
  walk : ∀ virt < 2 ^ 32, (heapFree block.ptr kernel).vmm.walk virt = kernel.vmm.walk virt
  blocks : (heapFree block.ptr kernel).block = kernel.block

/-- Nothing takes the magic number away: `heap_free` leaves it in the header. -/
def Marked (heap : HeapState) : Prop :=
  ∀ block, block ∈ heap.live ∨ block ∈ heap.freed → (heap.kernel.block block.header).magic = heapMagic

theorem Marked.call (marked : Marked before) (made : HeapCall h before after) : Marked after := by
  cases made with
  | @alloc _ n ptr kernel _ run =>
      obtain ⟨_, _, header, written, _, _, magic⟩ := heapAlloc_writes run
      have marks : (kernel.block (Block.mk ptr n).header).magic = heapMagic := by
        rw [written, Function.update_self]
        exact magic
      intro block member
      by_cases here : block.header = (Block.mk ptr n).header
      · exact (congrArg (fun address => (kernel.block address).magic) here).trans marks
      · rw [written, Function.update_of_ne here]
        refine marked block (member.imp_left fun listed => ?_)
        refine (List.mem_cons.mp listed).resolve_left ?_
        intro new
        exact here (congrArg Block.header new)
  | @free freed member =>
      have magic := marked freed (.inl member)
      have here : (freed.ptr + 2 ^ 32 - sizeofHeapBlock) % 2 ^ 32 = freed.header := rfl
      obtain ⟨_, _, _, headers⟩ := heapFree_done here magic
      intro block listed
      rw [(headers block.header).2]
      rcases listed with kept | gone
      · exact marked block (.inl (List.mem_of_mem_erase kept))
      · rcases List.mem_cons.mp gone with same | older
        · exact same ▸ magic
        · exact marked block (.inr older)

theorem Marked.runs (marked : Marked before) (run : HeapRuns grant h before after) : Marked after := by
  induction run with
  | refl => exact marked
  | tail _ last ih => exact ih.call last.1

/-- A second `heap_free` of a block is never rejected, whatever happened since the first. -/
theorem second_free_never_rejected (run : HeapRuns (fun _ _ => True) h ⟨start, [], []⟩ heap)
    (freed : block ∈ heap.freed) : ¬ Rejected heap.kernel block := by
  have opened : Marked ⟨start, [], []⟩ := by
    intro block member
    rcases member with live | gone
    · cases live
    · cases gone
  intro rejected
  exact rejected.reported (opened.runs run block (.inr freed))

/-! What a second `heap_free` meets -/

namespace HeapSound

theorem alloc_walk (sound : HeapSound base before) (run : heapAlloc fuel h n before.kernel = .done ptr kernel)
    (handed : HandsOutBelow (2 ^ 20) before.kernel.vmm.pmm kernel.vmm.pmm) (bound : virt < 2 ^ 32)
    (elsewhere : virt / 4096 ≠ (Block.mk ptr n).header / 4096) : kernel.vmm.walk virt = before.kernel.vmm.walk virt := by
  rcases Nat.eq_zero_or_pos (heapPages n) with none | positive
  · obtain ⟨here, mapping, _⟩ := heapAlloc_empty none run
    have middle := sound.rewound
    rw [here] at elsewhere
    exact (mapping.walk (middle.freshTable handed) middle.apart bound).trans (if_neg elsewhere)
  · obtain ⟨position, pmm, served⟩ := sound.sound.provides positive run handed
    exact (served.walk bound).trans (if_neg elsewhere)

theorem free_walk (sound : HeapSound base before) (member : block ∈ before.live) (bound : virt < 2 ^ 32) :
    (heapFree block.ptr before.kernel).vmm.walk virt =
      if virt / 4096 = block.header / 4096 then none else before.kernel.vmm.walk virt := by
  rw [(sound.freed member).1]
  have unmapping := @vmmUnmap_cases block.header { before.kernel.vmm with
    pmm := pmmFree (physical block.header) (heapPages block.size) before.kernel.vmm.pmm } block.header_lt
  exact unmapping.walk sound.sound.apart bound

end HeapSound

/-- A block that was given back is not mapped, unless a live block has its place. -/
structure Departed (heap : HeapState) : Prop where
  aligned : ∀ block, block ∈ heap.live ∨ block ∈ heap.freed → block.header % 4096 = 0
  gone : ∀ block ∈ heap.freed, heap.kernel.vmm.walk block.header = none ∨
    ∃ other ∈ heap.live, other.header = block.header

namespace Departed

theorem alloc (departed : Departed before) (sound : HeapSound base before)
    (run : heapAlloc fuel h n before.kernel = .done ptr kernel)
    (handed : HandsOutBelow (2 ^ 20) before.kernel.vmm.pmm kernel.vmm.pmm) :
    Departed { before with kernel, live := ⟨ptr, n⟩ :: before.live } := by
  obtain ⟨_, page, _⟩ := heapAlloc_writes run
  refine ⟨?_, ?_⟩
  · intro block member
    rcases member with listed | gone
    · rcases List.mem_cons.mp listed with new | older
      · exact new ▸ page
      · exact departed.aligned block (.inl older)
    · exact departed.aligned block (.inr gone)
  · intro block freed
    by_cases same : (Block.mk ptr n).header = block.header
    · exact .inr ⟨_, List.mem_cons_self, same⟩
    · have aligned := departed.aligned block (.inr freed)
      have elsewhere : block.header / 4096 ≠ (Block.mk ptr n).header / 4096 := by omega
      have walk := sound.alloc_walk run handed block.header_lt elsewhere
      refine (departed.gone block freed).imp walk.trans ?_
      intro taken
      obtain ⟨other, older, here⟩ := taken
      exact ⟨other, List.mem_cons_of_mem _ older, here⟩

theorem free (departed : Departed before) (sound : HeapSound base before) (member : block ∈ before.live) :
    Departed ⟨heapFree block.ptr before.kernel, before.live.erase block, block :: before.freed⟩ := by
  refine ⟨?_, ?_⟩
  · intro other listed
    rcases listed with kept | gone
    · exact departed.aligned other (.inl (List.mem_of_mem_erase kept))
    · rcases List.mem_cons.mp gone with same | older
      · exact same ▸ departed.aligned block (.inl member)
      · exact departed.aligned other (.inr older)
  · intro other gone
    change (heapFree block.ptr before.kernel).vmm.walk other.header = none ∨ _
    rw [sound.free_walk member other.header_lt]
    by_cases here : other.header / 4096 = block.header / 4096
    · exact .inl (if_pos here)
    · rw [if_neg here]
      rcases List.mem_cons.mp gone with same | older
      · exact absurd (congrArg (fun freed => freed.header / 4096) same) here
      · refine (departed.gone other older).imp_right ?_
        intro taken
        obtain ⟨holder, live, place⟩ := taken
        have differs : holder ≠ block := by
          intro same
          exact here (congrArg (· / 4096) (place.symm.trans (congrArg Block.header same)))
        exact ⟨holder, (List.mem_erase_of_ne differs).mpr live, place⟩

theorem call (departed : Departed before) (sound : HeapSound base before) (made : HeapCall h before after)
    (handed : HandsOutBelow (2 ^ 20) before.kernel.vmm.pmm after.kernel.vmm.pmm) : Departed after := by
  cases made with
  | alloc _ run => exact departed.alloc sound run handed
  | free member => exact departed.free sound member

theorem runs (departed : Departed before) (sound : HeapSound base before)
    (run : HeapRuns (HandsOutBelow (2 ^ 20)) h before after) : Departed after := by
  induction run with
  | refl => exact departed
  | tail earlier last ih => exact ih.call (sound.runs earlier) last.1 last.2

end Departed

/-- A second `heap_free` either reads a page that is not mapped, or tears down a live
block in the same place. -/
theorem second_free_faults_or_takes (sound : Sound ⟨start, base⟩) (reserved : nullPage ∈ base)
    (run : HeapRuns (HandsOutBelow (2 ^ 20)) h ⟨start, [], []⟩ heap) (freed : block ∈ heap.freed) :
    heap.kernel.vmm.walk block.header = none ∨
      ∃ other ∈ heap.live, other.header = block.header ∧ GivesBack heap.kernel block (heapPages other.size) := by
  have opened : HeapSound base ⟨start, [], []⟩ := sound.opened reserved
  have outset : Departed ⟨start, [], []⟩ := ⟨by simp, by simp⟩
  have following := opened.runs run
  refine ((outset.runs opened run).gone block freed).imp_right ?_
  intro taken
  obtain ⟨other, live, place⟩ := taken
  obtain ⟨size, magic⟩ := following.header live
  rw [place] at size magic
  have here : (block.ptr + 2 ^ 32 - sizeofHeapBlock) % 2 ^ 32 = block.header := rfl
  have vmm := (heapFree_done here magic).1
  rw [size] at vmm
  exact ⟨other, live, place, magic, vmm⟩

/-! The heap of the sample machine -/

theorem pcHeap_freed : ∃ booted installed fuel kernel heap,
    VmmInstalled (pcInfo 0x7EE0000 (by decide)) 0x220000 smallImage (pcSystem booted) installed ∧
    mallocInit fuel installed.kernel = .done () kernel ∧
    HeapRuns (fun _ _ => True) kernel.kernelHeap ⟨kernel, [], []⟩ heap ∧
    ⟨0xC0224010, 100⟩ ∈ heap.freed ∧ heap.kernel.vmm.walk 0xC0224000 = none := by
  obtain ⟨booted, installed, fuel, more, kernel, base, last, behind, init, sound, reserved, alloc, handed⟩ := pcHeap_hundred
  have opened : HeapSound base ⟨kernel, [], []⟩ := sound.opened reserved
  have allocated : HeapSound base ⟨last, [⟨0xC0224010, 100⟩], []⟩ := opened.alloc alloc handed
  have first : HeapCall kernel.kernelHeap ⟨kernel, [], []⟩ ⟨last, [⟨0xC0224010, 100⟩], []⟩ := .alloc (by decide) alloc
  have second : HeapCall kernel.kernelHeap ⟨last, [⟨0xC0224010, 100⟩], []⟩ _ := .free List.mem_cons_self
  have whole : HeapRuns (fun _ _ => True) kernel.kernelHeap ⟨kernel, [], []⟩ _ :=
    .tail (.single ⟨first, trivial⟩) ⟨second, trivial⟩
  refine ⟨booted, installed, fuel, kernel, _, behind, init, whole, List.mem_cons_self, ?_⟩
  exact allocated.free_walk List.mem_cons_self (show 0xC0224000 < 2 ^ 32 by decide)

theorem second_free_never_rejected_hundred : ∃ booted installed fuel kernel heap,
    VmmInstalled (pcInfo 0x7EE0000 (by decide)) 0x220000 smallImage (pcSystem booted) installed ∧
    mallocInit fuel installed.kernel = .done () kernel ∧
    HeapRuns (fun _ _ => True) kernel.kernelHeap ⟨kernel, [], []⟩ heap ∧
    ⟨0xC0224010, 100⟩ ∈ heap.freed ∧ ¬ Rejected heap.kernel ⟨0xC0224010, 100⟩ := by
  obtain ⟨booted, installed, fuel, kernel, heap, behind, init, run, freed, _⟩ := pcHeap_freed
  exact ⟨booted, installed, fuel, kernel, heap, behind, init, run, freed, second_free_never_rejected run freed⟩

/-- Freed twice in a row, the block is read through a page that is not mapped. -/
theorem heapFree_again_reads_unmapped : ∃ booted installed fuel kernel heap,
    VmmInstalled (pcInfo 0x7EE0000 (by decide)) 0x220000 smallImage (pcSystem booted) installed ∧
    mallocInit fuel installed.kernel = .done () kernel ∧
    HeapRuns (fun _ _ => True) kernel.kernelHeap ⟨kernel, [], []⟩ heap ∧
    ⟨0xC0224010, 100⟩ ∈ heap.freed ∧ heap.kernel.vmm.walk 0xC0224000 = none ∧
    ¬ Rejected heap.kernel ⟨0xC0224010, 100⟩ := by
  obtain ⟨booted, installed, fuel, kernel, heap, behind, init, run, freed, walk⟩ := pcHeap_freed
  refine ⟨booted, installed, fuel, kernel, heap, behind, init, run, freed, walk, ?_⟩
  intro rejected
  exact rejected.mapped walk

end BarrelOS.Memory
