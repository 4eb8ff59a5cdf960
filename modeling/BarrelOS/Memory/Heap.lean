import BarrelOS.Memory.Paging

namespace BarrelOS.Memory

open BarrelOS.Data BarrelOS.Semantics

/-- `HIGHER_HALF` and `PHYSICAL`, which wrap at 32 bits. -/
def higherHalf (ptr : Nat) : Nat := (ptr + 0xC0000000) % 2 ^ 32

def physical (ptr : Nat) : Nat := (ptr + 2 ^ 32 - 0xC0000000) % 2 ^ 32

def heapMagic : Nat := 0xdeadbeef

/-- `struct heap_block`. -/
structure HeapBlock where
  next : Nat
  prev : Nat
  size : Nat
  magic : Nat
deriving DecidableEq, Repr

def sizeofHeapBlock : Nat := 16

/-- The state of the memory manager: the page tables, `h->head` of the heap at
an address, the block header at an address, and `kernel_heap`. -/
structure Kernel where
  vmm : Vmm
  head : Nat → Nat
  block : Nat → HeapBlock
  kernelHeap : Nat

namespace Kernel

def withPmm (kernel : Kernel) (pmm : Pmm) : Kernel :=
  { kernel with vmm := { kernel.vmm with pmm } }

def withVmm (kernel : Kernel) (vmm : Vmm) : Kernel := { kernel with vmm }

def setBlock (kernel : Kernel) (address : Nat) (header : HeapBlock) : Kernel :=
  { kernel with block := Function.update kernel.block address header }

end Kernel

def heapCreate (fuel : Nat) (kernel : Kernel) : Outcome Kernel Nat :=
  ((pmmAlloc fuel 1 kernel.vmm.pmm).within kernel.withPmm).bind fun h kernel =>
  ((pmmAlloc fuel 1 kernel.vmm.pmm).within kernel.withPmm).bind fun head kernel =>
    let kernel := { kernel with
      vmm := (kernel.vmm.deref h).deref head
      head := Function.update kernel.head h head }
    .done h (kernel.setBlock head { next := head, prev := head, size := 0, magic := heapMagic })

/-- The pages of a block of `n` bytes behind its header. -/
def heapPages (n : Nat) : Nat := divCeiling (sizeofHeapBlock + n) 4096

def heapAlloc (fuel h n : Nat) (kernel : Kernel) : Outcome Kernel Nat :=
  ((pmmAlloc fuel (heapPages n) kernel.vmm.pmm).within kernel.withPmm).bind fun ptr kernel =>
    let block := higherHalf ptr
    ((vmmMap fuel (physical block) block (ptePresent ||| pteWritable) kernel.vmm).within
      kernel.withVmm).bind fun _ kernel =>
        let head := kernel.head h
        .done ((block + sizeofHeapBlock) % 2 ^ 32) (kernel.setBlock block
          { next := head, prev := (kernel.block head).prev, size := n, magic := heapMagic })

/-- `block->prev->next = block->next`. -/
def linkNext (block : Nat) (kernel : Kernel) : Kernel :=
  let prev := (kernel.block block).prev
  kernel.setBlock prev { kernel.block prev with next := (kernel.block block).next }

/-- `block->next->prev = block->prev`. -/
def linkPrev (block : Nat) (kernel : Kernel) : Kernel :=
  let next := (kernel.block block).next
  kernel.setBlock next { kernel.block next with prev := (kernel.block block).prev }

/-- A block without its magic number is reported and left alone. -/
def heapFree (ptr : Nat) (kernel : Kernel) : Kernel :=
  let block := (ptr + 2 ^ 32 - sizeofHeapBlock) % 2 ^ 32
  if (kernel.block block).magic ≠ heapMagic then kernel
  else
    let kernel := linkPrev block (linkNext block kernel)
    let pages := heapPages (kernel.block block).size
    let kernel := kernel.withPmm (pmmFree (physical block) pages kernel.vmm.pmm)
    kernel.withVmm (vmmUnmap block kernel.vmm)

def mallocInit (fuel : Nat) (kernel : Kernel) : Outcome Kernel Unit :=
  (heapCreate fuel kernel).bind fun h kernel => .done () { kernel with kernelHeap := h }

def kmalloc (fuel n : Nat) (kernel : Kernel) : Outcome Kernel Nat :=
  heapAlloc fuel kernel.kernelHeap n kernel

def kfree (ptr : Nat) (kernel : Kernel) : Kernel := heapFree ptr kernel

variable {fuel h n ptr : Nat} {before after : Kernel}

theorem higherHalf_lt (ptr : Nat) : higherHalf ptr < 2 ^ 32 := Nat.mod_lt _ (by decide)

theorem physical_higherHalf (word : ptr < 2 ^ 32) : physical (higherHalf ptr) = ptr := by
  unfold physical higherHalf
  omega

theorem higherHalf_page_injective {page other : Nat} (left : page < 2 ^ 20) (right : other < 2 ^ 20)
    (same : higherHalf (page * 4096) / 4096 = higherHalf (other * 4096) / 4096) : page = other := by
  unfold higherHalf at same
  omega

theorem heapPages_eq (size : n + sizeofHeapBlock + 4095 < 2 ^ 32) :
    heapPages n = (n + 15) / 4096 + 1 := by
  unfold heapPages divCeiling
  unfold sizeofHeapBlock at *
  omega

theorem heapAlloc_done (run : heapAlloc fuel h n before = .done ptr after) :
    ∃ phys pmm, pmmAlloc fuel (heapPages n) before.vmm.pmm = .done phys pmm ∧
      vmmMap fuel (physical (higherHalf phys)) (higherHalf phys) (ptePresent ||| pteWritable)
        { before.vmm with pmm } = .done () after.vmm ∧
      ptr = (higherHalf phys + sizeofHeapBlock) % 2 ^ 32 ∧
      after.head = before.head ∧ after.kernelHeap = before.kernelHeap ∧
      after.block = Function.update before.block (higherHalf phys)
        { next := before.head h, prev := (before.block (before.head h)).prev, size := n, magic := heapMagic } := by
  obtain ⟨phys, allocated, search, rest⟩ := Outcome.bind_done.mp run
  obtain ⟨pmm, alloc, embedded⟩ := Outcome.within_done.mp search
  cases embedded
  obtain ⟨_, mapped, mapping, finished⟩ := Outcome.bind_done.mp rest
  obtain ⟨vmm, map, embedded⟩ := Outcome.within_done.mp mapping
  cases embedded
  injection finished with returned state
  subst returned state
  refine ⟨phys, pmm, alloc, map, rfl, rfl, rfl, ?_⟩
  simp only [Kernel.setBlock, Kernel.withVmm, Kernel.withPmm]

theorem setBlock_header {address target : Nat} {kernel : Kernel} {header : HeapBlock}
    (size : header.size = (kernel.block target).size) (magic : header.magic = (kernel.block target).magic) :
    ((kernel.setBlock target header).block address).size = (kernel.block address).size ∧
      ((kernel.setBlock target header).block address).magic = (kernel.block address).magic := by
  by_cases same : address = target
  · subst address
    simpa [Kernel.setBlock] using ⟨size, magic⟩
  · simp [Kernel.setBlock, same]

theorem unlink_header (block address : Nat) (kernel : Kernel) :
    ((linkPrev block (linkNext block kernel)).block address).size = (kernel.block address).size ∧
      ((linkPrev block (linkNext block kernel)).block address).magic = (kernel.block address).magic := by
  have first : ((linkNext block kernel).block address).size = (kernel.block address).size ∧
      ((linkNext block kernel).block address).magic = (kernel.block address).magic := setBlock_header rfl rfl
  have second : ((linkPrev block (linkNext block kernel)).block address).size =
        ((linkNext block kernel).block address).size ∧
      ((linkPrev block (linkNext block kernel)).block address).magic =
        ((linkNext block kernel).block address).magic := setBlock_header rfl rfl
  exact ⟨second.1.trans first.1, second.2.trans first.2⟩

theorem heapFree_done {block : Nat} (here : (ptr + 2 ^ 32 - sizeofHeapBlock) % 2 ^ 32 = block)
    (magic : (before.block block).magic = heapMagic) :
    (heapFree ptr before).vmm = vmmUnmap block
        { before.vmm with pmm := pmmFree (physical block) (heapPages (before.block block).size) before.vmm.pmm } ∧
      (heapFree ptr before).head = before.head ∧
      (heapFree ptr before).kernelHeap = before.kernelHeap ∧
      ∀ address, ((heapFree ptr before).block address).size = (before.block address).size ∧
        ((heapFree ptr before).block address).magic = (before.block address).magic := by
  have header := unlink_header block
  have size := (header block before).1
  unfold heapFree
  simp only [here, magic, ne_eq, not_true_eq_false, if_false, size]
  exact ⟨rfl, rfl, rfl, fun address => header address before⟩

theorem mallocInit_done (run : mallocInit fuel before = .done () after) :
    ∃ first second, pmmAlloc fuel 1 before.vmm.pmm = .done after.kernelHeap first ∧
      pmmAlloc fuel 1 first = .done (after.head after.kernelHeap) second ∧
      after.vmm = (({ before.vmm with pmm := second }.deref after.kernelHeap).deref
        (after.head after.kernelHeap)) := by
  obtain ⟨h, created, create, finished⟩ := Outcome.bind_done.mp run
  obtain ⟨_, heap, search, rest⟩ := Outcome.bind_done.mp create
  obtain ⟨first, alloc, embedded⟩ := Outcome.within_done.mp search
  cases embedded
  obtain ⟨head, block, search, written⟩ := Outcome.bind_done.mp rest
  obtain ⟨second, again, embedded⟩ := Outcome.within_done.mp search
  cases embedded
  injection written with returned state
  subst returned state
  injection finished with _ state
  subst state
  refine ⟨first, second, alloc, ?_, ?_⟩
  · simpa [Kernel.setBlock, Kernel.withPmm] using again
  · simp [Kernel.setBlock, Kernel.withPmm]

end BarrelOS.Memory
