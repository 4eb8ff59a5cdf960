import BarrelOS.Memory.Installed

namespace BarrelOS.Memory

open BarrelOS.Boot BarrelOS.Data BarrelOS.Semantics

/-! Circular lists -/

/-- A heap in use: the blocks that are live, and those that were given back. -/
structure HeapState where
  kernel : Kernel
  live : List Block
  freed : List Block

/-- A call of the heap at `h` that returns: any 32-bit size may be asked for, and a
block is freed while it is live. -/
inductive HeapCall (h : Nat) : HeapState → HeapState → Prop
  | alloc {heap : HeapState} {fuel n ptr : Nat} {kernel : Kernel} (word : n < 2 ^ 32)
      (run : heapAlloc fuel h n heap.kernel = .done ptr kernel) :
      HeapCall h heap { heap with kernel, live := ⟨ptr, n⟩ :: heap.live }
  | free {heap : HeapState} {block : Block} (member : block ∈ heap.live) :
      HeapCall h heap ⟨heapFree block.ptr heap.kernel, heap.live.erase block, block :: heap.freed⟩

/-- Runs of calls that each meet a condition on the bitmap before and after. -/
def HeapRuns (grant : Pmm → Pmm → Prop) (h : Nat) : HeapState → HeapState → Prop :=
  Relation.ReflTransGen fun before after =>
    HeapCall h before after ∧ grant before.kernel.vmm.pmm after.kernel.vmm.pmm

variable {fuel h n ptr block : Nat} {start kernel last : Kernel} {heap before after : HeapState}
  {grant : Pmm → Pmm → Prop}

/-- `heap_alloc` writes the links of the new block and of no other, so the head stays
linked to itself and every live block to the head. -/
structure Unlinked (h : Nat) (heap : HeapState) : Prop where
  next : (heap.kernel.block (heap.kernel.head h)).next = heap.kernel.head h
  prev : (heap.kernel.block (heap.kernel.head h)).prev = heap.kernel.head h
  live : ∀ block ∈ heap.live, (heap.kernel.block block.header).next = heap.kernel.head h ∧
    (heap.kernel.block block.header).prev = heap.kernel.head h

theorem heapCreate_unlinked (create : heapCreate fuel start = .done h kernel) : Unlinked h ⟨kernel, [], []⟩ := by
  obtain ⟨_, middle, _, rest⟩ := Outcome.bind_done.mp create
  obtain ⟨head, last, _, written⟩ := Outcome.bind_done.mp rest
  injection written with returned state
  subst returned state
  refine ⟨?_, ?_, by simp⟩
  · simp [Kernel.setBlock]
  · simp [Kernel.setBlock]

theorem setBlock_self {address : Nat} : kernel.setBlock address (kernel.block address) = kernel := by
  rw [Kernel.setBlock, Function.update_eq_self]

theorem HeapBlock.next_self {header : HeapBlock} {address : Nat} (same : header.next = address) :
    { header with next := address } = header := by
  subst same
  rfl

theorem HeapBlock.prev_self {header : HeapBlock} {address : Nat} (same : header.prev = address) :
    { header with prev := address } = header := by
  subst same
  rfl

theorem unlink_loop {head : Nat} (ahead : (kernel.block head).next = head) (behind : (kernel.block head).prev = head)
    (next : (kernel.block block).next = head) (prev : (kernel.block block).prev = head) :
    linkPrev block (linkNext block kernel) = kernel := by
  have first : linkNext block kernel = kernel := by
    simp only [linkNext, prev, next, HeapBlock.next_self ahead, setBlock_self]
  simp only [first, linkPrev, next, prev, HeapBlock.prev_self behind, setBlock_self]

theorem heapFree_block (unlink : linkPrev block (linkNext block kernel) = kernel)
    (here : (ptr + 2 ^ 32 - sizeofHeapBlock) % 2 ^ 32 = block) :
    (heapFree ptr kernel).block = kernel.block ∧ (heapFree ptr kernel).head = kernel.head := by
  unfold heapFree
  simp only [here, unlink]
  split
  · exact ⟨rfl, rfl⟩
  · exact ⟨rfl, rfl⟩

/-- A `heap_alloc` writes one header, at a page of its own, with the links of the head
and its neighbour. -/
theorem heapAlloc_writes (run : heapAlloc fuel h n kernel = .done ptr last) :
    last.head = kernel.head ∧ (Block.mk ptr n).header % 4096 = 0 ∧
      ∃ header, last.block = Function.update kernel.block (Block.mk ptr n).header header ∧
        header.next = kernel.head h ∧ header.prev = (kernel.block (kernel.head h)).prev ∧
        header.magic = heapMagic := by
  obtain ⟨phys, _, alloc, _, returned, head, _, written⟩ := heapAlloc_done run
  obtain ⟨word, aligned⟩ := pmmAlloc_aligned alloc
  have here : (Block.mk ptr n).header = higherHalf phys := (Block.of_done word returned).1
  rw [here]
  refine ⟨head, ?_, _, written, rfl, rfl, rfl⟩
  unfold higherHalf
  omega

namespace Unlinked

theorem call (unlinked : Unlinked h before) (made : HeapCall h before after) : Unlinked h after := by
  cases made with
  | @alloc _ n ptr kernel _ run =>
      obtain ⟨head, _, header, written, next, prev, _⟩ := heapAlloc_writes run
      have looped : ∀ node, (before.kernel.block node).next = before.kernel.head h ∧
          (before.kernel.block node).prev = before.kernel.head h →
          (kernel.block node).next = kernel.head h ∧ (kernel.block node).prev = kernel.head h := by
        intro node links
        rw [written, head]
        by_cases here : node = (Block.mk ptr n).header
        · subst node
          rw [Function.update_self]
          exact ⟨next, prev.trans unlinked.prev⟩
        · rwa [Function.update_of_ne here]
      have same : kernel.head h = before.kernel.head h := by rw [head]
      have outset := looped (before.kernel.head h) ⟨unlinked.next, unlinked.prev⟩
      rw [same] at outset
      refine ⟨?_, ?_, ?_⟩
      · exact same.symm ▸ outset.1
      · exact same.symm ▸ outset.2
      · intro block member
        rcases List.mem_cons.mp member with new | older
        · subst new
          rw [written, Function.update_self, head]
          exact ⟨next, prev.trans unlinked.prev⟩
        · exact looped block.header (unlinked.live block older)
  | @free block member =>
      obtain ⟨next, prev⟩ := unlinked.live block member
      obtain ⟨blocks, head⟩ := heapFree_block (unlink_loop unlinked.next unlinked.prev next prev)
        (show (block.ptr + 2 ^ 32 - sizeofHeapBlock) % 2 ^ 32 = block.header from rfl)
      refine ⟨?_, ?_, ?_⟩
      · rw [blocks, head]
        exact unlinked.next
      · rw [blocks, head]
        exact unlinked.prev
      · intro other kept
        rw [blocks, head]
        exact unlinked.live other (List.mem_of_mem_erase kept)

theorem runs (unlinked : Unlinked h before) (run : HeapRuns grant h before after) : Unlinked h after := by
  induction run with
  | refl => exact unlinked
  | tail _ last ih => exact ih.call last.1

end Unlinked

end BarrelOS.Memory
