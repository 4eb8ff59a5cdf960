import BarrelOS.Memory.Heap
import BarrelOS.Memory.Ownership

namespace BarrelOS.Memory

open BarrelOS.Data BarrelOS.Semantics

/-- A pointer `heap_alloc` returned, with the size it was asked for. -/
structure Block where
  ptr : Nat
  size : Nat
deriving DecidableEq, Repr

def Block.header (block : Block) : Nat := (block.ptr + 2 ^ 32 - sizeofHeapBlock) % 2 ^ 32

def Block.allocation (block : Block) : Allocation := ⟨physical block.header, heapPages block.size⟩

/-- What is held of the memory manager: pages of `pmm_alloc`, a block of
`heap_alloc`, or a page of a heap. -/
inductive Holder where
  | raw (owner : Allocation)
  | block (block : Block)
  | heap (page : Nat)
deriving DecidableEq

def Holder.allocation : Holder → Allocation
  | .raw owner => owner
  | .block held => held.allocation
  | .heap page => ⟨page, 1⟩

/-- The memory manager together with what is held of it. -/
structure System where
  kernel : Kernel
  held : List Holder

inductive Call where
  | pmmAlloc (count : Nat)
  | pmmFree (owner : Allocation)
  | vmmMap (phys virt flags : Nat)
  | vmmUnmap (virt : Nat)
  | mallocInit
  | heapAlloc (n : Nat)
  | heapFree (block : Block)

/-- A call of the heap, as `kmalloc` and `kfree` make them. -/
def Call.Heap : Call → Prop
  | .heapAlloc _ | .heapFree _ => True
  | _ => False

/-- A call that returns. What is given back is held, and a heap is created before
the first block. `kmalloc` and `kfree` are `heap_alloc` on `kernel_heap` and
`heap_free`. -/
inductive Makes : System → Call → System → Prop
  | pmmAlloc {system : System} {fuel count ptr : Nat} {pmm : Pmm}
      (positive : 0 < count)
      (run : pmmAlloc fuel count system.kernel.vmm.pmm = .done ptr pmm) :
      Makes system (.pmmAlloc count) ⟨system.kernel.withPmm pmm, .raw ⟨ptr, count⟩ :: system.held⟩
  | pmmFree {system : System} {owner : Allocation} (member : .raw owner ∈ system.held) :
      Makes system (.pmmFree owner)
        ⟨system.kernel.withPmm (pmmFree owner.ptr owner.count system.kernel.vmm.pmm),
          system.held.erase (.raw owner)⟩
  | vmmMap {system : System} {fuel phys virt flags : Nat} {vmm : Vmm}
      (address : virt < 2 ^ 32)
      (run : vmmMap fuel phys virt flags system.kernel.vmm = .done () vmm) :
      Makes system (.vmmMap phys virt flags) ⟨system.kernel.withVmm vmm, system.held⟩
  | vmmUnmap {system : System} {virt : Nat} (address : virt < 2 ^ 32) :
      Makes system (.vmmUnmap virt) ⟨system.kernel.withVmm (vmmUnmap virt system.kernel.vmm), system.held⟩
  | mallocInit {system : System} {fuel : Nat} {kernel : Kernel}
      (first : ∀ block, .block block ∉ system.held)
      (run : mallocInit fuel system.kernel = .done () kernel) :
      Makes system .mallocInit
        ⟨kernel, .heap (kernel.head kernel.kernelHeap) :: .heap kernel.kernelHeap :: system.held⟩
  | heapAlloc {system : System} {fuel h n ptr : Nat} {kernel : Kernel}
      (size : n + sizeofHeapBlock + 4095 < 2 ^ 32)
      (run : heapAlloc fuel h n system.kernel = .done ptr kernel) :
      Makes system (.heapAlloc n) ⟨kernel, .block ⟨ptr, n⟩ :: system.held⟩
  | heapFree {system : System} {block : Block} (member : .block block ∈ system.held) :
      Makes system (.heapFree block) ⟨heapFree block.ptr system.kernel, system.held.erase (.block block)⟩

/-! What a call asks `pmm_alloc` for -/

inductive Purpose where
  | pages
  | block
  | table
  | heap
deriving DecidableEq

/-- The directory entry an address uses has no page table. -/
def System.Vacant (system : System) (virt : Nat) : Prop := system.kernel.vmm.tree.root (virt >>> 22) = none

instance (system : System) (virt : Nat) : Decidable (system.Vacant virt) := inferInstanceAs (Decidable (_ = none))

/-- The windows a call in this state takes from the bitmap: what for, how many
pages, and from which position on. -/
inductive Requests (system : System) : Call → Purpose → Nat → Nat → Prop
  | pages {count position : Nat} {rest : Pmm}
      (next : system.kernel.vmm.pmm.Next count position rest) :
      Requests system (.pmmAlloc count) .pages count position
  | table {phys virt flags position : Nat} {rest : Pmm}
      (vacant : system.Vacant virt)
      (next : system.kernel.vmm.pmm.Next 1 position rest) :
      Requests system (.vmmMap phys virt flags) .table 1 position
  | heap {position : Nat} {rest : Pmm}
      (next : system.kernel.vmm.pmm.Next 1 position rest) :
      Requests system .mallocInit .heap 1 position
  | head {heap position : Nat} {middle rest : Pmm}
      (first : system.kernel.vmm.pmm.Next 1 heap middle)
      (next : middle.Next 1 position rest) :
      Requests system .mallocInit .heap 1 position
  | block {n position : Nat} {rest : Pmm}
      (next : system.kernel.vmm.pmm.Next (heapPages n) position rest) :
      Requests system (.heapAlloc n) .block (heapPages n) position
  | blockTable {n block position : Nat} {middle rest : Pmm}
      (first : system.kernel.vmm.pmm.Next (heapPages n) block middle)
      (vacant : system.Vacant (higherHalf (pageAddress block)))
      (next : middle.Next 1 position rest) :
      Requests system (.heapAlloc n) .table 1 position

/-- Every page a call takes lies below a limit. -/
def Fits (limit : Nat) (system : System) (call : Call) : Prop :=
  ∀ purpose count position, Requests system call purpose count position → position % 2 ^ 32 + count ≤ limit

/-- Runs of calls that meet a condition on the state before them and take pages
below a limit. -/
def SystemRuns (limit : Nat) (allowed : System → Call → Prop) : System → System → Prop :=
  Relation.ReflTransGen fun before after =>
    ∃ call, Makes before call after ∧ Fits limit before call ∧ allowed before call

namespace SystemRuns

variable {limit : Nat} {allowed : System → Call → Prop} {start before after : System} {call : Call}

theorem single (makes : Makes before call after) (fits : Fits limit before call) (permitted : allowed before call) :
    SystemRuns limit allowed before after := Relation.ReflTransGen.single ⟨call, makes, fits, permitted⟩

theorem step (run : SystemRuns limit allowed start before) (makes : Makes before call after)
    (fits : Fits limit before call) (permitted : allowed before call) : SystemRuns limit allowed start after :=
  Relation.ReflTransGen.tail run ⟨call, makes, fits, permitted⟩

end SystemRuns

variable {fuel limit count ptr h phys virt flags n : Nat} {before after : Pmm} {vmm : Vmm} {system : System}
  {kernel last : Kernel}

theorem HandsOutBelow.of_subset (fewer : after.used ⊆ before.used) : HandsOutBelow limit before after :=
  fun _ set => .inl (fewer set)

theorem HandsOutBelow.trans {middle : Pmm} (first : HandsOutBelow limit before middle)
    (second : HandsOutBelow limit middle after) : HandsOutBelow limit before after := by
  intro page set
  rcases second page set with earlier | below
  · exact first page earlier
  · exact .inr below

theorem Pmm.Next.handed {position : Nat} (next : before.Next count position after)
    (physical : limit ≤ 2 ^ 20) (fits : position % 2 ^ 32 + count ≤ limit) : HandsOutBelow limit before after := by
  intro page set
  cases next with
  | direct _ _ =>
      rw [Pmm.grant, Pmm.withLastPage_bitmap, bitmapGet_setPages] at set
      rcases set with earlier | ⟨offset, bound, same⟩
      · exact .inl earlier
      · right
        omega
  | retried _ _ _ =>
      rw [Pmm.grant, Pmm.withLastPage_bitmap, bitmapGet_setPages, Pmm.retry, Pmm.withLastPage_bitmap,
        bitmapGet_setPages] at set
      rcases set with (earlier | ⟨offset, bound, same⟩) | ⟨offset, bound, same⟩
      · exact .inl earlier
      · right
        omega
      · right
        omega

theorem pmmAlloc_handed (positive : 0 < count) (run : pmmAlloc fuel count before = .done ptr after)
    (physical : limit ≤ 2 ^ 20)
    (fits : ∀ position rest, before.Next count position rest → position % 2 ^ 32 + count ≤ limit) :
    HandsOutBelow limit before after := by
  obtain ⟨position, rest, next, same, _⟩ := pmmAlloc_next positive run
  have handed := next.handed physical (fits position rest next)
  rwa [HandsOutBelow, ← same.bitmap] at handed

theorem heapPages_pos (size : n + sizeofHeapBlock + 4095 < 2 ^ 32) : 0 < heapPages n := by
  rw [heapPages_eq size]
  omega

theorem Mapping.handed {before after : Vmm} (mapping : Mapping fuel phys virt flags before after)
    (physical : limit ≤ 2 ^ 20)
    (fits : before.tree.root (virt >>> 22) = none → ∀ position rest, before.pmm.Next 1 position rest →
      position % 2 ^ 32 + 1 ≤ limit) :
    HandsOutBelow limit before.pmm after.pmm := by
  cases mapping with
  | shared _ pmm => exact .of_subset (congrArg Pmm.used pmm).subset
  | created vacant alloc => exact pmmAlloc_handed Nat.one_pos alloc physical (fits vacant)

/-! Giving pages back takes none -/

theorem used_pmmFree_subset : (pmmFree ptr count before).used ⊆ before.used := by
  intro page set
  have cleared : bitmapGet (clearPages (ptr / 4096) count before).bitmap page = true := set
  rw [bitmapGet_clearPages] at cleared
  exact cleared.1

theorem Unmapping.used_subset {before after : Vmm} (unmapping : Unmapping virt before after) :
    after.pmm.used ⊆ before.pmm.used := by
  cases unmapping with
  | absent _ same => exact same ▸ Set.Subset.rfl
  | kept _ _ _ pmm => exact (congrArg Pmm.used pmm).subset
  | released _ _ _ pmm => exact (congrArg Pmm.used pmm).subset.trans used_pmmFree_subset

theorem heapFree_used_subset : (heapFree ptr kernel).vmm.pmm.used ⊆ kernel.vmm.pmm.used := by
  by_cases magic : (kernel.block ((ptr + 2 ^ 32 - sizeofHeapBlock) % 2 ^ 32)).magic = heapMagic
  · rw [(heapFree_done rfl magic).1]
    have word : (ptr + 2 ^ 32 - sizeofHeapBlock) % 2 ^ 32 < 2 ^ 32 := Nat.mod_lt _ (by decide)
    exact (vmmUnmap_cases word).used_subset.trans used_pmmFree_subset
  · rw [heapFree, if_pos magic]

theorem heapAlloc_taken (size : n + sizeofHeapBlock + 4095 < 2 ^ 32)
    (run : heapAlloc fuel h n kernel = .done ptr last) :
    ∃ position middle pmm, kernel.vmm.pmm.Next (heapPages n) position middle ∧ pmm.SameBits middle ∧
      pmmAlloc fuel (heapPages n) kernel.vmm.pmm = .done (pageAddress position) pmm ∧
      Mapping fuel (physical (higherHalf (pageAddress position))) (higherHalf (pageAddress position))
        (ptePresent ||| pteWritable) { kernel.vmm with pmm } last.vmm ∧
      ptr = (higherHalf (pageAddress position) + sizeofHeapBlock) % 2 ^ 32 := by
  obtain ⟨phys, pmm, alloc, map, returned, _⟩ := heapAlloc_done run
  obtain ⟨position, middle, next, same, address⟩ := pmmAlloc_next (heapPages_pos size) alloc
  subst address
  exact ⟨position, middle, pmm, next, same, alloc, vmmMap_done (higherHalf_lt _) map, returned⟩

theorem Makes.handed {before after : System} {call : Call} (makes : Makes before call after)
    (fits : Fits limit before call) (physical : limit ≤ 2 ^ 20) :
    HandsOutBelow limit before.kernel.vmm.pmm after.kernel.vmm.pmm := by
  cases makes with
  | pmmAlloc positive run =>
      exact pmmAlloc_handed positive run physical fun position rest next => fits _ _ position (.pages next)
  | pmmFree => exact .of_subset used_pmmFree_subset
  | vmmMap address run =>
      refine (vmmMap_done address run).handed physical ?_
      intro vacant position rest next
      exact fits _ _ position (.table vacant next)
  | vmmUnmap address => exact .of_subset (vmmUnmap_cases address).used_subset
  | mallocInit first run =>
      obtain ⟨middle, last, alloc, again, vmm⟩ := mallocInit_done run
      obtain ⟨heap, rest, next, same, _⟩ := pmmAlloc_next Nat.one_pos alloc
      have second : HandsOutBelow limit middle last := by
        refine pmmAlloc_handed Nat.one_pos again physical ?_
        intro position remaining following
        obtain ⟨other, transferred, _⟩ := same.next following
        exact fits _ _ position (.head next transferred)
      rw [vmm]
      exact (pmmAlloc_handed Nat.one_pos alloc physical fun position rest next =>
        fits _ _ position (.heap next)).trans second
  | heapAlloc size run =>
      obtain ⟨position, middle, pmm, next, same, alloc, mapping, _⟩ := heapAlloc_taken size run
      have table := mapping.handed physical fun vacant position rest following => by
        obtain ⟨other, transferred, _⟩ := same.next following
        exact fits _ _ position (.blockTable next vacant transferred)
      exact (pmmAlloc_handed (heapPages_pos size) alloc physical fun position rest next =>
        fits _ _ position (.block next)).trans table
  | heapFree => exact .of_subset heapFree_used_subset

end BarrelOS.Memory
