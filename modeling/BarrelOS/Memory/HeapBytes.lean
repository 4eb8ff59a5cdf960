import BarrelOS.Memory.Installed

namespace BarrelOS.Memory

open BarrelOS.Boot BarrelOS.Data BarrelOS.Semantics

variable {system start before after : System} {block : Block} {call : Call} {fuel n page other virt : Nat}
  {vmm : Vmm}

/-- The byte is present and writable at the higher-half address of a page the
block owns. -/
def ByteUsable (system : System) (block : Block) (i : Nat) : Prop :=
  system.kernel.vmm.mapsTo ((block.ptr + i) % 2 ^ 32) (physical ((block.ptr + i) % 2 ^ 32)) = true ∧
    physical ((block.ptr + i) % 2 ^ 32) / 4096 ∈ block.allocation.pages

/-- The page is present and writable at its higher-half address. -/
def Vmm.Backs (vmm : Vmm) (page : Nat) : Prop := vmm.mapsTo (higherHalf (page * 4096)) (page * 4096) = true

/-- What a call must respect. A `heap_alloc` maps the first page of its block only,
so the others have to be mapped already; and nobody maps or unmaps the pages of
a block. -/
def KeepsBacked (system : System) : Call → Prop
  | .heapAlloc n => ∀ count position, Requests system (.heapAlloc n) .block count position →
      ∀ offset, 0 < offset → offset < count → system.kernel.vmm.Backs (pageAddress position / 4096 + offset)
  | .vmmMap _ virt _ | .vmmUnmap virt => ∀ block, .block block ∈ system.held →
      ∀ page ∈ block.allocation.pages, higherHalf (page * 4096) / 4096 ≠ virt / 4096
  | _ => True

theorem Vmm.backs_iff (writable : vmm.DirectoryWritable) (bound : page < 2 ^ 20) :
    vmm.Backs page ↔ ∃ flags, vmm.walk (higherHalf (page * 4096)) = some (page * 4096, flags) ∧
      flags &&& 0x3 = 0x3 := by
  have base : pageBase (page * 4096) = page * 4096 := pageBase_of_aligned (by omega) (by omega)
  rw [Vmm.Backs, mapsTo_iff writable (higherHalf_lt _), base]

theorem byteUsable_iff (placed : block.allocation.Placed) (size : block.size + sizeofHeapBlock + 4095 < 2 ^ 32)
    {i : Nat} (inside : i < block.size) :
    (block.allocation.ptr + sizeofHeapBlock + i) / 4096 ∈ block.allocation.pages ∧
      (ByteUsable system block i ↔
        system.kernel.vmm.Backs ((block.allocation.ptr + sizeofHeapBlock + i) / 4096)) := by
  have header := block.header_eq
  have below := placed.below
  have aligned := placed.aligned
  have count : block.allocation.count = (block.size + 15) / 4096 + 1 := heapPages_eq size
  have pages : (block.allocation.ptr + sizeofHeapBlock + i) / 4096 ∈ block.allocation.pages := by
    unfold sizeofHeapBlock
    constructor <;> omega
  have address : (block.ptr + i) % 2 ^ 32 = higherHalf (block.allocation.ptr + sizeofHeapBlock + i) := by
    simp only [Block.header, higherHalf, sizeofHeapBlock] at *
    omega
  have word : block.allocation.ptr + sizeofHeapBlock + i < 2 ^ 32 := by
    have bound := placed.page_lt pages
    omega
  refine ⟨pages, ?_⟩
  rw [ByteUsable, address, physical_higherHalf word, Vmm.Backs, and_iff_left pages]
  have page : higherHalf (block.allocation.ptr + sizeofHeapBlock + i) / 4096 =
      higherHalf ((block.allocation.ptr + sizeofHeapBlock + i) / 4096 * 4096) / 4096 := by
    unfold higherHalf
    omega
  have frame : pageBase (block.allocation.ptr + sizeofHeapBlock + i) =
      pageBase ((block.allocation.ptr + sizeofHeapBlock + i) / 4096 * 4096) := by
    rw [← pageBase_eq word, pageBase_pageBase]
  rw [mapsTo_page page frame]

/-- Every page of every block is backed. -/
structure Backed (system : System) : Prop extends Paged system where
  size : ∀ block, .block block ∈ system.held → block.size + sizeofHeapBlock + 4095 < 2 ^ 32
  pages : ∀ block, .block block ∈ system.held → ∀ page ∈ block.allocation.pages, system.kernel.vmm.Backs page

theorem Backed.bytes (backed : Backed system) (member : .block block ∈ system.held) :
    ∀ i < block.size, ByteUsable system block i := by
  intro i inside
  obtain ⟨page, usable⟩ := byteUsable_iff (backed.block_placed member) (backed.size block member) inside
  exact usable.mpr (backed.pages block member _ page)

theorem Makes.backs_iff (makes : Makes before call after) (paged : Paged before)
    (handed : HandsOutBelow (2 ^ 20) before.kernel.vmm.pmm after.kernel.vmm.pmm) (bound : page < 2 ^ 20)
    (elsewhere : ∀ named, Names before call named → higherHalf (page * 4096) / 4096 ≠ named / 4096) :
    after.kernel.vmm.Backs page ↔ before.kernel.vmm.Backs page := by
  have walk := makes.walk_frame paged.toSound handed (higherHalf_lt (page * 4096)) elsewhere
  rw [Vmm.backs_iff (makes.paged paged handed).writable bound, Vmm.backs_iff paged.writable bound, walk]

theorem KeepsBacked.elsewhere (allowed : KeepsBacked before call) (makes : Makes before call after)
    (paged : Paged before) (handed : HandsOutBelow (2 ^ 20) before.kernel.vmm.pmm after.kernel.vmm.pmm)
    (member : .block block ∈ before.held) (kept : call ≠ .heapFree block) (inside : page ∈ block.allocation.pages) :
    ∀ named, Names before call named → higherHalf (page * 4096) / 4096 ≠ named / 4096 := by
  have bound : page < 2 ^ 20 := (paged.block_placed member).page_lt inside
  intro named names same
  cases makes with
  | pmmAlloc | pmmFree | mallocInit => cases names
  | vmmMap =>
      cases names
      exact allowed block member page inside same
  | vmmUnmap =>
      cases names
      exact allowed block member page inside same
  | @heapAlloc _ _ n ptr _ size run =>
      obtain ⟨position, pmm, served⟩ := paged.served size run handed
      have placed := served.placed
      rw [served.named names, Block.header_page placed] at same
      have first := higherHalf_page_injective bound (placed.page_lt placed.first) same
      have used := paged.owned.held (.caller (.block block)) member inside
      exact Set.disjoint_right.mp served.provided.unused used (first ▸ placed.first)
  | @heapFree freed here =>
      cases names
      have placed := paged.block_placed here
      rw [Block.header_page placed] at same
      have first := higherHalf_page_injective bound (placed.page_lt placed.first) same
      have owners : Owner.caller (.block block) ≠ .caller (.block freed) := by
        intro equal
        cases equal
        exact kept rfl
      have disjoint := paged.owned.apart (show Owner.caller (.block block) ∈ before.owners from member)
        (show Owner.caller (.block freed) ∈ before.owners from here) owners
      exact Set.disjoint_left.mp disjoint inside (first ▸ placed.first)

theorem Served.backs_iff {kernel : Kernel} {position offset : Nat} {pmm : Pmm}
    (served : Served fuel position pmm system block kernel) (paged : Paged system)
    (inside : block.allocation.ptr / 4096 + offset ∈ block.allocation.pages) :
    kernel.vmm.Backs (block.allocation.ptr / 4096 + offset) ↔
      offset = 0 ∨ system.kernel.vmm.Backs (block.allocation.ptr / 4096 + offset) := by
  have placed := served.placed
  have bound := placed.page_lt inside
  have address : block.allocation.ptr / 4096 * 4096 = block.allocation.ptr := placed.address
  have walk := served.walk (higherHalf_lt ((block.allocation.ptr / 4096 + offset) * 4096))
  rw [block.header_page placed] at walk
  rw [Vmm.backs_iff (served.mapping.writable paged.writable) bound, Vmm.backs_iff paged.writable bound]
  by_cases first : offset = 0
  · subst offset
    rw [Nat.add_zero, if_pos rfl] at walk
    refine iff_of_true ⟨ptePresent ||| pteWritable, ?_, by decide⟩ (.inl rfl)
    rw [Nat.add_zero, walk, address]
  · rw [if_neg] at walk
    · rw [walk, or_iff_right first]
    · intro same
      have equal := higherHalf_page_injective bound (placed.page_lt placed.first) same
      omega

theorem Served.backed_iff {kernel : Kernel} {position : Nat} {pmm : Pmm}
    (served : Served fuel position pmm system block kernel) (paged : Paged system) :
    (∀ page ∈ block.allocation.pages, kernel.vmm.Backs page) ↔ KeepsBacked system (.heapAlloc block.size) := by
  have start : block.allocation.ptr = pageAddress position := congrArg Allocation.ptr served.start
  constructor
  · intro backed count other request offset behind inside
    obtain ⟨rfl, rfl⟩ := served.unique request
    have page : block.allocation.ptr / 4096 + offset ∈ block.allocation.pages :=
      ⟨Nat.le_add_right _ _, Nat.add_lt_add_left inside _⟩
    rw [← start]
    exact ((served.backs_iff paged page).mp (backed _ page)).resolve_left (Nat.ne_of_gt behind)
  · intro allowed page inside
    obtain ⟨offset, rfl⟩ := Nat.exists_eq_add_of_le inside.1
    refine (served.backs_iff paged inside).mpr ?_
    rcases Nat.eq_zero_or_pos offset with first | behind
    · exact .inl first
    · have later := allowed _ _ served.request offset behind (Nat.lt_of_add_lt_add_left inside.2)
      exact .inr (start ▸ later)

theorem Backed.step (backed : Backed before) (makes : Makes before call after) (allowed : KeepsBacked before call)
    (handed : HandsOutBelow (2 ^ 20) before.kernel.vmm.pmm after.kernel.vmm.pmm) : Backed after := by
  have paged := backed.toPaged
  refine ⟨makes.paged paged handed, ?_, ?_⟩
  · intro block member
    rcases makes.block_member paged.toSound handed member with ⟨older, _⟩ | ⟨fuel, position, pmm, called, size, served⟩
    · exact backed.size block older
    · exact size
  · intro block member page inside
    rcases makes.block_member paged.toSound handed member with ⟨older, kept⟩ | ⟨fuel, position, pmm, called, size, served⟩
    · have elsewhere := allowed.elsewhere makes paged handed older kept inside
      have bound := (backed.block_placed older).page_lt inside
      exact (makes.backs_iff paged handed bound elsewhere).mpr (backed.pages block older page inside)
    · exact (served.backed_iff paged).mpr (called ▸ allowed) page inside

end BarrelOS.Memory
