import BarrelOS.Memory.RamTables
import Mathlib.Tactic.IntervalCases

namespace BarrelOS.Memory

open BarrelOS.Data BarrelOS.Semantics

/-! The pages that the words of the memory manager lie in -/

/-- What of its pages an owner keeps words in: the page of a table, the header of a block, `struct heap` and the head
of its list. -/
inductive Uses (heap head : Nat) : Owner → Site → Prop
  | table {slot page : Nat} : Uses heap head (.table slot page) (.table page)
  | block {block : Block} : Uses heap head (.caller (.block block)) (.header block.header)
  | heap : Uses heap head (.caller (.heap heap)) (.heap heap)
  | head : Uses heap head (.caller (.heap head)) (.header head)

/-- `kernel_heap->head`. -/
def Kernel.listHead (kernel : Kernel) : Nat := kernel.head kernel.kernelHeap

def System.sites (system : System) : Set Site :=
  insert .directory { site | ∃ owner ∈ system.owners, Uses system.kernel.kernelHeap system.kernel.listHead owner site }

/-- A page in use that nobody holds. -/
structure System.Reserves (system : System) (page : Nat) : Prop where
  used : page ∈ system.used
  unheld : ∀ owner ∈ system.owners, page ∉ owner.pages

/-- The heap lies below 4 MiB, and blocks lie in the higher half. -/
structure HeapPlaced (system : System) : Prop where
  heap : .heap system.kernel.kernelHeap ∈ system.held
  head : .heap system.kernel.listHead ∈ system.held
  differ : system.kernel.listHead ≠ system.kernel.kernelHeap
  heapLow : system.kernel.kernelHeap < 0x400000
  headLow : system.kernel.listHead < 0x400000
  blocks : ∀ block, .block block ∈ system.held → 0xC0000000 ≤ block.header

variable {directory page fuel phys virt flags : Nat} {pmm : Pmm} {kernel : Kernel} {holder : Holder} {system : System}
  {owner other : Owner} {site : Site} {block : Block}

theorem listHead_congr {last : Kernel} (head : last.head = kernel.head) (heap : last.kernelHeap = kernel.kernelHeap) :
    last.listHead = kernel.listHead := by
  rw [Kernel.listHead, Kernel.listHead, head, heap]

/-- Where `struct heap` and the head of its list stay, only new blocks have to be placed. -/
theorem HeapPlaced.transfer {after : System} (placed : HeapPlaced system) (heap : after.kernel.kernelHeap = system.kernel.kernelHeap)
    (head : after.kernel.listHead = system.kernel.listHead) (kept : ∀ page, .heap page ∈ system.held → .heap page ∈ after.held)
    (blocks : ∀ block, .block block ∈ after.held → 0xC0000000 ≤ block.header) : HeapPlaced after where
  heap := by
    rw [heap]
    exact kept _ placed.heap
  head := by
    rw [head]
    exact kept _ placed.head
  differ := by
    rw [heap, head]
    exact placed.differ
  heapLow := by
    rw [heap]
    exact placed.heapLow
  headLow := by
    rw [head]
    exact placed.headLow
  blocks := blocks

theorem Uses.unique {heap head : Nat} {second : Site} (differ : head ≠ heap) (uses : Uses heap head owner site)
    (also : Uses heap head owner second) : site = second := by
  cases uses with
  | table | block => cases also; rfl
  | heap =>
      cases also with
      | heap => rfl
      | head => exact absurd rfl differ
  | head =>
      cases also with
      | heap => exact absurd rfl differ
      | head => rfl

/-- The page of a site is its owner's. -/
theorem Uses.page_owned (accounted : Accounted system) (placed : HeapPlaced system) (member : owner ∈ system.owners)
    (uses : Uses system.kernel.kernelHeap system.kernel.listHead owner site) : (sites directory).page site ∈ owner.pages := by
  cases uses with
  | table => exact Owner.mem_table _ _
  | @block block =>
      have here := (accounted.block_placed member).first
      change frameOf block.header / 4096 ∈ block.allocation.pages
      rwa [frameOf, if_pos (placed.blocks block member)]
  | heap => exact (accounted.placed _ member).first
  | head =>
      have low : ¬ 0xC0000000 ≤ system.kernel.listHead := by
        have low := placed.headLow
        omega
      change frameOf _ / 4096 ∈ _
      rw [frameOf, if_neg low]
      exact (accounted.placed _ member).first

theorem Owner.page_lt (accounted : Accounted system) (member : owner ∈ system.owners) (inside : page ∈ owner.pages) :
    page < 2 ^ 20 := by
  cases owner with
  | caller holder => exact (accounted.placed holder member).page_lt inside
  | table slot pt =>
      obtain ⟨_, _, base⟩ := Vmm.tree_root_some.mp member
      have word : pt < 2 ^ 32 := base ▸ pageBase_lt _
      have upper : page < pt / 4096 + 1 := inside.2
      omega

theorem Accounted.sites_apart (accounted : Accounted system) (placed : HeapPlaced system)
    (reserves : system.Reserves (directory / 4096)) (word : directory < 2 ^ 32) : (sites directory).Apart system.sites where
  distinct := by
    intro first member second also same
    rcases member with rfl | ⟨owner, member, uses⟩
    · rcases also with rfl | ⟨other, also, usesToo⟩
      · rfl
      · have here : directory / 4096 ∈ other.pages :=
          (show directory / 4096 = _ from same) ▸ usesToo.page_owned accounted placed also
        exact absurd here (reserves.unheld other also)
    · rcases also with rfl | ⟨other, also, usesToo⟩
      · have here : directory / 4096 ∈ owner.pages := (show _ = directory / 4096 from same) ▸ uses.page_owned accounted placed member
        exact absurd here (reserves.unheld owner member)
      · have inFirst : (sites directory).page first ∈ owner.pages := uses.page_owned accounted placed member
        have inSecond : (sites directory).page second ∈ other.pages := usesToo.page_owned accounted placed also
        rw [same] at inFirst
        have owners : owner = other := by
          by_contra differ
          exact Set.disjoint_left.mp (accounted.owned.apart member also differ) inFirst inSecond
        subst owners
        exact uses.unique placed.differ usesToo
  inside := by
    intro site member
    rcases member with rfl | ⟨owner, member, uses⟩
    · change directory / 4096 < 2 ^ 20
      omega
    · exact Owner.page_lt accounted member (uses.page_owned accounted placed member)
  fits := by
    intro site _
    cases site with
    | directory | table => exact Nat.le_refl 1024
    | header => exact (by decide : 4 ≤ 1024)
    | heap => exact (by decide : 1 ≤ 1024)

theorem System.mem_sites : site ∈ system.sites ↔ site = .directory ∨ site ∈ system.kernel.vmm.tableSites ∨
    ∃ holder ∈ system.held, Uses system.kernel.kernelHeap system.kernel.listHead (.caller holder) site := by
  refine or_congr_right ⟨fun member => ?_, fun member => ?_⟩
  · obtain ⟨owner, member, uses⟩ := member
    cases owner with
    | caller holder => exact .inr ⟨holder, member, uses⟩
    | table slot page =>
        cases uses
        exact .inl ⟨slot, page, member, rfl⟩
  · rcases member with ⟨slot, page, used, rfl⟩ | ⟨holder, member, uses⟩
    · exact ⟨.table slot page, used, .table⟩
    · exact ⟨.caller holder, member, uses⟩

/-! A reserved page stays reserved -/

namespace System.Reserves

theorem acquire (reserves : system.Reserves page) (provided : Provided system.kernel.vmm.pmm holder.allocation (2 ^ 20) pmm) :
    (System.mk (system.kernel.withPmm pmm) (holder :: system.held)).Reserves page where
  used := provided.kept reserves.used
  unheld := by
    rw [owners_cons]
    intro owner member
    rcases Set.mem_insert_iff.mp member with rfl | member
    · exact fun inside => Set.disjoint_left.mp provided.unused inside reserves.used
    · exact reserves.unheld owner member

theorem mapping (reserves : system.Reserves page) (mapping : Mapping fuel phys virt flags system.kernel.vmm kernel.vmm)
    (handed : HandsOutBelow (2 ^ 20) system.kernel.vmm.pmm kernel.vmm.pmm) : { system with kernel }.Reserves page where
  used := mapping.kept reserves.used
  unheld := by
    cases mapping.tableTaken with
    | shared owners _ => exact owners ▸ reserves.unheld
    | created _ alloc owners =>
        have provided := pmmAlloc_provided Nat.one_pos alloc handed (Nat.le_refl _)
        rw [owners]
        intro owner member
        rcases Set.mem_insert_iff.mp member with rfl | member
        · exact fun inside => Set.disjoint_left.mp provided.unused inside reserves.used
        · exact reserves.unheld owner member

theorem release (reserves : system.Reserves page) (accounted : Accounted system) (member : holder ∈ system.held) :
    (System.mk (system.kernel.withPmm (pmmFree holder.allocation.ptr holder.allocation.count system.kernel.vmm.pmm))
      (system.held.erase holder)).Reserves page where
  used := by
    have below := (accounted.placed holder member).below
    change page ∈ (pmmFree holder.allocation.ptr holder.allocation.count system.kernel.vmm.pmm).used
    rw [used_pmmFree (by omega)]
    exact ⟨reserves.used, reserves.unheld (.caller holder) member⟩
  unheld := by
    rw [owners_erase accounted.distinct]
    exact fun owner member => reserves.unheld owner member.1

theorem unmapping (reserves : system.Reserves page) (unmapping : Unmapping virt system.kernel.vmm kernel.vmm) :
    { system with kernel }.Reserves page where
  used := by
    cases unmapping.tableGiven with
    | kept _ used => exact used ▸ reserves.used
    | released table _ _ used =>
        rw [used]
        exact ⟨reserves.used, reserves.unheld _ table⟩
  unheld := by
    cases unmapping.tableGiven with
    | kept owners _ => exact owners ▸ reserves.unheld
    | released _ _ owners _ =>
        rw [owners]
        exact fun owner member => reserves.unheld owner member.1

end System.Reserves

/-! The words of a block header -/

section

variable {virt i value : Nat} {live : Set Site} {header : HeapBlock} {ram : Ram}

theorem word_setBlock : (kernel.setBlock virt header).word = Function.update kernel.word (.header virt) header.word := by
  funext site
  by_cases here : site = .header virt
  · subst here
    rw [Function.update_self]
    exact congrArg HeapBlock.word (Function.update_self ..)
  · rw [Function.update_of_ne here]
    cases site with
    | header other => exact congrArg HeapBlock.word (Function.update_of_ne (fun same => here (congrArg Site.header same)) ..)
    | directory | table | heap => rfl

namespace Represents

variable (represents : Represents directory live kernel ram)
include represents

/-- A field of a header is written. -/
theorem setBlock (member : .header virt ∈ live) (inside : i < 4)
    (field : ∀ j < 4, header.word j = Function.update (kernel.block virt).word i value j) :
    Represents directory live (kernel.setBlock virt header) (ram.put directory (.header virt) i value) := by
  refine represents.put member inside (fun site _ j bound => ?_) represents.tables rfl rfl
  rw [word_setBlock]
  by_cases here : site = .header virt
  · subst here
    rw [Function.update_self, Function.update_self]
    exact field j bound
  · rw [Function.update_of_ne here, Function.update_of_ne here]

/-- Whatever is in a page can be read as the header of a block. -/
theorem adoptHeader (apart : (sites directory).Apart (insert (.header virt) live)) :
    ∃ header, Represents directory (insert (.header virt) live) (kernel.setBlock virt header) ram := by
  refine ⟨⟨ram.memory.load32 ((sites directory).address (.header virt) 0),
    ram.memory.load32 ((sites directory).address (.header virt) 1), ram.memory.load32 ((sites directory).address (.header virt) 2), ram.memory.load32 ((sites directory).address (.header virt) 3)⟩,
    represents.aligned, apart, Set.mem_insert_of_mem _ represents.root,
    fun slot pt used => Set.mem_insert_of_mem _ (represents.tables slot pt used),
    represents.words.adopt.congr fun site _ i inside => ?_, represents.pmm, represents.kernelHeap⟩
  rw [word_setBlock]
  by_cases here : site = .header virt
  · subst here
    have inside : i < 4 := inside
    rw [Function.update_self, Function.update_self]
    interval_cases i <;> rfl
  · rw [Function.update_of_ne here, Function.update_of_ne here]

end Represents

/-! Where the processor finds them -/

namespace Views

theorem heap (low : kernel.vmm.LowIdentity) (small : page < 0x400000) (aligned : page % 4096 = 0) :
    Views directory kernel page (.heap page) := by
  refine .low low small aligned ?_
  change page / 4096 * 4096 = page
  omega

theorem head (low : kernel.vmm.LowIdentity) (small : page < 0x400000) (aligned : page % 4096 = 0) :
    Views directory kernel page (.header page) := by
  refine .low low small aligned ?_
  change frameOf page / 4096 * 4096 = page
  rw [frameOf, if_neg (by omega)]
  omega

theorem high (above : 0xC0000000 ≤ virt) (word : virt < 2 ^ 32) (aligned : virt % 4096 = 0)
    (walk : kernel.vmm.walk virt = some (physical virt, flags)) : Views directory kernel virt (.header virt) := by
  refine ⟨aligned, word, flags, ?_⟩
  change _ = some (frameOf virt / 4096 * 4096, flags)
  have whole : physical virt / 4096 * 4096 = physical virt := by
    unfold physical
    omega
  rw [walk, frameOf, if_pos above, whole]

end Views

end

/-! What stays true of the heap -/

/-- The head is linked to itself and every block to the head. -/
def Linked (system : System) : Prop :=
  ∀ node, (node = system.kernel.listHead ∨ ∃ block, .block block ∈ system.held ∧ block.header = node) →
    (system.kernel.block node).next = system.kernel.listHead ∧ (system.kernel.block node).prev = system.kernel.listHead

/-- What every call of the heap keeps, with all that it reaches by physical address below 4 MiB. -/
structure Steady (directory : Nat) (system : System) : Prop extends Undisturbed system, HeapPlaced system where
  directoryLow : directory < 0x400000
  reserves : system.Reserves (directory / 4096)
  tables : system.kernel.vmm.TablesBelow
  linked : Linked system
  pages : ∀ block, .block block ∈ system.held → ∀ page ∈ block.allocation.pages, system.kernel.vmm.Backs page

theorem Steady.backed (steady : Steady directory system) : Backed system := ⟨steady.toPaged, steady.size, steady.pages⟩

/-- A new page table lies below 4 MiB. -/
def TablesLow (system : System) (call : Call) : Prop :=
  ∀ position, Requests system call .table 1 position → pageAddress position < 0x400000

variable {n ptr : Nat} {last : Kernel}

theorem Served.tables {position : Nat} (served : Served fuel position pmm system block last)
    (low : TablesLow system (.heapAlloc block.size)) (small : system.kernel.vmm.TablesBelow) : last.vmm.TablesBelow := by
  intro slot page used
  rcases served.mapping.table_from used with earlier | ⟨vacant, alloc⟩
  · exact small slot page earlier
  · obtain ⟨other, rest, next, _, rfl⟩ := pmmAlloc_next Nat.one_pos alloc
    exact low other (served.following other rest next vacant)

theorem Linked.kmalloc (linked : Linked system) (run : heapAlloc fuel system.kernel.kernelHeap n system.kernel = .done ptr last)
    (same : last.listHead = system.kernel.listHead) : Linked ⟨last, .block ⟨ptr, n⟩ :: system.held⟩ := by
  obtain ⟨_, _, header, written, next, prev, _⟩ := heapAlloc_writes run
  have behind : header.prev = system.kernel.listHead := prev.trans (linked _ (.inl rfl)).2
  intro node named
  change (last.block node).next = last.listHead ∧ (last.block node).prev = last.listHead
  rw [written, same]
  by_cases here : node = (Block.mk ptr n).header
  · rw [here, Function.update_self]
    exact ⟨next, behind⟩
  · rw [Function.update_of_ne here]
    refine linked node ?_
    rcases named with head | ⟨block, member, rfl⟩
    · exact .inl (head.trans same)
    · rcases List.mem_cons.mp member with new | older
      · cases new
        exact absurd rfl here
      · exact .inr ⟨block, older, rfl⟩

theorem Steady.kmalloc (steady : Steady directory system) (size : n + sizeofHeapBlock + 4095 < 2 ^ 32)
    (run : heapAlloc fuel system.kernel.kernelHeap n system.kernel = .done ptr last) (high : StaysHigh system (.heapAlloc n))
    (low : TablesLow system (.heapAlloc n)) (mapped : KeepsBacked system (.heapAlloc n))
    (handed : HandsOutBelow (2 ^ 20) system.kernel.vmm.pmm last.vmm.pmm) :
    Steady directory ⟨last, .block ⟨ptr, n⟩ :: system.held⟩ := by
  have makes : Makes system (.heapAlloc n) ⟨last, .block ⟨ptr, n⟩ :: system.held⟩ := .heapAlloc size run
  have undisturbed := steady.toUndisturbed.step makes high handed
  obtain ⟨position, pmm, served⟩ := steady.served size run handed
  obtain ⟨_, _, _, _, _, head, heap, _⟩ := heapAlloc_done run
  have same : last.listHead = system.kernel.listHead := listHead_congr head heap
  have backed := steady.backed.step makes mapped handed
  have placed : HeapPlaced ⟨last, .block ⟨ptr, n⟩ :: system.held⟩ := by
    refine steady.toHeapPlaced.transfer heap same (fun _ => List.mem_cons_of_mem _) fun block member => ?_
    exact Block.header_high (undisturbed.block_placed member) (undisturbed.below block member)
  have taken : (System.mk (system.kernel.withPmm pmm) (.block ⟨ptr, n⟩ :: system.held)).Reserves (directory / 4096) :=
    steady.reserves.acquire served.provided
  exact ⟨undisturbed, placed, steady.directoryLow, taken.mapping served.mapping served.handed, served.tables low steady.tables,
    steady.linked.kmalloc run same, backed.pages⟩

end BarrelOS.Memory
