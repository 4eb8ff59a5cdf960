import BarrelOS.Memory.RamHeap

namespace BarrelOS.Memory

open BarrelOS.Data BarrelOS.Semantics

/-! `kmalloc` and `kfree` on bytes do what they do to the structured heap -/

variable {directory fuel n h i ptr virt value : Nat} {live : Set Site} {kernel last : Kernel} {ram : Ram} {system : System} {block : Block}
  {first second header : HeapBlock}

theorem Kernel.setBlock_setBlock : (kernel.setBlock virt first).setBlock virt second = kernel.setBlock virt second := by
  simp only [Kernel.setBlock, Function.update_idem]

theorem word_congr (vmm : last.vmm = kernel.vmm) (head : last.head = kernel.head) (block : last.block = kernel.block) :
    last.word = kernel.word := by
  funext site i
  cases site with
  | directory | table => simp only [Kernel.word, vmm]
  | header => simp only [Kernel.word, block]
  | heap => simp only [Kernel.word, head]

/-- What of its words `heap_alloc` reaches when the page of the block is mapped. -/
structure Reached (directory : Nat) (live : Set Site) (kernel : Kernel) (h virt : Nat) : Prop where
  low : kernel.vmm.LowIdentity
  heap : .heap h ∈ live
  heapLow : h < 0x400000
  heapAligned : h % 4096 = 0
  head : .header (kernel.head h) ∈ live
  headLow : kernel.head h < 0x400000
  headAligned : kernel.head h % 4096 = 0
  member : .header virt ∈ live
  views : Views directory kernel virt (.header virt)

namespace Represents

theorem readHead (represents : Represents directory live (kernel.setBlock virt header) ram)
    (reached : Reached directory live kernel h virt) :
    ram.read directory h = .done (kernel.head h) ram := by
  have found := represents.read (.heap reached.low reached.heapLow reached.heapAligned) reached.heap Nat.one_pos
  have word : kernel.head h < 2 ^ 32 := Nat.lt_trans reached.headLow (by decide)
  rw [show (kernel.setBlock virt header).word (.heap h) 0 = kernel.head h from rfl, Nat.mod_eq_of_lt word] at found
  exact found

theorem writeField (represents : Represents directory live (kernel.setBlock virt first) ram)
    (reached : Reached directory live kernel h virt) (inside : i < 4) (second : HeapBlock) (value : Nat) (field : ∀ j < 4, second.word j = Function.update first.word i value j) :
    ram.write directory (virt + 4 * i) value = .done () (ram.put directory (.header virt) i value) ∧
      Represents directory live (kernel.setBlock virt second) (ram.put directory (.header virt) i value) := by
  have views : Views directory (kernel.setBlock virt first) virt (.header virt) := .of_walk reached.views rfl
  refine ⟨represents.write views reached.member inside value, ?_⟩
  have same : (kernel.setBlock virt first).setBlock virt second = kernel.setBlock virt second := Kernel.setBlock_setBlock
  rw [← same]
  refine represents.setBlock reached.member inside ?_
  rw [show (kernel.setBlock virt first).block virt = first from Function.update_self ..]
  exact field

/-- The four fields of a new block are filled one after the other. -/
theorem fillHeader (represents : Represents directory live kernel ram) (reached : Reached directory live kernel h virt)
    (other : kernel.head h ≠ virt) (back : (kernel.block (kernel.head h)).prev = kernel.head h) (n : Nat) :
    ∃ after, ((ram.read directory h).bind fun head ram =>
        (ram.write directory (Ram.next virt) head).bind fun _ ram =>
        (ram.read directory h).bind fun head ram =>
        (ram.read directory (Ram.prev head)).bind fun last ram =>
        (ram.write directory (Ram.prev virt) last).bind fun _ ram =>
        (ram.write directory (Ram.size virt) n).bind fun _ ram =>
        (ram.write directory (Ram.magic virt) heapMagic).bind fun _ ram =>
          .done ((virt + sizeofHeapBlock) % 2 ^ 32) ram) = .done ((virt + sizeofHeapBlock) % 2 ^ 32) after ∧
      Represents directory live (kernel.setBlock virt
        { next := kernel.head h, prev := kernel.head h, size := n, magic := heapMagic }) after ∧
      Touches directory live ram after := by
  have start : Represents directory live (kernel.setBlock virt (kernel.block virt)) ram := by rwa [setBlock_self]
  have word : kernel.head h < 2 ^ 32 := Nat.lt_trans reached.headLow (by decide)
  generalize kernel.block virt = header at start
  -- one field at a time, each in the header the field before left
  obtain ⟨writeNext, linked⟩ := start.writeField reached (show 0 < 4 by decide) { header with next := kernel.head h } (kernel.head h)
    fun j inside => by interval_cases j <;> rfl
  obtain ⟨writePrev, joined⟩ := linked.writeField reached (show 1 < 4 by decide)
    { header with next := kernel.head h, prev := kernel.head h } (kernel.head h) fun j inside => by interval_cases j <;> rfl
  obtain ⟨writeSize, sized⟩ := joined.writeField reached (show 2 < 4 by decide)
    { header with next := kernel.head h, prev := kernel.head h, size := n } n fun j inside => by interval_cases j <;> rfl
  obtain ⟨writeMagic, finished⟩ := sized.writeField reached (show 3 < 4 by decide)
    { next := kernel.head h, prev := kernel.head h, size := n, magic := heapMagic } heapMagic fun j inside => by interval_cases j <;> rfl
  have views : Views directory (kernel.setBlock virt { header with next := kernel.head h }) (kernel.head h) (.header (kernel.head h)) :=
    .head reached.low reached.headLow reached.headAligned
  have readPrev := linked.read views reached.head (show 1 < 4 by decide)
  have kept : (kernel.setBlock virt { header with next := kernel.head h }).word (.header (kernel.head h)) 1 % 2 ^ 32 = kernel.head h := by
    change ((Function.update kernel.block virt _) (kernel.head h)).prev % 2 ^ 32 = _
    rw [Function.update_of_ne other, back, Nat.mod_eq_of_lt word]
  rw [kept] at readPrev
  refine ⟨_, ?_, finished, ?_⟩
  · rw [start.readHead reached, Outcome.done_bind]
    refine Outcome.bind_done.mpr ⟨(), _, writeNext, ?_⟩
    rw [linked.readHead reached, Outcome.done_bind]
    refine Outcome.bind_done.mpr ⟨_, _, readPrev, ?_⟩
    refine Outcome.bind_done.mpr ⟨(), _, writePrev, ?_⟩
    refine Outcome.bind_done.mpr ⟨(), _, writeSize, ?_⟩
    exact Outcome.bind_done.mpr ⟨(), _, writeMagic, rfl⟩
  · refine (represents.touches reached.member (show 0 < 4 by decide) (kernel.head h)).trans ?_
    refine (linked.touches reached.member (show 1 < 4 by decide) (kernel.head h)).trans ?_
    refine (joined.touches reached.member (show 2 < 4 by decide) n).trans ?_
    exact sized.touches reached.member (show 3 < 4 by decide) _

end Represents

/-! `kmalloc` -/

/-- The sites of a system with one block more. -/
theorem sites_kmalloc (roots : ∀ slot page, system.kernel.vmm.tree.root slot = some page → last.vmm.tree.root slot = some page)
    (heap : last.kernelHeap = system.kernel.kernelHeap) (head : last.listHead = system.kernel.listHead) :
    insert (.header block.header) system.sites ∪ last.vmm.tableSites = (System.mk last (.block block :: system.held)).sites := by
  ext site
  rw [Set.mem_union, Set.mem_insert_iff, System.mem_sites, System.mem_sites, heap, head]
  constructor
  · intro member
    rcases member with (rfl | directory | table | ⟨holder, member, uses⟩) | table
    · exact .inr (.inr ⟨.block block, List.mem_cons_self, .block⟩)
    · exact .inl directory
    · obtain ⟨slot, page, used, same⟩ := table
      exact .inr (.inl ⟨slot, page, roots slot page used, same⟩)
    · exact .inr (.inr ⟨holder, List.mem_cons_of_mem _ member, uses⟩)
    · exact .inr (.inl table)
  · intro member
    rcases member with directory | table | ⟨holder, member, uses⟩
    · exact .inl (.inr (.inl directory))
    · exact .inr table
    · rcases List.mem_cons.mp member with rfl | older
      · generalize same : Owner.caller (.block block) = owner at uses
        cases uses with
        | table | heap | head => cases same
        | block =>
            cases same
            exact .inl (.inl rfl)
      · exact .inl (.inr (.inr (.inr ⟨holder, older, uses⟩)))

theorem Steady.aligned (steady : Steady directory system) :
    system.kernel.kernelHeap % 4096 = 0 ∧ system.kernel.listHead % 4096 = 0 :=
  ⟨(steady.placed _ steady.heap).aligned, (steady.placed _ steady.head).aligned⟩

theorem Steady.sites_apart (steady : Steady directory system) : (sites directory).Apart system.sites :=
  steady.toAccounted.sites_apart steady.toHeapPlaced steady.reserves (Nat.lt_trans steady.directoryLow (by decide))

theorem System.header_mem_sites (member : .block block ∈ system.held) : .header block.header ∈ system.sites :=
  System.mem_sites.mpr (.inr (.inr ⟨.block block, member, .block⟩))

theorem Steady.head_member (steady : Steady directory system) : .header system.kernel.listHead ∈ system.sites :=
  System.mem_sites.mpr (.inr (.inr ⟨_, steady.head, .head⟩))

theorem Steady.heap_member (steady : Steady directory system) : .heap system.kernel.kernelHeap ∈ system.sites :=
  System.mem_sites.mpr (.inr (.inr ⟨_, steady.heap, .heap⟩))

/-- The words of a block are reached in every state with the same page tables and the same list. -/
theorem Steady.reached {middle : Kernel} (steady : Steady directory system) (member : .block block ∈ system.held)
    (views : Views directory middle block.header (.header block.header)) (heap : system.kernel.kernelHeap = h)
    (head : system.kernel.head = middle.head) (vmm : middle.vmm = system.kernel.vmm) :
    Reached directory system.sites middle h block.header := by
  subst heap
  have same : middle.head system.kernel.kernelHeap = system.kernel.listHead := congrFun head.symm _
  obtain ⟨aligned, headAligned⟩ := steady.aligned
  refine ⟨?_, steady.heap_member, steady.heapLow, aligned, ?_, ?_, ?_, System.header_mem_sites member, views⟩
  · rw [vmm]
    exact steady.identity
  · rw [same]
    exact steady.head_member
  · rw [same]
    exact steady.headLow
  · rw [same]
    exact headAligned

/-- The pages of a new block are reserved, and nothing is mapped yet. -/
theorem Steady.taken_apart {position : Nat} {pmm : Pmm} (steady : Steady directory system)
    (served : Served fuel position pmm system block last) (high : 0xC0000000 ≤ block.header) :
    (sites directory).Apart (insert (.header block.header) system.sites) := by
  have placed : HeapPlaced ⟨system.kernel.withPmm pmm, .block block :: system.held⟩ := by
    refine steady.toHeapPlaced.transfer rfl rfl (fun _ => List.mem_cons_of_mem _) fun other member => ?_
    rcases List.mem_cons.mp member with here | older
    · cases here
      exact high
    · exact steady.blocks other older
  have reserves : (System.mk (system.kernel.withPmm pmm) (.block block :: system.held)).Reserves (directory / 4096) :=
    steady.reserves.acquire served.provided
  have apart := served.middle.sites_apart placed reserves (Nat.lt_trans steady.directoryLow (by decide))
  refine apart.mono fun site member => ?_
  rw [System.mem_sites]
  rcases Set.mem_insert_iff.mp member with rfl | member
  · exact .inr (.inr ⟨.block block, List.mem_cons_self, .block⟩)
  · rcases System.mem_sites.mp member with directory | table | ⟨holder, member, uses⟩
    · exact .inl directory
    · exact .inr (.inl table)
    · exact .inr (.inr ⟨holder, List.mem_cons_of_mem _ member, uses⟩)

theorem Represents.kmalloc (represents : Represents directory system.sites system.kernel ram) (steady : Steady directory system)
    (size : n + sizeofHeapBlock + 4095 < 2 ^ 32) (run : Memory.kmalloc fuel n system.kernel = .done ptr last)
    (handed : HandsOutBelow (2 ^ 20) system.kernel.vmm.pmm last.vmm.pmm)
    (following : Steady directory ⟨last, .block ⟨ptr, n⟩ :: system.held⟩) :
    ∃ after, ram.kmalloc directory fuel n = .done ptr after ∧
      Represents directory (System.mk last (.block ⟨ptr, n⟩ :: system.held)).sites last after ∧
      Touches directory (System.mk last (.block ⟨ptr, n⟩ :: system.held)).sites ram after := by
  obtain ⟨phys, pmm, alloc, map, returned, head, heap, written⟩ := heapAlloc_done run
  obtain ⟨position, other, served⟩ := steady.served size run handed
  obtain ⟨_, pages⟩ := Outcome.done.inj (alloc.symm.trans served.alloc)
  subst pages
  have word := (pmmAlloc_aligned alloc).1
  have owner := Block.of_done (n := n) word returned
  have here : (Block.mk ptr n).header = higherHalf phys := owner.1
  have high : 0xC0000000 ≤ (Block.mk ptr n).header := following.blocks _ List.mem_cons_self
  have same : last.listHead = system.kernel.listHead := listHead_congr head heap
  have taken := (represents.withPmm pmm).adoptHeader (steady.taken_apart served high)
  obtain ⟨old, adopted⟩ := taken
  have sites : insert (.header (Block.mk ptr n).header) system.sites ∪ last.vmm.tableSites =
      (System.mk last (.block ⟨ptr, n⟩ :: system.held)).sites := sites_kmalloc (fun _ _ => served.mapping.root_kept) heap same
  have fresh : FreshTable fuel (higherHalf phys) (system.kernel.withPmm pmm).vmm last.vmm := served.middle.freshTable served.handed
  have apart : (Memory.sites directory).Apart (insert (.header (Block.mk ptr n).header) system.sites ∪ last.vmm.tableSites) := by
    rw [sites]
    exact following.sites_apart
  have mapping := adopted.vmmMap (.root steady.identity steady.directoryLow represents.aligned) (higherHalf_lt phys) map fresh
    (fun pt used => .used steady.identity used (following.tables _ _ used)) apart
  obtain ⟨mapped, runMap, represented, touches⟩ := mapping
  rw [sites] at represented touches
  have walk := served.walk (Block.mk ptr n).header_lt
  rw [if_pos rfl] at walk
  have aligned : (Block.mk ptr n).header % 4096 = 0 := (heapAlloc_writes run).2.1
  have views : Views directory last (Block.mk ptr n).header (.header (Block.mk ptr n).header) :=
    .high high (Block.mk ptr n).header_lt aligned walk
  have reached : Reached directory (System.mk last (.block ⟨ptr, n⟩ :: system.held)).sites
      (((system.kernel.withPmm pmm).setBlock (Block.mk ptr n).header old).withVmm last.vmm) system.kernel.kernelHeap
      (Block.mk ptr n).header := following.reached List.mem_cons_self (.of_walk views rfl) heap head rfl
  have other : system.kernel.listHead ≠ (Block.mk ptr n).header := by
    have low := steady.headLow
    omega
  have links := (steady.linked _ (.inl rfl)).2
  have back : ((Function.update system.kernel.block (Block.mk ptr n).header old) system.kernel.listHead).prev = system.kernel.listHead := by
    rw [Function.update_of_ne other]
    exact links
  obtain ⟨after, fill, filled, more⟩ := represented.fillHeader reached other back n
  generalize (Block.mk ptr n).header = virt at here fill filled
  have blocks : last.block = Function.update (Function.update system.kernel.block virt old) virt
      { next := system.kernel.listHead, prev := system.kernel.listHead, size := n, magic := heapMagic } := by
    have last_prev : (system.kernel.block (system.kernel.head system.kernel.kernelHeap)).prev = system.kernel.listHead := links
    rw [Function.update_idem, here, written, last_prev]
    rfl
  refine ⟨after, ?_, filled.congr (fun site _ i _ => ?_) rfl rfl heap, touches.trans more⟩
  · rw [Ram.kmalloc, represents.kernelHeap, Ram.heapAlloc, represents.takes alloc, Outcome.done_bind]
    refine Outcome.bind_done.mpr ⟨(), mapped, runMap, ?_⟩
    rw [returned, ← here]
    exact fill
  · refine congrFun (congrFun ?_ site) i
    exact word_congr rfl head blocks

/-! `kfree` -/

theorem Steady.unlinked (steady : Steady directory system) (member : .block block ∈ system.held) :
    linkPrev block.header (linkNext block.header system.kernel) = system.kernel := by
  have loop := steady.linked _ (.inl rfl)
  have links := steady.linked _ (.inr ⟨block, member, rfl⟩)
  exact unlink_loop loop.1 loop.2 links.1 links.2

theorem Linked.kfree (linked : Linked system) (unlink : linkPrev block.header (linkNext block.header system.kernel) = system.kernel)
    (heap : (heapFree block.ptr system.kernel).kernelHeap = system.kernel.kernelHeap) :
    Linked ⟨heapFree block.ptr system.kernel, system.held.erase (.block block)⟩ := by
  obtain ⟨blocks, head⟩ := heapFree_block unlink (show (block.ptr + 2 ^ 32 - sizeofHeapBlock) % 2 ^ 32 = block.header from rfl)
  have same : (heapFree block.ptr system.kernel).listHead = system.kernel.listHead := listHead_congr head heap
  intro node named
  change ((heapFree block.ptr system.kernel).block node).next = (heapFree block.ptr system.kernel).listHead ∧
    ((heapFree block.ptr system.kernel).block node).prev = (heapFree block.ptr system.kernel).listHead
  rw [blocks, same]
  refine linked node ?_
  rcases named with head | ⟨other, kept, here⟩
  · exact .inl (head.trans same)
  · exact .inr ⟨other, List.mem_of_mem_erase kept, here⟩

theorem Steady.kfree (steady : Steady directory system) (member : .block block ∈ system.held) :
    Steady directory ⟨Memory.kfree block.ptr system.kernel, system.held.erase (.block block)⟩ := by
  have makes : Makes system (.heapFree block) ⟨heapFree block.ptr system.kernel, system.held.erase (.block block)⟩ := .heapFree member
  have handed : HandsOutBelow (2 ^ 20) system.kernel.vmm.pmm (heapFree block.ptr system.kernel).vmm.pmm := .of_subset heapFree_used_subset
  have undisturbed := steady.toUndisturbed.step makes trivial handed
  have unmapping := steady.heapFree_unmapping member
  have unlink := steady.unlinked member
  obtain ⟨_, head, heap, _⟩ := heapFree_done rfl (steady.header block member).2
  have same : (heapFree block.ptr system.kernel).listHead = system.kernel.listHead := listHead_congr head heap
  have placed : HeapPlaced ⟨heapFree block.ptr system.kernel, system.held.erase (.block block)⟩ := by
    refine steady.toHeapPlaced.transfer heap same (fun page member => ?_) fun other kept => steady.blocks other (List.mem_of_mem_erase kept)
    refine (List.mem_erase_of_ne fun same => ?_).mpr member
    cases same
  exact ⟨undisturbed, placed, steady.directoryLow, (steady.reserves.release steady.toAccounted member).unmapping unmapping,
    fun slot page used => steady.tables slot page (unmapping.table_from used), steady.linked.kfree unlink heap,
    (steady.backed.step makes trivial handed).pages⟩

theorem Steady.views (steady : Steady directory system) (member : .block block ∈ system.held) :
    Views directory system.kernel block.header (.header block.header) := by
  have placed := steady.block_placed member
  have high := steady.blocks block member
  have first := steady.pages block member _ placed.first
  obtain ⟨flags, walk, _⟩ := (Vmm.backs_iff steady.writable (placed.page_lt placed.first)).mp first
  rw [← Block.header_page placed, placed.address] at walk
  have aligned : block.header % 4096 = 0 := by
    have whole := placed.aligned
    rw [block.header_eq]
    unfold higherHalf
    omega
  exact .high high block.header_lt aligned walk

theorem sites_kfree (roots : ∀ slot page, last.vmm.tree.root slot = some page → system.kernel.vmm.tree.root slot = some page)
    (heap : last.kernelHeap = system.kernel.kernelHeap) (head : last.listHead = system.kernel.listHead) :
    (System.mk last (system.held.erase (.block block))).sites ⊆ system.sites := by
  intro site member
  refine System.mem_sites.mpr ?_
  rcases System.mem_sites.mp member with directory | ⟨slot, page, used, same⟩ | ⟨holder, kept, uses⟩
  · exact .inl directory
  · exact .inr (.inl ⟨slot, page, roots slot page used, same⟩)
  · refine .inr (.inr ⟨holder, List.mem_of_mem_erase kept, ?_⟩)
    rw [← heap, ← head]
    exact uses

theorem heapFree_eq (magic : (kernel.block block.header).magic = heapMagic)
    (unlink : linkPrev block.header (linkNext block.header kernel) = kernel) :
    heapFree block.ptr kernel = (kernel.withPmm (pmmFree (physical block.header) (heapPages (kernel.block block.header).size)
      kernel.vmm.pmm)).withVmm (vmmUnmap block.header
        { kernel.vmm with pmm := pmmFree (physical block.header) (heapPages (kernel.block block.header).size) kernel.vmm.pmm }) := by
  have here : (block.ptr + 2 ^ 32 - sizeofHeapBlock) % 2 ^ 32 = block.header := rfl
  unfold heapFree
  simp only [here, magic, ne_eq, not_true_eq_false, if_false, unlink]
  rfl

namespace Represents

/-- A word is written again. -/
theorem rewrite {site : Site} (represents : Represents directory live kernel ram) (member : site ∈ live)
    (inside : i < (sites directory).size site) (same : kernel.word site i = value) :
    Represents directory live kernel (ram.put directory site i value) := by
  refine represents.put member inside (fun other _ j _ => ?_) represents.tables rfl rfl
  rw [← same, Function.update_eq_self, Function.update_eq_self]

/-- What a field of a live block reads as: both links lead to the head of the list. -/
theorem readField (represents : Represents directory system.sites system.kernel ram) (steady : Steady directory system)
    (member : .block block ∈ system.held) (inside : i < 4) :
    ram.read directory (block.header + 4 * i) = .done (HeapBlock.word
      { next := system.kernel.listHead, prev := system.kernel.listHead, size := block.size, magic := heapMagic } i) ram := by
  rw [represents.read (steady.views member) (System.header_mem_sites member) inside]
  obtain ⟨size, magic⟩ := steady.header block member
  obtain ⟨next, prev⟩ := steady.linked _ (.inr ⟨block, member, rfl⟩)
  have low := steady.headLow
  have small := steady.size block member
  have field : (system.kernel.block block.header).word i % 2 ^ 32 = HeapBlock.word
      { next := system.kernel.listHead, prev := system.kernel.listHead, size := block.size, magic := heapMagic } i := by
    interval_cases i
    · change (system.kernel.block block.header).next % 2 ^ 32 = system.kernel.listHead
      rw [next, Nat.mod_eq_of_lt (by omega)]
    · change (system.kernel.block block.header).prev % 2 ^ 32 = system.kernel.listHead
      rw [prev, Nat.mod_eq_of_lt (by omega)]
    · change (system.kernel.block block.header).size % 2 ^ 32 = block.size
      rw [size, Nat.mod_eq_of_lt (by omega)]
    · change (system.kernel.block block.header).magic % 2 ^ 32 = heapMagic
      rw [magic]
      rfl
  exact congrArg (fun value => Outcome.done value ram) field

theorem kfree (represents : Represents directory system.sites system.kernel ram) (steady : Steady directory system)
    (member : .block block ∈ system.held) :
    ∃ after, ram.kfree directory block.ptr = .done () after ∧
      Represents directory (System.mk (Memory.kfree block.ptr system.kernel) (system.held.erase (.block block))).sites
        (Memory.kfree block.ptr system.kernel) after ∧
      Touches directory system.sites ram after := by
  obtain ⟨size, magic⟩ := steady.header block member
  obtain ⟨ahead, behind⟩ := steady.linked _ (.inl rfl)
  have head := steady.head_member
  have loop : Views directory system.kernel system.kernel.listHead (.header system.kernel.listHead) :=
    .head steady.identity steady.headLow steady.aligned.2
  have written := represents.rewrite head (show 0 < 4 by decide) ahead
  have joined := written.rewrite head (show 1 < 4 by decide) behind
  have freed := joined.withPmm (pmmFree (physical block.header) (heapPages block.size) system.kernel.vmm.pmm)
  obtain ⟨after, unmap, represented, touches⟩ := freed.vmmUnmap_high steady.directoryLow steady.identity steady.apart steady.tables
    block.header_lt (Nat.le_trans (by decide) (steady.blocks block member))
  have fewer : (System.mk (Memory.kfree block.ptr system.kernel) (system.held.erase (.block block))).sites ⊆ system.sites := by
    have unmapping := steady.heapFree_unmapping member
    obtain ⟨_, head, heap, _⟩ := heapFree_done rfl magic
    exact sites_kfree (fun _ _ => unmapping.table_from) heap (listHead_congr head heap)
  have at_block : (block.ptr + 2 ^ 32 - sizeofHeapBlock) % 2 ^ 32 = block.header := rfl
  have same := heapFree_eq magic (steady.unlinked member)
  rw [size] at same
  have reads (i : Nat) {state : Ram} (inside : i < 4) (represented : Represents directory system.sites system.kernel state) :=
    represented.readField steady member inside
  generalize block.header = virt at *
  refine ⟨after, ?_, ?_, ?_⟩
  · change Ram.heapFree directory block.ptr ram = _
    unfold Ram.heapFree
    simp only [at_block]
    refine Outcome.bind_done.mpr ⟨heapMagic, _, reads 3 (by decide) represents, ?_⟩
    rw [if_neg (not_not.mpr rfl)]
    refine Outcome.bind_done.mpr ⟨system.kernel.listHead, _, reads 1 (by decide) represents, ?_⟩
    refine Outcome.bind_done.mpr ⟨system.kernel.listHead, _, reads 0 (by decide) represents, ?_⟩
    refine Outcome.bind_done.mpr ⟨_, _, represents.write loop head (show 0 < 4 by decide) system.kernel.listHead, ?_⟩
    refine Outcome.bind_done.mpr ⟨system.kernel.listHead, _, reads 0 (by decide) written, ?_⟩
    refine Outcome.bind_done.mpr ⟨system.kernel.listHead, _, reads 1 (by decide) written, ?_⟩
    refine Outcome.bind_done.mpr ⟨_, _, written.write loop head (show 1 < 4 by decide) system.kernel.listHead, ?_⟩
    refine Outcome.bind_done.mpr ⟨block.size, _, reads 2 (by decide) joined, ?_⟩
    rw [Ram.pmmFree, joined.pmm]
    exact unmap
  · have whole : Represents directory system.sites (Memory.kfree block.ptr system.kernel) after := by
      rw [Memory.kfree, same]
      exact represented
    exact whole.mono fewer (System.mem_sites.mpr (.inl rfl)) fun site table => System.mem_sites.mpr (.inr (.inl table))
  · refine (represents.touches head (show 0 < 4 by decide) system.kernel.listHead).trans ?_
    exact (written.touches head (show 1 < 4 by decide) system.kernel.listHead).trans touches

end Represents

end BarrelOS.Memory
