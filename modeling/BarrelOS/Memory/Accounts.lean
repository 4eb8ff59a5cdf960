import BarrelOS.Memory.System

namespace BarrelOS.Memory

open BarrelOS.Data BarrelOS.Semantics

/-! Who holds which pages -/

inductive Owner where
  | caller (holder : Holder)
  | table (slot page : Nat)

def Owner.allocation : Owner → Allocation
  | .caller holder => holder.allocation
  | .table _ page => ⟨page, 1⟩

def Owner.pages (owner : Owner) : Set Nat := owner.allocation.pages

def System.owners (system : System) : Set Owner := fun owner =>
  match owner with
  | .caller holder => holder ∈ system.held
  | .table slot page => system.kernel.vmm.tree.root slot = some page

def System.used (system : System) : Set Nat := system.kernel.vmm.pmm.used

/-- Whole pages of the address space. -/
structure Allocation.Placed (owner : Allocation) : Prop where
  aligned : owner.ptr % 4096 = 0
  positive : 0 < owner.count
  below : owner.ptr / 4096 + owner.count ≤ 2 ^ 20

theorem Allocation.Placed.first {owner : Allocation} (placed : owner.Placed) :
    owner.ptr / 4096 ∈ owner.pages := ⟨Nat.le_refl _, Nat.lt_add_of_pos_right placed.positive⟩

theorem Allocation.Placed.page_lt {owner : Allocation} (placed : owner.Placed) {page : Nat} (inside : page ∈ owner.pages) :
    page < 2 ^ 20 := Nat.lt_of_lt_of_le inside.2 placed.below

theorem Allocation.Placed.address {owner : Allocation} (placed : owner.Placed) :
    owner.ptr / 4096 * 4096 = owner.ptr := by
  have aligned := placed.aligned
  omega

theorem Provided.placed {owner : Allocation} {before after : Pmm}
    (provided : Provided before owner (2 ^ 20) after) (positive : 0 < owner.count) : owner.Placed :=
  ⟨provided.aligned, positive, provided.below⟩

/-- Every owner's pages are reserved for it alone. -/
structure Accounted (system : System) : Prop where
  owned : Owned Owner.pages system.used system.owners
  placed : ∀ holder ∈ system.held, holder.allocation.Placed
  distinct : system.held.Nodup

variable {system : System} {fuel h phys virt flags n ptr : Nat} {vmm : Vmm} {pmm : Pmm} {kernel : Kernel}
  {holder : Holder} {block : Block}

theorem Owner.mem_table (slot page : Nat) : page / 4096 ∈ (Owner.table slot page).pages :=
  ⟨Nat.le_refl _, Nat.lt_succ_self _⟩

theorem Accounted.block_placed (accounted : Accounted system) (member : .block block ∈ system.held) :
    block.allocation.Placed := accounted.placed (.block block) member

theorem Accounted.apart (accounted : Accounted system) : system.kernel.vmm.tree.Apart := by
  intro slot other page first second
  by_contra differs
  have owners : Owner.table slot page ≠ Owner.table other page := by
    intro same
    exact differs (Owner.table.inj same).1
  have disjoint := accounted.owned.apart (show Owner.table slot page ∈ system.owners from first)
    (show Owner.table other page ∈ system.owners from second) owners
  exact Set.disjoint_left.mp disjoint (Owner.mem_table slot page) (Owner.mem_table other page)

theorem Accounted.of_tables (unheld : system.held = []) (apart : system.kernel.vmm.tree.Apart)
    (reserved : ∀ slot page, system.kernel.vmm.tree.root slot = some page → page / 4096 ∈ system.used) :
    Accounted system where
  owned := by
    have tables : ∀ owner ∈ system.owners, ∃ slot page, owner = .table slot page ∧
        system.kernel.vmm.tree.root slot = some page := by
      intro owner member
      cases owner with
      | caller holder => exact absurd (unheld ▸ member : holder ∈ []) List.not_mem_nil
      | table slot page => exact ⟨slot, page, rfl, member⟩
    constructor
    · intro owner member resource inside
      obtain ⟨slot, page, rfl, used⟩ := tables owner member
      have same : resource = page / 4096 := Nat.le_antisymm (Nat.le_of_lt_succ inside.2) inside.1
      exact same ▸ reserved slot page used
    · intro left first right second differs
      obtain ⟨slot, page, rfl, used⟩ := tables left first
      obtain ⟨other, pt, rfl, usedToo⟩ := tables right second
      refine Set.disjoint_left.mpr fun resource inLeft inRight => differs ?_
      have pages : page / 4096 = pt / 4096 := by
        have lower := inLeft.1
        have upper := inLeft.2
        have lowerToo := inRight.1
        have upperToo := inRight.2
        simp only [Owner.allocation] at lower upper lowerToo upperToo
        omega
      have same : page = pt := by
        obtain ⟨_, _, base⟩ := Vmm.tree_root_some.mp used
        obtain ⟨_, _, baseToo⟩ := Vmm.tree_root_some.mp usedToo
        have aligned : page % 4096 = 0 := base ▸ pageBase_aligned _
        have alignedToo : pt % 4096 = 0 := baseToo ▸ pageBase_aligned _
        omega
      subst same
      rw [apart slot other page used usedToo]
  placed := by simp [unheld]
  distinct := by simp [unheld]

theorem Accounted.freshTable (accounted : Accounted system)
    (handed : HandsOutBelow (2 ^ 20) system.kernel.vmm.pmm vmm.pmm) :
    FreshTable fuel virt system.kernel.vmm vmm := by
  intro pt _ alloc slot used
  have provided := pmmAlloc_provided Nat.one_pos alloc handed (Nat.le_refl _)
  have held := accounted.owned.held (.table slot pt) used (Owner.mem_table slot pt)
  exact Set.disjoint_left.mp provided.unused (Owner.mem_table slot pt) held

/-! What a call does to the owners -/

theorem owners_withKernel (root : kernel.vmm.tree.root = system.kernel.vmm.tree.root) :
    { system with kernel }.owners = system.owners := by
  ext owner
  cases owner with
  | table slot page =>
      change kernel.vmm.tree.root slot = some page ↔ system.kernel.vmm.tree.root slot = some page
      rw [root]
  | caller => exact Iff.rfl

theorem owners_attach {slot pt : Nat} (vacant : system.kernel.vmm.tree.root slot = none)
    (root : kernel.vmm.tree.root = Function.update system.kernel.vmm.tree.root slot (some pt)) :
    { system with kernel }.owners = insert (.table slot pt) system.owners := by
  ext owner
  cases owner with
  | table other page =>
      change kernel.vmm.tree.root other = some page ↔
        Owner.table other page = .table slot pt ∨ system.kernel.vmm.tree.root other = some page
      rw [root, Function.update_apply]
      by_cases same : other = slot
      · simp [same, vacant, eq_comm]
      · simp [same]
  | caller =>
      rw [Set.mem_insert_iff]
      simp only [reduceCtorEq, false_or]
      exact Iff.rfl

theorem owners_detach {slot pt : Nat} (table : system.kernel.vmm.tree.root slot = some pt)
    (root : kernel.vmm.tree.root = Function.update system.kernel.vmm.tree.root slot none) :
    { system with kernel }.owners = system.owners \ {.table slot pt} := by
  ext owner
  cases owner with
  | table other page =>
      change kernel.vmm.tree.root other = some page ↔
        system.kernel.vmm.tree.root other = some page ∧ ¬ Owner.table other page = .table slot pt
      rw [root, Function.update_apply]
      by_cases same : other = slot
      · simp [same, table, eq_comm]
      · simp [same]
  | caller =>
      rw [Set.mem_sdiff, Set.mem_singleton_iff]
      simp only [reduceCtorEq, not_false_eq_true, and_true]
      exact Iff.rfl

theorem owners_cons : (System.mk (system.kernel.withPmm pmm) (holder :: system.held)).owners =
    insert (.caller holder) system.owners := by
  ext owner
  cases owner with
  | caller other =>
      change other ∈ holder :: system.held ↔ Owner.caller other = .caller holder ∨ other ∈ system.held
      simp
  | table =>
      rw [Set.mem_insert_iff]
      simp only [reduceCtorEq, false_or]
      exact Iff.rfl

theorem owners_erase (distinct : system.held.Nodup) :
    (System.mk (system.kernel.withPmm pmm) (system.held.erase holder)).owners =
      system.owners \ {.caller holder} := by
  ext owner
  cases owner with
  | caller other =>
      change other ∈ system.held.erase holder ↔ other ∈ system.held ∧ ¬ Owner.caller other = .caller holder
      simp [distinct.mem_erase_iff, and_comm]
  | table =>
      rw [Set.mem_sdiff, Set.mem_singleton_iff]
      simp only [reduceCtorEq, not_false_eq_true, and_true]
      exact Iff.rfl

/-- How a `vmm_map` changes the owners and the pages in use: not at all, or by a
page that becomes a table. -/
inductive TableTaken (system : System) (slot : Nat) (after : System) : Prop
  | shared (owners : after.owners = system.owners) (used : after.used = system.used)
  | created {fuel pt : Nat}
      (vacant : system.kernel.vmm.tree.root slot = none)
      (alloc : pmmAlloc fuel 1 system.kernel.vmm.pmm = .done pt after.kernel.vmm.pmm)
      (owners : after.owners = insert (.table slot pt) system.owners)

/-- How a `vmm_unmap` changes them: not at all, or by a table given back. -/
inductive TableGiven (system : System) (slot : Nat) (after : System) : Prop
  | kept (owners : after.owners = system.owners) (used : after.used = system.used)
  | released {pt : Nat}
      (table : Owner.table slot pt ∈ system.owners)
      (gone : after.kernel.vmm.tree.root slot = none)
      (owners : after.owners = system.owners \ {.table slot pt})
      (used : after.used = system.used \ (Owner.table slot pt).pages)

theorem Mapping.tableTaken (mapping : Mapping fuel phys virt flags system.kernel.vmm kernel.vmm) :
    TableTaken system (virt >>> 22) { system with kernel } := by
  cases mapping with
  | shared _ pmm tree =>
      have root : kernel.vmm.tree.root = system.kernel.vmm.tree.root := by rw [tree, Directory.write_root]
      exact .shared (owners_withKernel root) (congrArg Pmm.used pmm)
  | @created pt middle vacant alloc attached tree =>
      have root : kernel.vmm.tree.root =
          Function.update system.kernel.vmm.tree.root (virt >>> 22) (some pt) := by
        rw [tree, attached]
        rfl
      exact .created vacant alloc (owners_attach vacant root)

theorem Unmapping.tableGiven (unmapping : Unmapping virt system.kernel.vmm kernel.vmm) :
    TableGiven system (virt >>> 22) { system with kernel } := by
  cases unmapping with
  | absent _ same =>
      exact .kept (owners_withKernel (by rw [same])) (congrArg (Pmm.used ∘ Vmm.pmm) same)
  | kept _ cleared _ pmm tree =>
      have root : kernel.vmm.tree.root = system.kernel.vmm.tree.root := by
        rw [tree, cleared, Directory.write_root]
      exact .kept (owners_withKernel root) (congrArg Pmm.used pmm)
  | @released pt middle table cleared _ pmm tree =>
      have root : kernel.vmm.tree.root = Function.update system.kernel.vmm.tree.root (virt >>> 22) none := by
        rw [tree, cleared]
        rfl
      have page : pt < 2 ^ 32 := by
        obtain ⟨_, _, base⟩ := Vmm.tree_root_some.mp table
        exact base ▸ pageBase_lt _
      have inside : (Allocation.mk pt 1).ptr / 4096 + (Allocation.mk pt 1).count ≤ 2 ^ 32 := by
        change pt / 4096 + 1 ≤ 2 ^ 32
        omega
      have gone : kernel.vmm.tree.root (virt >>> 22) = none := by rw [root, Function.update_self]
      have used : kernel.vmm.pmm.used = system.kernel.vmm.pmm.used \ (Allocation.mk pt 1).pages := by
        rw [pmm]
        exact @used_pmmFree ⟨pt, 1⟩ system.kernel.vmm.pmm inside
      exact .released table gone (owners_detach table root) used

namespace Accounted

theorem withKernel (accounted : Accounted system) (pmm : kernel.vmm.pmm = system.kernel.vmm.pmm)
    (tree : kernel.vmm.tree = system.kernel.vmm.tree) : Accounted { system with kernel } where
  owned := by
    rw [owners_withKernel (congrArg Directory.root tree)]
    exact accounted.owned.mono (congrArg Pmm.used pmm).superset
  placed := accounted.placed
  distinct := accounted.distinct

theorem mapping (accounted : Accounted system)
    (mapping : Mapping fuel phys virt flags system.kernel.vmm kernel.vmm)
    (handed : HandsOutBelow (2 ^ 20) system.kernel.vmm.pmm kernel.vmm.pmm) :
    Accounted { system with kernel } where
  owned := by
    cases mapping.tableTaken with
    | shared owners used => exact owners ▸ accounted.owned.mono used.superset
    | created _ alloc owners =>
        have provided := pmmAlloc_provided Nat.one_pos alloc handed (Nat.le_refl _)
        rw [owners]
        exact accounted.owned.acquire provided.unused provided.kept provided.taken
  placed := accounted.placed
  distinct := accounted.distinct

theorem unmapping (accounted : Accounted system) (unmapping : Unmapping virt system.kernel.vmm kernel.vmm) :
    Accounted { system with kernel } where
  owned := by
    cases unmapping.tableGiven with
    | kept owners used => exact owners ▸ accounted.owned.mono used.superset
    | released table _ owners used => exact owners ▸ accounted.owned.release table used.superset
  placed := accounted.placed
  distinct := accounted.distinct

theorem acquire (accounted : Accounted system) (holder : Holder) (positive : 0 < holder.allocation.count)
    (provided : Provided system.kernel.vmm.pmm holder.allocation (2 ^ 20) pmm) :
    Accounted ⟨system.kernel.withPmm pmm, holder :: system.held⟩ where
  owned := by
    rw [owners_cons]
    exact accounted.owned.acquire provided.unused provided.kept provided.taken
  placed := by
    intro other member
    rcases List.mem_cons.mp member with rfl | member
    · exact provided.placed positive
    · exact accounted.placed other member
  distinct := by
    refine List.nodup_cons.mpr ⟨?_, accounted.distinct⟩
    intro member
    have first := (provided.placed positive).first
    exact Set.disjoint_left.mp provided.unused first (accounted.owned.held (.caller holder) member first)

theorem release (accounted : Accounted system) (member : holder ∈ system.held) :
    Accounted ⟨system.kernel.withPmm (pmmFree holder.allocation.ptr holder.allocation.count system.kernel.vmm.pmm),
      system.held.erase holder⟩ where
  owned := by
    have below := (accounted.placed holder member).below
    have freed : (pmmFree holder.allocation.ptr holder.allocation.count system.kernel.vmm.pmm).used =
        system.used \ holder.allocation.pages := used_pmmFree (by omega)
    rw [owners_erase accounted.distinct]
    exact accounted.owned.release (show Owner.caller holder ∈ system.owners from member) freed.superset
  placed := fun other kept => accounted.placed other (List.mem_of_mem_erase kept)
  distinct := accounted.distinct.erase holder

end Accounted

/-! Every call keeps the accounts -/

/-- The accounts, and the header of every block as `heap_alloc` wrote it. -/
structure Sound (system : System) : Prop extends Accounted system where
  header : ∀ block, .block block ∈ system.held → (system.kernel.block block.header).size = block.size ∧
    (system.kernel.block block.header).magic = heapMagic

theorem Block.header_lt (block : Block) : block.header < 2 ^ 32 := Nat.mod_lt _ (by decide)

theorem Block.header_eq (block : Block) : block.header = higherHalf block.allocation.ptr := by
  have word := block.header_lt
  change block.header = higherHalf (physical block.header)
  unfold higherHalf physical
  omega

theorem Block.header_page (placed : block.allocation.Placed) :
    block.header = higherHalf (block.allocation.ptr / 4096 * 4096) := by
  rw [placed.address]
  exact block.header_eq

theorem Block.of_done {phys n ptr : Nat} (word : phys < 2 ^ 32)
    (returned : ptr = (higherHalf phys + sizeofHeapBlock) % 2 ^ 32) :
    (Block.mk ptr n).header = higherHalf phys ∧ (Block.mk ptr n).allocation = ⟨phys, heapPages n⟩ := by
  have header : (Block.mk ptr n).header = higherHalf phys := by
    have bound := higherHalf_lt phys
    simp only [Block.header, sizeofHeapBlock] at *
    omega
  exact ⟨header, by rw [Block.allocation, header, physical_higherHalf word]⟩

theorem Mapping.kept {before after : Vmm} (mapping : Mapping fuel phys virt flags before after) :
    before.pmm.used ⊆ after.pmm.used := by
  cases mapping with
  | shared _ pmm => exact (congrArg Pmm.used pmm).superset
  | created _ alloc => exact pmmAlloc_kept Nat.one_pos alloc

theorem Accounted.header_injective {left right : Block} (accounted : Accounted system)
    (first : .block left ∈ system.held) (second : .block right ∈ system.held)
    (same : left.header = right.header) : left = right := by
  by_contra differs
  have owners : Owner.caller (.block left) ≠ .caller (.block right) :=
    fun equal => differs (Holder.block.inj (Owner.caller.inj equal))
  have disjoint := accounted.owned.apart (show Owner.caller (.block left) ∈ system.owners from first)
    (show Owner.caller (.block right) ∈ system.owners from second) owners
  have start : left.allocation.ptr = right.allocation.ptr := congrArg physical same
  have inRight : right.allocation.ptr / 4096 ∈ right.allocation.pages := (accounted.placed _ second).first
  rw [← start] at inRight
  exact Set.disjoint_left.mp disjoint (accounted.placed _ first).first inRight

/-- A `heap_alloc` that returned `block`: the pages taken for it, and the mapping of
its first page in the state between. -/
structure Served (fuel position : Nat) (pmm : Pmm) (system : System) (block : Block) (kernel : Kernel) :
    Prop where
  request : Requests system (.heapAlloc block.size) .block (heapPages block.size) position
  alloc : pmmAlloc fuel (heapPages block.size) system.kernel.vmm.pmm = .done (pageAddress position) pmm
  start : block.allocation = ⟨pageAddress position, heapPages block.size⟩
  provided : Provided system.kernel.vmm.pmm block.allocation (2 ^ 20) pmm
  middle : Accounted ⟨system.kernel.withPmm pmm, .block block :: system.held⟩
  mapping : Mapping fuel block.allocation.ptr block.header (ptePresent ||| pteWritable)
    (system.kernel.withPmm pmm).vmm kernel.vmm
  handed : HandsOutBelow (2 ^ 20) pmm kernel.vmm.pmm
  following : ∀ other rest, pmm.Next 1 other rest → system.Vacant block.header →
    Requests system (.heapAlloc block.size) .table 1 other
  written : ∃ header, kernel.block = Function.update system.kernel.block block.header header ∧
    header.size = block.size ∧ header.magic = heapMagic

theorem Accounted.provides (accounted : Accounted system) (positive : 0 < heapPages n)
    (run : heapAlloc fuel h n system.kernel = .done ptr kernel)
    (handed : HandsOutBelow (2 ^ 20) system.kernel.vmm.pmm kernel.vmm.pmm) :
    ∃ position pmm, Served fuel position pmm system ⟨ptr, n⟩ kernel := by
  obtain ⟨phys, pmm, alloc, map, returned, _, _, written⟩ := heapAlloc_done run
  obtain ⟨position, rest, next, same, address⟩ := pmmAlloc_next positive alloc
  subst address
  obtain ⟨word, aligned⟩ := pmmAlloc_aligned alloc
  have start : (Block.mk ptr n).header = higherHalf (pageAddress position) ∧
      (Block.mk ptr n).allocation = ⟨pageAddress position, heapPages n⟩ := Block.of_done word returned
  obtain ⟨header, allocation⟩ := start
  have mapping := vmmMap_done (higherHalf_lt _) map
  have kept : pmm.used ⊆ kernel.vmm.pmm.used := mapping.kept
  have provided := pmmAlloc_provided positive alloc (fun page set => handed page (kept set)) (Nat.le_refl _)
  rw [← allocation] at provided
  refine ⟨position, pmm, .block next, alloc, allocation, provided,
    accounted.acquire (.block ⟨ptr, n⟩) positive provided, ?_, ?_, ?_, ?_⟩
  · rw [physical_higherHalf word] at mapping
    rw [header, allocation]
    exact mapping
  · exact fun page set => (handed page set).imp_left fun earlier => provided.kept earlier
  · intro other remaining following vacant
    obtain ⟨_, transferred, _⟩ := same.next following
    rw [header] at vacant
    exact .blockTable next vacant transferred
  · rw [header]
    exact ⟨_, written, rfl, rfl⟩

theorem Accounted.served (accounted : Accounted system) (size : n + sizeofHeapBlock + 4095 < 2 ^ 32)
    (run : heapAlloc fuel h n system.kernel = .done ptr kernel)
    (handed : HandsOutBelow (2 ^ 20) system.kernel.vmm.pmm kernel.vmm.pmm) :
    ∃ position pmm, Served fuel position pmm system ⟨ptr, n⟩ kernel :=
  accounted.provides (heapPages_pos size) run handed

namespace Served

variable {position : Nat}

theorem placed (served : Served fuel position pmm system block kernel) : block.allocation.Placed :=
  served.middle.block_placed List.mem_cons_self

theorem accounted (served : Served fuel position pmm system block kernel) :
    Accounted ⟨kernel, .block block :: system.held⟩ := served.middle.mapping served.mapping served.handed

theorem walk {virt : Nat} (served : Served fuel position pmm system block kernel) (bound : virt < 2 ^ 32) :
    kernel.vmm.walk virt =
      if virt / 4096 = block.header / 4096 then some (block.allocation.ptr, ptePresent ||| pteWritable)
      else system.kernel.vmm.walk virt := by
  have placed := served.placed
  have below := placed.below
  have positive := placed.positive
  have page : pageBase block.allocation.ptr = block.allocation.ptr :=
    pageBase_of_aligned (by omega) placed.aligned
  rw [served.mapping.walk_flags (served.middle.freshTable served.handed) served.middle.apart (by decide)
    (by decide) bound, page]
  rfl

end Served

theorem Sound.heapAlloc (sound : Sound system) (positive : 0 < heapPages n)
    (run : heapAlloc fuel h n system.kernel = .done ptr kernel)
    (handed : HandsOutBelow (2 ^ 20) system.kernel.vmm.pmm kernel.vmm.pmm) :
    Sound ⟨kernel, .block ⟨ptr, n⟩ :: system.held⟩ := by
  obtain ⟨position, pmm, served⟩ := sound.provides positive run handed
  refine ⟨served.accounted, ?_⟩
  intro block member
  obtain ⟨header, written, shown⟩ := served.written
  rw [written]
  rcases List.mem_cons.mp member with here | older
  · cases here
    rw [Function.update_self]
    exact shown
  · have elsewhere : block.header ≠ (Block.mk ptr n).header := by
      intro same
      have equal := served.middle.header_injective (List.mem_cons_of_mem _ older) List.mem_cons_self same
      exact (List.nodup_cons.mp served.middle.distinct).1 (equal ▸ older)
    rw [Function.update_of_ne elsewhere]
    exact sound.header block older

theorem Sound.heapFree_live (sound : Sound system) (member : .block block ∈ system.held) :
    (Memory.heapFree block.ptr system.kernel).vmm = Memory.vmmUnmap block.header
        { system.kernel.vmm with
          pmm := pmmFree block.allocation.ptr block.allocation.count system.kernel.vmm.pmm } ∧
      ∀ address, ((Memory.heapFree block.ptr system.kernel).block address).size = (system.kernel.block address).size ∧
        ((Memory.heapFree block.ptr system.kernel).block address).magic = (system.kernel.block address).magic := by
  obtain ⟨size, magic⟩ := sound.header block member
  have here : (block.ptr + 2 ^ 32 - sizeofHeapBlock) % 2 ^ 32 = block.header := rfl
  obtain ⟨vmm, _, _, headers⟩ := heapFree_done here magic
  rw [size] at vmm
  exact ⟨vmm, headers⟩

/-- A `heap_free` unmaps the first page in the state where the pages are back. -/
theorem Sound.heapFree_unmapping (sound : Sound system) (member : .block block ∈ system.held) :
    Unmapping block.header
      (system.kernel.withPmm (pmmFree block.allocation.ptr block.allocation.count system.kernel.vmm.pmm)).vmm
      (Memory.heapFree block.ptr system.kernel).vmm := by
  rw [(sound.heapFree_live member).1]
  exact vmmUnmap_cases block.header_lt

theorem Sound.heapFree (sound : Sound system) (member : .block block ∈ system.held) :
    Sound ⟨Memory.heapFree block.ptr system.kernel, system.held.erase (.block block)⟩ := by
  refine ⟨(sound.release member).unmapping (sound.heapFree_unmapping member), ?_⟩
  intro other kept
  obtain ⟨size, magic⟩ := (sound.heapFree_live member).2 other.header
  rw [size, magic]
  exact sound.header other (List.mem_of_mem_erase kept)

theorem Accounted.mallocInit (accounted : Accounted system)
    (run : mallocInit fuel system.kernel = .done () kernel)
    (handed : HandsOutBelow (2 ^ 20) system.kernel.vmm.pmm kernel.vmm.pmm) :
    Accounted ⟨kernel, .heap (kernel.head kernel.kernelHeap) :: .heap kernel.kernelHeap :: system.held⟩ := by
  obtain ⟨first, second, alloc, again, vmm⟩ := mallocInit_done run
  have last : kernel.vmm.pmm = second := by rw [vmm, Vmm.deref_pmm, Vmm.deref_pmm]
  rw [last] at handed
  have kept := pmmAlloc_kept Nat.one_pos again
  have heap := pmmAlloc_provided Nat.one_pos alloc (fun page set => handed page (kept set)) (Nat.le_refl _)
  have head := pmmAlloc_provided Nat.one_pos again
    (fun page set => (handed page set).imp_left fun earlier => heap.kept earlier) (Nat.le_refl _)
  have middle := accounted.acquire (.heap kernel.kernelHeap) Nat.one_pos heap
  have after := middle.acquire (.heap (kernel.head kernel.kernelHeap)) Nat.one_pos head
  have tree : kernel.vmm.tree = system.kernel.vmm.tree := by
    rw [vmm]
    rfl
  exact after.withKernel last tree

theorem Makes.sound {before after : System} {call : Call} (makes : Makes before call after)
    (sound : Sound before) (handed : HandsOutBelow (2 ^ 20) before.kernel.vmm.pmm after.kernel.vmm.pmm) :
    Sound after := by
  cases makes with
  | @pmmAlloc _ count ptr pmm positive run =>
      have provided := pmmAlloc_provided positive run handed (Nat.le_refl _)
      have accounted := sound.acquire (.raw ⟨ptr, count⟩) positive provided
      refine ⟨accounted, ?_⟩
      intro block member
      rcases List.mem_cons.mp member with other | member
      · cases other
      · exact sound.header block member
  | pmmFree member =>
      exact ⟨sound.release member, fun block kept => sound.header block (List.mem_of_mem_erase kept)⟩
  | vmmMap address run => exact ⟨sound.mapping (vmmMap_done address run) handed, sound.header⟩
  | vmmUnmap address => exact ⟨sound.unmapping (vmmUnmap_cases address), sound.header⟩
  | mallocInit first run =>
      refine ⟨sound.mallocInit run handed, ?_⟩
      intro block member
      rcases List.mem_cons.mp member with other | member
      · cases other
      · rcases List.mem_cons.mp member with other | member
        · cases other
        · exact absurd member (first block)
  | heapAlloc size run => exact sound.heapAlloc (heapPages_pos size) run handed
  | heapFree member => exact sound.heapFree member

theorem SystemRuns.sound {limit : Nat} {allowed : System → Call → Prop} {before after : System}
    (run : SystemRuns limit allowed before after) (physical : limit ≤ 2 ^ 20) (sound : Sound before) :
    Sound after := by
  induction run with
  | refl => exact sound
  | tail _ step ih =>
      obtain ⟨call, makes, fits, _⟩ := step
      exact makes.sound ih fun page set => (makes.handed fits physical page set).imp_right
        fun below => Nat.lt_of_lt_of_le below physical

theorem Makes.served {after : System} (makes : Makes system (.heapAlloc n) after) (sound : Sound system)
    (handed : HandsOutBelow (2 ^ 20) system.kernel.vmm.pmm after.kernel.vmm.pmm) :
    ∃ fuel position pmm ptr, n + sizeofHeapBlock + 4095 < 2 ^ 32 ∧
      after.held = .block ⟨ptr, n⟩ :: system.held ∧ Served fuel position pmm system ⟨ptr, n⟩ after.kernel := by
  cases makes with
  | @heapAlloc fuel _ _ ptr _ size run =>
      obtain ⟨position, pmm, served⟩ := sound.served size run handed
      exact ⟨fuel, position, pmm, ptr, size, rfl, served⟩

theorem Makes.block_member {before after : System} {call : Call} (makes : Makes before call after)
    (sound : Sound before) (handed : HandsOutBelow (2 ^ 20) before.kernel.vmm.pmm after.kernel.vmm.pmm)
    (member : .block block ∈ after.held) :
    .block block ∈ before.held ∧ call ≠ .heapFree block ∨
      ∃ fuel position pmm, call = .heapAlloc block.size ∧ block.size + sizeofHeapBlock + 4095 < 2 ^ 32 ∧
        Served fuel position pmm before block after.kernel := by
  cases makes with
  | pmmAlloc =>
      rcases List.mem_cons.mp member with other | older
      · cases other
      · exact .inl ⟨older, nofun⟩
  | pmmFree => exact .inl ⟨List.mem_of_mem_erase member, nofun⟩
  | vmmMap | vmmUnmap => exact .inl ⟨member, nofun⟩
  | mallocInit =>
      rcases List.mem_cons.mp member with other | older
      · cases other
      · rcases List.mem_cons.mp older with other | older
        · cases other
        · exact .inl ⟨older, nofun⟩
  | heapAlloc size run =>
      rcases List.mem_cons.mp member with here | older
      · cases here
        obtain ⟨position, pmm, served⟩ := sound.served size run handed
        exact .inr ⟨_, position, pmm, rfl, size, served⟩
      · exact .inl ⟨older, nofun⟩
  | heapFree =>
      obtain ⟨differs, older⟩ := sound.distinct.mem_erase_iff.mp member
      refine .inl ⟨older, ?_⟩
      intro same
      cases same
      exact differs rfl

/-! What a call does to the translations -/

/-- The virtual pages whose translation a call changes. -/
inductive Names (system : System) : Call → Nat → Prop
  | map {phys virt flags : Nat} : Names system (.vmmMap phys virt flags) virt
  | unmap {virt : Nat} : Names system (.vmmUnmap virt) virt
  | block {n count position : Nat} (request : Requests system (.heapAlloc n) .block count position) :
      Names system (.heapAlloc n) (higherHalf (pageAddress position))
  | freed {block : Block} : Names system (.heapFree block) block.header

theorem Served.names {position : Nat} (served : Served fuel position pmm system block kernel) :
    Names system (.heapAlloc block.size) block.header := by
  have header := block.header_eq
  rw [served.start] at header
  rw [header]
  exact .block served.request

theorem Served.unique {position other count : Nat} (served : Served fuel position pmm system block kernel)
    (request : Requests system (.heapAlloc block.size) .block count other) :
    count = heapPages block.size ∧ other = position := by
  cases request with
  | block next =>
      cases served.request with
      | block first => exact ⟨rfl, next.unique first⟩

theorem Served.named {position named : Nat} (served : Served fuel position pmm system block kernel)
    (names : Names system (.heapAlloc block.size) named) : named = block.header := by
  have header := block.header_eq
  rw [served.start] at header
  rw [header]
  cases names with
  | block request => rw [(served.unique request).2]

theorem Makes.walk_frame {before after : System} {call : Call} (makes : Makes before call after)
    (sound : Sound before) (handed : HandsOutBelow (2 ^ 20) before.kernel.vmm.pmm after.kernel.vmm.pmm)
    {virt : Nat} (bound : virt < 2 ^ 32)
    (elsewhere : ∀ named, Names before call named → virt / 4096 ≠ named / 4096) :
    after.kernel.vmm.walk virt = before.kernel.vmm.walk virt := by
  cases makes with
  | pmmAlloc | pmmFree => rfl
  | vmmMap address run =>
      have mapping := vmmMap_done address run
      exact (mapping.walk (sound.freshTable handed) sound.apart bound).trans (if_neg (elsewhere _ .map))
  | vmmUnmap address =>
      have unmapping : Unmapping _ before.kernel.vmm _ := vmmUnmap_cases address
      exact (unmapping.walk sound.apart bound).trans (if_neg (elsewhere _ .unmap))
  | mallocInit _ run =>
      obtain ⟨_, _, _, _, vmm⟩ := mallocInit_done run
      rw [vmm]
      rfl
  | heapAlloc size run =>
      obtain ⟨position, pmm, served⟩ := sound.served size run handed
      exact (served.walk bound).trans (if_neg (elsewhere _ served.names))
  | heapFree member =>
      have unmapping := sound.heapFree_unmapping member
      exact (unmapping.walk (sound.release member).apart bound).trans (if_neg (elsewhere _ .freed))

theorem Sound.heapFree_walk (sound : Sound system) (member : .block block ∈ system.held) {virt : Nat}
    (bound : virt < 2 ^ 32) :
    (Memory.heapFree block.ptr system.kernel).vmm.walk virt =
      if virt / 4096 = block.header / 4096 then none else system.kernel.vmm.walk virt :=
  (sound.heapFree_unmapping member).walk (sound.release member).apart bound

theorem Makes.writable {before after : System} {call : Call} (makes : Makes before call after)
    (sound : Sound before) (handed : HandsOutBelow (2 ^ 20) before.kernel.vmm.pmm after.kernel.vmm.pmm)
    (writable : before.kernel.vmm.DirectoryWritable) : after.kernel.vmm.DirectoryWritable := by
  cases makes with
  | pmmAlloc | pmmFree => exact writable
  | vmmMap address run => exact (vmmMap_done address run).writable writable
  | vmmUnmap address => exact (vmmUnmap_cases address).writable writable
  | mallocInit _ run =>
      obtain ⟨_, _, _, _, vmm⟩ := mallocInit_done run
      have directory := congrArg Vmm.pageDirectory vmm
      exact fun slot => directory ▸ writable slot
  | heapAlloc size run =>
      obtain ⟨position, pmm, served⟩ := sound.served size run handed
      exact served.mapping.writable writable
  | heapFree member => exact (sound.heapFree_unmapping member).writable writable

end BarrelOS.Memory
