import BarrelOS.Memory.Ram
import BarrelOS.Memory.Tlb

namespace BarrelOS.Memory

open BarrelOS.Data BarrelOS.Semantics

/-! `vmm_map` and `vmm_unmap` on bytes do what they do to the structured page tables -/

/-- The page tables in use. -/
def Vmm.tableSites (vmm : Vmm) : Set Site := { site | ∃ slot page, vmm.tree.root slot = some page ∧ site = .table page }

/-- Every page table in use is reached below 4 MiB. -/
def Vmm.TablesBelow (vmm : Vmm) : Prop := ∀ slot page, vmm.tree.root slot = some page → page < 0x400000

/-- The words behind a physical address, as a page table. -/
def Vmm.withTable (page : Nat) (words : Nat → Nat) (vmm : Vmm) : Vmm :=
  { vmm with memory := Function.update vmm.memory page words }

variable {directory virt start count slot index page pt word value phys flags fuel i : Nat} {live base : Set Site} {site : Site}
  {kernel next : Kernel} {ram last : Ram} {pmm : Pmm} {vmm other : Vmm} {entries : Nat → Nat}

/-! Words and walks under the stores -/

theorem word_store : (kernel.withVmm (kernel.vmm.store page index value)).word =
    Function.update kernel.word (.table page) (Function.update (kernel.word (.table page)) index value) := by
  funext site
  by_cases here : site = .table page
  · subst here
    rw [Function.update_self]
    exact Function.update_self ..
  · rw [Function.update_of_ne here]
    cases site with
    | table pt => exact Function.update_of_ne (fun same => here (congrArg Site.table same)) ..
    | directory | header | heap => rfl

theorem word_setDirectory : (kernel.withVmm (kernel.vmm.setDirectory index value)).word =
    Function.update kernel.word .directory (Function.update (kernel.word .directory) index value) := by
  funext site
  by_cases here : site = .directory
  · rw [here, Function.update_self]
    rfl
  · rw [Function.update_of_ne here]
    cases site with
    | directory => exact absurd rfl here
    | table | header | heap => rfl

theorem walk_congr (entry : other.pageDirectory (virt >>> 22) = vmm.pageDirectory (virt >>> 22))
    (table : other.memory (pageBase (vmm.pageDirectory (virt >>> 22))) = vmm.memory (pageBase (vmm.pageDirectory (virt >>> 22)))) :
    other.walk virt = vmm.walk virt := by
  simp only [Vmm.walk, entry, table]

theorem Vmm.tree_root_congr (same : other.pageDirectory = vmm.pageDirectory) : other.tree.root = vmm.tree.root := by
  simp only [Vmm.tree, same]

theorem withTable_walk (unused : vmm.tree.Unused page) (bound : virt < 2 ^ 32) :
    (vmm.withTable page entries).walk virt = vmm.walk virt := by
  by_cases present : Present (vmm.pageDirectory (virt >>> 22))
  · refine walk_congr rfl (Function.update_of_ne (fun same => ?_) ..)
    exact unused _ (Vmm.tree_root_some.mpr ⟨slotOf_lt bound, present, same⟩)
  · have absent : vmm.pageDirectory (virt >>> 22) &&& 0x1 = 0 := not_not.mp present
    have same : (vmm.withTable page entries).pageDirectory = vmm.pageDirectory := rfl
    rw [Vmm.walk, Vmm.walk, same, if_pos absent, if_pos absent]

/-- An entry of an address behind the first 4 MiB is none of theirs. -/
theorem Vmm.LowIdentity.store (low : vmm.LowIdentity) (apart : vmm.tree.Apart) (used : vmm.tree.root (virt >>> 22) = some page)
    (high : 0x400000 ≤ virt) : (vmm.store page (virt >>> 12 &&& 0x3FF) word).LowIdentity := by
  intro other bound
  have address : other < 2 ^ 32 := Nat.lt_trans bound (by decide)
  have elsewhere : other / 4096 ≠ virt / 4096 := by omega
  rw [Vmm.walk_store apart used address, if_neg elsewhere]
  exact low other bound

/-- Below 4 MiB an address shows the page it names. -/
theorem Views.low (low : kernel.vmm.LowIdentity) (small : start < 0x400000) (aligned : start % 4096 = 0)
    (page : (sites directory).page site * 4096 = start) : Views directory kernel start site := by
  refine ⟨aligned, Nat.lt_trans small (by decide), ptePresent ||| pteWritable, ?_⟩
  rw [low start small, page, pageBase_of_aligned (Nat.lt_trans small (by decide)) aligned]

theorem Views.root (low : kernel.vmm.LowIdentity) (small : directory < 0x400000) (aligned : directory % 4096 = 0) :
    Views directory kernel directory .directory := by
  refine Views.low low small aligned ?_
  change directory / 4096 * 4096 = directory
  omega

theorem Views.table (low : kernel.vmm.LowIdentity) (small : page < 0x400000) (aligned : page % 4096 = 0) :
    Views directory kernel page (.table page) := by
  refine Views.low low small aligned ?_
  change page / 4096 * 4096 = page
  omega

theorem Views.used (low : kernel.vmm.LowIdentity) (used : vmm.tree.root slot = some page) (small : page < 0x400000) :
    Views directory kernel page (.table page) := by
  obtain ⟨_, _, base⟩ := Vmm.tree_root_some.mp used
  exact .table low small (base ▸ pageBase_aligned _)

theorem Views.of_walk (views : Views directory kernel start site) (same : next.vmm.walk start = kernel.vmm.walk start) :
    Views directory next start site := ⟨views.aligned, views.word, by rw [same]; exact views.walk⟩

theorem newTable_memory (inside : slot < 1024) (run : Memory.newTable fuel slot vmm = .done () other) :
    ∃ pt, pmmAlloc fuel 1 vmm.pmm = .done pt other.pmm ∧ other.tree = vmm.tree.attach slot pt ∧
      other.pageDirectory = Function.update vmm.pageDirectory slot (tableWord pt) ∧
      other.memory = Function.update vmm.memory pt fun i => if i < 1024 then 0 else vmm.memory pt i := by
  obtain ⟨pt, alloc, attached, installed, _⟩ := newTable_done inside run
  obtain ⟨again, _, search, filled⟩ := Outcome.bind_done.mp run
  obtain ⟨pmm, found, embedded⟩ := Outcome.within_done.mp search
  cases filled
  cases embedded
  cases found.symm.trans alloc
  exact ⟨pt, alloc, attached, installed, rfl⟩

namespace Represents

/-- Only the words in use count, and the page tables in use. -/
theorem congr (represents : Represents directory live kernel ram)
    (words : ∀ site ∈ live, ∀ i < (sites directory).size site, next.word site i = kernel.word site i)
    (root : next.vmm.tree.root = kernel.vmm.tree.root) (pmm : next.vmm.pmm = kernel.vmm.pmm)
    (kernelHeap : next.kernelHeap = kernel.kernelHeap) : Represents directory live next ram where
  aligned := represents.aligned
  apart := represents.apart
  root := represents.root
  tables := fun slot page used => represents.tables slot page (by rw [← root]; exact used)
  words := represents.words.congr words
  pmm := represents.pmm.trans pmm.symm
  kernelHeap := represents.kernelHeap.trans kernelHeap.symm

theorem mono (represents : Represents directory live kernel ram) (fewer : base ⊆ live) (root : .directory ∈ base)
    (tables : kernel.vmm.tableSites ⊆ base) : Represents directory base kernel ram where
  aligned := represents.aligned
  apart := represents.apart.mono fewer
  root := root
  tables := fun slot page used => tables ⟨slot, page, used, rfl⟩
  words := represents.words.mono fewer
  pmm := represents.pmm
  kernelHeap := represents.kernelHeap

/-- Whatever is in a page can be read as a page table. -/
theorem adopt (represents : Represents directory live kernel ram) (apart : (sites directory).Apart (insert (.table page) live)) :
    ∃ entries, Represents directory (insert (.table page) live) (kernel.withVmm (kernel.vmm.withTable page entries)) ram := by
  refine ⟨fun i => ram.memory.load32 ((sites directory).address (.table page) i), represents.aligned, apart,
    Set.mem_insert_of_mem _ represents.root, fun slot pt used => Set.mem_insert_of_mem _ (represents.tables slot pt used),
    represents.words.adopt.congr fun site _ i _ => ?_, represents.pmm, represents.kernelHeap⟩
  by_cases here : site = .table page
  · subst here
    rw [Function.update_self]
    change Function.update kernel.vmm.memory page _ page i = _
    rw [Function.update_self]
  · rw [Function.update_of_ne here]
    cases site with
    | table pt =>
        change Function.update kernel.vmm.memory page _ pt i = _
        rw [Function.update_of_ne fun same => here (congrArg Site.table same)]
        rfl
    | directory | header | heap => rfl

section

variable (represents : Represents directory live kernel ram)
include represents

theorem store (member : .table page ∈ live) (inside : index < 1024) (value : Nat) :
    Represents directory live (kernel.withVmm (kernel.vmm.store page index value)) (ram.put directory (.table page) index value) :=
  represents.put member inside (fun _ _ _ _ => by rw [word_store]) represents.tables rfl rfl

theorem setDirectory (inside : index < 1024) (value : Nat) (table : Present value → .table (pageBase value) ∈ live) :
    Represents directory live (kernel.withVmm (kernel.vmm.setDirectory index value)) (ram.put directory .directory index value) := by
  refine represents.put represents.root inside (fun _ _ _ _ => by rw [word_setDirectory]) ?_ rfl rfl
  intro slot pt used
  obtain ⟨bound, present, base⟩ := Vmm.tree_root_some.mp used
  change Present (Function.update kernel.vmm.pageDirectory index value slot) at present
  change pageBase (Function.update kernel.vmm.pageDirectory index value slot) = pt at base
  by_cases here : slot = index
  · rw [here, Function.update_self] at present base
    exact base ▸ table present
  · rw [Function.update_of_ne here] at present base
    exact represents.tables slot pt (Vmm.tree_root_some.mpr ⟨bound, present, base⟩)

/-- `page_directory[pdindex]`. -/
theorem read_entry (root : Views directory kernel directory .directory) (bound : virt < 2 ^ 32) :
    ram.read directory (directory + 4 * (virt >>> 22)) = .done (kernel.vmm.pageDirectory (virt >>> 22) % 2 ^ 32) ram :=
  represents.read root represents.root (slotOf_lt bound)

end

/-- The loop over a new table. -/
theorem clearTable (represents : Represents directory live (kernel.withVmm (vmm.withTable page entries)) ram)
    (member : .table page ∈ live) (reached : Views directory (kernel.withVmm vmm) page (.table page))
    (unused : vmm.tree.Unused page) (inside : start + count ≤ 1024) :
    ∃ after words, ram.clearTable directory page start count = .done () after ∧
      Represents directory live (kernel.withVmm (vmm.withTable page words)) after ∧ Touches directory live ram after ∧
      ∀ i, words i = if start ≤ i ∧ i < start + count then 0 else entries i := by
  induction count generalizing start ram entries with
  | zero => exact ⟨ram, entries, rfl, represents, .refl ram, fun i => (if_neg (by omega)).symm⟩
  | succ count ih =>
      have views : Views directory (kernel.withVmm (vmm.withTable page entries)) page (.table page) :=
        reached.of_walk (withTable_walk unused reached.word)
      have index : start < 1024 := by omega
      have written := represents.store member index 0
      have same : (vmm.withTable page entries).store page start 0 = vmm.withTable page (Function.update entries start 0) := by
        simp only [Vmm.store, Vmm.withTable, Function.update_self, Function.update_idem]
      have next : Represents directory live (kernel.withVmm (vmm.withTable page (Function.update entries start 0)))
          (ram.put directory (.table page) start 0) := by
        rw [← same]
        exact written
      have room : start + 1 + count ≤ 1024 := by omega
      obtain ⟨after, words, run, represented, touches, cleared⟩ := ih next room
      refine ⟨after, words, ?_, represented, (represents.touches member index 0).trans touches, fun i => ?_⟩
      · rw [Ram.clearTable, represents.write views member index 0]
        exact run
      · rw [cleared i, Function.update_apply]
        by_cases here : i = start
        · rw [if_neg (by omega), if_pos here, if_pos (by omega)]
        · rw [if_neg here]
          exact if_congr (by omega) rfl rfl

/-! `vmm_map` -/

theorem tables_subset (represents : Represents directory live kernel ram) : kernel.vmm.tableSites ⊆ live := by
  intro site used
  obtain ⟨slot, page, used, rfl⟩ := used
  exact represents.tables slot page used

theorem union_tableSites (represents : Represents directory live kernel ram)
    (root : vmm.tree.root = Function.update kernel.vmm.tree.root slot (some pt)) :
    live ∪ vmm.tableSites = insert (.table pt) live := by
  refine Set.Subset.antisymm (Set.union_subset (Set.subset_insert _ _) fun site used => ?_) (Set.insert_subset ?_ Set.subset_union_left)
  · obtain ⟨other, page, used, rfl⟩ := used
    rw [root, Function.update_apply] at used
    split at used
    · cases used
      exact Set.mem_insert _ _
    · exact Set.mem_insert_of_mem _ (represents.tables other page used)
  · refine .inr ⟨slot, pt, ?_, rfl⟩
    rw [root, Function.update_self]

theorem withPmm (represents : Represents directory live kernel ram) (pmm : Pmm) :
    Represents directory live (kernel.withPmm pmm) { ram with pmm } :=
  ⟨represents.aligned, represents.apart, represents.root, represents.tables, represents.words, rfl, represents.kernelHeap⟩

theorem takes {pmm : Pmm} (represents : Represents directory live kernel ram) (alloc : pmmAlloc fuel count kernel.vmm.pmm = .done page pmm) :
    ram.pmmAlloc fuel count = .done page { ram with pmm } := by
  rw [Ram.pmmAlloc, represents.pmm, alloc]
  rfl

theorem newTable (represents : Represents directory live kernel ram) (entries : Views directory kernel directory .directory)
    (inside : slot < 1024) (run : Memory.newTable fuel slot kernel.vmm = .done () vmm)
    (unused : ∀ pt, pmmAlloc fuel 1 kernel.vmm.pmm = .done pt vmm.pmm → kernel.vmm.tree.Unused pt)
    (reached : ∀ pt, vmm.tree.root slot = some pt → Views directory kernel pt (.table pt))
    (apart : (sites directory).Apart (live ∪ vmm.tableSites)) :
    ∃ after, ram.newTable directory fuel slot = .done () after ∧
      Represents directory (live ∪ vmm.tableSites) (kernel.withVmm vmm) after ∧
      Touches directory (live ∪ vmm.tableSites) ram after := by
  obtain ⟨pt, alloc, attached, installed, memory⟩ := newTable_memory inside run
  obtain ⟨word, aligned⟩ := pmmAlloc_aligned alloc
  have root : vmm.tree.root = Function.update kernel.vmm.tree.root slot (some pt) := congrArg Directory.root attached
  have fresh := unused pt alloc
  have here : Views directory (kernel.withPmm vmm.pmm) pt (.table pt) :=
    (reached pt (by rw [root, Function.update_self])).of_walk rfl
  rw [represents.union_tableSites root] at apart ⊢
  obtain ⟨old, adopted⟩ := (represents.withPmm vmm.pmm).adopt apart
  obtain ⟨cleared, words, loop, represented, touches, zero⟩ :=
    adopted.clearTable (Set.mem_insert _ _) here fresh (Nat.le_of_eq (Nat.zero_add 1024))
  have still : Views directory ((kernel.withPmm vmm.pmm).withVmm ((kernel.withPmm vmm.pmm).vmm.withTable pt words))
      directory .directory := entries.of_walk (withTable_walk fresh entries.word)
  have entry := represented.setDirectory inside (tableWord pt) fun _ => by
    rw [pageBase_tableWord word aligned]
    exact Set.mem_insert _ _
  refine ⟨_, ?_, entry.congr ?_ ?_ rfl rfl, touches.trans (represented.touches represented.root inside _)⟩
  · rw [Ram.newTable, represents.takes alloc, Outcome.done_bind, loop, Outcome.done_bind]
    exact represented.write still represented.root inside (tableWord pt)
  · intro site member i bound
    cases site with
    | directory => exact congrFun installed i
    | table page =>
        have bound : i < 1024 := bound
        change vmm.memory page i = Function.update kernel.vmm.memory pt words page i
        rw [memory, Function.update_apply, Function.update_apply]
        split
        · exact (if_pos bound).trans ((zero i).trans (if_pos (by omega))).symm
        · rfl
    | header | heap => rfl
  · exact Vmm.tree_root_congr installed

/-- The entry goes to the table that the directory names. -/
theorem writeEntry (represents : Represents directory live kernel ram) (root : Views directory kernel directory .directory)
    (address : virt < 2 ^ 32) (used : kernel.vmm.tree.root (virt >>> 22) = some pt)
    (reached : Views directory kernel pt (.table pt)) (value : Nat) :
    (ram.read directory (directory + 4 * (virt >>> 22))).bind (fun pde ram =>
        ram.write directory (pageBase pde + 4 * (virt >>> 12 &&& 0x3FF)) value) =
      .done () (ram.put directory (.table pt) (virt >>> 12 &&& 0x3FF) value) := by
  obtain ⟨_, _, base⟩ := Vmm.tree_root_some.mp used
  rw [represents.read_entry root address, Outcome.done_bind, pageBase_mod, base]
  exact represents.write reached (represents.tables _ _ used) (indexOf_lt virt) value

/-- A `vmm_map` on the bytes does what it does on the page tables, where it reaches
the directory and the table that it writes. -/
theorem vmmMap (represents : Represents directory live kernel ram) (root : Views directory kernel directory .directory)
    (address : virt < 2 ^ 32) (run : Memory.vmmMap fuel phys virt flags kernel.vmm = .done () vmm)
    (fresh : FreshTable fuel virt kernel.vmm vmm)
    (reached : ∀ pt, vmm.tree.root (virt >>> 22) = some pt → Views directory kernel pt (.table pt))
    (apart : (sites directory).Apart (live ∪ vmm.tableSites)) :
    ∃ after, ram.vmmMap directory fuel phys virt flags = .done () after ∧
      Represents directory (live ∪ vmm.tableSites) (kernel.withVmm vmm) after ∧
      Touches directory (live ∪ vmm.tableSites) ram after := by
  obtain ⟨_, middle, table, written⟩ := Outcome.bind_done.mp run
  cases written
  have slot := slotOf_lt address
  have made : ∃ first pt, (if kernel.vmm.pageDirectory (virt >>> 22) % 2 ^ 32 &&& 0x1 = 0 then ram.newTable directory fuel (virt >>> 22)
      else .done () ram) = .done () first ∧ Represents directory (live ∪ middle.tableSites) (kernel.withVmm middle) first ∧
      Touches directory (live ∪ middle.tableSites) ram first ∧
      (∀ start site, Views directory kernel start site → Views directory (kernel.withVmm middle) start site) ∧
      middle.tree.root (virt >>> 22) = some pt := by
    rw [and_one_mod]
    by_cases vacant : kernel.vmm.pageDirectory (virt >>> 22) &&& 0x1 = 0
    · rw [if_pos vacant] at table ⊢
      obtain ⟨pt, alloc, attached, _⟩ := newTable_done slot table
      have missing := (Vmm.tree_root_none slot).mpr (not_not.mpr vacant)
      obtain ⟨first, run, represented, touches⟩ :=
        represents.newTable root slot table (fun pt => fresh pt missing) reached apart
      refine ⟨first, pt, run, represented, touches, fun start site views => views.of_walk ?_, by rw [attached]; exact Function.update_self ..⟩
      change middle.walk start = kernel.vmm.walk start
      rw [walk_eq_lookup views.word, attached, Directory.lookup_attach (fresh pt missing alloc) missing,
        ← walk_eq_lookup views.word]
    · rw [if_neg vacant] at table ⊢
      cases table
      rw [Set.union_eq_left.mpr represents.tables_subset]
      exact ⟨ram, _, rfl, represents, .refl ram, fun _ _ views => views, Vmm.tree_root_some.mpr ⟨slot, vacant, rfl⟩⟩
  obtain ⟨first, pt, prepared, represented, touches, still, used⟩ := made
  have here := reached pt used
  obtain ⟨_, _, base⟩ := Vmm.tree_root_some.mp used
  have member := represented.tables _ _ used
  subst base
  refine ⟨_, ?_, (represented.store member (indexOf_lt virt) (pageBase phys ||| flags)).congr (fun _ _ _ _ => rfl) rfl rfl rfl,
    touches.trans (represented.touches member (indexOf_lt virt) _)⟩
  simp only [Ram.vmmMap, represents.read_entry root address, Outcome.done_bind, prepared]
  exact represented.writeEntry (still _ _ root) address used (still _ _ here) _

/-! `vmm_unmap` -/

/-- The scan reads the whole table. -/
theorem tableEmpty (represents : Represents directory live kernel ram) (views : Views directory kernel page (.table pt))
    (member : .table pt ∈ live) (inside : start + count ≤ 1024) :
    ram.tableEmpty directory page start count =
      .done ((List.range' start count).all fun i => kernel.vmm.memory pt i &&& 0x1 == 0) ram := by
  induction count generalizing start with
  | zero => rfl
  | succ count ih =>
      have index : start < 1024 := by omega
      rw [Ram.tableEmpty, represents.read views member index, Outcome.done_bind, and_one_mod, List.range'_succ,
        List.all_cons, ih (by omega)]
      change (if kernel.vmm.memory pt start &&& 0x1 = 0 then _ else _) = _
      by_cases clear : kernel.vmm.memory pt start &&& 0x1 = 0
      · rw [if_pos clear, clear]
        rfl
      · rw [if_neg clear, beq_eq_false_iff_ne.mpr clear]
        rfl

/-- A `vmm_unmap` does to the bytes what it does to the page tables, where it reaches
the table also behind the store to it, and the directory where it gives the table back. -/
theorem vmmUnmap (represents : Represents directory live kernel ram) (root : Views directory kernel directory .directory)
    (address : virt < 2 ^ 32)
    (reached : ∀ pt, kernel.vmm.tree.root (virt >>> 22) = some pt → Views directory kernel pt (.table pt) ∧
      Views directory (kernel.withVmm (kernel.vmm.store pt (virt >>> 12 &&& 0x3FF) 0)) pt (.table pt))
    (kept : ∀ pt, kernel.vmm.tree.root (virt >>> 22) = some pt →
      Memory.tableEmpty (kernel.vmm.store pt (virt >>> 12 &&& 0x3FF) 0) pt = true →
      Views directory (kernel.withVmm (kernel.vmm.store pt (virt >>> 12 &&& 0x3FF) 0)) directory .directory) :
    ∃ after, ram.vmmUnmap directory virt = .done () after ∧
      Represents directory live (kernel.withVmm (Memory.vmmUnmap virt kernel.vmm)) after ∧ Touches directory live ram after := by
  have slot := slotOf_lt address
  have index := indexOf_lt virt
  have read := represents.read_entry root address
  unfold Memory.vmmUnmap
  by_cases vacant : kernel.vmm.pageDirectory (virt >>> 22) &&& 0x1 = 0
  · simp only [if_pos vacant]
    refine ⟨ram, ?_, represents, .refl ram⟩
    have absent : kernel.vmm.pageDirectory (virt >>> 22) % 2 ^ 32 &&& 0x1 = 0 := by rwa [and_one_mod]
    simp only [Ram.vmmUnmap, read, Outcome.done_bind, if_pos absent]
  · have used : kernel.vmm.tree.root (virt >>> 22) = some _ := Vmm.tree_root_some.mpr ⟨slot, vacant, rfl⟩
    have present : ¬ kernel.vmm.pageDirectory (virt >>> 22) % 2 ^ 32 &&& 0x1 = 0 := by rwa [and_one_mod]
    simp only [if_neg vacant, Ram.vmmUnmap, read, Outcome.done_bind, if_neg present, pageBase_mod]
    generalize pageBase (kernel.vmm.pageDirectory (virt >>> 22)) = pt at used
    obtain ⟨first, second⟩ := reached pt used
    have entry := kept pt used
    have member := represents.tables _ _ used
    have cleared := represents.store member index 0
    have scan := cleared.tableEmpty second member (Nat.le_of_eq (Nat.zero_add 1024))
    have scanned : ((List.range' 0 1024).all fun i => (kernel.vmm.store pt (virt >>> 12 &&& 0x3FF) 0).memory pt i &&& 0x1 == 0) =
        Memory.tableEmpty (((kernel.vmm.deref pt).store pt (virt >>> 12 &&& 0x3FF) 0).deref pt) pt := by
      rw [Memory.tableEmpty, List.range_eq_range']
      rfl
    have touches := represents.touches member index 0
    rw [represents.write first member index 0, Outcome.done_bind, scan, Outcome.done_bind]
    change ∃ after, (if ((List.range' 0 1024).all fun i =>
      (kernel.vmm.store pt (virt >>> 12 &&& 0x3FF) 0).memory pt i &&& 0x1 == 0) = true then _ else _) = _ ∧ _
    rw [scanned]
    by_cases empty : Memory.tableEmpty (((kernel.vmm.deref pt).store pt (virt >>> 12 &&& 0x3FF) 0).deref pt) pt = true
    · rw [if_pos empty, if_pos empty]
      have freed := cleared.withPmm (pmmFree pt 1 kernel.vmm.pmm)
      have last := freed.setDirectory slot 0 (absurd rfl)
      refine ⟨_, ?_, last.congr (fun _ _ _ _ => rfl) rfl rfl rfl, touches.trans (freed.touches freed.root slot 0)⟩
      rw [Ram.pmmFree, show (ram.put directory _ _ 0).pmm = kernel.vmm.pmm from represents.pmm]
      exact freed.write ((entry empty).of_walk rfl) freed.root slot 0
    · rw [if_neg empty, if_neg empty]
      exact ⟨_, rfl, cleared.congr (fun _ _ _ _ => rfl) rfl rfl rfl, touches⟩

/-- Behind the first 4 MiB a `vmm_unmap` reaches both, as long as the first 4 MiB are
mapped to themselves. -/
theorem vmmUnmap_high (represents : Represents directory live kernel ram) (below : directory < 0x400000)
    (low : kernel.vmm.LowIdentity) (apart : kernel.vmm.tree.Apart) (small : kernel.vmm.TablesBelow)
    (address : virt < 2 ^ 32) (high : 0x400000 ≤ virt) :
    ∃ after, ram.vmmUnmap directory virt = .done () after ∧
      Represents directory live (kernel.withVmm (Memory.vmmUnmap virt kernel.vmm)) after ∧ Touches directory live ram after := by
  have identity : ∀ pt, kernel.vmm.tree.root (virt >>> 22) = some pt →
      (kernel.vmm.store pt (virt >>> 12 &&& 0x3FF) 0).LowIdentity := fun pt used => low.store apart used high
  refine represents.vmmUnmap (.root low below represents.aligned) address (fun pt used => ?_) fun pt used _ => ?_
  · exact ⟨.used low used (small _ _ used), .used (identity pt used) used (small _ _ used)⟩
  · exact .root (identity pt used) below represents.aligned

end Represents

end BarrelOS.Memory
