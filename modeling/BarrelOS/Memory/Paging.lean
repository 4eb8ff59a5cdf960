import BarrelOS.Data.Directory
import BarrelOS.Memory.Alloc
import BarrelOS.Memory.Vmm

namespace BarrelOS.Memory

open BarrelOS.Data BarrelOS.Semantics

variable {fuel phys virt flags slot index page word count : Nat} {vmm before after : Vmm}

def Present (word : Nat) : Prop := ¬ word &&& 0x1 = 0

instance (word : Nat) : Decidable (Present word) := inferInstanceAs (Decidable (¬ _))

/-- What a present page-table word maps its page to. -/
def entryOf (word : Nat) : Option (Nat × Nat) :=
  if Present word then some (pageBase word, pageFlags word) else none

namespace Vmm

/-- The page directory and the page tables behind it as a two-level map. -/
def tree (vmm : Vmm) : Directory Nat Nat Nat (Nat × Nat) where
  root slot :=
    if slot < 1024 ∧ Present (vmm.pageDirectory slot) then some (pageBase (vmm.pageDirectory slot)) else none
  table page index := if index < 1024 then entryOf (vmm.memory page index) else none

theorem tree_root_some :
    vmm.tree.root slot = some page ↔
      slot < 1024 ∧ Present (vmm.pageDirectory slot) ∧ pageBase (vmm.pageDirectory slot) = page := by
  simp only [tree, Option.ite_none_right_eq_some, Option.some.injEq, and_assoc]

theorem tree_root_none (bound : slot < 1024) :
    vmm.tree.root slot = none ↔ ¬ Present (vmm.pageDirectory slot) := by
  simp [tree, bound]

@[simp] theorem deref_pmm : (vmm.deref page).pmm = vmm.pmm := rfl

theorem tree_store (bound : index < 1024) :
    (vmm.store page index word).tree = vmm.tree.write page index (entryOf word) := by
  refine Directory.ext rfl ?_
  funext other position
  simp only [tree, Directory.write, store]
  by_cases same : other = page
  · subst other
    by_cases here : position = index
    · subst position
      simp [bound]
    · simp [here]
  · simp [same]

theorem tree_detach : (vmm.setDirectory slot 0).tree = vmm.tree.detach slot := by
  refine Directory.ext ?_ rfl
  funext other
  simp only [tree, Directory.detach, setDirectory]
  by_cases same : other = slot
  · simp [same, Present]
  · simp [same]

end Vmm

theorem tree_attach (bound : slot < 1024) (present : Present word) :
    ((clearTable (pageBase word) vmm).setDirectory slot word).tree =
      vmm.tree.attach slot (pageBase word) := by
  refine Directory.ext ?_ ?_
  · funext other
    simp only [Vmm.tree, Directory.attach, Vmm.setDirectory, clearTable]
    by_cases same : other = slot
    · simp [same, bound, present]
    · simp [same]
  · funext other index
    simp only [Vmm.tree, Directory.attach, Vmm.setDirectory, clearTable]
    by_cases same : other = pageBase word
    · by_cases inside : index < 1024
      · simp [same, inside, entryOf, Present]
      · simp [same, inside]
    · simp [same]

/-! The walk as a lookup -/

theorem slotOf_eq (virt : Nat) : virt >>> 22 = virt / 2 ^ 22 := Nat.shiftRight_eq_div_pow ..

theorem indexOf_eq (virt : Nat) : virt >>> 12 &&& 0x3FF = virt / 4096 % 1024 := by
  rw [Nat.shiftRight_eq_div_pow]
  exact Nat.and_two_pow_sub_one_eq_mod _ 10

theorem slotOf_lt (bound : virt < 2 ^ 32) : virt >>> 22 < 1024 := by
  rw [slotOf_eq]
  omega

theorem indexOf_lt (virt : Nat) : virt >>> 12 &&& 0x3FF < 1024 := by
  rw [indexOf_eq]
  exact Nat.mod_lt _ (by decide)

theorem samePage_iff (virt other : Nat) :
    (other >>> 22 = virt >>> 22 ∧ other >>> 12 &&& 0x3FF = virt >>> 12 &&& 0x3FF) ↔
      other / 4096 = virt / 4096 := by
  simp only [slotOf_eq, indexOf_eq]
  omega

theorem walk_eq_lookup (bound : virt < 2 ^ 32) :
    vmm.walk virt = vmm.tree.lookup (virt >>> 22) (virt >>> 12 &&& 0x3FF) := by
  have slot := slotOf_lt bound
  have index := indexOf_lt virt
  unfold Vmm.walk Directory.lookup
  by_cases present : Present (vmm.pageDirectory (virt >>> 22))
  · have reached : vmm.tree.root (virt >>> 22) = some (pageBase (vmm.pageDirectory (virt >>> 22))) :=
      Vmm.tree_root_some.mpr ⟨slot, present, rfl⟩
    rw [if_neg present, reached]
    simp only [Option.bind_some, Vmm.tree, if_pos index, entryOf, Present]
    split <;> simp_all
  · rw [(Vmm.tree_root_none slot).mpr present]
    simp only [Present, not_not] at present
    simp [present]

/-! What `vmm_map` and `vmm_unmap` do -/

theorem pmmAlloc_aligned {ptr : Nat} {pmm last : Pmm} (run : pmmAlloc fuel count pmm = .done ptr last) :
    ptr < 2 ^ 32 ∧ ptr % 4096 = 0 := by
  obtain ⟨pages, found, _, rest⟩ := Outcome.bind_done.mp run
  split at rest
  · obtain ⟨again, last, _, finished⟩ := Outcome.bind_done.mp rest
    cases finished
    omega
  · cases rest
    omega

def tableWord (pt : Nat) : Nat := pt ||| ptePresent ||| pteWritable

theorem pageBase_tableWord {pt : Nat} (bound : pt < 2 ^ 32) (aligned : pt % 4096 = 0) :
    pageBase (tableWord pt) = pt := by
  have base := pageBase_of_aligned bound aligned
  calc
    pageBase (tableWord pt) = pageBase (pageBase pt ||| 0x3) := by
      rw [base, tableWord, Nat.or_assoc]
      rfl
    _ = pt := by rw [pageBase_or_flags (by decide), base]

theorem tableWord_and {pt mask : Nat} (bound : pt < 2 ^ 32) (aligned : pt % 4096 = 0) (small : mask < 4096) :
    tableWord pt &&& mask = 0x3 &&& mask := by
  have base := pageBase_of_aligned bound aligned
  calc
    tableWord pt &&& mask = (pageBase pt ||| 0x3) &&& mask := by
      rw [base, tableWord, Nat.or_assoc]
      rfl
    _ = 0x3 &&& mask := or_flags_and_mask small

theorem tableWord_present {pt : Nat} (bound : pt < 2 ^ 32) (aligned : pt % 4096 = 0) :
    Present (tableWord pt) := by
  rw [Present, tableWord_and bound aligned (by decide)]
  decide

theorem newTable_done (bound : slot < 1024) (run : newTable fuel slot before = .done () after) :
    ∃ pt, pmmAlloc fuel 1 before.pmm = .done pt after.pmm ∧
      after.tree = before.tree.attach slot pt ∧
      after.pageDirectory = Function.update before.pageDirectory slot (tableWord pt) ∧
      after.derefs = (pt, before.mapsTo pt pt) :: before.derefs := by
  obtain ⟨pt, allocated, search, filled⟩ := Outcome.bind_done.mp run
  obtain ⟨pmm, alloc, embedded⟩ := Outcome.within_done.mp search
  obtain ⟨word, aligned⟩ := pmmAlloc_aligned alloc
  have attached : ((clearTable (pageBase (tableWord pt)) (allocated.deref pt)).setDirectory slot
      (tableWord pt)).tree = (allocated.deref pt).tree.attach slot (pageBase (tableWord pt)) :=
    tree_attach bound (tableWord_present word aligned)
  rw [pageBase_tableWord word aligned] at attached
  cases filled
  cases embedded
  exact ⟨pt, alloc, attached, rfl, rfl⟩

/-- A `vmm_map` writes one entry, in the table that serves the address or in a
new one. -/
inductive Mapping (fuel phys virt flags : Nat) (before after : Vmm) : Prop
  | shared {pt : Nat}
      (table : before.tree.root (virt >>> 22) = some pt)
      (pmm : after.pmm = before.pmm)
      (tree : after.tree = before.tree.write pt (virt >>> 12 &&& 0x3FF) (entryOf (pageBase phys ||| flags)))
      (directory : after.pageDirectory = before.pageDirectory)
      (derefs : after.derefs = (pt, before.mapsTo pt pt) :: before.derefs)
  | created {pt : Nat} {middle : Vmm}
      (vacant : before.tree.root (virt >>> 22) = none)
      (alloc : pmmAlloc fuel 1 before.pmm = .done pt after.pmm)
      (attached : middle.tree = before.tree.attach (virt >>> 22) pt)
      (tree : after.tree = middle.tree.write pt (virt >>> 12 &&& 0x3FF) (entryOf (pageBase phys ||| flags)))
      (installed : middle.pageDirectory = Function.update before.pageDirectory (virt >>> 22) (tableWord pt))
      (directory : after.pageDirectory = middle.pageDirectory)
      (derefs : after.derefs = (pt, middle.mapsTo pt pt) :: (pt, before.mapsTo pt pt) :: before.derefs)

/-- A `vmm_map` panics in `pmm_alloc` only. -/
theorem vmmMap_message {message : String} (run : vmmMap fuel phys virt flags before = .panicked message after) :
    message = "out of memory" := by
  rcases Outcome.bind_panicked.mp run with table | ⟨_, _, _, written⟩
  · split at table
    · rcases Outcome.bind_panicked.mp table with search | ⟨_, _, _, filled⟩
      · obtain ⟨_, alloc, _⟩ := Outcome.within_panicked.mp search
        exact pmmAlloc_message Nat.one_pos alloc
      · cases filled
    · cases table
  · cases written

theorem vmmMap_done (bound : virt < 2 ^ 32) (run : vmmMap fuel phys virt flags before = .done () after) :
    Mapping fuel phys virt flags before after := by
  have slot := slotOf_lt bound
  have index := indexOf_lt virt
  obtain ⟨_, middle, table, written⟩ := Outcome.bind_done.mp run
  cases written
  by_cases vacant : before.pageDirectory (virt >>> 22) &&& 0x1 = 0
  · rw [if_pos vacant] at table
    obtain ⟨pt, alloc, attached, installed, logged⟩ := newTable_done slot table
    obtain ⟨word, aligned⟩ := pmmAlloc_aligned alloc
    have reached : pageBase (middle.pageDirectory (virt >>> 22)) = pt := by
      rw [installed, Function.update_self, pageBase_tableWord word aligned]
    rw [reached]
    refine .created ((Vmm.tree_root_none slot).mpr (not_not.mpr vacant)) alloc attached
      (Vmm.tree_store index) installed rfl ?_
    exact congrArg ((pt, middle.mapsTo pt pt) :: ·) logged
  · rw [if_neg vacant] at table
    cases table
    have shared := Vmm.tree_root_some.mpr ⟨slot, vacant, rfl⟩
    exact .shared shared rfl (Vmm.tree_store index) rfl rfl

/-- A `vmm_unmap` clears one entry, and gives the table back where that was its
last. -/
inductive Unmapping (virt : Nat) (before after : Vmm) : Prop
  | absent (vacant : before.tree.root (virt >>> 22) = none) (same : after = before)
  | kept {pt : Nat} {middle : Vmm}
      (table : before.tree.root (virt >>> 22) = some pt)
      (cleared : middle.tree = before.tree.write pt (virt >>> 12 &&& 0x3FF) none)
      (used : ∃ index, middle.tree.table pt index ≠ none)
      (pmm : after.pmm = before.pmm)
      (tree : after.tree = middle.tree)
      (unchanged : middle.pageDirectory = before.pageDirectory)
      (directory : after.pageDirectory = middle.pageDirectory)
      (derefs : after.derefs = (pt, middle.mapsTo pt pt) :: (pt, before.mapsTo pt pt) :: before.derefs)
  | released {pt : Nat} {middle : Vmm}
      (table : before.tree.root (virt >>> 22) = some pt)
      (cleared : middle.tree = before.tree.write pt (virt >>> 12 &&& 0x3FF) none)
      (empty : ∀ index, middle.tree.table pt index = none)
      (pmm : after.pmm = pmmFree pt 1 before.pmm)
      (tree : after.tree = middle.tree.detach (virt >>> 22))
      (unchanged : middle.pageDirectory = before.pageDirectory)
      (directory : after.pageDirectory = Function.update middle.pageDirectory (virt >>> 22) 0)
      (derefs : after.derefs = (pt, middle.mapsTo pt pt) :: (pt, before.mapsTo pt pt) :: before.derefs)

theorem entryOf_none : entryOf word = none ↔ word &&& 0x1 = 0 := by
  simp [entryOf, Present]

theorem tableEmpty_iff : tableEmpty vmm page = true ↔ ∀ index, vmm.tree.table page index = none := by
  simp only [tableEmpty, List.all_eq_true, List.mem_range, beq_iff_eq, Vmm.tree, ← entryOf_none,
    ite_eq_right_iff]

theorem vmmUnmap_cases (bound : virt < 2 ^ 32) : Unmapping virt before (vmmUnmap virt before) := by
  have slot := slotOf_lt bound
  have index := indexOf_lt virt
  unfold vmmUnmap
  by_cases vacant : before.pageDirectory (virt >>> 22) &&& 0x1 = 0
  · simp only [if_pos vacant]
    exact .absent ((Vmm.tree_root_none slot).mpr (not_not.mpr vacant)) rfl
  · have table := Vmm.tree_root_some.mpr ⟨slot, vacant, rfl⟩
    simp only [if_neg vacant]
    generalize pageBase (before.pageDirectory (virt >>> 22)) = pt at *
    have cleared : ((before.deref pt).store pt (virt >>> 12 &&& 0x3FF) 0).tree =
        before.tree.write pt (virt >>> 12 &&& 0x3FF) none := Vmm.tree_store index
    by_cases empty : tableEmpty (((before.deref pt).store pt (virt >>> 12 &&& 0x3FF) 0).deref pt) pt
    · rw [if_pos empty]
      exact .released table cleared (tableEmpty_iff.mp empty) rfl Vmm.tree_detach rfl rfl rfl
    · rw [if_neg empty]
      have used := mt tableEmpty_iff.mpr empty
      exact .kept table cleared (not_forall.mp used) rfl rfl rfl rfl rfl

/-! Their effect on the page directory -/

/-- Every present directory entry is writable. -/
def Vmm.DirectoryWritable (vmm : Vmm) : Prop :=
  ∀ slot < 1024, Present (vmm.pageDirectory slot) → vmm.pageDirectory slot &&& 0x3 = 0x3

theorem Vmm.DirectoryWritable.update {middle : Vmm} (writable : before.DirectoryWritable)
    (directory : middle.pageDirectory = Function.update before.pageDirectory slot word)
    (shown : Present word → word &&& 0x3 = 0x3) : middle.DirectoryWritable := by
  intro other bound present
  rw [directory, Function.update_apply] at present ⊢
  split
  · rename_i same
    rw [if_pos same] at present
    exact shown present
  · rename_i elsewhere
    rw [if_neg elsewhere] at present
    exact writable other bound present

theorem tableWord_writable {pt : Nat} (bound : pt < 2 ^ 32) (aligned : pt % 4096 = 0) :
    tableWord pt &&& 0x3 = 0x3 := tableWord_and bound aligned (by decide)

theorem Mapping.writable (mapping : Mapping fuel phys virt flags before after)
    (writable : before.DirectoryWritable) : after.DirectoryWritable := by
  cases mapping with
  | shared _ _ _ directory => exact fun slot => directory ▸ writable slot
  | created _ alloc _ _ installed directory =>
      obtain ⟨word, aligned⟩ := pmmAlloc_aligned alloc
      exact writable.update (directory.trans installed) fun _ => tableWord_writable word aligned

theorem Unmapping.writable (unmapping : Unmapping virt before after)
    (writable : before.DirectoryWritable) : after.DirectoryWritable := by
  cases unmapping with
  | absent _ same => exact same ▸ writable
  | kept _ _ _ _ _ unchanged directory => exact fun slot => directory ▸ unchanged ▸ writable slot
  | released _ _ _ _ _ unchanged directory =>
      refine writable.update (directory.trans (congrArg (Function.update · _ 0) unchanged)) ?_
      intro present
      exact absurd rfl present

/-- The directory entry an address uses is present and writable wherever its
walk ends. -/
theorem mapsTo_iff (writable : vmm.DirectoryWritable) (bound : virt < 2 ^ 32) :
    vmm.mapsTo virt phys = true ↔ ∃ flags, vmm.walk virt = some (pageBase phys, flags) ∧ flags &&& 0x3 = 0x3 := by
  simp only [Vmm.mapsTo, Bool.and_eq_true, beq_iff_eq, Option.any_eq_true, Prod.exists]
  constructor
  · intro both
    obtain ⟨_, frame, flags, walk, rfl, shown⟩ := both
    exact ⟨flags, walk, shown⟩
  · intro reached
    obtain ⟨flags, walk, shown⟩ := reached
    refine ⟨?_, pageBase phys, flags, walk, rfl, shown⟩
    refine writable _ (slotOf_lt bound) ?_
    intro absent
    rw [Vmm.walk, if_pos absent] at walk
    cases walk

theorem entryOf_flags {phys flags : Nat} (small : flags < 4096) (present : Present flags) :
    entryOf (pageBase phys ||| flags) = some (pageBase phys, flags) := by
  have shown : Present (pageBase phys ||| flags) := by
    rwa [Present, or_flags_and_mask (by decide)]
  rw [entryOf, if_pos shown, pageBase_or_flags small, pageFlags_or_flags small]

theorem walk_page {other : Nat} (same : virt / 4096 = other / 4096) : vmm.walk virt = vmm.walk other := by
  obtain ⟨slot, index⟩ := (samePage_iff other virt).mpr same
  rw [Vmm.walk, Vmm.walk, slot, index]

theorem mapsTo_page {other frame : Nat} (same : virt / 4096 = other / 4096) (frames : pageBase phys = pageBase frame) :
    vmm.mapsTo virt phys = vmm.mapsTo other frame := by
  rw [Vmm.mapsTo, Vmm.mapsTo, ((samePage_iff other virt).mpr same).1, walk_page same, frames]

/-! Their effect on the walk -/

/-- A page table that `pmm_alloc` returns for the mapping is not in use as one. -/
def FreshTable (fuel virt : Nat) (before after : Vmm) : Prop :=
  ∀ pt, before.tree.root (virt >>> 22) = none → pmmAlloc fuel 1 before.pmm = .done pt after.pmm →
    before.tree.Unused pt

theorem Mapping.apart (mapping : Mapping fuel phys virt flags before after)
    (fresh : FreshTable fuel virt before after) (apart : before.tree.Apart) : after.tree.Apart := by
  cases mapping with
  | shared table _ tree =>
      rw [tree]
      exact apart.write
  | created vacant alloc attached tree =>
      rw [tree, attached]
      exact (apart.attach (fresh _ vacant alloc)).write

theorem Mapping.walk {other : Nat} (mapping : Mapping fuel phys virt flags before after)
    (fresh : FreshTable fuel virt before after) (apart : before.tree.Apart) (bound : other < 2 ^ 32) :
    after.walk other =
      if other / 4096 = virt / 4096 then entryOf (pageBase phys ||| flags) else before.walk other := by
  rw [walk_eq_lookup bound, walk_eq_lookup bound, ← if_congr (samePage_iff virt other) rfl rfl]
  cases mapping with
  | shared table _ tree => rw [tree, Directory.lookup_write apart table]
  | @created pt middle vacant alloc attached tree =>
      have unused := fresh _ vacant alloc
      have here : (before.tree.attach (virt >>> 22) pt).root (virt >>> 22) = some pt :=
        Function.update_self ..
      rw [tree, attached, Directory.lookup_write (apart.attach unused) here,
        Directory.lookup_attach unused vacant]

theorem Mapping.walk_flags {other : Nat} (mapping : Mapping fuel phys virt flags before after)
    (fresh : FreshTable fuel virt before after) (apart : before.tree.Apart) (small : flags < 4096)
    (present : Present flags) (bound : other < 2 ^ 32) :
    after.walk other =
      if other / 4096 = virt / 4096 then some (pageBase phys, flags) else before.walk other := by
  rw [mapping.walk fresh apart bound, entryOf_flags small present]

theorem Unmapping.apart (unmapping : Unmapping virt before after) (apart : before.tree.Apart) :
    after.tree.Apart := by
  cases unmapping with
  | absent _ same => exact same ▸ apart
  | kept _ cleared _ _ tree =>
      rw [tree, cleared]
      exact apart.write
  | released _ cleared _ _ tree =>
      rw [tree, cleared]
      exact apart.write.detach

theorem Unmapping.walk {other : Nat} (unmapping : Unmapping virt before after)
    (apart : before.tree.Apart) (bound : other < 2 ^ 32) :
    after.walk other = if other / 4096 = virt / 4096 then none else before.walk other := by
  rw [walk_eq_lookup bound, walk_eq_lookup bound, ← if_congr (samePage_iff virt other) rfl rfl]
  cases unmapping with
  | absent vacant same =>
      subst after
      split
      · rename_i here
        rw [Directory.lookup, here.1, vacant]
        rfl
      · rfl
  | kept table cleared _ _ tree => rw [tree, cleared, Directory.lookup_write apart table]
  | @released pt middle table cleared empty _ tree =>
      have here : middle.tree.root (virt >>> 22) = some pt := by rw [cleared, Directory.write_root, table]
      rw [tree, Directory.lookup_detach here empty, cleared, Directory.lookup_write apart table]

/-! The tables in use -/

theorem Mapping.root_kept (mapping : Mapping fuel phys virt flags before after) (used : before.tree.root slot = some page) :
    after.tree.root slot = some page := by
  cases mapping with
  | shared _ _ tree => rwa [tree, Directory.write_root]
  | @created pt middle vacant _ attached tree =>
      have root : after.tree.root = Function.update before.tree.root (virt >>> 22) (some pt) := by
        rw [tree, attached]
        rfl
      have other : slot ≠ virt >>> 22 := by
        intro same
        rw [same, vacant] at used
        cases used
      rwa [root, Function.update_of_ne other]

/-- The only table that comes into use is the one made for the mapped page. -/
theorem Mapping.table_from (mapping : Mapping fuel phys virt flags before after) (used : after.tree.root slot = some page) :
    before.tree.root slot = some page ∨
      before.tree.root (virt >>> 22) = none ∧ pmmAlloc fuel 1 before.pmm = .done page after.pmm := by
  cases mapping with
  | shared _ _ tree => exact .inl (by rwa [tree, Directory.write_root] at used)
  | @created pt middle vacant alloc attached tree =>
      have root : after.tree.root = Function.update before.tree.root (virt >>> 22) (some pt) := by
        rw [tree, attached]
        rfl
      rw [root, Function.update_apply] at used
      split at used
      · cases used
        exact .inr ⟨vacant, alloc⟩
      · exact .inl used

theorem Unmapping.table_from (unmapping : Unmapping virt before after) (used : after.tree.root slot = some page) :
    before.tree.root slot = some page := by
  cases unmapping with
  | absent _ same => exact same ▸ used
  | kept _ cleared _ _ tree => rwa [tree, cleared, Directory.write_root] at used
  | released _ cleared _ _ tree =>
      have root : after.tree.root = Function.update before.tree.root (virt >>> 22) none := by
        rw [tree, cleared]
        rfl
      rw [root, Function.update_apply] at used
      split at used
      · cases used
      · exact used

theorem Vmm.walk_store {other : Nat} (apart : vmm.tree.Apart) (used : vmm.tree.root (virt >>> 22) = some page) (bound : other < 2 ^ 32) :
    (vmm.store page (virt >>> 12 &&& 0x3FF) word).walk other =
      if other / 4096 = virt / 4096 then entryOf word else vmm.walk other := by
  rw [walk_eq_lookup bound, walk_eq_lookup bound, Vmm.tree_store (indexOf_lt virt), Directory.lookup_write apart used,
    ← if_congr (samePage_iff virt other) rfl rfl]

/-! The directory `vmm_install` fills -/

theorem fillDirectory_root {image : Image} (used : (fillDirectory image vmm).tree.root slot = some page) :
    slot = 0 ∧ page = pageBase (tableWord image.firstPageTable) := by
  obtain ⟨bound, present, base⟩ := Vmm.tree_root_some.mp used
  by_cases first : slot = 0
  · subst first
    exact ⟨rfl, base.symm⟩
  · rw [fillDirectory, Present] at present
    simp [first, bound, pteWritable] at present

theorem fillDirectory_apart (image : Image) : (fillDirectory image vmm).tree.Apart := by
  intro slot other page first second
  rw [(fillDirectory_root first).1, (fillDirectory_root second).1]

theorem fillDirectory_writable {image : Image} (word : image.firstPageTable < 2 ^ 32)
    (aligned : image.firstPageTable % 4096 = 0) : (fillDirectory image vmm).DirectoryWritable := by
  intro slot bound present
  by_cases first : slot = 0
  · subst slot
    exact tableWord_writable word aligned
  · rw [fillDirectory, Present] at present
    simp [first, bound, pteWritable] at present

theorem fillDirectory_walk {image : Image} (word : image.firstPageTable < 2 ^ 32)
    (aligned : image.firstPageTable % 4096 = 0) (bound : virt < 2 ^ 32) :
    (fillDirectory image vmm).walk virt =
      if virt < 0x400000 then some (pageBase virt, ptePresent ||| pteWritable) else none := by
  have slot := slotOf_eq virt
  by_cases low : virt < 0x400000
  · have first : virt >>> 22 = 0 := by omega
    have index : virt >>> 12 &&& 0x3FF = virt / 4096 := by
      rw [indexOf_eq]
      omega
    have directory : (fillDirectory image vmm).pageDirectory 0 = tableWord image.firstPageTable := rfl
    have entry : (fillDirectory image vmm).memory image.firstPageTable (virt / 4096) =
        tableWord (virt / 4096 * 0x1000) := by
      have inside : virt / 4096 < 1024 := by omega
      simp only [fillDirectory, Function.update_self, if_pos inside, tableWord]
    have page : virt / 4096 * 0x1000 < 2 ^ 32 := by omega
    have whole : virt / 4096 * 0x1000 % 4096 = 0 := by omega
    rw [if_pos low, Vmm.walk, first, index, directory, if_neg (tableWord_present word aligned),
      pageBase_tableWord word aligned, entry]
    simp only [if_neg (tableWord_present page whole), pageBase_tableWord page whole, pageBase_eq bound]
    rw [pageFlags, tableWord_and page whole (by decide)]
    rfl
  · have later : virt >>> 22 ≠ 0 := by omega
    have directory : (fillDirectory image vmm).pageDirectory (virt >>> 22) = pteWritable := by
      rw [fillDirectory]
      simp [later, slotOf_lt bound]
    rw [if_neg low, Vmm.walk, directory]
    rfl

end BarrelOS.Memory
