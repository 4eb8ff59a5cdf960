import BarrelOS.Memory.Installed
import BarrelOS.Memory.RamHeap

namespace BarrelOS.Memory

open BarrelOS.Boot BarrelOS.Data BarrelOS.Semantics

/-! Where page tables come from and where they go -/

/-- A call and the state it was made in. -/
abbrev Event := System × Call

/-- A page that `vmm_map` gets from `pmm_alloc`. -/
def Obtains : Event → Nat → Prop
  | (system, .vmmMap _ virt _), pt =>
      system.Vacant virt ∧ ∃ fuel pmm, pmmAlloc fuel 1 system.kernel.vmm.pmm = .done pt pmm
  | _, _ => False

/-- A page that `vmm_unmap` passes to `pmm_free`. -/
def Frees : Event → Nat → Prop
  | (system, .vmmUnmap virt), pt =>
      system.kernel.vmm.tree.root (virt >>> 22) = some pt ∧
        tableEmpty (system.kernel.vmm.store pt (virt >>> 12 &&& 0x3FF) 0) pt = true
  | _, _ => False

/-- The calls `vmm_install` goes on with, the latest first. -/
inductive Traced (start : System) : List Event → System → Prop
  | start : Traced start [] start
  | step {trace : List Event} {before after : System} {phys virt flags : Nat} (earlier : Traced start trace before)
      (makes : Makes before (.vmmMap phys virt flags) after) :
      Traced start ((before, .vmmMap phys virt flags) :: trace) after

def ObtainedBy (trace : List Event) : Set Nat := { pt | ∃ event ∈ trace, Obtains event pt }

/-- Before an address of the first 4 MiB is unmapped, another of their pages is mapped. -/
def KeepsFirstTable : Event → Prop
  | (system, .vmmUnmap virt) => virt < 0x400000 →
      ∃ other < 0x400000, other / 4096 ≠ virt / 4096 ∧ system.kernel.vmm.walk other ≠ none
  | _ => True

variable {mbd : MultibootInfo} {kernelEnd fuel virt phys flags slot pt first directory : Nat} {image : Image}
  {start system before after : System} {call : Call} {trace : List Event} {vmm next : Vmm} {obtained : Set Nat}

/-! What the events say about the calls -/

theorem frees_iff : Frees (system, .vmmUnmap virt) pt ↔ system.kernel.vmm.tree.root (virt >>> 22) = some pt ∧
    ∀ index ≠ virt >>> 12 &&& 0x3FF, system.kernel.vmm.tree.table pt index = none := by
  have cleared : (system.kernel.vmm.store pt (virt >>> 12 &&& 0x3FF) 0).tree =
      system.kernel.vmm.tree.write pt (virt >>> 12 &&& 0x3FF) none := Vmm.tree_store (indexOf_lt virt)
  refine and_congr_right fun _ => ?_
  rw [tableEmpty_iff, cleared, Directory.write_none_empty]

theorem low_iff : virt >>> 22 = 0 ↔ virt < 0x400000 := by
  have slot := slotOf_eq virt
  omega

/-- The first table is not freed as long as another of its pages is mapped. -/
theorem KeepsFirstTable.frees (keeps : KeepsFirstTable (system, .vmmUnmap virt))
    (table : system.kernel.vmm.tree.root 0 = some first) (frees : Frees (system, .vmmUnmap virt) pt) : virt >>> 22 ≠ 0 := by
  intro zero
  obtain ⟨used, empty⟩ := frees_iff.mp frees
  rw [zero, table] at used
  cases used
  obtain ⟨other, below, apart, mapped⟩ := keeps (low_iff.mp zero)
  refine mapped ?_
  rw [walk_eq_lookup (by omega), Directory.lookup, low_iff.mpr below, table]
  refine empty _ fun same => apart ?_
  exact (samePage_iff virt other).mp ⟨(low_iff.mpr below).trans zero.symm, same⟩

/-! Runs that keep the first page table -/

/-- What such a run keeps: the first slot has the first page table, the tables of the
others were obtained, and the first table never was. -/
structure Provenance (first : Nat) (obtained : Set Nat) (system : System) : Prop extends Sound system where
  table : system.kernel.vmm.tree.root 0 = some first
  others : ∀ slot pt, system.kernel.vmm.tree.root slot = some pt → slot ≠ 0 → pt ∈ obtained
  never : first ∉ obtained

namespace Provenance

theorem owned_page (provenance : Provenance first obtained system) (used : system.kernel.vmm.tree.root slot = some pt) :
    pt = first ∨ pt ∈ obtained ∧ pt / 4096 ∈ system.used := by
  by_cases zero : slot = 0
  · subst zero
    exact .inl (Option.some_inj.mp (used.symm.trans provenance.table))
  · exact .inr ⟨provenance.others slot pt used zero, provenance.toSound.owned.held (.table slot pt) used (Owner.mem_table slot pt)⟩

theorem frees (provenance : Provenance first obtained system) (keeps : KeepsFirstTable (system, .vmmUnmap virt))
    (frees : Frees (system, .vmmUnmap virt) pt) : pt ∈ obtained :=
  provenance.others _ pt frees.1 (keeps.frees provenance.table frees)

theorem kept (provenance : Provenance first obtained before) (sound : Sound after)
    (root : after.kernel.vmm.tree.root = before.kernel.vmm.tree.root) : Provenance first obtained after :=
  ⟨sound, root ▸ provenance.table, root ▸ provenance.others, provenance.never⟩

theorem obtains_unused (provenance : Provenance first obtained before) {pmm : Pmm}
    (alloc : pmmAlloc fuel 1 before.kernel.vmm.pmm = .done pt pmm) (handed : HandsOutBelow (2 ^ 20) before.kernel.vmm.pmm pmm) :
    ¬ Obtains (before, .vmmMap phys virt flags) first := by
  intro obtains
  obtain ⟨_, _, _, again⟩ := obtains
  obtain ⟨position, _, next, _, here⟩ := pmmAlloc_next Nat.one_pos alloc
  obtain ⟨other, _, following, _, there⟩ := pmmAlloc_next Nat.one_pos again
  have same : first = pt := by rw [there, here, next.unique following]
  have reserved : first / 4096 ∈ before.used :=
    provenance.toSound.owned.held (.table 0 first) provenance.table (Owner.mem_table 0 first)
  have provided := pmmAlloc_provided Nat.one_pos alloc handed (Nat.le_refl _)
  subst same
  exact Set.disjoint_left.mp provided.unused (Owner.mem_table 0 first) reserved

theorem map (provenance : Provenance first obtained before) (sound : Sound ⟨before.kernel.withVmm vmm, before.held⟩)
    (mapping : Mapping fuel phys virt flags before.kernel.vmm vmm)
    (handed : HandsOutBelow (2 ^ 20) before.kernel.vmm.pmm vmm.pmm) :
    Provenance first (obtained ∪ { pt | Obtains (before, .vmmMap phys virt flags) pt }) ⟨before.kernel.withVmm vmm, before.held⟩ := by
  refine ⟨sound, mapping.root_kept provenance.table, fun slot pt used other => ?_, fun named => ?_⟩
  · rcases mapping.table_from used with earlier | ⟨vacant, alloc⟩
    · exact .inl (provenance.others slot pt earlier other)
    · exact .inr ⟨vacant, fuel, vmm.pmm, alloc⟩
  · rcases named with earlier | here
    · exact provenance.never earlier
    · cases mapping with
      | shared table => cases table.symm.trans here.1
      | created _ alloc =>
          have none : ¬ Obtains (before, .vmmMap phys virt flags) first := provenance.obtains_unused alloc handed
          exact none here

theorem unmap (provenance : Provenance first obtained before) (sound : Sound ⟨before.kernel.withVmm vmm, before.held⟩)
    (unmapping : Unmapping virt before.kernel.vmm vmm) (keeps : KeepsFirstTable (before, .vmmUnmap virt)) :
    Provenance first obtained ⟨before.kernel.withVmm vmm, before.held⟩ := by
  refine ⟨sound, ?_, fun slot pt used => provenance.others slot pt (unmapping.table_from used), provenance.never⟩
  cases unmapping with
  | absent _ same => exact same ▸ provenance.table
  | kept _ cleared _ _ tree =>
      change vmm.tree.root 0 = some first
      rw [tree, cleared, Directory.write_root]
      exact provenance.table
  | @released pt middle table cleared empty _ tree =>
      rw [cleared] at empty
      have elsewhere := keeps.frees provenance.table (frees_iff.mpr ⟨table, Directory.write_none_empty.mp empty⟩)
      change vmm.tree.root 0 = some first
      rw [tree, cleared]
      exact (Function.update_of_ne elsewhere.symm ..).trans provenance.table

end Provenance

/-! The calls of `vmm_install` are such a run -/

theorem PagingOn.provenance (paging : PagingOn mbd kernelEnd image start) : Provenance image.firstPageTable ∅ start where
  toSound := paging.paged.toSound
  table := paging.table
  others := fun _ _ used other => absurd (paging.root used).1 other
  never := Set.notMem_empty _

theorem ObtainedBy.cons {event : Event} : ObtainedBy (event :: trace) = ObtainedBy trace ∪ { pt | Obtains event pt } := by
  ext pt
  change (∃ source ∈ event :: trace, Obtains source pt) ↔ _
  rw [List.exists_mem_cons_iff, or_comm]
  rfl

/-- Behind the switch to paging: the page of the directory stays reserved, and the
tables come from the calls made so far. -/
structure InstallTraced (first directory : Nat) (start : System) (trace : List Event) (system : System) : Prop where
  traced : Traced start trace system
  provenance : Provenance first (ObtainedBy trace) system
  reserves : system.Reserves (directory / 4096)

/-- `vmm_install` goes on with calls of `vmm_map` alone once it has switched paging on. -/
theorem PagingOn.mapKernel_traced (paging : PagingOn mbd kernelEnd image start) (reserves : start.Reserves (directory / 4096))
    (run : mapKernel fuel image mbd start.kernel.vmm = .done () vmm)
    (handed : HandsOutBelow (2 ^ 20) start.kernel.vmm.pmm vmm.pmm) :
    ∃ boot, InstallTraced image.firstPageTable directory start boot ⟨start.kernel.withVmm vmm, []⟩ := by
  have map : ∀ phys virt flags, virt < 2 ^ 32 → Keeps (2 ^ 20) (fun vmm => ∃ boot,
      InstallTraced image.firstPageTable directory start boot ⟨start.kernel.withVmm vmm, start.held⟩)
      (vmmMap fuel phys virt flags) := by
    intro phys virt flags word
    constructor
    · exact fun before after mapped => (vmmMap_done word mapped).kept
    · intro before after mapped taken reached
      obtain ⟨boot, earlier, provenance, reserved⟩ := reached
      have makes : Makes ⟨start.kernel.withVmm before, start.held⟩ (.vmmMap phys virt flags)
          ⟨start.kernel.withVmm after, start.held⟩ := .vmmMap word mapped
      have mapping := vmmMap_done word mapped
      refine ⟨_, .step earlier makes, ?_, reserved.mapping mapping taken⟩
      rw [ObtainedBy.cons]
      exact provenance.map (makes.sound provenance.toSound taken) mapping taken
  have sections : ∀ {limit address flags : Nat}, Keeps (2 ^ 20) (fun vmm => ∃ boot,
      InstallTraced image.firstPageTable directory start boot ⟨start.kernel.withVmm vmm, start.held⟩)
      (mapPages fuel flags (sectionAddress image) limit fuel address) :=
    Keeps.mapPages fun _ _ => map _ _ _ (Nat.mod_lt _ (by decide))
  have whole : Keeps (2 ^ 20) _ (mapKernel fuel image mbd) := Keeps.mapKernel_sections sections sections sections sections
    fun _ vmem word => map vmem vmem _ word
  have none : ObtainedBy [] = ∅ := Set.eq_empty_of_forall_notMem fun pt named => by
    obtain ⟨_, member, _⟩ := named
    cases member
  obtain ⟨boot, traced⟩ := whole.keeps _ _ run handed ⟨[], .start, none ▸ paging.provenance, reserves⟩
  rw [paging.unheld] at traced
  exact ⟨boot, traced⟩

end BarrelOS.Memory
