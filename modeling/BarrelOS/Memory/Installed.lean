import BarrelOS.Memory.Identity
import BarrelOS.Memory.Sections

namespace BarrelOS.Memory

open BarrelOS.Boot BarrelOS.Data BarrelOS.Semantics

variable {mbd : MultibootInfo} {kernelEnd fuel lead limit phys virt flags : Nat} {image : Image} {boot system : System}
  {before after : Vmm}

/-- `vmm_install` has returned: behind the switch to paging, the loops over the
sections and the framebuffer are through. -/
structure VmmInstalled (mbd : MultibootInfo) (kernelEnd : Nat) (image : Image) (boot system : System) : Prop where
  paging : PagingOn mbd kernelEnd image boot
  returns : ∃ fuel vmm, mapKernel fuel image mbd boot.kernel.vmm = .done () vmm ∧ system = ⟨boot.kernel.withVmm vmm, []⟩

/-- A `vmm_map` while nothing is held, which keeps physical addresses good as pointers. -/
structure Installing (system : System) (call : Call) : Prop where
  keeps : KeepsIdentity system call
  unheld : system.held = []
  maps : ∃ phys virt flags, call = .vmmMap phys virt flags

theorem SystemRuns.mono {wider allowed : System → Call → Prop} (run : SystemRuns limit allowed boot system)
    (more : ∀ before call, allowed before call → wider before call) : SystemRuns limit wider boot system :=
  Relation.ReflTransGen.mono (fun _ _ step => step.imp fun call here => ⟨here.1, here.2.1, more _ call here.2.2⟩) _ _ run

theorem SystemRuns.trans {allowed : System → Call → Prop} {middle : System} (run : SystemRuns limit allowed boot middle)
    (more : SystemRuns limit allowed middle system) : SystemRuns limit allowed boot system :=
  Relation.ReflTransGen.trans run more

/-! The sample kernel, whose sections all go to the 4 MiB from 0x40400000 on -/

/-- What its section loops keep: they take one page table at most, the first clear
page, and change no translation but in those 4 MiB. -/
structure SectionsEntered (boot : System) (lead limit : Nat) (vmm : Vmm) : Prop where
  paged : Paged ⟨boot.kernel.withVmm vmm, []⟩
  runs : SystemRuns (2 ^ 20) Installing boot ⟨boot.kernel.withVmm vmm, []⟩
  table : vmm.tree.root 0x101 = none ∧ vmm.pmm.Ascending lead limit ∨
    vmm.tree.root 0x101 = some (pageAddress lead) ∧ vmm.pmm.Ascending (lead + 1) limit
  used : boot.used ⊆ vmm.pmm.used
  root : ∀ slot ≠ 0x101, vmm.tree.root slot = boot.kernel.vmm.tree.root slot
  walk : ∀ virt < 2 ^ 32, virt >>> 22 ≠ 0x101 → vmm.walk virt = boot.kernel.vmm.walk virt

namespace SectionsEntered

theorem request {purpose : Purpose} {count position : Nat} (entered : SectionsEntered boot lead limit before)
    (room : lead + 1 ≤ limit) (inside : virt >>> 22 = 0x101)
    (request : Requests ⟨boot.kernel.withVmm before, []⟩ (.vmmMap phys virt flags) purpose count position) :
    position = lead ∧ count = 1 := by
  cases request with
  | table vacant next =>
      have none : before.tree.root 0x101 = none := inside ▸ vacant
      rcases entered.table with ⟨_, ascending⟩ | ⟨present, _⟩
      · exact ⟨(ascending.window Nat.one_pos room next).1, rfl⟩
      · rw [none] at present
        cases present

/-- A page of the first 4 MiB is still mapped to itself. -/
theorem identity (entered : SectionsEntered boot lead limit before) (paging : PagingOn mbd kernelEnd image boot)
    {address : Nat} (low : address < 0x400000) : before.Identity address := by
  have word : address < 2 ^ 32 := Nat.lt_trans low (by decide)
  have slot : address >>> 22 ≠ 0x101 := by
    rw [slotOf_eq]
    omega
  refine (mapsTo_iff entered.paged.writable word).mpr ⟨ptePresent ||| pteWritable, ?_, by decide⟩
  exact (entered.walk address word slot).trans ((paging.walk word).trans (if_pos low))

theorem keeps (entered : SectionsEntered boot lead limit before) (paging : PagingOn mbd kernelEnd image boot)
    (first : image.firstPageTable < 0x400000) (low : lead < 0x400) (room : lead + 1 ≤ limit) (inside : virt >>> 22 = 0x101) :
    KeepsIdentity ⟨boot.kernel.withVmm before, []⟩ (.vmmMap phys virt flags) where
  taken := by
    intro purpose count position _ request
    rw [(entered.request room inside request).1]
    refine entered.identity paging ?_
    unfold pageAddress
    omega
  named := by
    intro named names slot pt used
    cases names
    rw [slotOf_eq] at inside
    by_cases here : slot = 0x101
    · subst here
      rcases entered.table with ⟨none, _⟩ | ⟨present, _⟩
      · cases none.symm.trans used
      · cases present.symm.trans used
        unfold pageAddress
        omega
    · have table := (paging.root ((entered.root slot here).symm.trans used)).2
      omega

theorem map (entered : SectionsEntered boot lead limit before) (paging : PagingOn mbd kernelEnd image boot)
    (first : image.firstPageTable < 0x400000) (low : lead < 0x400) (room : lead + 1 ≤ limit) (inside : virt >>> 22 = 0x101)
    (run : vmmMap fuel phys virt flags before = .done () after) : SectionsEntered boot lead limit after := by
  have word : virt < 2 ^ 32 := by
    rw [slotOf_eq] at inside
    omega
  have makes : Makes ⟨boot.kernel.withVmm before, []⟩ (.vmmMap phys virt flags) ⟨boot.kernel.withVmm after, []⟩ := .vmmMap word run
  have fits : Fits (2 ^ 20) ⟨boot.kernel.withVmm before, []⟩ (.vmmMap phys virt flags) := by
    intro purpose count position request
    obtain ⟨rfl, rfl⟩ := entered.request room inside request
    omega
  have handed := makes.handed fits (Nat.le_refl _)
  have mapping := vmmMap_done word run
  refine ⟨makes.paged entered.paged handed,
    entered.runs.step makes fits ⟨entered.keeps paging first low room inside, rfl, phys, virt, flags, rfl⟩, ?_,
    entered.used.trans mapping.kept, ?_, ?_⟩
  · cases mapping with
    | shared table pmm tree =>
        have root : after.tree.root = before.tree.root := by rw [tree, Directory.write_root]
        rw [inside] at table
        rcases entered.table with ⟨none, _⟩ | present
        · cases none.symm.trans table
        · rw [root, pmm]
          exact .inr present
    | created vacant alloc attached tree =>
        rw [inside] at vacant attached
        rcases entered.table with ⟨_, ascending⟩ | ⟨present, _⟩
        · obtain ⟨rfl, following⟩ := ascending.taken Nat.one_pos room alloc
          have root : after.tree.root = Function.update before.tree.root 0x101 (some (pageAddress lead)) := by
            rw [tree, attached]
            rfl
          exact .inr ⟨by rw [root, Function.update_self], following⟩
        · cases present.symm.trans vacant
  · intro slot other
    rw [← entered.root slot other]
    cases mapping with
    | shared _ _ tree => rw [tree, Directory.write_root]
    | created _ _ attached tree =>
        rw [tree, attached]
        exact Function.update_of_ne (fun same => other (same.trans inside)) ..
  · intro address bound other
    have apart : address / 4096 ≠ virt / 4096 := by
      rw [slotOf_eq] at inside other
      omega
    rw [mapping.walk (entered.paged.freshTable handed) entered.paged.apart bound, if_neg apart]
    exact entered.walk address bound other

theorem start (paging : PagingOn mbd kernelEnd image boot) (ascending : boot.kernel.vmm.pmm.Ascending lead limit) :
    SectionsEntered boot lead limit boot.kernel.vmm := by
  have same : System.mk (boot.kernel.withVmm boot.kernel.vmm) [] = boot := by
    rw [← paging.unheld]
    rfl
  refine ⟨same.symm ▸ paging.paged, same.symm ▸ .refl, .inl ⟨?_, ascending⟩, Set.Subset.rfl, fun _ _ => rfl,
    fun _ _ _ => rfl⟩
  by_contra present
  obtain ⟨pt, used⟩ := Option.ne_none_iff_exists'.mp present
  exact absurd (paging.root used).1 (by decide)

theorem mapKernel (paging : PagingOn mbd kernelEnd smallImage boot) (textMode : mbd.vbeMode = 3) (low : lead < 0x400)
    (room : lead + 1 ≤ limit) (entered : SectionsEntered boot lead limit before) (handed : HandsOutBelow (2 ^ 20) before.pmm after.pmm)
    (run : mapKernel fuel smallImage mbd before = .done () after) : SectionsEntered boot lead limit after := by
  have loop : ∀ {start limit' flags : Nat}, 0x200000 ≤ start → limit' ≤ 0x220000 → Keeps (2 ^ 20) (SectionsEntered boot lead limit)
      (Memory.mapPages fuel flags (sectionAddress smallImage) limit' fuel start) := by
    intro start limit' flags lower upper
    refine Keeps.mapPages_visited (fun other => 0x200000 ≤ other) lower (fun other bound visited => ?_)
      fun other bound visited => ⟨fun _ _ map => (vmmMap_done (Nat.mod_lt _ (by decide)) map).kept, fun _ _ map _ earlier => ?_⟩
    · rw [Nat.mod_eq_of_lt (by omega)]
      omega
    · refine earlier.map paging (by decide) low room ?_ map
      rw [slotOf_eq, sectionAddress, show smallImage.textStart = 0x200000 from rfl]
      omega
  have whole : Keeps (2 ^ 20) (SectionsEntered boot lead limit) (Memory.mapKernel fuel smallImage mbd) :=
    Keeps.mapKernel_sections (loop (by decide) (by decide)) (loop (by decide) (by decide)) (loop (by decide) (by decide))
      (loop (by decide) (by decide)) fun graphics => absurd textMode graphics
  exact whole.keeps before after run handed entered

end SectionsEntered

/-- The sample machine behind `vmm_install`: its page tables are the first one and
one for the sections, and the pages behind that one are free. -/
structure PcInstalled (lenLow : Nat) (word : lenLow < 2 ^ 32) (sections : Nat) (boot system : System) : Prop where
  installed : VmmInstalled (pcInfo lenLow word) 0x220000 smallImage boot system
  paged : Paged system
  unheld : system.held = []
  runs : SystemRuns (2 ^ 20) Installing boot system
  handed : HandsOutBelow (2 ^ 20) boot.kernel.vmm.pmm system.kernel.vmm.pmm
  null : 0 ∈ system.used
  ascending : system.kernel.vmm.pmm.Ascending (sections + 1) (lenLow / 4096)
  root : ∀ slot, system.kernel.vmm.tree.root slot =
    if slot = 0x101 then some (pageAddress sections) else if slot = 0 then some 0x219000 else none
  walk : ∀ virt < 2 ^ 32, virt >>> 22 ≠ 0x101 → system.kernel.vmm.walk virt =
    if virt < 0x400000 then some (pageBase virt, ptePresent ||| pteWritable) else none
  text : system.kernel.vmm.walk 0x40400000 = some (0x200000, ptePresent)

theorem pcSystem_installed (lenLow : Nat) (word : lenLow < 2 ^ 32) (aligned : lenLow % 4096 = 0)
    (enough : 0x400000 ≤ lenLow) (below : lenLow + bitmapSizeOf (pcRegion lenLow word) ≤ 0xFFF00000)
    (covered : lenLow / 4096 ≤ 8 * bitmapSizeOf (pcRegion lenLow word))
    (small : bitmapSizeOf (pcRegion lenLow word) / 4096 < 0x100) :
    ∃ booted system,
      PcInstalled lenLow word (0x220 + bitmapSizeOf (pcRegion lenLow word) / 4096) (pcSystem booted) system := by
  obtain ⟨booted, paging, null, ascending⟩ := pcSystem_paging lenLow word aligned (by omega) below covered
  generalize bitmapSizeOf (pcRegion lenLow word) / 4096 = pages at small ascending ⊢
  have start : (pcSystem booted).kernel.vmm.pmm.Ascending (0x220 + pages) (lenLow / 4096) := ascending
  have textMode : (pcInfo lenLow word).vbeMode = 3 := rfl
  obtain ⟨fuel, vmm, _, run, _, _, _, handed⟩ := start.mapKernel_within smallImage_low 0x10 (by decide) (by decide)
    (by decide) (by decide) textMode (by omega) (by omega)
  have wide := handed.mono (show lenLow / 4096 ≤ 2 ^ 20 by omega)
  have entered := (SectionsEntered.start paging start).mapKernel paging textMode (by omega) (by omega) wide run
  have text : vmm.walk 0x40400000 = some (0x200000, ptePresent) := by
    have walk := (mapKernel_walk smallImage_linked
      (show Paged ⟨(pcSystem booted).kernel.withVmm (pcSystem booted).kernel.vmm, []⟩ from paging.paged) run wide).2
      0x200000 (by decide)
    rw [if_neg fun covered => covered.1 textMode, Image.sectionWalk, if_neg (by decide), if_pos (by decide)] at walk
    exact walk
  have table : vmm.tree.root 0x101 = some (pageAddress (0x220 + pages)) ∧
      vmm.pmm.Ascending (0x220 + pages + 1) (lenLow / 4096) := by
    refine entered.table.resolve_left fun missing => ?_
    have lookup := text
    rw [walk_eq_lookup (by decide), Directory.lookup, show 0x40400000 >>> 22 = 0x101 by decide, missing.1] at lookup
    cases lookup
  refine ⟨booted, ⟨(pcSystem booted).kernel.withVmm vmm, []⟩, ⟨paging, fuel, vmm, run, rfl⟩, entered.paged, rfl,
    entered.runs, wide, entered.used null, table.2, fun slot => ?_, fun virt bound other => ?_, text⟩
  · by_cases sections : slot = 0x101
    · rw [if_pos sections, sections]
      exact table.1
    · rw [if_neg sections]
      exact (entered.root slot sections).trans (paging.root_eq slot)
  · exact (entered.walk virt bound other).trans (paging.walk bound)

theorem pcInstalled : ∃ booted system, PcInstalled 0x7EE0000 (by decide) 0x221 (pcSystem booted) system := by
  have size : 0x220 + bitmapSizeOf (pcRegion 0x7EE0000 (by decide)) / 4096 = 0x221 := by decide
  exact size ▸ pcSystem_installed 0x7EE0000 (by decide) (by decide) (by decide) (by decide) (by decide) (by decide)

/-- `malloc_init` on the sample machine. -/
theorem pcHeap : ∃ booted installed started, PcInstalled 0x7EE0000 (by decide) 0x221 (pcSystem booted) installed ∧
    Makes installed .mallocInit started ∧ Fits (2 ^ 20) installed .mallocInit ∧
    started.kernel.vmm.pmm.Ascending 0x224 0x7EE0 := by
  obtain ⟨booted, installed, sample⟩ := pcInstalled
  have ascending : installed.kernel.vmm.pmm.Ascending 0x222 0x7EE0 := sample.ascending
  have room : 0x222 + 2 ≤ 0x7EE0 := by decide
  obtain ⟨after, makes, following⟩ := ascending.mallocInit sample.unheld room
  exact ⟨booted, installed, _, sample, makes, ascending.fits trivial room (by decide), following⟩

namespace PcInstalled

variable {lenLow sections : Nat} {word : lenLow < 2 ^ 32} (sample : PcInstalled lenLow word sections boot system)
include sample

theorem pointed : Pointed system :=
  (sample.runs.mono fun _ _ installing => installing.keeps).pointed (sample.installed.paging.pointed (by decide))

theorem anchored (below : sections < 0x400) (above : 0 < sections) : Anchored system where
  toPointed := sample.pointed
  identity := by
    intro address low
    have bound : address < 2 ^ 32 := Nat.lt_trans low (by decide)
    have slot : address >>> 22 ≠ 0x101 := by
      rw [slotOf_eq]
      omega
    exact (mapsTo_iff sample.paged.writable bound).mpr
      ⟨ptePresent ||| pteWritable, (sample.walk address bound slot).trans (if_pos low), by decide⟩
  tables := by
    intro slot pt used
    rw [sample.root] at used
    unfold pageAddress at used
    split at used
    · cases used
      omega
    · split at used
      · cases used
        decide
      · cases used

theorem inhabited : system.kernel.vmm.tree.Inhabited := by
  have shown : ∀ virt, virt < 2 ^ 32 → system.kernel.vmm.walk virt ≠ none → ∀ page,
      system.kernel.vmm.tree.root (virt >>> 22) = some page → ∃ index, system.kernel.vmm.tree.table page index ≠ none := by
    intro virt bound walk page used
    rw [walk_eq_lookup bound, Directory.lookup, used] at walk
    exact ⟨_, walk⟩
  intro slot page used
  by_cases table : slot = 0x101
  · subst table
    exact shown 0x40400000 (by decide) (by rw [sample.text]; exact Option.some_ne_none _) page used
  · by_cases first : slot = 0
    · subst first
      exact shown 0 (by decide) (by rw [sample.walk 0 (by decide) (by decide)]; exact Option.some_ne_none _) page used
    · rw [sample.root, if_neg table, if_neg first] at used
      cases used

end PcInstalled

end BarrelOS.Memory
