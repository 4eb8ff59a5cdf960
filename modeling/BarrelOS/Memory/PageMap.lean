import BarrelOS.Memory.Ownership
import BarrelOS.Memory.Paging

namespace BarrelOS.Memory

open BarrelOS.Data BarrelOS.Semantics

variable {virt : Nat} {vmm before middle after : Vmm} {ops : List PageOp}

/-- What paging is for: every virtual page has a frame and flags, or nothing. -/
abbrev PageMap := Nat → Option (Nat × Nat)

inductive PageOp where
  | map (phys virt flags : Nat)
  | unmap (virt : Nat)
deriving DecidableEq, Repr

namespace PageOp

/-- The virtual page an operation names. -/
def page : PageOp → Nat
  | .map _ virt _ | .unmap virt => virt / 4096

def translation : PageOp → Option (Nat × Nat)
  | .map phys _ flags => some (pageBase phys, flags)
  | .unmap _ => none

def apply (pages : PageMap) (op : PageOp) : PageMap :=
  Function.update pages op.page op.translation

end PageOp

/-- The last operation that names a page. -/
def lastNaming (ops : List PageOp) (page : Nat) : Option PageOp :=
  (ops.filter fun op => op.page = page).getLast?

/-- After a run of operations a page has the translation its last operation gave
it, or the one it started with. -/
theorem foldl_apply (ops : List PageOp) (pages : PageMap) (page : Nat) :
    ops.foldl PageOp.apply pages page =
      match lastNaming ops page with
      | some op => op.translation
      | none => pages page := by
  induction ops generalizing pages with
  | nil => rfl
  | cons op rest ih =>
      rw [List.foldl_cons, ih, lastNaming, lastNaming, PageOp.apply]
      by_cases named : op.page = page
      · rw [List.filter_cons_of_pos (by simpa using named), List.getLast?_cons]
        cases (rest.filter fun op => op.page = page).getLast? with
        | none => simp [named]
        | some later => rfl
      · rw [List.filter_cons_of_neg (by simpa using named)]
        cases (rest.filter fun op => op.page = page).getLast? with
        | none => simp [Ne.symm named]
        | some later => rfl

/-- A call of `vmm_map` that returns, with flags that fit beside the frame and
make the page present, or a call of `vmm_unmap`. A page that becomes a page
table is not in use as one. -/
inductive VmmStep : Vmm → PageOp → Vmm → Prop
  | map {fuel phys virt flags : Nat} {before after : Vmm}
      (address : virt < 2 ^ 32)
      (small : flags < 4096)
      (present : Present flags)
      (run : vmmMap fuel phys virt flags before = .done () after)
      (fresh : FreshTable fuel virt before after) :
      VmmStep before (.map phys virt flags) after
  | unmap {virt : Nat} {before : Vmm} (address : virt < 2 ^ 32) :
      VmmStep before (.unmap virt) (vmmUnmap virt before)

inductive VmmRun : Vmm → List PageOp → Vmm → Prop
  | nil {vmm : Vmm} : VmmRun vmm [] vmm
  | cons {before middle after : Vmm} {op : PageOp} {ops : List PageOp}
      (step : VmmStep before op middle) (rest : VmmRun middle ops after) :
      VmmRun before (op :: ops) after

/-- The page tables stand for a page map. -/
structure Refines (vmm : Vmm) (pages : PageMap) : Prop where
  apart : vmm.tree.Apart
  walk : ∀ virt < 2 ^ 32, vmm.walk virt = pages (virt / 4096)

theorem Refines.step {pages : PageMap} {op : PageOp} (refines : Refines before pages)
    (step : VmmStep before op after) : Refines after (PageOp.apply pages op) := by
  obtain ⟨apart, walk⟩ := refines
  cases step with
  | map address small present run fresh =>
      have mapping := vmmMap_done address run
      refine ⟨mapping.apart fresh apart, ?_⟩
      intro other bound
      rw [mapping.walk_flags fresh apart small present bound, walk other bound, PageOp.apply,
        Function.update_apply]
      rfl
  | unmap address =>
      have unmapping : Unmapping _ before _ := vmmUnmap_cases address
      refine ⟨unmapping.apart apart, ?_⟩
      intro other bound
      rw [unmapping.walk apart bound, walk other bound, PageOp.apply, Function.update_apply]
      rfl

theorem Refines.run {pages : PageMap} (refines : Refines before pages) (run : VmmRun before ops after) :
    Refines after (ops.foldl PageOp.apply pages) := by
  induction run generalizing pages with
  | nil => exact refines
  | cons step _ ih => exact ih (refines.step step)

/-- The page map of the directory `vmm_install` builds. -/
def identityMap : PageMap := fun page =>
  if page < 1024 then some (page * 4096, ptePresent ||| pteWritable) else none

theorem fillDirectory_refines {image : Image} (word : image.firstPageTable < 2 ^ 32)
    (aligned : image.firstPageTable % 4096 = 0) : Refines (fillDirectory image vmm) identityMap where
  apart := fillDirectory_apart image
  walk := by
    intro virt bound
    have low : virt < 0x400000 ↔ virt / 4096 < 1024 := by omega
    rw [fillDirectory_walk word aligned bound, identityMap, pageBase_eq bound]
    simp only [low]

/-- `vmm_map` and `vmm_unmap` refine a plain map from virtual pages to frames
and flags. -/
theorem vmm_refines_page_map {image : Image} (word : image.firstPageTable < 2 ^ 32)
    (aligned : image.firstPageTable % 4096 = 0) (run : VmmRun (fillDirectory image vmm) ops after) :
    ∀ virt < 2 ^ 32, after.walk virt =
      match lastNaming ops (virt / 4096) with
      | some (.map phys _ flags) => some (pageBase phys, flags)
      | some (.unmap _) => none
      | none => if virt < 0x400000 then some (pageBase virt, ptePresent ||| pteWritable) else none := by
  intro virt bound
  have initial : Refines (fillDirectory image vmm) identityMap := fillDirectory_refines word aligned
  rw [(initial.run run).walk virt bound, foldl_apply, ← initial.walk virt bound,
    fillDirectory_walk word aligned bound]
  cases lastNaming ops (virt / 4096) with
  | none => rfl
  | some op => cases op <;> rfl

/-- A kernel linked at 2 MiB that ends at 0x220000. -/
def smallImage : Image where
  textStart := 0x200000
  textEnd := 0x210000
  rodataStart := 0x210000
  rodataEnd := 0x214000
  dataStart := 0x214000
  dataEnd := 0x216000
  bssStart := 0x216000
  bssEnd := 0x220000
  firstPageTable := 0x219000

def hundredPagesVmm : Vmm where
  pmm := hundredPages
  pageDirectory := fun _ => 0
  memory := fun _ _ => 0
  derefs := []

/-- The local APIC's registers are mapped, and a page of low memory is unmapped. -/
theorem vmm_refines_page_map_apic :
    ∃ after, VmmRun (fillDirectory smallImage hundredPagesVmm)
        [.map 0xFEE00000 0xFEE00000 3, .unmap 0x5000] after ∧
      after.walk 0xFEE00020 = some (0xFEE00000, 3) ∧ after.walk 0x5123 = none ∧
      after.walk 0x6123 = some (0x6000, 3) := by
  have mapped : vmmMap 5 0xFEE00000 0xFEE00000 3 (fillDirectory smallImage hundredPagesVmm) =
      .done () (vmmMap 5 0xFEE00000 0xFEE00000 3 (fillDirectory smallImage hundredPagesVmm)).after := rfl
  have fresh : FreshTable 5 0xFEE00000 (fillDirectory smallImage hundredPagesVmm)
      (vmmMap 5 0xFEE00000 0xFEE00000 3 (fillDirectory smallImage hundredPagesVmm)).after := by
    intro pt _ alloc slot used
    have search : pmmAlloc 5 1 hundredPages = .done 4096 (pmmAlloc 5 1 hundredPages).after := rfl
    have table := (Outcome.done.inj (search.symm.trans alloc)).1
    have first := (fillDirectory_root used).2
    rw [← table] at first
    exact absurd first (by decide)
  have unmap : ∀ vmm, VmmStep vmm (.unmap 0x5000) (vmmUnmap 0x5000 vmm) := fun _ => .unmap (by decide)
  have run := VmmRun.cons (.map (by decide) (by decide) (by decide) mapped fresh) (.cons (unmap _) .nil)
  have walk := vmm_refines_page_map (by decide) (by decide) run
  exact ⟨_, run, walk _ (by decide), walk _ (by decide), walk _ (by decide)⟩

end BarrelOS.Memory
