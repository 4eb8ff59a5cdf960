import BarrelOS.Memory.Exhaustion
import BarrelOS.Memory.PageMap
import BarrelOS.Memory.Startup

namespace BarrelOS.Memory

open BarrelOS.Boot BarrelOS.Data BarrelOS.Semantics

variable {fuel count lead limit h n phys virt flags position : Nat} {pmm rest after : Pmm} {vmm : Vmm}
  {kernel : Kernel} {system : System} {held : List Holder}

/-- The first clear page at or behind the hint is `lead`, and the pages from there
up to a limit are clear. As long as nothing is freed, allocations ascend. -/
structure Pmm.Ascending (pmm : Pmm) (lead limit : Nat) : Prop where
  hint : pmm.lastPage ≤ lead
  passed : ∀ page, pmm.lastPage ≤ page → page < lead → bitmapGet pmm.bitmap page = true
  free : ∀ page, lead ≤ page → page < limit → bitmapGet pmm.bitmap page = false
  below : limit ≤ pmm.pageCount
  nonzero : 0 < lead

namespace Pmm.Ascending

theorem first (ascending : pmm.Ascending lead limit) (positive : 0 < count) (room : lead + count ≤ limit) :
    FirstWindow pmm.Clear pmm.lastPage count lead := by
  have word := pmm.pageCount_lt
  have below := ascending.below
  refine ⟨ascending.hint, ?_, ?_⟩
  · intro offset bound
    rw [Pmm.Clear, Nat.mod_eq_of_lt (by omega)]
    exact ascending.free _ (by omega) (by omega)
  · intro earlier hint before window
    have clear := window 0 positive
    rw [Pmm.Clear, Nat.add_zero, Nat.mod_eq_of_lt (by omega), ascending.passed earlier hint before] at clear
    cases clear

theorem granted (ascending : pmm.Ascending lead limit) (room : lead + count ≤ limit)
    (same : after.SameBits (pmm.grant count lead)) (pageCount : after.pageCount = pmm.pageCount) :
    after.Ascending (lead + count) limit := by
  have word := pmm.pageCount_lt
  have below := ascending.below
  have nonzero := ascending.nonzero
  have hint : after.lastPage = lead + count := by
    rw [same.lastPage, Pmm.grant, Pmm.withLastPage_lastPage, Nat.mod_eq_of_lt (by omega)]
  refine ⟨Nat.le_of_eq hint, ?_, ?_, pageCount ▸ below, by omega⟩
  · intro page lower upper
    omega
  · intro page lower upper
    rw [← Bool.not_eq_true, same.bitmap, Pmm.grant, Pmm.withLastPage_bitmap, bitmapGet_setPages,
      ascending.free page (by omega) upper]
    intro set
    rcases set with wrong | ⟨offset, bound, here⟩
    · cases wrong
    · omega

theorem window (ascending : pmm.Ascending lead limit) (positive : 0 < count) (room : lead + count ≤ limit)
    (taken : pmm.Next count position rest) : position = lead ∧ rest.Ascending (lead + count) limit := by
  have word := pmm.pageCount_lt
  have below := ascending.below
  have nonzero := ascending.nonzero
  have first := ascending.first positive room
  cases taken with
  | direct _ found =>
      cases found.unique first
      refine ⟨rfl, ascending.granted room ⟨rfl, rfl⟩ ?_⟩
      rw [Pmm.grant, Pmm.withLastPage_pageCount, setPages_pageCount]
  | retried zero found _ =>
      rw [found.unique first] at zero
      omega

theorem alloc (ascending : pmm.Ascending lead limit) (positive : 0 < count) (room : lead + count ≤ limit) :
    ∃ fuel after, (∀ larger, fuel ≤ larger → pmmAlloc larger count pmm = .done (pageAddress lead) after) ∧
      after.Ascending (lead + count) limit := by
  have word := pmm.pageCount_lt
  have below := ascending.below
  obtain ⟨fuel, after, run, taken⟩ := pmmAlloc_returns positive ascending.nonzero (ascending.first positive room)
    (Nat.le_trans room below)
  refine ⟨fuel, after, ?_, ascending.granted room taken.sameBits taken.pageCount⟩
  have address : pageAddress lead = lead * 4096 % 2 ^ 32 := by
    unfold pageAddress
    omega
  intro larger more
  rw [address]
  exact pmmAlloc_more more run

theorem taken {ptr : Nat} (ascending : pmm.Ascending lead limit) (positive : 0 < count) (room : lead + count ≤ limit)
    (run : pmmAlloc fuel count pmm = .done ptr after) : ptr = pageAddress lead ∧ after.Ascending (lead + count) limit := by
  obtain ⟨other, rest, alloc, following⟩ := ascending.alloc positive room
  have here := pmmAlloc_more (Nat.le_max_left fuel other) run
  rw [alloc _ (Nat.le_max_right _ _)] at here
  injection here with address same
  exact ⟨address.symm, same ▸ following⟩

end Pmm.Ascending

/-- The most pages a call takes. -/
def Call.most : Call → Nat
  | .pmmAlloc count => count
  | .vmmMap _ _ _ => 1
  | .mallocInit => 2
  | .heapAlloc n => heapPages n + 1
  | _ => 0

def Call.Asks : Call → Prop
  | .pmmAlloc count => 0 < count
  | .heapAlloc n => 0 < heapPages n
  | _ => True

theorem Pmm.Ascending.requests {call : Call} {purpose : Purpose}
    (ascending : system.kernel.vmm.pmm.Ascending lead limit)
    (request : Requests system call purpose count position)
    (asks : call.Asks) (room : lead + call.most ≤ limit) :
    lead ≤ position ∧ position + count ≤ lead + call.most := by
  cases request with
  | pages taken =>
      obtain ⟨rfl, _⟩ := ascending.window asks room taken
      exact ⟨Nat.le_refl _, Nat.le_refl _⟩
  | table _ taken =>
      obtain ⟨rfl, _⟩ := ascending.window Nat.one_pos room taken
      exact ⟨Nat.le_refl _, Nat.le_refl _⟩
  | heap taken =>
      obtain ⟨rfl, _⟩ := ascending.window Nat.one_pos (Nat.le_of_succ_le room) taken
      exact ⟨Nat.le_refl _, Nat.le_succ _⟩
  | head earlier taken =>
      obtain ⟨_, middle⟩ := ascending.window Nat.one_pos (Nat.le_of_succ_le room) earlier
      obtain ⟨rfl, _⟩ := middle.window Nat.one_pos room taken
      exact ⟨Nat.le_succ _, Nat.le_refl _⟩
  | block taken =>
      obtain ⟨rfl, _⟩ := ascending.window asks (Nat.le_of_succ_le room) taken
      exact ⟨Nat.le_refl _, Nat.le_succ _⟩
  | blockTable earlier _ taken =>
      obtain ⟨_, middle⟩ := ascending.window asks (Nat.le_of_succ_le room) earlier
      obtain ⟨rfl, _⟩ := middle.window Nat.one_pos room taken
      exact ⟨Nat.le_add_right _ _, Nat.le_refl _⟩

theorem Pmm.Ascending.block (ascending : system.kernel.vmm.pmm.Ascending lead limit)
    (asks : 0 < heapPages n) (room : lead + heapPages n ≤ limit)
    (request : Requests system (.heapAlloc n) .block count position) : count = heapPages n ∧ position = lead := by
  cases request with
  | block taken => exact ⟨rfl, (ascending.window asks room taken).1⟩

theorem Pmm.Ascending.fits {call : Call} {bound : Nat}
    (ascending : system.kernel.vmm.pmm.Ascending lead limit) (asks : call.Asks)
    (room : lead + call.most ≤ limit) (fits : lead + call.most ≤ bound) : Fits bound system call := by
  intro purpose count position request
  have inside := (ascending.requests request asks room).2
  have word := Nat.mod_le position (2 ^ 32)
  omega

/-! Calls return -/

theorem vmmMap_returns (bound : virt < 2 ^ 32) {pt : Nat}
    (table : vmm.tree.root (virt >>> 22) = none →
      ∀ larger, fuel ≤ larger → pmmAlloc larger 1 vmm.pmm = .done pt pmm) :
    ∃ after, ∀ larger, fuel ≤ larger → vmmMap larger phys virt flags vmm = .done () after := by
  by_cases vacant : vmm.pageDirectory (virt >>> 22) &&& 0x1 = 0
  · have absent := (Vmm.tree_root_none (slotOf_lt bound)).mpr (not_not.mpr vacant)
    refine ⟨(vmmMap fuel phys virt flags vmm).after, fun larger more => ?_⟩
    simp only [vmmMap, if_pos vacant, newTable, table absent larger more, table absent fuel (Nat.le_refl _),
      Outcome.within, Outcome.done_bind, Outcome.after]
  · refine ⟨(vmmMap fuel phys virt flags vmm).after, fun larger _ => ?_⟩
    simp only [vmmMap, if_neg vacant, Outcome.done_bind, Outcome.after]

theorem heapAlloc_returns {middle : Pmm} {last : Vmm} {ptr : Nat} (h : Nat)
    (alloc : ∀ larger, fuel ≤ larger → pmmAlloc larger (heapPages n) kernel.vmm.pmm = .done ptr middle)
    (map : ∀ larger, fuel ≤ larger → vmmMap larger (physical (higherHalf ptr)) (higherHalf ptr)
      (ptePresent ||| pteWritable) { kernel.vmm with pmm := middle } = .done () last) :
    ∃ after, after.vmm = last ∧ ∀ larger, fuel ≤ larger →
      heapAlloc larger h n kernel = .done ((higherHalf ptr + sizeofHeapBlock) % 2 ^ 32) after := by
  have here := Nat.le_refl fuel
  refine ⟨(heapAlloc fuel h n kernel).after, ?_, fun larger more => ?_⟩
  · simp only [heapAlloc, alloc fuel here, Outcome.within, Outcome.done_bind, Kernel.withPmm, map fuel here]
    rfl
  · simp only [heapAlloc, alloc larger more, alloc fuel here, Outcome.within, Outcome.done_bind, Kernel.withPmm,
      map larger more, map fuel here, Outcome.after]

theorem heapCreate_returns {first second : Pmm} {h head : Nat}
    (alloc : pmmAlloc fuel 1 kernel.vmm.pmm = .done h first) (again : pmmAlloc fuel 1 first = .done head second) :
    ∃ after, heapCreate fuel kernel = .done h after ∧ after.vmm.pmm = second := by
  simp only [heapCreate, alloc, Outcome.within, Outcome.done_bind, Kernel.withPmm, again]
  exact ⟨_, rfl, rfl⟩

theorem mallocInit_returns {first second : Pmm} {h head : Nat}
    (alloc : pmmAlloc fuel 1 kernel.vmm.pmm = .done h first) (again : pmmAlloc fuel 1 first = .done head second) :
    ∃ after, mallocInit fuel kernel = .done () after ∧ after.vmm.pmm = second := by
  obtain ⟨created, create, same⟩ := heapCreate_returns alloc again
  simp only [mallocInit, create, Outcome.done_bind]
  exact ⟨_, rfl, same⟩

/-! Runs in an ascending state -/

namespace Pmm.Ascending

theorem mapping (ascending : vmm.pmm.Ascending lead limit) (phys flags : Nat) (bound : virt < 2 ^ 32)
    (room : lead + 1 ≤ limit) :
    ∃ fuel after, (∀ larger, fuel ≤ larger → Memory.vmmMap larger phys virt flags vmm = .done () after) ∧
      after.pmm.Ascending (if vmm.tree.root (virt >>> 22) = none then lead + 1 else lead) limit ∧
      (limit ≤ 2 ^ 20 → HandsOutBelow limit vmm.pmm after.pmm) := by
  obtain ⟨fuel, pmm, alloc, following⟩ := ascending.alloc Nat.one_pos room
  obtain ⟨after, run⟩ := vmmMap_returns bound fun _ => alloc
  have mapping := vmmMap_done bound (run fuel (Nat.le_refl _))
  refine ⟨fuel, after, run, ?_, ?_⟩
  · cases mapping with
    | shared table same =>
        rw [table, same]
        exact ascending
    | created vacant taken =>
        rw [if_pos vacant]
        rw [alloc fuel (Nat.le_refl _)] at taken
        injection taken with _ same
        exact same ▸ following
  · intro physical
    refine mapping.handed physical fun _ position rest next => ?_
    have here := (ascending.window Nat.one_pos room next).1
    have small := Nat.mod_le position (2 ^ 32)
    omega

theorem vmmMap (ascending : system.kernel.vmm.pmm.Ascending lead limit) (phys virt flags : Nat)
    (bound : virt < 2 ^ 32) (room : lead + 1 ≤ limit) :
    ∃ vmm, Makes system (.vmmMap phys virt flags) ⟨system.kernel.withVmm vmm, system.held⟩ := by
  obtain ⟨fuel, vmm, run, _, _⟩ := ascending.mapping phys flags bound room
  exact ⟨vmm, .vmmMap bound (run fuel (Nat.le_refl _))⟩

theorem served (ascending : kernel.vmm.pmm.Ascending lead limit) (h : Nat) (positive : 0 < heapPages n)
    (room : lead + heapPages n + 1 ≤ limit) :
    ∃ fuel after, (∀ larger, fuel ≤ larger → Memory.heapAlloc larger h n kernel =
        .done ((higherHalf (pageAddress lead) + sizeofHeapBlock) % 2 ^ 32) after) ∧
      after.vmm.pmm.Ascending
        (if kernel.vmm.tree.root (higherHalf (pageAddress lead) >>> 22) = none then lead + heapPages n + 1
          else lead + heapPages n) limit := by
  obtain ⟨first, pmm, alloc, following⟩ := ascending.alloc positive (Nat.le_of_succ_le room)
  have moved : { kernel.vmm with pmm }.pmm.Ascending (lead + heapPages n) limit := following
  obtain ⟨second, vmm, map, last, _⟩ := moved.mapping (physical (higherHalf (pageAddress lead)))
    (ptePresent ||| pteWritable) (higherHalf_lt (pageAddress lead)) room
  have allocs : ∀ larger, max first second ≤ larger →
      Memory.pmmAlloc larger (heapPages n) kernel.vmm.pmm = .done (pageAddress lead) pmm :=
    fun larger more => alloc larger ((Nat.le_max_left _ _).trans more)
  obtain ⟨after, same, run⟩ := heapAlloc_returns h allocs
    fun larger more => map larger ((Nat.le_max_right _ _).trans more)
  exact ⟨_, after, run, same ▸ last⟩

theorem kmalloc (ascending : kernel.vmm.pmm.Ascending lead limit)
    (size : n + sizeofHeapBlock + 4095 < 2 ^ 32) (room : lead + heapPages n + 1 ≤ limit) :
    ∃ fuel after, (∀ larger, fuel ≤ larger →
        Memory.kmalloc larger n kernel = .done ((higherHalf (pageAddress lead) + sizeofHeapBlock) % 2 ^ 32) after) ∧
      after.vmm.pmm.Ascending
        (if kernel.vmm.tree.root (higherHalf (pageAddress lead) >>> 22) = none then lead + heapPages n + 1
          else lead + heapPages n) limit :=
  ascending.served kernel.kernelHeap (heapPages_pos size) room

theorem heapAlloc (ascending : system.kernel.vmm.pmm.Ascending lead limit)
    (size : n + sizeofHeapBlock + 4095 < 2 ^ 32) (room : lead + heapPages n + 1 ≤ limit) :
    ∃ after, Makes system (.heapAlloc n)
        ⟨after, .block ⟨(higherHalf (pageAddress lead) + sizeofHeapBlock) % 2 ^ 32, n⟩ :: system.held⟩ ∧
      after.vmm.pmm.Ascending
        (if system.Vacant (higherHalf (pageAddress lead)) then lead + heapPages n + 1 else lead + heapPages n)
        limit := by
  obtain ⟨fuel, after, run, last⟩ := ascending.kmalloc size room
  exact ⟨after, .heapAlloc size (run fuel (Nat.le_refl _)), last⟩

theorem pair (ascending : pmm.Ascending lead limit) (room : lead + 2 ≤ limit) :
    ∃ fuel first second, Memory.pmmAlloc fuel 1 pmm = .done (pageAddress lead) first ∧
      Memory.pmmAlloc fuel 1 first = .done (pageAddress (lead + 1)) second ∧ second.Ascending (lead + 2) limit := by
  obtain ⟨left, first, alloc, following⟩ := ascending.alloc Nat.one_pos (Nat.le_of_succ_le room)
  obtain ⟨right, second, again, ends⟩ := following.alloc Nat.one_pos room
  exact ⟨max left right, first, second, alloc _ (Nat.le_max_left _ _), again _ (Nat.le_max_right _ _), ends⟩

theorem heapCreate (ascending : kernel.vmm.pmm.Ascending lead limit) (room : lead + 2 ≤ limit) :
    ∃ fuel after, Memory.heapCreate fuel kernel = .done (pageAddress lead) after ∧
      after.vmm.pmm.Ascending (lead + 2) limit := by
  obtain ⟨fuel, first, second, alloc, again, ends⟩ := ascending.pair room
  obtain ⟨after, run, same⟩ := heapCreate_returns alloc again
  exact ⟨fuel, after, run, same ▸ ends⟩

theorem mallocInit (ascending : system.kernel.vmm.pmm.Ascending lead limit)
    (unheld : system.held = []) (room : lead + 2 ≤ limit) :
    ∃ after, Makes system .mallocInit
        ⟨after, [.heap (after.head after.kernelHeap), .heap after.kernelHeap]⟩ ∧
      after.vmm.pmm.Ascending (lead + 2) limit := by
  obtain ⟨fuel, first, second, alloc, again, ends⟩ := ascending.pair room
  obtain ⟨after, run, same⟩ := mallocInit_returns alloc again
  have makes : Makes system .mallocInit _ := .mallocInit (by simp [unheld]) run
  rw [unheld] at makes
  exact ⟨after, makes, same ▸ ends⟩

theorem pmmAlloc (ascending : system.kernel.vmm.pmm.Ascending lead limit) (count : Nat) (positive : 0 < count)
    (room : lead + count ≤ limit) :
    ∃ pmm, Makes system (.pmmAlloc count)
        ⟨system.kernel.withPmm pmm, .raw ⟨pageAddress lead, count⟩ :: system.held⟩ ∧
      pmm.Ascending (lead + count) limit := by
  obtain ⟨fuel, pmm, alloc, following⟩ := ascending.alloc positive room
  exact ⟨pmm, .pmmAlloc positive (alloc fuel (Nat.le_refl _)), following⟩

end Pmm.Ascending

/-! The sample machine, from the moment paging is on -/

theorem pcMap_ascending (lenLow : Nat) (word : lenLow < 2 ^ 32) (aligned : lenLow % 4096 = 0)
    (enough : 0x140000 ≤ lenLow) (below : lenLow + bitmapSizeOf (pcRegion lenLow word) ≤ 0xFFF00000)
    (covered : lenLow / 4096 ≤ 8 * bitmapSizeOf (pcRegion lenLow word)) (memory : Bitmap) :
    ∃ booted, pmmInstall (2 ^ 20 + 2) (pcInfo lenLow word) 0x220000 (Pmm.initial memory) = .done () booted ∧
      bitmapGet booted.bitmap 0 = true ∧
      booted.Ascending (0x220 + bitmapSizeOf (pcRegion lenLow word) / 4096) (lenLow / 4096) := by
  obtain ⟨booted, install, hint, pageCount, reserved, free, _⟩ := pcMap_bits lenLow word aligned enough below memory
  refine ⟨booted, install, reserved 0 (Nat.add_pos_left (by decide) _), ?_⟩
  refine ⟨hint ▸ Nat.zero_le _, fun page _ => reserved page, ?_, Nat.le_of_eq pageCount.symm,
    Nat.add_pos_left (by decide) _⟩
  intro page lower upper
  exact free page lower (by omega) (by omega)

/-- The machine with `lenLow` bytes of extended memory once `smallImage` has
switched paging on. -/
def pcSystem (booted : Pmm) : System where
  kernel := {
    vmm := fillDirectory smallImage
      { pmm := booted, pageDirectory := fun _ => 0, memory := fun _ _ => 0, derefs := [] }
    head := fun _ => 0
    block := fun _ => { next := 0, prev := 0, size := 0, magic := 0 }
    kernelHeap := 0 }
  held := []

theorem pcSystem_paging (lenLow : Nat) (word : lenLow < 2 ^ 32) (aligned : lenLow % 4096 = 0)
    (enough : 0x140000 ≤ lenLow) (below : lenLow + bitmapSizeOf (pcRegion lenLow word) ≤ 0xFFF00000)
    (covered : lenLow / 4096 ≤ 8 * bitmapSizeOf (pcRegion lenLow word)) :
    ∃ booted, PagingOn (pcInfo lenLow word) 0x220000 smallImage (pcSystem booted) ∧
      bitmapGet booted.bitmap 0 = true ∧ booted.Ascending (0x220 + bitmapSizeOf (pcRegion lenLow word) / 4096) (lenLow / 4096) := by
  have map := pcMap_boot lenLow word aligned enough (by omega)
  obtain ⟨booted, install, reserved, ascending⟩ := pcMap_ascending lenLow word aligned enough below covered fun _ => 0
  have table : 0x219 ∈ booted.used := by
    refine pmmInstall_keeps_kernel map install ?_ (by decide) ?_
    · change 0x100000 ≤ 0x219 * 4096
      decide
    · have size := bitmapSizeOf_aligned (pcRegion lenLow word)
      omega
  have installed : ∃ (fuel : Nat) (memory : Bitmap) (pmm : Pmm) (vmm : Vmm),
      pmmInstall fuel (pcInfo lenLow word) 0x220000 (Pmm.initial memory) = .done () pmm ∧
      (pcSystem booted).kernel.vmm = fillDirectory smallImage { vmm with pmm, derefs := [] } :=
    ⟨_, _, booted, ⟨booted, fun _ => 0, fun _ _ => 0, []⟩, install, rfl⟩
  exact ⟨booted, ⟨installed, by decide, rfl, table, rfl⟩, reserved, ascending⟩

theorem pcSystem_small : ∃ booted, PagingOn (pcInfo 0x7EE0000 (by decide)) 0x220000 smallImage (pcSystem booted) ∧
    bitmapGet booted.bitmap 0 = true ∧ (pcSystem booted).kernel.vmm.pmm.Ascending 0x221 0x7EE0 := by
  obtain ⟨booted, paging, reserved, ascending⟩ :=
    pcSystem_paging 0x7EE0000 (by decide) (by decide) (by decide) (by decide) (by decide)
  exact ⟨booted, paging, reserved, ascending⟩

end BarrelOS.Memory
