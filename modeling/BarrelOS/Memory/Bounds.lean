import BarrelOS.Memory.Ownership
import BarrelOS.Memory.Usable

namespace BarrelOS.Memory

open BarrelOS.Boot BarrelOS.Data BarrelOS.Semantics

variable {fuel count kernelEnd : Nat} {entry region : MultibootMemoryMap}
  {front back entries : List MultibootMemoryMap} {before pmm after : Pmm} {mbd : MultibootInfo}

/-- Every bit index handed to the bitmap functions so far lies in the bitmap. -/
def WithinBitmap (pmm : Pmm) : Prop := ∀ bit ∈ pmm.touched, bit < 8 * pmm.bitmapSize

/-! `pmm_install` -/

/-- The last page the marking loop clears for an entry with a page to clear. -/
def lastMarked (entry : MultibootMemoryMap) : Nat :=
  min (entry.addrLow + (entry.lenLow - 1) / 4096 * 4096) (2 ^ 32 - 1) / 4096

theorem Marks.le_lastMarked {page : Nat} (marks : Marks entry page) : page ≤ lastMarked entry := by
  obtain ⟨_, offset, bound, step, same⟩ := marks
  unfold lastMarked
  omega

theorem clearRegion_touched {o : Nat} (aligned : o % 4096 = 0) :
    ∀ bit ∈ (clearRegion entry fuel o pmm).after.touched, bit ∈ pmm.touched ∨ Marks entry bit := by
  induction fuel generalizing o pmm with
  | zero => exact fun bit member => .inl member
  | succ fuel ih =>
      intro bit member
      rw [clearRegion] at member
      by_cases more : o < entry.lenLow
      · rw [if_pos more] at member
        rcases ih (by omega) bit member with earlier | marks
        · rcases mem_touched_markPage.mp earlier with earlier | ⟨usable, same⟩
          · exact .inl earlier
          · exact .inr ⟨usable, o, more, aligned, same⟩
        · exact .inr marks
      · rw [if_neg more] at member
        exact .inl member

theorem clearRegion_bitmapSize {o : Nat} :
    (clearRegion entry fuel o pmm).after.bitmapSize = pmm.bitmapSize := by
  induction fuel generalizing o pmm with
  | zero => rfl
  | succ fuel ih =>
      rw [clearRegion]
      split
      · exact ih.trans markPage_sameWords.bitmapSize
      · rfl

theorem clearRegions_touched :
    ∀ bit ∈ (clearRegions fuel entries pmm).after.touched,
      bit ∈ pmm.touched ∨ ∃ entry ∈ entries, Marks entry bit := by
  induction entries generalizing pmm with
  | nil => exact fun bit member => .inl member
  | cons entry rest ih =>
      intro bit member
      have head : ∀ bit ∈ (clearRegion entry fuel 0 pmm).after.touched,
          bit ∈ pmm.touched ∨ Marks entry bit := clearRegion_touched rfl
      rw [clearRegions] at member
      cases outcome : clearRegion entry fuel 0 pmm with
      | done _ middle =>
          rw [outcome] at member head
          rcases ih bit member with earlier | ⟨other, listed, marks⟩
          · rcases head bit earlier with earlier | marks
            · exact .inl earlier
            · exact .inr ⟨entry, by simp, marks⟩
          · exact .inr ⟨other, by simp [listed], marks⟩
      | _ =>
          rw [outcome] at member head
          rcases head bit member with earlier | marks
          · exact .inl earlier
          · exact .inr ⟨entry, by simp, marks⟩

theorem clearRegions_bitmapSize :
    (clearRegions fuel entries pmm).after.bitmapSize = pmm.bitmapSize := by
  induction entries generalizing pmm with
  | nil => rfl
  | cons entry rest ih =>
      have head : (clearRegion entry fuel 0 pmm).after.bitmapSize = pmm.bitmapSize :=
        clearRegion_bitmapSize
      rw [clearRegions]
      cases outcome : clearRegion entry fuel 0 pmm with
      | done _ middle =>
          rw [outcome] at head
          exact ih.trans head
      | _ =>
          rw [outcome] at head
          exact head

/-- The last page of every usable entry, the kernel's one in its adjusted form,
has a bit in the bitmap. -/
def InstallWithin (front : List MultibootMemoryMap) (region : MultibootMemoryMap)
    (back : List MultibootMemoryMap) (kernelEnd : Nat) : Prop :=
  ∀ entry ∈ front ++ adjustRegion region kernelEnd (bitmapSizeOf region) :: back,
    entry.Usable → 0 < entry.lenLow → lastMarked entry < 8 * bitmapSizeOf region

theorem InstallWithin.marks {page : Nat} (within : InstallWithin front region back kernelEnd)
    (listed : entry ∈ front ++ adjustRegion region kernelEnd (bitmapSizeOf region) :: back)
    (marks : Marks entry page) : page < 8 * bitmapSizeOf region := by
  have nonempty : 0 < entry.lenLow := by
    obtain ⟨_, offset, bound, _⟩ := marks
    omega
  exact Nat.lt_of_le_of_lt marks.le_lastMarked (within entry listed marks.1 nonempty)

theorem pmmInstall_within (kernel : KernelRegion mbd.mmap front region back)
    (fresh : pmm.touched = []) (within : InstallWithin front region back kernelEnd) :
    WithinBitmap (pmmInstall fuel mbd kernelEnd pmm).after := by
  by_cases valid : mbd.flags >>> 6 &&& 0x1 = 0
  · simp [pmmInstall, valid, WithinBitmap, Outcome.after, fresh]
  · rw [pmmInstall_eq valid kernel]
    intro bit member
    rw [clearRegions_bitmapSize]
    rcases clearRegions_touched bit member with earlier | ⟨entry, listed, marks⟩
    · rw [prepareBitmap, fresh] at earlier
      cases earlier
    · exact within.marks listed marks

/-! `pmm_alloc` -/

/-- The search stops at `pmm_page_count` before it leaves the bitmap. -/
def StopsWithin (pmm : Pmm) : Prop :=
  pmm.lastPage = pmm.pageCount ∨
    pmm.lastPage < pmm.pageCount ∧ pmm.pageCount ≤ 8 * pmm.bitmapSize ∧
      (bitmapGet pmm.bitmap (pmm.pageCount - 1) = true ∨
        pmm.pageCount < 8 * pmm.bitmapSize ∧ bitmapGet pmm.bitmap pmm.pageCount = true)

/-- `count` pages in a row, from the hint on and below `limit`, are clear. -/
def RoomBelow (limit : Nat) (pmm : Pmm) (count : Nat) : Prop :=
  ∃ first, pmm.lastPage ≤ first ∧ first + count ≤ limit ∧
    ∀ offset < count, bitmapGet pmm.bitmap (first + offset) = false

def SearchWithin (pmm : Pmm) (count : Nat) : Prop :=
  StopsWithin pmm ∨ RoomBelow (8 * pmm.bitmapSize) pmm count

/-- The search stays in the bitmap, and so does the second one where the first
finds room at page 0. -/
def AllocWithin (pmm : Pmm) (count : Nat) : Prop :=
  SearchWithin pmm count ∧
    (pmm.lastPage = 0 → (∀ offset < count, bitmapGet pmm.bitmap offset = false) →
      SearchWithin ((setPages 0 count pmm).withLastPage 0) count)

/-- The words of a `Pmm` that `pmm_install` has sized for a 32-bit region. -/
structure Sized (pmm : Pmm) : Prop where
  pageCount : pmm.pageCount < 2 ^ 20
  bitmapSize : 8 * pmm.bitmapSize ≤ 2 ^ 20

theorem Sized.bound (sized : Sized pmm) : 8 * pmm.bitmapSize ≤ 2 ^ 20 := sized.bitmapSize

theorem StopsWithin.stops (sized : Sized pmm) (stops : StopsWithin pmm) : pmm.Stops := by
  rcases stops with here | ⟨below, _, set⟩
  · exact .inl here
  · refine .inr ⟨below, ?_⟩
    have bound := sized.pageCount
    unfold Pmm.Clear
    rw [Nat.mod_eq_of_lt (by omega), Nat.mod_eq_of_lt (by omega)]
    rcases set with set | ⟨_, set⟩
    · exact .inl (by simp [set])
    · exact .inr (by simp [set])

theorem RoomBelow.window {limit : Nat} (physical : limit ≤ 2 ^ 32) (room : RoomBelow limit pmm count) :
    ∃ first, pmm.lastPage ≤ first ∧ first + count ≤ limit ∧ Window pmm.Clear first count := by
  obtain ⟨first, reached, below, clear⟩ := room
  refine ⟨first, reached, below, ?_⟩
  intro offset bound
  rw [Pmm.Clear, Nat.mod_eq_of_lt (by omega)]
  exact clear offset bound

theorem SearchWithin.searching {position pages : Nat} (sized : Sized before)
    (within : SearchWithin before count) (searching : Searching before count position pages pmm)
    (elsewhere : pmm.lastPage ≠ pmm.pageCount) : position + pages < 8 * before.bitmapSize := by
  have unfinished := searching.scan.unfinished
  have word := sized.pageCount
  rcases within with stops | room
  · have below := searching.below_limit (stops.stops sized) elsewhere
    rcases stops with here | ⟨_, limit, set⟩
    · exact absurd searching.scan.from_start (by omega)
    · rcases set with set | ⟨inside, _⟩
      · by_contra beyond
        have clear := searching.scan.window (before.pageCount - 1 - position) (by omega)
        rw [Nat.add_sub_cancel' (by omega), Pmm.Clear, Nat.mod_eq_of_lt (by omega), set] at clear
        contradiction
      · omega
  · have bound := sized.bound
    obtain ⟨first, reached, fits, window⟩ := room.window (by omega)
    have passed := searching.scan.le_window reached window
    omega

theorem SearchWithin.touched (fuel : Nat) (sized : Sized before) (positive : 0 < count)
    (within : SearchWithin before count) (old : WithinBitmap before) :
    ∀ bit ∈ (pmmFindPages fuel count before).after.touched, bit < 8 * before.bitmapSize := by
  refine pmmFindPages_touched positive old ?_
  intro position pages pmm searching elsewhere offset bound
  have inside := within.searching sized searching elsewhere
  have limit := sized.bound
  omega

theorem SearchWithin.taken {position : Nat} (sized : Sized before) (positive : 0 < count)
    (within : SearchWithin before count) (taken : Taken before count position after) :
    position + count ≤ 8 * before.bitmapSize := by
  have word := sized.pageCount
  rcases within with stops | room
  · have below := taken.limit (stops.stops sized)
    rcases stops with here | ⟨_, limit, _⟩
    · exact absurd taken.first.from_start (by omega)
    · omega
  · have bound := sized.bound
    obtain ⟨first, reached, fits, window⟩ := room.window (by omega)
    have early := taken.first.le reached window
    omega

theorem Taken.sized {position : Nat} (sized : Sized before)
    (taken : Taken before count position after) : Sized after where
  pageCount := taken.pageCount ▸ sized.pageCount
  bitmapSize := taken.bitmapSize ▸ sized.bitmapSize

/-- The search for a second window starts from the first 0 pages reserved. -/
theorem SearchWithin.congr {left right : Pmm} (within : SearchWithin left count)
    (bits : right.bitmap = left.bitmap) (hint : right.lastPage = left.lastPage)
    (pageCount : right.pageCount = left.pageCount)
    (bitmapSize : right.bitmapSize = left.bitmapSize) : SearchWithin right count := by
  unfold SearchWithin StopsWithin RoomBelow at *
  rwa [bits, hint, pageCount, bitmapSize]

theorem AllocWithin.retry {lowest : Nat} {found : Pmm} (sized : Sized before) (positive : 0 < count)
    (within : AllocWithin before count) (taken : Taken before count lowest found)
    (wrapped : lowest % 2 ^ 32 = 0) : SearchWithin (found.withLastPage 0) count := by
  have inside := within.1.taken sized positive taken
  have limit := sized.bound
  have zero : lowest = 0 := by omega
  subst zero
  have hint : before.lastPage = 0 := Nat.le_zero.mp taken.first.from_start
  have clear : ∀ offset < count, bitmapGet before.bitmap offset = false := by
    intro offset bound
    have free := taken.first.window offset bound
    rw [Pmm.Clear, Nat.zero_add, Nat.mod_eq_of_lt (by omega)] at free
    exact free
  have bits : found.bitmap = (setPages 0 count before).bitmap := by
    apply bitmap_ext
    intro bit
    rw [Bool.eq_iff_iff, taken.bits, bitmapGet_setPages]
  exact (within.2 hint clear).congr bits rfl (by simp [taken.pageCount]) (by simp [taken.bitmapSize])

theorem AllocWithin.touched (fuel : Nat) (sized : Sized before) (positive : 0 < count)
    (within : AllocWithin before count) (old : WithinBitmap before) :
    ∀ bit ∈ (pmmAlloc fuel count before).after.touched, bit < 8 * before.bitmapSize := by
  have first := within.1.touched fuel sized positive old
  unfold pmmAlloc
  cases search : pmmFindPages fuel count before with
  | done page found =>
      rw [search] at first
      rw [Outcome.done_bind]
      obtain ⟨position, rfl, taken⟩ := pmmFindPages_done positive search
      split
      · rename_i wrapped
        have size : before.bitmapSize = found.bitmapSize := taken.bitmapSize.symm
        have retry := within.retry sized positive taken wrapped
        have resized : Sized (found.withLastPage 0) :=
          ⟨(taken.sized sized).pageCount, (taken.sized sized).bitmapSize⟩
        have again := retry.touched fuel resized positive (by
          intro bit member
          exact size ▸ first bit member)
        rw [size]
        cases second : pmmFindPages fuel count (found.withLastPage 0) with
        | _ =>
            rw [second] at again
            exact again
      · exact first
  | _ =>
      rw [search] at first
      exact first

theorem AllocWithin.done {ptr : Nat} (sized : Sized before) (positive : 0 < count)
    (within : AllocWithin before count) (run : pmmAlloc fuel count before = .done ptr after) :
    ptr / 4096 + count ≤ 8 * before.bitmapSize ∧ Sized after ∧
      after.bitmapSize = before.bitmapSize := by
  have limit := sized.bound
  obtain ⟨middle, position, taken, rfl, ⟨rfl, _⟩ | ⟨lowest, found, first, wrapped, rfl⟩⟩ :=
    pmmAlloc_done positive run
  · have inside := within.1.taken sized positive taken
    exact ⟨by omega, taken.sized sized, taken.bitmapSize⟩
  · have resized : Sized (found.withLastPage 0) :=
      ⟨(first.sized sized).pageCount, (first.sized sized).bitmapSize⟩
    have inside := (within.retry sized positive first wrapped).taken resized positive taken
    have size := first.bitmapSize
    have same := taken.bitmapSize
    simp only [Pmm.withLastPage_bitmapSize] at inside same
    exact ⟨by omega, taken.sized resized, same.trans size⟩

/-! Whole runs -/

/-- Before every `pmm_alloc` of the run the search has room or stops inside the
bitmap. -/
def AllocsWithin (before : Pmm) (count : Nat) (_ : Pmm) : Prop := AllocWithin before count

structure Confined (start : Pmm) (holding : Holding) : Prop where
  sized : Sized holding.pmm
  bitmapSize : holding.pmm.bitmapSize = start.bitmapSize
  touched : WithinBitmap holding.pmm
  live : ∀ owner ∈ holding.live, owner.ptr / 4096 + owner.count ≤ 8 * holding.pmm.bitmapSize

theorem Confined.step {start : Pmm} {held next : Holding} (confined : Confined start held)
    (step : PmmStep AllocsWithin held next) : Confined start next := by
  obtain ⟨sized, size, touched, live⟩ := confined
  cases step with
  | @alloc fuel count ptr pmm after live' positive run granted =>
      have inside := AllocWithin.touched fuel sized positive granted touched
      obtain ⟨fits, resized, same⟩ := AllocWithin.done sized positive granted run
      refine ⟨resized, same.trans size, ?_, ?_⟩
      · intro bit member
        have bound := inside bit (by rw [run]; exact member)
        change bit < 8 * after.bitmapSize
        omega
      · intro owner member
        change owner.ptr / 4096 + owner.count ≤ 8 * after.bitmapSize
        rw [same]
        rcases List.mem_cons.mp member with rfl | member
        · exact fits
        · exact live owner member
  | @free owner pmm live' member =>
      have bound := live owner member
      refine ⟨?_, by simpa using size, ?_, ?_⟩
      · exact ⟨by simpa using sized.pageCount, by simpa using sized.bitmapSize⟩
      · intro bit cleared
        simp only [pmmFree_bitmapSize]
        rcases mem_touched_clearPages.mp cleared with earlier | ⟨offset, inside, rfl⟩
        · exact touched bit earlier
        · have limit := sized.bound
          simp only at limit bound
          omega
      · intro other kept
        simpa using live other (List.mem_of_mem_erase kept)

theorem Confined.run {start : Pmm} {held next : Holding} (confined : Confined start held)
    (run : PmmRuns AllocsWithin held next) : Confined start next := by
  induction run with
  | refl => exact confined
  | tail _ step ih => exact ih.step step

theorem pmmInstall_sized {memory : Bitmap} (kernel : KernelRegion mbd.mmap front region back)
    (run : pmmInstall fuel mbd kernelEnd (Pmm.initial memory) = .done () after) : Sized after := by
  obtain ⟨front', region', back', kernel', cleared⟩ := pmmInstall_done run
  obtain ⟨rfl, rfl, rfl⟩ := kernel.unique kernel'
  have small := bitmapSizeOf_le region
  have word := region.lenLow_lt
  have pageCount : after.pageCount = region.lenLow / 4096 := cleared.words.pageCount
  have bitmapSize : after.bitmapSize = bitmapSizeOf region := cleared.words.bitmapSize
  exact ⟨by omega, by omega⟩

/-- No call of a run touches a bit outside the bitmap when the memory map ends
inside it and every search does. -/
theorem pmm_touches_bitmap_only {memory : Bitmap} {booted : Pmm} {holding : Holding}
    (kernel : KernelRegion mbd.mmap front region back)
    (within : InstallWithin front region back kernelEnd)
    (install : pmmInstall fuel mbd kernelEnd (Pmm.initial memory) = .done () booted)
    (run : PmmRuns AllocsWithin ⟨booted, []⟩ holding) :
    WithinBitmap (pmmInstall fuel mbd kernelEnd (Pmm.initial memory)).after ∧
    WithinBitmap holding.pmm ∧
    (∀ fuel count, 0 < count → AllocWithin holding.pmm count →
      ∀ bit ∈ (pmmAlloc fuel count holding.pmm).after.touched, bit < 8 * holding.pmm.bitmapSize) ∧
    (∀ owner ∈ holding.live, WithinBitmap (pmmFree owner.ptr owner.count holding.pmm)) := by
  have installed : WithinBitmap (pmmInstall fuel mbd kernelEnd (Pmm.initial memory)).after :=
    pmmInstall_within kernel rfl within
  have booting : WithinBitmap booted := by rwa [install] at installed
  have confined : Confined booted ⟨booted, []⟩ :=
    ⟨pmmInstall_sized kernel install, rfl, booting, by simp⟩
  have reached := confined.run run
  refine ⟨installed, reached.touched, ?_, ?_⟩
  · intro fuel count positive granted
    exact granted.touched fuel reached.sized positive reached.touched
  · intro owner member
    exact (reached.step (.free member)).touched

/-- A machine whose overrun still has bits in the bitmap, and a call for its
first page. -/
theorem pmm_touches_bitmap_only_pc :
    ∃ booted, pmmInstall (2 ^ 20 + 2) (pcInfo 0x7EE0000 (by decide)) 0x220000
        (Pmm.initial fun _ => 0) = .done () booted ∧ WithinBitmap booted ∧
      ∀ fuel, ∀ bit ∈ (pmmAlloc fuel 1 booted).after.touched, bit < 8 * booted.bitmapSize := by
  have map := pcMap_boot 0x7EE0000 (by decide) (by decide) (by decide) (by decide)
  obtain ⟨booted, install, hint, _, size, reserved, free⟩ := pcMap_booted fun _ => 0
  have within : InstallWithin [{ addrLow := 0, lenLow := 0x9F000, type := multibootMemoryAvailable }]
      (pcRegion 0x7EE0000 (by decide)) [] 0x220000 := by
    intro entry listed usable _
    rw [List.cons_append, List.nil_append, List.mem_cons, List.mem_singleton] at listed
    rcases listed with rfl | rfl
    · exact absurd usable.2 (by decide)
    · decide
  have room : AllocWithin booted 1 := by
    constructor
    · refine .inr ⟨0x221, by omega, by omega, ?_⟩
      intro offset bound
      exact free _ (by omega) (by omega)
    · intro _ clear
      have low := clear 0 (by decide)
      rw [reserved 0 (by decide)] at low
      cases low
  obtain ⟨_, within, alloc, _⟩ := pmm_touches_bitmap_only map.toKernelRegion within install .refl
  exact ⟨booted, install, within, fun fuel => alloc fuel 1 (by decide) room⟩

/-- A region of 32768 pages gets a bitmap of 32768 bits, and has pages behind
page 32768. -/
theorem pmmInstall_leaves_bitmap :
    BootMap (pcMap 0x8000000 (by decide)) 0x220000
      [{ addrLow := 0, lenLow := 0x9F000, type := multibootMemoryAvailable }]
      (pcRegion 0x8000000 (by decide)) [] ∧
    ∃ booted, pmmInstall (2 ^ 20 + 2) (pcInfo 0x8000000 (by decide)) 0x220000
        (Pmm.initial fun _ => 0) = .done () booted ∧
      33000 ∈ booted.touched ∧ 8 * booted.bitmapSize = 32768 := by
  have map := pcMap_boot 0x8000000 (by decide) (by decide) (by decide) (by decide)
  obtain ⟨booted, install⟩ :=
    pcMap_install 0x8000000 (by decide) (by decide) (by decide) (by decide) fun _ => 0
  obtain ⟨_, _, _, kernel, cleared⟩ := pmmInstall_done install
  obtain ⟨rfl, rfl, rfl⟩ := map.toKernelRegion.unique kernel
  have marks : Marks (adjustRegion (pcRegion 0x8000000 (by decide)) 0x220000
      (bitmapSizeOf (pcRegion 0x8000000 (by decide)))) 33000 :=
    ⟨by decide, (33000 - 0x221) * 4096, by decide, by decide, by decide⟩
  refine ⟨map, booted, install, (cleared.touched _).mpr (.inr ⟨_, by simp, marks⟩), ?_⟩
  exact congrArg (8 * ·) cleared.words.bitmapSize

end BarrelOS.Memory
