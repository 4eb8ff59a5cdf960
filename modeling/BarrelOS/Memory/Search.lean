import BarrelOS.Data.Window
import BarrelOS.Memory.Pmm

namespace BarrelOS.Memory

open BarrelOS.Data BarrelOS.Semantics

variable {fuel count pages position first : Nat} {pmm before after : Pmm}

/-- The bit of a page is clear. Page numbers are 32-bit words. -/
def Pmm.Clear (pmm : Pmm) (page : Nat) : Prop := bitmapGet pmm.bitmap (page % 2 ^ 32) = false

@[simp] theorem bitmapGet_setPages (first count : Nat) (pmm : Pmm) (bit : Nat) :
    bitmapGet (setPages first count pmm).bitmap bit = true ↔
      bitmapGet pmm.bitmap bit = true ∨ ∃ offset < count, bit = (first + offset) % 2 ^ 32 := by
  induction count with
  | zero => simp [setPages]
  | succ count ih =>
      simp only [setPages, Pmm.set, bitmapGet_bitmapSet, Bool.or_eq_true, decide_eq_true_eq, ih,
        Nat.lt_succ_iff_lt_or_eq, or_and_right, exists_or, exists_eq_left, or_assoc]

@[simp] theorem bitmapGet_clearPages (page count : Nat) (pmm : Pmm) (bit : Nat) :
    bitmapGet (clearPages page count pmm).bitmap bit = true ↔
      bitmapGet pmm.bitmap bit = true ∧ ∀ offset < count, bit ≠ (page + offset) % 2 ^ 32 := by
  induction count with
  | zero => simp [clearPages]
  | succ count ih =>
      simp only [clearPages, Pmm.clear, bitmapGet_bitmapClear, Bool.and_eq_true,
        decide_eq_true_eq, ih, Nat.lt_succ_iff_lt_or_eq, and_assoc]
      constructor
      · rintro ⟨set, earlier, last⟩
        refine ⟨set, ?_⟩
        rintro offset (bound | rfl)
        · exact earlier offset bound
        · exact last
      · rintro ⟨set, all⟩
        exact ⟨set, fun offset bound => all offset (.inl bound), all count (.inr rfl)⟩

/-! Marking pages changes the bitmap and the record of touched bits only. -/

@[simp] theorem setPages_lastPage (first count : Nat) (pmm : Pmm) :
    (setPages first count pmm).lastPage = pmm.lastPage := by
  induction count with
  | zero => rfl
  | succ count ih => exact ih

@[simp] theorem setPages_pageCount (first count : Nat) (pmm : Pmm) :
    (setPages first count pmm).pageCount = pmm.pageCount := by
  induction count with
  | zero => rfl
  | succ count ih => exact ih

@[simp] theorem setPages_bitmapSize (first count : Nat) (pmm : Pmm) :
    (setPages first count pmm).bitmapSize = pmm.bitmapSize := by
  induction count with
  | zero => rfl
  | succ count ih => exact ih

@[simp] theorem clearPages_lastPage (page count : Nat) (pmm : Pmm) :
    (clearPages page count pmm).lastPage = pmm.lastPage := by
  induction count with
  | zero => rfl
  | succ count ih => exact ih

@[simp] theorem clearPages_pageCount (page count : Nat) (pmm : Pmm) :
    (clearPages page count pmm).pageCount = pmm.pageCount := by
  induction count with
  | zero => rfl
  | succ count ih => exact ih

@[simp] theorem clearPages_bitmapSize (page count : Nat) (pmm : Pmm) :
    (clearPages page count pmm).bitmapSize = pmm.bitmapSize := by
  induction count with
  | zero => rfl
  | succ count ih => exact ih

theorem mem_touched_setPages {bit : Nat} :
    bit ∈ (setPages first count pmm).touched ↔
      bit ∈ pmm.touched ∨ ∃ offset < count, bit = (first + offset) % 2 ^ 32 := by
  induction count with
  | zero => simp [setPages]
  | succ count ih =>
      simp only [setPages, Pmm.set, List.mem_cons, ih, Nat.lt_succ_iff_lt_or_eq, or_and_right,
        exists_or, exists_eq_left]
      exact or_comm.trans or_assoc

theorem mem_touched_clearPages {page bit : Nat} :
    bit ∈ (clearPages page count pmm).touched ↔
      bit ∈ pmm.touched ∨ ∃ offset < count, bit = (page + offset) % 2 ^ 32 := by
  induction count with
  | zero => simp [clearPages]
  | succ count ih =>
      simp only [clearPages, Pmm.clear, List.mem_cons, ih, Nat.lt_succ_iff_lt_or_eq, or_and_right,
        exists_or, exists_eq_left]
      exact or_comm.trans or_assoc

/-! The loop rule -/

/-- The bit the search reads with `pages` clear bits in a row. -/
def Pmm.nextBit (pmm : Pmm) (pages : Nat) : Nat := (pmm.lastPage + pages) % 2 ^ 32

/-- The globals after a search has met a set bit. -/
def Pmm.skip (pmm : Pmm) (pages : Nat) : Pmm :=
  (pmm.probe (pmm.nextBit pages)).withLastPage (pmm.lastPage + stride pages)

/-- The globals after a search has met the last clear bit it needs. -/
def Pmm.take (pmm : Pmm) (pages : Nat) : Pmm :=
  let marked := setPages pmm.lastPage (pages + 1) (pmm.probe (pmm.nextBit pages))
  marked.withLastPage (marked.lastPage + (pages + 1))

theorem findPagesLoop_grow (unfinished : pages + 1 < count) (elsewhere : pmm.lastPage ≠ pmm.pageCount)
    (read : bitmapGet pmm.bitmap (pmm.nextBit pages) = false) :
    findPagesLoop count (fuel + 1) pages pmm.lastPage pmm =
      findPagesLoop count fuel (pages + 1) pmm.lastPage (pmm.probe (pmm.nextBit pages)) := by
  have clear : bitmapGet pmm.bitmap ((pmm.lastPage + pages) % 2 ^ 32) = false := read
  rw [findPagesLoop, if_pos (Nat.lt_of_succ_lt unfinished), if_neg elsewhere]
  simp only [if_pos clear, if_neg (Nat.ne_of_lt unfinished)]
  rfl

theorem findPagesLoop_skip (unfinished : pages < count) (elsewhere : pmm.lastPage ≠ pmm.pageCount)
    (read : bitmapGet pmm.bitmap (pmm.nextBit pages) = true) :
    findPagesLoop count (fuel + 1) pages pmm.lastPage pmm =
      findPagesLoop count fuel 0 (pmm.skip pages).lastPage (pmm.skip pages) := by
  have occupied : ¬ bitmapGet pmm.bitmap ((pmm.lastPage + pages) % 2 ^ 32) = false := by
    simpa [Pmm.nextBit] using read
  rw [findPagesLoop, if_pos unfinished, if_neg elsewhere]
  simp only [if_neg occupied]
  rfl

theorem findPagesLoop_take (unfinished : pages < count) (last : pages + 1 = count)
    (elsewhere : pmm.lastPage ≠ pmm.pageCount)
    (read : bitmapGet pmm.bitmap (pmm.nextBit pages) = false) :
    findPagesLoop count (fuel + 1) pages pmm.lastPage pmm = .done pmm.lastPage (pmm.take pages) := by
  have clear : bitmapGet pmm.bitmap ((pmm.lastPage + pages) % 2 ^ 32) = false := read
  rw [findPagesLoop, if_pos unfinished, if_neg elsewhere]
  simp only [if_pos clear, if_pos last]
  rfl

/-- What an invariant of the search loop says about how the search ends. -/
def SearchEnds (count : Nat) (Inv : Nat → Pmm → Prop) : Outcome Pmm Nat → Prop
  | .done first after => ∃ pages pmm, Inv pages pmm ∧ pages + 1 = count ∧
      pmm.lastPage ≠ pmm.pageCount ∧ bitmapGet pmm.bitmap (pmm.nextBit pages) = false ∧
      first = pmm.lastPage ∧ after = pmm.take pages
  | .panicked message after =>
      message = "out of memory" ∧ after.lastPage = after.pageCount ∧ ∃ pages, Inv pages after
  | .faulted _ => False
  | .running after => ∃ pages, Inv pages after

/-- Whatever both turns of the loop keep holds at the last turn. The run in
progress always starts at the hint. -/
theorem findPagesLoop_ends {Inv : Nat → Pmm → Prop}
    (unfinished : ∀ pages pmm, Inv pages pmm → pages < count)
    (grow : ∀ pages pmm, Inv pages pmm → pmm.lastPage ≠ pmm.pageCount →
      bitmapGet pmm.bitmap (pmm.nextBit pages) = false → pages + 1 < count →
      Inv (pages + 1) (pmm.probe (pmm.nextBit pages)))
    (skip : ∀ pages pmm, Inv pages pmm → pmm.lastPage ≠ pmm.pageCount →
      bitmapGet pmm.bitmap (pmm.nextBit pages) = true → Inv 0 (pmm.skip pages))
    (holds : Inv pages pmm) :
    SearchEnds count Inv (findPagesLoop count fuel pages pmm.lastPage pmm) := by
  induction fuel generalizing pages pmm with
  | zero => exact ⟨pages, holds⟩
  | succ fuel ih =>
      have bound := unfinished pages pmm holds
      by_cases limit : pmm.lastPage = pmm.pageCount
      · rw [findPagesLoop, if_pos bound, if_pos limit]
        exact ⟨rfl, limit, pages, holds⟩
      · cases read : bitmapGet pmm.bitmap (pmm.nextBit pages) with
        | true =>
            rw [findPagesLoop_skip bound limit read]
            exact ih (skip pages pmm holds limit read)
        | false =>
            by_cases last : pages + 1 = count
            · rw [findPagesLoop_take bound last limit read]
              exact ⟨pages, pmm, holds, last, limit, read, rfl, rfl⟩
            · have more : pages + 1 < count := by omega
              rw [findPagesLoop_grow more limit read]
              exact ih (grow pages pmm holds limit read more)

/-! What a search has established -/

/-- The search meets `pmm_page_count` on its way up from the hint: the hint is
there already, or one of the two bits around the limit is set. -/
def Pmm.Stops (pmm : Pmm) : Prop :=
  pmm.lastPage = pmm.pageCount ∨
    pmm.lastPage < pmm.pageCount ∧ (¬ pmm.Clear (pmm.pageCount - 1) ∨ ¬ pmm.Clear pmm.pageCount)

/-- The state of a search begun in `before`. `position` is the hint before it is
reduced to 32 bits. -/
structure Searching (before : Pmm) (count position pages : Nat) (pmm : Pmm) : Prop where
  bitmap : pmm.bitmap = before.bitmap
  pageCount : pmm.pageCount = before.pageCount
  bitmapSize : pmm.bitmapSize = before.bitmapSize
  hint : pmm.lastPage = position % 2 ^ 32
  scan : Scan before.Clear before.lastPage count position pages
  limit : before.Stops → position ≤ before.pageCount

namespace Searching

theorem initial (positive : 0 < count) :
    Searching before count before.lastPage 0 before where
  bitmap := rfl
  pageCount := rfl
  bitmapSize := rfl
  hint := (Nat.mod_eq_of_lt before.lastPage_lt).symm
  scan := Scan.initial positive
  limit := by
    rintro (here | ⟨below, _⟩)
    · exact Nat.le_of_eq here
    · exact Nat.le_of_lt below

theorem nextBit (searching : Searching before count position pages pmm) :
    pmm.nextBit pages = (position + pages) % 2 ^ 32 := by
  rw [Pmm.nextBit, searching.hint, Nat.mod_add_mod]

theorem clear_iff (searching : Searching before count position pages pmm) :
    bitmapGet pmm.bitmap (pmm.nextBit pages) = false ↔ before.Clear (position + pages) := by
  rw [searching.bitmap, searching.nextBit, Pmm.Clear]

theorem grow (searching : Searching before count position pages pmm)
    (read : bitmapGet pmm.bitmap (pmm.nextBit pages) = false) (unfinished : pages + 1 < count) :
    Searching before count position (pages + 1) (pmm.probe (pmm.nextBit pages)) where
  bitmap := searching.bitmap
  pageCount := searching.pageCount
  bitmapSize := searching.bitmapSize
  hint := searching.hint
  scan := searching.scan.grow (searching.clear_iff.mp read) unfinished
  limit := searching.limit

theorem below_limit (searching : Searching before count position pages pmm)
    (stops : before.Stops)
    (elsewhere : pmm.lastPage ≠ pmm.pageCount) :
    position < before.pageCount ∧ position + pages ≤ before.pageCount ∧
      position + stride pages ≤ before.pageCount := by
  have reached := searching.limit stops
  have differs : position ≠ before.pageCount := by
    intro same
    apply elsewhere
    rw [searching.hint, searching.pageCount, same, Nat.mod_eq_of_lt before.pageCount_lt]
  have below : position < before.pageCount := Nat.lt_of_le_of_ne reached differs
  rcases stops with here | ⟨_, stop⟩
  · exact absurd searching.scan.from_start (by omega)
  · exact ⟨below, searching.scan.stride_le_limit below stop⟩

theorem skip (searching : Searching before count position pages pmm)
    (elsewhere : pmm.lastPage ≠ pmm.pageCount)
    (read : bitmapGet pmm.bitmap (pmm.nextBit pages) = true) :
    Searching before count (position + stride pages) 0 (pmm.skip pages) where
  bitmap := searching.bitmap
  pageCount := searching.pageCount
  bitmapSize := searching.bitmapSize
  hint := by
    rw [Pmm.skip, Pmm.withLastPage_lastPage, searching.hint, Nat.mod_add_mod]
  scan := searching.scan.skip (by
    rw [← searching.clear_iff, read]
    decide)
  limit := fun stops => (searching.below_limit stops elsewhere).2.2

end Searching

/-- The first window of `count` clear pages at or behind the hint, as a search
that returns leaves it. -/
structure Taken (before : Pmm) (count position : Nat) (after : Pmm) : Prop where
  first : FirstWindow before.Clear before.lastPage count position
  limit : before.Stops → position + count ≤ before.pageCount
  hint : after.lastPage = (position + count) % 2 ^ 32
  bits : ∀ bit, bitmapGet after.bitmap bit = true ↔
    bitmapGet before.bitmap bit = true ∨ ∃ offset < count, bit = (position + offset) % 2 ^ 32
  pageCount : after.pageCount = before.pageCount
  bitmapSize : after.bitmapSize = before.bitmapSize

theorem pmmFindPages_ends (fuel : Nat) (before : Pmm) (positive : 0 < count) :
    SearchEnds count (fun pages pmm => ∃ position, Searching before count position pages pmm)
      (pmmFindPages fuel count before) := by
  apply findPagesLoop_ends
  · rintro pages pmm ⟨_, searching⟩
    exact searching.scan.unfinished
  · rintro pages pmm ⟨position, searching⟩ _ read unfinished
    exact ⟨position, searching.grow read unfinished⟩
  · rintro pages pmm ⟨position, searching⟩ elsewhere read
    exact ⟨_, searching.skip elsewhere read⟩
  · exact ⟨_, Searching.initial positive⟩

theorem pmmFindPages_done (positive : 0 < count)
    (run : pmmFindPages fuel count before = .done first after) :
    ∃ position, first = position % 2 ^ 32 ∧ Taken before count position after := by
  have ends := pmmFindPages_ends fuel before positive
  rw [run] at ends
  obtain ⟨pages, pmm, ⟨position, searching⟩, finished, elsewhere, read, rfl, rfl⟩ := ends
  have clear := searching.clear_iff.mp read
  refine ⟨position, searching.hint, searching.scan.found clear finished, ?_, ?_, ?_, ?_, ?_⟩
  · intro stops
    have below := searching.below_limit stops elsewhere
    rcases stops with here | ⟨_, stop⟩
    · exact absurd searching.scan.from_start (by omega)
    · by_contra beyond
      have window := (searching.scan.found clear finished).window
      rcases stop with stop | stop
      · exact Window.not_of_blocked stop (by omega) (by omega) window
      · exact Window.not_of_blocked stop (by omega) (by omega) window
  · simp only [Pmm.take, Pmm.withLastPage_lastPage, setPages_lastPage, Pmm.probe, searching.hint,
      finished, Nat.mod_add_mod]
  · intro bit
    simp only [Pmm.take, Pmm.withLastPage_bitmap, bitmapGet_setPages, Pmm.probe, searching.bitmap, searching.hint,
      finished, Nat.mod_add_mod]
  · simp only [Pmm.take, Pmm.withLastPage_pageCount, setPages_pageCount, Pmm.probe, searching.pageCount]
  · simp only [Pmm.take, Pmm.withLastPage_bitmapSize, setPages_bitmapSize, Pmm.probe, searching.bitmapSize]

theorem pmmFindPages_panicked {message : String}
    (positive : 0 < count) (run : pmmFindPages fuel count before = .panicked message after) :
    message = "out of memory" ∧ ∃ position pages, position % 2 ^ 32 = before.pageCount ∧
      Searching before count position pages after := by
  have ends := pmmFindPages_ends fuel before positive
  rw [run] at ends
  obtain ⟨text, limit, pages, position, searching⟩ := ends
  exact ⟨text, position, pages, by rw [← searching.hint, limit, searching.pageCount], searching⟩

theorem pmmFindPages_touched {Within : Nat → Prop} (positive : 0 < count) (old : ∀ bit ∈ before.touched, Within bit)
    (probed : ∀ position pages pmm, Searching before count position pages pmm →
      pmm.lastPage ≠ pmm.pageCount → ∀ offset ≤ pages, Within ((position + offset) % 2 ^ 32)) :
    ∀ bit ∈ (pmmFindPages fuel count before).after.touched, Within bit := by
  have ends : SearchEnds count
      (fun pages pmm => ∃ position, Searching before count position pages pmm ∧
        ∀ bit ∈ pmm.touched, Within bit)
      (pmmFindPages fuel count before) := by
    apply findPagesLoop_ends
    · rintro pages pmm ⟨_, searching, _⟩
      exact searching.scan.unfinished
    · rintro pages pmm ⟨position, searching, kept⟩ elsewhere read unfinished
      refine ⟨position, searching.grow read unfinished, ?_⟩
      refine List.forall_mem_cons.mpr ⟨?_, kept⟩
      rw [searching.nextBit]
      exact probed position pages pmm searching elsewhere pages (Nat.le_refl _)
    · rintro pages pmm ⟨position, searching, kept⟩ elsewhere read
      refine ⟨_, searching.skip elsewhere read, ?_⟩
      refine List.forall_mem_cons.mpr ⟨?_, kept⟩
      rw [searching.nextBit]
      exact probed position pages pmm searching elsewhere pages (Nat.le_refl _)
    · exact ⟨_, Searching.initial positive, old⟩
  cases outcome : pmmFindPages fuel count before with
  | done first after =>
      rw [outcome] at ends
      obtain ⟨pages, pmm, ⟨position, searching, kept⟩, _, elsewhere, _, _, rfl⟩ := ends
      intro bit member
      have within := probed position pages pmm searching elsewhere
      simp only [Outcome.after, Pmm.take, Pmm.withLastPage_touched, mem_touched_setPages, Pmm.probe, List.mem_cons,
        searching.nextBit, searching.hint, Nat.mod_add_mod] at member
      rcases member with (rfl | earlier) | ⟨offset, bound, rfl⟩
      · exact within pages (Nat.le_refl _)
      · exact kept bit earlier
      · exact within offset (Nat.le_of_lt_succ bound)
  | panicked message after =>
      rw [outcome] at ends
      obtain ⟨_, _, _, _, _, kept⟩ := ends
      exact kept
  | faulted after =>
      rw [outcome] at ends
      exact ends.elim
  | running after =>
      rw [outcome] at ends
      obtain ⟨_, _, _, kept⟩ := ends
      exact kept

/-! Termination -/

/-- A search whose scan stays at or below some position ends: every turn
lengthens the run or moves the scan on. -/
theorem findPagesLoop_terminates {bound : Nat}
    (bounded : ∀ position pages pmm, Searching before count position pages pmm → position ≤ bound)
    (searching : Searching before count position pages pmm)
    (enough : (bound - position) * (count + 1) + (count - pages) < fuel) :
    ∀ after, findPagesLoop count fuel pages pmm.lastPage pmm ≠ .running after := by
  induction fuel generalizing position pages pmm with
  | zero => exact absurd enough (Nat.not_lt_zero _)
  | succ fuel ih =>
      intro after
      have unfinished := searching.scan.unfinished
      by_cases limit : pmm.lastPage = pmm.pageCount
      · rw [findPagesLoop, if_pos unfinished, if_pos limit]
        simp
      · cases read : bitmapGet pmm.bitmap (pmm.nextBit pages) with
        | true =>
            rw [findPagesLoop_skip unfinished limit read]
            have next := searching.skip limit read
            have reached := bounded _ _ _ next
            refine ih next ?_ after
            have moved := stride_pos pages
            have split : bound - position = (bound - (position + stride pages)) + stride pages := by
              omega
            have step : 1 * (count + 1) ≤ stride pages * (count + 1) :=
              Nat.mul_le_mul_right _ moved
            rw [split, Nat.add_mul] at enough
            omega
        | false =>
            by_cases last : pages + 1 = count
            · rw [findPagesLoop_take unfinished last limit read]
              simp
            · have more : pages + 1 < count := by omega
              rw [findPagesLoop_grow more limit read]
              exact ih (searching.grow read more) (by omega) after

theorem pmmFindPages_terminates (positive : 0 < count)
    (target : before.Stops ∨
      ∃ window, before.lastPage ≤ window ∧ Window before.Clear window count) :
    ∃ fuel, ∀ after, pmmFindPages fuel count before ≠ .running after := by
  have bounded : ∃ bound, ∀ position pages pmm,
      Searching before count position pages pmm → position ≤ bound := by
    rcases target with stops | ⟨window, reached, clear⟩
    · exact ⟨_, fun _ _ _ searching => searching.limit stops⟩
    · exact ⟨window, fun _ _ _ searching => searching.scan.le_window reached clear⟩
  obtain ⟨bound, bounded⟩ := bounded
  exact ⟨_, findPagesLoop_terminates bounded (Searching.initial positive) (Nat.lt_succ_self _)⟩

end BarrelOS.Memory
