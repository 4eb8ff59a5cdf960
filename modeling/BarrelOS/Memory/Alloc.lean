import BarrelOS.Memory.Search
import Mathlib.Order.Interval.Set.Defs
import Mathlib.Order.Nat

namespace BarrelOS.Memory

open BarrelOS.Data BarrelOS.Semantics

variable {fuel count ptr limit : Nat} {before after : Pmm}

/-- `pmm_alloc` searches once, or a second time from page 0 when the first
search returned page 0. -/
theorem pmmAlloc_done (positive : 0 < count)
    (run : pmmAlloc fuel count before = .done ptr after) :
    ∃ middle position, Taken middle count position after ∧
      ptr = position % 2 ^ 32 * 4096 % 2 ^ 32 ∧
      (middle = before ∧ position % 2 ^ 32 ≠ 0 ∨
        ∃ lowest found, Taken before count lowest found ∧ lowest % 2 ^ 32 = 0 ∧
          middle = found.withLastPage 0) := by
  obtain ⟨first, found, search, rest⟩ := Outcome.bind_done.mp run
  obtain ⟨position, rfl, taken⟩ := pmmFindPages_done positive search
  by_cases lowest : position % 2 ^ 32 = 0
  · rw [if_pos lowest] at rest
    obtain ⟨second, last, again, finished⟩ := Outcome.bind_done.mp rest
    obtain ⟨next, rfl, retaken⟩ := pmmFindPages_done positive again
    cases finished
    exact ⟨_, next, retaken, rfl, .inr ⟨position, found, taken, lowest, rfl⟩⟩
  · rw [if_neg lowest] at rest
    cases rest
    exact ⟨before, position, taken, rfl, .inl ⟨rfl, lowest⟩⟩

theorem pmmFindPages_zero (run : pmmFindPages fuel 0 before = .done ptr after) : ptr = 0 ∧ after = before := by
  cases fuel with
  | zero => cases run
  | succ fuel =>
      rw [pmmFindPages, findPagesLoop, if_neg (Nat.not_lt_zero _)] at run
      injection run with returned state
      exact ⟨returned.symm, state.symm⟩

/-- A call for no pages returns page 0 and sends the hint back to it. -/
theorem pmmAlloc_zero (run : pmmAlloc fuel 0 before = .done ptr after) : ptr = 0 ∧ after = before.withLastPage 0 := by
  obtain ⟨first, found, search, rest⟩ := Outcome.bind_done.mp run
  obtain ⟨rfl, rfl⟩ := pmmFindPages_zero search
  rw [if_pos rfl] at rest
  obtain ⟨second, last, again, finished⟩ := Outcome.bind_done.mp rest
  obtain ⟨rfl, rfl⟩ := pmmFindPages_zero again
  injection finished with returned state
  exact ⟨returned.symm, state.symm⟩

theorem pmmAlloc_words (run : pmmAlloc fuel count before = .done ptr after) :
    after.pageCount = before.pageCount ∧ after.bitmapSize = before.bitmapSize := by
  rcases Nat.eq_zero_or_pos count with rfl | positive
  · obtain ⟨_, rfl⟩ := pmmAlloc_zero run
    exact ⟨rfl, rfl⟩
  · obtain ⟨middle, position, taken, _, ⟨rfl, _⟩ | ⟨lowest, found, first, _, rfl⟩⟩ := pmmAlloc_done positive run
    · exact ⟨taken.pageCount, taken.bitmapSize⟩
    · exact ⟨taken.pageCount.trans first.pageCount, taken.bitmapSize.trans first.bitmapSize⟩

/-! The pages a call will return -/

def pageAddress (page : Nat) : Nat := page % 2 ^ 32 * 4096 % 2 ^ 32

/-- Where the second search starts once the first has found page 0. -/
def Pmm.retry (pmm : Pmm) (count : Nat) : Pmm := (setPages 0 count pmm).withLastPage 0

theorem Taken.retry {position : Nat} (taken : Taken before count position after)
    (wrapped : position % 2 ^ 32 = 0) :
    (after.withLastPage 0).bitmap = (before.retry count).bitmap ∧
      (after.withLastPage 0).lastPage = (before.retry count).lastPage ∧
      (after.withLastPage 0).pageCount = (before.retry count).pageCount := by
  refine ⟨?_, rfl, by simp [Pmm.retry, taken.pageCount]⟩
  apply bitmap_ext
  intro bit
  have same : ∀ offset, (position + offset) % 2 ^ 32 = (0 + offset) % 2 ^ 32 := by omega
  rw [Bool.eq_iff_iff, Pmm.withLastPage_bitmap, taken.bits, Pmm.retry, Pmm.withLastPage_bitmap,
    bitmapGet_setPages]
  simp only [same]

/-- The state once the window at `position` is taken. -/
def Pmm.grant (pmm : Pmm) (count position : Nat) : Pmm :=
  (setPages position count pmm).withLastPage (position + count)

/-- The window a call for `count` pages takes, and the state it leaves: the first
window from the hint on, or, where that starts at page 0, the first one from
page 0 on once it is taken. -/
inductive Pmm.Next (pmm : Pmm) (count : Nat) : Nat → Pmm → Prop
  | direct {position : Nat} (nonzero : position % 2 ^ 32 ≠ 0)
      (first : FirstWindow pmm.Clear pmm.lastPage count position) :
      pmm.Next count position (pmm.grant count position)
  | retried {lowest position : Nat} (zero : lowest % 2 ^ 32 = 0)
      (first : FirstWindow pmm.Clear pmm.lastPage count lowest)
      (second : FirstWindow (pmm.retry count).Clear 0 count position) :
      pmm.Next count position ((pmm.retry count).grant count position)

theorem Pmm.Next.unique {pmm rest other : Pmm} {left right : Nat} (first : pmm.Next count left rest)
    (second : pmm.Next count right other) : left = right := by
  cases first with
  | direct nonzero found =>
      cases second with
      | direct _ again => exact found.unique again
      | retried zero again _ =>
          rw [found.unique again] at nonzero
          exact absurd zero nonzero
  | retried zero found retried =>
      cases second with
      | direct nonzero again =>
          rw [again.unique found] at nonzero
          exact absurd zero nonzero
      | retried _ _ again => exact retried.unique again

/-- The part of the state a search depends on. -/
structure Pmm.SameBits (left right : Pmm) : Prop where
  bitmap : left.bitmap = right.bitmap
  lastPage : left.lastPage = right.lastPage

theorem Pmm.SameBits.clear {left right : Pmm} (same : left.SameBits right) : left.Clear = right.Clear := by
  funext page
  rw [Pmm.Clear, same.bitmap, Pmm.Clear]

theorem Pmm.SameBits.setPages {left right : Pmm} (same : left.SameBits right) (first : Nat) :
    (Memory.setPages first count left).bitmap = (Memory.setPages first count right).bitmap := by
  apply bitmap_ext
  intro bit
  rw [Bool.eq_iff_iff, bitmapGet_setPages, bitmapGet_setPages, same.bitmap]

theorem Pmm.SameBits.next {left right rest : Pmm} {position : Nat} (same : left.SameBits right)
    (next : left.Next count position rest) : ∃ other, right.Next count position other ∧ rest.SameBits other := by
  have clear := same.clear
  have hint := same.lastPage
  cases next with
  | direct nonzero first =>
      exact ⟨_, .direct nonzero (hint ▸ clear ▸ first), same.setPages position, rfl⟩
  | retried zero first second =>
      have again : (left.retry count).SameBits (right.retry count) := ⟨same.setPages 0, rfl⟩
      exact ⟨_, .retried zero (hint ▸ clear ▸ first) (again.clear ▸ second), again.setPages position, rfl⟩

theorem Taken.sameBits {position : Nat} (taken : Taken before count position after) :
    after.SameBits (before.grant count position) where
  bitmap := by
    apply bitmap_ext
    intro bit
    rw [Bool.eq_iff_iff, taken.bits, Pmm.grant, Pmm.withLastPage_bitmap, bitmapGet_setPages]
  lastPage := by rw [taken.hint, Pmm.grant, Pmm.withLastPage_lastPage]

theorem pmmAlloc_next (positive : 0 < count) (run : pmmAlloc fuel count before = .done ptr after) :
    ∃ position rest, before.Next count position rest ∧ after.SameBits rest ∧ ptr = pageAddress position := by
  obtain ⟨middle, position, taken, returned, ⟨rfl, nonzero⟩ | ⟨lowest, found, first, wrapped, rfl⟩⟩ :=
    pmmAlloc_done positive run
  · exact ⟨position, _, .direct nonzero taken.first, taken.sameBits, returned⟩
  · obtain ⟨bits, hint, _⟩ := first.retry wrapped
    have again : (found.withLastPage 0).SameBits (before.retry count) := ⟨bits, hint⟩
    have second : FirstWindow (before.retry count).Clear 0 count position := again.clear ▸ taken.first
    have granted : after.SameBits ((before.retry count).grant count position) :=
      ⟨taken.sameBits.bitmap.trans (again.setPages position), taken.sameBits.lastPage⟩
    exact ⟨position, _, .retried wrapped first.first second, granted, returned⟩

/-- With page 0 reserved no search returns page 0, so there is no retry. -/
theorem pmmAlloc_done_of_reserved (reserved : bitmapGet before.bitmap 0 = true)
    (positive : 0 < count)
    (run : pmmAlloc fuel count before = .done ptr after) :
    ∃ position, Taken before count position after ∧ position % 2 ^ 32 ≠ 0 ∧
      ptr = position % 2 ^ 32 * 4096 % 2 ^ 32 := by
  obtain ⟨middle, position, taken, returned, ⟨rfl, nonzero⟩ | ⟨lowest, found, first, wrapped, _⟩⟩ :=
    pmmAlloc_done positive run
  · exact ⟨position, taken, nonzero, returned⟩
  · have clear := first.first.window 0 positive
    rw [Pmm.Clear, Nat.add_zero, wrapped, reserved] at clear
    contradiction

/-- Every bit a call has set belongs to a page below `limit`. -/
def HandsOutBelow (limit : Nat) (before after : Pmm) : Prop :=
  ∀ page, bitmapGet after.bitmap page = true → bitmapGet before.bitmap page = true ∨ page < limit

/-- What `pmm_alloc` grants: `count` pages from `ptr` on, clear before and set
afterwards, with no other bit changed. -/
structure Granted (before : Pmm) (count limit ptr : Nat) (after : Pmm) : Prop where
  aligned : ptr = ptr / 4096 * 4096
  positive : 0 < ptr / 4096
  below : ptr / 4096 + count ≤ limit
  unused : ∀ page ∈ Set.Ico (ptr / 4096) (ptr / 4096 + count), bitmapGet before.bitmap page = false
  bits : ∀ page, bitmapGet after.bitmap page = true ↔
    bitmapGet before.bitmap page = true ∨ page ∈ Set.Ico (ptr / 4096) (ptr / 4096 + count)

theorem Taken.below {position : Nat} (taken : Taken before count position after)
    (handed : HandsOutBelow limit before after) (physical : limit ≤ 2 ^ 20) :
    ∀ offset < count, position % 2 ^ 32 + offset < limit := by
  have granted : ∀ offset < count, (position + offset) % 2 ^ 32 < limit := by
    intro offset bound
    have set := (taken.bits ((position + offset) % 2 ^ 32)).mpr (.inr ⟨offset, bound, rfl⟩)
    rcases handed _ set with already | below
    · have clear : bitmapGet before.bitmap ((position + offset) % 2 ^ 32) = false :=
        taken.first.window offset bound
      rw [clear] at already
      contradiction
    · exact below
  intro offset
  induction offset with
  | zero => exact granted 0
  | succ offset ih =>
      intro bound
      have previous := ih (by omega)
      have next := granted (offset + 1) bound
      omega

theorem Taken.granted {position : Nat} (taken : Taken before count position after)
    (positive : 0 < count) (nonzero : position % 2 ^ 32 ≠ 0)
    (handed : HandsOutBelow limit before after) (physical : limit ≤ 2 ^ 20) :
    Granted before count limit (position % 2 ^ 32 * 4096 % 2 ^ 32) after := by
  have below := taken.below handed physical
  have last := below (count - 1) (by omega)
  have page : position % 2 ^ 32 * 4096 % 2 ^ 32 / 4096 = position % 2 ^ 32 := by omega
  have window : ∀ bit, (∃ offset < count, bit = (position + offset) % 2 ^ 32) ↔
      bit ∈ Set.Ico (position % 2 ^ 32) (position % 2 ^ 32 + count) := by
    intro bit
    constructor
    · rintro ⟨offset, bound, rfl⟩
      have inside := below offset bound
      simp only [Set.mem_Ico]
      omega
    · rintro ⟨lower, upper⟩
      exact ⟨bit - position % 2 ^ 32, by omega, by omega⟩
  refine ⟨by omega, by omega, by omega, ?_, ?_⟩
  · rw [page]
    intro bit inside
    obtain ⟨offset, bound, rfl⟩ := (window bit).mpr inside
    exact taken.first.window offset bound
  · intro bit
    rw [page, taken.bits, window]

theorem pmmAlloc_granted (reserved : bitmapGet before.bitmap 0 = true)
    (positive : 0 < count)
    (run : pmmAlloc fuel count before = .done ptr after)
    (handed : HandsOutBelow limit before after) (physical : limit ≤ 2 ^ 20) :
    Granted before count limit ptr after := by
  obtain ⟨position, taken, nonzero, rfl⟩ := pmmAlloc_done_of_reserved reserved positive run
  exact taken.granted positive nonzero handed physical

theorem pmmAlloc_message {message : String} (positive : 0 < count)
    (run : pmmAlloc fuel count before = .panicked message after) : message = "out of memory" := by
  rcases Outcome.bind_panicked.mp run with search | ⟨page, middle, _, rest⟩
  · exact (pmmFindPages_panicked positive search).1
  · split at rest
    · rcases Outcome.bind_panicked.mp rest with again | ⟨_, _, _, returned⟩
      · exact (pmmFindPages_panicked positive again).1
      · cases returned
    · cases rest

theorem bitmapGet_pmmFree {page : Nat} (physical : ptr / 4096 + count ≤ 2 ^ 32) :
    bitmapGet (pmmFree ptr count before).bitmap page = true ↔
      bitmapGet before.bitmap page = true ∧ page ∉ Set.Ico (ptr / 4096) (ptr / 4096 + count) := by
  rw [pmmFree, bitmapGet_clearPages]
  refine and_congr_right fun _ => ?_
  constructor
  · rintro other ⟨lower, upper⟩
    exact other (page - ptr / 4096) (by omega) (by omega)
  · rintro outside offset bound rfl
    exact outside ⟨by omega, by omega⟩

@[simp] theorem pmmFree_lastPage : (pmmFree ptr count before).lastPage = before.lastPage :=
  clearPages_lastPage ..

@[simp] theorem pmmFree_pageCount : (pmmFree ptr count before).pageCount = before.pageCount :=
  clearPages_pageCount ..

@[simp] theorem pmmFree_bitmapSize : (pmmFree ptr count before).bitmapSize = before.bitmapSize :=
  clearPages_bitmapSize ..

end BarrelOS.Memory
