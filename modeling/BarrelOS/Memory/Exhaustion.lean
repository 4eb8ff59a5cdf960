import BarrelOS.Memory.Bounds

namespace BarrelOS.Memory

open BarrelOS.Boot BarrelOS.Data BarrelOS.Semantics

variable {fuel count kernelEnd : Nat} {pmm before after booted : Pmm} {mbd : MultibootInfo} {message : String}

def FreeBelowLimit (pmm : Pmm) (count : Nat) : Prop :=
  ∃ first, first + count ≤ pmm.pageCount ∧ ∀ offset < count, bitmapGet pmm.bitmap (first + offset) = false

/-- The search from the hint meets `pmm_page_count` and has no room below it. -/
def Exhausted (pmm : Pmm) (count : Nat) : Prop :=
  pmm.Stops ∧ ¬ RoomBelow pmm.pageCount pmm count

/-- The first window at or behind the hint starts at page 0, the value
`pmm_alloc` takes for a failed search. -/
def StartsAtZero (pmm : Pmm) (count : Nat) : Prop :=
  ∃ position, position % 2 ^ 32 = 0 ∧ FirstWindow pmm.Clear pmm.lastPage count position

theorem RoomBelow.freeBelowLimit (room : RoomBelow pmm.pageCount pmm count) : FreeBelowLimit pmm count := by
  obtain ⟨first, _, below, clear⟩ := room
  exact ⟨first, below, clear⟩

theorem Exhausted.congr {left right : Pmm} (exhausted : Exhausted left count)
    (bits : right.bitmap = left.bitmap) (hint : right.lastPage = left.lastPage)
    (pageCount : right.pageCount = left.pageCount) : Exhausted right count := by
  unfold Exhausted Pmm.Stops RoomBelow Pmm.Clear at *
  rwa [bits, hint, pageCount]

theorem FreeBelowLimit.window (free : FreeBelowLimit pmm count) :
    ∃ first, first + count ≤ pmm.pageCount ∧ Window pmm.Clear (first + 2 ^ 32) count := by
  obtain ⟨first, below, clear⟩ := free
  have word := pmm.pageCount_lt
  refine ⟨first, below, ?_⟩
  intro offset bound
  have wraps : (first + 2 ^ 32 + offset) % 2 ^ 32 = first + offset := by omega
  rw [Pmm.Clear, wraps]
  exact clear offset bound

/-! One search -/

theorem Exhausted.panics (exhausted : Exhausted before count) (positive : 0 < count) :
    ∃ fuel after, pmmFindPages fuel count before = .panicked "out of memory" after := by
  obtain ⟨stops, noRoom⟩ := exhausted
  obtain ⟨fuel, ended⟩ := pmmFindPages_terminates positive (.inl stops)
  cases outcome : pmmFindPages fuel count before with
  | done first after =>
      obtain ⟨position, _, taken⟩ := pmmFindPages_done positive outcome
      have below := taken.limit stops
      have word := before.pageCount_lt
      refine absurd ⟨position, taken.first.from_start, below, ?_⟩ noRoom
      intro offset bound
      have clear := taken.first.window offset bound
      rwa [Pmm.Clear, Nat.mod_eq_of_lt (by omega)] at clear
  | panicked message after =>
      obtain ⟨rfl, _⟩ := pmmFindPages_panicked positive outcome
      exact ⟨fuel, after, outcome⟩
  | faulted after =>
      have ends := pmmFindPages_ends fuel before positive
      rw [outcome] at ends
      exact ends.elim
  | running after => exact absurd outcome (ended after)

/-- A search that panics is exhausted, unless it went around the whole range of
32-bit page numbers. -/
theorem exhausted_of_panicked (positive : 0 < count)
    (reach : before.lastPage ≤ before.pageCount ∨ FreeBelowLimit before count)
    (run : pmmFindPages fuel count before = .panicked message after) : Exhausted before count := by
  obtain ⟨_, position, pages, stands, searching⟩ := pmmFindPages_panicked positive run
  have word := before.pageCount_lt
  have scan := searching.scan
  have reached := scan.from_start
  constructor
  · by_cases below : before.lastPage ≤ before.pageCount
    · by_cases here : before.lastPage = before.pageCount
      · exact .inl here
      · right
        refine ⟨by omega, ?_⟩
        have previous : (position - 1) % 2 ^ 32 = (before.pageCount - 1) % 2 ^ 32 := by omega
        have current : position % 2 ^ 32 = before.pageCount % 2 ^ 32 := by omega
        have boundary := scan.boundary (by omega)
        unfold Pmm.Clear at boundary ⊢
        rwa [previous, current] at boundary
    · rcases reach with hint | free
      · exact absurd hint below
      · obtain ⟨first, fits, window⟩ := free.window
        have hintWord := before.lastPage_lt
        have passed := scan.le_window (by omega) window
        omega
  · intro room
    obtain ⟨first, hint, fits, window⟩ := room.window (Nat.le_of_lt word)
    have passed := scan.le_window hint window
    omega

theorem findPagesLoop_more {pages first extra : Nat}
    (ended : ∀ after, findPagesLoop count fuel pages first pmm ≠ .running after) :
    findPagesLoop count (fuel + extra) pages first pmm = findPagesLoop count fuel pages first pmm := by
  induction fuel generalizing pages first pmm with
  | zero => exact absurd rfl (ended pmm)
  | succ fuel ih =>
      rw [Nat.add_right_comm]
      unfold findPagesLoop at ended ⊢
      split
      · rename_i unfinished
        rw [if_pos unfinished] at ended
        split
        · rfl
        · rename_i elsewhere
          rw [if_neg elsewhere] at ended
          dsimp only at ended ⊢
          split
          · rename_i clear
            rw [if_pos clear] at ended
            split
            · rfl
            · rename_i more
              rw [if_neg more] at ended
              exact ih ended
          · rename_i occupied
            rw [if_neg occupied] at ended
            exact ih ended
      · rfl

theorem pmmFindPages_more {larger : Nat} (more : fuel ≤ larger)
    (ended : ∀ after, pmmFindPages fuel count pmm ≠ .running after) :
    pmmFindPages larger count pmm = pmmFindPages fuel count pmm := by
  obtain ⟨extra, rfl⟩ := Nat.exists_eq_add_of_le more
  exact findPagesLoop_more ended

theorem pmmFindPages_returns {position : Nat} (positive : 0 < count)
    (reach : before.lastPage ≤ before.pageCount ∨ FreeBelowLimit before count)
    (more : ¬ Exhausted before count)
    (first : FirstWindow before.Clear before.lastPage count position) :
    ∃ fuel after, pmmFindPages fuel count before = .done (position % 2 ^ 32) after ∧
      Taken before count position after := by
  obtain ⟨fuel, ended⟩ := pmmFindPages_terminates positive (.inr ⟨position, first.from_start, first.window⟩)
  cases outcome : pmmFindPages fuel count before with
  | done page after =>
      obtain ⟨found, rfl, taken⟩ := pmmFindPages_done positive outcome
      cases taken.first.unique first
      exact ⟨fuel, after, outcome, taken⟩
  | panicked message after => exact absurd (exhausted_of_panicked positive reach outcome) more
  | faulted after =>
      have ends := pmmFindPages_ends fuel before positive
      rw [outcome] at ends
      exact ends.elim
  | running after => exact absurd outcome (ended after)

/-! The whole of `pmm_alloc` -/

theorem pmmAlloc_more {larger ptr : Nat} (more : fuel ≤ larger)
    (run : pmmAlloc fuel count before = .done ptr after) : pmmAlloc larger count before = .done ptr after := by
  obtain ⟨page, found, search, rest⟩ := Outcome.bind_done.mp run
  refine Outcome.bind_done.mpr ⟨page, found, ?_, ?_⟩
  · rw [pmmFindPages_more more (by simp [search]), search]
  · split at rest
    · rename_i wrapped
      obtain ⟨again, last, second, finished⟩ := Outcome.bind_done.mp rest
      rw [if_pos wrapped]
      refine Outcome.bind_done.mpr ⟨again, last, ?_, finished⟩
      rw [pmmFindPages_more more (by simp [second]), second]
    · rename_i elsewhere
      rw [if_neg elsewhere]
      exact rest

theorem pmmAlloc_returns {position : Nat} (positive : 0 < count) (nonzero : 0 < position)
    (first : FirstWindow before.Clear before.lastPage count position)
    (below : position + count ≤ before.pageCount) :
    ∃ fuel after, pmmAlloc fuel count before = .done (position * 4096 % 2 ^ 32) after ∧
      Taken before count position after := by
  have word := before.pageCount_lt
  have room : RoomBelow before.pageCount before count := by
    refine ⟨position, first.from_start, below, ?_⟩
    intro offset bound
    have clear := first.window offset bound
    rwa [Pmm.Clear, Nat.mod_eq_of_lt (by omega)] at clear
  obtain ⟨fuel, after, search, taken⟩ :=
    pmmFindPages_returns positive (.inr room.freeBelowLimit) (fun exhausted => exhausted.2 room) first
  rw [Nat.mod_eq_of_lt (by omega)] at search
  refine ⟨fuel, after, Outcome.bind_done.mpr ⟨position, after, search, ?_⟩, taken⟩
  rw [if_neg (by omega)]

theorem pmmAlloc_panics_iff (positive : 0 < count) (free : FreeBelowLimit before count) :
    (∃ fuel after, pmmAlloc fuel count before = .panicked "out of memory" after) ↔
      Exhausted before count ∨ StartsAtZero before count ∧ Exhausted (before.retry count) count := by
  constructor
  · intro panics
    obtain ⟨fuel, after, run⟩ := panics
    rcases Outcome.bind_panicked.mp run with search | ⟨page, found, search, rest⟩
    · exact .inl (exhausted_of_panicked positive (.inr free) search)
    · obtain ⟨position, rfl, taken⟩ := pmmFindPages_done positive search
      by_cases wrapped : position % 2 ^ 32 = 0
      · rw [if_pos wrapped] at rest
        rcases Outcome.bind_panicked.mp rest with again | ⟨_, _, _, returned⟩
        · obtain ⟨bits, hint, pageCount⟩ := taken.retry wrapped
          have exhausted := exhausted_of_panicked positive (.inl (Nat.zero_le _)) again
          exact .inr ⟨⟨position, wrapped, taken.first⟩,
            exhausted.congr bits.symm hint.symm pageCount.symm⟩
        · cases returned
      · rw [if_neg wrapped] at rest
        cases rest
  · intro cases
    by_cases exhausted : Exhausted before count
    · obtain ⟨fuel, after, search⟩ := exhausted.panics positive
      exact ⟨fuel, after, Outcome.bind_panicked.mpr (.inl search)⟩
    · rcases cases with first | ⟨⟨position, wrapped, first⟩, again⟩
      · exact absurd first exhausted
      · obtain ⟨fuel, found, search, taken⟩ := pmmFindPages_returns positive (.inr free) exhausted first
        obtain ⟨bits, hint, pageCount⟩ := taken.retry wrapped
        obtain ⟨more, after, second⟩ := (again.congr bits hint pageCount).panics positive
        rw [wrapped] at search
        refine ⟨max fuel more, after, Outcome.bind_panicked.mpr (.inr ⟨0, found, ?_, ?_⟩)⟩
        · rw [pmmFindPages_more (Nat.le_max_left fuel more) (by simp [search]), search]
        · rw [if_pos rfl, pmmFindPages_more (Nat.le_max_right fuel more) (by simp [second]), second]
          rfl

/-- In every state a run of `pmm_alloc` and `pmm_free` reaches, running out of
memory means that no `count` pages in a row are left below the limit exactly
where neither search of the call can be exhausted above them. -/
theorem pmm_out_of_memory_iff (mbd : MultibootInfo) (kernelEnd : Nat) (memory : Bitmap) :
    ∀ fuel booted, pmmInstall fuel mbd kernelEnd (Pmm.initial memory) = .done () booted →
    ∀ holding, PmmRuns (fun _ _ _ => True) ⟨booted, []⟩ holding → ∀ count, 0 < count →
      ((∀ fuel after, pmmAlloc fuel count holding.pmm = .panicked "out of memory" after →
          ¬ FreeBelowLimit holding.pmm count) ↔
        (FreeBelowLimit holding.pmm count → ¬ Exhausted holding.pmm count ∧
          (StartsAtZero holding.pmm count → ¬ Exhausted (holding.pmm.retry count) count))) := by
  intro fuel booted _ holding _ count positive
  constructor
  · intro honest free
    have never : ¬ ∃ fuel after, pmmAlloc fuel count holding.pmm = .panicked "out of memory" after := by
      intro panics
      obtain ⟨fuel, after, run⟩ := panics
      exact honest fuel after run free
    rw [pmmAlloc_panics_iff positive free, not_or, not_and] at never
    exact never
  · intro condition fuel after run free
    rcases (pmmAlloc_panics_iff positive free).mp ⟨fuel, after, run⟩ with exhausted | ⟨zero, exhausted⟩
    · exact (condition free).1 exhausted
    · exact (condition free).2 zero exhausted

/-- Right after boot the first page is there to be found. -/
theorem pmm_out_of_memory_pc :
    ∃ booted, pmmInstall (2 ^ 20 + 2) (pcInfo 0x7EE0000 (by decide)) 0x220000
        (Pmm.initial fun _ => 0) = .done () booted ∧
      ∀ fuel after, pmmAlloc fuel 1 booted = .panicked "out of memory" after →
        ¬ FreeBelowLimit booted 1 := by
  obtain ⟨booted, install, hint, limit, _, reserved, free⟩ := pcMap_booted fun _ => 0
  refine ⟨booted, install, ?_⟩
  have condition := pmm_out_of_memory_iff (pcInfo 0x7EE0000 (by decide)) 0x220000 (fun _ => 0)
    (2 ^ 20 + 2) booted install ⟨booted, []⟩ .refl 1 (by decide)
  refine condition.mpr fun _ => ⟨?_, ?_⟩
  · intro exhausted
    refine exhausted.2 ⟨0x221, hint ▸ Nat.zero_le _, limit ▸ by decide, ?_⟩
    intro offset bound
    exact free _ (by omega) (by omega)
  · intro zero
    obtain ⟨position, wrapped, first⟩ := zero
    have clear := first.window 0 (by decide)
    rw [Pmm.Clear, Nat.add_zero, wrapped, reserved 0 (by decide)] at clear
    cases clear

/-- All memory below the limit is allocated at once and freed again. The hint
then stands at `pmm_page_count`, and the next request for one page panics. -/
theorem pmmAlloc_panics_with_memory_free :
    ∃ booted full, pmmInstall (2 ^ 20 + 2) (pcInfo 0x7EE0000 (by decide)) 0x220000
        (Pmm.initial fun _ => 0) = .done () booted ∧
      PmmRuns (fun _ _ _ => True) ⟨booted, []⟩ ⟨pmmFree 0x221000 0x7CBF full, []⟩ ∧
      FreeBelowLimit (pmmFree 0x221000 0x7CBF full) 1 ∧
      pmmAlloc 1 1 (pmmFree 0x221000 0x7CBF full) =
        .panicked "out of memory" (pmmFree 0x221000 0x7CBF full) := by
  obtain ⟨booted, install, hint, limit, _, reserved, free⟩ := pcMap_booted fun _ => 0
  have first : FirstWindow booted.Clear booted.lastPage 0x7CBF 0x221 := by
    refine ⟨by omega, ?_, ?_⟩
    · intro offset bound
      rw [Pmm.Clear, Nat.mod_eq_of_lt (by omega)]
      exact free _ (by omega) (by omega)
    · intro earlier _ before window
      have clear := window 0 (by decide)
      rw [Pmm.Clear, Nat.add_zero, Nat.mod_eq_of_lt (by omega), reserved _ before] at clear
      cases clear
  have room : RoomBelow booted.pageCount booted 0x7CBF := by
    refine ⟨0x221, by omega, by omega, ?_⟩
    intro offset bound
    exact free _ (by omega) (by omega)
  obtain ⟨fuel, full, search, taken⟩ := pmmFindPages_returns (by decide) (.inr room.freeBelowLimit)
    (fun exhausted => exhausted.2 room) first
  have alloc : pmmAlloc fuel 0x7CBF booted = .done 0x221000 full :=
    Outcome.bind_done.mpr ⟨0x221, full, search, rfl⟩
  have taking : PmmStep (fun _ _ _ => True) ⟨booted, []⟩ ⟨full, [⟨0x221000, 0x7CBF⟩]⟩ :=
    .alloc (by decide) alloc trivial
  have giving : PmmStep (fun _ _ _ => True) ⟨full, [⟨0x221000, 0x7CBF⟩]⟩
      ⟨pmmFree 0x221000 0x7CBF full, []⟩ :=
    .free (List.mem_singleton_self (⟨0x221000, 0x7CBF⟩ : Allocation))
  have stands : (pmmFree 0x221000 0x7CBF full).lastPage = (pmmFree 0x221000 0x7CBF full).pageCount := by
    have hint : full.lastPage = (545 + 31935) % 2 ^ 32 := taken.hint
    rw [pmmFree_lastPage, pmmFree_pageCount, taken.pageCount, limit]
    omega
  refine ⟨booted, full, install, (Relation.ReflTransGen.single taking).tail giving, ⟨0x221, ?_, ?_⟩, ?_⟩
  · rw [pmmFree_pageCount, taken.pageCount, limit]
    decide
  · intro offset bound
    rw [← Bool.not_eq_true, pmmFree, bitmapGet_clearPages]
    intro set
    exact set.2 0 (by decide) (by omega)
  · rw [pmmAlloc, pmmFindPages, findPagesLoop, if_pos Nat.one_pos, if_pos stands]
    rfl

end BarrelOS.Memory
