import BarrelOS.Memory.Exhaustion

namespace BarrelOS.Memory

open BarrelOS.Boot BarrelOS.Data BarrelOS.Semantics

variable {fuel count first pages position ptr kernelEnd : Nat} {pmm before after booted : Pmm}
  {mbd : MultibootInfo} {memory : Bitmap} {held next holding : Holding}

/-! First fit -/

/-- The lowest page at or behind the hint with `count` clear bits in a row was
taken, no other bit changed, and the hint moved behind it. -/
structure FirstFit (before : Pmm) (count page : Nat) (after : Pmm) : Prop where
  from_hint : before.lastPage ≤ page
  clear : ∀ offset < count, bitmapGet before.bitmap (page + offset) = false
  least : ∀ earlier, before.lastPage ≤ earlier → earlier < page →
    ∃ offset < count, bitmapGet before.bitmap (earlier + offset) = true
  changed : ∀ bit, bitmapGet after.bitmap bit ≠ bitmapGet before.bitmap bit ↔
    page ≤ bit ∧ bit < page + count
  set : ∀ offset < count, bitmapGet after.bitmap (page + offset) = true
  hint : after.lastPage = page + count

theorem Taken.firstFit (taken : Taken before count position after) (word : position + count < 2 ^ 32) :
    FirstFit before count position after := by
  have plain : ∀ offset < count, (position + offset) % 2 ^ 32 = position + offset :=
    fun offset bound => Nat.mod_eq_of_lt (by omega)
  have clear : ∀ offset < count, bitmapGet before.bitmap (position + offset) = false := by
    intro offset bound
    have free := taken.first.window offset bound
    rwa [Pmm.Clear, plain offset bound] at free
  have bits : ∀ bit, bitmapGet after.bitmap bit = true ↔
      bitmapGet before.bitmap bit = true ∨ position ≤ bit ∧ bit < position + count := by
    intro bit
    rw [taken.bits]
    refine or_congr_right ⟨?_, ?_⟩
    · intro inside
      obtain ⟨offset, bound, same⟩ := inside
      rw [plain offset bound] at same
      omega
    · intro inside
      exact ⟨bit - position, by omega, by omega⟩
  refine ⟨taken.first.from_start, clear, ?_, ?_, ?_, ?_⟩
  · intro earlier reached before
    by_contra none
    refine taken.first.earliest earlier reached before ?_
    intro offset bound
    rw [Pmm.Clear, Nat.mod_eq_of_lt (by omega), ← Bool.not_eq_true]
    exact fun set => none ⟨offset, bound, set⟩
  · intro bit
    by_cases inside : position ≤ bit ∧ bit < position + count
    · have free := clear (bit - position) (by omega)
      rw [Nat.add_sub_cancel' inside.1] at free
      simp [free, (bits bit).mpr (.inr inside), inside]
    · have same : bitmapGet after.bitmap bit = bitmapGet before.bitmap bit := by
        rw [Bool.eq_iff_iff, bits]
        exact or_iff_left inside
      simp [same, inside]
  · intro offset bound
    exact (bits _).mpr (.inr ⟨Nat.le_add_right _ _, by omega⟩)
  · rw [taken.hint, Nat.mod_eq_of_lt word]

/-- With page 0 reserved, `pmm_alloc` is first fit from the hint exactly where
the hint has room for the call within the 32-bit address space. -/
theorem pmm_alloc_first_fit_iff (reserved : bitmapGet before.bitmap 0 = true) (positive : 0 < count)
    (run : pmmAlloc fuel count before = .done ptr after) :
    FirstFit before count (ptr / 4096) after ↔
      ∃ page < 2 ^ 20, before.lastPage ≤ page ∧ page + count < 2 ^ 32 ∧
        ∀ offset < count, bitmapGet before.bitmap (page + offset) = false := by
  obtain ⟨position, taken, _, returned⟩ := pmmAlloc_done_of_reserved reserved positive run
  constructor
  · intro fit
    have word := after.lastPage_lt
    exact ⟨ptr / 4096, by omega, fit.from_hint, fit.hint ▸ word, fit.clear⟩
  · intro room
    obtain ⟨page, addressable, reached, word, clear⟩ := room
    have earlier : position ≤ page := by
      refine taken.first.le reached ?_
      intro offset bound
      rw [Pmm.Clear, Nat.mod_eq_of_lt (by omega)]
      exact clear offset bound
    have here : ptr / 4096 = position := by omega
    rw [here]
    exact taken.firstFit (by omega)

theorem pmm_alloc_first_fit_hundred :
    FirstFit hundredPages 2 1 (pmmAlloc 5 2 hundredPages).after := by
  refine (pmm_alloc_first_fit_iff rfl (by decide)
    (show pmmAlloc 5 2 hundredPages = .done 4096 (pmmAlloc 5 2 hundredPages).after from rfl)).mpr ?_
  refine ⟨1, by decide, by decide, by decide, ?_⟩
  intro offset bound
  have cases : offset = 0 ∨ offset = 1 := by omega
  rcases cases with rfl | rfl <;> rfl

/-! The managed limit -/

/-- The search stops at `pmm_page_count`, or finds what it looks for below it. -/
def SearchStays (pmm : Pmm) (count : Nat) : Prop :=
  pmm.Stops ∨ RoomBelow pmm.pageCount pmm count

/-- No search of the call passes `pmm_page_count`. -/
def StaysBelow (pmm : Pmm) (count : Nat) : Prop :=
  SearchStays pmm count ∧ (StartsAtZero pmm count → SearchStays (pmm.retry count) count)

/-- The search ends, the hint never passes `pmm_page_count` on the way, and a
window that is found lies below it. -/
structure SearchLimited (pmm : Pmm) (count : Nat) : Prop where
  hint : ∀ fuel, (pmmFindPages fuel count pmm).after.lastPage ≤ pmm.pageCount
  below : ∀ fuel first after, pmmFindPages fuel count pmm = .done first after → first + count ≤ pmm.pageCount
  ends : ∃ fuel, ∀ after, pmmFindPages fuel count pmm ≠ .running after

structure AllocLimited (pmm : Pmm) (count : Nat) : Prop where
  hint : ∀ fuel, (pmmAlloc fuel count pmm).after.lastPage ≤ pmm.pageCount
  below : ∀ fuel ptr after, pmmAlloc fuel count pmm = .done ptr after → ptr / 4096 + count ≤ pmm.pageCount
  ends : ∃ fuel, ∀ after, pmmAlloc fuel count pmm ≠ .running after

theorem SearchStays.passes (stays : SearchStays before count)
    (searching : Searching before count position pages pmm) : position ≤ before.pageCount := by
  rcases stays with stops | room
  · exact searching.limit stops
  · have word := before.pageCount_lt
    obtain ⟨first, reached, fits, window⟩ := room.window (Nat.le_of_lt word)
    have passed := searching.scan.le_window reached window
    omega

theorem SearchStays.taken (stays : SearchStays before count) (taken : Taken before count position after) :
    position + count ≤ before.pageCount := by
  rcases stays with stops | room
  · exact taken.limit stops
  · have word := before.pageCount_lt
    obtain ⟨first, reached, fits, window⟩ := room.window (Nat.le_of_lt word)
    have earlier := taken.first.le reached window
    omega

theorem SearchStays.limited (stays : SearchStays before count) (positive : 0 < count) :
    SearchLimited before count := by
  have word := before.pageCount_lt
  refine ⟨?_, ?_, ?_⟩
  · intro fuel
    have ends := pmmFindPages_ends fuel before positive
    cases outcome : pmmFindPages fuel count before with
    | done first after =>
        obtain ⟨position, _, taken⟩ := pmmFindPages_done positive outcome
        have below := stays.taken taken
        rw [Outcome.after, taken.hint, Nat.mod_eq_of_lt (by omega)]
        exact below
    | panicked message after =>
        rw [outcome] at ends
        obtain ⟨_, limit, _, _, searching⟩ := ends
        exact Nat.le_of_eq (limit.trans searching.pageCount)
    | faulted after =>
        rw [outcome] at ends
        exact ends.elim
    | running after =>
        rw [outcome] at ends
        obtain ⟨_, _, searching⟩ := ends
        have below := stays.passes searching
        rw [Outcome.after, searching.hint, Nat.mod_eq_of_lt (by omega)]
        exact below
  · intro fuel first after run
    obtain ⟨position, rfl, taken⟩ := pmmFindPages_done positive run
    have below := stays.taken taken
    omega
  · refine pmmFindPages_terminates positive ?_
    rcases stays with stops | room
    · exact .inl stops
    · obtain ⟨first, reached, _, window⟩ := room.window (Nat.le_of_lt word)
      exact .inr ⟨first, reached, window⟩

/-- The search from `before` comes by the loop's state `pages`, `pmm`. -/
def ComesBy (before : Pmm) (count pages : Nat) (pmm : Pmm) : Prop :=
  ∃ used, ∀ extra, pmmFindPages (used + extra) count before = findPagesLoop count extra pages pmm.lastPage pmm

theorem ComesBy.running (comes : ComesBy before count pages pmm) :
    ∃ fuel, pmmFindPages fuel count before = .running pmm := by
  obtain ⟨used, same⟩ := comes
  exact ⟨used, same 0⟩

theorem ComesBy.turn {more : Nat} {rest : Pmm} (comes : ComesBy before count pages pmm)
    (turn : ∀ extra, findPagesLoop count (extra + 1) pages pmm.lastPage pmm =
      findPagesLoop count extra more rest.lastPage rest) : ComesBy before count more rest := by
  obtain ⟨used, same⟩ := comes
  refine ⟨used + 1, fun extra => ?_⟩
  rw [Nat.add_assoc, Nat.add_comm 1 extra, same, turn]

/-- A scan for no more pages than are managed cannot jump over the end of the
32-bit page numbers, so that it passes the limit in plain sight. -/
theorem SearchLimited.stays (limited : SearchLimited before count) (positive : 0 < count)
    (hint : before.lastPage ≤ before.pageCount) (small : before.pageCount < 2 ^ 20) :
    SearchStays before count := by
  obtain ⟨fuel, ended⟩ := limited.ends
  have short : ∀ first after, pmmFindPages fuel count before = .done first after → count ≤ before.pageCount :=
    fun first after run => Nat.le_trans (Nat.le_add_left _ _) (limited.below fuel first after run)
  have ends : SearchEnds count
      (fun pages pmm => ∃ position, Searching before count position pages pmm ∧
        ComesBy before count pages pmm ∧ (count ≤ before.pageCount → position ≤ before.pageCount))
      (pmmFindPages fuel count before) := by
    apply findPagesLoop_ends
    · intro pages pmm state
      obtain ⟨_, searching, _⟩ := state
      exact searching.scan.unfinished
    · intro pages pmm state elsewhere read more
      obtain ⟨position, searching, comes, below⟩ := state
      exact ⟨position, searching.grow read more, comes.turn fun _ => findPagesLoop_grow more elsewhere read, below⟩
    · intro pages pmm state elsewhere read
      obtain ⟨position, searching, comes, below⟩ := state
      have unfinished := searching.scan.unfinished
      have next := searching.skip elsewhere read
      have passes : ComesBy before count 0 (pmm.skip pages) :=
        comes.turn fun _ => findPagesLoop_skip unfinished elsewhere read
      refine ⟨_, next, passes, fun fits => ?_⟩
      obtain ⟨used, running⟩ := passes.running
      have seen := limited.hint used
      have near := below fits
      have moved : stride pages ≤ count := by
        unfold stride
        split <;> omega
      rw [running, Outcome.after, next.hint] at seen
      omega
    · exact ⟨_, Searching.initial positive, ⟨0, fun extra => by rw [Nat.zero_add]; rfl⟩, fun _ => hint⟩
  cases outcome : pmmFindPages fuel count before with
  | done first after =>
      have fits := short first after outcome
      rw [outcome] at ends
      obtain ⟨pages, pmm, ⟨position, searching, _, below⟩, finished, _, read, here, _⟩ := ends
      have near := below fits
      have inside := limited.below fuel first after outcome
      have plain : pmm.lastPage = position := by
        rw [searching.hint, Nat.mod_eq_of_lt (by omega)]
      refine .inr ⟨position, searching.scan.from_start, by omega, ?_⟩
      intro offset bound
      have clear := (searching.scan.found (searching.clear_iff.mp read) finished).window offset bound
      rwa [Pmm.Clear, Nat.mod_eq_of_lt (by omega)] at clear
  | panicked message after => exact .inl (exhausted_of_panicked positive (.inl hint) outcome).1
  | faulted after =>
      rw [outcome] at ends
      exact ends.elim
  | running after => exact absurd outcome (ended after)

theorem searchLimited_iff (positive : 0 < count) (hint : pmm.lastPage ≤ pmm.pageCount)
    (small : pmm.pageCount < 2 ^ 20) : SearchLimited pmm count ↔ SearchStays pmm count :=
  ⟨fun limited => limited.stays positive hint small, fun stays => stays.limited positive⟩

theorem SearchStays.congr {left right : Pmm} (stays : SearchStays left count) (same : right.SameBits left)
    (pageCount : right.pageCount = left.pageCount) : SearchStays right count := by
  obtain ⟨bits, hint⟩ := same
  unfold SearchStays Pmm.Stops RoomBelow Pmm.Clear at *
  rwa [bits, hint, pageCount]

/-- Where the first search found page 0, the second is limited as well. -/
theorem StaysBelow.again {found : Pmm} (stays : StaysBelow before count) (positive : 0 < count)
    (taken : Taken before count position found) (wrapped : position % 2 ^ 32 = 0) :
    SearchLimited (found.withLastPage 0) count ∧ (found.withLastPage 0).pageCount = before.pageCount := by
  obtain ⟨bits, hint, pageCount⟩ := taken.retry wrapped
  have second := stays.2 ⟨position, wrapped, taken.first⟩
  exact ⟨(second.congr ⟨bits, hint⟩ pageCount).limited positive, taken.pageCount⟩

theorem StaysBelow.hint (stays : StaysBelow before count) (positive : 0 < count) (fuel : Nat) :
    (pmmAlloc fuel count before).after.lastPage ≤ before.pageCount := by
  have hint := (stays.1.limited positive).hint fuel
  unfold pmmAlloc
  cases search : pmmFindPages fuel count before with
  | done page found =>
      obtain ⟨position, rfl, taken⟩ := pmmFindPages_done positive search
      rw [search] at hint
      rw [Outcome.done_bind]
      split
      · rename_i wrapped
        obtain ⟨second, pageCount⟩ := stays.again positive taken wrapped
        have again := second.hint fuel
        rw [pageCount] at again
        cases retry : pmmFindPages fuel count (found.withLastPage 0) with
        | _ =>
            rw [retry] at again
            exact again
      · exact hint
  | _ =>
      rw [search] at hint
      exact hint

theorem StaysBelow.below (stays : StaysBelow before count) (positive : 0 < count)
    (run : pmmAlloc fuel count before = .done ptr after) : ptr / 4096 + count ≤ before.pageCount := by
  obtain ⟨page, found, search, rest⟩ := Outcome.bind_done.mp run
  have below := (stays.1.limited positive).below fuel page found search
  obtain ⟨position, rfl, taken⟩ := pmmFindPages_done positive search
  split at rest
  · rename_i wrapped
    obtain ⟨second, pageCount⟩ := stays.again positive taken wrapped
    obtain ⟨again, last, retry, finished⟩ := Outcome.bind_done.mp rest
    have inside := second.below fuel again last retry
    injection finished with returned
    omega
  · injection rest with returned
    omega

theorem StaysBelow.ends (stays : StaysBelow before count) (positive : 0 < count) :
    ∃ fuel, ∀ after, pmmAlloc fuel count before ≠ .running after := by
  obtain ⟨fuel, ended⟩ := (stays.1.limited positive).ends
  cases search : pmmFindPages fuel count before with
  | done page found =>
      obtain ⟨position, rfl, taken⟩ := pmmFindPages_done positive search
      by_cases wrapped : position % 2 ^ 32 = 0
      · obtain ⟨more, stopped⟩ := (stays.again positive taken wrapped).1.ends
        refine ⟨max fuel more, ?_⟩
        have same : pmmFindPages (max fuel more) count before = _ :=
          pmmFindPages_more (Nat.le_max_left fuel more) ended
        have retry : pmmFindPages (max fuel more) count (found.withLastPage 0) = _ :=
          pmmFindPages_more (Nat.le_max_right fuel more) stopped
        intro after running
        rw [pmmAlloc, same, search, Outcome.done_bind, if_pos wrapped, retry] at running
        cases second : pmmFindPages more count (found.withLastPage 0) with
        | running last => exact absurd second (stopped last)
        | _ =>
            rw [second] at running
            cases running
      · refine ⟨fuel, fun after running => ?_⟩
        rw [pmmAlloc, search, Outcome.done_bind, if_neg wrapped] at running
        cases running
  | running after => exact absurd search (ended after)
  | _ =>
      refine ⟨fuel, fun after running => ?_⟩
      rw [pmmAlloc, search] at running
      cases running

theorem StaysBelow.limited (stays : StaysBelow before count) (positive : 0 < count) :
    AllocLimited before count :=
  ⟨stays.hint positive, fun _ _ _ => stays.below positive, stays.ends positive⟩

/-! Whole runs -/

structure UnderLimit (pmm : Pmm) : Prop where
  hint : pmm.lastPage ≤ pmm.pageCount
  small : pmm.pageCount < 2 ^ 20

theorem pmmInstall_underLimit (install : pmmInstall fuel mbd kernelEnd (Pmm.initial memory) = .done () booted) :
    UnderLimit booted := by
  obtain ⟨front, region, back, kernel, _⟩ := pmmInstall_done install
  obtain ⟨hint, _, _⟩ := pmmInstall_words kernel install
  have sized := pmmInstall_sized kernel install
  exact ⟨hint ▸ Nat.zero_le _, sized.pageCount⟩

theorem UnderLimit.step (under : UnderLimit held.pmm)
    (step : PmmStep (fun before count _ => StaysBelow before count) held next) : UnderLimit next.pmm := by
  cases step with
  | @alloc fuel count ptr pmm after live positive run stays =>
      have hint := (stays.limited positive).hint fuel
      have same := (pmmAlloc_words run).1
      rw [run] at hint
      exact ⟨same ▸ hint, same ▸ under.small⟩
  | free member =>
      refine ⟨?_, ?_⟩
      · rw [pmmFree_lastPage, pmmFree_pageCount]
        exact under.hint
      · rw [pmmFree_pageCount]
        exact under.small

theorem UnderLimit.call (under : UnderLimit held.pmm)
    (call : PmmCall (fun before count _ => StaysBelow before count) held next) : UnderLimit next.pmm := by
  cases call with
  | step made => exact under.step made
  | nothing run =>
      obtain ⟨_, rfl⟩ := pmmAlloc_zero run
      exact ⟨Nat.zero_le _, under.small⟩

/-- In a run whose searches stop at the limit, or find room below it, the hint
never passes it, and each search is limited exactly where it does so. -/
theorem pmm_pages_below_limit
    (install : pmmInstall fuel mbd kernelEnd (Pmm.initial memory) = .done () booted)
    (run : PmmCalls (fun before count _ => StaysBelow before count) ⟨booted, []⟩ holding) :
    holding.pmm.lastPage ≤ holding.pmm.pageCount ∧ ∀ count, 0 < count →
      (StaysBelow holding.pmm count → AllocLimited holding.pmm count) ∧
      (SearchLimited holding.pmm count ↔ SearchStays holding.pmm count) := by
  have under : UnderLimit holding.pmm := by
    induction run with
    | refl => exact pmmInstall_underLimit install
    | tail _ call ih => exact ih.call call
  exact ⟨under.hint, fun count positive =>
    ⟨fun stays => stays.limited positive, searchLimited_iff positive under.hint under.small⟩⟩

theorem pmm_pages_below_limit_pc :
    ∃ booted, pmmInstall (2 ^ 20 + 2) (pcInfo 0x7EE0000 (by decide)) 0x220000
        (Pmm.initial fun _ => 0) = .done () booted ∧ AllocLimited booted 0x7CBF := by
  obtain ⟨booted, install, hint, limit, _, reserved, free⟩ := pcMap_booted fun _ => 0
  have stays : StaysBelow booted 0x7CBF := by
    refine ⟨.inr ⟨0x221, by omega, by omega, fun offset bound => free _ (by omega) (by omega)⟩, ?_⟩
    intro zero
    obtain ⟨position, wrapped, first⟩ := zero
    have clear := first.window 0 (by decide)
    rw [Pmm.Clear, Nat.add_zero, wrapped, reserved 0 (by decide)] at clear
    cases clear
  exact ⟨booted, install, ((pmm_pages_below_limit install .refl).2 0x7CBF (by decide)).1 stays⟩

/-! A request that runs past the limit -/

/-- Where both bits around the limit are clear, a request that fits behind the
bitmap but not below the limit is met nonetheless. -/
theorem pmmAlloc_past_limit {lead limit finish : Nat} (hint : pmm.lastPage = 0) (pageCount : pmm.pageCount = limit)
    (passed : ∀ page < lead, bitmapGet pmm.bitmap page = true)
    (free : ∀ page, lead ≤ page → page < finish → bitmapGet pmm.bitmap page = false)
    (positive : 0 < count) (room : lead + count ≤ finish) (nonzero : 0 < lead) (around : lead < limit ∧ limit < finish)
    (word : finish < 2 ^ 32) :
    ∃ fuel after, pmmAlloc fuel count pmm = .done (lead * 4096 % 2 ^ 32) after ∧ Taken pmm count lead after := by
  obtain ⟨above, under⟩ := around
  have clear : ∀ page, lead ≤ page → page < finish → pmm.Clear page := by
    intro page lower upper
    rw [Pmm.Clear, Nat.mod_eq_of_lt (by omega)]
    exact free page lower upper
  have first : FirstWindow pmm.Clear pmm.lastPage count lead := by
    refine ⟨by omega, fun offset bound => clear _ (by omega) (by omega), ?_⟩
    intro earlier _ before window
    have start := window 0 positive
    rw [Pmm.Clear, Nat.add_zero, Nat.mod_eq_of_lt (by omega), passed earlier before] at start
    cases start
  have more : ¬ Exhausted pmm count := by
    intro exhausted
    rcases exhausted.1 with here | ⟨_, stop | stop⟩
    · omega
    · exact stop (clear _ (by omega) (by omega))
    · exact stop (clear _ (by omega) (by omega))
  obtain ⟨fuel, after, search, taken⟩ := pmmFindPages_returns positive (.inl (by omega)) more first
  rw [Nat.mod_eq_of_lt (by omega)] at search
  refine ⟨fuel, after, Outcome.bind_done.mpr ⟨lead, after, search, ?_⟩, taken⟩
  rw [if_neg (by omega)]

/-- With 128 MiB, a request for all but one of the pages behind the bitmap is
granted one page past `pmm_page_count`. -/
theorem pmmAlloc_passes_limit :
    ∃ booted fuel after, pmmInstall (2 ^ 20 + 2) (pcInfo 0x7EE0000 (by decide)) 0x220000
        (Pmm.initial fun _ => 0) = .done () booted ∧
      pmmAlloc fuel 0x7CC0 booted = .done 0x221000 after ∧
      booted.pageCount < 0x221000 / 4096 + 0x7CC0 ∧ after.pageCount < after.lastPage := by
  obtain ⟨booted, install, hint, limit, _, reserved, free⟩ := pcMap_booted fun _ => 0
  have granted : ∃ fuel after, pmmAlloc fuel 0x7CC0 booted = .done 0x221000 after ∧ Taken booted 0x7CC0 0x221 after :=
    pmmAlloc_past_limit hint limit reserved free (by decide) (by decide) (by decide) (by decide) (by decide)
  obtain ⟨fuel, after, run, taken⟩ := granted
  have stands : after.lastPage = (0x221 + 0x7CC0) % 2 ^ 32 := taken.hint
  refine ⟨booted, fuel, after, install, run, by omega, ?_⟩
  rw [taken.pageCount, stands, limit]
  decide

/-- With memory to the end of the address space the hint is left at page
`2 ^ 20`, and the next page handed out is page 0. -/
theorem pmmAlloc_wraps :
    ∃ booted full after, pmmInstall (2 ^ 20 + 2) (pcInfo 0xFFEE0000 (by decide)) 0x220000
        (Pmm.initial fun _ => 0) = .done () booted ∧
      PmmRuns (fun _ _ _ => True) ⟨booted, []⟩ ⟨full, [⟨0x240000, 0xFFDC0⟩]⟩ ∧
      bitmapGet full.bitmap 0 = true ∧ pmmAlloc 1 1 full = .done 0 after ∧ ¬ FirstFit full 1 (0 / 4096) after := by
  have size : bitmapSizeOf (pcRegion 0xFFEE0000 (by decide)) = 0x20000 := by decide
  obtain ⟨booted, install, hint, limit, reserved, free, behind⟩ :=
    pcMap_bits 0xFFEE0000 (by decide) (by decide) (by decide) (by rw [size]) fun _ => 0
  rw [size] at reserved free behind
  have room : ∀ page, 0x240 ≤ page → page < 0x100000 → bitmapGet booted.bitmap page = false :=
    fun page lower upper => free page lower (by omega) (by omega)
  have granted : ∃ fuel after, pmmAlloc fuel 0xFFDC0 booted = .done 0x240000 after ∧ Taken booted 0xFFDC0 0x240 after :=
    pmmAlloc_past_limit hint limit reserved room (by decide) (by decide) (by decide) (by decide) (by decide)
  obtain ⟨fuel, full, run, taken⟩ := granted
  have stands : full.lastPage = 0x100000 := taken.hint
  have pages : full.pageCount = 0xFFEE0 := taken.pageCount.trans limit
  have clear : bitmapGet full.bitmap ((full.lastPage + 0) % 2 ^ 32) = false := by
    rw [stands, ← Bool.not_eq_true, taken.bits, behind _ (by decide) rfl]
    intro set
    rcases set with wrong | ⟨offset, bound, here⟩
    · cases wrong
    · omega
  have next : pmmAlloc 1 1 full = .done 0 (full.take 0) := by
    have search : pmmFindPages 1 1 full = .done full.lastPage (full.take 0) :=
      findPagesLoop_take (by decide) rfl (by rw [stands, pages]; decide) clear
    rw [pmmAlloc, search, stands]
    rfl
  have step : PmmStep (fun _ _ _ => True) ⟨booted, []⟩ ⟨full, [⟨0x240000, 0xFFDC0⟩]⟩ :=
    .alloc (by decide) run trivial
  refine ⟨booted, full, full.take 0, install, .single step, ?_, next, ?_⟩
  · exact (taken.bits 0).mpr (.inl (reserved 0 (by decide)))
  · intro fit
    have from_hint := fit.from_hint
    rw [stands] at from_hint
    omega

end BarrelOS.Memory
