import BarrelOS.Data.Count
import BarrelOS.Memory.Exhaustion

namespace BarrelOS.Memory

open BarrelOS.Boot BarrelOS.Data BarrelOS.Semantics

variable {fuel count position ptr kernelEnd : Nat} {pmm before after booted : Pmm} {memory bitmap : Bitmap}
  {region : MultibootMemoryMap} {front back : List MultibootMemoryMap} {mbd : MultibootInfo}
  {held next holding : Holding}

/-! What the loops of `pmm_get_used_mem` compute -/

theorem bitmapGet_byte {i bit : Nat} (inside : bit < 8) :
    bitmapGet bitmap (8 * i + bit) = true ↔ bitmap i &&& 1#8 <<< bit ≠ 0#8 := by
  have byte : (8 * i + bit) / 8 = i := by omega
  have index : (8 * i + bit) % 8 = bit := by omega
  rw [bitmapGet, byte, index]
  simp

theorem usedBits_eq (i counted : Nat) (word : counted < 2 ^ 32) {bits : Nat} (inside : bits ≤ 8) :
    usedBits (bitmap i) counted bits =
      (counted + 4096 * Nat.count (fun bit => bitmapGet bitmap (8 * i + bit) = true) bits) % 2 ^ 32 := by
  induction bits with
  | zero => exact (Nat.mod_eq_of_lt word).symm
  | succ bit ih =>
      have here : bitmapGet bitmap (8 * i + bit) = true ↔ bitmap i &&& 1#8 <<< bit ≠ 0#8 :=
        bitmapGet_byte (by omega)
      rw [usedBits, ih (by omega), Nat.count_succ]
      simp only [← here]
      split <;> omega

theorem usedBytes_eq (bytes : Nat) :
    usedBytes bitmap bytes = 4096 * Nat.count (fun bit => bitmapGet bitmap bit = true) (8 * bytes) % 2 ^ 32 := by
  induction bytes with
  | zero => rfl
  | succ i ih =>
      have word : usedBytes bitmap i < 2 ^ 32 := ih ▸ Nat.mod_lt _ (by decide)
      rw [usedBytes, Nat.mul_succ, Nat.count_add]
      by_cases empty : bitmap i = 0#8
      · have none : Nat.count (fun bit => bitmapGet bitmap (8 * i + bit) = true) 8 = 0 := by
          rw [Nat.count_iff_forall_not]
          intro bit inside set
          exact (bitmapGet_byte inside).mp set (by simp [empty])
        simp only [empty, ne_eq, not_true_eq_false, if_false, none, Nat.add_zero]
        exact ih
      · simp only [ne_eq, empty, not_false_eq_true, if_true]
        rw [usedBits_eq i _ word (Nat.le_refl 8), ih]
        omega

def Pmm.setBits (pmm : Pmm) : Nat := Nat.count (fun bit => bitmapGet pmm.bitmap bit = true) (8 * pmm.bitmapSize)

def Pmm.clearBits (pmm : Pmm) : Nat := Nat.count (fun bit => ¬ bitmapGet pmm.bitmap bit = true) (8 * pmm.bitmapSize)

theorem pmmGetUsedMem_eq (pmm : Pmm) : pmmGetUsedMem pmm = 4096 * pmm.setBits % 2 ^ 32 :=
  usedBytes_eq pmm.bitmapSize

theorem Pmm.setBits_add_clearBits (pmm : Pmm) : pmm.setBits + pmm.clearBits = 8 * pmm.bitmapSize :=
  count_add_count_not _

/-- The totals are those of the bitmap, as exact integers. -/
structure UsageExact (pmm : Pmm) : Prop where
  used : pmmGetUsedMem pmm = 4096 * pmm.setBits
  within : pmmGetUsedMem pmm ≤ pmmGetTotalMem pmm
  unused : pmmGetTotalMem pmm - pmmGetUsedMem pmm = 4096 * pmm.clearBits

/-- A bitmap for the whole address space makes the total wrap to 0. -/
theorem usageExact_iff (small : pmm.bitmapSize ≤ 131072) : UsageExact pmm ↔ pmm.bitmapSize < 131072 := by
  have used := pmmGetUsedMem_eq pmm
  have total : pmmGetTotalMem pmm = pmm.bitmapSize * 4096 % 2 ^ 32 * 8 % 2 ^ 32 := rfl
  have parts := pmm.setBits_add_clearBits
  constructor
  · intro exact
    have counted := exact.used
    have within := exact.within
    have unused := exact.unused
    by_contra full
    omega
  · intro fits
    exact ⟨by omega, by omega, by omega⟩

/-! Allocations and frees -/

theorem Taken.setBits (taken : Taken before count position after) (positive : 0 < count)
    (inside : HandsOutBelow (8 * before.bitmapSize) before after) (small : before.bitmapSize ≤ 131072) :
    after.setBits = before.setBits + count := by
  have below := taken.below inside (by omega)
  have last := below (count - 1) (by omega)
  have window : ∀ bit, (∃ offset < count, bit = (position + offset) % 2 ^ 32) ↔
      bit ∈ Set.Ico (position % 2 ^ 32) (position % 2 ^ 32 + count) := by
    intro bit
    constructor
    · intro marked
      obtain ⟨offset, bound, same⟩ := marked
      have here := below offset bound
      exact ⟨by omega, by omega⟩
    · intro between
      obtain ⟨lower, upper⟩ := between
      exact ⟨bit - position % 2 ^ 32, by omega, by omega⟩
  unfold Pmm.setBits
  rw [taken.bitmapSize]
  refine count_add_interval (fun bit => by rw [taken.bits, window]) ?_ (by omega)
  intro bit between
  obtain ⟨offset, bound, same⟩ := (window bit).mpr between
  have clear := taken.first.window offset bound
  rw [Pmm.Clear, ← same] at clear
  simp [clear]

/-- A call that finds page 0 on its way reserves the pages it asks for twice. -/
theorem pmmAlloc_setBits (positive : 0 < count) (run : pmmAlloc fuel count before = .done ptr after)
    (inside : HandsOutBelow (8 * before.bitmapSize) before after) (small : before.bitmapSize ≤ 131072) :
    after.bitmapSize = before.bitmapSize ∧
      (¬ StartsAtZero before count ∧ after.setBits = before.setBits + count ∨
        StartsAtZero before count ∧ after.setBits = before.setBits + 2 * count) := by
  obtain ⟨middle, position, taken, _, ⟨rfl, nonzero⟩ | ⟨lowest, found, first, wrapped, rfl⟩⟩ :=
    pmmAlloc_done positive run
  · refine ⟨taken.bitmapSize, .inl ⟨?_, taken.setBits positive inside small⟩⟩
    intro zero
    obtain ⟨other, wrapped, found⟩ := zero
    exact nonzero (found.unique taken.first ▸ wrapped)
  · have size : (found.withLastPage 0).bitmapSize = before.bitmapSize := first.bitmapSize
    have kept : ∀ page, bitmapGet found.bitmap page = true → bitmapGet after.bitmap page = true :=
      fun page set => (taken.bits page).mpr (.inl set)
    have firstInside : HandsOutBelow (8 * before.bitmapSize) before found :=
      fun page set => inside page (kept page set)
    have secondInside : HandsOutBelow (8 * (found.withLastPage 0).bitmapSize) (found.withLastPage 0) after := by
      intro page set
      rw [size]
      exact (inside page set).imp_left fun already => (first.bits page).mpr (.inl already)
    have raised := first.setBits positive firstInside small
    have again := taken.setBits positive secondInside (size ▸ small)
    have same : (found.withLastPage 0).setBits = found.setBits := rfl
    refine ⟨taken.bitmapSize.trans size, .inr ⟨⟨lowest, wrapped, first.first⟩, ?_⟩⟩
    omega

theorem pmmFree_setBits {owner : Allocation} (held : owner.pages ⊆ pmm.used)
    (inside : owner.ptr / 4096 + owner.count ≤ 8 * pmm.bitmapSize) (small : pmm.bitmapSize ≤ 131072) :
    (pmmFree owner.ptr owner.count pmm).setBits + owner.count = pmm.setBits := by
  unfold Pmm.setBits
  rw [pmmFree_bitmapSize]
  have physical : owner.ptr / 4096 + owner.count ≤ 2 ^ 32 := by omega
  refine (count_add_interval ?_ ?_ inside).symm
  · intro bit
    rw [bitmapGet_pmmFree physical]
    by_cases between : bit ∈ Set.Ico (owner.ptr / 4096) (owner.ptr / 4096 + owner.count)
    · exact iff_of_true (held between) (.inr between)
    · simp only [between, not_false_eq_true, and_true, or_false]
  · intro bit between set
    exact ((bitmapGet_pmmFree physical).mp set).2 between

/-- The call sets bits of the bitmap only. -/
def InsideBitmap (before : Pmm) (_ : Nat) (after : Pmm) : Prop :=
  HandsOutBelow (8 * before.bitmapSize) before after

/-- What runs inside the bitmap keep: the allocations held lie in the bitmap,
apart from each other, and their bits are set. -/
structure Tallied (start : Pmm) (holding : Holding) : Prop where
  bitmapSize : holding.pmm.bitmapSize = start.bitmapSize
  inside : ∀ owner ∈ holding.live, 0 < owner.count ∧ owner.ptr / 4096 + owner.count ≤ 8 * start.bitmapSize
  distinct : holding.live.Nodup
  owned : Owned Allocation.pages holding.pmm.used { owner | owner ∈ holding.live }

theorem Tallied.initial {start : Pmm} : Tallied start ⟨start, []⟩ where
  bitmapSize := rfl
  inside := by simp
  distinct := List.nodup_nil
  owned := by simpa using Owned.opened

theorem Tallied.step {start : Pmm} (small : start.bitmapSize ≤ 131072) (tallied : Tallied start held)
    (step : PmmStep InsideBitmap held next) : Tallied start next := by
  obtain ⟨size, inside, distinct, owned⟩ := tallied
  cases step with
  | @alloc fuel count ptr pmm after live positive run handed =>
      have same := (pmmAlloc_setBits positive run handed (Nat.le_of_eq size |>.trans small)).1
      have limit : 8 * pmm.bitmapSize ≤ 2 ^ 20 := by
        change pmm.bitmapSize = start.bitmapSize at size
        omega
      have provided := pmmAlloc_provided positive run handed limit
      have below : ptr / 4096 + count ≤ 8 * start.bitmapSize := size ▸ provided.below
      have unheld : ⟨ptr, count⟩ ∉ live := by
        intro member
        have first : ptr / 4096 ∈ (Allocation.mk ptr count).pages := ⟨Nat.le_refl _, by simpa using positive⟩
        exact Set.disjoint_left.mp provided.unused first (owned.held _ member first)
      have grown : { owner | owner ∈ ⟨ptr, count⟩ :: live } = insert ⟨ptr, count⟩ { owner | owner ∈ live } := by
        ext owner
        simp
      refine ⟨same.trans size, List.forall_mem_cons.mpr ⟨⟨positive, below⟩, inside⟩,
        List.nodup_cons.mpr ⟨unheld, distinct⟩, ?_⟩
      rw [grown]
      exact owned.acquire provided.unused provided.kept provided.taken
  | @free owner pmm live member =>
      have bounds := inside owner member
      have shrunk : { other | other ∈ live.erase owner } = { other | other ∈ live } \ {owner} := by
        ext other
        simp [distinct.mem_erase_iff, and_comm]
      refine ⟨by simpa using size, fun other kept => inside other (List.mem_of_mem_erase kept), distinct.erase owner, ?_⟩
      rw [shrunk]
      exact owned.release member (used_pmmFree (by omega)).ge

theorem Tallied.run {start : Pmm} (small : start.bitmapSize ≤ 131072) (tallied : Tallied start held)
    (run : PmmCalls InsideBitmap held holding) : Tallied start holding := by
  induction run with
  | refl => exact tallied
  | tail _ call ih =>
      cases call with
      | step made => exact ih.step small made
      | nothing run =>
          obtain ⟨_, rfl⟩ := pmmAlloc_zero run
          exact ⟨ih.bitmapSize, ih.inside, ih.distinct, ih.owned⟩

theorem pmmCalls_bitmapSize {grant : Pmm → Nat → Pmm → Prop} (run : PmmCalls grant held holding) :
    holding.pmm.bitmapSize = held.pmm.bitmapSize := by
  induction run with
  | refl => rfl
  | tail _ call ih =>
      refine Eq.trans ?_ ih
      cases call with
      | step made =>
          cases made with
          | alloc _ run _ => exact (pmmAlloc_words run).2
          | free _ => exact pmmFree_bitmapSize
      | nothing run => exact (pmmAlloc_words run).2

theorem bitmapSizeOf_lt_iff : bitmapSizeOf region < 131072 ↔ region.lenLow < 0xF8008000 := by
  have word := region.lenLow_lt
  unfold bitmapSizeOf alignUp divCeiling
  omega

/-- In every state reached the totals are exact if and only if the bitmap does
not cover the whole address space. A call inside the bitmap then raises the used
memory by what it asks for unless it finds page 0 first, and a free lowers it by
what it gives back. -/
theorem pmm_accounting_iff (kernel : KernelRegion mbd.mmap front region back)
    (install : pmmInstall fuel mbd kernelEnd (Pmm.initial memory) = .done () booted)
    (run : PmmCalls (fun _ _ _ => True) ⟨booted, []⟩ holding) :
    (UsageExact holding.pmm ↔ region.lenLow < 0xF8008000) ∧
    (region.lenLow < 0xF8008000 →
      (∀ fuel count ptr after, pmmAlloc fuel count holding.pmm = .done ptr after →
        InsideBitmap holding.pmm count after →
        (pmmGetUsedMem after = pmmGetUsedMem holding.pmm + 4096 * count ↔
          count = 0 ∨ ¬ StartsAtZero holding.pmm count)) ∧
      (PmmCalls InsideBitmap ⟨booted, []⟩ holding → ∀ owner ∈ holding.live,
        pmmGetUsedMem (pmmFree owner.ptr owner.count holding.pmm) + 4096 * owner.count =
          pmmGetUsedMem holding.pmm)) := by
  have words := pmmInstall_words kernel install
  have size : holding.pmm.bitmapSize = bitmapSizeOf region := (pmmCalls_bitmapSize run).trans words.2.2
  have small := bitmapSizeOf_le region
  have exact : UsageExact holding.pmm ↔ _ := usageExact_iff (size ▸ small)
  rw [size, bitmapSizeOf_lt_iff] at exact
  refine ⟨exact, fun short => ⟨?_, ?_⟩⟩
  · intro fuel count ptr after alloc inside
    rcases Nat.eq_zero_or_pos count with rfl | positive
    · obtain ⟨_, rfl⟩ := pmmAlloc_zero alloc
      exact iff_of_true rfl (.inl rfl)
    · obtain ⟨same, raised⟩ := pmmAlloc_setBits positive alloc inside (size ▸ small)
      have before := (exact.mpr short).used
      have fits : after.bitmapSize < 131072 := by
        rw [same, size]
        exact bitmapSizeOf_lt_iff.mpr short
      have used := ((usageExact_iff (Nat.le_of_lt fits)).mpr fits).used
      have some : count ≠ 0 := by omega
      rw [before, used, or_iff_right some]
      rcases raised with ⟨direct, raised⟩ | ⟨zero, raised⟩
      · exact iff_of_true (by omega) direct
      · exact iff_of_false (by omega) (not_not.mpr zero)
  · intro inside owner member
    have tallied := Tallied.initial.run (words.2.2 ▸ small) inside
    have bounds := tallied.inside owner member
    have lowered := pmmFree_setBits (tallied.owned.held owner member) (tallied.bitmapSize ▸ bounds.2) (size ▸ small)
    have fits : (pmmFree owner.ptr owner.count holding.pmm).bitmapSize < 131072 := by
      rw [pmmFree_bitmapSize, size]
      exact bitmapSizeOf_lt_iff.mpr short
    have before := (exact.mpr short).used
    have after := ((usageExact_iff (Nat.le_of_lt fits)).mpr fits).used
    omega

theorem pmm_accounting_pc :
    ∃ booted, pmmInstall (2 ^ 20 + 2) (pcInfo 0x7EE0000 (by decide)) 0x220000
        (Pmm.initial fun _ => 0) = .done () booted ∧ UsageExact booted := by
  have map := pcMap_boot 0x7EE0000 (by decide) (by decide) (by decide) (by decide)
  obtain ⟨booted, install⟩ :=
    pcMap_install 0x7EE0000 (by decide) (by decide) (by decide) (by decide) fun _ => 0
  exact ⟨booted, install, (pmm_accounting_iff map.toKernelRegion install .refl).1.mpr (by decide)⟩

/-- With a bitmap for the whole address space the total is reported as 0. -/
theorem pmmGetTotalMem_wraps :
    ∃ booted, pmmInstall (2 ^ 20 + 2) (pcInfo 0xF8008000 (by decide)) 0x220000
        (Pmm.initial fun _ => 0) = .done () booted ∧
      pmmGetTotalMem booted = 0 ∧ 0 < pmmGetUsedMem booted := by
  have size : bitmapSizeOf (pcRegion 0xF8008000 (by decide)) = 131072 := by decide
  have map := pcMap_boot 0xF8008000 (by decide) (by decide) (by decide) (by decide)
  obtain ⟨booted, install, _, _, reserved, free, _⟩ :=
    pcMap_bits 0xF8008000 (by decide) (by decide) (by decide) (by rw [size]; decide) fun _ => 0
  have sized : booted.bitmapSize = 131072 := (pmmInstall_words map.toKernelRegion install).2.2.trans size
  rw [size] at reserved free
  have reserves : 0 < booted.setBits := by
    refine Nat.pos_of_ne_zero (Nat.count_ne_iff_exists.mpr ⟨0, ?_, reserved 0 (by decide)⟩)
    rw [sized]
    decide
  have others : 0 < booted.clearBits := by
    refine Nat.pos_of_ne_zero (Nat.count_ne_iff_exists.mpr ⟨0x240, ?_, ?_⟩)
    · rw [sized]
      decide
    · rw [free 0x240 (by decide) (by decide) (by decide)]
      decide
  have parts := booted.setBits_add_clearBits
  have used := pmmGetUsedMem_eq booted
  exact ⟨booted, install, by simp [pmmGetTotalMem, sized], by omega⟩

end BarrelOS.Memory
