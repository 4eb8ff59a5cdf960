import BarrelOS.Data.Ledger
import BarrelOS.Memory.Alloc
import Mathlib.Data.Set.Pairwise.List
import Mathlib.Logic.Relation

namespace BarrelOS.Memory

open BarrelOS.Data BarrelOS.Semantics

/-- A pointer `pmm_alloc` returned, with the page count it was asked for. -/
structure Allocation where
  ptr : Nat
  count : Nat
deriving DecidableEq, Repr

def Allocation.pages (owner : Allocation) : Set Nat :=
  Set.Ico (owner.ptr / 4096) (owner.ptr / 4096 + owner.count)

/-- The allocator together with the allocations its callers still hold. -/
structure Holding where
  pmm : Pmm
  live : List Allocation

/-- A caller allocates at least one page, in a call that meets `grant`, or frees
an allocation it holds. -/
inductive PmmStep (grant : Pmm → Nat → Pmm → Prop) : Holding → Holding → Prop
  | alloc {fuel count ptr : Nat} {pmm after : Pmm} {live : List Allocation}
      (positive : 0 < count)
      (run : pmmAlloc fuel count pmm = .done ptr after)
      (granted : grant pmm count after) :
      PmmStep grant ⟨pmm, live⟩ ⟨after, ⟨ptr, count⟩ :: live⟩
  | free {owner : Allocation} {pmm : Pmm} {live : List Allocation} (member : owner ∈ live) :
      PmmStep grant ⟨pmm, live⟩ ⟨pmmFree owner.ptr owner.count pmm, live.erase owner⟩

def PmmRuns (grant : Pmm → Nat → Pmm → Prop) : Holding → Holding → Prop :=
  Relation.ReflTransGen (PmmStep grant)

/-- A step with any page count. Nobody holds anything of a call for no pages. -/
inductive PmmCall (grant : Pmm → Nat → Pmm → Prop) : Holding → Holding → Prop
  | step {held next : Holding} (made : PmmStep grant held next) : PmmCall grant held next
  | nothing {fuel ptr : Nat} {pmm after : Pmm} {live : List Allocation}
      (run : pmmAlloc fuel 0 pmm = .done ptr after) : PmmCall grant ⟨pmm, live⟩ ⟨after, live⟩

def PmmCalls (grant : Pmm → Nat → Pmm → Prop) : Holding → Holding → Prop :=
  Relation.ReflTransGen (PmmCall grant)

/-- The call hands out page numbers below `2 ^ 20` only, the pages of a 32-bit
address space. -/
def HandsOutPhysical (before : Pmm) (_ : Nat) (after : Pmm) : Prop :=
  HandsOutBelow (2 ^ 20) before after

/-- The pages whose bit is set. -/
def Pmm.used (pmm : Pmm) : Set Nat := { page | bitmapGet pmm.bitmap page = true }

/-- What every call keeps: page 0 stays reserved, and the bitmap is balanced
against the allocations still held. -/
structure Balanced (start : Pmm) (holding : Holding) : Prop where
  reserved : bitmapGet holding.pmm.bitmap 0 = true
  physical : ∀ owner ∈ holding.live,
    0 < owner.ptr / 4096 ∧ 0 < owner.count ∧ owner.ptr / 4096 + owner.count ≤ 2 ^ 20
  distinct : holding.live.Nodup
  ledger : Ledger Allocation.pages start.used holding.pmm.used { owner | owner ∈ holding.live }

theorem Balanced.initial {start : Pmm} (reserved : bitmapGet start.bitmap 0 = true) :
    Balanced start ⟨start, []⟩ where
  reserved
  physical := by simp
  distinct := List.nodup_nil
  ledger := by simpa using Ledger.opened

theorem Granted.unused_used {count limit ptr : Nat} {before after : Pmm}
    (granted : Granted before count limit ptr after) :
    Disjoint (Allocation.mk ptr count).pages before.used := by
  rw [Set.disjoint_left]
  intro page inside used
  have clear := granted.unused page inside
  rw [Pmm.used, Set.mem_ofPred_eq, clear] at used
  cases used

theorem Granted.used {count limit ptr : Nat} {before after : Pmm}
    (granted : Granted before count limit ptr after) :
    after.used = before.used ∪ (Allocation.mk ptr count).pages := by
  ext page
  exact granted.bits page

theorem used_pmmFree {owner : Allocation} {pmm : Pmm} (physical : owner.ptr / 4096 + owner.count ≤ 2 ^ 32) :
    (pmmFree owner.ptr owner.count pmm).used = pmm.used \ owner.pages := by
  ext page
  exact bitmapGet_pmmFree physical

/-- What `pmm_alloc` provides in any state, also where its retry leaves pages
behind that nobody holds. -/
structure Provided (before : Pmm) (owner : Allocation) (limit : Nat) (after : Pmm) : Prop where
  aligned : owner.ptr % 4096 = 0
  below : owner.ptr / 4096 + owner.count ≤ limit
  unused : Disjoint owner.pages before.used
  kept : before.used ⊆ after.used
  taken : owner.pages ⊆ after.used

theorem Taken.kept {count position : Nat} {before after : Pmm}
    (taken : Taken before count position after) : before.used ⊆ after.used :=
  fun page inside => (taken.bits page).mpr (.inl inside)

theorem Taken.provided {count position limit : Nat} {before after : Pmm}
    (taken : Taken before count position after) (positive : 0 < count)
    (handed : HandsOutBelow limit before after) (physical : limit ≤ 2 ^ 20) :
    Provided before ⟨position % 2 ^ 32 * 4096 % 2 ^ 32, count⟩ limit after := by
  have below := taken.below handed physical
  have last := below (count - 1) (by omega)
  have page : position % 2 ^ 32 * 4096 % 2 ^ 32 / 4096 = position % 2 ^ 32 := by omega
  have window : ∀ bit ∈ Set.Ico (position % 2 ^ 32) (position % 2 ^ 32 + count),
      ∃ offset < count, bit = (position + offset) % 2 ^ 32 := by
    intro bit inside
    obtain ⟨lower, upper⟩ := inside
    exact ⟨bit - position % 2 ^ 32, by omega, by omega⟩
  have aligned : position % 2 ^ 32 * 4096 % 2 ^ 32 % 4096 = 0 := by omega
  have fits : position % 2 ^ 32 * 4096 % 2 ^ 32 / 4096 + count ≤ limit := by omega
  refine ⟨aligned, fits, ?_, taken.kept, ?_⟩
  · rw [Set.disjoint_left, Allocation.pages, page]
    intro bit inside used
    obtain ⟨offset, bound, rfl⟩ := window bit inside
    have clear : bitmapGet before.bitmap ((position + offset) % 2 ^ 32) = false :=
      taken.first.window offset bound
    rw [Pmm.used, Set.mem_ofPred_eq, clear] at used
    cases used
  · rw [Allocation.pages, page]
    intro bit inside
    exact (taken.bits bit).mpr (.inr (window bit inside))

theorem pmmAlloc_kept {fuel count ptr : Nat} {before after : Pmm} (positive : 0 < count)
    (run : pmmAlloc fuel count before = .done ptr after) : before.used ⊆ after.used := by
  obtain ⟨middle, position, taken, _, ⟨same, _⟩ | ⟨lowest, found, first, _, same⟩⟩ := pmmAlloc_done positive run
  · exact same ▸ taken.kept
  · have earlier : before.used ⊆ middle.used := same ▸ first.kept
    exact earlier.trans taken.kept

/-- A call that returns takes a page that was clear. -/
theorem pmmAlloc_grows {fuel count ptr : Nat} {before after : Pmm} (positive : 0 < count)
    (run : pmmAlloc fuel count before = .done ptr after) : before.used ⊂ after.used := by
  obtain ⟨middle, position, taken, _, again⟩ := pmmAlloc_done positive run
  have earlier : before.used ⊆ middle.used := by
    rcases again with ⟨same, _⟩ | ⟨lowest, found, first, _, same⟩
    · exact same ▸ Set.Subset.rfl
    · exact same ▸ first.kept
  refine ⟨earlier.trans taken.kept, ?_⟩
  intro fewer
  have set : (position + 0) % 2 ^ 32 ∈ after.used := (taken.bits _).mpr (.inr ⟨0, positive, rfl⟩)
  have clear : bitmapGet middle.bitmap ((position + 0) % 2 ^ 32) = false := taken.first.window 0 positive
  have used : bitmapGet middle.bitmap ((position + 0) % 2 ^ 32) = true := earlier (fewer set)
  cases clear.symm.trans used

theorem pmmAlloc_provided {fuel count ptr limit : Nat} {before after : Pmm} (positive : 0 < count)
    (run : pmmAlloc fuel count before = .done ptr after)
    (handed : HandsOutBelow limit before after) (physical : limit ≤ 2 ^ 20) :
    Provided before ⟨ptr, count⟩ limit after := by
  obtain ⟨middle, position, taken, rfl, again⟩ := pmmAlloc_done positive run
  have earlier : before.used ⊆ middle.used := by
    rcases again with ⟨same, _⟩ | ⟨lowest, found, first, _, same⟩
    · exact same ▸ Set.Subset.rfl
    · exact same ▸ first.kept
  have provided := taken.provided positive (fun page set => (handed page set).imp_left (@earlier page)) physical
  exact ⟨provided.aligned, provided.below, provided.unused.mono_right earlier,
    earlier.trans provided.kept, provided.taken⟩

theorem Balanced.step {start : Pmm} {before after : Holding} (balanced : Balanced start before)
    (step : PmmStep HandsOutPhysical before after) : Balanced start after := by
  obtain ⟨reserved, physical, distinct, ledger⟩ := balanced
  cases step with
  | @alloc fuel count ptr pmm after live positive run handed =>
      have granted := pmmAlloc_granted reserved positive run handed (Nat.le_refl _)
      have unheld : ⟨ptr, count⟩ ∉ live := by
        intro member
        have first : ptr / 4096 ∈ (Allocation.mk ptr count).pages := ⟨Nat.le_refl _, by simpa using positive⟩
        exact Set.disjoint_left.mp granted.unused_used first (ledger.held _ member first)
      refine ⟨(granted.bits 0).mpr (.inl reserved), ?_, List.nodup_cons.mpr ⟨unheld, distinct⟩, ?_⟩
      · intro owner member
        rcases List.mem_cons.mp member with rfl | member
        · exact ⟨granted.positive, positive, granted.below⟩
        · exact physical owner member
      · have live : { owner | owner ∈ ⟨ptr, count⟩ :: live } = insert ⟨ptr, count⟩ { owner | owner ∈ live } := by
          ext owner
          simp
        rw [live]
        exact ledger.acquire granted.unused_used granted.used
  | @free owner pmm live member =>
      have bounds := physical owner member
      have cleared : (pmmFree owner.ptr owner.count pmm).used = pmm.used \ owner.pages :=
        used_pmmFree (by omega)
      refine ⟨?_, ?_, distinct.erase owner, ?_⟩
      · have kept : 0 ∈ (pmmFree owner.ptr owner.count pmm).used := by
          rw [cleared]
          refine ⟨reserved, ?_⟩
          intro inside
          have lower := inside.1
          omega
        exact kept
      · exact fun other kept => physical other (List.mem_of_mem_erase kept)
      · have live : { other | other ∈ live.erase owner } = { other | other ∈ live } \ {owner} := by
          ext other
          simp [distinct.mem_erase_iff, and_comm]
        rw [live]
        exact ledger.release member cleared

theorem Balanced.run {start : Pmm} {before after : Holding} (balanced : Balanced start before)
    (run : PmmRuns HandsOutPhysical before after) : Balanced start after := by
  induction run with
  | refl => exact balanced
  | tail _ step ih => exact ih.step step

/-- Page ownership over whole runs. -/
theorem pmm_pages_owned {start : Pmm} {holding : Holding}
    (reserved : bitmapGet start.bitmap 0 = true)
    (run : PmmRuns HandsOutPhysical ⟨start, []⟩ holding) :
    (∀ page, bitmapGet holding.pmm.bitmap page = true ↔
      bitmapGet start.bitmap page = true ∨ ∃ owner ∈ holding.live, page ∈ owner.pages) ∧
    holding.live.Pairwise (fun left right => Disjoint left.pages right.pages) ∧
    (∀ fuel count ptr after, 0 < count → pmmAlloc fuel count holding.pmm = .done ptr after →
      HandsOutBelow (2 ^ 20) holding.pmm after →
      ∀ page ∈ (Allocation.mk ptr count).pages, bitmapGet start.bitmap page = false ∧
        ∀ owner ∈ holding.live, page ∉ owner.pages) ∧
    (holding.live = [] → holding.pmm.bitmap = start.bitmap) := by
  have balanced := (Balanced.initial reserved).run run
  have ledger := balanced.ledger
  refine ⟨ledger.used_iff, List.Nodup.pairwise_of_set_pairwise balanced.distinct ledger.apart, ?_, ?_⟩
  · intro fuel count ptr after positive alloc handed page inside
    have granted := pmmAlloc_granted balanced.reserved positive alloc handed (Nat.le_refl _)
    have unused := Set.disjoint_left.mp granted.unused_used inside
    rw [ledger.used_iff, not_or] at unused
    refine ⟨by simpa [Pmm.used] using unused.1, ?_⟩
    intro owner member taken
    exact unused.2 ⟨owner, member, taken⟩
  · intro none
    rw [none] at ledger
    have settled : holding.pmm.used = start.used := Ledger.settled (by simpa using ledger)
    apply bitmap_ext
    intro bit
    have same := congrArg (bit ∈ ·) settled
    exact Bool.eq_iff_iff.mpr (iff_of_eq same)

/-- One hundred pages, of which page 0 is reserved. -/
def hundredPages : Pmm :=
  { Pmm.initial (fun byte => if byte = 0 then 1#8 else 0#8) with
    pageCount := 100
    pageCount_lt := by decide }

theorem pmm_pages_owned_hundred :
    ∃ holding : Holding, holding.live = [⟨4096, 2⟩] ∧ ∀ page, bitmapGet holding.pmm.bitmap page = true ↔
      bitmapGet hundredPages.bitmap page = true ∨ ∃ owner ∈ holding.live, page ∈ owner.pages := by
  have alloc : pmmAlloc 5 2 hundredPages = .done 4096 (pmmAlloc 5 2 hundredPages).after := rfl
  have handed : HandsOutPhysical hundredPages 2 (pmmAlloc 5 2 hundredPages).after := by
    intro page set
    have marked : bitmapGet (setPages 1 2 hundredPages).bitmap page = true := set
    rw [bitmapGet_setPages] at marked
    rcases marked with already | ⟨offset, bound, rfl⟩
    · exact .inl already
    · right
      omega
  have run : PmmRuns HandsOutPhysical ⟨hundredPages, []⟩
      ⟨(pmmAlloc 5 2 hundredPages).after, [⟨4096, 2⟩]⟩ :=
    .single (.alloc (by decide) alloc handed)
  exact ⟨_, rfl, (pmm_pages_owned rfl run).1⟩

end BarrelOS.Memory
