import BarrelOS.Memory.KernelMap

namespace BarrelOS.Memory

open BarrelOS.Boot BarrelOS.Data BarrelOS.Semantics

variable {fuel turns flags limit start address virt page : Nat} {place : Nat → Nat} {before middle after : Vmm}
  {kernel : Kernel} {mbootInfo : MultibootInfo}

/-! What a page-stepped loop of `vmm_install` maps -/

/-- The loop from `start` comes by this page. Its counter keeps the offset of
`start` within a page. -/
def Stepped (start limit page : Nat) : Prop := start / 4096 ≤ page ∧ page * 4096 + start % 4096 < limit

instance : Decidable (Stepped start limit page) := inferInstanceAs (Decidable (_ ∧ _))

/-- A loop maps physical pages to virtual pages, one each. -/
structure Placement (place : Nat → Nat) : Prop where
  word : ∀ address < 2 ^ 32, place address < 2 ^ 32
  page : ∀ left < 2 ^ 32, ∀ right < 2 ^ 32,
    place left / 4096 = place right / 4096 ↔ left / 4096 = right / 4096

theorem Placement.identity : Placement fun vmem => vmem :=
  ⟨fun _ bound => bound, fun _ _ _ _ => Iff.rfl⟩

/-- The walk after a loop: its own mapping on the pages it came by, the earlier
one elsewhere. -/
structure MapsPages (place : Nat → Nat) (start limit flags : Nat) (before after : Vmm) : Prop where
  hit : ∀ address < 2 ^ 32, Stepped start limit (address / 4096) →
    after.walk (place address) = some (pageBase address, flags)
  miss : ∀ virt < 2 ^ 32,
    (∀ address < 2 ^ 32, Stepped start limit (address / 4096) → place address / 4096 ≠ virt / 4096) →
    after.walk virt = before.walk virt

theorem MapsPages.walk (maps : MapsPages place start limit flags before after) (placement : Placement place)
    (word : address < 2 ^ 32) : after.walk (place address) =
      if Stepped start limit (address / 4096) then some (pageBase address, flags) else before.walk (place address) := by
  by_cases stepped : Stepped start limit (address / 4096)
  · rw [if_pos stepped, maps.hit address word stepped]
  · rw [if_neg stepped]
    refine maps.miss _ (placement.word address word) ?_
    intro other bound visited same
    rw [(placement.page other bound address word).mp same] at visited
    exact stepped visited

theorem vmmMap_paged (paged : Paged ⟨kernel.withVmm before, []⟩) {phys : Nat} (word : virt < 2 ^ 32)
    (run : vmmMap fuel phys virt flags before = .done () after)
    (handed : HandsOutBelow (2 ^ 20) before.pmm after.pmm) : Paged ⟨kernel.withVmm after, []⟩ := by
  have makes : Makes ⟨kernel.withVmm before, []⟩ (.vmmMap phys virt flags) ⟨kernel.withVmm after, []⟩ :=
    .vmmMap word run
  exact makes.paged paged handed

theorem mapPages_used (run : mapPages fuel flags place limit turns address before = .done () after)
    (placement : Placement place) (ends : limit ≤ 2 ^ 32) : before.pmm.used ⊆ after.pmm.used := by
  have kept : Keeps (2 ^ 20) (fun _ => True) (mapPages fuel flags place limit turns address) := by
    refine Keeps.mapPages fun other inside => ⟨?_, fun _ _ _ _ _ => trivial⟩
    intro before after map
    exact (vmmMap_done (placement.word other (Nat.lt_of_lt_of_le inside ends)) map).kept
  exact kept.used before after run

theorem HandsOutBelow.between {bound : Nat} {first left right last : Pmm} (handed : HandsOutBelow bound first last)
    (earlier : first.used ⊆ left.used) (later : right.used ⊆ last.used) : HandsOutBelow bound left right :=
  fun _ set => (handed _ (later set)).imp_left fun already => earlier already

theorem MapsPages.none (ended : ¬ address < limit) : MapsPages place address limit flags vmm vmm := by
  have none : ∀ page, ¬ Stepped address limit page := by
    intro page stepped
    unfold Stepped at stepped
    omega
  exact ⟨fun _ _ stepped => absurd stepped (none _), fun _ _ _ => rfl⟩

theorem MapsPages.turn (placement : Placement place) (word : address < 2 ^ 32) (more : address < limit)
    (walk : ∀ other < 2 ^ 32, middle.walk other =
      if other / 4096 = place address / 4096 then some (pageBase address, flags) else before.walk other)
    (maps : MapsPages place (address + 4096) limit flags middle after) :
    MapsPages place address limit flags before after := by
  have offset : (address + 4096) % 4096 = address % 4096 := by omega
  refine ⟨?_, ?_⟩
  · intro other below stepped
    by_cases here : other / 4096 = address / 4096
    · have behind : ¬ Stepped (address + 4096) limit (other / 4096) := by
        unfold Stepped
        omega
      rw [maps.walk placement below, if_neg behind, walk _ (placement.word other below),
        if_pos ((placement.page other below address word).mpr here), pageBase_eq below, pageBase_eq word, here]
    · refine maps.hit other below ?_
      unfold Stepped at stepped ⊢
      omega
  · intro virt below apart
    have away := apart address word ⟨Nat.le_refl _, by omega⟩
    rw [maps.miss virt below, walk virt below, if_neg (Ne.symm away)]
    intro other inside stepped
    refine apart other inside ?_
    unfold Stepped at stepped ⊢
    omega

theorem mapPages_maps (placement : Placement place) (present : Present flags) (small : flags < 4096)
    (ends : limit ≤ 2 ^ 32 - 4096 + address % 4096) (word : address < 2 ^ 32)
    (paged : Paged ⟨kernel.withVmm before, []⟩)
    (run : mapPages fuel flags place limit turns address before = .done () after)
    (handed : HandsOutBelow (2 ^ 20) before.pmm after.pmm) :
    Paged ⟨kernel.withVmm after, []⟩ ∧ MapsPages place address limit flags before after := by
  induction turns generalizing address before with
  | zero => cases run
  | succ turns ih =>
      rw [mapPages] at run
      by_cases more : address < limit
      · rw [if_pos more] at run
        obtain ⟨_, middle, map, rest⟩ := Outcome.bind_done.mp run
        have bound := placement.word address word
        have mapping := vmmMap_done bound map
        have later := mapPages_used rest placement (by omega)
        have first := handed.between Set.Subset.rfl later
        have second := handed.between mapping.kept Set.Subset.rfl
        have mapped := vmmMap_paged paged bound map first
        have walk : ∀ other < 2 ^ 32, middle.walk other =
            if other / 4096 = place address / 4096 then some (pageBase address, flags) else before.walk other := by
          intro other below
          exact mapping.walk_flags (paged.freshTable first) paged.apart small present below
        have last : address + 4096 < 2 ^ 32 := by omega
        rw [Nat.mod_eq_of_lt last] at rest
        obtain ⟨finished, maps⟩ := ih (by omega) last mapped rest second
        exact ⟨finished, maps.turn placement word more walk⟩
      · rw [if_neg more] at run
        cases run
        exact ⟨paged, .none more⟩

/-- A limit within the last page before the counter wraps is never reached. -/
theorem mapPages_endless (long : 2 ^ 32 - 4096 + address % 4096 < limit) (word : address < 2 ^ 32) :
    mapPages fuel flags place limit turns address before ≠ .done () after := by
  induction turns generalizing address before with
  | zero => simp [mapPages]
  | succ turns ih =>
      intro run
      rw [mapPages, if_pos (by omega)] at run
      obtain ⟨_, middle, _, rest⟩ := Outcome.bind_done.mp run
      exact ih (by omega) (Nat.mod_lt _ (by decide)) rest

/-! The framebuffer -/

def framebufferStart (mbootInfo : MultibootInfo) : Nat := mbootInfo.framebufferAddr % 2 ^ 32

/-- The loop's limit, as the source truncates it. -/
def framebufferLimit (mbootInfo : MultibootInfo) : Nat :=
  (mbootInfo.framebufferAddr + mbootInfo.framebufferHeight * mbootInfo.framebufferPitch % 2 ^ 32) % 2 ^ 32

/-- The framebuffer loop comes by this page. -/
def FramebufferPage (mbootInfo : MultibootInfo) (page : Nat) : Prop :=
  mbootInfo.vbeMode ≠ 3 ∧ Stepped (framebufferStart mbootInfo) (framebufferLimit mbootInfo) page

instance : Decidable (FramebufferPage mbootInfo page) := inferInstanceAs (Decidable (_ ∧ _))

/-- The last loop of `vmm_install`. -/
def framebufferLoop (fuel : Nat) (mbootInfo : MultibootInfo) (vmm : Vmm) : Outcome Vmm Unit :=
  if mbootInfo.vbeMode ≠ 3 then
    mapPages fuel (ptePresent ||| pteWritable) (fun vmem => vmem) (framebufferLimit mbootInfo) fuel
      (framebufferStart mbootInfo) vmm
  else .done () vmm

theorem framebufferLoop_used (run : framebufferLoop fuel mbootInfo before = .done () after) :
    before.pmm.used ⊆ after.pmm.used := by
  unfold framebufferLoop at run
  split at run
  · exact mapPages_used run Placement.identity (Nat.le_of_lt (Nat.mod_lt _ (by decide)))
  · cases run
    exact Set.Subset.rfl

theorem framebufferLoop_walk (paged : Paged ⟨kernel.withVmm before, []⟩)
    (handed : HandsOutBelow (2 ^ 20) before.pmm after.pmm)
    (run : framebufferLoop fuel mbootInfo before = .done () after) :
    Paged ⟨kernel.withVmm after, []⟩ ∧ ∀ virt < 2 ^ 32, after.walk virt =
      if FramebufferPage mbootInfo (virt / 4096) then some (pageBase virt, ptePresent ||| pteWritable)
      else before.walk virt := by
  unfold framebufferLoop at run
  have word : framebufferStart mbootInfo < 2 ^ 32 := Nat.mod_lt _ (by decide)
  by_cases graphics : mbootInfo.vbeMode ≠ 3
  · rw [if_pos graphics] at run
    have ends : framebufferLimit mbootInfo ≤ 2 ^ 32 - 4096 + framebufferStart mbootInfo % 4096 := by
      by_contra long
      exact mapPages_endless (Nat.lt_of_not_le long) word run
    obtain ⟨paged', maps⟩ := mapPages_maps Placement.identity (by decide) (by decide) ends word paged run handed
    refine ⟨paged', fun virt bound => ?_⟩
    exact (maps.walk Placement.identity bound).trans (if_congr (and_iff_right graphics).symm rfl rfl)
  · rw [if_neg graphics] at run
    cases run
    refine ⟨paged, fun virt _ => ?_⟩
    rw [if_neg fun stepped => graphics stepped.1]

end BarrelOS.Memory
