import BarrelOS.Memory.Install
import Mathlib.Tactic.Tauto

namespace BarrelOS.Memory

open BarrelOS.Boot BarrelOS.Data BarrelOS.Semantics

variable {fuel kernelEnd page : Nat} {entry region : MultibootMemoryMap}
  {front back mmap : List MultibootMemoryMap} {pmm after : Pmm} {mbd : MultibootInfo}

def Available (entry : MultibootMemoryMap) : Prop := entry.type = multibootMemoryAvailable

def HoldsPage (entry : MultibootMemoryMap) (page : Nat) : Prop :=
  entry.addrLow ≤ page * 4096 ∧ (page + 1) * 4096 ≤ entry.addrLow + entry.lenLow

/-- A memory map as the boot loader describes one machine, with a kernel whose
end and bitmap lie in the first usable region. The linker aligns `end`. -/
structure BootMap (mmap : List MultibootMemoryMap) (kernelEnd : Nat)
    (front : List MultibootMemoryMap) (region : MultibootMemoryMap)
    (back : List MultibootMemoryMap) : Prop extends KernelRegion mmap front region back where
  aligned : ∀ entry ∈ mmap, Available entry → entry.addrLow % 4096 = 0 ∧ entry.lenLow % 4096 = 0
  below : ∀ entry ∈ mmap, Available entry → entry.addrLow + entry.lenLow ≤ 2 ^ 32
  apart : mmap.Pairwise fun left right => Available left → Available right →
    ∀ page, ¬ (HoldsPage left page ∧ HoldsPage right page)
  kernelEnd_aligned : kernelEnd % 4096 = 0
  kernelEnd_inside : region.addrLow ≤ kernelEnd
  bitmap_inside : kernelEnd + bitmapSizeOf region ≤ region.addrLow + region.lenLow

theorem KernelRegion.unique {front' back' : List MultibootMemoryMap} {region' : MultibootMemoryMap}
    (left : KernelRegion mmap front region back) (right : KernelRegion mmap front' region' back') :
    front = front' ∧ region = region' ∧ back = back' := by
  have length : front.length = front'.length :=
    Option.some.inj (left.found.symm.trans right.found)
  have same := List.append_inj (left.split.symm.trans right.split) length
  exact ⟨same.1, List.cons.inj same.2⟩

theorem bitmapSizeOf_aligned (region : MultibootMemoryMap) : bitmapSizeOf region % 4096 = 0 := by
  unfold bitmapSizeOf alignUp
  omega

theorem bitmapSizeOf_le (region : MultibootMemoryMap) : bitmapSizeOf region ≤ 131072 := by
  have word := region.lenLow_lt
  unfold bitmapSizeOf alignUp divCeiling
  omega

namespace BootMap

theorem member (map : BootMap mmap kernelEnd front region back) : region ∈ mmap := by
  rw [map.split]
  simp

theorem other_apart (map : BootMap mmap kernelEnd front region back)
    (other : entry ∈ front ++ back) (available : Available entry) :
    ∀ page, ¬ (HoldsPage entry page ∧ HoldsPage region page) := by
  have apart := map.apart
  have symmetric : ∀ {left right : MultibootMemoryMap},
      (Available left → Available right → ∀ page, ¬ (HoldsPage left page ∧ HoldsPage right page)) →
      Available right → Available left → ∀ page, ¬ (HoldsPage right page ∧ HoldsPage left page) :=
    fun separate first second page both => separate second first page both.symm
  rw [map.split, List.pairwise_middle symmetric] at apart
  intro page both
  exact (List.pairwise_cons.mp apart).1 entry other map.usable.1 available page both.symm

end BootMap

theorem marks_iff (aligned : entry.addrLow % 4096 = 0 ∧ entry.lenLow % 4096 = 0)
    (below : entry.addrLow + entry.lenLow ≤ 2 ^ 32) :
    Marks entry page ↔ entry.Usable ∧ HoldsPage entry page := by
  refine and_congr_right fun _ => ?_
  unfold HoldsPage
  constructor
  · intro marked
    obtain ⟨offset, bound, step, same⟩ := marked
    omega
  · intro inside
    exact ⟨page * 4096 - entry.addrLow, by omega, by omega, by omega⟩

/-- A page the adjusted region covers behind the end of the kernel's region: its
base moved up by the size of the bitmap, its length was not cut by it. -/
def Overrun (region : MultibootMemoryMap) (page : Nat) : Prop :=
  ∃ offset < bitmapSizeOf region, offset % 4096 = 0 ∧
    page = (region.addrLow + region.lenLow + offset) % 2 ^ 32 / 4096

theorem adjusted_marks_iff (map : BootMap mmap kernelEnd front region back) :
    Marks (adjustRegion region kernelEnd (bitmapSizeOf region)) page ↔
      kernelEnd + bitmapSizeOf region ≠ 2 ^ 32 ∧
        (HoldsPage region page ∧ kernelEnd + bitmapSizeOf region ≤ page * 4096 ∨
          Overrun region page) := by
  have below := map.below region map.member map.usable.1
  have aligned := map.aligned region map.member map.usable.1
  have base := map.usable.2
  have kernelEnd_aligned := map.kernelEnd_aligned
  have kernelEnd_inside := map.kernelEnd_inside
  have bitmap_inside := map.bitmap_inside
  have bitmap_aligned := bitmapSizeOf_aligned region
  have length : (adjustRegion region kernelEnd (bitmapSizeOf region)).lenLow =
      region.addrLow + region.lenLow - kernelEnd := by
    simp only [adjustRegion]
    omega
  have start : (adjustRegion region kernelEnd (bitmapSizeOf region)).addrLow =
      (kernelEnd + bitmapSizeOf region) % 2 ^ 32 := rfl
  have type : (adjustRegion region kernelEnd (bitmapSizeOf region)).type = multibootMemoryAvailable :=
    map.usable.1
  simp only [Marks, MultibootMemoryMap.Usable, type, true_and, length, start, Overrun, HoldsPage]
  generalize bitmapSizeOf region = size at *
  constructor
  · intro marked
    obtain ⟨low, offset, bound, step, same⟩ := marked
    refine ⟨by omega, ?_⟩
    by_cases inside : kernelEnd + size + offset < region.addrLow + region.lenLow
    · left
      omega
    · right
      refine ⟨kernelEnd + size + offset - (region.addrLow + region.lenLow), by omega, by omega, ?_⟩
      rw [same]
      congr 1
      omega
  · intro covered
    obtain ⟨low, inside | ⟨offset, bound, step, same⟩⟩ := covered
    · exact ⟨by omega, page * 4096 - (kernelEnd + size), by omega, by omega, by omega⟩
    · refine ⟨by omega, region.addrLow + region.lenLow + offset - (kernelEnd + size),
        by omega, by omega, ?_⟩
      rw [same]
      congr 1
      omega

/-- Usable memory as the map describes it, without the kernel and its bitmap. -/
def UsableMemory (mmap : List MultibootMemoryMap) (region : MultibootMemoryMap)
    (bitmapEnd page : Nat) : Prop :=
  (∃ entry ∈ mmap, entry.Usable ∧ HoldsPage entry page) ∧
    ¬ (region.addrLow ≤ page * 4096 ∧ page * 4096 < bitmapEnd)

/-- Every page behind the kernel's region that its adjusted length still covers
is usable in its own right, or has no bit. -/
def OverrunUsable (mmap : List MultibootMemoryMap) (region : MultibootMemoryMap)
    (kernelEnd : Nat) : Prop :=
  kernelEnd + bitmapSizeOf region = 2 ^ 32 ∨
    ∀ page < 8 * bitmapSizeOf region, Overrun region page →
      ∃ entry ∈ mmap, entry.Usable ∧ HoldsPage entry page

/-- The pages `pmm_install` clears are the usable memory and the overrun. -/
theorem marked_iff (map : BootMap mmap kernelEnd front region back) :
    (∃ entry ∈ front ++ adjustRegion region kernelEnd (bitmapSizeOf region) :: back,
        Marks entry page) ↔
      UsableMemory mmap region (kernelEnd + bitmapSizeOf region) page ∨
        kernelEnd + bitmapSizeOf region ≠ 2 ^ 32 ∧ Overrun region page := by
  have below := map.below region map.member map.usable.1
  have bitmap_inside := map.bitmap_inside
  constructor
  · intro marked
    obtain ⟨entry, member, marks⟩ := marked
    have cases : entry = adjustRegion region kernelEnd (bitmapSizeOf region) ∨
        entry ∈ front ++ back := by
      simp only [List.mem_append, List.mem_cons] at member ⊢
      tauto
    rcases cases with rfl | other
    · obtain ⟨inside, ⟨holds, beyond⟩ | overrun⟩ := (adjusted_marks_iff map).mp marks
      · exact .inl ⟨⟨region, map.member, map.usable, holds⟩, by omega⟩
      · exact .inr ⟨inside, overrun⟩
    · have listed : entry ∈ mmap := by
        rw [map.split]
        simp only [List.mem_append, List.mem_cons] at other ⊢
        tauto
      have available : Available entry := marks.1.1
      have held := ((marks_iff (map.aligned entry listed available)
        (map.below entry listed available)).mp marks).2
      refine .inl ⟨⟨entry, listed, marks.1, held⟩, ?_⟩
      intro between
      refine map.other_apart other available page ⟨held, between.1, ?_⟩
      have aligned := map.aligned region map.member map.usable.1
      have kernelEnd_aligned := map.kernelEnd_aligned
      have bitmap_aligned := bitmapSizeOf_aligned region
      omega
  · intro covered
    rcases covered with ⟨⟨entry, listed, usable, held⟩, outside⟩ | ⟨inside, overrun⟩
    · rw [map.split] at listed
      have cases : entry = region ∨ entry ∈ front ++ back := by
        simp only [List.mem_append, List.mem_cons] at listed ⊢
        tauto
      rcases cases with rfl | other
      · refine ⟨_, by simp, (adjusted_marks_iff map).mpr ⟨?_, .inl ⟨held, ?_⟩⟩⟩
        · have upper := held.2
          have lower := held.1
          omega
        · have lower := held.1
          omega
      · refine ⟨entry, by simp only [List.mem_append, List.mem_cons] at other ⊢; tauto, ?_⟩
        rw [← map.split] at listed
        exact (marks_iff (map.aligned entry listed usable.1) (map.below entry listed usable.1)).mpr
          ⟨usable, held⟩
    · exact ⟨_, by simp, (adjusted_marks_iff map).mpr ⟨inside, .inr overrun⟩⟩

/-- The overrun never lies between the kernel's base and the end of its bitmap. -/
theorem overrun_outside (map : BootMap mmap kernelEnd front region back)
    (overrun : Overrun region page) :
    ¬ (region.addrLow ≤ page * 4096 ∧ page * 4096 < kernelEnd + bitmapSizeOf region) := by
  have small := bitmapSizeOf_le region
  have below := map.below region map.member map.usable.1
  have base := map.usable.2
  have bitmap_inside := map.bitmap_inside
  have aligned := map.aligned region map.member map.usable.1
  obtain ⟨offset, bound, step, same⟩ := overrun
  omega

theorem pmmInstall_free_iff (map : BootMap mbd.mmap kernelEnd front region back)
    (run : pmmInstall fuel mbd kernelEnd pmm = .done () after) :
    after.bitmapSize = bitmapSizeOf region ∧
      ∀ page < 8 * bitmapSizeOf region, bitmapGet after.bitmap page = false ↔
        UsableMemory mbd.mmap region (kernelEnd + bitmapSizeOf region) page ∨
          kernelEnd + bitmapSizeOf region ≠ 2 ^ 32 ∧ Overrun region page := by
  obtain ⟨front', region', back', kernel, cleared⟩ := pmmInstall_done run
  obtain ⟨rfl, rfl, rfl⟩ := map.toKernelRegion.unique kernel
  refine ⟨cleared.words.bitmapSize, ?_⟩
  intro page bound
  rw [← marked_iff map, ← Bool.not_eq_true, cleared.bits, bitmapGet_prepareBitmap bound]
  simp

/-- What `pmm_install` declares free is exactly the usable memory if and only if
the pages its adjusted length reaches behind the kernel's region are usable. -/
theorem pmmInstall_frees_usable_iff (map : BootMap mbd.mmap kernelEnd front region back)
    (run : pmmInstall fuel mbd kernelEnd pmm = .done () after) :
    (∀ page < 8 * after.bitmapSize, bitmapGet after.bitmap page = false ↔
      UsableMemory mbd.mmap region (kernelEnd + after.bitmapSize) page) ↔
    OverrunUsable mbd.mmap region kernelEnd := by
  obtain ⟨size, free⟩ := pmmInstall_free_iff map run
  rw [size]
  constructor
  · intro exactly
    by_cases full : kernelEnd + bitmapSizeOf region = 2 ^ 32
    · exact .inl full
    · right
      intro page bound overrun
      exact ((exactly page bound).mp ((free page bound).mpr (.inr ⟨full, overrun⟩))).1
  · intro covered page bound
    rw [free page bound]
    constructor
    · intro marked
      rcases marked with usable | ⟨inside, overrun⟩
      · exact usable
      · rcases covered with full | covered
        · exact absurd full inside
        · exact ⟨covered page bound overrun, overrun_outside map overrun⟩
    · exact .inl

theorem pmmInstall_words (kernel : KernelRegion mbd.mmap front region back)
    (run : pmmInstall fuel mbd kernelEnd pmm = .done () after) :
    after.lastPage = pmm.lastPage ∧ after.pageCount = region.lenLow / 4096 ∧
      after.bitmapSize = bitmapSizeOf region := by
  obtain ⟨front', region', back', kernel', cleared⟩ := pmmInstall_done run
  obtain ⟨rfl, rfl, rfl⟩ := kernel.unique kernel'
  exact ⟨cleared.words.lastPage, cleared.words.pageCount, cleared.words.bitmapSize⟩

/-- Low memory, the kernel and its bitmap stay reserved, unless the overrun
reaches the end of the address space and goes on from its start. -/
theorem pmmInstall_reserved (map : BootMap mbd.mmap kernelEnd front region back)
    (run : pmmInstall fuel mbd kernelEnd pmm = .done () after)
    (ends : region.addrLow + region.lenLow + bitmapSizeOf region ≤ 2 ^ 32)
    (bound : page < 8 * bitmapSizeOf region)
    (kept : page * 4096 < 0x100000 ∨
      region.addrLow ≤ page * 4096 ∧ page * 4096 < kernelEnd + bitmapSizeOf region) :
    bitmapGet after.bitmap page = true := by
  rw [← Bool.not_eq_false, (pmmInstall_free_iff map run).2 page bound]
  intro free
  rcases free with ⟨⟨entry, _, usable, held⟩, outside⟩ | ⟨_, overrun⟩
  · have base := usable.2
    have lower := held.1
    omega
  · rcases kept with low | inside
    · have base := map.usable.2
      obtain ⟨offset, _, _, same⟩ := overrun
      omega
    · exact overrun_outside map overrun inside

/-! A machine with conventional memory below 640 KiB and one region of extended
memory from 1 MiB on, booting a kernel that ends at 0x220000. -/

def pcRegion (lenLow : Nat) (word : lenLow < 2 ^ 32) : MultibootMemoryMap where
  addrLow := 0x100000
  lenLow
  type := multibootMemoryAvailable
  lenLow_lt := word

theorem word_pos : 0 < 2 ^ 32 := by decide

theorem conventional_lt : 0x9F000 < 2 ^ 32 := by decide

def pcMap (lenLow : Nat) (word : lenLow < 2 ^ 32) : List MultibootMemoryMap :=
  [⟨0, 0x9F000, multibootMemoryAvailable, word_pos, conventional_lt⟩, pcRegion lenLow word]

def pcInfo (lenLow : Nat) (word : lenLow < 2 ^ 32) : MultibootInfo where
  flags := 0x40
  mmap := pcMap lenLow word
  vbeMode := 3
  framebufferAddr := 0
  framebufferPitch := 0
  framebufferHeight := 0

theorem pcMap_boot (lenLow : Nat) (word : lenLow < 2 ^ 32) (aligned : lenLow % 4096 = 0)
    (enough : 0x140000 ≤ lenLow) (below : lenLow ≤ 0xFFF00000) :
    BootMap (pcMap lenLow word) 0x220000 [{ addrLow := 0, lenLow := 0x9F000, type := 1 }]
      (pcRegion lenLow word) [] where
  split := rfl
  usable := ⟨rfl, Nat.le_refl _⟩
  earliest := by simp [MultibootMemoryMap.Usable]
  aligned := by simp [pcMap, pcRegion, aligned]
  below := by
    simp only [pcMap, pcRegion, List.mem_cons, List.not_mem_nil, or_false, forall_eq_or_imp, forall_eq]
    omega
  apart := by
    simp only [pcMap, pcRegion, List.pairwise_cons, List.mem_cons, List.not_mem_nil, or_false, forall_eq,
      HoldsPage]
    refine ⟨?_, by simp⟩
    intro _ _ page both
    omega
  kernelEnd_aligned := by decide
  kernelEnd_inside := by simp [pcRegion]
  bitmap_inside := by
    simp only [bitmapSizeOf, alignUp, divCeiling, pcRegion]
    omega

theorem pcMap_install (lenLow : Nat) (word : lenLow < 2 ^ 32) (aligned : lenLow % 4096 = 0)
    (enough : 0x140000 ≤ lenLow) (below : lenLow ≤ 0xFFF00000) (memory : Bitmap) :
    ∃ booted, pmmInstall (2 ^ 20 + 2) (pcInfo lenLow word) 0x220000 (Pmm.initial memory) =
      .done () booted := by
  have map := pcMap_boot lenLow word aligned enough below
  refine pmmInstall_terminates (by simp [pcInfo]) map.toKernelRegion ?_ (Nat.lt_succ_self _)
  simp only [adjustRegion, pcRegion, List.cons_append, List.nil_append, List.mem_cons,
    List.not_mem_nil, or_false, forall_eq_or_imp, forall_eq]
  omega

theorem pcMap_usable {lenLow : Nat} (word : lenLow < 2 ^ 32) {bitmapEnd : Nat}
    (above : 0x100000 ≤ bitmapEnd) (lower : bitmapEnd ≤ page * 4096)
    (upper : (page + 1) * 4096 ≤ 0x100000 + lenLow) :
    UsableMemory (pcMap lenLow word) (pcRegion lenLow word) bitmapEnd page := by
  refine ⟨⟨pcRegion lenLow word, by simp [pcMap], ⟨rfl, Nat.le_refl _⟩, ?_⟩, by omega⟩
  exact ⟨Nat.le_trans above lower, upper⟩

/-- Behind the kernel's bitmap the sample machine has clear bits to the end of
its overrun, and behind the last bit of the bitmap whatever the memory held. -/
theorem pcMap_bits (lenLow : Nat) (word : lenLow < 2 ^ 32) (aligned : lenLow % 4096 = 0)
    (enough : 0x140000 ≤ lenLow) (below : lenLow + bitmapSizeOf (pcRegion lenLow word) ≤ 0xFFF00000)
    (memory : Bitmap) :
    ∃ booted, pmmInstall (2 ^ 20 + 2) (pcInfo lenLow word) 0x220000 (Pmm.initial memory) = .done () booted ∧
      booted.lastPage = 0 ∧ booted.pageCount = lenLow / 4096 ∧
      (∀ page < 0x220 + bitmapSizeOf (pcRegion lenLow word) / 4096, bitmapGet booted.bitmap page = true) ∧
      (∀ page, 0x220 + bitmapSizeOf (pcRegion lenLow word) / 4096 ≤ page →
        page < 8 * bitmapSizeOf (pcRegion lenLow word) →
        page * 4096 < 0x100000 + lenLow + bitmapSizeOf (pcRegion lenLow word) →
        bitmapGet booted.bitmap page = false) ∧
      ∀ page, 8 * bitmapSizeOf (pcRegion lenLow word) ≤ page → bitmapGet memory page = false →
        bitmapGet booted.bitmap page = false := by
  have map := pcMap_boot lenLow word aligned enough (by omega)
  obtain ⟨booted, install⟩ := pcMap_install lenLow word aligned enough (by omega) memory
  obtain ⟨hint, pageCount, _⟩ := pmmInstall_words map.toKernelRegion install
  have size := bitmapSizeOf_aligned (pcRegion lenLow word)
  have sized : 0x280000 ≤ 8 * bitmapSizeOf (pcRegion lenLow word) * 4096 := by
    simp only [bitmapSizeOf, alignUp, divCeiling, pcRegion]
    omega
  obtain ⟨_, free⟩ := pmmInstall_free_iff map install
  refine ⟨booted, install, hint, pageCount, ?_, ?_, ?_⟩
  · intro page before
    refine pmmInstall_reserved map install ?_ (by omega) ?_
    · change 0x100000 + lenLow + bitmapSizeOf (pcRegion lenLow word) ≤ 2 ^ 32
      omega
    · change page * 4096 < 0x100000 ∨ 0x100000 ≤ page * 4096 ∧ _
      omega
  · intro page lower bound upper
    refine (free page bound).mpr ?_
    by_cases inside : (page + 1) * 4096 ≤ 0x100000 + lenLow
    · exact .inl (pcMap_usable word (by omega) (by omega) inside)
    · refine .inr ⟨by omega, page * 4096 - (0x100000 + lenLow), by omega, by omega, ?_⟩
      change page = (0x100000 + lenLow + (page * 4096 - (0x100000 + lenLow))) % 2 ^ 32 / 4096
      omega
  · intro page behind clear
    obtain ⟨_, _, _, kernel, cleared⟩ := pmmInstall_done install
    obtain ⟨rfl, rfl, rfl⟩ := map.toKernelRegion.unique kernel
    have outside : ¬ page / 8 < alignUp ((pcRegion lenLow word).lenLow / 4096 / 8) 4096 := by
      unfold bitmapSizeOf at behind
      omega
    rw [← Bool.not_eq_true, cleared.bits, bitmapGet, prepareBitmap]
    simp only [if_neg outside]
    intro marked
    exact absurd marked.1 (by simpa [bitmapGet, Pmm.initial] using clear)

theorem pcMap_booted (memory : Bitmap) :
    ∃ booted, pmmInstall (2 ^ 20 + 2) (pcInfo 0x7EE0000 (by decide)) 0x220000 (Pmm.initial memory) =
        .done () booted ∧
      booted.lastPage = 0 ∧ booted.pageCount = 0x7EE0 ∧ booted.bitmapSize = 4096 ∧
      (∀ page < 0x221, bitmapGet booted.bitmap page = true) ∧
      ∀ page, 0x221 ≤ page → page < 0x7FE0 → bitmapGet booted.bitmap page = false := by
  have map := pcMap_boot 0x7EE0000 (by decide) (by decide) (by decide) (by decide)
  have size : bitmapSizeOf (pcRegion 0x7EE0000 (by decide)) = 4096 := by decide
  obtain ⟨booted, install, hint, pageCount, reserved, free, _⟩ :=
    pcMap_bits 0x7EE0000 (by decide) (by decide) (by decide) (by rw [size]; decide) memory
  rw [size] at reserved free
  refine ⟨booted, install, hint, pageCount, ?_, reserved, ?_⟩
  · exact (pmmInstall_words map.toKernelRegion install).2.2.trans size
  · exact fun page lower upper => free page lower (by omega) (by omega)

/-- Where the region ends at the last bit of the bitmap nothing is overrun. -/
theorem pmmInstall_frees_usable_pc :
    ∃ booted, pmmInstall (2 ^ 20 + 2) (pcInfo 0x7F00000 (by decide)) 0x220000
        (Pmm.initial fun _ => 0) = .done () booted ∧
      ∀ page < 8 * booted.bitmapSize, bitmapGet booted.bitmap page = false ↔
        UsableMemory (pcMap 0x7F00000 (by decide)) (pcRegion 0x7F00000 (by decide))
          (0x220000 + booted.bitmapSize) page := by
  have map := pcMap_boot 0x7F00000 (by decide) (by decide) (by decide) (by decide)
  obtain ⟨booted, install⟩ :=
    pcMap_install 0x7F00000 (by decide) (by decide) (by decide) (by decide) fun _ => 0
  refine ⟨booted, install, (pmmInstall_frees_usable_iff map install).mpr (.inr ?_)⟩
  intro page bound overrun
  obtain ⟨offset, inside, _, same⟩ := overrun
  have size : bitmapSizeOf (pcRegion 0x7F00000 (by decide)) = 4096 := by decide
  rw [size] at bound inside
  simp only [pcRegion] at same
  omega

/-- Page 0x7FE0 lies behind the end of the memory, and is declared free. -/
theorem pmmInstall_frees_overrun :
    BootMap (pcMap 0x7EE0000 (by decide)) 0x220000
      [{ addrLow := 0, lenLow := 0x9F000, type := multibootMemoryAvailable }]
      (pcRegion 0x7EE0000 (by decide)) [] ∧
    ∃ booted, pmmInstall (2 ^ 20 + 2) (pcInfo 0x7EE0000 (by decide)) 0x220000
        (Pmm.initial fun _ => 0) = .done () booted ∧
      0x7FE0 < 8 * booted.bitmapSize ∧ bitmapGet booted.bitmap 0x7FE0 = false ∧
      ¬ UsableMemory (pcMap 0x7EE0000 (by decide)) (pcRegion 0x7EE0000 (by decide))
        (0x220000 + booted.bitmapSize) 0x7FE0 := by
  have map := pcMap_boot 0x7EE0000 (by decide) (by decide) (by decide) (by decide)
  obtain ⟨booted, install⟩ :=
    pcMap_install 0x7EE0000 (by decide) (by decide) (by decide) (by decide) fun _ => 0
  have size : bitmapSizeOf (pcRegion 0x7EE0000 (by decide)) = 4096 := by decide
  obtain ⟨sized, free⟩ := pmmInstall_free_iff map install
  rw [size] at free sized
  have overrun : Overrun (pcRegion 0x7EE0000 (by decide)) 0x7FE0 := ⟨0, by decide, rfl, by decide⟩
  refine ⟨map, booted, install, by omega, (free _ (by decide)).mpr (.inr ⟨by decide, overrun⟩), ?_⟩
  intro usable
  obtain ⟨⟨entry, listed, entryUsable, held⟩, _⟩ := usable
  simp only [pcMap, List.mem_cons, List.not_mem_nil, or_false] at listed
  rcases listed with rfl | rfl
  · exact absurd entryUsable.2 (by decide)
  · exact absurd held.2 (by simp [pcRegion])

end BarrelOS.Memory
