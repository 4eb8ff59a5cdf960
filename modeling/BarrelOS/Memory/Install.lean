import BarrelOS.Memory.Alloc
import Mathlib.Tactic.Tauto

namespace BarrelOS.Memory

open BarrelOS.Boot BarrelOS.Data BarrelOS.Semantics

variable {fuel o kernelEnd : Nat} {entry region : MultibootMemoryMap}
  {front back entries mmap : List MultibootMemoryMap} {pmm after : Pmm} {mbd : MultibootInfo}

/-- The page-marking loop clears this page's bit for the entry. -/
def Marks (entry : MultibootMemoryMap) (page : Nat) : Prop :=
  entry.Usable ∧ ∃ offset < entry.lenLow, offset % 4096 = 0 ∧
    page = (entry.addrLow + offset) % 2 ^ 32 / 4096

/-- The pages one entry's loop still has to clear from offset `o` on. -/
def MarksFrom (entry : MultibootMemoryMap) (o page : Nat) : Prop :=
  entry.Usable ∧ ∃ offset, o ≤ offset ∧ offset < entry.lenLow ∧ offset % 4096 = 0 ∧
    page = (entry.addrLow + offset) % 2 ^ 32 / 4096

theorem marksFrom_zero (page : Nat) : MarksFrom entry 0 page ↔ Marks entry page := by
  simp [MarksFrom, Marks]

/-- The words `pmm_install` computes before it marks pages. -/
structure SameWords (left right : Pmm) : Prop where
  lastPage : left.lastPage = right.lastPage
  pageCount : left.pageCount = right.pageCount
  bitmapSize : left.bitmapSize = right.bitmapSize

theorem SameWords.refl (pmm : Pmm) : SameWords pmm pmm := ⟨rfl, rfl, rfl⟩

theorem SameWords.trans {left middle right : Pmm} (first : SameWords left middle)
    (second : SameWords middle right) : SameWords left right :=
  ⟨first.lastPage.trans second.lastPage, first.pageCount.trans second.pageCount,
    first.bitmapSize.trans second.bitmapSize⟩

/-- The globals after one turn of the page-marking loop. -/
def markPage (entry : MultibootMemoryMap) (o : Nat) (pmm : Pmm) : Pmm :=
  if entry.Usable then pmm.clear ((entry.addrLow + o) % 2 ^ 32 / 4096) else pmm

theorem markPage_sameWords : SameWords (markPage entry o pmm) pmm := by
  unfold markPage
  split
  · exact ⟨rfl, rfl, rfl⟩
  · exact SameWords.refl pmm

theorem bitmapGet_markPage {page : Nat} :
    bitmapGet (markPage entry o pmm).bitmap page = true ↔
      bitmapGet pmm.bitmap page = true ∧
        ¬ (entry.Usable ∧ page = (entry.addrLow + o) % 2 ^ 32 / 4096) := by
  by_cases usable : entry.Usable
  · simp [markPage, usable, Pmm.clear]
  · simp [markPage, usable]

theorem mem_touched_markPage {bit : Nat} :
    bit ∈ (markPage entry o pmm).touched ↔
      bit ∈ pmm.touched ∨ entry.Usable ∧ bit = (entry.addrLow + o) % 2 ^ 32 / 4096 := by
  by_cases usable : entry.Usable
  · simp [markPage, usable, Pmm.clear, or_comm]
  · simp [markPage, usable]

/-- A region so long that the offset wraps never ends the loop. -/
theorem clearRegion_endless (long : 2 ^ 32 - 4096 < entry.lenLow) (aligned : o % 4096 = 0)
    (word : o < 2 ^ 32) : ∃ after, clearRegion entry fuel o pmm = .running after := by
  induction fuel generalizing o pmm with
  | zero => exact ⟨pmm, rfl⟩
  | succ fuel ih =>
      rw [clearRegion, if_pos (by omega)]
      exact ih (by omega) (Nat.mod_lt _ (by decide))

theorem clearRegion_length (run : clearRegion entry fuel 0 pmm = .done () after) :
    entry.lenLow ≤ 2 ^ 32 - 4096 := by
  by_contra long
  have endless : ∃ last, clearRegion entry fuel 0 pmm = .running last :=
    clearRegion_endless (by omega) rfl (by decide)
  obtain ⟨last, running⟩ := endless
  rw [running] at run
  cases run

/-- What the loop over one entry has done when it ends. -/
structure Cleared (marks : Nat → Prop) (before after : Pmm) : Prop where
  words : SameWords after before
  bits : ∀ page, bitmapGet after.bitmap page = true ↔
    bitmapGet before.bitmap page = true ∧ ¬ marks page
  touched : ∀ bit, bit ∈ after.touched ↔ bit ∈ before.touched ∨ marks bit

theorem Cleared.trans {first second both : Nat → Prop} {before middle after : Pmm}
    (head : Cleared first before middle) (tail : Cleared second middle after)
    (union : ∀ page, both page ↔ first page ∨ second page) : Cleared both before after where
  words := tail.words.trans head.words
  bits := by
    intro page
    rw [tail.bits, head.bits, union, not_or, and_assoc]
  touched := by
    intro bit
    rw [tail.touched, head.touched, union, or_assoc]

theorem clearRegion_done (short : entry.lenLow ≤ 2 ^ 32 - 4096) (aligned : o % 4096 = 0)
    (run : clearRegion entry fuel o pmm = .done () after) :
    Cleared (MarksFrom entry o) pmm after := by
  induction fuel generalizing o pmm with
  | zero => cases run
  | succ fuel ih =>
      rw [clearRegion] at run
      by_cases more : o < entry.lenLow
      · rw [if_pos more, Nat.mod_eq_of_lt (by omega)] at run
        have head : Cleared (fun page => entry.Usable ∧ page = (entry.addrLow + o) % 2 ^ 32 / 4096)
            pmm (markPage entry o pmm) :=
          ⟨markPage_sameWords, fun _ => bitmapGet_markPage, fun _ => mem_touched_markPage⟩
        refine head.trans (ih (by omega) run) ?_
        intro page
        simp only [MarksFrom, ← and_or_left]
        refine and_congr_right fun _ => ?_
        constructor
        · intro marked
          obtain ⟨offset, lower, upper, step, same⟩ := marked
          by_cases here : offset = o
          · exact .inl (here ▸ same)
          · exact .inr ⟨offset, by omega, upper, step, same⟩
        · intro marked
          rcases marked with same | ⟨offset, lower, upper, step, same⟩
          · exact ⟨o, Nat.le_refl _, more, aligned, same⟩
          · exact ⟨offset, by omega, upper, step, same⟩
      · rw [if_neg more] at run
        cases run
        have none : ∀ page, ¬ MarksFrom entry o page := by
          intro page marked
          obtain ⟨_, offset, lower, upper, _⟩ := marked
          omega
        exact ⟨SameWords.refl _, by simp [none], by simp [none]⟩

theorem clearRegions_done (run : clearRegions fuel entries pmm = .done () after) :
    Cleared (fun page => ∃ entry ∈ entries, Marks entry page) pmm after := by
  induction entries generalizing pmm with
  | nil =>
      cases run
      exact ⟨SameWords.refl _, by simp, by simp⟩
  | cons entry rest ih =>
      obtain ⟨_, middle, head, tail⟩ := Outcome.bind_done.mp run
      have cleared := clearRegion_done (clearRegion_length head) (by decide) head
      refine cleared.trans (ih tail) ?_
      intro page
      simp only [marksFrom_zero, List.mem_cons, exists_eq_or_imp]

theorem clearRegion_terminates (short : entry.lenLow ≤ 2 ^ 32 - 4096) (aligned : o % 4096 = 0)
    (enough : (entry.lenLow - o) / 4096 + 1 < fuel) :
    ∃ after, clearRegion entry fuel o pmm = .done () after := by
  induction fuel generalizing o pmm with
  | zero => exact absurd enough (Nat.not_lt_zero _)
  | succ fuel ih =>
      rw [clearRegion]
      by_cases more : o < entry.lenLow
      · rw [if_pos more, Nat.mod_eq_of_lt (by omega)]
        by_cases last : entry.lenLow - o ≤ 4096
        · cases fuel with
          | zero => omega
          | succ fuel =>
              rw [clearRegion, if_neg (by omega)]
              exact ⟨_, rfl⟩
        · exact ih (by omega) (by omega)
      · rw [if_neg more]
        exact ⟨_, rfl⟩

theorem clearRegions_terminates (short : ∀ entry ∈ entries, entry.lenLow ≤ 2 ^ 32 - 4096)
    (enough : 2 ^ 20 + 1 < fuel) : ∃ after, clearRegions fuel entries pmm = .done () after := by
  induction entries generalizing pmm with
  | nil => exact ⟨pmm, rfl⟩
  | cons entry rest ih =>
      have bound := short entry (by simp)
      have ends : ∃ middle, clearRegion entry fuel 0 pmm = .done () middle :=
        clearRegion_terminates bound rfl (by omega)
      obtain ⟨middle, head⟩ := ends
      have rest : ∃ after, clearRegions fuel rest middle = .done () after :=
        ih fun other member => short other (by simp [member])
      obtain ⟨after, tail⟩ := rest
      exact ⟨after, by rw [clearRegions, head, Outcome.done_bind, tail]⟩

/-! The whole of `pmm_install` -/

/-- `region` is the first usable entry of the map, behind `front`. -/
structure KernelRegion (mmap front : List MultibootMemoryMap) (region : MultibootMemoryMap)
    (back : List MultibootMemoryMap) : Prop where
  split : mmap = front ++ region :: back
  usable : region.Usable
  earliest : ∀ entry ∈ front, ¬ entry.Usable

theorem KernelRegion.found (kernel : KernelRegion mmap front region back) :
    findKernelRegion mmap = some front.length := by
  have absent : front.findIdx? (fun entry => decide entry.Usable) = none := by
    rw [List.findIdx?_eq_none_iff]
    intro entry member
    simpa using kernel.earliest entry member
  rw [findKernelRegion, kernel.split, List.findIdx?_append, absent]
  simp [List.findIdx?_cons, kernel.usable]

theorem findKernelRegion_some {index : Nat} (found : findKernelRegion mmap = some index) :
    ∃ front region back, KernelRegion mmap front region back ∧ index = front.length := by
  obtain ⟨bound, usable, earliest⟩ := List.findIdx?_eq_some_iff_getElem.mp found
  refine ⟨mmap.take index, mmap[index], mmap.drop (index + 1), ⟨?_, by simpa using usable, ?_⟩, ?_⟩
  · rw [List.getElem_cons_drop, List.take_append_drop]
  · intro entry member
    obtain ⟨position, inside, same⟩ := List.mem_take_iff_getElem.mp member
    rw [← same]
    simpa using earliest position (by omega)
  · rw [List.length_take, Nat.min_eq_left (Nat.le_of_lt bound)]

/-- The size `pmm_install` gives the bitmap of a region. -/
def bitmapSizeOf (region : MultibootMemoryMap) : Nat := alignUp (region.lenLow / 4096 / 8) 4096

/-- A returned `pmm_install` found a kernel region, filled the bitmap and cleared
the pages of every entry, the kernel's one in its adjusted form. -/
theorem pmmInstall_done (run : pmmInstall fuel mbd kernelEnd pmm = .done () after) :
    ∃ front region back, KernelRegion mbd.mmap front region back ∧
      Cleared (fun page => ∃ entry ∈ front ++ adjustRegion region kernelEnd (bitmapSizeOf region) :: back,
        Marks entry page) (prepareBitmap region pmm) after := by
  unfold pmmInstall at run
  split at run
  · cases run
  · split at run
    · cases run
    · rename_i index found
      obtain ⟨front, region, back, kernel, rfl⟩ := findKernelRegion_some found
      have here : mbd.mmap[front.length]? = some region := by simp [kernel.split]
      simp only [here] at run
      have replaced : mbd.mmap.set front.length
          (adjustRegion region kernelEnd (prepareBitmap region pmm).bitmapSize) =
          front ++ adjustRegion region kernelEnd (bitmapSizeOf region) :: back := by
        rw [kernel.split, List.set_append_right _ _ (Nat.le_refl _), Nat.sub_self]
        rfl
      rw [replaced] at run
      exact ⟨front, region, back, kernel, clearRegions_done run⟩

/-- What `pmm_install` comes down to for a map with a usable entry. -/
theorem pmmInstall_eq (valid : mbd.flags >>> 6 &&& 0x1 ≠ 0) (kernel : KernelRegion mbd.mmap front region back) :
    pmmInstall fuel mbd kernelEnd pmm =
      clearRegions fuel (front ++ adjustRegion region kernelEnd (bitmapSizeOf region) :: back)
        (prepareBitmap region pmm) := by
  have here : mbd.mmap[front.length]? = some region := by simp [kernel.split]
  have replaced : mbd.mmap.set front.length
      (adjustRegion region kernelEnd (prepareBitmap region pmm).bitmapSize) =
      front ++ adjustRegion region kernelEnd (bitmapSizeOf region) :: back := by
    rw [kernel.split, List.set_append_right _ _ (Nat.le_refl _), Nat.sub_self]
    rfl
  simp only [pmmInstall, if_neg valid, kernel.found, here, replaced]

theorem pmmInstall_terminates (valid : mbd.flags >>> 6 &&& 0x1 ≠ 0)
    (kernel : KernelRegion mbd.mmap front region back)
    (short : ∀ entry ∈ front ++ adjustRegion region kernelEnd (bitmapSizeOf region) :: back,
      entry.lenLow ≤ 2 ^ 32 - 4096)
    (enough : 2 ^ 20 + 1 < fuel) : ∃ after, pmmInstall fuel mbd kernelEnd pmm = .done () after := by
  rw [pmmInstall_eq valid kernel]
  exact clearRegions_terminates short enough

theorem clearRegions_lengths (run : clearRegions fuel entries pmm = .done () after) :
    ∀ entry ∈ entries, entry.lenLow ≤ 2 ^ 32 - 4096 := by
  induction entries generalizing pmm with
  | nil => simp
  | cons entry rest ih =>
      obtain ⟨_, middle, head, tail⟩ := Outcome.bind_done.mp run
      exact List.forall_mem_cons.mpr ⟨clearRegion_length head, ih tail⟩

/-- How far `end` lies behind the base of a region, in 32-bit arithmetic. -/
def kernelOffset (region : MultibootMemoryMap) (kernelEnd : Nat) : Nat :=
  (kernelEnd + 2 ^ 32 - region.addrLow) % 2 ^ 32

theorem kernelOffset_lt : kernelOffset region kernelEnd < 2 ^ 32 := Nat.mod_lt _ (by decide)

theorem adjustRegion_length (size : Nat) : (adjustRegion region kernelEnd size).lenLow =
    if kernelOffset region kernelEnd ≤ region.lenLow then region.lenLow - kernelOffset region kernelEnd
    else region.lenLow + 2 ^ 32 - kernelOffset region kernelEnd := by
  have word := region.lenLow_lt
  have offset : kernelOffset region kernelEnd < 2 ^ 32 := kernelOffset_lt
  change (region.lenLow + 2 ^ 32 - kernelOffset region kernelEnd) % 2 ^ 32 = _
  split <;> omega

/-- `pmm_install` ends, and takes no more off the kernel region's length than it
has, if and only if no length reaches into the last page of a 32-bit counter and
the kernel's end lies within the region. -/
theorem pmm_install_terminates_iff (valid : mbd.flags >>> 6 &&& 0x1 ≠ 0)
    (kernel : KernelRegion mbd.mmap front region back) :
    ((∃ fuel after, pmmInstall fuel mbd kernelEnd pmm = .done () after) ∧
      (adjustRegion region kernelEnd (bitmapSizeOf region)).lenLow ≤ region.lenLow) ↔
    (∀ entry ∈ front ++ back, entry.lenLow ≤ 2 ^ 32 - 4096) ∧
      kernelOffset region kernelEnd ≤ region.lenLow ∧
      region.lenLow - kernelOffset region kernelEnd ≤ 2 ^ 32 - 4096 := by
  have length : (adjustRegion region kernelEnd (bitmapSizeOf region)).lenLow = _ := adjustRegion_length _
  have offset : kernelOffset region kernelEnd < 2 ^ 32 := kernelOffset_lt
  have others : (∀ entry ∈ front ++ adjustRegion region kernelEnd (bitmapSizeOf region) :: back,
      entry.lenLow ≤ 2 ^ 32 - 4096) ↔ (∀ entry ∈ front ++ back, entry.lenLow ≤ 2 ^ 32 - 4096) ∧
        (adjustRegion region kernelEnd (bitmapSizeOf region)).lenLow ≤ 2 ^ 32 - 4096 := by
    simp only [List.mem_append, List.mem_cons, or_imp, forall_and, forall_eq]
    tauto
  constructor
  · intro ended
    obtain ⟨⟨fuel, after, run⟩, kept⟩ := ended
    rw [pmmInstall_eq valid kernel] at run
    obtain ⟨short, adjusted⟩ := others.mp (clearRegions_lengths run)
    rw [length] at kept adjusted
    have inside : kernelOffset region kernelEnd ≤ region.lenLow := by
      by_contra beyond
      rw [if_neg beyond] at kept
      omega
    rw [if_pos inside] at adjusted
    exact ⟨short, inside, adjusted⟩
  · intro bounds
    obtain ⟨short, inside, adjusted⟩ := bounds
    rw [if_pos inside] at length
    rw [length]
    have lengths := others.mpr ⟨short, length ▸ adjusted⟩
    exact ⟨⟨2 ^ 20 + 2, pmmInstall_terminates valid kernel lengths (Nat.lt_succ_self _)⟩, Nat.sub_le _ _⟩

theorem extendedBase_lt : 0x100000 < 2 ^ 32 := by decide

theorem extendedLength_lt : 0x7EE0000 < 2 ^ 32 := by decide

theorem flashBase_lt : 0xFFFC0000 < 2 ^ 32 := by decide

/-- 128 MiB of extended memory, and an entry that is not available. -/
def reservedInfo (lenLow : Nat) (word : lenLow < 2 ^ 32) : MultibootInfo where
  flags := 0x40
  mmap := [⟨0x100000, 0x7EE0000, multibootMemoryAvailable, extendedBase_lt, extendedLength_lt⟩,
    ⟨0xFFFC0000, lenLow, 2, flashBase_lt, word⟩]
  vbeMode := 3
  framebufferAddr := 0
  framebufferPitch := 0
  framebufferHeight := 0

theorem reservedInfo_kernel (lenLow : Nat) (word : lenLow < 2 ^ 32) :
    KernelRegion (reservedInfo lenLow word).mmap []
      { addrLow := 0x100000, lenLow := 0x7EE0000, type := multibootMemoryAvailable }
      [{ addrLow := 0xFFFC0000, lenLow, type := 2, lenLow_lt := word }] where
  split := rfl
  usable := ⟨rfl, Nat.le_refl _⟩
  earliest := by simp

theorem pmm_install_terminates_flash : ∃ fuel after,
    pmmInstall fuel (reservedInfo 0x40000 (by decide)) 0x220000 (Pmm.initial fun _ => 0) = .done () after := by
  refine ((pmm_install_terminates_iff (by simp [reservedInfo]) (reservedInfo_kernel 0x40000 (by decide))).mpr ?_).1
  exact ⟨by simp, by decide, by decide⟩

/-- The offset steps from 0xFFFFF000 to 0, below a length of 0xFFFFF001 again. -/
theorem pmmInstall_endless : (reservedInfo 0xFFFFF001 (by decide)).flags >>> 6 &&& 0x1 ≠ 0 ∧
    (∃ entry ∈ (reservedInfo 0xFFFFF001 (by decide)).mmap, entry.Usable) ∧
    ¬ ∃ fuel after, pmmInstall fuel (reservedInfo 0xFFFFF001 (by decide)) 0x220000
      (Pmm.initial fun _ => 0) = .done () after := by
  have kernel := reservedInfo_kernel 0xFFFFF001 (by decide)
  refine ⟨by decide, ⟨_, List.mem_cons_self, kernel.usable⟩, ?_⟩
  intro ended
  obtain ⟨fuel, after, run⟩ := ended
  rw [pmmInstall_eq (by decide) kernel] at run
  have long := clearRegions_lengths run _ (List.mem_append_right _ (List.mem_cons_of_mem _ List.mem_cons_self))
  exact absurd long (by decide)

theorem bitmapGet_prepareBitmap {page : Nat} (bound : page < 8 * bitmapSizeOf region) :
    bitmapGet (prepareBitmap region pmm).bitmap page = true := by
  have inside : page / 8 < alignUp (region.lenLow / 4096 / 8) 4096 := by
    unfold bitmapSizeOf at bound
    omega
  have filled : ∀ index < 8, (0xFF#8).getLsbD index = true := by decide
  rw [bitmapGet_eq_getLsbD, prepareBitmap]
  simp only [if_pos inside]
  exact filled _ (Nat.mod_lt _ (by decide))

end BarrelOS.Memory
