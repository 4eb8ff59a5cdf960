import BarrelOS.Memory.Ascent

namespace BarrelOS.Memory

open BarrelOS.Boot BarrelOS.Data BarrelOS.Semantics

variable {fuel turns flags phys virt limit address lead bound : Nat} {place : Nat → Nat} {image : Image}
  {mbootInfo : MultibootInfo} {before middle after vmm : Vmm} {Inv : Vmm → Prop}
  {first second : Vmm → Outcome Vmm Unit}

/-! The loops of `vmm_install` keep what each of their `vmm_map` calls keeps -/

/-- A part of `vmm_install` frees no page, and keeps an invariant as long as the
pages it takes lie below a limit. -/
structure Keeps (bound : Nat) (Inv : Vmm → Prop) (part : Vmm → Outcome Vmm Unit) : Prop where
  used : ∀ before after, part before = .done () after → before.pmm.used ⊆ after.pmm.used
  keeps : ∀ before after, part before = .done () after → HandsOutBelow bound before.pmm after.pmm →
    Inv before → Inv after

namespace Keeps

theorem done : Keeps bound Inv (.done ()) where
  used := by
    intro before after run
    cases run
    exact Set.Subset.rfl
  keeps := by
    intro before after run _ initial
    cases run
    exact initial

theorem bind (head : Keeps bound Inv first) (tail : Keeps bound Inv second) :
    Keeps bound Inv fun vmm => (first vmm).bind fun _ => second where
  used := by
    intro before after run
    obtain ⟨_, middle, start, rest⟩ := Outcome.bind_done.mp run
    exact (head.used before middle start).trans (tail.used middle after rest)
  keeps := by
    intro before after run handed initial
    obtain ⟨_, middle, start, rest⟩ := Outcome.bind_done.mp run
    have earlier := head.used before middle start
    have later := tail.used middle after rest
    have reached := head.keeps before middle start (fun page set => handed page (later set)) initial
    exact tail.keeps middle after rest (fun page set => (handed page set).imp_left (@earlier page)) reached

/-- A property of the counter that every turn keeps can be used in each of them. -/
theorem mapPages_visited (Visited : Nat → Prop) (start : Visited address)
    (next : ∀ other < limit, Visited other → Visited ((other + 4096) % 2 ^ 32))
    (turn : ∀ other < limit, Visited other → Keeps bound Inv (vmmMap fuel other (place other) flags)) :
    Keeps bound Inv (mapPages fuel flags place limit turns address) := by
  induction turns generalizing address with
  | zero =>
      constructor
      · intro before after run
        cases run
      · intro before after run
        cases run
  | succ turns ih =>
      have unfolded : Memory.mapPages fuel flags place limit (turns + 1) address = fun vmm =>
          if address < limit then
            (vmmMap fuel address (place address) flags vmm).bind fun _ =>
              Memory.mapPages fuel flags place limit turns ((address + 4096) % 2 ^ 32)
          else .done () vmm := by
        funext vmm
        rw [Memory.mapPages]
      rw [unfolded]
      by_cases more : address < limit
      · simp only [if_pos more]
        exact (turn address more start).bind (ih (next address more start))
      · simp only [if_neg more]
        exact done

theorem mapPages (turn : ∀ address < limit, Keeps bound Inv (vmmMap fuel address (place address) flags)) :
    Keeps bound Inv (mapPages fuel flags place limit turns address) :=
  mapPages_visited (fun _ => True) trivial (fun _ _ _ => trivial) fun other more _ => turn other more

end Keeps

structure Image.Low (image : Image) : Prop where
  start : image.textStart < 0x400000
  text : image.textEnd ≤ 0x400000
  rodata : image.rodataEnd ≤ 0x400000
  data : image.dataEnd ≤ 0x400000
  bss : image.bssEnd ≤ 0x400000

/-- The mappings of `vmm_install`: a page of a section goes to the second gigabyte,
a page of the framebuffer to itself. -/
def KernelPage (phys virt flags : Nat) : Prop :=
  virt < 2 ^ 32 ∧ (0x40000000 ≤ virt ∧ flags &&& 0x1 = 0x1 ∧ flags < 4096 ∨ virt = phys ∧ flags = ptePresent ||| pteWritable)

theorem sectionAddress_page {size : Nat} (start : image.textStart < 0x400000) (inside : size ≤ 0x400000)
    (before : address < size) (low : flags < 4096) (present : flags &&& 0x1 = 0x1) :
    KernelPage address (sectionAddress image address) flags := by
  have word : sectionAddress image address < 2 ^ 32 := Nat.mod_lt _ (by decide)
  refine ⟨word, .inl ⟨?_, present, low⟩⟩
  unfold sectionAddress
  omega

/-- `vmm_install` keeps what the loops over its sections and its calls for the
framebuffer keep. -/
theorem Keeps.mapKernel_sections
    (text : Keeps bound Inv (Memory.mapPages fuel ptePresent (sectionAddress image) image.textEnd fuel image.textStart))
    (rodata : Keeps bound Inv (Memory.mapPages fuel ptePresent (sectionAddress image) image.rodataEnd fuel image.rodataStart))
    (data : Keeps bound Inv (Memory.mapPages fuel (ptePresent ||| pteWritable) (sectionAddress image) image.dataEnd fuel
      image.dataStart))
    (bss : Keeps bound Inv (Memory.mapPages fuel (ptePresent ||| pteWritable) (sectionAddress image) image.bssEnd fuel
      image.bssStart))
    (framebuffer : mbootInfo.vbeMode ≠ 3 → ∀ vmem < 2 ^ 32,
      Keeps bound Inv (vmmMap fuel vmem vmem (ptePresent ||| pteWritable))) :
    Keeps bound Inv (mapKernel fuel image mbootInfo) := by
  refine text.bind (rodata.bind (data.bind (bss.bind ?_)))
  by_cases graphics : mbootInfo.vbeMode ≠ 3
  · simp only [if_pos graphics]
    exact Keeps.mapPages fun vmem before => framebuffer graphics vmem (Nat.lt_trans before (Nat.mod_lt _ (by decide)))
  · simp only [if_neg graphics]
    exact Keeps.done

theorem Keeps.mapKernel (low : image.Low)
    (map : ∀ phys virt flags, KernelPage phys virt flags → Keeps bound Inv (vmmMap fuel phys virt flags)) :
    Keeps bound Inv (mapKernel fuel image mbootInfo) := by
  have sections : ∀ {limit start flags : Nat}, limit ≤ 0x400000 → flags < 4096 → flags &&& 0x1 = 0x1 →
      Keeps bound Inv (Memory.mapPages fuel flags (sectionAddress image) limit fuel start) := by
    intro limit start flags inside small present
    exact Keeps.mapPages fun address before =>
      map _ _ _ (sectionAddress_page low.start inside before small present)
  exact Keeps.mapKernel_sections (sections low.text (by decide) (by decide)) (sections low.rodata (by decide) (by decide))
    (sections low.data (by decide) (by decide)) (sections low.bss (by decide) (by decide))
    fun _ vmem word => map _ _ _ ⟨word, .inr ⟨rfl, rfl⟩⟩

/-! In an ascending state the loops end -/

theorem Pmm.Ascending.mapPages {turns : Nat} (ascending : vmm.pmm.Ascending lead limit)
    (word : ∀ address, place address < 2 ^ 32) (ends : bound + 4096 ≤ 2 ^ 32)
    (enough : bound ≤ address + turns * 4096) (room : lead + turns ≤ limit) (physical : limit ≤ 2 ^ 20) :
    ∃ fuel after next, (∀ larger steps, fuel ≤ larger → turns < steps →
        Memory.mapPages larger flags place bound steps address vmm = .done () after) ∧
      after.pmm.Ascending next limit ∧ lead ≤ next ∧ next ≤ lead + turns ∧
      HandsOutBelow limit vmm.pmm after.pmm := by
  induction turns generalizing address vmm lead with
  | zero =>
      refine ⟨0, vmm, lead, ?_, ascending, Nat.le_refl _, Nat.le_refl _, .of_subset Set.Subset.rfl⟩
      intro larger steps _ more
      cases steps with
      | zero => cases more
      | succ steps => rw [Memory.mapPages, if_neg (by omega)]
  | succ turns ih =>
      by_cases inside : address < bound
      · obtain ⟨first, middle, map, following, handed⟩ :=
          ascending.mapping address flags (word address) (Nat.le_trans (by omega) room)
        have step : ∃ next, middle.pmm.Ascending next limit ∧ lead ≤ next ∧ next ≤ lead + 1 := by
          split at following
          · exact ⟨lead + 1, following, Nat.le_succ _, Nat.le_refl _⟩
          · exact ⟨lead, following, Nat.le_refl _, Nat.le_succ _⟩
        obtain ⟨next, reached, lower, upper⟩ := step
        have wrap : (address + 4096) % 2 ^ 32 = address + 4096 := Nat.mod_eq_of_lt (by omega)
        obtain ⟨second, after, last, rest, ended, least, most, later⟩ :=
          ih reached (show bound ≤ address + 4096 + turns * 4096 by omega) (by omega)
        refine ⟨max first second, after, last, ?_, ended, by omega, by omega, (handed physical).trans later⟩
        intro larger steps more longer
        cases steps with
        | zero => cases longer
        | succ steps =>
            rw [Memory.mapPages, if_pos inside, map larger (Nat.le_trans (Nat.le_max_left _ _) more),
              Outcome.done_bind, wrap]
            exact rest larger steps (Nat.le_trans (Nat.le_max_right _ _) more) (Nat.lt_of_succ_lt_succ longer)
      · refine ⟨0, vmm, lead, ?_, ascending, Nat.le_refl _, Nat.le_add_right _ _, .of_subset Set.Subset.rfl⟩
        intro larger steps _ more
        cases steps with
        | zero => cases more
        | succ steps => rw [Memory.mapPages, if_neg inside]

/-- Every section of so many pages at most takes no more tables. -/
theorem Pmm.Ascending.mapKernel_within (ascending : vmm.pmm.Ascending lead limit) (low : image.Low) (pages : Nat)
    (text : image.textEnd ≤ image.textStart + pages * 4096) (rodata : image.rodataEnd ≤ image.rodataStart + pages * 4096)
    (data : image.dataEnd ≤ image.dataStart + pages * 4096) (bss : image.bssEnd ≤ image.bssStart + pages * 4096)
    (textMode : mbootInfo.vbeMode = 3) (room : lead + 4 * pages ≤ limit) (physical : limit ≤ 2 ^ 20) :
    ∃ fuel after next, Memory.mapKernel fuel image mbootInfo vmm = .done () after ∧
      after.pmm.Ascending next limit ∧ lead ≤ next ∧ next ≤ lead + 4 * pages ∧
      HandsOutBelow limit vmm.pmm after.pmm := by
  have loop : ∀ (size address flags : Nat) {vmm : Vmm} {lead : Nat}, vmm.pmm.Ascending lead limit →
      size ≤ 0x400000 → size ≤ address + pages * 4096 → lead + pages ≤ limit →
      ∃ fuel after next, (∀ larger steps, fuel ≤ larger → pages < steps →
          Memory.mapPages larger flags (sectionAddress image) size steps address vmm = .done () after) ∧
        after.pmm.Ascending next limit ∧ lead ≤ next ∧ next ≤ lead + pages ∧
        HandsOutBelow limit vmm.pmm after.pmm := by
    intro size address flags vmm lead ascending inside short room
    exact ascending.mapPages (fun _ => Nat.mod_lt _ (by decide)) (by omega) short room physical
  obtain ⟨first, text, a, textRun, textEnd, la, ua, handedText⟩ :=
    loop image.textEnd image.textStart ptePresent ascending low.text text (by omega)
  obtain ⟨second, rodata, b, rodataRun, rodataEnd, lb, ub, handedRodata⟩ :=
    loop image.rodataEnd image.rodataStart ptePresent textEnd low.rodata rodata (by omega)
  obtain ⟨third, data, c, dataRun, dataEnd, lc, uc, handedData⟩ :=
    loop image.dataEnd image.dataStart (ptePresent ||| pteWritable) rodataEnd low.data data (by omega)
  obtain ⟨fourth, bss, d, bssRun, bssEnd, ld, ud, handedBss⟩ :=
    loop image.bssEnd image.bssStart (ptePresent ||| pteWritable) dataEnd low.bss bss (by omega)
  have enough : ∃ fuel, first ≤ fuel ∧ second ≤ fuel ∧ third ≤ fuel ∧ fourth ≤ fuel ∧ pages < fuel :=
    ⟨first + second + third + fourth + pages + 1, by omega, by omega, by omega, by omega, by omega⟩
  obtain ⟨fuel, moreText, moreRodata, moreData, moreBss, longer⟩ := enough
  refine ⟨fuel, bss, d, ?_, bssEnd, by omega, by omega,
    handedText.trans (handedRodata.trans (handedData.trans handedBss))⟩
  rw [Memory.mapKernel, textRun fuel fuel moreText longer, Outcome.done_bind,
    rodataRun fuel fuel moreRodata longer, Outcome.done_bind, dataRun fuel fuel moreData longer,
    Outcome.done_bind, bssRun fuel fuel moreBss longer, Outcome.done_bind, if_neg (not_not.mpr textMode)]

theorem Pmm.Ascending.mapKernel (ascending : vmm.pmm.Ascending lead limit) (low : image.Low)
    (textMode : mbootInfo.vbeMode = 3) (room : lead + 0x1000 ≤ limit) (physical : limit ≤ 2 ^ 20) :
    ∃ fuel after next, Memory.mapKernel fuel image mbootInfo vmm = .done () after ∧
      after.pmm.Ascending next limit ∧ lead ≤ next ∧ next ≤ lead + 0x1000 ∧
      HandsOutBelow limit vmm.pmm after.pmm := by
  have bounds := low
  obtain ⟨_, text, rodata, data, bss⟩ := bounds
  exact ascending.mapKernel_within low 0x400 (by omega) (by omega) (by omega) (by omega) textMode room physical

end BarrelOS.Memory
