import BarrelOS.Memory.PageLoop

namespace BarrelOS.Memory

open BarrelOS.Boot BarrelOS.Data BarrelOS.Semantics

variable {fuel address page : Nat} {image : Image} {mbootInfo : MultibootInfo} {start after vmm : Vmm} {kernel : Kernel}

/-! The kernel as the linker lays it out -/

/-- The first 4 KiB boundary at or behind an address. -/
def nextPage (address : Nat) : Nat := (address + 4095) / 4096 * 4096

/-- Each section begins where the last one ended, its contents at the next page
boundary, and the boundary behind the last one is an address. -/
structure Image.Linked (image : Image) : Prop where
  aligned : image.textStart % 4096 = 0
  rodataStart : image.rodataStart = image.textEnd
  dataStart : image.dataStart = image.rodataEnd
  bssStart : image.bssStart = image.dataEnd
  text : image.textStart < image.textEnd
  rodata : nextPage image.rodataStart < image.rodataEnd
  data : nextPage image.dataStart < image.dataEnd
  bss : nextPage image.bssStart < image.bssEnd
  finish : nextPage image.bssEnd < 2 ^ 32

def Image.ReadOnlyByte (image : Image) (address : Nat) : Prop :=
  image.textStart ≤ address ∧ address < image.textEnd ∨
    nextPage image.rodataStart ≤ address ∧ address < image.rodataEnd

def Image.WritableByte (image : Image) (address : Nat) : Prop :=
  nextPage image.dataStart ≤ address ∧ address < image.dataEnd ∨
    nextPage image.bssStart ≤ address ∧ address < image.bssEnd

theorem sectionAddress_placement (aligned : image.textStart % 4096 = 0) : Placement (sectionAddress image) where
  word _ _ := Nat.mod_lt _ (by decide)
  page := by
    intro left first right second
    unfold sectionAddress
    omega

/-! The five loops -/

/-- The walk of a section's page as the loops over the sections leave it. -/
def Image.sectionWalk (image : Image) (start : Vmm) (address : Nat) : Option (Nat × Nat) :=
  if Stepped image.bssStart image.bssEnd (address / 4096) ∨ Stepped image.dataStart image.dataEnd (address / 4096) then
    some (pageBase address, ptePresent ||| pteWritable)
  else if Stepped image.rodataStart image.rodataEnd (address / 4096) ∨
      Stepped image.textStart image.textEnd (address / 4096) then
    some (pageBase address, ptePresent)
  else start.walk (sectionAddress image address)

theorem mapKernel_walk (linked : image.Linked) (paged : Paged ⟨kernel.withVmm start, []⟩)
    (run : mapKernel fuel image mbootInfo start = .done () after)
    (handed : HandsOutBelow (2 ^ 20) start.pmm after.pmm) :
    Paged ⟨kernel.withVmm after, []⟩ ∧ ∀ address < 2 ^ 32, after.walk (sectionAddress image address) =
      if FramebufferPage mbootInfo (sectionAddress image address / 4096) then
        some (pageBase (sectionAddress image address), ptePresent ||| pteWritable)
      else image.sectionWalk start address := by
  have finish := linked.finish
  have order : image.textEnd < image.rodataEnd ∧ image.rodataEnd < image.dataEnd ∧ image.dataEnd < image.bssEnd := by
    obtain ⟨_, rodataStart, dataStart, bssStart, _, rodata, data, bss, _⟩ := linked
    unfold nextPage at rodata data bss
    omega
  have rodataStart := linked.rodataStart
  have dataStart := linked.dataStart
  have bssStart := linked.bssStart
  unfold nextPage at finish
  have placement := sectionAddress_placement linked.aligned
  have loop : ∀ {address limit flags : Nat} {before middle : Vmm}, address < limit → limit ≤ image.bssEnd →
      Present flags → flags < 4096 → Paged ⟨kernel.withVmm before, []⟩ → HandsOutBelow (2 ^ 20) before.pmm middle.pmm →
      mapPages fuel flags (sectionAddress image) limit fuel address before = .done () middle →
      Paged ⟨kernel.withVmm middle, []⟩ ∧ MapsPages (sectionAddress image) address limit flags before middle := by
    intro address limit flags before middle inside below present small paged handed run
    exact mapPages_maps placement present small (by omega) (by omega) paged run handed
  obtain ⟨_, text, textRun, rest⟩ := Outcome.bind_done.mp run
  obtain ⟨_, rodata, rodataRun, rest⟩ := Outcome.bind_done.mp rest
  obtain ⟨_, data, dataRun, rest⟩ := Outcome.bind_done.mp rest
  obtain ⟨_, bss, bssRun, last⟩ := Outcome.bind_done.mp rest
  have usedText := mapPages_used textRun placement (by omega)
  have usedRodata := mapPages_used rodataRun placement (by omega)
  have usedData := mapPages_used dataRun placement (by omega)
  have usedBss := mapPages_used bssRun placement (by omega)
  have usedLast := framebufferLoop_used last
  obtain ⟨pagedText, mapsText⟩ := loop linked.text (by omega) (by decide) (by decide) paged
    (handed.between Set.Subset.rfl (usedRodata.trans (usedData.trans (usedBss.trans usedLast)))) textRun
  obtain ⟨pagedRodata, mapsRodata⟩ := loop (by omega) (by omega) (by decide) (by decide) pagedText
    (handed.between usedText (usedData.trans (usedBss.trans usedLast))) rodataRun
  obtain ⟨pagedData, mapsData⟩ := loop (by omega) (by omega) (by decide) (by decide) pagedRodata
    (handed.between (usedText.trans usedRodata) (usedBss.trans usedLast)) dataRun
  obtain ⟨pagedBss, mapsBss⟩ := loop (by omega) (by omega) (by decide) (by decide) pagedData
    (handed.between (usedText.trans (usedRodata.trans usedData)) usedLast) bssRun
  obtain ⟨pagedLast, walk⟩ := framebufferLoop_walk pagedBss
    (handed.between (usedText.trans (usedRodata.trans (usedData.trans usedBss))) Set.Subset.rfl) last
  refine ⟨pagedLast, fun address word => ?_⟩
  rw [walk _ (placement.word address word), mapsBss.walk placement word, mapsData.walk placement word,
    mapsRodata.walk placement word, mapsText.walk placement word, Image.sectionWalk]
  simp only [ite_or]

/-! Permissions -/

/-- The page of `virt` is present but not writable and lies at `phys`. -/
def Vmm.ReadsAt (vmm : Vmm) (virt phys : Nat) : Prop :=
  ∃ flags, vmm.walk virt = some (pageBase phys, flags) ∧ flags &&& pteWritable = 0

/-- Every byte of a section is mapped with the permissions of the section. -/
structure SectionsMapped (image : Image) (vmm : Vmm) : Prop where
  readOnly : ∀ address, image.ReadOnlyByte address → vmm.ReadsAt (sectionAddress image address) address
  writable : ∀ address, image.WritableByte address → vmm.mapsTo (sectionAddress image address) address = true

/-- `.rodata` ends with a page, `.bss` reaches at least as far into its last page
as it begins in its first one, and the framebuffer takes no page of a section
unless it maps that page to itself. -/
structure SectionsApart (image : Image) (mbootInfo : MultibootInfo) : Prop where
  rodata : image.rodataEnd % 4096 = 0
  bss : image.bssStart % 4096 ≤ (image.bssEnd - 1) % 4096 ∨
    FramebufferPage mbootInfo (sectionAddress image (image.bssEnd - 1) / 4096)
  framebuffer : ∀ address, image.ReadOnlyByte address ∨ image.WritableByte address →
    FramebufferPage mbootInfo (sectionAddress image address / 4096) →
    image.WritableByte address ∧ sectionAddress image address / 4096 = address / 4096

theorem fillDirectory_paged (kernel : Kernel) (word : image.firstPageTable < 2 ^ 32)
    (aligned : image.firstPageTable % 4096 = 0) (reserved : image.firstPageTable / 4096 ∈ vmm.pmm.used) :
    Paged ⟨kernel.withVmm (fillDirectory image vmm), []⟩ where
  toAccounted := by
    refine .of_tables rfl (fillDirectory_apart image) ?_
    intro slot page used
    rw [(fillDirectory_root used).2, pageBase_tableWord word aligned]
    exact reserved
  header := by simp
  writable := fillDirectory_writable word aligned

namespace Image.Linked

theorem bounds (linked : image.Linked) (byte : image.ReadOnlyByte address ∨ image.WritableByte address) :
    image.textStart ≤ address ∧ address < image.bssEnd := by
  obtain ⟨_, rodataStart, dataStart, bssStart, text, rodata, data, bss, _⟩ := linked
  unfold ReadOnlyByte WritableByte nextPage at byte
  unfold nextPage at rodata data bss
  omega

theorem word (linked : image.Linked) (byte : image.ReadOnlyByte address ∨ image.WritableByte address) :
    address < 2 ^ 32 := by
  have inside := (linked.bounds byte).2
  have finish := linked.finish
  unfold nextPage at finish
  omega

theorem disjoint (linked : image.Linked) (byte : image.ReadOnlyByte address) : ¬ image.WritableByte address := by
  obtain ⟨_, rodataStart, dataStart, bssStart, text, rodata, data, bss, _⟩ := linked
  unfold ReadOnlyByte nextPage at byte
  unfold WritableByte nextPage
  unfold nextPage at rodata data
  omega

theorem readOnly_stepped (linked : image.Linked) (rodataEnd : image.rodataEnd % 4096 = 0)
    (byte : image.ReadOnlyByte address) :
    ¬ (Stepped image.bssStart image.bssEnd (address / 4096) ∨ Stepped image.dataStart image.dataEnd (address / 4096)) ∧
      (Stepped image.rodataStart image.rodataEnd (address / 4096) ∨
        Stepped image.textStart image.textEnd (address / 4096)) := by
  obtain ⟨aligned, rodataStart, dataStart, bssStart, text, rodata, data, bss, _⟩ := linked
  unfold ReadOnlyByte nextPage at byte
  unfold nextPage at rodata data bss
  unfold Stepped
  omega

theorem writable_stepped (linked : image.Linked) (rodataEnd : image.rodataEnd % 4096 = 0)
    (byte : image.WritableByte address) :
    (Stepped image.bssStart image.bssEnd (address / 4096) ∨ Stepped image.dataStart image.dataEnd (address / 4096)) ↔
      (image.bssStart % 4096 ≤ (image.bssEnd - 1) % 4096 ∨ address / 4096 ≠ (image.bssEnd - 1) / 4096) := by
  obtain ⟨aligned, rodataStart, dataStart, bssStart, text, rodata, data, bss, _⟩ := linked
  unfold WritableByte nextPage at byte
  unfold nextPage at rodata data bss
  unfold Stepped
  omega

end Image.Linked

theorem Vmm.ReadsAt.flags {virt phys frame flags : Nat} (reads : vmm.ReadsAt virt phys)
    (walk : vmm.walk virt = some (frame, flags)) : flags &&& pteWritable = 0 := by
  obtain ⟨others, found, shown⟩ := reads
  rw [walk, Option.some.injEq, Prod.mk.injEq] at found
  exact found.2 ▸ shown

theorem Image.Linked.rodata_shared (linked : image.Linked) (inside : image.rodataEnd % 4096 ≠ 0) :
    image.ReadOnlyByte (image.rodataEnd - 1) ∧
      Stepped image.dataStart image.dataEnd ((image.rodataEnd - 1) / 4096) := by
  have rodata := linked.rodata
  have dataStart := linked.dataStart
  have data := linked.data
  refine ⟨.inr ⟨by omega, by omega⟩, ?_⟩
  unfold nextPage at data
  unfold Stepped
  omega

theorem Image.Linked.bss_last (linked : image.Linked) : image.WritableByte (image.bssEnd - 1) ∧
    ¬ (Stepped image.rodataStart image.rodataEnd ((image.bssEnd - 1) / 4096) ∨
      Stepped image.textStart image.textEnd ((image.bssEnd - 1) / 4096)) := by
  obtain ⟨_, rodataStart, dataStart, bssStart, _, rodata, data, bss, _⟩ := linked
  refine ⟨.inr ⟨by omega, by omega⟩, ?_⟩
  unfold nextPage at rodata data bss
  unfold Stepped
  omega

/-- The translations the five loops leave over a filled page directory. -/
structure SectionsWalked (image : Image) (mbootInfo : MultibootInfo) (vmm after : Vmm) : Prop where
  writable : after.DirectoryWritable
  walk : ∀ address < 2 ^ 32, after.walk (sectionAddress image address) =
    if FramebufferPage mbootInfo (sectionAddress image address / 4096) then
      some (pageBase (sectionAddress image address), ptePresent ||| pteWritable)
    else image.sectionWalk (fillDirectory image vmm) address

namespace SectionsWalked

variable (walked : SectionsWalked image mbootInfo vmm after) (linked : image.Linked)
include walked linked

theorem maps_iff (bound : address < 2 ^ 32) : after.mapsTo (sectionAddress image address) address = true ↔
    ∃ flags, after.walk (sectionAddress image address) = some (pageBase address, flags) ∧ flags &&& 0x3 = 0x3 :=
  mapsTo_iff walked.writable ((sectionAddress_placement linked.aligned).word address bound)

theorem rodata (mapped : SectionsMapped image after) : image.rodataEnd % 4096 = 0 := by
  by_contra inside
  obtain ⟨byte, stepped⟩ := linked.rodata_shared inside
  have reads := mapped.readOnly _ byte
  have found := walked.walk _ (linked.word (.inl byte))
  have later : image.sectionWalk (fillDirectory image vmm) (image.rodataEnd - 1) =
      some (pageBase (image.rodataEnd - 1), ptePresent ||| pteWritable) := if_pos (.inr stepped)
  have shown : ¬ (ptePresent ||| pteWritable) &&& pteWritable = 0 := by decide
  rw [later] at found
  split at found
  · exact shown (reads.flags found)
  · exact shown (reads.flags found)

/-- The last page of `.bss` is mapped by the loop over it or by the framebuffer's. -/
theorem bss (word : image.firstPageTable < 2 ^ 32) (aligned : image.firstPageTable % 4096 = 0)
    (mapped : SectionsMapped image after) : image.bssStart % 4096 ≤ (image.bssEnd - 1) % 4096 ∨
      FramebufferPage mbootInfo (sectionAddress image (image.bssEnd - 1) / 4096) := by
  by_contra neither
  obtain ⟨short, uncovered⟩ := not_or.mp neither
  obtain ⟨byte, earlier⟩ := linked.bss_last
  have bound := linked.word (.inr byte)
  have placed := (sectionAddress_placement linked.aligned).word _ bound
  obtain ⟨flags, found, _⟩ := (walked.maps_iff linked bound).mp (mapped.writable _ byte)
  have skipped := mt (linked.writable_stepped (walked.rodata linked mapped) byte).mp (by simp [short])
  rw [walked.walk _ bound, if_neg uncovered, Image.sectionWalk, if_neg skipped, if_neg earlier,
    fillDirectory_walk word aligned placed] at found
  split at found
  · rename_i low
    rw [Option.some.injEq, Prod.mk.injEq, pageBase_eq bound, pageBase_eq placed] at found
    have inside := linked.bounds (.inr byte)
    have same := found.1
    unfold sectionAddress at same low
    omega
  · cases found

theorem framebuffer (mapped : SectionsMapped image after)
    (byte : image.ReadOnlyByte address ∨ image.WritableByte address)
    (covered : FramebufferPage mbootInfo (sectionAddress image address / 4096)) :
    image.WritableByte address ∧ sectionAddress image address / 4096 = address / 4096 := by
  have bound := linked.word byte
  have placed := (sectionAddress_placement linked.aligned).word _ bound
  have found := walked.walk _ bound
  rw [if_pos covered] at found
  rcases byte with byte | byte
  · exact absurd ((mapped.readOnly _ byte).flags found) (by decide)
  · obtain ⟨flags, reached, _⟩ := (walked.maps_iff linked bound).mp (mapped.writable _ byte)
    rw [found, Option.some.injEq, Prod.mk.injEq, pageBase_eq bound, pageBase_eq placed] at reached
    exact ⟨byte, by omega⟩

variable (apart : SectionsApart image mbootInfo)
include apart

theorem readsAt (byte : image.ReadOnlyByte address) : after.ReadsAt (sectionAddress image address) address := by
  have uncovered : ¬ FramebufferPage mbootInfo (sectionAddress image address / 4096) := by
    intro covered
    exact linked.disjoint byte (apart.framebuffer address (.inl byte) covered).1
  obtain ⟨later, own⟩ := linked.readOnly_stepped apart.rodata byte
  refine ⟨ptePresent, ?_, by decide⟩
  rw [walked.walk _ (linked.word (.inl byte)), if_neg uncovered, Image.sectionWalk, if_neg later, if_pos own]

theorem mapsTo (byte : image.WritableByte address) : after.mapsTo (sectionAddress image address) address = true := by
  have placement := sectionAddress_placement linked.aligned
  have bound := linked.word (.inr byte)
  refine (walked.maps_iff linked bound).mpr ⟨ptePresent ||| pteWritable, ?_, by decide⟩
  rw [walked.walk _ bound]
  by_cases covered : FramebufferPage mbootInfo (sectionAddress image address / 4096)
  · have same := (apart.framebuffer address (.inr byte) covered).2
    rw [if_pos covered, pageBase_eq bound, pageBase_eq (placement.word _ bound), same]
  · have stepped : image.bssStart % 4096 ≤ (image.bssEnd - 1) % 4096 ∨ address / 4096 ≠ (image.bssEnd - 1) / 4096 := by
      refine apart.bss.imp_right fun last same => covered ?_
      have finish : image.bssEnd - 1 < 2 ^ 32 := by
        have fits := linked.finish
        unfold nextPage at fits
        omega
      rwa [(placement.page address bound _ finish).mpr same]
    rw [if_neg covered, Image.sectionWalk, if_pos ((linked.writable_stepped apart.rodata byte).mpr stepped)]

end SectionsWalked

/-- Whenever `vmm_install` returns, the sections are mapped with their own
permissions exactly where they do not share a page with what is mapped after
them. -/
theorem kernel_sections_mapped_iff (linked : image.Linked) (word : image.firstPageTable < 2 ^ 32)
    (aligned : image.firstPageTable % 4096 = 0) (reserved : image.firstPageTable / 4096 ∈ vmm.pmm.used)
    (run : vmmInstall fuel image mbootInfo vmm = .done () after)
    (handed : HandsOutBelow (2 ^ 20) vmm.pmm after.pmm) :
    SectionsMapped image after ↔ SectionsApart image mbootInfo := by
  have kernel : Kernel := ⟨vmm, fun _ => 0, fun _ => ⟨0, 0, 0, 0⟩, 0⟩
  have paged := fillDirectory_paged kernel word aligned reserved
  obtain ⟨pagedAfter, walk⟩ := mapKernel_walk linked paged run handed
  have walked : SectionsWalked image mbootInfo vmm after := ⟨pagedAfter.writable, walk⟩
  constructor
  · intro mapped
    exact ⟨walked.rodata linked mapped, walked.bss linked word aligned mapped,
      fun _ byte covered => walked.framebuffer linked mapped byte covered⟩
  · intro apart
    exact ⟨fun _ byte => walked.readsAt linked apart byte, fun _ byte => walked.mapsTo linked apart byte⟩

def pcVmm (booted : Pmm) : Vmm := ⟨booted, fun _ => 0, fun _ _ => 0, []⟩

theorem pcVmm_install (low : image.Low) : ∃ booted fuel after,
    pmmInstall (2 ^ 20 + 2) (pcInfo 0x7EE0000 (by decide)) 0x220000 (Pmm.initial fun _ => 0) = .done () booted ∧
    0x219 ∈ booted.used ∧
    vmmInstall fuel image (pcInfo 0x7EE0000 (by decide)) (pcVmm booted) = .done () after ∧
    HandsOutBelow (2 ^ 20) booted after.pmm ∧ ∃ lead ≤ 0x1221, after.pmm.Ascending lead 0x7EE0 := by
  obtain ⟨booted, install, _, _, _, reserved, _⟩ := pcMap_booted fun _ => 0
  obtain ⟨booting, same, _, ascending⟩ :=
    pcMap_ascending 0x7EE0000 (by decide) (by decide) (by decide) (by decide) (by decide) fun _ => 0
  rw [install] at same
  injection same with _ same
  subst same
  have filled : (fillDirectory image (pcVmm booted)).pmm.Ascending 0x221 0x7EE0 := ascending
  have textMode : (pcInfo 0x7EE0000 (by decide)).vbeMode = 3 := rfl
  obtain ⟨fuel, after, lead, run, ends, _, upper, handed⟩ := filled.mapKernel low textMode (by decide) (by decide)
  exact ⟨booted, fuel, after, install, reserved 0x219 (by decide), run, handed.mono (by decide), lead, upper, ends⟩

theorem smallImage_linked : smallImage.Linked :=
  ⟨by decide, rfl, rfl, rfl, by decide, by decide, by decide, by decide, by decide⟩

theorem smallImage_low : smallImage.Low := ⟨by decide, by decide, by decide, by decide, by decide⟩

theorem kernel_sections_mapped_small : ∃ booted fuel after,
    vmmInstall fuel smallImage (pcInfo 0x7EE0000 (by decide)) (pcVmm booted) = .done () after ∧
    SectionsMapped smallImage after := by
  obtain ⟨booted, fuel, after, _, reserved, run, handed, _⟩ :=
    pcVmm_install smallImage_low
  refine ⟨booted, fuel, after, run,
    (kernel_sections_mapped_iff smallImage_linked (by decide) (by decide) reserved run handed).mpr ⟨by decide, ?_, ?_⟩⟩
  · exact .inl (by decide)
  · exact fun _ _ covered => absurd rfl covered.1

/-- The same kernel with `.rodata` ending inside its last page. -/
def unevenImage : Image := { smallImage with rodataEnd := 0x213800, dataStart := 0x213800 }

theorem vmmInstall_unprotects_rodata : unevenImage.Linked ∧ unevenImage.ReadOnlyByte 0x213000 ∧
    ∃ booted fuel after,
      pmmInstall (2 ^ 20 + 2) (pcInfo 0x7EE0000 (by decide)) 0x220000 (Pmm.initial fun _ => 0) = .done () booted ∧
      vmmInstall fuel unevenImage (pcInfo 0x7EE0000 (by decide)) (pcVmm booted) = .done () after ∧
      ¬ after.ReadsAt (sectionAddress unevenImage 0x213000) 0x213000 := by
  have linked : unevenImage.Linked :=
    ⟨by decide, rfl, rfl, rfl, by decide, by decide, by decide, by decide, by decide⟩
  obtain ⟨booted, fuel, after, install, reserved, run, handed, _⟩ :=
    pcVmm_install (show unevenImage.Low from ⟨by decide, by decide, by decide, by decide, by decide⟩)
  have kernel : Kernel := ⟨pcVmm booted, fun _ => 0, fun _ => ⟨0, 0, 0, 0⟩, 0⟩
  have paged : Paged ⟨kernel.withVmm (fillDirectory unevenImage (pcVmm booted)), []⟩ :=
    fillDirectory_paged kernel (by decide) (by decide) reserved
  have found := (mapKernel_walk linked paged run handed).2 0x213000 (by decide)
  have later : unevenImage.sectionWalk (fillDirectory unevenImage (pcVmm booted)) 0x213000 =
      some (pageBase 0x213000, ptePresent ||| pteWritable) := if_pos (.inr (by decide))
  rw [if_neg fun covered => covered.1 rfl, later] at found
  refine ⟨linked, .inr ⟨by decide, by decide⟩, booted, fuel, after, install, run, fun reads => ?_⟩
  exact absurd (reads.flags found) (by decide)

end BarrelOS.Memory
