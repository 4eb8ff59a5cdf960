import BarrelOS.Interrupts.Registration
import BarrelOS.Memory.Installed

namespace BarrelOS.Interrupts

open BarrelOS.Boot BarrelOS.Data BarrelOS.Memory BarrelOS.Semantics

def Masked (board : Board) (address pin : Nat) : Prop := board.register address (redirectLow pin) &&& 0x10000 ≠ 0

instance (board : Board) (address pin : Nat) : Decidable (Masked board address pin) := inferInstanceAs (Decidable (_ ≠ _))

/-- Every listed I/O APIC is mapped and masked but for the timer's entry, and
lookups touch no other. -/
structure AllReady (timer : Option (Nat × Nat)) (board : Board) : Prop where
  mapped : ∀ ioapic ∈ board.madtIoapics, WindowMapped board.vmm ioapic.address
  masked : ∀ ioapic ∈ board.madtIoapics, ∀ pin ≤ board.gsiCount ioapic,
    some (ioapic.address, pin) ≠ timer → Masked board ioapic.address pin
  asks : ∀ gsi, Asks board gsi board.madtIoapics

/-- Every listed I/O APIC was mapped, but for the page of the first one's address,
and was masked, but for the first one and the timer's entry. -/
structure ReadyBefore (first : MadtIoapic) (board : Board) : Prop where
  mapped : ∀ ioapic ∈ board.madtIoapics, ∀ word ∈ [ioapic.address, (ioapic.address + 0x10) % 2 ^ 32],
    word / 4096 = first.address / 4096 ∨ Identity board.vmm word
  masked : ∀ ioapic ∈ board.madtIoapics, ioapic.address = first.address ∨
    ∀ pin ≤ board.gsiCount ioapic, some (ioapic.address, pin) ≠ line board 0 → Masked board ioapic.address pin

variable {fuel pitHandler turns i address : Nat} {before after : Board} {first ioapic : MadtIoapic}
  {rest list : List MadtIoapic} {system : System} {vmm : Vmm}

/-! The parts of `ioapic_install` -/

theorem identity_of_vmmMap {word : Nat} (accounted : Accounted system) (bound : address < 2 ^ 32) (inside : word < 2 ^ 32)
    (run : vmmMap fuel address address (ptePresent ||| pteWritable) system.kernel.vmm = .done () vmm)
    (handed : HandsOutBelow (2 ^ 20) system.kernel.vmm.pmm vmm.pmm) :
    Identity vmm word ↔ word / 4096 = address / 4096 ∨ Identity system.kernel.vmm word := by
  have walk := (vmmMap_done bound run).walk_flags (accounted.freshTable handed) accounted.apart (by decide)
    (by decide) inside
  rw [Identity, Identity, walk]
  by_cases here : word / 4096 = address / 4096
  · have same : pageBase address = pageBase word := by rw [pageBase_eq bound, pageBase_eq inside, here]
    rw [if_pos here, same]
    exact iff_of_true ⟨_, rfl⟩ (.inl here)
  · rw [if_neg here]
    exact (or_iff_right here).symm

theorem maskEntries_done (bound : i + turns ≤ 120) (run : maskEntries ioapic turns i before = .done () after) :
    SameLists before after ∧ (∀ address, after.register address ioapicVer = before.register address ioapicVer) ∧
      ∀ address index, after.register address (redirectLow index) =
        if address = ioapic.address ∧ i ≤ index ∧ index < i + turns then 0x10000 ||| (index + 32)
        else before.register address (redirectLow index) := by
  induction turns generalizing i before with
  | zero =>
      cases run
      refine ⟨⟨rfl, rfl, rfl, rfl⟩, fun _ => rfl, fun address index => (if_neg ?_).symm⟩
      omega
  | succ turns ih =>
      obtain ⟨_, half, low, next⟩ := Outcome.bind_done.mp run
      obtain ⟨_, middle, high, later⟩ := Outcome.bind_done.mp next
      obtain ⟨lists, written⟩ := ioapicWrite_entry (by omega) low high
      obtain ⟨more, versions, entries⟩ := ih (by omega) later
      refine ⟨lists.trans more, fun address => ?_, fun address index => ?_⟩
      · rw [versions, written, pokeEntry_ver]
      · rw [entries, written, pokeEntry_low]
        by_cases here : address = ioapic.address
        · rcases Nat.lt_trichotomy index i with below | same | above
          · rw [if_neg (by omega), if_neg (by omega), if_neg (by omega)]
          · rw [if_neg (by omega), if_pos ⟨here, same⟩, if_pos (by omega), same]
          · have inside : index < i + 1 + turns ↔ index < i + (turns + 1) := by omega
            simp only [here, inside, true_and]
            split
            · rw [if_pos (by omega)]
            · rw [if_neg (by omega), if_neg (by omega)]
        · rw [if_neg fun both => here both.1, if_neg fun both => here both.1, if_neg fun both => here both.1]

theorem masked_word {index : Nat} (small : index < 120) : (0x10000 ||| (index + 32)) &&& 0x10000 ≠ 0 := by
  revert index
  decide

/-- An `ioapic_install` that returns has mapped the first I/O APIC's page, masked its
entries, and registered the timer. -/
structure Installed (fuel : Nat) (first : MadtIoapic) (before after : Board) : Prop where
  map : vmmMap fuel first.address first.address (ptePresent ||| pteWritable) before.vmm = .done () after.vmm
  ioapics : after.madtIoapics = before.madtIoapics
  enabled : after.ioapicEnabled = true
  versions : ∀ address, after.register address ioapicVer = before.register address ioapicVer
  entries : ∃ timer pin low, line before 0 = some (timer, pin) ∧ low &&& 0x10000 = 0 ∧
    ∀ address index, after.register address (redirectLow index) =
      if address = timer ∧ index = pin then low
      else if address = first.address ∧ index ≤ before.gsiCount first then 0x10000 ||| (index + 32)
      else before.register address (redirectLow index)

theorem ioapicInstall_done (list : before.madtIoapics = first :: rest)
    (matching : before.register first.address ioapicId >>> 24 = first.id)
    (run : ioapicInstall fuel pitHandler before = .done () after) : Installed fuel first before after := by
  unfold ioapicInstall at run
  split at run
  · cases run
  rename_i ioapic _ same
  cases list.symm.trans same
  obtain ⟨_, mapped, mapping, run⟩ := Outcome.bind_done.mp run
  obtain ⟨vmm, map, embedded⟩ := Outcome.within_done.mp mapping
  subst embedded
  obtain ⟨id, second, read, run⟩ := Outcome.bind_done.mp run
  obtain ⟨count, third, counted, run⟩ := Outcome.bind_done.mp run
  obtain ⟨version, _, again, returned⟩ := Outcome.bind_done.mp counted
  cases returned
  obtain ⟨_, id_eq, lists, registers⟩ := ioapicRead_done read
  obtain ⟨_, version_eq, more, reread⟩ := ioapicRead_done again
  have identified : id >>> 24 = first.id := by
    rw [id_eq]
    exact matching
  rw [if_neg (not_not.mpr identified)] at run
  obtain ⟨_, masked, mask, register⟩ := Outcome.bind_done.mp run
  have count_eq : version >>> 16 &&& 0xff = before.gsiCount first := by
    rw [version_eq, registers]
    rfl
  have small := gsiCount_lt before first
  rw [count_eq] at mask
  obtain ⟨kept, versions, entries⟩ := maskEntries_done (by omega) mask
  have looked : third.register = before.register := reread.trans registers
  rw [looked] at versions entries
  have lists := (lists.trans more).trans kept
  obtain ⟨registered, timer, pin, low, high, here, written, unmasked, _⟩ :=
    @irqRegister_done 0 pitHandler { masked with ioapicEnabled := true } after rfl (Nat.zero_le _) register
  have moved : SameLists { before with vmm, ioapicEnabled := true } { masked with ioapicEnabled := true } :=
    ⟨lists.vmm, lists.ioapics, lists.isos, rfl⟩
  rw [line_congr moved versions] at here
  refine ⟨(registered.vmm.trans lists.vmm).symm ▸ map, registered.ioapics.trans lists.ioapics, registered.enabled, ?_,
    timer, pin, low, here, unmasked, ?_⟩
  · intro address
    rw [written, pokeEntry_ver]
    exact versions address
  · intro address index
    have masks := entries address index
    rw [written, pokeEntry_low]
    refine if_congr Iff.rfl rfl (masks.trans (if_congr (and_congr_right fun _ => ?_) rfl rfl))
    omega

/-! Every I/O APIC -/

namespace Installed

variable (installed : Installed fuel first before after)
include installed

theorem gsiCount (ioapic : MadtIoapic) : after.gsiCount ioapic = before.gsiCount ioapic := by
  rw [Board.gsiCount, Board.gsiCount, installed.versions]

theorem identity {word : Nat} (accounted : Accounted system) (tables : before.vmm = system.kernel.vmm)
    (bound : first.address < 2 ^ 32) (handed : HandsOutBelow (2 ^ 20) before.vmm.pmm after.vmm.pmm) (inside : word < 2 ^ 32) :
    Identity after.vmm word ↔ word / 4096 = first.address / 4096 ∨ Identity before.vmm word := by
  have map := installed.map
  rw [tables] at map handed ⊢
  exact identity_of_vmmMap accounted bound inside map handed

theorem masked : (∀ pin ≤ after.gsiCount ioapic, some (ioapic.address, pin) ≠ line before 0 → Masked after ioapic.address pin) ↔
    (ioapic.address = first.address ∨
      ∀ pin ≤ before.gsiCount ioapic, some (ioapic.address, pin) ≠ line before 0 → Masked before ioapic.address pin) := by
  obtain ⟨timer, slot, low, here, _, entries⟩ := installed.entries
  have other : ∀ pin, some (ioapic.address, pin) ≠ line before 0 → ¬ (ioapic.address = timer ∧ pin = slot) := by
    intro pin elsewhere both
    rw [here, ← both.1, ← both.2] at elsewhere
    exact elsewhere rfl
  rw [installed.gsiCount]
  by_cases same : ioapic.address = first.address
  · refine iff_of_true (fun pin bound elsewhere => ?_) (.inl same)
    have count : before.gsiCount ioapic = before.gsiCount first := by rw [Board.gsiCount, Board.gsiCount, same]
    have small := gsiCount_lt before first
    rw [Masked, entries, if_neg (other pin elsewhere), if_pos ⟨same, count ▸ bound⟩]
    exact masked_word (by omega)
  · rw [or_iff_right same]
    refine forall₃_congr fun pin _ elsewhere => ?_
    rw [Masked, Masked, entries, if_neg (other pin elsewhere), if_neg fun both => same both.1]

end Installed

/-- `ioapic_install` leaves every I/O APIC ready exactly when all but the first one were ready before. -/
theorem ioapics_ready (accounted : Accounted system) (tables : before.vmm = system.kernel.vmm)
    (list : before.madtIoapics = first :: rest) (words : ∀ ioapic ∈ before.madtIoapics, ioapic.address < 2 ^ 32)
    (installed : Installed fuel first before after) (handed : HandsOutBelow (2 ^ 20) before.vmm.pmm after.vmm.pmm) :
    AllReady (line before 0) after ↔ ReadyBefore first before := by
  have identity : ∀ word < 2 ^ 32, Identity after.vmm word ↔ word / 4096 = first.address / 4096 ∨ Identity before.vmm word :=
    fun word inside => installed.identity accounted tables (words first (list ▸ List.mem_cons_self)) handed inside
  have windows : ∀ ioapic ∈ before.madtIoapics, WindowMapped after.vmm ioapic.address ↔
      ∀ word ∈ [ioapic.address, (ioapic.address + 0x10) % 2 ^ 32],
        word / 4096 = first.address / 4096 ∨ Identity before.vmm word := by
    intro ioapic here
    have wrapped : (ioapic.address + 0x10) % 2 ^ 32 < 2 ^ 32 := Nat.mod_lt _ (by decide)
    rw [WindowMapped, identity _ (words ioapic here), identity _ wrapped, List.forall_mem_cons, List.forall_mem_singleton]
  constructor
  · intro ready
    have mapped := installed.ioapics ▸ ready.mapped
    have masked := installed.ioapics ▸ ready.masked
    exact ⟨fun ioapic listed => (windows ioapic listed).mp (mapped ioapic listed),
      fun ioapic listed => installed.masked.mp (masked ioapic listed)⟩
  · intro ready
    have mapped : ∀ ioapic ∈ after.madtIoapics, WindowMapped after.vmm ioapic.address := by
      rw [installed.ioapics]
      exact fun ioapic listed => (windows ioapic listed).mpr (ready.mapped ioapic listed)
    refine ⟨mapped, ?_, fun gsi => asks_of_mapped mapped⟩
    rw [installed.ioapics]
    exact fun ioapic listed => installed.masked.mpr (ready.masked ioapic listed)

theorem ioapic_install_readies_all {mbd : MultibootInfo} {kernelEnd : Nat} {image : Image} {boot : System}
    (paging : PagingOn mbd kernelEnd image boot) (calls : SystemRuns (2 ^ 20) (fun _ _ => True) boot system)
    (tables : before.vmm = system.kernel.vmm) (list : before.madtIoapics = first :: rest)
    (words : ∀ ioapic ∈ before.madtIoapics, ioapic.address < 2 ^ 32)
    (matching : ∀ ioapic ∈ before.madtIoapics, before.register ioapic.address ioapicId >>> 24 = ioapic.id)
    (run : ioapicInstall fuel pitHandler before = .done () after)
    (handed : HandsOutBelow (2 ^ 20) before.vmm.pmm after.vmm.pmm) :
    after.ioapicEnabled = true ∧ (AllReady (line before 0) after ↔ ReadyBefore first before) := by
  have accounted := (calls.sound (Nat.le_refl _) paging.paged.toSound).toAccounted
  have installed := ioapicInstall_done list (matching first (list ▸ List.mem_cons_self)) run
  exact ⟨installed.enabled, ioapics_ready accounted tables list words installed handed⟩

/-! One I/O APIC, and two -/

theorem maskEntries_exists (mapped : WindowMapped before.vmm ioapic.address) :
    ∃ after, maskEntries ioapic turns i before = .done () after := by
  induction turns generalizing i before with
  | zero => exact ⟨before, rfl⟩
  | succ turns ih =>
      obtain ⟨half, low⟩ : ∃ half, ioapicWrite ioapic (ioapicRedtbl + 2 * i) (0x10000 ||| (i + 32)) before =
        .done () half := ioapicWrite_exists mapped
      obtain ⟨middle, high⟩ : ∃ middle, ioapicWrite ioapic (ioapicRedtbl + 2 * i + 1) 0 half = .done () middle :=
        ioapicWrite_exists (ioapicWrite_vmm low ▸ mapped)
      have still : WindowMapped middle.vmm ioapic.address := ioapicWrite_vmm high ▸ ioapicWrite_vmm low ▸ mapped
      obtain ⟨after, later⟩ := ih (i := i + 1) still
      exact ⟨after, Outcome.bind_done.mpr ⟨(), half, low, Outcome.bind_done.mpr ⟨(), middle, high, later⟩⟩⟩

theorem ioapicInstall_exists (list : before.madtIoapics = first :: rest)
    (matching : before.register first.address ioapicId >>> 24 = first.id)
    (map : vmmMap fuel first.address first.address (ptePresent ||| pteWritable) before.vmm = .done () vmm)
    (mapped : WindowMapped vmm first.address) (served : Served { before with vmm, ioapicEnabled := true } 0) :
    ∃ after, ioapicInstall fuel pitHandler before = .done () after := by
  obtain ⟨id, second, read⟩ : ∃ id second, ioapicRead first ioapicId { before with vmm } = .done id second :=
    ioapicRead_exists mapped
  obtain ⟨_, id_eq, lists, registers⟩ := ioapicRead_done read
  obtain ⟨version, third, again⟩ : ∃ version third, ioapicRead first ioapicVer second = .done version third :=
    ioapicRead_exists (lists.vmm ▸ mapped)
  obtain ⟨_, version_eq, more, reread⟩ := ioapicRead_done again
  have identified : ¬ id >>> 24 ≠ first.id := by
    rw [id_eq, not_not]
    exact matching
  have counted : ioapicGsiCount first second = .done (version >>> 16 &&& 0xff) third := by
    rw [ioapicGsiCount, again]
    rfl
  obtain ⟨masked, mask⟩ : ∃ masked, maskEntries first ((version >>> 16 &&& 0xff) + 1) 0 third = .done () masked :=
    maskEntries_exists (more.vmm ▸ lists.vmm ▸ mapped)
  have small := gsiCount_lt second first
  have count_eq : version >>> 16 &&& 0xff = second.gsiCount first := by
    rw [version_eq]
    rfl
  obtain ⟨kept, versions, _⟩ := maskEntries_done (by omega) mask
  have all := (lists.trans more).trans kept
  have moved : SameLists { before with vmm, ioapicEnabled := true } { masked with ioapicEnabled := true } :=
    ⟨all.vmm, all.ioapics, all.isos, rfl⟩
  have looked : third.register = { before with vmm }.register := reread.trans registers
  rw [looked] at versions
  have ready : Served { masked with ioapicEnabled := true } 0 := (served_congr moved versions).mpr served
  obtain ⟨after, register⟩ : ∃ after, pitReinstall pitHandler { masked with ioapicEnabled := true } = .done () after :=
    irqRegister_exists rfl (Nat.zero_le _) ready
  refine ⟨after, ?_⟩
  unfold ioapicInstall
  split
  · rename_i none
    cases list.symm.trans none
  · rename_i ioapic _ same
    cases list.symm.trans same
    simp only [map, Outcome.within, Outcome.done_bind, read, counted, if_neg identified, mask, register]

def firstIoapic : MadtIoapic := ⟨0, 0xFEC00000, 0⟩

def secondIoapic : MadtIoapic := ⟨1, 0xFEC01000, 24⟩

/-- The I/O APIC of most machines, with its pins not masked, and others behind it;
the second one's redirection entries are all `entry`. -/
def apicBoard (vmm : Vmm) (entry : Nat) (others : List MadtIoapic) : Board where
  vmm
  chips := fun address => ⟨0, fun reg =>
    if reg = ioapicVer then 0x170011
    else if address = secondIoapic.address then if reg = ioapicId then 0x1000000 else entry
    else 0, show 0x170011 >>> 16 &&& 0xff < 120 by decide⟩
  madtIoapics := firstIoapic :: others
  madtIsos := [⟨0, 0, 2, 0⟩]
  ioapicEnabled := false
  irqHandlers := fun _ => 0

section

variable (entry : Nat) (others : List MadtIoapic)

theorem apicBoard_matching (vmm : Vmm) :
    (apicBoard vmm entry others).register firstIoapic.address ioapicId >>> 24 = firstIoapic.id ∧
      (apicBoard vmm entry others).register secondIoapic.address ioapicId >>> 24 = secondIoapic.id := by
  have other : ¬ ioapicId = ioapicVer := by decide
  have first : ¬ firstIoapic.address = secondIoapic.address := by decide
  simp only [Board.register, apicBoard, if_neg other, if_neg first, if_true]
  decide

theorem apicBoard_entry (vmm : Vmm) (pin : Nat) :
    (apicBoard vmm entry others).register secondIoapic.address (redirectLow pin) = entry := by
  have other : redirectLow pin ≠ ioapicVer := by
    unfold redirectLow ioapicRedtbl ioapicVer
    omega
  have identity : redirectLow pin ≠ ioapicId := by
    unfold redirectLow ioapicRedtbl ioapicId
    omega
  simp only [Board.register, apicBoard, if_neg other, if_neg identity, if_true]

theorem apicBoard_served (mapped : WindowMapped vmm firstIoapic.address) :
    Served { apicBoard vmm entry others with ioapicEnabled := true } 0 := by
  have pin : 2 < 0 + (0x170011 >>> 16 &&& 0xff) := by decide
  have covers : Covers { apicBoard vmm entry others with ioapicEnabled := true } 2 firstIoapic := ⟨Nat.zero_le 2, pin⟩
  have found : serving { apicBoard vmm entry others with ioapicEnabled := true } 2 = some firstIoapic :=
    List.find?_cons_of_pos (decide_eq_true covers)
  exact ⟨⟨fun _ => mapped, fun uncovered => absurd covers uncovered⟩, Option.isSome_of_eq_some found⟩

/-- `ioapic_install` returns on it, wherever the memory manager still has a page to give. -/
theorem apicBoard_installs {lead limit : Nat} (accounted : Accounted system)
    (ascending : system.kernel.vmm.pmm.Ascending lead limit) (room : lead + 1 ≤ limit) (small : limit ≤ 2 ^ 20) :
    ∃ fuel after, ioapicInstall fuel 0x1000 (apicBoard system.kernel.vmm entry others) = .done () after ∧
      Installed fuel firstIoapic (apicBoard system.kernel.vmm entry others) after ∧
      HandsOutBelow (2 ^ 20) system.kernel.vmm.pmm after.vmm.pmm := by
  have inside : firstIoapic.address < 2 ^ 32 := by decide
  obtain ⟨fuel, vmm, map, _, handed⟩ := ascending.mapping firstIoapic.address (ptePresent ||| pteWritable) inside room
  have run := map fuel (Nat.le_refl _)
  have handed := (handed small).mono small
  have identity : ∀ word < 2 ^ 32, Identity vmm word ↔ _ := fun word here =>
    identity_of_vmmMap accounted inside here run handed
  have mapped : WindowMapped vmm firstIoapic.address :=
    ⟨(identity _ inside).mpr (.inl rfl), (identity _ (by decide)).mpr (.inl rfl)⟩
  obtain ⟨matching, _⟩ := apicBoard_matching entry others system.kernel.vmm
  obtain ⟨after, install⟩ : ∃ after,
      ioapicInstall fuel 0x1000 (apicBoard system.kernel.vmm entry others) = .done () after :=
    ioapicInstall_exists rfl matching run mapped (apicBoard_served entry others mapped)
  have installed := ioapicInstall_done rfl matching install
  have same := (Outcome.done.inj (run.symm.trans installed.map)).2
  exact ⟨fuel, after, install, installed, same ▸ handed⟩

end

/-- Two, of which the second one was mapped by a `vmm_map` and masked before. -/
theorem ioapic_install_readies_two : ∃ booted installed mapped before after,
    VmmInstalled (pcInfo 0x7EE0000 (by decide)) 0x220000 smallImage (pcSystem booted) installed ∧
    Makes installed (.vmmMap secondIoapic.address secondIoapic.address (ptePresent ||| pteWritable)) mapped ∧
    before.vmm = mapped.kernel.vmm ∧ before.madtIoapics = [firstIoapic, secondIoapic] ∧
    (∃ fuel, ioapicInstall fuel 0x1000 before = .done () after) ∧ AllReady (line before 0) after := by
  obtain ⟨booted, installed, sample⟩ := pcInstalled
  have above : secondIoapic.address < 2 ^ 32 := by decide
  obtain ⟨fuel, vmm, map, following, handed⟩ := sample.ascending.mapping secondIoapic.address
    (ptePresent ||| pteWritable) above (by decide)
  have run := map fuel (Nat.le_refl _)
  have handed := (handed (by decide)).mono (show 0x7EE0 ≤ 2 ^ 20 by decide)
  have makes : Makes installed (.vmmMap secondIoapic.address secondIoapic.address (ptePresent ||| pteWritable))
      ⟨installed.kernel.withVmm vmm, installed.held⟩ := .vmmMap above run
  have fits : Fits (2 ^ 20) installed (.vmmMap secondIoapic.address secondIoapic.address (ptePresent ||| pteWritable)) :=
    sample.ascending.fits trivial (by decide) (by decide)
  have calls : SystemRuns (2 ^ 20) (fun _ _ => True) (pcSystem booted) ⟨installed.kernel.withVmm vmm, installed.held⟩ :=
    (sample.runs.mono fun _ _ _ => trivial).step makes fits trivial
  have accounted := (makes.paged sample.paged handed).toAccounted
  obtain ⟨fuel, after, install, _, taken⟩ := apicBoard_installs 0x10000 [secondIoapic] accounted following
    (by split <;> decide) (by decide)
  obtain ⟨first, second⟩ := apicBoard_matching 0x10000 [secondIoapic] vmm
  have own : ∀ word < 2 ^ 32, word / 4096 = secondIoapic.address / 4096 → Identity vmm word := fun _ inside same =>
    (identity_of_vmmMap sample.paged.toAccounted above inside run handed).mpr (.inl same)
  refine ⟨booted, installed, _, _, after, sample.installed, makes, rfl, rfl, ⟨fuel, install⟩,
    (ioapic_install_readies_all sample.installed.paging calls rfl rfl ?_ ?_ install taken).2.mpr ⟨?_, ?_⟩⟩
  · exact List.forall_mem_cons.mpr ⟨by decide, List.forall_mem_singleton.mpr above⟩
  · exact List.forall_mem_cons.mpr ⟨first, List.forall_mem_singleton.mpr second⟩
  · refine List.forall_mem_cons.mpr ⟨?_, List.forall_mem_singleton.mpr ?_⟩
    · exact fun word inside => .inl (by revert word; decide)
    · exact List.forall_mem_cons.mpr ⟨.inr (own _ above rfl), List.forall_mem_singleton.mpr (.inr (own _ (by decide) rfl))⟩
  · refine List.forall_mem_cons.mpr ⟨.inl rfl, List.forall_mem_singleton.mpr (.inr fun pin _ _ => ?_)⟩
    have entry : (apicBoard vmm 0x10000 [secondIoapic]).register secondIoapic.address (redirectLow pin) = 0x10000 :=
      apicBoard_entry ..
    exact ne_of_eq_of_ne (congrArg (· &&& 0x10000) entry) (by decide)

/-- With two, the second one's window is not mapped. -/
theorem ioapicInstall_forgets_second : ∃ booted installed before after,
    VmmInstalled (pcInfo 0x7EE0000 (by decide)) 0x220000 smallImage (pcSystem booted) installed ∧
    before.vmm = installed.kernel.vmm ∧ before.madtIoapics = [firstIoapic, secondIoapic] ∧
    (∀ ioapic ∈ before.madtIoapics, before.register ioapic.address ioapicId >>> 24 = ioapic.id) ∧
    (∃ fuel, ioapicInstall fuel 0x1000 before = .done () after) ∧ after.ioapicEnabled = true ∧
    ¬ AllReady (line before 0) after := by
  obtain ⟨booted, installed, sample⟩ := pcInstalled
  have accounted := sample.paged.toAccounted
  obtain ⟨fuel, after, install, ready, handed⟩ := apicBoard_installs 0 [secondIoapic] accounted sample.ascending
    (by decide) (by decide)
  obtain ⟨first, second⟩ := apicBoard_matching 0 [secondIoapic] installed.kernel.vmm
  have words : ∀ ioapic ∈ [firstIoapic, secondIoapic], ioapic.address < 2 ^ 32 := by decide
  refine ⟨booted, installed, _, after, sample.installed, rfl, rfl, ?_, ⟨fuel, install⟩, ready.enabled, fun all => ?_⟩
  · exact List.forall_mem_cons.mpr ⟨first, List.forall_mem_singleton.mpr second⟩
  · have before := (ioapics_ready accounted rfl rfl words ready handed).mp all
    have unmapped := before.mapped secondIoapic (List.mem_cons_of_mem _ List.mem_cons_self) secondIoapic.address
      List.mem_cons_self
    rcases unmapped with same | ⟨flags, walk⟩
    · exact absurd same (by decide)
    · have absent : installed.kernel.vmm.walk secondIoapic.address = none := sample.walk _ (by decide) (by decide)
      cases absent.symm.trans walk

end BarrelOS.Interrupts
