import BarrelOS.Acpi.Walk
import BarrelOS.Memory.Installed

namespace BarrelOS.Acpi

open BarrelOS.Data BarrelOS.Lib BarrelOS.Memory BarrelOS.Semantics

/-- What `acpi_install` works on: the memory with the globals of `acpi.c`, the page
tables, and the globals of `madt.c`. -/
structure Platform extends Root where
  vmm : Vmm
  globals : Madt

def rsdPtr : List UInt8 :=
  ['R'.toUInt8, 'S'.toUInt8, 'D'.toUInt8, ' '.toUInt8, 'P'.toUInt8, 'T'.toUInt8, 'R'.toUInt8, ' '.toUInt8]

/-- The memory, of which every byte may be read. -/
def text (memory : Bytes) : Text := fun address => some (memory (address % 2 ^ 32))

def sizeofUint16 : Nat := 2

/-! `acpi.c` -/

/-- The loop of `acpi_install`, which steps a pointer to 16-bit words. It leaves
`rsdp` at `NULL` where nothing is found. -/
def findRsdp : Nat → Nat → Platform → Outcome Platform Nat
  | 0, _, platform => .running platform
  | fuel + 1, addr, platform =>
      if addr < 0xFFFFF then
        (Outcome.ofOption (strncmp (text platform.memory) (.only 0 rsdPtr) 8 addr 0) platform).bind
          fun differ platform =>
            if differ = 0 then .done addr platform else findRsdp fuel (addr + 16 * sizeofUint16) platform
      else .done 0 platform

/-- The root table of the RSDP, or that of the XSDP it is, of whose address the lower half is
kept. `HIGHER_HALF` of it may halt. -/
def selectRoot (rsdp : Nat) (platform : Platform) : Option Platform :=
  if platform.memory.load8 (rsdp + 15) ≠ 0 then do
    let sdt ← pointerAdd (platform.memory.load64 (rsdp + 24) % 2 ^ 32) 0xC0000000
    some { platform with useXsdt := true, sdt }
  else do
    let sdt ← pointerAdd (platform.memory.load32 (rsdp + 16)) 0xC0000000
    some { platform with sdt }

/-- `apic` is the string "APIC". -/
def acpiInstall (fuel apic : Nat) (platform : Platform) : Outcome Platform Unit :=
  (findRsdp fuel 0xE0000 platform).bind fun rsdp platform =>
    if rsdp = 0 then .panicked "couldn't find ACPI\n" platform
    else
      (Outcome.ofOption (selectRoot rsdp platform) platform).bind fun platform _ =>
        ((vmmMap fuel (physical platform.sdt) platform.sdt ptePresent platform.vmm).within fun vmm =>
          { platform with vmm }).bind fun _ platform =>
            (madtInit fuel apic platform.toRoot platform.globals).within fun globals => { platform with globals }

/-! Where the RSDP may be -/

def Place (address : Nat) : Prop := 0xE0000 ≤ address ∧ address ≤ 0xFFFFF ∧ address % 16 = 0

def Signed (memory : Bytes) (address : Nat) : Prop := ∀ i < 8, text memory (address + i) = rsdPtr[i]?

structure LowestRsdp (memory : Bytes) (address : Nat) : Prop where
  place : Place address
  signed : Signed memory address
  lowest : ∀ other < address, Place other → ¬ Signed memory other

/-- `acpi_install` finds the RSDP at its lowest place, and panics exactly when it has none. -/
structure FindsRsdp (apic : Nat) (platform : Platform) : Prop where
  selects : ∀ address, LowestRsdp platform.memory address →
    ∃ fuel, findRsdp fuel 0xE0000 platform = .done address platform
  panics : (∃ fuel after, acpiInstall fuel apic platform = .panicked "couldn't find ACPI\n" after) ↔
    ∀ address, Place address → ¬ Signed platform.memory address

variable {fuel apic addr rsdp address i : Nat} {memory : Bytes} {platform last after : Platform}
  {globals : Madt} {message : String}

/-! The scan -/

theorem strncmp_rsdPtr (memory : Bytes) (addr : Nat) :
    ∃ differ, strncmp (text memory) (.only 0 rsdPtr) 8 addr 0 = some differ ∧ (differ = 0 ↔ Signed memory addr) :=
  strncmp_eq_zero (Text.only_holds 0 (by decide)) fun _ => rfl

/-- A scan that returns has looked at every other place from its start on. -/
theorem findRsdp_done (run : findRsdp fuel addr platform = .done rsdp last) : last = platform ∧
    ((addr ≤ rsdp ∧ rsdp < 0xFFFFF ∧ (rsdp - addr) % 32 = 0 ∧ Signed platform.memory rsdp ∧
        ∀ other < rsdp, addr ≤ other → (other - addr) % 32 = 0 → ¬ Signed platform.memory other) ∨
      (rsdp = 0 ∧ ∀ other < 0xFFFFF, addr ≤ other → (other - addr) % 32 = 0 → ¬ Signed platform.memory other)) := by
  induction fuel generalizing addr with
  | zero => cases run
  | succ fuel ih =>
      obtain ⟨differ, compared, zero⟩ := strncmp_rsdPtr platform.memory addr
      rw [findRsdp, compared] at run
      split at run
      · rename_i inside
        change (if differ = 0 then _ else _ : Outcome Platform Nat) = _ at run
        split at run
        · rename_i same
          cases run
          exact ⟨rfl, .inl ⟨Nat.le_refl _, inside, by omega, zero.mp same, fun other below above => by omega⟩⟩
        · rename_i unlike
          have unsigned : ¬ Signed platform.memory addr := fun signed => unlike (zero.mpr signed)
          have step : 16 * sizeofUint16 = 32 := rfl
          rw [step] at run
          have first : ∀ other, addr ≤ other → (other - addr) % 32 = 0 →
              (addr + 32 ≤ other → (other - (addr + 32)) % 32 = 0 → ¬ Signed platform.memory other) →
              ¬ Signed platform.memory other := by
            intro other above aligned later
            by_cases here : other = addr
            · exact here ▸ unsigned
            · exact later (by omega) (by omega)
          obtain ⟨same, found | missed⟩ := ih run
          · obtain ⟨above, below, aligned, signed, earlier⟩ := found
            exact ⟨same, .inl ⟨by omega, below, by omega, signed, fun other less start even =>
              first other start even (earlier other less)⟩⟩
          · exact ⟨same, .inr ⟨missed.1, fun other less start even => first other start even (missed.2 other less)⟩⟩
      · rename_i past
        cases run
        exact ⟨rfl, .inr ⟨rfl, fun other less start => absurd (Nat.lt_of_le_of_lt start less) past⟩⟩

theorem findRsdp_exists (turns : Nat) (enough : 0xFFFFF ≤ addr + 32 * turns) :
    ∃ rsdp, findRsdp (turns + 1) addr platform = .done rsdp platform := by
  induction turns generalizing addr with
  | zero =>
      have past : ¬ addr < 0xFFFFF := by omega
      rw [findRsdp, if_neg past]
      exact ⟨0, rfl⟩
  | succ turns ih =>
      obtain ⟨differ, compared, _⟩ := strncmp_rsdPtr platform.memory addr
      rw [findRsdp, compared]
      split
      · change ∃ rsdp, (if differ = 0 then _ else _ : Outcome Platform Nat) = _
        split
        · exact ⟨addr, rfl⟩
        · have step : 16 * sizeofUint16 = 32 := rfl
          exact ih (by omega)
      · exact ⟨0, rfl⟩

theorem findRsdp_ends (platform : Platform) :
    ∃ fuel rsdp, findRsdp fuel 0xE0000 platform = .done rsdp platform := by
  obtain ⟨rsdp, run⟩ := @findRsdp_exists 0xE0000 platform 4096 (by decide)
  exact ⟨_, rsdp, run⟩

theorem findRsdp_not_panicked : findRsdp fuel addr platform ≠ .panicked message last := by
  intro run
  induction fuel generalizing addr with
  | zero => cases run
  | succ fuel ih =>
      obtain ⟨differ, compared, _⟩ := strncmp_rsdPtr platform.memory addr
      rw [findRsdp, compared] at run
      split at run
      · change (if differ = 0 then _ else _ : Outcome Platform Nat) = _ at run
        split at run
        · cases run
        · exact ih run
      · cases run

theorem madtInit_not_panicked {root : Root} {left : Madt} : madtInit fuel apic root globals ≠ .panicked message left := by
  intro panicked
  by_cases found : ∃ i, Finds apic root i
  · obtain ⟨i, finds⟩ := found
    rw [madtInit_of_finds finds] at panicked
    exact walkEntries_not_panicked panicked
  · rw [madtInit_faulted found] at panicked
    cases panicked

/-- The message is that of a scan that has found nothing. -/
theorem acpiInstall_panicked (run : acpiInstall fuel apic platform = .panicked "couldn't find ACPI\n" after) :
    findRsdp fuel 0xE0000 platform = .done 0 platform := by
  rcases Outcome.bind_panicked.mp run with scan | ⟨rsdp, middle, scan, rest⟩
  · exact absurd scan findRsdp_not_panicked
  · have same := (findRsdp_done scan).1
    subst same
    split at rest
    · rename_i null
      exact null ▸ scan
    · rcases Outcome.bind_panicked.mp rest with root | ⟨chosen, _, _, rest⟩
      · exact absurd root Outcome.ofOption_not_panicked
      · rcases Outcome.bind_panicked.mp rest with map | ⟨_, mapped, _, init⟩
        · obtain ⟨_, panicked, _⟩ := Outcome.within_panicked.mp map
          exact absurd (vmmMap_message panicked) (by decide)
        · obtain ⟨_, panicked, _⟩ := Outcome.within_panicked.mp init
          exact absurd panicked madtInit_not_panicked

theorem exists_lowestRsdp (place : Place address) (signed : Signed memory address) :
    ∃ lowest, LowestRsdp memory lowest := by
  classical
  have some_place : ∃ address, Place address ∧ Signed memory address := ⟨address, place, signed⟩
  obtain ⟨here, there⟩ := Nat.find_spec some_place
  exact ⟨_, here, there, fun other below at_place carried => Nat.find_min some_place below ⟨at_place, carried⟩⟩

theorem FindsRsdp.even (finds : FindsRsdp apic platform) (lowest : LowestRsdp platform.memory address) :
    address % 32 = 0 := by
  obtain ⟨fuel, run⟩ := finds.selects address lowest
  obtain ⟨_, place, _⟩ := lowest
  rcases (findRsdp_done run).2 with ⟨_, _, aligned, _⟩ | ⟨null, _⟩ <;> omega

section

variable (even : ∀ address, LowestRsdp platform.memory address → address % 32 = 0)
include even

theorem findRsdp_lowest (lowest : LowestRsdp platform.memory address) :
    ∃ fuel, findRsdp fuel 0xE0000 platform = .done address platform := by
  obtain ⟨fuel, rsdp, run⟩ := findRsdp_ends platform
  have aligned := even address lowest
  obtain ⟨⟨above, below, _⟩, signed, first⟩ := lowest
  have looked : (address - 0xE0000) % 32 = 0 := by omega
  have found : rsdp = address := by
    rcases (findRsdp_done run).2 with ⟨start, under, step, carried, earlier⟩ | ⟨_, none⟩
    · rcases Nat.lt_trichotomy rsdp address with sooner | same | later
      · exact absurd carried (first rsdp sooner ⟨start, Nat.le_of_lt under, by omega⟩)
      · exact same
      · exact absurd signed (earlier address later above looked)
    · exact absurd signed (none address (by omega) above looked)
  rw [found] at run
  exact ⟨fuel, run⟩

theorem acpiInstall_panics_iff :
    (∃ fuel after, acpiInstall fuel apic platform = .panicked "couldn't find ACPI\n" after) ↔
      ∀ address, Place address → ¬ Signed platform.memory address := by
  constructor
  · intro panicked address place signed
    obtain ⟨fuel, after, panicked⟩ := panicked
    obtain ⟨lowest, least⟩ := exists_lowestRsdp place signed
    have aligned := even lowest least
    obtain ⟨above, below, _⟩ := least.place
    have looked : (lowest - 0xE0000) % 32 = 0 := by omega
    rcases (findRsdp_done (acpiInstall_panicked panicked)).2 with ⟨start, _⟩ | ⟨_, none⟩
    · omega
    · exact none lowest (by omega) above looked least.signed
  · intro none
    obtain ⟨fuel, rsdp, run⟩ := findRsdp_ends platform
    have missed : rsdp = 0 := by
      rcases (findRsdp_done run).2 with ⟨start, under, step, carried, _⟩ | ⟨null, _⟩
      · exact absurd carried (none rsdp ⟨start, Nat.le_of_lt under, by omega⟩)
      · exact null
    subst missed
    refine ⟨fuel, platform, ?_⟩
    rw [acpiInstall, run]
    rfl

end

/-- The RSDP is found exactly when the lowest place with its signature, if there is one, is
among those that are looked at, the multiples of 32. -/
theorem finds_rsdp_iff : FindsRsdp apic platform ↔ ∀ address, LowestRsdp platform.memory address → address % 32 = 0 := by
  constructor
  · exact fun finds address => finds.even
  · exact fun even => ⟨fun address => findRsdp_lowest even, acpiInstall_panics_iff even⟩

/-! A machine with the signature at one address -/

def rsdpAt (address : Nat) (vmm : Vmm) : Platform where
  memory := .holding [(address, rsdPtr)]
  useXsdt := false
  sdt := 0
  vmm
  globals := noEntries

theorem lowestRsdp_holding : LowestRsdp (.holding [(0xE0010, rsdPtr)]) 0xE0010 where
  place := ⟨by decide, by decide, by decide⟩
  signed := by
    unfold Signed
    decide
  lowest := by
    intro other below place signed
    obtain ⟨above, _, aligned⟩ := place
    have first : other = 0xE0000 := by omega
    subst first
    exact absurd (signed 0 (by decide)) (by decide)

/-- The place behind the first one is not looked at. -/
theorem acpiInstall_steps_over_rsdp : ∃ booted installed,
    VmmInstalled (pcInfo 0x7EE0000 (by decide)) 0x220000 smallImage (pcSystem booted) installed ∧
    ¬ FindsRsdp 0x500 (rsdpAt 0xE0010 installed.kernel.vmm) := by
  obtain ⟨booted, installed, sample⟩ := pcInstalled
  refine ⟨booted, installed, sample.installed, fun finds => ?_⟩
  exact absurd (finds.even lowestRsdp_holding) (by decide)

end BarrelOS.Acpi
