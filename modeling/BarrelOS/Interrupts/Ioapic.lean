import BarrelOS.Memory.Paging

namespace BarrelOS.Interrupts

open BarrelOS.Data BarrelOS.Memory BarrelOS.Semantics

/-- `struct madt_ioapic` and `struct madt_iso`, without the type and length of the entry. -/
structure MadtIoapic where
  id : Nat
  address : Nat
  gsiBase : Nat
deriving DecidableEq, Repr

structure MadtIso where
  busSource : Nat
  irqSource : Nat
  gsi : Nat
  flags : Nat
deriving DecidableEq, Repr

def ioapicId : Nat := 0x0

def ioapicVer : Nat := 0x1

def ioapicArb : Nat := 0x2

def ioapicRedtbl : Nat := 0x10

/-- The device behind a register window: a selected register, and the registers,
of which two are read only. The number in the version register is that of the last
redirection entry; each entry has two of the registers from 0x10 to 0xff. -/
structure Chip where
  select : Nat
  registers : Nat → Nat
  entries : registers ioapicVer >>> 16 &&& 0xff < 120

namespace Chip

def regsel (value : Nat) (chip : Chip) : Chip := { chip with select := value }

def iowin (value : Nat) (chip : Chip) : Chip :=
  if writable : chip.select ≠ ioapicVer ∧ chip.select ≠ ioapicArb then
    { chip with
      registers := Function.update chip.registers chip.select value
      entries := by rw [Function.update_of_ne writable.1.symm]; exact chip.entries }
  else chip

end Chip

/-- The page tables, the I/O APIC at each address, the lists of `madt.c`, and the
globals of `ioapic.c` and `idt.c`. -/
structure Board where
  vmm : Vmm
  chips : Nat → Chip
  madtIoapics : List MadtIoapic
  madtIsos : List MadtIso
  ioapicEnabled : Bool
  irqHandlers : Nat → Nat

def Identity (vmm : Vmm) (address : Nat) : Prop := ∃ flags, vmm.walk address = some (pageBase address, flags)

instance (vmm : Vmm) (address : Nat) : Decidable (Identity vmm address) :=
  decidable_of_iff ((vmm.walk address).any fun (frame, _) => frame == pageBase address) (by
    unfold Identity
    cases vmm.walk address with
    | none => simp
    | some mapped => simp [Prod.ext_iff])

/-- The two words of a register window are mapped. -/
def WindowMapped (vmm : Vmm) (address : Nat) : Prop := Identity vmm address ∧ Identity vmm ((address + 0x10) % 2 ^ 32)

instance (vmm : Vmm) (address : Nat) : Decidable (WindowMapped vmm address) := inferInstanceAs (Decidable (_ ∧ _))

namespace Board

def setChip (address : Nat) (chip : Chip) (board : Board) : Board :=
  { board with chips := Function.update board.chips address chip }

def register (board : Board) (address reg : Nat) : Nat := (board.chips address).registers reg

def gsiCount (board : Board) (ioapic : MadtIoapic) : Nat := board.register ioapic.address ioapicVer >>> 16 &&& 0xff

end Board

/-! `ioapic.c` -/

def ioapicRead (ioapic : MadtIoapic) (reg : Nat) (board : Board) : Outcome Board Nat :=
  if WindowMapped board.vmm ioapic.address then
    let board := board.setChip ioapic.address ((board.chips ioapic.address).regsel (reg % 2 ^ 8))
    .done (board.register ioapic.address (board.chips ioapic.address).select) board
  else .faulted board

def ioapicWrite (ioapic : MadtIoapic) (reg value : Nat) (board : Board) : Outcome Board Unit :=
  if WindowMapped board.vmm ioapic.address then
    .done () (board.setChip ioapic.address (((board.chips ioapic.address).regsel (reg % 2 ^ 8)).iowin value))
  else .faulted board

def ioapicGsiCount (ioapic : MadtIoapic) (board : Board) : Outcome Board Nat :=
  (ioapicRead ioapic ioapicVer board).bind fun version board => .done (version >>> 16 &&& 0xff) board

/-- The loop of `ioapic_get_gsi` over the I/O APICs that are left. -/
def ioapicGetGsi (gsi : Nat) : List MadtIoapic → Board → Outcome Board (Option MadtIoapic)
  | [], board => .done none board
  | ioapic :: rest, board =>
      if ioapic.gsiBase ≤ gsi then
        (ioapicGsiCount ioapic board).bind fun count board =>
          if ioapic.gsiBase + count > gsi then .done (some ioapic) board else ioapicGetGsi gsi rest board
      else ioapicGetGsi gsi rest board

/-- The word `ioapic_redirect_gsi` puts together. -/
def redirection (lapicId vector flags : Nat) (mask : Bool) : Nat :=
  let redirect := vector
  let redirect := if flags &&& 1 <<< 1 ≠ 0 then redirect ||| 1 <<< 13 else redirect
  let redirect := if flags &&& 1 <<< 3 ≠ 0 then redirect ||| 1 <<< 15 else redirect
  let redirect := if mask then redirect ||| 1 <<< 16 else redirect &&& 0xFFFFFFFFFFFEFFFF
  redirect ||| lapicId <<< 56 % 2 ^ 64

/-- Where no I/O APIC is found, the fields of `NULL` are read. -/
def ioapicRedirectGsi (lapicId vector gsi flags : Nat) (mask : Bool) (board : Board) : Outcome Board Unit :=
  (ioapicGetGsi gsi board.madtIoapics board).bind fun
    | none, board => .faulted board
    | some ioapic, board =>
        let redirect := redirection lapicId vector flags mask
        let redirectTable := ((gsi - ioapic.gsiBase) * 2 + 16) % 2 ^ 32
        (ioapicWrite ioapic redirectTable (redirect % 2 ^ 32) board).bind fun _ board =>
          ioapicWrite ioapic (redirectTable + 1) (redirect >>> 32) board

def ioapicRedirectIrq (lapicId vector irq : Nat) (mask : Bool) (board : Board) : Outcome Board Unit :=
  match board.madtIsos.find? fun iso => iso.irqSource == irq with
  | some iso => ioapicRedirectGsi lapicId vector iso.gsi iso.flags mask board
  | none => ioapicRedirectGsi lapicId vector irq 0 mask board

/-! `idt.c` and `pit.c` -/

def irqRegister (vector handler : Nat) (board : Board) : Outcome Board Unit :=
  (if board.ioapicEnabled ∧ vector ≤ 15 then ioapicRedirectIrq 0 (vector + 32) vector false board
    else .done () board).bind fun _ board =>
      .done () { board with irqHandlers := Function.update board.irqHandlers vector handler }

def pitReinstall (pitHandler : Nat) (board : Board) : Outcome Board Unit := irqRegister 0 pitHandler board

/-- The loop of `ioapic_install`, with the number of turns left. -/
def maskEntries (ioapic : MadtIoapic) : Nat → Nat → Board → Outcome Board Unit
  | 0, _, board => .done () board
  | turns + 1, i, board =>
      (ioapicWrite ioapic (ioapicRedtbl + 2 * i) (0x10000 ||| (i + 32)) board).bind fun _ board =>
        (ioapicWrite ioapic (ioapicRedtbl + 2 * i + 1) 0 board).bind fun _ board =>
          maskEntries ioapic turns (i + 1) board

def ioapicInstall (fuel pitHandler : Nat) (board : Board) : Outcome Board Unit :=
  match board.madtIoapics with
  | [] => .faulted board
  | ioapic :: _ =>
      ((vmmMap fuel ioapic.address ioapic.address (ptePresent ||| pteWritable) board.vmm).within fun vmm =>
        { board with vmm }).bind fun _ board =>
          (ioapicRead ioapic ioapicId board).bind fun id board =>
            (ioapicGsiCount ioapic board).bind fun count board =>
              if id >>> 24 ≠ ioapic.id then .done () board
              else
                (maskEntries ioapic (count + 1) 0 board).bind fun _ board =>
                  pitReinstall pitHandler { board with ioapicEnabled := true }

/-! Which I/O APIC serves an interrupt -/

def Covers (board : Board) (gsi : Nat) (ioapic : MadtIoapic) : Prop :=
  ioapic.gsiBase ≤ gsi ∧ gsi < ioapic.gsiBase + board.gsiCount ioapic

instance (board : Board) (gsi : Nat) (ioapic : MadtIoapic) : Decidable (Covers board gsi ioapic) :=
  inferInstanceAs (Decidable (_ ∧ _))

def serving (board : Board) (gsi : Nat) : Option MadtIoapic := board.madtIoapics.find? fun ioapic => Covers board gsi ioapic

/-- The windows of the I/O APICs that are asked before one is found are mapped. -/
def Asks (board : Board) (gsi : Nat) : List MadtIoapic → Prop
  | [] => True
  | ioapic :: rest =>
      (ioapic.gsiBase ≤ gsi → WindowMapped board.vmm ioapic.address) ∧ (¬ Covers board gsi ioapic → Asks board gsi rest)

instance decidableAsks (board : Board) (gsi : Nat) : (list : List MadtIoapic) → Decidable (Asks board gsi list)
  | [] => isTrue trivial
  | ioapic :: rest =>
      have := decidableAsks board gsi rest
      inferInstanceAs (Decidable ((ioapic.gsiBase ≤ gsi → WindowMapped board.vmm ioapic.address) ∧
        (¬ Covers board gsi ioapic → Asks board gsi rest)))

/-- The interrupt an IRQ resolves to, with its flags. -/
def resolve (board : Board) (irq : Nat) : Nat × Nat :=
  match board.madtIsos.find? fun iso => iso.irqSource == irq with
  | some iso => (iso.gsi, iso.flags)
  | none => (irq, 0)

/-- The first register of a redirection entry. -/
def redirectLow (pin : Nat) : Nat := ioapicRedtbl + 2 * pin

/-- The I/O APIC and the redirection entry of an IRQ. -/
def line (board : Board) (irq : Nat) : Option (Nat × Nat) :=
  (serving board (resolve board irq).1).map fun ioapic => (ioapic.address, (resolve board irq).1 - ioapic.gsiBase)

variable {fuel gsi irq vector handler lapicId flags reg value turns i : Nat} {mask : Bool} {before middle after : Board}
  {ioapic : MadtIoapic} {list : List MadtIoapic} {found : Option MadtIoapic}

/-! What the accesses do -/

def pokeRegister (address reg value : Nat) (registers : Nat → Nat → Nat) : Nat → Nat → Nat :=
  fun other index => if other = address ∧ index = reg then value else registers other index

theorem pokeRegister_of_ne {address other index : Nat} (elsewhere : ¬ (other = address ∧ index = reg))
    (registers : Nat → Nat → Nat) : pokeRegister address reg value registers other index = registers other index :=
  if_neg elsewhere

/-- All is as it was, but for the registers and selections of the I/O APICs and the handlers. -/
structure SameLists (before after : Board) : Prop where
  vmm : after.vmm = before.vmm
  ioapics : after.madtIoapics = before.madtIoapics
  isos : after.madtIsos = before.madtIsos
  enabled : after.ioapicEnabled = before.ioapicEnabled

theorem SameLists.trans (first : SameLists before middle) (second : SameLists middle after) : SameLists before after :=
  ⟨second.vmm.trans first.vmm, second.ioapics.trans first.ioapics, second.isos.trans first.isos,
    second.enabled.trans first.enabled⟩

theorem Chip.iowin_registers {chip : Chip} (writable : chip.select ≠ ioapicVer ∧ chip.select ≠ ioapicArb) :
    (chip.iowin value).registers = Function.update chip.registers chip.select value := by
  rw [iowin, dif_pos writable]

@[simp] theorem setChip_chips (board : Board) (address : Nat) (chip : Chip) :
    (board.setChip address chip).chips = Function.update board.chips address chip := rfl

theorem setChip_register (board : Board) (address other : Nat) (chip : Chip) :
    (board.setChip address chip).register other =
      if other = address then chip.registers else board.register other := by
  funext reg
  simp only [Board.register, setChip_chips, Function.update_apply]
  split <;> rfl

theorem ioapicRead_done (run : ioapicRead ioapic reg before = .done value after) :
    WindowMapped before.vmm ioapic.address ∧ value = before.register ioapic.address (reg % 2 ^ 8) ∧
      SameLists before after ∧ after.register = before.register := by
  unfold ioapicRead at run
  split at run
  · rename_i mapped
    cases run
    refine ⟨mapped, ?_, ⟨rfl, rfl, rfl, rfl⟩, funext fun other => ?_⟩
    · rw [setChip_register, if_pos rfl, setChip_chips, Function.update_self]
      rfl
    · rw [setChip_register]
      split
      · rename_i same
        rw [same]
        rfl
      · rfl
  · cases run

theorem ioapicRead_exists (mapped : WindowMapped before.vmm ioapic.address) :
    ∃ value after, ioapicRead ioapic reg before = .done value after :=
  ⟨_, _, if_pos mapped⟩

theorem ioapicWrite_done (small : reg < 2 ^ 8) (plain : reg ≠ ioapicVer ∧ reg ≠ ioapicArb)
    (run : ioapicWrite ioapic reg value before = .done () after) :
    WindowMapped before.vmm ioapic.address ∧ SameLists before after ∧
      after.register = pokeRegister ioapic.address reg value before.register := by
  unfold ioapicWrite at run
  split at run
  · rename_i mapped
    cases run
    refine ⟨mapped, ⟨rfl, rfl, rfl, rfl⟩, ?_⟩
    have written : (((before.chips ioapic.address).regsel reg).iowin value).registers = _ := Chip.iowin_registers plain
    funext other index
    rw [setChip_register, Nat.mod_eq_of_lt small, written, pokeRegister]
    by_cases here : other = ioapic.address
    · rw [if_pos here, here, Function.update_apply, if_congr (and_iff_right rfl) rfl rfl]
      rfl
    · rw [if_neg here, if_neg fun both => here both.1]
  · cases run

theorem ioapicWrite_vmm (run : ioapicWrite ioapic reg value before = .done () after) : after.vmm = before.vmm := by
  unfold ioapicWrite at run
  split at run
  · cases run
    rfl
  · cases run

theorem ioapicWrite_exists (mapped : WindowMapped before.vmm ioapic.address) :
    ∃ after, ioapicWrite ioapic reg value before = .done () after :=
  ⟨_, if_pos mapped⟩

/-! What a lookup finds -/

section

variable (versions : ∀ address, after.register address ioapicVer = before.register address ioapicVer)
include versions

theorem covers_congr : Covers after gsi ioapic ↔ Covers before gsi ioapic := by
  rw [Covers, Covers, Board.gsiCount, Board.gsiCount, versions]

theorem asks_congr (vmm : after.vmm = before.vmm) : Asks after gsi list ↔ Asks before gsi list := by
  induction list with
  | nil => exact Iff.rfl
  | cons ioapic rest ih => rw [Asks, Asks, covers_congr versions, ih, vmm]

theorem find_congr :
    list.find? (fun ioapic => Covers after gsi ioapic) = list.find? fun ioapic => Covers before gsi ioapic := by
  simp only [covers_congr versions]

theorem serving_congr (lists : SameLists before after) : serving after gsi = serving before gsi := by
  rw [serving, serving, lists.ioapics, find_congr versions]

end

theorem ioapicGetGsi_done (run : ioapicGetGsi gsi list before = .done found after) :
    Asks before gsi list ∧ found = list.find? (fun ioapic => Covers before gsi ioapic) ∧
      SameLists before after ∧ after.register = before.register := by
  induction list generalizing before with
  | nil =>
      cases run
      exact ⟨trivial, rfl, ⟨rfl, rfl, rfl, rfl⟩, rfl⟩
  | cons ioapic rest ih =>
      rw [ioapicGetGsi] at run
      split at run
      · rename_i reached
        obtain ⟨count, middle, counted, search⟩ := Outcome.bind_done.mp run
        obtain ⟨version, last, read, returned⟩ := Outcome.bind_done.mp counted
        cases returned
        obtain ⟨mapped, version_eq, lists, registers⟩ := ioapicRead_done read
        have covers : ioapic.gsiBase + (version >>> 16 &&& 0xff) > gsi ↔ Covers before gsi ioapic := by
          rw [version_eq, Covers, and_iff_right reached]
          rfl
        rw [Asks, List.find?_cons]
        split at search
        · rename_i covered
          cases search
          rw [covers] at covered
          refine ⟨⟨fun _ => mapped, fun other => absurd covered other⟩, ?_, lists, registers⟩
          rw [decide_eq_true covered]
        · rename_i uncovered
          rw [covers] at uncovered
          obtain ⟨asks, find, more, same⟩ := ih search
          have versions := fun address => congrFun (congrFun registers address) ioapicVer
          rw [asks_congr versions lists.vmm] at asks
          rw [find_congr versions] at find
          refine ⟨⟨fun _ => mapped, fun _ => asks⟩, ?_, lists.trans more, same.trans registers⟩
          rw [decide_eq_false uncovered]
          exact find
      · rename_i beyond
        have uncovered : ¬ Covers before gsi ioapic := fun covers => beyond covers.1
        obtain ⟨asks, find, same⟩ := ih run
        rw [Asks, List.find?_cons, decide_eq_false uncovered]
        exact ⟨⟨fun reached => absurd reached beyond, fun _ => asks⟩, find, same⟩

theorem ioapicGetGsi_exists (asks : Asks before gsi list) :
    ∃ found after, ioapicGetGsi gsi list before = .done found after := by
  induction list generalizing before with
  | nil => exact ⟨_, _, rfl⟩
  | cons ioapic rest ih =>
      rw [ioapicGetGsi]
      split
      · rename_i reached
        obtain ⟨version, middle, read⟩ : ∃ version middle, ioapicRead ioapic ioapicVer before = .done version middle :=
          ioapicRead_exists (asks.1 reached)
        obtain ⟨_, version_eq, lists, registers⟩ := ioapicRead_done read
        rw [ioapicGsiCount, read]
        simp only [Outcome.done_bind]
        split
        · exact ⟨_, _, rfl⟩
        · rename_i uncovered
          have versions := fun address => congrFun (congrFun registers address) ioapicVer
          refine ih ((asks_congr versions lists.vmm).mpr (asks.2 fun covers => uncovered ?_))
          rw [version_eq]
          exact covers.2
      · rename_i beyond
        exact ih (asks.2 fun covers => beyond covers.1)

theorem asks_of_mapped (mapped : ∀ ioapic ∈ list, WindowMapped before.vmm ioapic.address) :
    Asks before gsi list := by
  induction list with
  | nil => trivial
  | cons ioapic rest ih =>
      exact ⟨fun _ => mapped ioapic List.mem_cons_self,
        fun _ => ih fun other member => mapped other (List.mem_cons_of_mem _ member)⟩

theorem Asks.mapped (asks : Asks before gsi list) (found : list.find? (fun ioapic => Covers before gsi ioapic) = some ioapic) :
    WindowMapped before.vmm ioapic.address := by
  induction list with
  | nil => cases found
  | cons other rest ih =>
      rw [List.find?_cons] at found
      split at found
      · rename_i covers
        cases found
        exact asks.1 (of_decide_eq_true covers).1
      · rename_i uncovered
        exact ih (asks.2 (of_decide_eq_false uncovered)) found

theorem gsiCount_lt (board : Board) (ioapic : MadtIoapic) : board.gsiCount ioapic < 120 :=
  (board.chips ioapic.address).entries

theorem serving_covers (found : serving before gsi = some ioapic) : Covers before gsi ioapic :=
  of_decide_eq_true (List.find?_some (p := fun ioapic => decide (Covers before gsi ioapic)) found)

/-! What a redirection writes -/

theorem redirectLow_plain (pin : Nat) : redirectLow pin ≠ ioapicVer ∧ redirectLow pin ≠ ioapicArb := by
  unfold redirectLow ioapicRedtbl ioapicVer ioapicArb
  omega

theorem redirectHigh_plain (pin : Nat) : redirectLow pin + 1 ≠ ioapicVer ∧ redirectLow pin + 1 ≠ ioapicArb := by
  unfold redirectLow ioapicRedtbl ioapicVer ioapicArb
  omega

/-- The two registers of a redirection entry are written. -/
def pokeEntry (address pin low high : Nat) (registers : Nat → Nat → Nat) : Nat → Nat → Nat :=
  pokeRegister address (redirectLow pin + 1) high (pokeRegister address (redirectLow pin) low registers)

theorem pokeEntry_low (address other pin index low high : Nat) (registers : Nat → Nat → Nat) :
    pokeEntry address pin low high registers other (redirectLow index) =
      if other = address ∧ index = pin then low else registers other (redirectLow index) := by
  have odd : ¬ (other = address ∧ redirectLow index = redirectLow pin + 1) := by
    unfold redirectLow
    omega
  have same : redirectLow index = redirectLow pin ↔ index = pin := by
    unfold redirectLow
    omega
  rw [pokeEntry, pokeRegister_of_ne odd, pokeRegister]
  exact if_congr (and_congr_right' same) rfl rfl

theorem pokeEntry_ver (address other pin low high : Nat) (registers : Nat → Nat → Nat) :
    pokeEntry address pin low high registers other ioapicVer = registers other ioapicVer := by
  have first := (redirectLow_plain pin).1
  have second := (redirectHigh_plain pin).1
  rw [pokeEntry, pokeRegister_of_ne fun both => second both.2.symm, pokeRegister_of_ne fun both => first both.2.symm]

theorem ioapicWrite_entry {pin low high : Nat} {last : Board} (small : pin < 120)
    (first : ioapicWrite ioapic (redirectLow pin) low before = .done () middle)
    (second : ioapicWrite ioapic (redirectLow pin + 1) high middle = .done () last) :
    SameLists before last ∧ last.register = pokeEntry ioapic.address pin low high before.register := by
  have bound : redirectLow pin + 1 < 2 ^ 8 := by
    unfold redirectLow ioapicRedtbl
    omega
  obtain ⟨_, same, lower⟩ := ioapicWrite_done (Nat.lt_of_succ_lt bound) (redirectLow_plain pin) first
  obtain ⟨_, again, upper⟩ := ioapicWrite_done bound (redirectHigh_plain pin) second
  exact ⟨same.trans again, by rw [upper, lower, pokeEntry]⟩

theorem redirectTable_eq (ioapic : MadtIoapic) (gsi : Nat) (small : gsi - ioapic.gsiBase < 120) :
    ((gsi - ioapic.gsiBase) * 2 + 16) % 2 ^ 32 = redirectLow (gsi - ioapic.gsiBase) := by
  unfold redirectLow ioapicRedtbl
  omega

theorem serving_pin (found : serving before gsi = some ioapic) : gsi - ioapic.gsiBase < 120 := by
  have covers := serving_covers found
  have count := gsiCount_lt before ioapic
  unfold Covers at covers
  omega

theorem ioapicRedirectGsi_done (run : ioapicRedirectGsi lapicId vector gsi flags mask before = .done () after) :
    ∃ ioapic, serving before gsi = some ioapic ∧ SameLists before after ∧
      after.register = pokeEntry ioapic.address (gsi - ioapic.gsiBase)
        (redirection lapicId vector flags mask % 2 ^ 32) (redirection lapicId vector flags mask >>> 32) before.register := by
  obtain ⟨found, middle, lookup, redirect⟩ := Outcome.bind_done.mp run
  obtain ⟨_, find, lists, registers⟩ := ioapicGetGsi_done lookup
  cases found with
  | none => cases redirect
  | some ioapic =>
      have small := serving_pin find.symm
      obtain ⟨_, last, first, second⟩ := Outcome.bind_done.mp redirect
      rw [redirectTable_eq ioapic gsi small] at first second
      obtain ⟨more, written⟩ := ioapicWrite_entry small first second
      exact ⟨ioapic, find.symm, lists.trans more, by rw [written, registers]⟩

theorem ioapicRedirectGsi_exists (asks : Asks before gsi before.madtIoapics) (found : serving before gsi = some ioapic) :
    ∃ after, ioapicRedirectGsi lapicId vector gsi flags mask before = .done () after := by
  obtain ⟨_, middle, lookup⟩ := ioapicGetGsi_exists asks
  obtain ⟨_, find, lists, registers⟩ := ioapicGetGsi_done lookup
  rw [← serving, found] at find
  subst find
  have mapped : WindowMapped middle.vmm ioapic.address := lists.vmm ▸ asks.mapped found
  have small := serving_pin found
  obtain ⟨last, first⟩ : ∃ last, ioapicWrite ioapic (redirectLow (gsi - ioapic.gsiBase))
      (redirection lapicId vector flags mask % 2 ^ 32) middle = .done () last := ioapicWrite_exists mapped
  have still : WindowMapped last.vmm ioapic.address := ioapicWrite_vmm first ▸ mapped
  obtain ⟨after, second⟩ : ∃ after, ioapicWrite ioapic (redirectLow (gsi - ioapic.gsiBase) + 1)
      (redirection lapicId vector flags mask >>> 32) last = .done () after := ioapicWrite_exists still
  refine ⟨after, ?_⟩
  rw [ioapicRedirectGsi, lookup]
  simp only [Outcome.done_bind]
  rw [redirectTable_eq ioapic gsi small, first]
  exact second

theorem ioapicRedirectIrq_eq (lapicId vector irq : Nat) (mask : Bool) (board : Board) :
    ioapicRedirectIrq lapicId vector irq mask board =
      ioapicRedirectGsi lapicId vector (resolve board irq).1 (resolve board irq).2 mask board := by
  unfold ioapicRedirectIrq resolve
  split <;> rfl

theorem resolve_congr (lists : SameLists before after) : resolve after irq = resolve before irq := by
  rw [resolve, resolve, lists.isos]

end BarrelOS.Interrupts
