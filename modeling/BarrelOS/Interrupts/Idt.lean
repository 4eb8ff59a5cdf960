import BarrelOS.Semantics.Outcome
import Mathlib.Algebra.Group.Nat.Defs
import Mathlib.Logic.Function.Basic

namespace BarrelOS.Interrupts

open BarrelOS.Semantics

/-- `struct idt_entry`. -/
structure IdtEntry where
  baseLow : Nat
  selector : Nat
  zero : Nat
  type : Nat
  baseHigh : Nat
deriving DecidableEq, Repr

/-- `struct idtr`. -/
structure Idtr where
  size : Nat
  offset : Nat
deriving DecidableEq, Repr

/-- `idt_entries` and `idt_descriptor`, the gates written, latest first, and the
descriptor `lidt` loaded. -/
structure Idt where
  entries : Nat → IdtEntry
  descriptor : Idtr
  written : List Nat
  loaded : Option Idtr

def sizeofIdtEntry : Nat := 8

/-! `idt.c` -/

def idtSetEntry (index base selector type : Nat) (idt : Idt) : Idt :=
  { idt with
    entries := Function.update idt.entries index ⟨base &&& 0xFFFF, selector, 0x00, type, base >>> 16 &&& 0xFF⟩
    written := index :: idt.written }

/-- The loop of `idt_install`, with its counter of 16 bits. The index is cut to a byte. -/
def setEntries (idtIntTable : Nat → Nat) : Nat → Nat → Idt → Outcome Idt Unit
  | 0, _, idt => .running idt
  | fuel + 1, i, idt =>
      if i < 256 then
        setEntries idtIntTable fuel ((i + 1) % 2 ^ 16) (idtSetEntry (i % 2 ^ 8) (idtIntTable i) 0x08 0x8E idt)
      else .done () idt

/-- `idtEntries` is the address of the table. -/
def idtInstall (fuel idtEntries : Nat) (idtIntTable : Nat → Nat) (idt : Idt) : Outcome Idt Unit :=
  (setEntries idtIntTable fuel 0 idt).bind fun _ idt =>
    let descriptor := ⟨sizeofIdtEntry * 256 - 1, idtEntries⟩
    .done () { idt with descriptor, loaded := some descriptor }

/-- The address the processor takes from a gate. -/
def IdtEntry.base (entry : IdtEntry) : Nat := entry.baseLow + 65536 * entry.baseHigh

/-- Every gate leads to its stub, and is written once. -/
structure Encodes (idtIntTable : Nat → Nat) (before after : Idt) : Prop where
  base : ∀ i < 256, (after.entries i).base = idtIntTable i
  gate : ∀ i < 256, (after.entries i).selector = 0x08 ∧ (after.entries i).type = 0x8E ∧ (after.entries i).zero = 0
  once : ∀ i < 256, after.written.count i = before.written.count i + 1

variable {fuel i turns address idtEntries : Nat} {idtIntTable : Nat → Nat} {before after : Idt}

/-- The gate `idt_install` makes for a stub. -/
def gateOf (address : Nat) : IdtEntry := ⟨address &&& 0xFFFF, 0x08, 0, 0x8E, address >>> 16 &&& 0xFF⟩

/-- Bits 24 to 31 of the address are lost. -/
theorem gateOf_base (address : Nat) : (gateOf address).base = address % 2 ^ 24 := by
  have low : address &&& 0xFFFF = address % 2 ^ 16 := Nat.and_two_pow_sub_one_eq_mod address 16
  have high : address >>> 16 &&& 0xFF = address / 2 ^ 16 % 2 ^ 8 := by
    rw [Nat.shiftRight_eq_div_pow]
    exact Nat.and_two_pow_sub_one_eq_mod _ 8
  change (address &&& 0xFFFF) + 65536 * (address >>> 16 &&& 0xFF) = address % 2 ^ 24
  rw [low, high]
  omega

theorem idtSetEntry_entries (i base j : Nat) (idt : Idt) :
    (idtSetEntry i base 0x08 0x8E idt).entries j = if j = i then gateOf base else idt.entries j :=
  Function.update_apply ..

theorem idtSetEntry_written (i base j : Nat) (idt : Idt) :
    (idtSetEntry i base 0x08 0x8E idt).written.count j = idt.written.count j + if i = j then 1 else 0 := by
  change (i :: idt.written).count j = _
  rw [List.count_cons]
  exact congrArg (idt.written.count j + ·) (if_congr beq_iff_eq rfl rfl)

theorem setEntries_done (bound : i ≤ 256) (run : setEntries idtIntTable fuel i before = .done () after) :
    (∀ j < 256, after.entries j = if i ≤ j then gateOf (idtIntTable j) else before.entries j) ∧
      ∀ j < 256, after.written.count j = before.written.count j + if i ≤ j then 1 else 0 := by
  induction fuel generalizing i before with
  | zero => cases run
  | succ fuel ih =>
      rw [setEntries] at run
      split at run
      · rename_i inside
        have next : (i + 1) % 2 ^ 16 = i + 1 := Nat.mod_eq_of_lt (by omega)
        have index : i % 2 ^ 8 = i := Nat.mod_eq_of_lt inside
        rw [next, index] at run
        obtain ⟨entries, written⟩ := ih inside run
        refine ⟨fun j small => ?_, fun j small => ?_⟩
        · rw [entries j small, idtSetEntry_entries]
          rcases Nat.lt_trichotomy i j with earlier | here | later
          · rw [if_pos (Nat.succ_le_of_lt earlier), if_pos (Nat.le_of_lt earlier)]
          · rw [if_neg (by omega), if_pos here.symm, if_pos (Nat.le_of_eq here), here]
          · rw [if_neg (by omega), if_neg (by omega), if_neg (by omega)]
        · rw [written j small, idtSetEntry_written, Nat.add_assoc]
          refine congrArg (before.written.count j + ·) ?_
          rcases Nat.lt_trichotomy i j with earlier | here | later
          · rw [if_neg (Nat.ne_of_lt earlier), if_pos (Nat.succ_le_of_lt earlier), if_pos (Nat.le_of_lt earlier)]
          · rw [if_pos here, if_neg (by omega), if_pos (Nat.le_of_eq here)]
          · rw [if_neg (by omega), if_neg (by omega), if_neg (by omega)]
      · cases run
        have past : ∀ j < 256, ¬ i ≤ j := fun j small => by omega
        exact ⟨fun j small => (if_neg (past j small)).symm, fun j small => by rw [if_neg (past j small), Nat.add_zero]⟩

theorem setEntries_exists (turns : Nat) (last : i + turns = 256) :
    ∃ after, setEntries idtIntTable (turns + 1) i before = .done () after := by
  induction turns generalizing i before with
  | zero =>
      have past : ¬ i < 256 := by omega
      rw [setEntries, if_neg past]
      exact ⟨before, rfl⟩
  | succ turns ih =>
      have inside : i < 256 := by omega
      have next : (i + 1) % 2 ^ 16 = i + 1 := Nat.mod_eq_of_lt (by omega)
      rw [setEntries, if_pos inside, next]
      exact ih (by omega)

/-- The gates lead to their stubs exactly when every stub lies below 16 MiB. -/
theorem idt_encodes_iff :
    (∃ fuel after, idtInstall fuel idtEntries idtIntTable before = .done () after ∧ Encodes idtIntTable before after) ↔
      ∀ i < 256, idtIntTable i < 2 ^ 24 := by
  constructor
  · intro encoded i small
    obtain ⟨fuel, after, install, encodes⟩ := encoded
    obtain ⟨_, written, run, finished⟩ := Outcome.bind_done.mp install
    cases finished
    have base := encodes.base i small
    have entry : written.entries i = gateOf (idtIntTable i) := (setEntries_done (Nat.zero_le _) run).1 i small
    have kept : (written.entries i).base = idtIntTable i := base
    rw [entry, gateOf_base] at kept
    exact kept ▸ Nat.mod_lt _ (Nat.two_pow_pos 24)
  · intro low
    obtain ⟨written, run⟩ := @setEntries_exists 0 idtIntTable before 256 rfl
    obtain ⟨entries, counts⟩ := setEntries_done (Nat.zero_le _) run
    have gates : ∀ i < 256, written.entries i = gateOf (idtIntTable i) := fun i small => entries i small
    refine ⟨257, _, Outcome.bind_done.mpr ⟨(), written, run, rfl⟩, fun i small => ?_, fun i small => ?_, counts⟩
    · change (written.entries i).base = idtIntTable i
      rw [gates i small, gateOf_base, Nat.mod_eq_of_lt (low i small)]
    · change (written.entries i).selector = 0x08 ∧ (written.entries i).type = 0x8E ∧ (written.entries i).zero = 0
      rw [gates i small]
      exact ⟨rfl, rfl, rfl⟩

def emptyIdt : Idt := ⟨fun _ => ⟨0, 0, 0, 0, 0⟩, ⟨0, 0⟩, [], none⟩

theorem idt_encodes_kernel : ∃ fuel after,
    idtInstall fuel 0x208000 (fun i => 0x200000 + 16 * i) emptyIdt = .done () after ∧
      Encodes (fun i => 0x200000 + 16 * i) emptyIdt after :=
  idt_encodes_iff.mpr fun i small => by omega

/-- A kernel linked at 3 GiB has gates that lead elsewhere. -/
theorem idtSetEntry_cuts_address : ¬ ∃ fuel after,
    idtInstall fuel 0xC0208000 (fun i => 0xC0200000 + 16 * i) emptyIdt = .done () after ∧
      Encodes (fun i => 0xC0200000 + 16 * i) emptyIdt after := by
  intro encoded
  obtain ⟨fuel, after, install, encodes⟩ := encoded
  obtain ⟨_, written, run, finished⟩ := Outcome.bind_done.mp install
  cases finished
  have base : (written.entries 0).base = 0xC0200000 := encodes.base 0 (by decide)
  have entry : written.entries 0 = gateOf 0xC0200000 := (setEntries_done (Nat.zero_le _) run).1 0 (by decide)
  rw [entry, gateOf_base] at base
  exact absurd base (by decide)

end BarrelOS.Interrupts
