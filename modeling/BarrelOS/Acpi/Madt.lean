import BarrelOS.Acpi.Tables
import BarrelOS.Semantics.Outcome

namespace BarrelOS.Acpi

open BarrelOS.Data BarrelOS.Semantics

/-- `madt_ioapic_list` with `madt_ioapics`, or `madt_iso_list` with `madt_isos`: a
list of 64 places and the number of those filled. -/
@[ext] structure EntryList where
  list : Nat → Nat
  count : Nat

def EntryList.push (entry : Nat) (places : EntryList) : EntryList where
  list := Function.update places.list places.count entry
  count := places.count + 1

@[ext] structure Madt where
  ioapics : EntryList
  isos : EntryList
  lapicAddr : Nat

/-- `sizeof(struct acpi_madt)`, and so where `table` starts. -/
def sizeofMadt : Nat := 44

/-- `madt->length - sizeof(madt)`, where `sizeof(madt)` is the size of a pointer. -/
def walkLimit (memory : Bytes) (madt : Nat) : Nat := (memory.load32 (madt + 4) + 2 ^ 32 - 4) % 2 ^ 32

/-- `madt->table + i`. -/
def entryAt (madt i : Nat) : Nat := (madt + sizeofMadt + i) % 2 ^ 32

def entryType (memory : Bytes) (madt i : Nat) : Nat := memory.load8 (entryAt madt i)

def entryLength (memory : Bytes) (madt i : Nat) : Nat := memory.load8 (entryAt madt i + 1)

namespace Madt

/-- The `switch` of `madt_init`. -/
def record (type entry : Nat) (globals : Madt) : Madt :=
  match type with
  | 1 => { globals with ioapics := globals.ioapics.push entry }
  | 2 => { globals with isos := globals.isos.push entry }
  | 5 => { globals with lapicAddr := entry }
  | _ => globals

/-- There is a place in its list for an entry. -/
def Room (type : Nat) (globals : Madt) : Prop :=
  (type = 1 → globals.ioapics.count < 64) ∧ (type = 2 → globals.isos.count < 64)

instance (type : Nat) (globals : Madt) : Decidable (globals.Room type) := inferInstanceAs (Decidable (_ ∧ _))

end Madt

/-- The entry at an offset can be pointed to, and recorded. -/
def Goes (memory : Bytes) (madt i : Nat) (globals : Madt) : Prop :=
  madt + sizeofMadt + i < 2 ^ 32 ∧ globals.Room (entryType memory madt i)

instance (memory : Bytes) (madt i : Nat) (globals : Madt) : Decidable (Goes memory madt i globals) :=
  inferInstanceAs (Decidable (_ ∧ _))

/-- The loop of `madt_init`, which the sanitizer halts where `madt->table + i` leaves the
address space and where there is no place in a list. -/
def walkEntries (memory : Bytes) (madt : Nat) : Nat → Nat → Madt → Outcome Madt Unit
  | 0, _, globals => .running globals
  | fuel + 1, i, globals =>
      if i ≤ walkLimit memory madt then
        if Goes memory madt i globals then
          walkEntries memory madt fuel ((i + entryLength memory madt i) % 2 ^ 32)
            (globals.record (entryType memory madt i) (entryAt madt i))
        else .faulted globals
      else .done () globals

/-- `apic` is the string "APIC". The table is read without a look whether it is `NULL`. -/
def madtInit (fuel apic : Nat) (root : Root) (globals : Madt) : Outcome Madt Unit :=
  (Outcome.ofOption (acpiFindTable apic root) globals).bind fun madt globals =>
    if madt = 0 then .faulted globals else walkEntries root.memory madt fuel 0 globals

/-! What the entries of a MADT are, and what is kept of them -/

structure Entry where
  type : Nat
  address : Nat
deriving DecidableEq

/-- The entries from an offset on, which fill the table up to its end. -/
inductive Laid (memory : Bytes) (madt : Nat) : Nat → List Entry → Prop
  | none {i : Nat} (whole : sizeofMadt + i = memory.load32 (madt + 4)) : Laid memory madt i []
  | next {i : Nat} {entries : List Entry} (length : 2 ≤ entryLength memory madt i)
      (rest : Laid memory madt (i + entryLength memory madt i) entries) :
      Laid memory madt i (⟨entryType memory madt i, entryAt madt i⟩ :: entries)

/-- A list holds these entries from its first place on, and behind them what it held before. -/
structure Holds (entries : List Nat) (before after : EntryList) : Prop where
  count : after.count = entries.length
  list : ∀ k, after.list k = entries[k]?.getD (before.list k)

/-- The walk from an offset on ends, with `lapic_addr` at `lapic`, and meets neither
an I/O APIC nor an override. -/
inductive Quiet (memory : Bytes) (madt lapic : Nat) : Nat → Nat → Prop
  | past {i : Nat} (past : walkLimit memory madt < i) : Quiet memory madt lapic lapic i
  | other {current i : Nat} (inside : i ≤ walkLimit memory madt) (pointer : madt + sizeofMadt + i < 2 ^ 32)
      (type : entryType memory madt i ≠ 1 ∧ entryType memory madt i ≠ 2 ∧ entryType memory madt i ≠ 5)
      (rest : Quiet memory madt lapic current ((i + entryLength memory madt i) % 2 ^ 32)) :
      Quiet memory madt lapic current i
  | lapic {current i : Nat} (inside : i ≤ walkLimit memory madt) (pointer : madt + sizeofMadt + i < 2 ^ 32)
      (type : entryType memory madt i = 5)
      (rest : Quiet memory madt lapic (entryAt madt i) ((i + entryLength memory madt i) % 2 ^ 32)) :
      Quiet memory madt lapic current i

variable {memory : Bytes} {fuel madt lapic type entry i : Nat} {before globals after : Madt} {entries : List Entry}

/-! Filling a list -/

namespace EntryList

def pushAll (entries : List Nat) (places : EntryList) : EntryList :=
  entries.foldl (fun places entry => places.push entry) places

end EntryList

/-! One entry -/

namespace Madt

theorem record_other (other : type ≠ 1 ∧ type ≠ 2 ∧ type ≠ 5) : globals.record type entry = globals := by
  unfold record
  split
  · exact absurd rfl other.1
  · exact absurd rfl other.2.1
  · exact absurd rfl other.2.2
  · rfl

end Madt

/-- The walk from an offset on ends with `after`. -/
def Walks (memory : Bytes) (madt i : Nat) (globals after : Madt) : Prop :=
  ∃ fuel, walkEntries memory madt fuel i globals = .done () after

theorem walks_past (past : walkLimit memory madt < i) : Walks memory madt i globals after ↔ after = globals := by
  constructor
  · intro walks
    obtain ⟨fuel, run⟩ := walks
    cases fuel with
    | zero => cases run
    | succ fuel =>
        rw [walkEntries, if_neg (Nat.not_le_of_lt past)] at run
        cases run
        rfl
  · intro same
    subst same
    exact ⟨1, by rw [walkEntries, if_neg (Nat.not_le_of_lt past)]⟩

theorem walks_next (inside : i ≤ walkLimit memory madt) : Walks memory madt i globals after ↔
    Goes memory madt i globals ∧ Walks memory madt ((i + entryLength memory madt i) % 2 ^ 32)
      (globals.record (entryType memory madt i) (entryAt madt i)) after := by
  constructor
  · intro walks
    obtain ⟨fuel, run⟩ := walks
    cases fuel with
    | zero => cases run
    | succ fuel =>
        rw [walkEntries, if_pos inside] at run
        split at run
        · rename_i goes
          exact ⟨goes, fuel, run⟩
        · cases run
  · intro walks
    obtain ⟨goes, fuel, run⟩ := walks
    exact ⟨fuel + 1, by rw [walkEntries, if_pos inside, if_pos goes, run]⟩

/-! The entries of the table, and what is read behind them -/

theorem Laid.bound (laid : Laid memory madt i entries) : sizeofMadt + i ≤ memory.load32 (madt + 4) := by
  induction laid with
  | none whole => exact Nat.le_of_eq whole
  | next length rest ih => omega

/-- Behind its last entry the table is still walked. -/
theorem Laid.behind (laid : Laid memory madt i entries) :
    memory.load32 (madt + 4) - sizeofMadt ≤ walkLimit memory madt := by
  have word := @Bytes.load32_lt memory (madt + 4)
  have bound := laid.bound
  have header : sizeofMadt = 44 := rfl
  unfold walkLimit
  omega

theorem Quiet.placed {lapic current : Nat} (quiet : Quiet memory madt lapic current (memory.load32 (madt + 4) - sizeofMadt))
    (laid : Laid memory madt i entries) : madt + memory.load32 (madt + 4) < 2 ^ 32 := by
  have bound := laid.bound
  have behind := laid.behind
  cases quiet with
  | past past => omega
  | other _ pointer => omega
  | lapic _ pointer => omega

theorem Quiet.walks (quiet : Quiet memory madt lapic globals.lapicAddr i) :
    Walks memory madt i globals { globals with lapicAddr := lapic } := by
  generalize same : globals.lapicAddr = current at quiet
  induction quiet generalizing globals with
  | past past =>
      cases same
      exact (walks_past past).mpr rfl
  | other inside pointer type rest ih =>
      refine (walks_next inside).mpr ⟨⟨pointer, fun ioapic => absurd ioapic type.1, fun iso => absurd iso type.2.1⟩, ?_⟩
      rw [Madt.record_other type]
      exact ih same
  | @lapic current i inside pointer type rest ih =>
      refine (walks_next inside).mpr ⟨⟨pointer, fun ioapic => ?_, fun iso => ?_⟩, ?_⟩
      · exact absurd (type.symm.trans ioapic) (by decide)
      · exact absurd (type.symm.trans iso) (by decide)
      · rw [type]
        exact @ih { globals with lapicAddr := entryAt madt i } rfl

theorem madtInit_walks {apic : Nat} {root : Root} (found : acpiFindTable apic root = some madt) (present : madt ≠ 0) :
    madtInit fuel apic root globals = walkEntries root.memory madt fuel 0 globals := by
  rw [madtInit, found]
  exact if_neg present

def noEntries : Madt := ⟨⟨fun _ => 0, 0⟩, ⟨fun _ => 0, 0⟩, 0⟩

end BarrelOS.Acpi
