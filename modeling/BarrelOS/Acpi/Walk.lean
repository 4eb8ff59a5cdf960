import BarrelOS.Acpi.Madt
import BarrelOS.Data.Course

namespace BarrelOS.Acpi

open BarrelOS.Data BarrelOS.Lib BarrelOS.Memory BarrelOS.Semantics

/-! The course of `madt_init`'s loop, which the bytes of the table alone decide. -/

def InWalk (memory : Bytes) (madt i : Nat) : Prop := i ≤ walkLimit memory madt

def nextEntry (memory : Bytes) (madt i : Nat) : Nat := (i + entryLength memory madt i) % 2 ^ 32

/-- The lengths of the entries lead from an offset to another. -/
def Leads (memory : Bytes) (madt : Nat) : Nat → Nat → Prop :=
  Relation.ReflTransGen (LoopStep (InWalk memory madt) (nextEntry memory madt))

/-- The lengths of the entries lead to an offset in the walk. -/
def Reaches (memory : Bytes) (madt i : Nat) : Prop := Leads memory madt 0 i ∧ InWalk memory madt i

/-- The entries of a type among those that the loop takes from an offset on in a number of turns. -/
def taken (memory : Bytes) (madt type : Nat) : Nat → Nat → Nat
  | 0, _ => 0
  | turns + 1, i =>
      if i ≤ walkLimit memory madt then
        (if entryType memory madt i = type then 1 else 0) + taken memory madt type turns (nextEntry memory madt i)
      else 0

/-- The entries of the walk can be pointed to, and the lists have a place for each. -/
structure Fits (memory : Bytes) (madt : Nat) (globals : Madt) : Prop where
  pointers : ∀ i, Reaches memory madt i → madt + sizeofMadt + i < 2 ^ 32
  ioapics : ∀ turns, globals.ioapics.count + taken memory madt 1 turns 0 ≤ 64
  isos : ∀ turns, globals.isos.count + taken memory madt 2 turns 0 ≤ 64

variable {memory : Bytes} {fuel madt apic i : Nat} {root : Root} {globals after : Madt}

theorem walkEntries_not_panicked {message : String} : walkEntries memory madt fuel i globals ≠ .panicked message after := by
  intro run
  induction fuel generalizing i globals with
  | zero => cases run
  | succ fuel ih =>
      rw [walkEntries] at run
      split at run
      · split at run
        · exact ih run
        · cases run
      · cases run

theorem Finds.high {signature : Nat} (finds : Finds signature root i) : 0xC0000000 ≤ higherHalf (root.word i) := by
  have low := finds.passes.table.low
  unfold higherHalf
  omega

theorem madtInit_of_finds (finds : Finds apic root i) :
    madtInit fuel apic root globals = walkEntries root.memory (higherHalf (root.word i)) fuel 0 globals :=
  madtInit_walks finds.returned finds.passes.table_ne_null

/-- Without a MADT that the search finds `madt_init` is halted. -/
theorem madtInit_faulted (missed : ¬ ∃ i, Finds apic root i) : madtInit fuel apic root globals = .faulted globals := by
  rw [madtInit]
  cases returned : acpiFindTable apic root with
  | none => rfl
  | some madt =>
      refine if_pos (not_not.mp fun present => ?_)
      exact missed (acpiFindTable_found_iff.mp ⟨madt, returned, present⟩)

end BarrelOS.Acpi
