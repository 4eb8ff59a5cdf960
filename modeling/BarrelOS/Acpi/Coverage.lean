import BarrelOS.Acpi.Install

namespace BarrelOS.Acpi

open BarrelOS.Boot BarrelOS.Data BarrelOS.Lib BarrelOS.Memory BarrelOS.Semantics

/-! The bytes that the functions of `acpi.c` and `madt.c` read, function by function -/

def field (address size : Nat) : List Nat := (List.range size).map (address + ·)

def memcmpReads (memory : Bytes) (s1 s2 : Nat) : Nat → List Nat
  | 0 => []
  | n + 1 =>
      if s1 < 2 ^ 32 ∧ s2 < 2 ^ 32 then
        s1 :: if memory.load8 s1 ≠ memory.load8 s2 then [] else memcmpReads memory (s1 + 1) (s2 + 1) n
      else []

namespace Root

def length (root : Root) : Nat := root.memory.load32 (root.sdt + 4)

/-- The slots that the loop reads from the `i`th on, of which there are `left`. -/
def slotsFrom (root : Root) (signature : Nat) : Nat → Nat → List Nat
  | 0, _ => []
  | left + 1, i =>
      if root.sdt + sizeofSdt + 4 * i < 2 ^ 32 then
        i :: if searchEntries signature root 1 i = some 0 then root.slotsFrom signature left (i + 1) else []
      else []

def slots (root : Root) (signature : Nat) : List Nat := root.slotsFrom signature root.entries 0

end Root

/-- What one turn of the loop of `acpi_find_table` reads. -/
def slotReads (signature : Nat) (root : Root) (i : Nat) : List Nat :=
  field (root.sdt + sizeofSdt + 4 * i) 4 ++
    if root.word i ≠ 0 ∧ root.word i < 0x40000000 then memcmpReads root.memory (higherHalf (root.word i)) signature 4
    else []

def findReads (signature : Nat) (root : Root) : List Nat :=
  field (root.sdt + 4) 4 ++ (root.slots signature).flatMap (slotReads signature root)

/-- What the loop of `madt_init` reads in a number of turns. The length of an entry is
read once the entry is recorded. -/
def walkReads (memory : Bytes) (madt : Nat) : Nat → Nat → Madt → List Nat
  | 0, _, _ => []
  | fuel + 1, i, globals =>
      field (madt + 4) 4 ++
        if i ≤ walkLimit memory madt ∧ madt + sizeofMadt + i < 2 ^ 32 then
          entryAt madt i ::
            if globals.Room (entryType memory madt i) then
              (entryAt madt i + 1) :: walkReads memory madt fuel (nextEntry memory madt i)
                (globals.record (entryType memory madt i) (entryAt madt i))
            else []
        else []

/-! Where they are -/

/-- The walk comes to an offset with these globals. -/
inductive Comes (memory : Bytes) (madt : Nat) (globals : Madt) : Nat → Madt → Prop
  | start : Comes memory madt globals 0 globals
  | turn {i : Nat} {current : Madt} (earlier : Comes memory madt globals i current) (inside : InWalk memory madt i)
      (goes : Goes memory madt i current) : Comes memory madt globals (nextEntry memory madt i)
        (current.record (entryType memory madt i) (entryAt madt i))

variable {signature fuel madt address size i j n left s1 s2 rsdp : Nat} {memory other : Bytes} {root : Root}
  {before after : Vmm} {globals current : Madt} {system : System} {platform chosen : Platform} {P : Nat → Prop}

/-! The bytes of each list -/

theorem forall_field : (∀ byte ∈ field address size, P byte) ↔ ∀ k < size, P (address + k) := by
  simp [field]

theorem memcmp_congr (same : ∀ byte ∈ memcmpReads memory s1 s2 n, other.load8 byte = memory.load8 byte)
    (string : ∀ k < n, other.load8 (s2 + k) = memory.load8 (s2 + k)) : memcmp other s1 s2 n = memcmp memory s1 s2 n := by
  induction n generalizing s1 s2 with
  | zero => rfl
  | succ n ih =>
      rw [memcmpReads] at same
      rw [memcmp, memcmp]
      split
      · rename_i inside
        rw [if_pos inside, List.forall_mem_cons] at same
        rw [Nat.forall_lt_succ_left] at string
        obtain ⟨first, rest⟩ := same
        obtain ⟨char, chars⟩ := string
        rw [Nat.add_zero] at char
        rw [first, char]
        split
        · rfl
        · rename_i equal
          rw [if_neg equal] at rest
          refine ih rest fun k inside => ?_
          rw [Nat.add_right_comm, Nat.add_assoc]
          exact chars k inside
      · rfl

theorem load32_congr (same : ∀ byte ∈ field address 4, other.load8 byte = memory.load8 byte) :
    other.load32 address = memory.load32 address := by
  have bytes := forall_field.mp same
  have first : other.load8 address = memory.load8 address := bytes 0 (by decide)
  have second : other.load8 (address + 1) = memory.load8 (address + 1) := bytes 1 (by decide)
  have third : other.load8 (address + 2) = memory.load8 (address + 2) := bytes 2 (by decide)
  have last : other.load8 (address + 2 + 1) = memory.load8 (address + 2 + 1) := bytes 3 (by decide)
  unfold Bytes.load32 Bytes.load16
  rw [first, second, third, last]

/-- The walk depends on no byte but those it is said to read. -/
theorem walkEntries_congr (same : ∀ byte ∈ walkReads memory madt fuel i globals, other.load8 byte = memory.load8 byte) :
    walkEntries other madt fuel i globals = walkEntries memory madt fuel i globals := by
  induction fuel generalizing i globals with
  | zero => rfl
  | succ fuel ih =>
      rw [walkReads, List.forall_mem_append] at same
      have limit : walkLimit other madt = walkLimit memory madt := by
        rw [walkLimit, walkLimit, load32_congr same.1]
      have rest := same.2
      rw [walkEntries, walkEntries, limit]
      by_cases inside : i ≤ walkLimit memory madt
      swap
      · rw [if_neg inside, if_neg inside]
      rw [if_pos inside, if_pos inside]
      by_cases pointer : madt + sizeofMadt + i < 2 ^ 32
      swap
      · rw [if_neg fun goes : Goes other madt i globals => pointer goes.1,
          if_neg fun goes : Goes memory madt i globals => pointer goes.1]
      rw [if_pos ⟨inside, pointer⟩, List.forall_mem_cons] at rest
      have type : entryType other madt i = entryType memory madt i := rest.1
      have goes : Goes other madt i globals ↔ Goes memory madt i globals := by
        unfold Goes
        rw [type]
      by_cases room : globals.Room (entryType memory madt i)
      · have later := rest.2
        rw [if_pos room, List.forall_mem_cons] at later
        have length : entryLength other madt i = entryLength memory madt i := later.1
        rw [if_pos (goes.mpr ⟨pointer, room⟩), if_pos ⟨pointer, room⟩, type, length]
        exact ih later.2
      · rw [if_neg fun goes : Goes memory madt i globals => room goes.2, if_neg fun here => room (goes.mp here).2]

theorem searchEntries_congr
    (same : ∀ byte ∈ (root.slotsFrom signature left i).flatMap (slotReads signature root),
      other.load8 byte = root.memory.load8 byte)
    (string : ∀ k < 4, other.load8 (signature + k) = root.memory.load8 (signature + k)) :
    searchEntries signature { root with memory := other } left i = searchEntries signature root left i := by
  induction left generalizing i with
  | zero => rfl
  | succ left ih =>
      rw [Root.slotsFrom] at same
      by_cases slot : root.sdt + sizeofSdt + 4 * i < 2 ^ 32
      swap
      · have halts : pointerAdd (root.sdt + sizeofSdt) (4 * i) = none := if_neg fun valid => slot valid.2
        rw [searchEntries, searchEntries, halts]
        rfl
      have pointer : pointerAdd (root.sdt + sizeofSdt) (4 * i) = some (root.sdt + sizeofSdt + 4 * i) :=
        pointerAdd_eq_some.mpr ⟨Nat.succ_ne_zero _, slot, rfl⟩
      rw [if_pos slot, List.flatMap_cons, List.forall_mem_append, slotReads, List.forall_mem_append] at same
      obtain ⟨⟨word, table⟩, rest⟩ := same
      rw [searchEntries, searchEntries, pointer, Option.bind_eq_bind, Option.bind_some, Option.bind_some,
        load32_congr word]
      have loaded : root.memory.load32 (root.sdt + sizeofSdt + 4 * i) = root.word i := rfl
      rw [loaded]
      by_cases valid : root.word i ≠ 0 ∧ root.word i < 0x40000000
      swap
      · have halts : pointerAdd (root.word i) 0xC0000000 = none := if_neg fun inside => valid ⟨inside.1, by omega⟩
        rw [halts]
        rfl
      have higher : root.word i + 0xC0000000 = higherHalf (root.word i) := by
        unfold higherHalf
        omega
      have found : pointerAdd (root.word i) 0xC0000000 = some (higherHalf (root.word i)) :=
        pointerAdd_eq_some.mpr ⟨valid.1, by omega, higher⟩
      rw [if_pos valid] at table
      rw [found, Option.bind_eq_bind, Option.bind_some, Option.bind_some, memcmp_congr table string]
      cases compared : memcmp root.memory (higherHalf (root.word i)) signature 4 with
      | none => rfl
      | some differ =>
          rw [Option.bind_some, Option.bind_some]
          by_cases equal : differ = 0
          · rw [if_pos equal, if_pos equal]
          · have missed : searchEntries signature root 1 i = some 0 := by
              rw [searchEntries, pointer, Option.bind_eq_bind, Option.bind_some, loaded, found, Option.bind_eq_bind,
                Option.bind_some, compared, Option.bind_some, if_neg equal]
              rfl
            rw [if_pos missed] at rest
            rw [if_neg equal, if_neg equal]
            exact ih rest

/-- Nor does the search, but for those of the signature itself. -/
theorem acpiFindTable_congr (same : ∀ byte ∈ findReads signature root, other.load8 byte = root.memory.load8 byte)
    (string : ∀ k < 4, other.load8 (signature + k) = root.memory.load8 (signature + k)) :
    acpiFindTable signature { root with memory := other } = acpiFindTable signature root := by
  rw [findReads, List.forall_mem_append] at same
  have entries : Root.entries { root with memory := other } = root.entries := by
    rw [Root.entries, Root.entries, Root.tableSize, Root.tableSize, load32_congr same.1]
  rw [acpiFindTable_eq, acpiFindTable_eq, entries]
  exact searchEntries_congr same.2 string

/-! What is mapped while they are read -/

end BarrelOS.Acpi
