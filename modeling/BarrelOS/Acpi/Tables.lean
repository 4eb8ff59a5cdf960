import BarrelOS.Lib.Libc
import BarrelOS.Memory.Heap
import Mathlib.Data.Nat.Find

namespace BarrelOS.Acpi

open BarrelOS.Data BarrelOS.Lib BarrelOS.Memory

/-- The memory, and the globals of `acpi.c`. -/
structure Root where
  memory : Bytes
  useXsdt : Bool
  sdt : Nat

/-- `sizeof(struct acpi_sdt)`, and so where `table` starts. -/
def sizeofSdt : Nat := 36

namespace Root

/-- `rsdt->sdt.length - sizeof(rsdt->sdt)`. -/
def tableSize (root : Root) : Nat := (root.memory.load32 (root.sdt + 4) + 2 ^ 32 - sizeofSdt) % 2 ^ 32

/-- `*((uint32_t*)rsdt->table + i)`, which both loops read. -/
def word (root : Root) (i : Nat) : Nat := root.memory.load32 (root.sdt + sizeofSdt + 4 * i)

end Root

/-- The loop from the `i`th slot on, of which the two copies have the same body. It halts
where a pointer starts at `NULL` or leaves the address space, as `HIGHER_HALF` may. -/
def searchEntries (signature : Nat) (root : Root) : Nat → Nat → Option Nat
  | 0, _ => some 0
  | left + 1, i => do
      let slot ← pointerAdd (root.sdt + sizeofSdt) (4 * i)
      let sdt ← pointerAdd (root.memory.load32 slot) 0xC0000000
      let differ ← memcmp root.memory sdt signature 4
      if differ = 0 then some sdt else searchEntries signature root left (i + 1)

/-- `acpi_find_table`, of which a search that halts has no result. -/
def acpiFindTable (signature : Nat) (root : Root) : Option Nat :=
  if !root.useXsdt then searchEntries signature root (root.tableSize / 4) 0
  else searchEntries signature root (root.tableSize / 8) 0

/-! What a lookup is for -/

/-- An entry of the root table, of the size its format has. -/
def Root.entry (root : Root) (i : Nat) : Nat :=
  if root.useXsdt then root.memory.load64 (root.sdt + sizeofSdt + 8 * i)
  else root.memory.load32 (root.sdt + sizeofSdt + 4 * i)

/-- The root table is well formed and lists these physical addresses. -/
structure Lists (root : Root) (addresses : List Nat) : Prop where
  length : root.memory.load32 (root.sdt + 4) = sizeofSdt + (if root.useXsdt then 8 else 4) * addresses.length
  placed : root.sdt + root.memory.load32 (root.sdt + 4) ≤ 2 ^ 32
  entries : ∀ i address, addresses[i]? = some address → root.entry i = address
  below : ∀ address ∈ addresses, address < 2 ^ 32

/-- The table at a physical address has the signature. -/
def Carries (signature : Nat) (root : Root) (address : Nat) : Prop :=
  ∀ i < 4, root.memory.load8 (higherHalf address + i) = root.memory.load8 (signature + i)

instance (signature : Nat) (root : Root) (address : Nat) : Decidable (Carries signature root address) :=
  inferInstanceAs (Decidable (∀ i < 4, _ = _))

/-- The first listed table with the signature, and its place in the list. -/
structure FirstMatch (signature : Nat) (root : Root) (addresses : List Nat) (i address : Nat) : Prop where
  listed : addresses[i]? = some address
  carries : Carries signature root address
  first : ∀ j < i, ∀ other, addresses[j]? = some other → ¬ Carries signature root other

/-- The lookup returns the first listed table with the signature, and `NULL` exactly when there is none. -/
structure Answers (signature : Nat) (root : Root) (addresses : List Nat) : Prop where
  found : ∀ i address, FirstMatch signature root addresses i address →
    acpiFindTable signature root = some (higherHalf address)
  null : acpiFindTable signature root = some 0 ↔ ∀ address ∈ addresses, ¬ Carries signature root address

/-- The signature of a table can be compared in the higher half: its address is not 0 and
below 1 GiB, and the bytes up to the first that differs lie in the address space. -/
structure Accessible (signature : Nat) (root : Root) (address : Nat) : Prop where
  present : address ≠ 0
  low : address < 0x40000000
  comparable : Comparable root.memory (higherHalf address) signature 4

/-- The tables of the list are accessible up to the first one with the signature. -/
def Searchable (signature : Nat) (root : Root) (addresses : List Nat) : Prop :=
  ∀ (i address : Nat), addresses[i]? = some address →
    (∀ j < i, ∀ other, addresses[j]? = some other → ¬ Carries signature root other) → Accessible signature root address

/-- Of a list of several tables the first one has the signature. -/
def FirstCarries (signature : Nat) (root : Root) (addresses : List Nat) : Prop :=
  2 ≤ addresses.length → ∀ address : Nat, addresses[0]? = some address → Carries signature root address

/-! Where the search gets to -/

/-- The search does not halt at a slot. -/
structure Passes (signature : Nat) (root : Root) (i : Nat) : Prop where
  slot : root.sdt + sizeofSdt + 4 * i < 2 ^ 32
  table : Accessible signature root (root.word i)

namespace Root

/-- `entries`, of either format. -/
def entries (root : Root) : Nat := root.tableSize / if root.useXsdt then 8 else 4

end Root

/-- The search reads the `i`th slot. -/
structure ComesTo (signature : Nat) (root : Root) (i : Nat) : Prop where
  inside : i < root.entries
  passes : ∀ earlier < i, Passes signature root earlier
  differ : ∀ earlier < i, ¬ Carries signature root (root.word earlier)

/-- The search returns the table of the `i`th slot. -/
structure Finds (signature : Nat) (root : Root) (i : Nat) : Prop where
  comes : ComesTo signature root i
  passes : Passes signature root i
  carries : Carries signature root (root.word i)

variable {signature i left address sdt : Nat} {root rsdt xsdt : Root} {addresses : List Nat}

/-! The search -/

theorem searchEntries_turn : (Passes signature root i → searchEntries signature root (left + 1) i =
      if Carries signature root (root.word i) then some (higherHalf (root.word i))
      else searchEntries signature root left (i + 1)) ∧
    (¬ Passes signature root i → searchEntries signature root (left + 1) i = none) := by
  have header : root.sdt + sizeofSdt ≠ 0 := Nat.succ_ne_zero _
  have word : root.memory.load32 (root.sdt + sizeofSdt + 4 * i) = root.word i := rfl
  rw [searchEntries]
  by_cases slot : root.sdt + sizeofSdt + 4 * i < 2 ^ 32
  swap
  · refine ⟨fun passes => absurd passes.slot slot, fun _ => ?_⟩
    rw [pointerAdd, if_neg fun valid => slot valid.2]
    rfl
  by_cases table : root.word i ≠ 0 ∧ root.word i < 0x40000000
  swap
  · refine ⟨fun passes => absurd ⟨passes.table.present, passes.table.low⟩ table, fun _ => ?_⟩
    have halts : ¬ (root.word i ≠ 0 ∧ root.word i + 0xC0000000 < 2 ^ 32) := by omega
    rw [pointerAdd_eq_some.mpr ⟨header, slot, rfl⟩, Option.bind_eq_bind, Option.bind_some, word, pointerAdd, if_neg halts]
    rfl
  have higher : root.word i + 0xC0000000 = higherHalf (root.word i) := by
    unfold higherHalf
    omega
  have pointer : pointerAdd (root.word i) 0xC0000000 = some (higherHalf (root.word i)) :=
    pointerAdd_eq_some.mpr ⟨table.1, by omega, higher⟩
  obtain ⟨returns, halts⟩ := @memcmp_spec root.memory (higherHalf (root.word i)) signature 4
  rw [pointerAdd_eq_some.mpr ⟨header, slot, rfl⟩, Option.bind_eq_bind, Option.bind_some, word, pointer,
    Option.bind_eq_bind, Option.bind_some]
  constructor
  · intro passes
    obtain ⟨differ, compared, zero⟩ := returns passes.table.comparable
    rw [compared, Option.bind_some]
    exact if_congr zero rfl rfl
  · intro stops
    rw [halts fun comparable => stops ⟨slot, table.1, table.2, comparable⟩]
    rfl

theorem acpiFindTable_eq : acpiFindTable signature root = searchEntries signature root root.entries 0 := by
  unfold acpiFindTable Root.entries
  cases root.useXsdt <;> simp

theorem acpiFindTable_from (bound : i ≤ root.entries) (passes : ∀ earlier < i, Passes signature root earlier)
    (differ : ∀ earlier < i, ¬ Carries signature root (root.word earlier)) :
    acpiFindTable signature root = searchEntries signature root (root.entries - i) i := by
  induction i with
  | zero => exact acpiFindTable_eq
  | succ i ih =>
      have left : root.entries - i = root.entries - (i + 1) + 1 := by omega
      have here := Nat.lt_succ_self i
      rw [ih (by omega) (fun earlier before => passes earlier (before.trans here))
        (fun earlier before => differ earlier (before.trans here)), left, searchEntries_turn.1 (passes i here),
        if_neg (differ i here)]

theorem Finds.returned (finds : Finds signature root i) : acpiFindTable signature root = some (higherHalf (root.word i)) := by
  obtain ⟨⟨inside, passed, differ⟩, passes, carries⟩ := finds
  have left : root.entries - i = root.entries - (i + 1) + 1 := by omega
  rw [acpiFindTable_from (Nat.le_of_lt inside) passed differ, left, searchEntries_turn.1 passes, if_pos carries]

theorem acpiFindTable_missed (missed : ∀ i < root.entries, Passes signature root i ∧ ¬ Carries signature root (root.word i)) :
    acpiFindTable signature root = some 0 := by
  rw [acpiFindTable_from (Nat.le_refl _) (fun i inside => (missed i inside).1) fun i inside => (missed i inside).2,
    Nat.sub_self]
  rfl

theorem ComesTo.halts (comes : ComesTo signature root i) (stops : ¬ Passes signature root i) :
    acpiFindTable signature root = none := by
  obtain ⟨inside, passed, differ⟩ := comes
  have left : root.entries - i = root.entries - (i + 1) + 1 := by omega
  rw [acpiFindTable_from (Nat.le_of_lt inside) passed differ, left, searchEntries_turn.2 stops]

/-- A search finds a table, or misses all of them, or halts at a slot. -/
theorem search_cases (signature : Nat) (root : Root) : (∃ i, Finds signature root i) ∨
    (∀ i < root.entries, Passes signature root i ∧ ¬ Carries signature root (root.word i)) ∨
      ∃ i, ComesTo signature root i ∧ ¬ Passes signature root i := by
  classical
  by_cases ends : ∃ i, i < root.entries ∧ ¬ (Passes signature root i ∧ ¬ Carries signature root (root.word i))
  · obtain ⟨inside, stops⟩ := Nat.find_spec ends
    have earlier : ∀ k < Nat.find ends, Passes signature root k ∧ ¬ Carries signature root (root.word k) := by
      intro k before
      by_contra stopped
      exact Nat.find_min ends before ⟨before.trans inside, stopped⟩
    have comes : ComesTo signature root (Nat.find ends) :=
      ⟨inside, fun k before => (earlier k before).1, fun k before => (earlier k before).2⟩
    by_cases passes : Passes signature root (Nat.find ends)
    · exact .inl ⟨_, comes, passes, not_not.mp fun differs => stops ⟨passes, differs⟩⟩
    · exact .inr (.inr ⟨_, comes, passes⟩)
  · refine .inr (.inl fun i inside => ?_)
    by_contra stops
    exact ends ⟨i, inside, stops⟩

theorem Passes.table_ne_null (passes : Passes signature root i) : higherHalf (root.word i) ≠ 0 := by
  have low := passes.table.low
  have present := passes.table.present
  unfold higherHalf
  omega

theorem acpiFindTable_found_iff : (∃ sdt, acpiFindTable signature root = some sdt ∧ sdt ≠ 0) ↔
    ∃ i, Finds signature root i := by
  constructor
  · intro found
    obtain ⟨sdt, returned, present⟩ := found
    rcases search_cases signature root with finds | missed | ⟨i, comes, stops⟩
    · exact finds
    · rw [acpiFindTable_missed missed] at returned
      cases returned
      exact absurd rfl present
    · rw [comes.halts stops] at returned
      cases returned
  · intro finds
    obtain ⟨i, finds⟩ := finds
    exact ⟨_, finds.returned, finds.passes.table_ne_null⟩

theorem acpiFindTable_isSome : (acpiFindTable signature root).isSome ↔
    ∀ i, ComesTo signature root i → Passes signature root i := by
  constructor
  · intro returns i comes
    by_contra stops
    rw [comes.halts stops] at returns
    cases returns
  · intro passes
    rcases search_cases signature root with ⟨i, finds⟩ | missed | ⟨i, comes, stops⟩
    · rw [finds.returned]
      rfl
    · rw [acpiFindTable_missed missed]
      rfl
    · exact absurd (passes i comes) stops

/-! Right answers -/

theorem exists_firstMatch {other : Nat} (member : other ∈ addresses) (carries : Carries signature root other) :
    ∃ i address, FirstMatch signature root addresses i address := by
  classical
  have some_match : ∃ i : Nat, ∃ address, addresses[i]? = some address ∧ Carries signature root address := by
    obtain ⟨i, inside, here⟩ := List.mem_iff_getElem.mp member
    exact ⟨i, other, List.getElem?_eq_some_iff.mpr ⟨inside, here⟩, carries⟩
  obtain ⟨address, listed, carries⟩ := Nat.find_spec some_match
  exact ⟨_, address, listed, carries, fun j before other here carried =>
    Nat.find_min some_match before ⟨other, here, carried⟩⟩

namespace FirstMatch

variable (matching : FirstMatch signature root addresses i address)
include matching

theorem inside : i < addresses.length := (List.getElem?_eq_some_iff.mp matching.listed).1

theorem mem : address ∈ addresses := List.mem_of_getElem? matching.listed

theorem unique {j other : Nat} (again : FirstMatch signature root addresses j other) : i = j ∧ address = other := by
  have same : i = j := by
    rcases Nat.lt_trichotomy i j with sooner | same | later
    · exact absurd matching.carries (again.first i sooner address matching.listed)
    · exact same
    · exact absurd again.carries (matching.first j later other again.listed)
  exact ⟨same, Option.some.inj (matching.listed.symm.trans (same ▸ again.listed))⟩

theorem answers (returned : acpiFindTable signature root = some (higherHalf address)) (accessible : Accessible signature root address) :
    Answers signature root addresses := by
  refine ⟨fun j other again => ?_, ?_⟩
  · rw [← (matching.unique again).2]
    exact returned
  · have low := accessible.low
    have present : higherHalf address ≠ 0 := by
      unfold higherHalf
      omega
    rw [returned, Option.some_inj]
    exact iff_of_false present fun none => none address matching.mem matching.carries

end FirstMatch

theorem answers_of_none (none : ∀ address ∈ addresses, ¬ Carries signature root address)
    (returned : acpiFindTable signature root = some 0) : Answers signature root addresses :=
  ⟨fun _ _ matching => absurd matching.carries (none _ matching.mem), iff_of_true returned none⟩

theorem Answers.isSome (answers : Answers signature root addresses) : (acpiFindTable signature root).isSome := by
  by_cases some_match : ∃ i address, FirstMatch signature root addresses i address
  · obtain ⟨i, address, matching⟩ := some_match
    rw [answers.found i address matching]
    rfl
  · rw [answers.null.mpr fun address member carries => some_match (exists_firstMatch member carries)]
    rfl

/-! The two formats -/

section Rsdt

variable (plain : root.useXsdt = false) (lists : Lists root addresses)
include plain lists

theorem rsdt_entries : root.entries = addresses.length := by
  have length := lists.length
  have bound := @Bytes.load32_lt root.memory (root.sdt + 4)
  rw [plain] at length
  rw [Root.entries, plain]
  unfold Root.tableSize sizeofSdt at *
  simp only [Bool.false_eq_true, if_false] at length ⊢
  omega

theorem rsdt_word (listed : addresses[i]? = some address) : root.word i = address := by
  have entry := lists.entries i address listed
  rwa [Root.entry, plain] at entry

theorem rsdt_passes (listed : addresses[i]? = some address) :
    Passes signature root i ↔ Accessible signature root address := by
  have length := lists.length
  have placed := lists.placed
  have inside := (List.getElem?_eq_some_iff.mp listed).1
  rw [plain] at length
  simp only [Bool.false_eq_true, if_false] at length
  have slot : root.sdt + sizeofSdt + 4 * i < 2 ^ 32 := by omega
  rw [← rsdt_word plain lists listed]
  exact ⟨Passes.table, fun table => ⟨slot, table⟩⟩

theorem rsdt_listed (inside : i < root.entries) : ∃ address, addresses[i]? = some address ∧ root.word i = address := by
  rw [rsdt_entries plain lists] at inside
  exact ⟨_, List.getElem?_eq_getElem inside, rsdt_word plain lists (List.getElem?_eq_getElem inside)⟩

theorem rsdt_answers : Answers signature root addresses ↔ (acpiFindTable signature root).isSome := by
  refine ⟨Answers.isSome, fun returns => ?_⟩
  rcases search_cases signature root with ⟨i, finds⟩ | missed | ⟨i, comes, stops⟩
  · obtain ⟨address, listed, word⟩ := rsdt_listed plain lists finds.comes.inside
    have returned := finds.returned
    have accessible := finds.passes.table
    rw [word] at returned accessible
    refine FirstMatch.answers ⟨listed, word ▸ finds.carries, fun j before other here => ?_⟩ returned accessible
    rw [← rsdt_word plain lists here]
    exact finds.comes.differ j before
  · refine answers_of_none (fun address member => ?_) (acpiFindTable_missed missed)
    obtain ⟨i, inside, here⟩ := List.mem_iff_getElem.mp member
    rw [← rsdt_word plain lists (List.getElem?_eq_some_iff.mpr ⟨inside, here⟩)]
    exact (missed i (by rwa [rsdt_entries plain lists])).2
  · rw [comes.halts stops] at returns
    cases returns

theorem rsdt_searchable : (acpiFindTable signature root).isSome ↔ Searchable signature root addresses := by
  rw [acpiFindTable_isSome]
  constructor
  · intro passes i
    induction i using Nat.strong_induction_on with
    | h i ih =>
        intro address listed first
        have inside := (List.getElem?_eq_some_iff.mp listed).1
        refine (rsdt_passes plain lists listed).mp (passes i ⟨?_, fun j before => ?_, fun j before => ?_⟩)
        · rwa [rsdt_entries plain lists]
        · have here := List.getElem?_eq_getElem (before.trans inside)
          exact (rsdt_passes plain lists here).mpr (ih j before _ here fun k earlier => first k (earlier.trans before))
        · have here := List.getElem?_eq_getElem (before.trans inside)
          rw [rsdt_word plain lists here]
          exact first j before _ here
  · intro searchable i comes
    obtain ⟨address, listed, _⟩ := rsdt_listed plain lists comes.inside
    refine (rsdt_passes plain lists listed).mpr (searchable i address listed fun j before other here => ?_)
    rw [← rsdt_word plain lists here]
    exact comes.differ j before

end Rsdt

section Xsdt

variable (extended : root.useXsdt = true) (lists : Lists root addresses)
include extended lists

theorem xsdt_entries : root.entries = addresses.length := by
  have length := lists.length
  have bound := @Bytes.load32_lt root.memory (root.sdt + 4)
  rw [extended] at length
  rw [Root.entries, extended]
  unfold Root.tableSize sizeofSdt at *
  simp only [if_true] at length ⊢
  omega

/-- The first two words are the halves of the first entry. -/
theorem xsdt_words (listed : addresses[0]? = some address) : root.word 0 = address ∧ root.word 1 = 0 := by
  have entry := lists.entries 0 address listed
  rw [Root.entry, extended, if_pos rfl, Bytes.load64_eq (lists.below address (List.mem_of_getElem? listed))] at entry
  exact entry

theorem xsdt_passes (listed : addresses[0]? = some address) :
    Passes signature root 0 ↔ Accessible signature root address := by
  have length := lists.length
  have placed := lists.placed
  have inside := (List.getElem?_eq_some_iff.mp listed).1
  rw [extended] at length
  simp only [if_true] at length
  have slot : root.sdt + sizeofSdt + 4 * 0 < 2 ^ 32 := by omega
  rw [← (xsdt_words extended lists listed).1]
  exact ⟨Passes.table, fun table => ⟨slot, table⟩⟩

theorem xsdt_listed (inside : i < root.entries) : ∃ address, addresses[0]? = some address := by
  rw [xsdt_entries extended lists] at inside
  exact ⟨_, List.getElem?_eq_getElem (Nat.zero_lt_of_lt inside)⟩

/-- Behind the first entry the search meets the upper half of its address, and halts. -/
theorem xsdt_second (inside : 1 < root.entries) : ¬ Passes signature root 1 := by
  intro passes
  obtain ⟨address, listed⟩ := xsdt_listed extended lists inside
  exact passes.table.present (xsdt_words extended lists listed).2

theorem xsdt_answers : Answers signature root addresses ↔ (acpiFindTable signature root).isSome := by
  refine ⟨Answers.isSome, fun returns => ?_⟩
  rcases search_cases signature root with ⟨i, finds⟩ | missed | ⟨i, comes, stops⟩
  · have first : i = 0 := by
      by_contra later
      have inside := finds.comes.inside
      refine xsdt_second extended lists (by omega) (?_ : Passes signature root 1)
      by_cases second : i = 1
      · exact second ▸ finds.passes
      · exact finds.comes.passes 1 (by omega)
    subst first
    obtain ⟨address, listed⟩ := xsdt_listed extended lists finds.comes.inside
    have returned := finds.returned
    have accessible := finds.passes.table
    have word := (xsdt_words extended lists listed).1
    rw [word] at returned accessible
    exact FirstMatch.answers ⟨listed, word ▸ finds.carries, nofun⟩ returned accessible
  · refine answers_of_none (fun address member => ?_) (acpiFindTable_missed missed)
    obtain ⟨i, inside, here⟩ := List.mem_iff_getElem.mp member
    have few : addresses.length ≤ 1 := by
      by_contra several
      rw [← xsdt_entries extended lists] at several
      exact xsdt_second extended lists (by omega) (missed 1 (by omega)).1
    have first : i = 0 := by omega
    subst first
    rw [← (xsdt_words extended lists (List.getElem?_eq_some_iff.mpr ⟨inside, here⟩)).1]
    exact (missed 0 (by rwa [xsdt_entries extended lists])).2
  · rw [comes.halts stops] at returns
    cases returns

theorem xsdt_searchable : (acpiFindTable signature root).isSome ↔
    Searchable signature root addresses ∧ FirstCarries signature root addresses := by
  have entries := xsdt_entries extended lists
  rw [acpiFindTable_isSome]
  constructor
  · intro passes
    have first : FirstCarries signature root addresses := by
      intro several address listed
      by_contra differs
      refine xsdt_second extended lists (by omega) (passes 1 ⟨by omega, fun j before => ?_, fun j before => ?_⟩)
      · have zero : j = 0 := by omega
        subst zero
        exact passes 0 ⟨by omega, nofun, nofun⟩
      · have zero : j = 0 := by omega
        subst zero
        rwa [(xsdt_words extended lists listed).1]
    refine ⟨fun i address listed none => ?_, first⟩
    have inside := (List.getElem?_eq_some_iff.mp listed).1
    have zero : i = 0 := by
      by_contra later
      have here := List.getElem?_eq_getElem (Nat.zero_lt_of_lt inside)
      exact none 0 (by omega) _ here (first (by omega) _ here)
    subst zero
    exact (xsdt_passes extended lists listed).mp (passes 0 ⟨by omega, nofun, nofun⟩)
  · intro reach i comes
    obtain ⟨searchable, first⟩ := reach
    have inside := comes.inside
    obtain ⟨address, listed⟩ := xsdt_listed extended lists inside
    have zero : i = 0 := by
      by_contra later
      refine comes.differ 0 (by omega) ?_
      rw [(xsdt_words extended lists listed).1]
      exact first (by omega) address listed
    subst zero
    exact (xsdt_passes extended lists listed).mpr (searchable 0 address listed nofun)

end Xsdt

/-- An RSDT and an XSDT that list the same tables answer alike exactly when the tables in front
of the one looked for are accessible and the XSDT has it as its first entry, or one entry at most. -/
theorem acpi_lookup_same (plain : rsdt.useXsdt = false) (extended : xsdt.useXsdt = true)
    (left : Lists rsdt addresses) (right : Lists xsdt addresses)
    (same : ∀ address ∈ addresses, Carries signature rsdt address ↔ Carries signature xsdt address) :
    (Answers signature rsdt addresses ∧ Answers signature xsdt addresses ∧
      acpiFindTable signature rsdt = acpiFindTable signature xsdt) ↔
    Searchable signature rsdt addresses ∧ Searchable signature xsdt addresses ∧ FirstCarries signature xsdt addresses := by
  rw [rsdt_answers plain left, xsdt_answers extended right, rsdt_searchable plain left, xsdt_searchable extended right]
  refine ⟨fun all => ⟨all.1, all.2.1⟩, fun reach => ⟨reach.1, reach.2, ?_⟩⟩
  have plainly := (rsdt_answers plain left).mpr ((rsdt_searchable plain left).mpr reach.1)
  have extendedly := (xsdt_answers extended right).mpr ((xsdt_searchable extended right).mpr reach.2)
  by_cases some_match : ∃ i address, FirstMatch signature rsdt addresses i address
  · obtain ⟨i, address, matching⟩ := some_match
    have moved : FirstMatch signature xsdt addresses i address := by
      refine ⟨matching.listed, (same address matching.mem).mp matching.carries, fun j before other listed carries => ?_⟩
      exact matching.first j before other listed ((same other (List.mem_of_getElem? listed)).mpr carries)
    rw [plainly.found i address matching, extendedly.found i address moved]
  · have none : ∀ address ∈ addresses, ¬ Carries signature rsdt address :=
      fun address member carries => some_match (exists_firstMatch member carries)
    rw [plainly.null.mpr none, extendedly.null.mpr fun address member => mt (same address member).mpr (none address member)]

/-! Two tables, the MADT the second of them -/

/-- The root table at 0x1000 lists the tables "FACP" at 0x2000 and "APIC" at 0x3000;
the strings that are looked for lie at 0x500 and 0x504. -/
def twoTables (useXsdt : Bool) : Root where
  memory := .holding [(0x500, [0x46, 0x41, 0x43, 0x50]), (0x504, [0x41, 0x50, 0x49, 0x43]),
    (0xC0002000, [0x46, 0x41, 0x43, 0x50]), (0xC0003000, [0x41, 0x50, 0x49, 0x43]),
    (0xC0001004, if useXsdt then [52, 0, 0, 0] else [44, 0, 0, 0]),
    (0xC0001024, if useXsdt then [0, 0x20, 0, 0, 0, 0, 0, 0, 0, 0x30, 0, 0, 0, 0, 0, 0] else [0, 0x20, 0, 0, 0, 0x30, 0, 0])]
  useXsdt
  sdt := 0xC0001000

theorem twoTables_lists (useXsdt : Bool) : Lists (twoTables useXsdt) [0x2000, 0x3000] where
  length := by cases useXsdt <;> decide
  placed := by cases useXsdt <;> decide
  entries := by
    intro i address listed
    match i with
    | 0 => cases listed; cases useXsdt <;> decide
    | 1 => cases listed; cases useXsdt <;> decide
    | i + 2 => cases listed
  below := by decide

theorem acpi_lookup_same_first : Answers 0x500 (twoTables false) [0x2000, 0x3000] ∧
    Answers 0x500 (twoTables true) [0x2000, 0x3000] ∧
    acpiFindTable 0x500 (twoTables false) = acpiFindTable 0x500 (twoTables true) := by
  refine (acpi_lookup_same rfl rfl (twoTables_lists false) (twoTables_lists true) (by decide)).mpr ?_
  have searchable := (rsdt_searchable rfl (twoTables_lists false)).mp (by decide : (acpiFindTable 0x500 _).isSome)
  exact ⟨searchable, (xsdt_searchable rfl (twoTables_lists true)).mp (by decide)⟩

/-- The second one is found in the RSDT only: the XSDT's second word is the upper
half of its first entry, 0, where the search halts. -/
theorem acpiFindTable_misses_second : Lists (twoTables true) [0x2000, 0x3000] ∧
    Answers 0x504 (twoTables false) [0x2000, 0x3000] ∧ acpiFindTable 0x504 (twoTables true) = none ∧
    ¬ Answers 0x504 (twoTables true) [0x2000, 0x3000] := by
  have halted : acpiFindTable 0x504 (twoTables true) = none := by decide
  refine ⟨twoTables_lists true, (rsdt_answers rfl (twoTables_lists false)).mpr (by decide), halted, fun answers => ?_⟩
  have returned := answers.isSome
  rw [halted] at returned
  cases returned

end BarrelOS.Acpi
