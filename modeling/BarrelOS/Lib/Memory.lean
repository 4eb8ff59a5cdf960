import BarrelOS.Lib.Libc

namespace BarrelOS.Lib

open BarrelOS.Data

/-! What `memcpy`, `memmove` and `memset` leave -/

/-- The `n` addresses from one on. -/
def addresses (start n : Nat) : List Nat := (List.range n).map fun i => (start + i) % 2 ^ 32

variable {memory other : Bytes} {dest src s n place : Nat} {c : UInt8}

theorem mem_addresses : place ∈ addresses s n ↔ ∃ i < n, (s + i) % 2 ^ 32 = place := by
  simp only [addresses, List.mem_map, List.mem_range]

theorem memcpy_copies (dest src n : Nat) (memory : Bytes) :
    memcpy dest src n memory =
      copies (List.range n) (fun i => (src + i) % 2 ^ 32) (fun i => (dest + i) % 2 ^ 32) memory := rfl

/-- `memcpy` writes to these addresses only, and what it writes depends on those it copies from. -/
theorem memcpy_outside (outside : place ∉ addresses dest n) : memcpy dest src n memory place = memory place := by
  rw [memcpy_copies]
  exact copies_of_not_mem fun i inside same => outside (mem_addresses.mpr ⟨i, List.mem_range.mp inside, same⟩)

theorem memcpy_congr (same : ∀ read ∈ addresses src n, memory read = other read) (written : place ∈ addresses dest n) :
    memcpy dest src n memory place = memcpy dest src n other place := by
  obtain ⟨i, inside, here⟩ := mem_addresses.mp written
  subst here
  rw [memcpy_copies, memcpy_copies]
  refine copies_congr (fun j member => ?_) (List.mem_range.mpr inside)
  exact same _ (mem_addresses.mpr ⟨j, List.mem_range.mp member, rfl⟩)

theorem memset_places (s : Nat) (c : UInt8) (n : Nat) :
    ((List.range n).map fun i => ((s + i) % 2 ^ 32, c)).map Prod.fst = addresses s n := by
  rw [List.map_map, addresses]
  rfl

theorem memset_outside (outside : place ∉ addresses s n) : memset s c n memory place = memory place := by
  refine stores_of_not_mem ?_
  rwa [memset_places]

theorem memset_covers (written : place ∈ addresses s n) : memset s c n memory place = memset s c n other place := by
  refine stores_covered ?_
  rwa [memset_places]

theorem memset_apply (inside : s + n ≤ 2 ^ 32) :
    memset s c n memory place = if s ≤ place ∧ place < s + n then c else memory place := by
  have same : (List.range n).map (fun i => ((s + i) % 2 ^ 32, c)) = (List.range n).map fun i => (s + i, c) := by
    refine List.map_congr_left fun i member => ?_
    have fewer := List.mem_range.mp member
    rw [Nat.mod_eq_of_lt (by omega)]
  have filled : memset s c n memory = fill s n c memory := congrArg (stores memory) same
  rw [filled, fill_apply]

section

variable (read : src + n ≤ 2 ^ 32) (written : dest + n ≤ 2 ^ 32)
include read written

/-- Copying that reads and writes nothing again behind it, in any order of the places. -/
theorem copies_range {order : List Nat} (all : ∀ i, i ∈ order ↔ i < n)
    (ordered : order.Pairwise fun i j => dest + i ≠ src + j ∧ i ≠ j) :
    copies order (fun i => (src + i) % 2 ^ 32) (fun i => (dest + i) % 2 ^ 32) memory place =
      if dest ≤ place ∧ place < dest + n then memory (src + (place - dest)) else memory place := by
  have word : ∀ start i, start + n ≤ 2 ^ 32 → i < n → (start + i) % 2 ^ 32 = start + i :=
    fun start i bound fewer => Nat.mod_eq_of_lt (by omega)
  split
  · next inside =>
      have fewer : place - dest < n := by omega
      have target : (dest + (place - dest)) % 2 ^ 32 = place := by
        rw [word dest _ written fewer]
        omega
      have kept : order.Pairwise fun i j => (dest + i) % 2 ^ 32 ≠ (src + j) % 2 ^ 32 ∧ (dest + i) % 2 ^ 32 ≠ (dest + j) % 2 ^ 32 := by
        refine ordered.imp_of_mem fun {i j} first second apart => ?_
        have first := (all i).mp first
        have second := (all j).mp second
        rw [word dest i written first, word src j read second, word dest j written second]
        exact ⟨apart.1, fun same => apart.2 (Nat.add_left_cancel same)⟩
      have copied := @copies_of_mem _ _ _ memory order _ _ _ kept ((all _).mpr fewer)
      rwa [target, word src _ read fewer] at copied
  · next outside =>
      refine copies_of_not_mem fun i member same => outside ?_
      have fewer := (all i).mp member
      rw [word dest i written fewer] at same
      omega

/-- A forward copy keeps what it has still to read, unless it begins below its target. -/
theorem memcpy_apply (safe : dest ≤ src ∨ ∀ i < n, ∀ j < n, src + i ≠ dest + j) :
    memcpy dest src n memory place =
      if dest ≤ place ∧ place < dest + n then memory (src + (place - dest)) else memory place := by
  rw [memcpy_copies]
  refine copies_range read written (fun i => List.mem_range) ?_
  refine List.pairwise_lt_range.imp_of_mem fun {i j} first second before => ⟨fun same => ?_, Nat.ne_of_lt before⟩
  rcases safe with below | disjoint
  · omega
  · exact disjoint j (List.mem_range.mp second) i (List.mem_range.mp first) same.symm

/-- The direction of `memmove` keeps it for all ranges. -/
theorem memmove_apply :
    memmove dest src n memory place =
      if dest ≤ place ∧ place < dest + n then memory (src + (place - dest)) else memory place := by
  unfold memmove
  split
  · next above => exact memcpy_apply read written (.inl (Nat.le_of_lt above))
  · split
    · next below =>
        refine copies_range read written (fun i => List.mem_reverse.trans List.mem_range) ?_
        rw [List.pairwise_reverse]
        refine List.pairwise_lt_range.imp fun {i j} before => ⟨?_, Nat.ne_of_gt before⟩
        omega
    · have equal : src = dest := by omega
      split
      · next inside =>
          have same : src + (place - dest) = place := by omega
          rw [same]
      · rfl

/-- `memmove` copies between any two ranges, and `memcpy` between those that lie apart or in
the order in which `console_scroll` has them. -/
theorem memmove_moves :
    (∀ i < n, memmove dest src n memory (dest + i) = memory (src + i)) ∧
    (∀ place, ¬ (dest ≤ place ∧ place < dest + n) → memmove dest src n memory place = memory place) ∧
    ((dest ≤ src ∨ ∀ i < n, ∀ j < n, src + i ≠ dest + j) → memcpy dest src n memory = memmove dest src n memory) := by
  refine ⟨fun i fewer => ?_, fun place outside => ?_, fun safe => funext fun place => ?_⟩
  · rw [memmove_apply read written, if_pos ⟨Nat.le_add_right _ _, Nat.add_lt_add_left fewer dest⟩, Nat.add_sub_cancel_left]
  · rw [memmove_apply read written, if_neg outside]
  · rw [memcpy_apply read written safe, memmove_apply read written]

end

/-- Three bytes one place up, and one place down. -/
theorem memmove_moves_overlapping : memmove 0x1001 0x1000 3 UInt8.ofNat 0x1003 = 0x02 ∧
    memcpy 0x1000 0x1001 3 UInt8.ofNat = memmove 0x1000 0x1001 3 UInt8.ofNat :=
  ⟨(memmove_moves (by decide) (by decide)).1 2 (by decide), (memmove_moves (by decide) (by decide)).2.2 (.inl (by decide))⟩

end BarrelOS.Lib
