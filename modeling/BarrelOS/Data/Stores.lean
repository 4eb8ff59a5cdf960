import Mathlib.Logic.Function.Basic

namespace BarrelOS.Data

/-! Writes to an array or a memory, one after the other. -/

variable {Index Value : Type} [DecidableEq Index] {memory other : Index → Value} {i : Index} {value : Value}
  {writes first second : List (Index × Value)}

def stores (memory : Index → Value) (writes : List (Index × Value)) : Index → Value :=
  writes.foldl (fun memory write => Function.update memory write.1 write.2) memory

theorem stores_cons (write : Index × Value) :
    stores memory (write :: writes) = stores (Function.update memory write.1 write.2) writes := rfl

theorem stores_append : stores memory (first ++ second) = stores (stores memory first) second := List.foldl_append

theorem stores_of_not_mem (outside : i ∉ writes.map Prod.fst) : stores memory writes i = memory i := by
  induction writes generalizing memory with
  | nil => rfl
  | cons write rest ih =>
      obtain ⟨apart, later⟩ := not_or.mp (mt List.mem_cons.mpr outside)
      exact (ih later).trans (Function.update_of_ne apart _ _)

theorem stores_covered (covered : i ∈ writes.map Prod.fst) : stores memory writes i = stores other writes i := by
  induction writes generalizing memory other with
  | nil => cases covered
  | cons write rest ih =>
      rw [stores_cons, stores_cons]
      by_cases later : i ∈ rest.map Prod.fst
      · exact ih later
      · have here : i = write.1 := (List.mem_cons.mp covered).resolve_right later
        rw [stores_of_not_mem later, stores_of_not_mem later, here, Function.update_self, Function.update_self]

theorem stores_congr (agree : ∀ i, memory i = other i ∨ i ∈ writes.map Prod.fst) :
    stores memory writes = stores other writes := by
  funext i
  by_cases covered : i ∈ writes.map Prod.fst
  · exact stores_covered covered
  · rw [stores_of_not_mem covered, stores_of_not_mem covered]
    exact (agree i).resolve_right covered

theorem stores_of_forall (written : i ∈ writes.map Prod.fst) (all : ∀ write ∈ writes, write.1 = i → write.2 = value) :
    stores memory writes i = value := by
  induction writes generalizing memory with
  | nil => cases written
  | cons write rest ih =>
      obtain ⟨first, others⟩ := List.forall_mem_cons.mp all
      rw [stores_cons]
      by_cases later : i ∈ rest.map Prod.fst
      · exact ih later others
      · have here : i = write.1 := (List.mem_cons.mp written).resolve_right later
        rw [stores_of_not_mem later, here, Function.update_self, first here.symm]

theorem stores_overwritten (covered : first.map Prod.fst ⊆ second.map Prod.fst) :
    stores (stores memory first) second = stores memory second := by
  refine stores_congr fun i => ?_
  by_cases written : i ∈ first.map Prod.fst
  · exact .inr (covered written)
  · exact .inl (stores_of_not_mem written)

/-! Copies within a memory, in any order -/

section

variable {order : List Nat} {source target : Nat → Index} {n : Nat}

/-- For each number in turn, copy what lies at its source to its target. -/
def copies (order : List Nat) (source target : Nat → Index) (memory : Index → Value) : Index → Value :=
  order.foldl (fun memory n => Function.update memory (target n) (memory (source n))) memory

theorem copies_cons : copies (n :: order) source target memory =
    copies order source target (Function.update memory (target n) (memory (source n))) := rfl

theorem copies_of_not_mem (outside : ∀ n ∈ order, target n ≠ i) : copies order source target memory i = memory i := by
  induction order generalizing memory with
  | nil => rfl
  | cons n order ih =>
      obtain ⟨apart, later⟩ := List.forall_mem_cons.mp outside
      rw [copies_cons, ih later, Function.update_of_ne apart.symm]

/-- An order in which nothing is read or written again behind its target keeps all that was at the sources. -/
theorem copies_of_mem (ordered : order.Pairwise fun n m => target n ≠ source m ∧ target n ≠ target m) (member : n ∈ order) :
    copies order source target memory (target n) = memory (source n) := by
  induction order generalizing memory with
  | nil => cases member
  | cons first order ih =>
      obtain ⟨fresh, ordered⟩ := List.pairwise_cons.mp ordered
      rw [copies_cons]
      rcases List.mem_cons.mp member with here | later
      · subst here
        rw [copies_of_not_mem fun m behind => (fresh m behind).2.symm, Function.update_self]
      · rw [ih ordered later, Function.update_of_ne (fresh n later).1.symm]

theorem copies_congr (same : ∀ n ∈ order, memory (source n) = other (source n)) (member : n ∈ order) :
    copies order source target memory (target n) = copies order source target other (target n) := by
  have agree : ∀ {order : List Nat} {memory other : Index → Value}, (∀ n ∈ order, memory (source n) = other (source n)) →
      ∀ i, memory i = other i ∨ (∃ n ∈ order, target n = i) →
        copies order source target memory i = copies order source target other i := by
    intro order
    induction order with
    | nil => exact fun _ i agreed => agreed.resolve_right nofun
    | cons first order ih =>
        intro memory other same i agreed
        rw [copies_cons, copies_cons]
        obtain ⟨here, others⟩ := List.forall_mem_cons.mp same
        refine ih (fun n behind => ?_) i ?_
        · simp only [Function.update_apply, here, others n behind]
        · by_cases written : i = target first
          · rw [written, Function.update_self, Function.update_self]
            exact .inl here
          · rw [Function.update_of_ne written, Function.update_of_ne written]
            refine agreed.imp_right fun later => ?_
            obtain ⟨n, place, same⟩ := later
            exact ⟨n, (List.mem_cons.mp place).resolve_left fun first => written (first ▸ same.symm), same⟩
  exact agree same _ (.inr ⟨n, member, rfl⟩)

end

/-! Arrays -/

variable {array : Nat → Value} {start count distance place : Nat}

/-- `for (i = 0; i < count; i++) array[start + i] = value`. -/
def fill (start count : Nat) (value : Value) (array : Nat → Value) : Nat → Value :=
  stores array ((List.range count).map fun i => (start + i, value))

theorem fill_apply : fill start count value array place =
    if start ≤ place ∧ place < start + count then value else array place := by
  induction count with
  | zero => rw [if_neg (by omega), fill, List.range_zero, List.map_nil, stores, List.foldl_nil]
  | succ count ih =>
      rw [fill, List.range_succ, List.map_append, stores_append]
      change Function.update (fill start count value array) (start + count) value place = _
      rw [Function.update_apply, ih]
      split
      · rw [if_pos (by omega)]
      · exact if_congr (by omega) rfl rfl

/-- `for (i = 0; i < count; i++) array[i] = array[i + distance]`. -/
def shiftDown (distance count : Nat) (array : Nat → Value) : Nat → Value :=
  (List.range count).foldl (fun array i => Function.update array i (array (i + distance))) array

/-- The loop reads only places it has not written to. -/
theorem shiftDown_apply : shiftDown distance count array place =
    if place < count then array (place + distance) else array place := by
  have copied : shiftDown distance count array = copies (List.range count) (· + distance) id array := rfl
  rw [copied]
  split
  · next inside =>
      have ordered : (List.range count).Pairwise fun i j => id i ≠ j + distance ∧ id i ≠ id j := by
        refine List.pairwise_lt_range.imp fun before => ⟨?_, Nat.ne_of_lt before⟩
        exact Nat.ne_of_lt (Nat.lt_of_lt_of_le before (Nat.le_add_right _ _))
      exact copies_of_mem ordered (List.mem_range.mpr inside)
  · next outside => exact copies_of_not_mem fun i inside same => outside (same ▸ List.mem_range.mp inside)

end BarrelOS.Data
