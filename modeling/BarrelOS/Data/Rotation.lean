import Mathlib.Data.List.Chain
import Mathlib.Data.List.Rotate

namespace BarrelOS.Data

/-! Taking turns: the entries of a list one after another, and the first again after the last. -/

variable {α : Type} {entries sequence : List α} {entry next : α} {start k : Nat}

/-- One entry comes right after another, modulo the length of the list. -/
def Follows (entries : List α) (entry next : α) : Prop :=
  ∃ i, entries[i]? = some entry ∧ entries[(i + 1) % entries.length]? = some next

theorem Follows.next_getElem (distinct : entries.Nodup) (here : entries[k]? = some entry)
    (follows : Follows entries entry next) :
    entries[(k + 1) % entries.length]? = some next := by
  obtain ⟨i, at_i, there⟩ := follows
  have inside : i < entries.length := (List.getElem?_eq_some_iff.mp at_i).1
  have same : i = k := (List.getElem?_inj inside distinct).mp (at_i.trans here.symm)
  exact same ▸ there

/-- In a sequence of turns the entry at each place is known from the first one. -/
theorem chain_getElem (distinct : entries.Nodup) (chain : sequence.IsChain (Follows entries))
    (first : sequence[0]? = entries[start % entries.length]?) (inside : k < sequence.length) :
    sequence[k]? = entries[(start + k) % entries.length]? := by
  induction k with
  | zero => exact first
  | succ k ih =>
      have here := ih (by omega)
      have follows : Follows entries sequence[k] sequence[k + 1] := chain.getElem k inside
      rw [List.getElem?_eq_getElem (by omega)] at here
      have there := follows.next_getElem distinct here.symm
      rw [Nat.mod_add_mod] at there
      rw [List.getElem?_eq_getElem inside, ← there, Nat.add_assoc]

/-- As many turns in a row as there are entries take each of them once, in order. -/
theorem isRotated_of_chain (distinct : entries.Nodup) (chain : sequence.IsChain (Follows entries))
    (known : ∀ entry ∈ sequence, entry ∈ entries) (length : sequence.length = entries.length) :
    entries ~r sequence := by
  cases sequence with
  | nil =>
      have empty : entries = [] := List.length_eq_zero_iff.mp length.symm
      rw [empty]
  | cons entry rest =>
      obtain ⟨start, bound, here⟩ := List.mem_iff_getElem.mp (known entry List.mem_cons_self)
      have first : (entry :: rest)[0]? = entries[start % entries.length]? := by
        rw [Nat.mod_eq_of_lt bound, List.getElem?_eq_getElem bound, here]
        rfl
      refine ⟨start, List.ext_getElem? fun k => ?_⟩
      by_cases inside : k < (entry :: rest).length
      · rw [chain_getElem distinct chain first inside, List.getElem?_rotate (length ▸ inside),
          Nat.add_comm k start]
      · rw [List.getElem?_eq_none (by rw [List.length_rotate]; omega), List.getElem?_eq_none (by omega)]

end BarrelOS.Data
