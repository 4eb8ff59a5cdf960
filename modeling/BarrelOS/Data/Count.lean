import Mathlib.Data.Nat.Count
import Mathlib.Order.Interval.Finset.Nat

namespace BarrelOS.Data

/-! How many positions below a bound satisfy a predicate. -/

variable {old new : Nat → Prop} [DecidablePred old] [DecidablePred new] {first length bound : Nat}

/-- Adding an interval of new positions raises the count by its length. -/
theorem count_add_interval (grown : ∀ position, new position ↔ old position ∨ position ∈ Set.Ico first (first + length))
    (fresh : ∀ position ∈ Set.Ico first (first + length), ¬ old position) (inside : first + length ≤ bound) :
    Nat.count new bound = Nat.count old bound + length := by
  have split : {position ∈ Finset.range bound | new position} =
      {position ∈ Finset.range bound | old position} ∪ Finset.Ico first (first + length) := by
    ext position
    simp only [Finset.mem_filter, Finset.mem_range, Finset.mem_union, Finset.mem_Ico, grown, Set.mem_Ico]
    constructor
    · intro member
      exact member.2.imp_left fun before => ⟨member.1, before⟩
    · intro member
      rcases member with ⟨below, before⟩ | between
      · exact ⟨below, .inl before⟩
      · exact ⟨by omega, .inr between⟩
  have apart : Disjoint {position ∈ Finset.range bound | old position} (Finset.Ico first (first + length)) := by
    rw [Finset.disjoint_left]
    intro position member between
    exact fresh position (by simpa using between) (Finset.mem_filter.mp member).2
  rw [Nat.count_eq_card_filter_range, Nat.count_eq_card_filter_range, split, Finset.card_union_of_disjoint apart,
    Nat.card_Ico, Nat.add_sub_cancel_left]

theorem count_add_count_not (bound : Nat) :
    Nat.count old bound + Nat.count (fun position => ¬ old position) bound = bound := by
  rw [Nat.count_eq_card_filter_range, Nat.count_eq_card_filter_range, Finset.card_filter_add_card_filter_not,
    Finset.card_range]

end BarrelOS.Data
