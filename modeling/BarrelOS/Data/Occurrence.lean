import Mathlib.Logic.Basic

namespace BarrelOS.Data

/-! Where a list occurs first in another -/

variable {Item : Type} {needle text front : List Item} {item : Item} {found : Option Nat}

/-- The least place at which the rest of a text begins with a list, if there is one. -/
structure FirstAt (needle text : List Item) (found : Option Nat) : Prop where
  least : ∀ k, found = some k ↔ needle <+: text.drop k ∧ ∀ j < k, ¬ needle <+: text.drop j
  absent : found = none ↔ ¬ needle <:+: text

namespace FirstAt

theorem unique {other : Option Nat} (first : FirstAt needle text found) (second : FirstAt needle text other) : found = other :=
  Option.ext fun k => (first.least k).trans (second.least k).symm

theorem here (begins : needle <+: text) : FirstAt needle text (some 0) where
  least := by
    intro k
    constructor
    · intro same
      cases same
      exact ⟨begins, nofun⟩
    · intro occurs
      rcases Nat.eq_zero_or_pos k with zero | later
      · rw [zero]
      · exact absurd begins (occurs.2 0 later)
  absent := iff_of_false nofun (not_not.mpr begins.isInfix)

theorem nil (some_item : needle ≠ []) : FirstAt needle [] none where
  least := by
    intro k
    refine iff_of_false nofun fun occurs => some_item ?_
    rw [List.drop_nil] at occurs
    exact List.prefix_nil.mp occurs.1
  absent := iff_of_true rfl (mt List.infix_nil.mp some_item)

/-- A list that the text does not begin with occurs behind its first item. -/
theorem cons (other : ¬ needle <+: item :: text) (first : FirstAt needle text found) :
    FirstAt needle (item :: text) (found.map (1 + ·)) where
  least := by
    intro k
    cases k with
    | zero =>
        refine iff_of_false (fun same => ?_) fun occurs => other occurs.1
        cases found with
        | none => cases same
        | some k =>
            have place : 1 + k = 0 := Option.some.inj same
            omega
    | succ k =>
        have shifted : found.map (1 + ·) = some (k + 1) ↔ found = some k := by
          cases found with
          | none => exact iff_of_false nofun nofun
          | some place =>
              rw [Option.map_some, Option.some_inj, Option.some_inj]
              omega
        rw [shifted, first.least, Nat.forall_lt_succ_left]
        exact and_congr_right fun _ => (and_iff_right other).symm
  absent := by
    rw [Option.map_eq_none_iff, first.absent, List.infix_cons_iff, not_or, and_iff_right other]

theorem behind (outside : item ∉ front) (first : FirstAt (item :: needle) text found) :
    FirstAt (item :: needle) (front ++ text) (found.map (front.length + ·)) := by
  induction front with
  | nil =>
      have same : found.map (0 + ·) = found := by
        cases found with
        | none => rfl
        | some k => rw [Option.map_some, Nat.zero_add]
      rw [List.nil_append, List.length_nil, same]
      exact first
  | cons other front ih =>
      obtain ⟨apart, others⟩ := not_or.mp (mt List.mem_cons.mpr outside)
      have begins : ¬ item :: needle <+: other :: (front ++ text) := fun begins => apart (List.cons_prefix_cons.mp begins).1
      have later := (ih others).cons begins
      rw [Option.map_map] at later
      have place : (fun k => 1 + k) ∘ (front.length + ·) = ((other :: front).length + ·) := by
        funext k
        rw [Function.comp_apply, List.length_cons]
        omega
      rwa [place] at later

end FirstAt

end BarrelOS.Data
