import Mathlib.Data.Set.Pairwise.Basic
import Mathlib.Data.Set.Lattice
import Mathlib.Order.CompletePartialOrder

namespace BarrelOS.Data

variable {Resource Owner : Type} {extent other : Owner → Set Resource} {base used after : Set Resource}
  {live : Set Owner} {owner : Owner} {resource : Resource}

/-- Everything a live owner holds is in use, and no resource has two holders. -/
structure Owned (extent : Owner → Set Resource) (used : Set Resource) (live : Set Owner) : Prop where
  held : ∀ owner ∈ live, extent owner ⊆ used
  apart : live.PairwiseDisjoint extent

namespace Owned

theorem opened : Owned extent used ∅ where
  held := by simp
  apart := Set.pairwiseDisjoint_empty

theorem mono (owned : Owned extent used live) (kept : used ⊆ after) : Owned extent after live where
  held := fun owner member => (owned.held owner member).trans kept
  apart := owned.apart

theorem acquire (owned : Owned extent used live) (unused : Disjoint (extent owner) used)
    (kept : used ⊆ after) (taken : extent owner ⊆ after) : Owned extent after (insert owner live) where
  held := by
    intro other member
    rcases Set.mem_insert_iff.mp member with rfl | member
    · exact taken
    · exact (owned.held other member).trans kept
  apart := by
    refine owned.apart.insert ?_
    intro other member _
    exact unused.mono_right (owned.held other member)

theorem release (owned : Owned extent used live) (member : owner ∈ live)
    (kept : used \ extent owner ⊆ after) : Owned extent after (live \ {owner}) where
  held := by
    intro other member' resource inside
    have separate := owned.apart member member'.1 (Ne.symm member'.2)
    exact kept ⟨owned.held other member'.1 inside, Set.disjoint_right.mp separate inside⟩
  apart := owned.apart.subset Set.sdiff_subset

end Owned

/-- A ledger of everything in use: a resource is in use exactly when it was from
the start or a live owner holds it. -/
structure Ledger (extent : Owner → Set Resource) (base used : Set Resource) (live : Set Owner) : Prop
    extends Owned extent used live where
  reserved : base ⊆ used
  covered : ∀ resource ∈ used, resource ∈ base ∨ ∃ owner ∈ live, resource ∈ extent owner
  fresh : ∀ owner ∈ live, Disjoint (extent owner) base

namespace Ledger

theorem opened : Ledger extent base base ∅ where
  toOwned := Owned.opened
  reserved := Set.Subset.rfl
  covered := fun _ => .inl
  fresh := by simp

theorem used_iff (ledger : Ledger extent base used live) (resource : Resource) :
    resource ∈ used ↔ resource ∈ base ∨ ∃ owner ∈ live, resource ∈ extent owner := by
  constructor
  · exact ledger.covered resource
  · intro cases
    rcases cases with reserved | ⟨owner, member, inside⟩
    · exact ledger.reserved reserved
    · exact ledger.held owner member inside

theorem acquire (ledger : Ledger extent base used live) (unused : Disjoint (extent owner) used)
    (effect : after = used ∪ extent owner) : Ledger extent base after (insert owner live) where
  toOwned := ledger.toOwned.acquire unused (effect ▸ Set.subset_union_left) (effect ▸ Set.subset_union_right)
  reserved := ledger.reserved.trans (effect ▸ Set.subset_union_left)
  covered := by
    intro resource inside
    rw [effect] at inside
    rcases inside with already | taken
    · rcases ledger.covered resource already with reserved | ⟨other, member, held⟩
      · exact .inl reserved
      · exact .inr ⟨other, Set.mem_insert_of_mem _ member, held⟩
    · exact .inr ⟨owner, Set.mem_insert _ _, taken⟩
  fresh := by
    intro other member
    rcases Set.mem_insert_iff.mp member with rfl | member
    · exact unused.mono_right ledger.reserved
    · exact ledger.fresh other member

theorem release (ledger : Ledger extent base used live) (member : owner ∈ live)
    (effect : after = used \ extent owner) : Ledger extent base after (live \ {owner}) where
  toOwned := ledger.toOwned.release member (effect ▸ Set.Subset.rfl)
  reserved := by
    intro resource inside
    exact effect ▸ ⟨ledger.reserved inside, Set.disjoint_right.mp (ledger.fresh owner member) inside⟩
  covered := by
    intro resource inside
    rw [effect] at inside
    rcases ledger.covered resource inside.1 with reserved | ⟨other, member', held⟩
    · exact .inl reserved
    · refine .inr ⟨other, ⟨member', ?_⟩, held⟩
      intro same
      exact inside.2 (same ▸ held)
  fresh := fun other member' => ledger.fresh other member'.1

theorem settled (ledger : Ledger extent base used ∅) : used = base := by
  ext resource
  simp [ledger.used_iff]

end Ledger

end BarrelOS.Data
