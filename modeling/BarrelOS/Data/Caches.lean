import BarrelOS.Data.Directory
import Mathlib.Data.Set.Insert

namespace BarrelOS.Data

/-- What is remembered of a two-level map: frames that slots have had, and entries that were looked up. -/
structure Caches (Slot Index Frame Entry : Type) where
  roots : Set (Slot × Frame)
  entries : Set (Slot × Index × Entry)

namespace Caches

variable {Slot Index Frame Entry : Type} {directory : Directory Slot Index Frame Entry} {caches after : Caches Slot Index Frame Entry}
  {slot other : Slot} {index position : Index} {frame : Frame} {entry : Entry} {old written : Option Entry}

def empty : Caches Slot Index Frame Entry := ⟨∅, ∅⟩

/-- A lookup may start from a remembered frame, and its result may be remembered. -/
def Finds (directory : Directory Slot Index Frame Entry) (caches : Caches Slot Index Frame Entry) (slot : Slot) (index : Index)
    (entry : Entry) : Prop :=
  (slot, index, entry) ∈ caches.entries ∨
    ∃ frame, (directory.root slot = some frame ∨ (slot, frame) ∈ caches.roots) ∧ directory.table frame index = some entry

/-- At any time what is found may be remembered, and anything may be forgotten. -/
inductive Fills (directory : Directory Slot Index Frame Entry) (caches : Caches Slot Index Frame Entry) :
    Caches Slot Index Frame Entry → Prop
  | root {slot : Slot} {frame : Frame} (found : directory.root slot = some frame) :
      Fills directory caches { caches with roots := insert (slot, frame) caches.roots }
  | entry {slot : Slot} {index : Index} {entry : Entry} (found : Finds directory caches slot index entry) :
      Fills directory caches { caches with entries := insert (slot, index, entry) caches.entries }
  | forget {after : Caches Slot Index Frame Entry} (roots : after.roots ⊆ caches.roots) (entries : after.entries ⊆ caches.entries) :
      Fills directory caches after

/-- All frames are forgotten, and the entries of one place. -/
def flush (caches : Caches Slot Index Frame Entry) (slot : Slot) (index : Index) : Caches Slot Index Frame Entry where
  roots := ∅
  entries := { remembered ∈ caches.entries | ¬ (remembered.1 = slot ∧ remembered.2.1 = index) }

structure Coherent (directory : Directory Slot Index Frame Entry) (caches : Caches Slot Index Frame Entry) : Prop where
  roots : ∀ slot frame, (slot, frame) ∈ caches.roots → directory.root slot = some frame
  entries : ∀ slot index entry, (slot, index, entry) ∈ caches.entries → directory.lookup slot index = some entry

/-- One place was written and not flushed yet, and slots may have lost tables without entries. -/
structure Settling (slot : Slot) (index : Index) (old : Option Entry) (directory : Directory Slot Index Frame Entry)
    (caches : Caches Slot Index Frame Entry) : Prop where
  roots : ∀ other frame, (other, frame) ∈ caches.roots →
    directory.root other = some frame ∨ ∀ position, directory.table frame position = none
  entries : ∀ other position entry, (other, position, entry) ∈ caches.entries →
    directory.lookup other position = some entry ∨ other = slot ∧ position = index ∧ old = some entry

theorem coherent_empty : Coherent directory (empty : Caches Slot Index Frame Entry) := ⟨fun _ _ member => member.elim, fun _ _ _ member => member.elim⟩

namespace Coherent

theorem finds_iff (coherent : Coherent directory caches) :
    Finds directory caches slot index entry ↔ directory.lookup slot index = some entry := by
  constructor
  · rintro (remembered | ⟨frame, root | root, found⟩)
    · exact coherent.entries slot index entry remembered
    · exact Option.bind_eq_some_iff.mpr ⟨frame, root, found⟩
    · exact Option.bind_eq_some_iff.mpr ⟨frame, coherent.roots slot frame root, found⟩
  · intro found
    obtain ⟨frame, root, found⟩ := Option.bind_eq_some_iff.mp found
    exact .inr ⟨frame, .inl root, found⟩

theorem fills (coherent : Coherent directory caches) (fills : Fills directory caches after) : Coherent directory after := by
  cases fills with
  | root found =>
      refine ⟨fun slot frame member => ?_, coherent.entries⟩
      rcases Set.mem_insert_iff.mp member with same | member
      · cases same
        exact found
      · exact coherent.roots slot frame member
  | entry found =>
      refine ⟨coherent.roots, fun slot index entry member => ?_⟩
      rcases Set.mem_insert_iff.mp member with same | member
      · cases same
        exact coherent.finds_iff.mp found
      · exact coherent.entries slot index entry member
  | forget roots entries =>
      exact ⟨fun slot frame member => coherent.roots slot frame (roots member),
        fun slot index entry member => coherent.entries slot index entry (entries member)⟩

/-- A frame that no slot has can be written. -/
theorem write_unused [DecidableEq Index] [DecidableEq Frame] (coherent : Coherent directory caches) (unused : directory.Unused frame) :
    Coherent (directory.write frame index old) caches where
  roots := coherent.roots
  entries := by
    intro slot position entry member
    rw [Directory.lookup_write_unused unused]
    exact coherent.entries slot position entry member

theorem attach [DecidableEq Slot] [DecidableEq Frame] (coherent : Coherent directory caches) (unused : directory.Unused frame)
    (vacant : directory.root slot = none) : Coherent (directory.attach slot frame) caches where
  roots := by
    intro other reached member
    have root := coherent.roots other reached member
    have elsewhere : other ≠ slot := by
      intro same
      cases vacant.symm.trans (same ▸ root)
    exact (Function.update_of_ne elsewhere ..).trans root
  entries := by
    intro other position entry member
    rw [Directory.lookup_attach unused vacant]
    exact coherent.entries other position entry member

theorem write [DecidableEq Slot] [DecidableEq Index] [DecidableEq Frame] (coherent : Coherent directory caches) (apart : directory.Apart)
    (here : directory.root slot = some frame) :
    Settling slot index (directory.lookup slot index) (directory.write frame index written) caches where
  roots := fun other reached member => .inl (coherent.roots other reached member)
  entries := by
    intro other position entry member
    have found := coherent.entries other position entry member
    by_cases place : other = slot ∧ position = index
    · obtain ⟨rfl, rfl⟩ := place
      exact .inr ⟨rfl, rfl, found⟩
    · rw [Directory.lookup_write apart here, if_neg place]
      exact .inl found

theorem settling (coherent : Coherent directory caches) : Settling slot index old directory caches :=
  ⟨fun other frame member => .inl (coherent.roots other frame member),
    fun other position entry member => .inl (coherent.entries other position entry member)⟩

end Coherent

namespace Settling

theorem finds (settling : Settling slot index old directory caches) (finds : Finds directory caches other position entry) :
    directory.lookup other position = some entry ∨ other = slot ∧ position = index ∧ old = some entry := by
  rcases finds with remembered | ⟨frame, root | root, found⟩
  · exact settling.entries other position entry remembered
  · exact .inl (Option.bind_eq_some_iff.mpr ⟨frame, root, found⟩)
  · rcases settling.roots other frame root with root | empty
    · exact .inl (Option.bind_eq_some_iff.mpr ⟨frame, root, found⟩)
    · cases (empty position).symm.trans found

theorem fills (settling : Settling slot index old directory caches) (fills : Fills directory caches after) :
    Settling slot index old directory after := by
  cases fills with
  | root found =>
      refine ⟨fun other frame member => ?_, settling.entries⟩
      rcases Set.mem_insert_iff.mp member with same | member
      · cases same
        exact .inl found
      · exact settling.roots other frame member
  | entry found =>
      refine ⟨settling.roots, fun other position entry member => ?_⟩
      rcases Set.mem_insert_iff.mp member with same | member
      · cases same
        exact settling.finds found
      · exact settling.entries other position entry member
  | forget roots entries =>
      exact ⟨fun other frame member => settling.roots other frame (roots member),
        fun other position entry member => settling.entries other position entry (entries member)⟩

/-- A slot loses a table that is empty, while its frame may still be remembered. -/
theorem detach [DecidableEq Slot] (settling : Settling slot index old directory caches) (here : directory.root other = some frame)
    (empty : ∀ position, directory.table frame position = none) : Settling slot index old (directory.detach other) caches where
  roots := by
    intro held reached member
    rcases settling.roots held reached member with root | vacant
    · by_cases same : held = other
      · cases here.symm.trans (same ▸ root)
        exact .inr empty
      · exact .inl ((Function.update_of_ne same ..).trans root)
    · exact .inr vacant
  entries := by
    intro held position entry member
    rw [Directory.lookup_detach here empty]
    exact settling.entries held position entry member

theorem flush (settling : Settling slot index old directory caches) : Coherent directory (caches.flush slot index) where
  roots := fun _ _ member => member.elim
  entries := by
    intro other position entry member
    obtain ⟨remembered, elsewhere⟩ := member
    exact (settling.entries other position entry remembered).resolve_right fun here => elsewhere ⟨here.1, here.2.1⟩

end Settling

end Caches

end BarrelOS.Data
