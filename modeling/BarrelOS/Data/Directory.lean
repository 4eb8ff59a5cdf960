import Mathlib.Logic.Function.Basic

namespace BarrelOS.Data

/-- A two-level map: a root of frames, each of which holds a table of entries. -/
@[ext]
structure Directory (Slot Index Frame Entry : Type) where
  root : Slot → Option Frame
  table : Frame → Index → Option Entry

namespace Directory

variable {Slot Index Frame Entry : Type} {directory : Directory Slot Index Frame Entry}
  {slot other : Slot} {index position : Index} {frame : Frame} {entry : Option Entry}

def lookup (directory : Directory Slot Index Frame Entry) (slot : Slot) (index : Index) : Option Entry :=
  (directory.root slot).bind fun frame => directory.table frame index

/-- No frame serves as the table of two slots. -/
def Apart (directory : Directory Slot Index Frame Entry) : Prop :=
  ∀ slot other frame, directory.root slot = some frame → directory.root other = some frame → slot = other

def Unused (directory : Directory Slot Index Frame Entry) (frame : Frame) : Prop :=
  ∀ slot, directory.root slot ≠ some frame

/-- Every table in use has an entry. -/
def Inhabited (directory : Directory Slot Index Frame Entry) : Prop :=
  ∀ slot frame, directory.root slot = some frame → ∃ index, directory.table frame index ≠ none

def write [DecidableEq Index] [DecidableEq Frame] (directory : Directory Slot Index Frame Entry)
    (frame : Frame) (index : Index) (entry : Option Entry) : Directory Slot Index Frame Entry :=
  { directory with
    table := Function.update directory.table frame (Function.update (directory.table frame) index entry) }

def attach [DecidableEq Slot] [DecidableEq Frame] (directory : Directory Slot Index Frame Entry)
    (slot : Slot) (frame : Frame) : Directory Slot Index Frame Entry where
  root := Function.update directory.root slot (some frame)
  table := Function.update directory.table frame fun _ => none

def detach [DecidableEq Slot] (directory : Directory Slot Index Frame Entry) (slot : Slot) :
    Directory Slot Index Frame Entry :=
  { directory with root := Function.update directory.root slot none }

@[simp] theorem write_root [DecidableEq Index] [DecidableEq Frame] :
    (directory.write frame index entry).root = directory.root := rfl

theorem lookup_write [DecidableEq Slot] [DecidableEq Index] [DecidableEq Frame]
    (apart : directory.Apart) (here : directory.root slot = some frame) :
    (directory.write frame index entry).lookup other position =
      if other = slot ∧ position = index then entry else directory.lookup other position := by
  unfold lookup
  rw [write_root]
  cases used : directory.root other with
  | none =>
      have elsewhere : other ≠ slot := by
        intro same
        rw [same, here] at used
        cases used
      simp [elsewhere]
  | some reached =>
      simp only [Option.bind_some, write]
      by_cases same : reached = frame
      · have slots : other = slot := apart other slot frame (same ▸ used) here
        by_cases here : position = index
        · simp [same, slots, here]
        · simp [same, here]
      · have elsewhere : other ≠ slot := by
          intro slots
          rw [slots, here] at used
          exact same (Option.some.inj used).symm
        simp [same, elsewhere]

theorem lookup_write_unused [DecidableEq Index] [DecidableEq Frame] (unused : directory.Unused frame) :
    (directory.write frame index entry).lookup other position = directory.lookup other position := by
  unfold lookup
  rw [write_root]
  cases used : directory.root other with
  | none => rfl
  | some reached =>
      have elsewhere : reached ≠ frame := fun same => unused other (same ▸ used)
      exact congrFun (Function.update_of_ne elsewhere ..) position

theorem lookup_attach [DecidableEq Slot] [DecidableEq Frame]
    (unused : directory.Unused frame) (vacant : directory.root slot = none) :
    (directory.attach slot frame).lookup other position = directory.lookup other position := by
  unfold lookup attach
  by_cases same : other = slot
  · simp [same, vacant]
  · simp only [Function.update_of_ne same]
    cases used : directory.root other with
    | none => rfl
    | some reached =>
        have differs : reached ≠ frame := fun frames => unused other (frames ▸ used)
        simp [differs]

theorem lookup_detach [DecidableEq Slot] (here : directory.root slot = some frame)
    (empty : ∀ index, directory.table frame index = none) :
    (directory.detach slot).lookup other position = directory.lookup other position := by
  unfold lookup detach
  by_cases same : other = slot
  · simp [same, here, empty]
  · simp [same]

theorem Apart.write [DecidableEq Index] [DecidableEq Frame] (apart : directory.Apart) :
    (directory.write frame index entry).Apart := apart

theorem Apart.attach [DecidableEq Slot] [DecidableEq Frame] (apart : directory.Apart)
    (unused : directory.Unused frame) : (directory.attach slot frame).Apart := by
  intro left right reached first second
  simp only [Directory.attach, Function.update_apply] at first second
  split at first
  · cases first
    split at second
    · exact Eq.trans ‹_› (Eq.symm ‹_›)
    · exact absurd second (unused right)
  · split at second
    · cases second
      exact absurd first (unused left)
    · exact apart left right reached first second

theorem Apart.detach [DecidableEq Slot] (apart : directory.Apart) : (directory.detach slot).Apart := by
  intro left right reached first second
  simp only [Directory.detach, Function.update_apply] at first second
  split at first
  · cases first
  · split at second
    · cases second
    · exact apart left right reached first second

theorem write_table_of_ne [DecidableEq Index] [DecidableEq Frame] {reached : Frame} (differs : reached ≠ frame) :
    (directory.write frame index entry).table reached = directory.table reached := Function.update_of_ne differs ..

theorem attach_table_of_ne [DecidableEq Slot] [DecidableEq Frame] {reached : Frame} (differs : reached ≠ frame) :
    (directory.attach slot frame).table reached = directory.table reached := Function.update_of_ne differs ..

theorem write_table_self [DecidableEq Index] [DecidableEq Frame] :
    (directory.write frame index entry).table frame index = entry := by
  simp [Directory.write]

theorem write_none_empty [DecidableEq Index] [DecidableEq Frame] :
    (∀ position, (directory.write frame index none).table frame position = none) ↔
      ∀ position ≠ index, directory.table frame position = none := by
  refine forall_congr' fun position => ?_
  simp only [Directory.write, Function.update_self, Function.update_apply]
  by_cases here : position = index
  · simp [here]
  · simp [here]

/-- Every table in use other than the one in a frame has an entry. -/
def InhabitedBut (directory : Directory Slot Index Frame Entry) (frame : Frame) : Prop :=
  ∀ slot other, directory.root slot = some other → other ≠ frame → ∃ index, directory.table other index ≠ none

theorem Inhabited.write [DecidableEq Index] [DecidableEq Frame] (inhabited : directory.Inhabited) :
    (directory.write frame index entry).InhabitedBut frame := by
  intro slot other used differs
  obtain ⟨position, present⟩ := inhabited slot other used
  exact ⟨position, by rwa [write_table_of_ne differs]⟩

theorem Inhabited.attach [DecidableEq Slot] [DecidableEq Frame] (inhabited : directory.Inhabited) :
    (directory.attach slot frame).InhabitedBut frame := by
  intro other reached used differs
  simp only [Directory.attach, Function.update_apply] at used
  split at used
  · cases used
    exact absurd rfl differs
  · obtain ⟨position, present⟩ := inhabited other reached used
    exact ⟨position, by rwa [attach_table_of_ne differs]⟩

namespace InhabitedBut

theorem write [DecidableEq Index] [DecidableEq Frame] (inhabited : directory.InhabitedBut frame) :
    (directory.write frame index entry).InhabitedBut frame := by
  intro slot other used differs
  obtain ⟨position, present⟩ := inhabited slot other used differs
  exact ⟨position, by rwa [write_table_of_ne differs]⟩

theorem close (inhabited : directory.InhabitedBut frame) (here : ∃ index, directory.table frame index ≠ none) :
    directory.Inhabited := by
  intro slot other used
  by_cases same : other = frame
  · exact same ▸ here
  · exact inhabited slot other used same

/-- The last table without an entry can go. -/
theorem detach [DecidableEq Slot] (inhabited : directory.InhabitedBut frame) (apart : directory.Apart)
    (here : directory.root slot = some frame) : (directory.detach slot).Inhabited := by
  intro other reached used
  simp only [Directory.detach, Function.update_apply] at used
  split at used
  · cases used
  · rename_i elsewhere
    refine inhabited other reached used ?_
    intro same
    exact elsewhere (apart other slot frame (same ▸ used) here)

end InhabitedBut

end Directory

end BarrelOS.Data
