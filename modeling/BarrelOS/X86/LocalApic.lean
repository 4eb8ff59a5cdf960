import Mathlib.Algebra.Group.Nat.Defs
import Mathlib.Logic.Function.Basic

namespace BarrelOS.X86

/-! A local interrupt controller, with its timer in one-shot mode -/

/-- The vectors that are requested and those in service, and the registers a kernel sets. -/
structure LocalApic where
  id : Nat
  requested : Nat → Bool
  serving : Nat → Bool
  spurious : Nat
  destination : Nat
  divide : Nat
  lvt : Nat
  current : Nat

/-- The highest of the first numbers that are in a set. -/
def highest (bits : Nat → Bool) : Nat → Option Nat
  | 0 => none
  | count + 1 => if bits count then some count else highest bits count

namespace LocalApic

/-- A request is taken while the controller is enabled by software. -/
def request (vector : Nat) (apic : LocalApic) : LocalApic :=
  if apic.spurious.testBit 8 then { apic with requested := Function.update apic.requested (vector % 256) true } else apic

/-- The end of the interrupt with the highest vector in service. -/
def eoi (apic : LocalApic) : LocalApic :=
  match highest apic.serving 256 with
  | some vector => { apic with serving := Function.update apic.serving vector false }
  | none => apic

/-- The timer counts down to zero, and requests its vector then unless it is masked. -/
def tick (apic : LocalApic) : LocalApic :=
  let counted := { apic with current := apic.current - 1 }
  if apic.current = 1 ∧ apic.lvt &&& 0x10000 = 0 then counted.request apic.lvt else counted

/-- The processor takes the highest vector requested, unless one of its class or above is in service. -/
def accept (apic : LocalApic) : Option (Nat × LocalApic) := do
  let vector ← highest apic.requested 256
  if ∀ served ∈ highest apic.serving 256, served / 16 < vector / 16 then
    some (vector, { apic with
      requested := Function.update apic.requested vector false
      serving := Function.update apic.serving vector true })
  else none

def write (reg value : Nat) (apic : LocalApic) : LocalApic :=
  match reg with
  | 0xb0 => apic.eoi
  | 0xf0 => { apic with spurious := value }
  | 0x300 =>
      if value &&& 0x700 = 0 ∧ apic.destination / 2 ^ 24 = apic.id then apic.request value else apic
  | 0x310 => { apic with destination := value }
  | 0x320 => { apic with lvt := value }
  | 0x380 => { apic with current := value }
  | 0x3E0 => { apic with divide := value }
  | _ => apic

def read (reg : Nat) (apic : LocalApic) : Nat :=
  match reg with
  | 0xf0 => apic.spurious
  | 0x320 => apic.lvt
  | 0x390 => apic.current
  | _ => 0

/-- Nothing is in service. -/
def Quiet (apic : LocalApic) : Prop := ∀ vector, apic.serving vector = false

end LocalApic

variable {bits : Nat → Bool} {apic after : LocalApic} {vector other count : Nat}

theorem highest_some (found : highest bits count = some vector) : vector < count ∧ bits vector = true := by
  induction count with
  | zero => cases found
  | succ count ih =>
      rw [highest] at found
      split at found
      · cases found
        exact ⟨Nat.lt_succ_self _, ‹_›⟩
      · obtain ⟨low, bit⟩ := ih found
        exact ⟨Nat.lt_succ_of_lt low, bit⟩

theorem highest_none : highest bits count = none ↔ ∀ vector < count, bits vector = false := by
  induction count with
  | zero => exact ⟨fun _ vector low => absurd low (Nat.not_lt_zero vector), fun _ => rfl⟩
  | succ count ih =>
      rw [highest]
      by_cases here : bits count = true
      · rw [if_pos here]
        exact iff_of_false (Option.some_ne_none count) fun clear => Bool.false_ne_true ((clear count (Nat.lt_succ_self count)).symm.trans here)
      · rw [if_neg here, ih]
        refine ⟨fun clear vector low => ?_, fun clear vector low => clear vector (Nat.lt_succ_of_lt low)⟩
        rcases Nat.lt_succ_iff_lt_or_eq.mp low with low | rfl
        · exact clear vector low
        · exact Bool.eq_false_iff.mpr here

/-- A single member is the highest. -/
theorem highest_single (low : vector < count) (bit : bits vector = true) (single : ∀ other, other ≠ vector → bits other = false) :
    highest bits count = some vector := by
  cases found : highest bits count with
  | none => exact absurd bit (Bool.eq_false_iff.mp (highest_none.mp found vector low))
  | some other =>
      by_contra different
      have absent := single other fun same => different (congrArg some same)
      exact Bool.false_ne_true (absent.symm.trans (highest_some found).2)

namespace LocalApic

/-- A request adds to what is requested and changes nothing else. -/
theorem request_cases (vector : Nat) (apic : LocalApic) : ∃ requested, apic.request vector = { apic with requested } ∧
    ∀ other, requested other = true ↔ apic.requested other = true ∨ apic.spurious.testBit 8 = true ∧ other = vector % 256 := by
  unfold request
  by_cases software : apic.spurious.testBit 8 = true
  · rw [if_pos software]
    refine ⟨_, rfl, fun other => ?_⟩
    by_cases same : other = vector % 256
    · rw [same, Function.update_self]
      exact iff_of_true rfl (.inr ⟨software, rfl⟩)
    · rw [Function.update_of_ne same]
      exact (or_iff_left fun new => same new.2).symm
  · rw [if_neg software]
    exact ⟨apic.requested, rfl, fun other => (or_iff_left fun new => software new.1).symm⟩

theorem tick_cases (apic : LocalApic) : ∃ requested, apic.tick = { apic with requested, current := apic.current - 1 } ∧
    ∀ other, requested other = true ↔ apic.requested other = true ∨
      (apic.current = 1 ∧ apic.lvt &&& 0x10000 = 0) ∧ apic.spurious.testBit 8 = true ∧ other = apic.lvt % 256 := by
  unfold tick
  by_cases fires : apic.current = 1 ∧ apic.lvt &&& 0x10000 = 0
  · obtain ⟨requested, same, added⟩ := request_cases apic.lvt { apic with current := apic.current - 1 }
    simp only [if_pos fires]
    exact ⟨requested, same, fun other => (added other).trans (or_congr_right (and_iff_right fires).symm)⟩
  · simp only [if_neg fires]
    exact ⟨apic.requested, rfl, fun other => (or_iff_left fun new => fires new.1).symm⟩

@[simp] theorem write_eoi (value : Nat) : apic.write 0xb0 value = apic.eoi := rfl

@[simp] theorem write_lvt (value : Nat) : apic.write 0x320 value = { apic with lvt := value } := rfl

@[simp] theorem write_current (value : Nat) : apic.write 0x380 value = { apic with current := value } := rfl

@[simp] theorem write_divide (value : Nat) : apic.write 0x3E0 value = { apic with divide := value } := rfl

theorem Quiet.eoi (quiet : apic.Quiet) : apic.eoi = apic := by
  rw [LocalApic.eoi, highest_none.mpr fun vector _ => quiet vector]

theorem Quiet.accept_isSome (quiet : apic.Quiet) (low : vector < 256) (requested : apic.requested vector = true) : apic.accept.isSome := by
  have idle : highest apic.serving 256 = none := highest_none.mpr fun vector _ => quiet vector
  rw [LocalApic.accept, idle]
  cases found : highest apic.requested 256 with
  | none => exact absurd requested (Bool.eq_false_iff.mp (highest_none.mp found vector low))
  | some other => rfl

/-- An accepted vector was requested, and now it alone is in service. -/
theorem accept_some (accepted : apic.accept = some (vector, after)) : vector < 256 ∧ apic.requested vector = true ∧
    after = { apic with
      requested := Function.update apic.requested vector false
      serving := Function.update apic.serving vector true } := by
  obtain ⟨found, search, taken⟩ := Option.bind_eq_some_iff.mp accepted
  obtain ⟨low, requested⟩ := highest_some search
  split at taken
  · cases taken
    exact ⟨low, requested, rfl⟩
  · cases taken

/-- The end of the only interrupt in service. -/
theorem eoi_serving (low : vector < 256) (quiet : apic.Quiet) :
    { apic with serving := Function.update apic.serving vector true }.eoi = apic := by
  have single : highest (Function.update apic.serving vector true) 256 = some vector := by
    refine highest_single low (Function.update_self ..) fun other different => ?_
    rw [Function.update_of_ne different]
    exact quiet other
  rw [LocalApic.eoi, single]
  refine congrArg (fun serving => { apic with serving }) (funext fun other => ?_)
  rw [Function.update_idem]
  by_cases same : other = vector
  · rw [same, Function.update_self, quiet]
  · rw [Function.update_of_ne same]

end LocalApic

end BarrelOS.X86
