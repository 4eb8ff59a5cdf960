import BarrelOS.Sched.Scheduler

namespace BarrelOS.Sched

open BarrelOS.Memory

/-- The command ports of a PC's two PICs. -/
def masterPic : Nat := 0x20

def slavePic : Nat := 0xA0

namespace Machine

/-- The ends of an interrupt that were written to the local APIC, and to a PIC. -/
def lapicEois (machine : Machine) : Nat := machine.lapic.writes.count (0xb0, 0)

def picEois (port : Nat) (machine : Machine) : Nat := machine.ports.count (port, 0x20)

def handlerOf (machine : Machine) (r : Registers) : Option IrqHandler :=
  machine.irqHandlers ((r.intNo + 2 ^ 32 - 32) % 2 ^ 32)

end Machine

/-- The interrupt is acknowledged once, where it came from, by a dispatch that meets no page fault. -/
structure AcknowledgedOnce (r : Registers) (before after : Machine) : Prop where
  runs : after.lapic.faults = before.lapic.faults
  lapic : before.lapic.enabled = true → after.lapicEois = before.lapicEois + 1 ∧
    after.picEois masterPic = before.picEois masterPic ∧ after.picEois slavePic = before.picEois slavePic
  pic : before.lapic.enabled = false → after.picEois masterPic = before.picEois masterPic + 1 ∧
    after.picEois slavePic = before.picEois slavePic + if 8 ≤ r.intNo - 32 then 1 else 0

/-- Every interrupt meets a condition in the state it is dispatched in. -/
def EveryDispatch (condition : Registers → Machine → Prop) : List Registers → Machine → Prop
  | [], _ => True
  | r :: rest, machine => condition r machine ∧ EveryDispatch condition rest (irqHandler r machine).2

/-- The local APIC is used and the handler does not acknowledge the interrupt too. -/
def SingleAcknowledgement (r : Registers) (machine : Machine) : Prop :=
  machine.lapic.enabled = true ∧ machine.handlerOf r ≠ some .schedSchedule

variable {r : Registers} {before machine : Machine} {frames : List Registers}

/-! What the handlers write -/

theorem eoi_count (lapic : Lapic) : lapic.eoi.writes.count (0xb0, 0) = lapic.writes.count (0xb0, 0) + 1 :=
  List.count_cons_self

theorem timer_count (lapic : Lapic) (vector ms : Nat) :
    (lapic.oneshot vector ms).writes.count (0xb0, 0) = lapic.writes.count (0xb0, 0) ∧
      lapic.stopTimer.writes.count (0xb0, 0) = lapic.writes.count (0xb0, 0) := by
  simp [Lapic.oneshot, Lapic.stopTimer, Lapic.write]

theorem schedSchedule_writes : (schedSchedule r before).2.lapicEois = before.lapicEois + 1 ∧
    (schedSchedule r before).2.ports = before.ports ∧
    (schedSchedule r before).2.lapic.enabled = before.lapic.enabled := by
  have once : (before.lapic.stopTimer.eoi.oneshot 0x80 5).writes.count (0xb0, 0) = before.lapicEois + 1 := by
    rw [(timer_count _ 0x80 5).1, eoi_count, (timer_count before.lapic 0x80 5).2, Machine.lapicEois]
  unfold schedSchedule
  split <;> exact ⟨once, rfl, rfl⟩

theorem write_faults (lapic : Lapic) (reg value : Nat) :
    (lapic.write reg value).faults = lapic.faults + if lapic.enabled then 0 else 1 := rfl

/-- Without the local APIC the first write of `sched_schedule` page-faults. -/
theorem schedSchedule_faults :
    (schedSchedule r before).2.lapic.faults = before.lapic.faults + if before.lapic.enabled then 0 else 8 := by
  have lapic : (schedSchedule r before).2.lapic = before.lapic.stopTimer.eoi.oneshot 0x80 5 := by
    unfold schedSchedule
    split <;> rfl
  rw [lapic]
  cases enabled : before.lapic.enabled <;>
    simp [Lapic.oneshot, Lapic.eoi, Lapic.stopTimer, Lapic.write, enabled]

theorem picEoi_master (no : Nat) (ports : List (Nat × Nat)) :
    (picEoi no ports).count (masterPic, 0x20) = ports.count (masterPic, 0x20) + if 8 ≤ no % 2 ^ 8 then 2 else 1 := by
  unfold picEoi masterPic
  split <;> simp

/-! One dispatch -/

/-- What the handler leaves, before the interrupt is acknowledged. -/
def handled (r : Registers) (machine : Machine) : Registers × Machine :=
  match machine.handlerOf r with
  | some handler => handler.run r machine
  | none => (r, machine)

theorem irqHandler_snd : (irqHandler r before).2 =
    if (handled r before).2.lapic.enabled then
      { (handled r before).2 with lapic := (handled r before).2.lapic.eoi }
    else { (handled r before).2 with ports := picEoi (handled r before).1.intNo (handled r before).2.ports } := by
  change (if (handled r before).2.lapic.enabled then _ else _ : Registers × Machine).2 = _
  split <;> rfl

theorem handled_schedule (found : before.handlerOf r = some .schedSchedule) :
    handled r before = schedSchedule r before := by
  rw [handled, found]
  rfl

theorem handled_other (other : before.handlerOf r ≠ some .schedSchedule) :
    (handled r before).1 = r ∧ (handled r before).2.lapic = before.lapic ∧
      (handled r before).2.ports = before.ports := by
  unfold handled
  cases found : before.handlerOf r with
  | none => exact ⟨rfl, rfl, rfl⟩
  | some handler =>
      cases handler with
      | pitHandler => exact ⟨rfl, rfl, rfl⟩
      | schedSchedule => exact absurd found other

theorem irqHandler_enabled (enabled : before.lapic.enabled = true) :
    (irqHandler r before).2.lapicEois =
        before.lapicEois + (if before.handlerOf r = some .schedSchedule then 2 else 1) ∧
      (irqHandler r before).2.ports = before.ports ∧ (irqHandler r before).2.lapic.faults = before.lapic.faults := by
  rw [irqHandler_snd]
  by_cases found : before.handlerOf r = some .schedSchedule
  · obtain ⟨once, ports, same⟩ := @schedSchedule_writes r before
    have faults := @schedSchedule_faults r before
    rw [handled_schedule found, if_pos (same.trans enabled), if_pos found]
    rw [if_pos enabled, Nat.add_zero] at faults
    refine ⟨?_, ports, ?_⟩
    · rw [Machine.lapicEois, eoi_count]
      exact congrArg (· + 1) once
    · change (Lapic.eoi _).faults = _
      rw [Lapic.eoi, write_faults, same.trans enabled, faults]
      rfl
  · obtain ⟨_, lapic, ports⟩ := handled_other found
    rw [lapic, if_pos enabled, if_neg found]
    refine ⟨eoi_count before.lapic, ports, ?_⟩
    change before.lapic.eoi.faults = _
    rw [Lapic.eoi, write_faults, if_pos enabled, Nat.add_zero]

theorem irqHandler_disabled (disabled : before.lapic.enabled = false) :
    (irqHandler r before).2.ports = picEoi (handled r before).1.intNo before.ports := by
  have kept : (handled r before).2.lapic.enabled = false ∧ (handled r before).2.ports = before.ports := by
    by_cases found : before.handlerOf r = some .schedSchedule
    · obtain ⟨_, ports, same⟩ := @schedSchedule_writes r before
      rw [handled_schedule found]
      exact ⟨same.trans disabled, ports⟩
    · obtain ⟨_, lapic, ports⟩ := handled_other found
      rw [lapic]
      exact ⟨disabled, ports⟩
  rw [irqHandler_snd, kept.1, if_neg Bool.false_ne_true, kept.2]

theorem acknowledged_once_lapic (enabled : before.lapic.enabled = true) :
    AcknowledgedOnce r before (irqHandler r before).2 ↔ before.handlerOf r ≠ some .schedSchedule := by
  obtain ⟨lapic, ports, faults⟩ := @irqHandler_enabled r before enabled
  constructor
  · intro once found
    have count := (once.lapic enabled).1
    rw [lapic, if_pos found] at count
    omega
  · intro other
    rw [if_neg other] at lapic
    refine ⟨faults, fun _ => ⟨lapic, ?_, ?_⟩, fun disabled => ?_⟩
    · rw [Machine.picEois, ports, Machine.picEois]
    · rw [Machine.picEois, ports, Machine.picEois]
    · cases enabled.symm.trans disabled

/-- Without the local APIC the scheduler's handler page-faults, and behind every other one
the vector is taken for that of a slave, so that the master is acknowledged twice. -/
theorem not_acknowledged_once_pic (vector : 32 ≤ r.intNo ∧ r.intNo < 256) (disabled : before.lapic.enabled = false) :
    ¬ AcknowledgedOnce r before (irqHandler r before).2 := by
  intro once
  by_cases found : before.handlerOf r = some .schedSchedule
  · have faults := once.runs
    have off : ¬ (schedSchedule r before).2.lapic.enabled = true := by
      rw [schedSchedule_writes.2.2, disabled]
      decide
    rw [irqHandler_snd, handled_schedule found, if_neg off] at faults
    change (schedSchedule r before).2.lapic.faults = _ at faults
    rw [schedSchedule_faults, disabled] at faults
    exact absurd faults (Nat.ne_of_gt (Nat.lt_add_of_pos_right (by decide)))
  · have ports := @irqHandler_disabled r before disabled
    have high : 8 ≤ r.intNo % 2 ^ 8 := by omega
    have master := (once.pic disabled).1
    rw [Machine.picEois, ports, (handled_other found).1, picEoi_master r.intNo before.ports, if_pos high] at master
    exact absurd (Nat.add_left_cancel master) (by decide)

theorem acknowledged_once_iff (vector : 32 ≤ r.intNo ∧ r.intNo < 256) :
    AcknowledgedOnce r before (irqHandler r before).2 ↔ SingleAcknowledgement r before := by
  unfold SingleAcknowledgement
  cases enabled : before.lapic.enabled with
  | true =>
      rw [and_iff_right rfl]
      exact acknowledged_once_lapic enabled
  | false => exact iff_of_false (not_acknowledged_once_pic vector enabled) fun single => Bool.false_ne_true single.1

theorem EveryDispatch.congr {first second : Registers → Machine → Prop}
    (same : ∀ r ∈ frames, ∀ machine, first r machine ↔ second r machine) :
    EveryDispatch first frames machine ↔ EveryDispatch second frames machine := by
  induction frames generalizing machine with
  | nil => exact Iff.rfl
  | cons r rest ih =>
      obtain ⟨here, later⟩ := List.forall_mem_cons.mp same
      exact and_congr (here machine) (ih later)

/-- The interrupts of a run are each acknowledged once exactly when each is dispatched where
only one acknowledgement is made. -/
theorem interrupts_acknowledged_once (vectors : ∀ r ∈ frames, 32 ≤ r.intNo ∧ r.intNo < 256) :
    EveryDispatch (fun r before => AcknowledgedOnce r before (irqHandler r before).2) frames machine ↔
      EveryDispatch SingleAcknowledgement frames machine :=
  EveryDispatch.congr fun r member _ => acknowledged_once_iff (vectors r member)

/-! A machine with its handlers -/

/-- The handlers the kernel registers, and whether the local APIC is used. -/
def handledMachine (enabled : Bool) : Machine where
  kernel := ⟨⟨.initial fun _ => 0, fun _ => 0, fun _ _ => 0, []⟩, fun _ => 0, fun _ => ⟨0, 0, 0, 0⟩, 0⟩
  task := fun _ => ⟨⟨0, 0, 0, 0, 0, 0, 0, 0, 0, 0, 0, 0, 0, 0, 0⟩, 0, 0⟩
  schedPid := 0
  schedQuantum := 0
  schedTasks := fun _ => 0
  currentTask := 0
  irqHandlers := fun vector => if vector = 0 then some .pitHandler else if vector = 96 then some .schedSchedule else none
  pitTicks := 0
  lapic := ⟨enabled, 0, [], 0⟩
  ports := []

def frameOf (vector : Nat) : Registers := ⟨0, 0, 0, 0, 0, 0, 0, 0, vector, 0, 0x1000, 0x08, 0x202, 0, 0⟩

theorem interrupts_acknowledged_once_timer :
    EveryDispatch (fun r before => AcknowledgedOnce r before (irqHandler r before).2) [frameOf 32, frameOf 33]
      (handledMachine true) := by
  have timer : (handledMachine true).handlerOf (frameOf 32) ≠ some .schedSchedule := by decide
  have keyboard : (irqHandler (frameOf 32) (handledMachine true)).2.handlerOf (frameOf 33) ≠ some .schedSchedule := by
    decide
  exact (interrupts_acknowledged_once (by decide)).mpr ⟨⟨rfl, timer⟩, ⟨rfl, keyboard⟩, trivial⟩

/-- The scheduler's interrupt is acknowledged twice, and so is the timer's on the PIC; without
the local APIC the scheduler page-faults. -/
theorem irqHandler_acknowledges_twice :
    (¬ AcknowledgedOnce (frameOf 0x80) (handledMachine true) (irqHandler (frameOf 0x80) (handledMachine true)).2) ∧
      (¬ AcknowledgedOnce (frameOf 32) (handledMachine false) (irqHandler (frameOf 32) (handledMachine false)).2) ∧
      ¬ AcknowledgedOnce (frameOf 0x80) (handledMachine false) (irqHandler (frameOf 0x80) (handledMachine false)).2 := by
  refine ⟨fun once => ?_, fun once => ?_, fun once => ?_⟩
  · exact absurd (once.lapic rfl).1 (by decide)
  · exact absurd (once.pic rfl).1 (by decide)
  · exact absurd once.runs (by decide)

end BarrelOS.Sched
