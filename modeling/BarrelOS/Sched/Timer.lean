import BarrelOS.Data.Count
import BarrelOS.Sched.Acknowledge
import BarrelOS.Sched.Contexts
import BarrelOS.X86.LocalApic

namespace BarrelOS.Sched

open BarrelOS.Memory BarrelOS.Semantics BarrelOS.X86

/-! `lapic.c` with the device behind its registers -/

structure Core where
  machine : Machine
  apic : LocalApic

namespace Core

def write (reg value : Nat) (core : Core) : Core where
  machine := { core.machine with lapic := core.machine.lapic.write reg value }
  apic := core.apic.write reg value

end Core

def lapicStopTimer (core : Core) : Core := (core.write 0x380 0).write 0x320 0x10000

def lapicIpi (id irq : Nat) (core : Core) : Core := (core.write 0x310 (id * 2 ^ 24 % 2 ^ 32)).write 0x300 irq

/-- `lapic_calibrate_timer` up to its `pit_sleep`, and what is behind it. -/
def beginCalibration (core : Core) : Core := (((lapicStopTimer core).write 0x3E0 0).write 0x320 (1 <<< 16 ||| 0xff)).write 0x380 0xFFFFFFFF

def endCalibration (core : Core) : Core :=
  let core := core.write 0x320 0x10000
  let ticks := 0xFFFFFFFF - core.apic.read 0x390
  lapicStopTimer { core with machine := { core.machine with lapic := { core.machine.lapic with ticks } } }

/-! The device between the interrupts it requests -/

/-- The timer counts, a device requests an interrupt, or the processor takes one from where it is. -/
inductive CoreEvent where
  | tick
  | request (vector : Nat)
  | accept (r : Registers)
deriving DecidableEq

/-- The writes that a handler has added, latest first. -/
def newWrites (before after : Lapic) : List (Nat × Nat) := after.writes.take (after.writes.length - before.writes.length)

namespace Core

/-- `irq_handler` runs for a vector, and its writes reach the device in their order. -/
def dispatch (vector : Nat) (r : Registers) (core : Core) : Core :=
  let machine := (irqHandler { r with intNo := vector } core.machine).2
  { machine, apic := (newWrites core.machine.lapic machine.lapic).foldr (fun write apic => apic.write write.1 write.2) core.apic }

def accepted (core : Core) : CoreEvent → Option Nat
  | .accept _ => core.apic.accept.map Prod.fst
  | _ => none

def step (core : Core) : CoreEvent → Core
  | .tick => { core with apic := core.apic.tick }
  | .request vector => { core with apic := core.apic.request vector }
  | .accept r =>
      match core.apic.accept with
      | some (vector, apic) => dispatch vector r { core with apic }
      | none => core

def run (core : Core) (events : List CoreEvent) : Core := events.foldl step core

/-- The vectors accepted in a run. -/
def handled : Core → List CoreEvent → List Nat
  | _, [] => []
  | core, event :: rest => (core.accepted event).toList ++ handled (core.step event) rest

/-- An event that requests a vector, by a device or by the timer. -/
def Asks (vector : Nat) (core : Core) : CoreEvent → Prop
  | .tick => (core.apic.current = 1 ∧ core.apic.lvt &&& 0x10000 = 0) ∧ vector = core.apic.lvt % 256
  | .request other => vector = other % 256
  | .accept _ => False

instance (vector : Nat) (core : Core) (event : CoreEvent) : Decidable (core.Asks vector event) := by
  cases event <;> unfold Asks <;> infer_instance

def asked (vector : Nat) : Core → List CoreEvent → Nat
  | _, [] => 0
  | core, event :: rest => (if core.Asks vector event then 1 else 0) + asked vector (core.step event) rest

/-- Between interrupts: the controller is in use and nothing is in service. -/
structure Settled (core : Core) : Prop where
  enabled : core.machine.lapic.enabled = true
  software : core.apic.spurious.testBit 8 = true
  quiet : core.apic.Quiet

/-- The timer's count for the scheduler. -/
def period (core : Core) : Nat := core.machine.lapic.ticks * 5 % 2 ^ 32

end Core

variable {core : Core} {event : CoreEvent} {events : List CoreEvent} {r : Registers} {vector : Nat} {machine : Machine} {apic after : LocalApic}

/-! What a dispatch does to the device -/

theorem newWrites_eq {before left : Lapic} {writes : List (Nat × Nat)} (added : left.writes = writes ++ before.writes) :
    newWrites before left = writes := by
  rw [newWrites, added, List.length_append, Nat.add_sub_cancel, List.take_left]

/-- The writes of `sched_schedule` and of the acknowledgement behind it, latest first. -/
def scheduleWrites (ticks : Nat) : List (Nat × Nat) :=
  [(0xb0, 0), (0x380, ticks * 5 % 2 ^ 32), (0x320, 0x80), (0x3E0, 0), (0x320, 0x10000), (0x380, 0), (0xb0, 0), (0x320, 0x10000), (0x380, 0)]

/-- What the dispatch of an interrupt leaves of a machine that uses the local APIC. -/
structure LapicDispatch (r : Registers) (before after : Machine) : Prop where
  enabled : after.lapic.enabled = true
  ticks : after.lapic.ticks = before.lapic.ticks
  handlers : after.irqHandlers = before.irqHandlers
  writes : newWrites before.lapic after.lapic =
    if before.handlerOf r = some .schedSchedule then scheduleWrites before.lapic.ticks else [(0xb0, 0)]

theorem irqHandler_lapic (enabled : machine.lapic.enabled = true) : LapicDispatch r machine (irqHandler r machine).2 := by
  rw [irqHandler_snd]
  by_cases found : machine.handlerOf r = some .schedSchedule
  · have lapic : (handled r machine).2.lapic = machine.lapic.stopTimer.eoi.oneshot 0x80 5 ∧
        (handled r machine).2.irqHandlers = machine.irqHandlers := by
      rw [handled_schedule found, schedSchedule]
      split <;> exact ⟨rfl, rfl⟩
    obtain ⟨lapic, handlers⟩ := lapic
    have used : (handled r machine).2.lapic.enabled = true := lapic ▸ enabled
    rw [if_pos used]
    refine ⟨used, ?_, handlers, ?_⟩
    · change (handled r machine).2.lapic.ticks = _
      rw [lapic]
      rfl
    · rw [if_pos found, lapic]
      exact newWrites_eq rfl
  · obtain ⟨_, lapic, _⟩ := handled_other found
    have handlers : (handled r machine).2.irqHandlers = machine.irqHandlers := by
      unfold handled
      split
      · rename_i handler known
        cases handler with
        | pitHandler => rfl
        | schedSchedule => exact absurd known found
      · rfl
    have used : (handled r machine).2.lapic.enabled = true := lapic ▸ enabled
    rw [if_pos used]
    refine ⟨used, ?_, handlers, ?_⟩
    · change (handled r machine).2.lapic.ticks = _
      rw [lapic]
    · rw [if_neg found, lapic]
      exact newWrites_eq rfl

/-- What is in service is retired by the first acknowledgement, and the second finds nothing in service. -/
theorem scheduleWrites_retire (low : vector < 256) (quiet : apic.Quiet) (ticks : Nat) :
    (scheduleWrites ticks).foldr (fun write apic => apic.write write.1 write.2)
        { apic with serving := Function.update apic.serving vector true } =
      { apic with divide := 0, lvt := 0x80, current := ticks * 5 % 2 ^ 32 } := by
  have first : LocalApic.eoi { apic with lvt := 0x10000, current := 0, serving := Function.update apic.serving vector true } =
      { apic with lvt := 0x10000, current := 0 } := @LocalApic.eoi_serving { apic with lvt := 0x10000, current := 0 } vector low quiet
  have second : LocalApic.eoi { apic with divide := 0, lvt := 0x80, current := ticks * 5 % 2 ^ 32 } =
      { apic with divide := 0, lvt := 0x80, current := ticks * 5 % 2 ^ 32 } :=
    @LocalApic.Quiet.eoi { apic with divide := 0, lvt := 0x80, current := ticks * 5 % 2 ^ 32 } quiet
  simp only [scheduleWrites, List.foldr_cons, List.foldr_nil, LocalApic.write_eoi, LocalApic.write_lvt, LocalApic.write_current,
    LocalApic.write_divide, first, second]

theorem dispatch_settled (enabled : machine.lapic.enabled = true) (low : vector < 256) (quiet : apic.Quiet) :
    (Core.dispatch vector r ⟨machine, { apic with serving := Function.update apic.serving vector true }⟩).apic =
      if machine.irqHandlers ((vector + 2 ^ 32 - 32) % 2 ^ 32) = some .schedSchedule then
        { apic with divide := 0, lvt := 0x80, current := machine.lapic.ticks * 5 % 2 ^ 32 }
      else apic := by
  have dispatched : LapicDispatch { r with intNo := vector } machine _ := irqHandler_lapic enabled
  rw [Core.dispatch]
  simp only [dispatched.writes]
  by_cases found : machine.handlerOf { r with intNo := vector } = some .schedSchedule
  · rw [if_pos found]
    exact (scheduleWrites_retire low quiet _).trans (if_pos found).symm
  · rw [if_neg found]
    exact (LocalApic.eoi_serving low quiet).trans (if_neg found).symm

/-! Every step between the interrupts -/

namespace Core

/-- What a step that accepts an interrupt leaves. -/
theorem step_accept (settled : core.Settled) (taken : core.apic.accept = some (vector, after)) :
    LapicDispatch { r with intNo := vector } core.machine (core.step (.accept r)).machine ∧ vector < 256 ∧
      core.apic.requested vector = true ∧ (core.step (.accept r)).apic =
        if core.machine.irqHandlers ((vector + 2 ^ 32 - 32) % 2 ^ 32) = some .schedSchedule then
          { core.apic with requested := Function.update core.apic.requested vector false, divide := 0, lvt := 0x80, current := core.period }
        else { core.apic with requested := Function.update core.apic.requested vector false } := by
  obtain ⟨low, requested, rfl⟩ := LocalApic.accept_some taken
  have stepped : core.step (.accept r) = dispatch vector r ⟨core.machine, { core.apic with
      requested := Function.update core.apic.requested vector false
      serving := Function.update core.apic.serving vector true }⟩ := by
    rw [step, taken]
  rw [stepped]
  exact ⟨irqHandler_lapic settled.enabled, low, requested,
    @dispatch_settled r vector core.machine { core.apic with requested := Function.update core.apic.requested vector false }
      settled.enabled low settled.quiet⟩

theorem step_refused (refused : core.apic.accept = none) : core.step (.accept r) = core := by
  rw [step, refused]

theorem Settled.step (settled : core.Settled) (event : CoreEvent) : (core.step event).Settled := by
  cases event with
  | tick =>
      obtain ⟨requested, same, _⟩ := core.apic.tick_cases
      have apic : (core.step .tick).apic = _ := same
      exact ⟨settled.enabled, apic ▸ settled.software, apic ▸ settled.quiet⟩
  | request vector =>
      obtain ⟨requested, same, _⟩ := core.apic.request_cases vector
      have apic : (core.step (.request vector)).apic = _ := same
      exact ⟨settled.enabled, apic ▸ settled.software, apic ▸ settled.quiet⟩
  | accept r =>
      cases taken : core.apic.accept with
      | none =>
          rw [step_refused taken]
          exact settled
      | some found =>
          obtain ⟨dispatch, _, _, apic⟩ := @step_accept core r found.1 found.2 settled taken
          refine ⟨dispatch.enabled, ?_, ?_⟩ <;> rw [apic] <;> split
          · exact settled.software
          · exact settled.software
          · exact settled.quiet
          · exact settled.quiet

/-- A request stays until its vector is accepted. -/
theorem step_requested (settled : core.Settled) (event : CoreEvent) (requested : core.apic.requested vector = true) :
    core.accepted event = some vector ∨ (core.step event).apic.requested vector = true := by
  cases event with
  | tick =>
      obtain ⟨_, same, added⟩ := core.apic.tick_cases
      exact .inr (congrFun (congrArg LocalApic.requested same) vector ▸ (added vector).mpr (.inl requested))
  | request other =>
      obtain ⟨_, same, added⟩ := core.apic.request_cases other
      exact .inr (congrFun (congrArg LocalApic.requested same) vector ▸ (added vector).mpr (.inl requested))
  | accept r =>
      cases taken : core.apic.accept with
      | none =>
          rw [step_refused taken]
          exact .inr requested
      | some found =>
          obtain ⟨_, _, _, apic⟩ := @step_accept core r found.1 found.2 settled taken
          by_cases same : found.1 = vector
          · exact .inl (congrArg (Option.map Prod.fst) taken |>.trans (congrArg some same))
          · refine .inr ?_
            rw [apic]
            split <;> exact (Function.update_of_ne (Ne.symm same) ..).trans requested

theorem Settled.run (settled : core.Settled) (events : List CoreEvent) : (core.run events).Settled := by
  induction events generalizing core with
  | nil => exact settled
  | cons event rest ih => exact ih (settled.step event)

theorem run_append (core : Core) (before behind : List CoreEvent) : core.run (before ++ behind) = (core.run before).run behind :=
  List.foldl_append

theorem toNat_le_add {old new : Bool} {asked : Prop} [Decidable asked] (added : new = true → old = true ∨ asked) :
    new.toNat ≤ old.toNat + if asked then 1 else 0 := by
  cases new with
  | false => exact Nat.zero_le _
  | true =>
      rcases added rfl with rfl | asked
      · exact Nat.le_add_right ..
      · rw [if_pos asked]
        exact Nat.le_add_left ..

/-- A vector is accepted only where it was requested. -/
theorem step_handled (settled : core.Settled) (vector : Nat) (event : CoreEvent) :
    (if core.accepted event = some vector then 1 else 0) + ((core.step event).apic.requested vector).toNat ≤
      (core.apic.requested vector).toNat + (if core.Asks vector event then 1 else 0) := by
  cases event with
  | tick =>
      obtain ⟨_, same, added⟩ := core.apic.tick_cases
      have apic : (core.step .tick).apic = _ := same
      have refused : core.accepted .tick ≠ some vector := (Option.some_ne_none vector).symm
      rw [apic, if_neg refused, Nat.zero_add]
      exact toNat_le_add fun requested => ((added vector).mp requested).imp_right fun fires => ⟨fires.1, fires.2.2⟩
  | request other =>
      obtain ⟨_, same, added⟩ := core.apic.request_cases other
      have apic : (core.step (.request other)).apic = _ := same
      have refused : core.accepted (.request other) ≠ some vector := (Option.some_ne_none vector).symm
      rw [apic, if_neg refused, Nat.zero_add]
      exact toNat_le_add fun requested => ((added vector).mp requested).imp_right fun asked => asked.2
  | accept r =>
      rw [if_neg (id : ¬ core.Asks vector (.accept r)), Nat.add_zero, accepted]
      cases taken : core.apic.accept with
      | none =>
          rw [step_refused taken, Option.map_none, if_neg (Option.some_ne_none vector).symm, Nat.zero_add]
      | some found =>
          obtain ⟨_, _, requested, apic⟩ := @step_accept core r found.1 found.2 settled taken
          have fewer : (core.step (.accept r)).apic.requested = Function.update core.apic.requested found.1 false := by
            rw [apic]
            split <;> rfl
          rw [fewer, Option.map_some, Function.update_apply]
          by_cases same : vector = found.1
          · rw [if_pos (congrArg some same.symm), if_pos same, same, requested]
            rfl
          · rw [if_neg fun found => same (Option.some.inj found).symm, if_neg same, Nat.zero_add]

/-- However interrupts are requested and accepted, none is lost and none is handled without a request. Although
the scheduler acknowledges its interrupt twice, only what was accepted is retired. -/
theorem requests_handled_once (settled : core.Settled) (events : List CoreEvent) :
    (core.run events).Settled ∧
      (∀ vector, core.apic.requested vector = true → vector ∈ core.handled events ∨ (core.run events).apic.requested vector = true) ∧
      ∀ vector, (core.handled events).count vector + ((core.run events).apic.requested vector).toNat ≤
        (core.apic.requested vector).toNat + core.asked vector events := by
  induction events generalizing core with
  | nil => exact ⟨settled, fun _ requested => .inr requested, fun vector => by rw [handled, asked, List.count_nil]; exact Nat.le_of_eq (Nat.zero_add _)⟩
  | cons event rest ih =>
      obtain ⟨later, kept, counted⟩ := ih (settled.step event)
      refine ⟨later, fun vector requested => ?_, fun vector => ?_⟩
      · rw [handled, List.mem_append, Option.mem_toList]
        rcases step_requested settled event requested with accepted | requested
        · exact .inl (.inl accepted)
        · exact (kept vector requested).imp_left .inr
      · have first := step_handled settled vector event
        have rest := counted vector
        have here : (core.accepted event).toList.count vector = if core.accepted event = some vector then 1 else 0 := by
          cases core.accepted event with
          | none => rfl
          | some found => exact List.count_singleton.trans (if_congr (beq_iff_eq.trans Option.some_inj.symm) rfl rfl)
        rw [handled, List.count_append, here, asked]
        change _ + ((core.step event).run _ |>.apic.requested vector).toNat ≤ _
        omega

/-- A controller that is enabled, with its timer stopped. -/
def stoppedApic : LocalApic := ⟨0, fun _ => false, fun _ => false, 0x1ff, 0, 0, 0x10000, 0⟩

/-- Two requests of the keyboard and one of the scheduler, and two interrupts. -/
def threeRequests : List CoreEvent := [.request 33, .request 0x80, .request 33, .accept (frameOf 0), .accept (frameOf 0)]

theorem requests_handled_once_keyboard :
    (run ⟨handledMachine true, stoppedApic⟩ threeRequests).Settled ∧
      (∀ vector, stoppedApic.requested vector = true → vector ∈ handled ⟨handledMachine true, stoppedApic⟩ threeRequests ∨
        (run ⟨handledMachine true, stoppedApic⟩ threeRequests).apic.requested vector = true) ∧
      ∀ vector, (handled ⟨handledMachine true, stoppedApic⟩ threeRequests).count vector +
          ((run ⟨handledMachine true, stoppedApic⟩ threeRequests).apic.requested vector).toNat ≤
        (stoppedApic.requested vector).toNat + asked vector ⟨handledMachine true, stoppedApic⟩ threeRequests :=
  requests_handled_once ⟨rfl, by decide, fun _ => rfl⟩ threeRequests

/-- The handlers of a kernel whose scheduler is installed. -/
structure Scheduled (core : Core) : Prop where
  settled : core.Settled
  handlers : ∀ i, core.machine.irqHandlers i = some .schedSchedule ↔ i = 96
  positive : 0 < core.period

/-- The scheduler's interrupt is requested, or the timer will request it within a number of ticks. -/
def CountsDown (ticks : Nat) (core : Core) : Prop :=
  core.apic.requested 0x80 = true ∨ 0 < core.apic.current ∧ core.apic.current ≤ ticks ∧ core.apic.lvt = 0x80

theorem CountsDown.mono {ticks more : Nat} (counts : CountsDown ticks core) (le : ticks ≤ more) : CountsDown more core :=
  counts.imp_right fun armed => ⟨armed.1, Nat.le_trans armed.2.1 le, armed.2.2⟩

theorem step_kept (settled : core.Settled) (event : CoreEvent) :
    (core.step event).machine.irqHandlers = core.machine.irqHandlers ∧ (core.step event).period = core.period := by
  cases event with
  | tick => exact ⟨rfl, rfl⟩
  | request vector => exact ⟨rfl, rfl⟩
  | accept r =>
      cases taken : core.apic.accept with
      | none =>
          rw [step_refused taken]
          exact ⟨rfl, rfl⟩
      | some found =>
          obtain ⟨dispatch, _⟩ := @step_accept core r found.1 found.2 settled taken
          exact ⟨dispatch.handlers, by rw [period, period, dispatch.ticks]⟩

theorem Scheduled.step (scheduled : core.Scheduled) (event : CoreEvent) : (core.step event).Scheduled := by
  obtain ⟨handlers, period⟩ := step_kept scheduled.settled event
  exact ⟨scheduled.settled.step event, handlers ▸ scheduled.handlers, period ▸ scheduled.positive⟩

theorem Scheduled.run (scheduled : core.Scheduled) (events : List CoreEvent) :
    (core.run events).Scheduled ∧ (core.run events).period = core.period := by
  induction events generalizing core with
  | nil => exact ⟨scheduled, rfl⟩
  | cons event rest ih =>
      obtain ⟨later, same⟩ := ih (scheduled.step event)
      exact ⟨later, same.trans (step_kept scheduled.settled event).2⟩

/-- A tick brings the scheduler's interrupt nearer, and its handler starts the timer again. -/
theorem CountsDown.step {ticks : Nat} (counts : CountsDown ticks core) (scheduled : core.Scheduled) (event : CoreEvent) :
    core.accepted event = some 0x80 ∧ CountsDown core.period (core.step event) ∨
      CountsDown (if event = .tick then ticks - 1 else ticks) (core.step event) := by
  cases event with
  | tick =>
      refine .inr ?_
      obtain ⟨_, same, added⟩ := core.apic.tick_cases
      have apic : (core.step .tick).apic = _ := same
      rw [CountsDown, apic, if_pos rfl]
      rcases counts with requested | ⟨positive, bound, lvt⟩
      · exact .inl ((added 0x80).mpr (.inl requested))
      · by_cases last : core.apic.current = 1
        · exact .inl ((added 0x80).mpr (.inr ⟨⟨last, lvt ▸ rfl⟩, scheduled.settled.software, by omega⟩))
        · exact .inr ⟨by change 0 < core.apic.current - 1; omega, Nat.sub_le_sub_right bound 1, lvt⟩
  | request vector =>
      refine .inr ?_
      obtain ⟨_, same, added⟩ := core.apic.request_cases vector
      have apic : (core.step (.request vector)).apic = _ := same
      rw [CountsDown, apic, if_neg CoreEvent.noConfusion]
      exact counts.imp_left fun requested => (added 0x80).mpr (.inl requested)
  | accept r =>
      rw [if_neg CoreEvent.noConfusion]
      cases taken : core.apic.accept with
      | none =>
          rw [step_refused taken]
          exact .inr counts
      | some found =>
          obtain ⟨_, low, _, apic⟩ := @step_accept core r found.1 found.2 scheduled.settled taken
          rw [if_congr (scheduled.handlers _) rfl rfl] at apic
          rw [CountsDown, CountsDown, apic]
          by_cases here : found.1 = 0x80
          · rw [if_pos (by omega)]
            exact .inl ⟨congrArg (Option.map Prod.fst) taken |>.trans (congrArg some here), .inr ⟨scheduled.positive, Nat.le_refl _, rfl⟩⟩
          · rw [if_neg (by omega)]
            exact .inr (counts.imp_left fun requested => (Function.update_of_ne (Ne.symm here) ..).trans requested)

theorem CountsDown.run (counts : CountsDown core.period core) (scheduled : core.Scheduled) (events : List CoreEvent) :
    CountsDown core.period (core.run events) := by
  induction events generalizing core with
  | nil => exact counts
  | cons event rest ih =>
      have same := (step_kept scheduled.settled event).2
      have later : CountsDown core.period (core.step event) := by
        rcases counts.step scheduled event with ⟨_, again⟩ | fewer
        · exact again
        · exact fewer.mono (by split <;> omega)
      exact same ▸ ih (same ▸ later) (scheduled.step event)

theorem CountsDown.due {ticks : Nat} (counts : CountsDown ticks core) (scheduled : core.Scheduled) {events : List CoreEvent}
    (enough : ticks ≤ events.count .tick) : 0x80 ∈ core.handled events ∨ (core.run events).apic.requested 0x80 = true := by
  induction events generalizing core ticks with
  | nil =>
      rw [List.count_nil] at enough
      exact .inr (counts.resolve_right fun armed => by omega)
  | cons event rest ih =>
      rw [handled, List.mem_append, Option.mem_toList]
      rcases counts.step scheduled event with ⟨accepted, _⟩ | fewer
      · exact .inl (.inl accepted)
      · refine (ih fewer (scheduled.step event) ?_).imp_left .inr
        rw [List.count_cons] at enough
        by_cases tick : event = .tick
        · rw [if_pos tick]
          rw [if_pos (beq_iff_eq.mpr tick)] at enough
          omega
        · rw [if_neg tick]
          rw [if_neg fun same => tick (beq_iff_eq.mp same)] at enough
          exact enough

/-- Handlers that leave the timer alone. -/
structure Unscheduled (core : Core) : Prop where
  settled : core.Settled
  handlers : ∀ i, core.machine.irqHandlers i ≠ some .schedSchedule

/-- Without the scheduler the timer counts the ticks and nothing else changes it. -/
theorem Unscheduled.run (unscheduled : core.Unscheduled) (events : List CoreEvent) : (core.run events).Unscheduled ∧
    (core.run events).apic.current = core.apic.current - events.count .tick ∧ (core.run events).apic.lvt = core.apic.lvt ∧
    (core.run events).apic.id = core.apic.id := by
  induction events generalizing core with
  | nil => exact ⟨unscheduled, rfl, rfl, rfl⟩
  | cons event rest ih =>
      obtain ⟨settled, handlers⟩ := unscheduled
      have stepped : (core.step event).apic.current = core.apic.current - (if event = .tick then 1 else 0) ∧
          (core.step event).apic.lvt = core.apic.lvt ∧ (core.step event).apic.id = core.apic.id := by
        cases event with
        | tick =>
            obtain ⟨_, same, _⟩ := core.apic.tick_cases
            have apic : (core.step .tick).apic = _ := same
            rw [apic]
            exact ⟨rfl, rfl, rfl⟩
        | request vector =>
            obtain ⟨_, same, _⟩ := core.apic.request_cases vector
            have apic : (core.step (.request vector)).apic = _ := same
            rw [apic]
            exact ⟨rfl, rfl, rfl⟩
        | accept r =>
            cases taken : core.apic.accept with
            | none =>
                rw [step_refused taken]
                exact ⟨rfl, rfl, rfl⟩
            | some found =>
                obtain ⟨_, _, _, apic⟩ := @step_accept core r found.1 found.2 settled taken
                rw [if_neg (handlers _)] at apic
                rw [apic]
                exact ⟨rfl, rfl, rfl⟩
      obtain ⟨current, lvt, id⟩ := stepped
      have later : (core.step event).Unscheduled := ⟨settled.step event, (step_kept settled event).1 ▸ handlers⟩
      obtain ⟨last, counted, masked, same⟩ := ih later
      refine ⟨last, ?_, masked.trans lvt, same.trans id⟩
      change ((core.step event).run rest).apic.current = _
      rw [counted, current, List.count_cons, Nat.sub_sub, Nat.add_comm]
      simp only [beq_iff_eq]

end Core

/-! Calibration and the start of the scheduler -/

/-- The state when `lapic_calibrate_timer` returns, for what happens during its sleep. -/
def calibrated (core : Core) (sleep : List CoreEvent) : Core := endCalibration ((beginCalibration core).run sleep)

theorem beginCalibration_unscheduled (unscheduled : core.Unscheduled) : (beginCalibration core).Unscheduled :=
  ⟨⟨unscheduled.settled.enabled, unscheduled.settled.software, unscheduled.settled.quiet⟩, unscheduled.handlers⟩

/-- The calibration measures the ticks of its sleep, as far as the counter reaches, and leaves the timer stopped. -/
theorem calibrated_ticks (unscheduled : core.Unscheduled) (sleep : List CoreEvent) : (calibrated core sleep).Unscheduled ∧
    (calibrated core sleep).machine.lapic.ticks = min (sleep.count .tick) 0xFFFFFFFF ∧ (calibrated core sleep).apic.current = 0 ∧
    (calibrated core sleep).apic.lvt = 0x10000 ∧ (calibrated core sleep).apic.id = core.apic.id := by
  obtain ⟨slept, counted, _, id⟩ := (beginCalibration_unscheduled unscheduled).run sleep
  refine ⟨⟨⟨slept.settled.enabled, slept.settled.software, slept.settled.quiet⟩, slept.handlers⟩, ?_, rfl, rfl, id⟩
  change 0xFFFFFFFF - ((beginCalibration core).run sleep).apic.current = _
  rw [counted]
  change 0xFFFFFFFF - (0xFFFFFFFF - _) = _
  omega

section

variable {fuel schedIdle handler returned : Nat} {before installed : Machine} (lapic : Lapic)

theorem placeTask_lapic {task : Nat} (run : placeTask task before = .done returned installed) :
    placeTask task { before with lapic } = .done returned { installed with lapic } := by
  unfold placeTask at run ⊢
  cases search : (List.range 256).find? fun i => before.schedTasks i == 0 with
  | some i =>
      simp only [search] at run ⊢
      cases run
      rfl
  | none =>
      simp only [search] at run ⊢
      cases run
      rfl

theorem schedNewTask_lapic (run : schedNewTask fuel schedIdle handler before = .done returned installed) :
    schedNewTask fuel schedIdle handler { before with lapic } = .done returned { installed with lapic } := by
  obtain ⟨task, allocated, search, rest⟩ := Outcome.bind_done.mp run
  obtain ⟨kernel, alloc, embedded⟩ := Outcome.within_done.mp search
  cases embedded
  obtain ⟨stack, stacked, search, place⟩ := Outcome.bind_done.mp rest
  obtain ⟨pmm, again, embedded⟩ := Outcome.within_done.mp search
  cases embedded
  exact Outcome.bind_done.mpr ⟨task, _, Outcome.within_done.mpr ⟨kernel, alloc, rfl⟩,
    Outcome.bind_done.mpr ⟨stack, _, Outcome.within_done.mpr ⟨pmm, again, rfl⟩, placeTask_lapic lapic place⟩⟩

theorem schedInstall_lapic (run : schedInstall fuel schedIdle before = .done () installed) :
    schedInstall fuel schedIdle { before with lapic } = .done () { installed with lapic } := by
  obtain ⟨returned, placed, create, finished⟩ := Outcome.bind_done.mp run
  cases finished
  exact Outcome.bind_done.mpr ⟨returned, _, schedNewTask_lapic lapic create, rfl⟩

theorem schedInstall_handlers (run : schedInstall fuel schedIdle before = .done () installed) :
    installed.lapic = before.lapic ∧ installed.irqHandlers = Function.update before.irqHandlers 96 (some .schedSchedule) := by
  refine ⟨?_, ?_⟩
  · have again := schedInstall_lapic before.lapic run
    have same : installed = { installed with lapic := before.lapic } := (Outcome.done.inj (run.symm.trans again)).2
    have kept : installed.lapic = _ := congrArg Machine.lapic same
    exact kept
  · obtain ⟨returned, placed, create, finished⟩ := Outcome.bind_done.mp run
    obtain ⟨task, created⟩ := schedNewTask_done create
    cases finished
    exact congrArg (fun handlers : Nat → Option IrqHandler => Function.update handlers 96 (some .schedSchedule)) created.handlers

end

namespace Core

/-- Accepted one after another, all requests come to an end. -/
theorem accepts_drain (settled : core.Settled) (r : Registers) (count : Nat)
    (enough : Nat.count (fun vector => core.apic.requested vector = true) 256 ≤ count) :
    ∀ vector < 256, (core.run (List.replicate count (.accept r))).apic.requested vector = false := by
  induction count generalizing core with
  | zero =>
      intro vector low
      exact Bool.eq_false_iff.mpr (Nat.count_iff_forall_not.mp (Nat.le_zero.mp enough) vector low)
  | succ count ih =>
      refine ih (settled.step (.accept r)) ?_
      cases taken : core.apic.accept with
      | none =>
          rw [step_refused taken]
          have clear : Nat.count (fun vector => core.apic.requested vector = true) 256 = 0 := by
            refine Nat.count_iff_forall_not.mpr fun vector low requested => ?_
            have accepts := settled.quiet.accept_isSome low requested
            rw [taken] at accepts
            exact Bool.false_ne_true accepts
          omega
      | some found =>
          obtain ⟨_, low, requested, apic⟩ := @step_accept core r found.1 found.2 settled taken
          have fewer : (core.step (.accept r)).apic.requested = Function.update core.apic.requested found.1 false := by
            rw [apic]
            split <;> rfl
          have counted := @Data.count_add_interval (fun vector => Function.update core.apic.requested found.1 false vector = true)
            (fun vector => core.apic.requested vector = true) _ _ found.1 1 256 (fun vector => ?_) ?_ low
          · simp only [fewer]
            omega
          · by_cases same : vector = found.1
            · rw [same]
              exact iff_of_true requested (.inr ⟨Nat.le_refl _, Nat.lt_succ_self _⟩)
            · rw [Function.update_of_ne same]
              exact (or_iff_left fun between => same (Nat.le_antisymm (Nat.le_of_lt_succ between.2) between.1)).symm
          · intro vector between
            rw [Nat.le_antisymm (Nat.le_of_lt_succ between.2) between.1, Function.update_self]
            exact Bool.false_ne_true

end Core

/-- The end of `_main`: the scheduler's interrupt is requested of the processor it runs on. -/
def startScheduling (machine : Machine) (core : Core) : Core := lapicIpi 0 0x80 ⟨machine, core.apic⟩

theorem startScheduling_requests (settled : core.Settled) (first : core.apic.id = 0) (kept : machine.lapic = core.machine.lapic) :
    (startScheduling machine core).Settled ∧ (startScheduling machine core).apic.requested 0x80 = true ∧
      (startScheduling machine core).machine.irqHandlers = machine.irqHandlers ∧ (startScheduling machine core).period = core.period := by
  have addressed : 0x80 &&& 0x700 = 0 ∧ 0 / 2 ^ 24 = core.apic.id := ⟨rfl, first.symm⟩
  have apic : (startScheduling machine core).apic = LocalApic.request 0x80 { core.apic with destination := 0 } := if_pos addressed
  obtain ⟨requested, same, added⟩ := LocalApic.request_cases 0x80 { core.apic with destination := 0 }
  have enabled : (startScheduling machine core).machine.lapic.enabled = machine.lapic.enabled := rfl
  have ticks : (startScheduling machine core).machine.lapic.ticks = machine.lapic.ticks := rfl
  rw [same] at apic
  refine ⟨⟨?_, ?_, ?_⟩, ?_, rfl, ?_⟩
  · rw [enabled, kept]
    exact settled.enabled
  · rw [apic]
    exact settled.software
  · rw [apic]
    exact settled.quiet
  · rw [apic]
    exact (added 0x80).mpr (.inr ⟨settled.software, rfl⟩)
  · rw [Core.period, ticks, kept, Core.period]

/-- The scheduler's interrupt comes back whenever the timer has counted five times the ticks of the calibration,
unless this number is a multiple of two to the power of 32. -/
theorem scheduler_comes_back_iff {fuel schedIdle : Nat} {sleep : List CoreEvent} (first : core.apic.id = 0) (unscheduled : core.Unscheduled)
    (counted : sleep.count .tick < 2 ^ 32)
    (install : schedInstall fuel schedIdle (calibrated core sleep).machine = .done () machine) :
    (∀ before behind : List CoreEvent, sleep.count .tick * 5 % 2 ^ 32 ≤ behind.count .tick →
      0x80 ∈ ((startScheduling machine (calibrated core sleep)).run before).handled behind ∨
        ((startScheduling machine (calibrated core sleep)).run (before ++ behind)).apic.requested 0x80 = true) ↔
      sleep.count .tick * 5 % 2 ^ 32 ≠ 0 := by
  obtain ⟨stopped, ticks, _, _, same⟩ := calibrated_ticks unscheduled sleep
  obtain ⟨kept, handlers⟩ := schedInstall_handlers install
  obtain ⟨settled, requested, scheduler, period⟩ := startScheduling_requests stopped.settled (same.trans first) kept
  obtain ⟨booted, start⟩ : ∃ booted, booted = startScheduling machine (calibrated core sleep) := ⟨_, rfl⟩
  rw [← start] at settled requested scheduler period ⊢
  have measured : booted.period = sleep.count .tick * 5 % 2 ^ 32 := by
    rw [period, Core.period, ticks]
    omega
  rw [← measured]
  constructor
  · intro returns stuck
    have drained := Core.accepts_drain settled (frameOf 0) 256 (Nat.count_le ..) 0x80 (by decide)
    have again := returns (List.replicate 256 (.accept (frameOf 0))) [] (stuck.trans_le (Nat.zero_le _))
    rw [List.append_nil, drained] at again
    exact again.elim List.not_mem_nil Bool.false_ne_true
  · intro positive before behind enough
    have scheduled : booted.Scheduled := by
      refine ⟨settled, fun i => ?_, Nat.pos_of_ne_zero positive⟩
      rw [scheduler, handlers, Function.update_apply]
      by_cases here : i = 96
      · rw [if_pos here]
        exact iff_of_true rfl here
      · rw [if_neg here]
        exact iff_of_false (stopped.handlers i) here
    obtain ⟨later, same⟩ := scheduled.run before
    have counts : Core.CountsDown booted.period (booted.run before) := Core.CountsDown.run (.inl requested) scheduled before
    rw [Core.run_append]
    exact counts.due later enough

/-- A calibration during which the timer counts twice. -/
def twoTicks : List CoreEvent := [.tick, .tick]

def freshCore (kernel : Kernel) : Core := ⟨freshMachine kernel 0, Core.stoppedApic⟩

theorem scheduler_comes_back_iff_installed : ∃ kernel machine,
    (∀ before behind : List CoreEvent, twoTicks.count .tick * 5 % 2 ^ 32 ≤ behind.count .tick →
      0x80 ∈ ((startScheduling machine (calibrated (freshCore kernel) twoTicks)).run before).handled behind ∨
        ((startScheduling machine (calibrated (freshCore kernel) twoTicks)).run (before ++ behind)).apic.requested 0x80 = true) ↔
      twoTicks.count .tick * 5 % 2 ^ 32 ≠ 0 := by
  obtain ⟨_, _, kernel, _, fuel, installed, _, _, _, install, _⟩ := freshMachine_install 0 0x201000
  have unscheduled : (freshCore kernel).Unscheduled :=
    ⟨⟨rfl, show Core.stoppedApic.spurious.testBit 8 = true by decide, fun _ => rfl⟩, fun _ => (Option.some_ne_none _).symm⟩
  have same : { freshMachine kernel 0 with lapic := (calibrated (freshCore kernel) twoTicks).machine.lapic } =
      (calibrated (freshCore kernel) twoTicks).machine := rfl
  have again := schedInstall_lapic (calibrated (freshCore kernel) twoTicks).machine.lapic install
  rw [same] at again
  exact ⟨kernel, _, scheduler_comes_back_iff rfl unscheduled (by decide) again⟩

end BarrelOS.Sched
