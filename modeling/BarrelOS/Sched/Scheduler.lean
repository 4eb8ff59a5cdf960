import BarrelOS.Memory.Heap

namespace BarrelOS.Sched

open BarrelOS.Memory BarrelOS.Semantics

/-- `struct registers`, the frame an interrupt stub leaves on the stack. -/
structure Registers where
  edi : Nat
  esi : Nat
  ebp : Nat
  esp : Nat
  ebx : Nat
  edx : Nat
  ecx : Nat
  eax : Nat
  intNo : Nat
  errCode : Nat
  eip : Nat
  cs : Nat
  eflags : Nat
  userEsp : Nat
  ss : Nat
deriving DecidableEq, Repr

/-- `struct task_t`. -/
structure Task where
  ctx : Registers
  pid : Nat
  quantum : Nat
deriving DecidableEq, Repr

def sizeofTask : Nat := 68

/-- The functions the kernel registers as interrupt handlers. -/
inductive IrqHandler where
  | pitHandler
  | schedSchedule
deriving DecidableEq, Repr

/-! `lapic.c` -/

/-- `lapic_enabled`, `lapic_ticks`, the writes to the registers that were tried, latest
first, and the number of those at which the processor page-faulted: the page of the
registers is mapped where `lapic_enabled` is set, and not before. -/
structure Lapic where
  enabled : Bool
  ticks : Nat
  writes : List (Nat × Nat)
  faults : Nat

namespace Lapic

def write (reg value : Nat) (lapic : Lapic) : Lapic :=
  { lapic with writes := (reg, value) :: lapic.writes, faults := lapic.faults + if lapic.enabled then 0 else 1 }

def stopTimer (lapic : Lapic) : Lapic := (lapic.write 0x380 0).write 0x320 0x10000

def oneshot (vector ms : Nat) (lapic : Lapic) : Lapic :=
  ((lapic.stopTimer.write 0x3E0 0).write 0x320 vector).write 0x380 (lapic.ticks * ms % 2 ^ 32)

def eoi (lapic : Lapic) : Lapic := lapic.write 0xb0 0

end Lapic

/-- `pic_eoi`, as the writes to I/O ports it adds, latest first. Both `PIC1` and
`PIC2` are defined as 0x20, and the number is cut to a byte. -/
def picEoi (no : Nat) (ports : List (Nat × Nat)) : List (Nat × Nat) :=
  (0x20, 0x20) :: if 8 ≤ no % 2 ^ 8 then (0x20, 0x20) :: ports else ports

/-- The memory manager, the `task_t` at an address, the scheduler's globals with 0
for `NULL`, and the state of the interrupts. -/
structure Machine where
  kernel : Kernel
  task : Nat → Task
  schedPid : Nat
  schedQuantum : Nat
  schedTasks : Nat → Nat
  currentTask : Nat
  irqHandlers : Nat → Option IrqHandler
  pitTicks : Nat
  lapic : Lapic
  ports : List (Nat × Nat)

namespace Machine

def withKernel (machine : Machine) (kernel : Kernel) : Machine := { machine with kernel }

def setTask (machine : Machine) (address : Nat) (task : Task) : Machine :=
  { machine with task := Function.update machine.task address task }

/-- The `memset` of `sched_install`. -/
def clearTasks (machine : Machine) : Machine :=
  { machine with schedTasks := fun i => if i < 256 then 0 else machine.schedTasks i }

/-- The assignment of `irq_register`, which is all it does for a vector above 15. -/
def setHandler (machine : Machine) (vector : Nat) (handler : IrqHandler) : Machine :=
  { machine with irqHandlers := Function.update machine.irqHandlers vector (some handler) }

end Machine

/-! `sched.c` -/

/-- The loop of `sched_new_task` over `sched_tasks`. -/
def placeTask (task : Nat) (machine : Machine) : Outcome Machine Nat :=
  match (List.range 256).find? fun i => machine.schedTasks i == 0 with
  | some i => .done task { machine with schedTasks := Function.update machine.schedTasks i task }
  | none => .done 0 machine

def schedNewTask (fuel schedIdle handler : Nat) (machine : Machine) : Outcome Machine Nat :=
  ((kmalloc fuel sizeofTask machine.kernel).within machine.withKernel).bind fun task machine =>
    let pid := if handler = schedIdle then 0 else machine.schedPid
    let schedPid := if handler = schedIdle then machine.schedPid else (machine.schedPid + 1) % 2 ^ 32
    let machine := { machine.setTask task { machine.task task with pid, quantum := 20 } with schedPid }
    ((pmmAlloc fuel 1 machine.kernel.vmm.pmm).within fun pmm =>
      machine.withKernel (machine.kernel.withPmm pmm)).bind fun stack machine =>
        let ctx := { (machine.task task).ctx with esp := higherHalf stack }
        placeTask task (machine.setTask task { machine.task task with ctx })

def schedGetNextTask (machine : Machine) : Nat :=
  match (List.range 255).find? fun i =>
    machine.schedTasks i == machine.currentTask && machine.schedTasks (i + 1) != 0 with
  | some i => machine.schedTasks (i + 1)
  | none => machine.schedTasks 0

/-- The interrupted frame is neither kept nor changed while the quantum lasts, and
is overwritten with the next task's context after that. -/
def schedSchedule (r : Registers) (machine : Machine) : Registers × Machine :=
  let lapic := machine.lapic.stopTimer
  if machine.schedQuantum > 0 then
    (r, { machine with schedQuantum := machine.schedQuantum - 1, lapic := lapic.eoi.oneshot 0x80 5 })
  else
    let currentTask := schedGetNextTask machine
    let schedQuantum := (machine.task currentTask).quantum
    let r := if currentTask ≠ 0 then (machine.task currentTask).ctx else r
    (r, { machine with currentTask, schedQuantum, lapic := lapic.eoi.oneshot 0x80 5 })

def schedInstall (fuel schedIdle : Nat) (machine : Machine) : Outcome Machine Unit :=
  (schedNewTask fuel schedIdle schedIdle machine.clearTasks).bind fun _ machine =>
    .done () (machine.setHandler (0x80 - 32) .schedSchedule)

/-! `irq_handler`, which returns from the interrupt with the frame its handler left -/

def pitHandler (r : Registers) (machine : Machine) : Registers × Machine :=
  (r, { machine with pitTicks := (machine.pitTicks + 1) % 2 ^ 32 })

def IrqHandler.run : IrqHandler → Registers → Machine → Registers × Machine
  | .pitHandler => Sched.pitHandler
  | .schedSchedule => Sched.schedSchedule

def irqHandler (r : Registers) (machine : Machine) : Registers × Machine :=
  let (r, machine) :=
    match machine.irqHandlers ((r.intNo + 2 ^ 32 - 32) % 2 ^ 32) with
    | some handler => handler.run r machine
    | none => (r, machine)
  if machine.lapic.enabled then (r, { machine with lapic := machine.lapic.eoi })
  else (r, { machine with ports := picEoi r.intNo machine.ports })

variable {fuel schedIdle handler returned task : Nat} {before after machine : Machine} {r : Registers}

/-! What the functions do -/

theorem placeTask_done (run : placeTask task before = .done returned after) :
    (returned = task ∧ ∃ i < 256, (∀ j < i, before.schedTasks j ≠ 0) ∧ before.schedTasks i = 0 ∧
      after = { before with schedTasks := Function.update before.schedTasks i task }) ∨
    (returned = 0 ∧ (∀ i < 256, before.schedTasks i ≠ 0) ∧ after = before) := by
  unfold placeTask at run
  split at run
  · rename_i i found
    cases run
    obtain ⟨zero, bound, earlier⟩ := List.find?_range_eq_some.mp found
    exact .inl ⟨rfl, i, List.mem_range.mp bound, fun j before => by simpa using earlier j before,
      by simpa using zero, rfl⟩
  · rename_i full
    cases run
    exact .inr ⟨rfl, by simpa using full, rfl⟩

/-- A `sched_new_task` that returns: the block at `task` is filled in but for the
registers other than `esp`. -/
structure NewTask (fuel schedIdle handler task : Nat) (before : Machine) (returned : Nat) (after : Machine) :
    Prop where
  memory : ∃ kernel stack pmm, kmalloc fuel sizeofTask before.kernel = .done task kernel ∧
    pmmAlloc fuel 1 kernel.vmm.pmm = .done stack pmm ∧ after.kernel = kernel.withPmm pmm ∧
    (after.task task).ctx = { (before.task task).ctx with esp := higherHalf stack }
  others : ∀ other ≠ task, after.task other = before.task other
  pid : (after.task task).pid = if handler = schedIdle then 0 else before.schedPid
  quantum : (after.task task).quantum = 20
  schedPid : after.schedPid = if handler = schedIdle then before.schedPid else (before.schedPid + 1) % 2 ^ 32
  placed : returned = task ∧ (∃ i < 256, (∀ j < i, before.schedTasks j ≠ 0) ∧ before.schedTasks i = 0 ∧
      after.schedTasks = Function.update before.schedTasks i task) ∨
    returned = 0 ∧ (∀ i < 256, before.schedTasks i ≠ 0) ∧ after.schedTasks = before.schedTasks
  current : after.currentTask = before.currentTask
  left : after.schedQuantum = before.schedQuantum
  handlers : after.irqHandlers = before.irqHandlers

theorem schedNewTask_done (run : schedNewTask fuel schedIdle handler before = .done returned after) :
    ∃ task, NewTask fuel schedIdle handler task before returned after := by
  obtain ⟨task, allocated, search, rest⟩ := Outcome.bind_done.mp run
  obtain ⟨kernel, alloc, embedded⟩ := Outcome.within_done.mp search
  cases embedded
  obtain ⟨stack, stacked, search, place⟩ := Outcome.bind_done.mp rest
  obtain ⟨pmm, again, embedded⟩ := Outcome.within_done.mp search
  cases embedded
  have others : ∀ other ≠ task, ∀ value last : Task,
      Function.update (Function.update before.task task value) task last other = before.task other := by
    intro other elsewhere value last
    rw [Function.update_of_ne elsewhere, Function.update_of_ne elsewhere]
  refine ⟨task, ?_⟩
  rcases placeTask_done place with ⟨rfl, i, bound, earlier, zero, rfl⟩ | ⟨rfl, full, rfl⟩
  · refine ⟨⟨kernel, stack, pmm, alloc, again, rfl, ?_⟩, fun other elsewhere => others other elsewhere _ _, ?_, ?_, rfl,
      .inl ⟨rfl, i, bound, earlier, zero, rfl⟩, rfl, rfl, rfl⟩ <;>
    simp [Machine.setTask, Machine.withKernel]
  · refine ⟨⟨kernel, stack, pmm, alloc, again, rfl, ?_⟩, fun other elsewhere => others other elsewhere _ _, ?_, ?_, rfl,
      .inr ⟨rfl, full, rfl⟩, rfl, rfl, rfl⟩ <;>
    simp [Machine.setTask, Machine.withKernel]

theorem schedNewTask_alloc {kernel : Kernel} (alloc : kmalloc fuel sizeofTask before.kernel = .done task kernel)
    (run : schedNewTask fuel schedIdle handler before = .done returned after) :
    NewTask fuel schedIdle handler task before returned after := by
  obtain ⟨block, created⟩ := schedNewTask_done run
  obtain ⟨_, _, _, allocated, _⟩ := created.memory
  cases alloc.symm.trans allocated
  exact created

theorem NewTask.takes {kernel : Kernel} {stack : Nat} {pmm : Pmm}
    (created : NewTask fuel schedIdle handler task before returned after)
    (alloc : kmalloc fuel sizeofTask before.kernel = .done task kernel)
    (page : pmmAlloc fuel 1 kernel.vmm.pmm = .done stack pmm) : after.kernel = kernel.withPmm pmm ∧
      (after.task task).ctx = { (before.task task).ctx with esp := higherHalf stack } := by
  obtain ⟨_, _, _, allocated, again, taken⟩ := created.memory
  cases alloc.symm.trans allocated
  cases page.symm.trans again
  exact taken

theorem schedGetNextTask_mem (first : machine.schedTasks 0 ≠ 0) :
    ∃ i < 256, schedGetNextTask machine = machine.schedTasks i ∧ machine.schedTasks i ≠ 0 := by
  unfold schedGetNextTask
  split
  · rename_i i found
    obtain ⟨both, bound, _⟩ := List.find?_range_eq_some.mp found
    simp only [Bool.and_eq_true, bne_iff_ne] at both
    exact ⟨i + 1, Nat.succ_lt_succ (List.mem_range.mp bound), rfl, both.2⟩
  · exact ⟨0, by decide, rfl, first⟩

structure SameTasks (before after : Machine) : Prop where
  kernel : after.kernel = before.kernel
  task : after.task = before.task
  schedPid : after.schedPid = before.schedPid
  schedTasks : after.schedTasks = before.schedTasks
  handlers : after.irqHandlers = before.irqHandlers

section

variable (vector : r.intNo = 0x80) (handled : before.irqHandlers 96 = some .schedSchedule)
include vector handled

theorem irqHandler_schedule : ∃ lapic ports, irqHandler r before =
    ((schedSchedule r before).1, { (schedSchedule r before).2 with lapic, ports }) := by
  have index : (r.intNo + 2 ^ 32 - 32) % 2 ^ 32 = 96 := by omega
  simp only [irqHandler, index, handled, IrqHandler.run]
  split <;> exact ⟨_, _, rfl⟩

theorem irqHandler_tick (waiting : 0 < before.schedQuantum) :
    (irqHandler r before).1 = r ∧ SameTasks before (irqHandler r before).2 ∧
      (irqHandler r before).2.currentTask = before.currentTask ∧
      (irqHandler r before).2.schedQuantum = before.schedQuantum - 1 := by
  obtain ⟨lapic, ports, same⟩ := irqHandler_schedule vector handled
  rw [same, schedSchedule, if_pos waiting]
  exact ⟨rfl, ⟨rfl, rfl, rfl, rfl, rfl⟩, rfl, rfl⟩

theorem irqHandler_switch (expired : before.schedQuantum = 0) (first : before.schedTasks 0 ≠ 0) :
    SameTasks before (irqHandler r before).2 ∧
      (irqHandler r before).2.currentTask = schedGetNextTask before ∧
      (irqHandler r before).2.schedQuantum = (before.task (schedGetNextTask before)).quantum ∧
      (irqHandler r before).1 = (before.task (schedGetNextTask before)).ctx := by
  obtain ⟨lapic, ports, same⟩ := irqHandler_schedule vector handled
  have spent : ¬ before.schedQuantum > 0 := by simp [expired]
  obtain ⟨i, _, next, present⟩ := schedGetNextTask_mem first
  have loaded : schedGetNextTask before ≠ 0 := next ▸ present
  rw [same, schedSchedule, if_neg spent]
  exact ⟨⟨rfl, rfl, rfl, rfl, rfl⟩, rfl, rfl, if_pos loaded⟩

end

end BarrelOS.Sched
