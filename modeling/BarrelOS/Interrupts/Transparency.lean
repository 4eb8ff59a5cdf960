import BarrelOS.Interrupts.Delivery
import BarrelOS.Sched.Acknowledge
import BarrelOS.X86.Below

namespace BarrelOS.Interrupts

open BarrelOS.Boot BarrelOS.Data BarrelOS.Sched BarrelOS.Semantics BarrelOS.X86

/-! `isr_handler` and `irq_handler` behind the stubs -/

/-- What `isr_handler` prints of an exception: its entry of `isr_errors`, and `cr2` for a page fault. -/
structure Report where
  error : String
  address : Option Nat
deriving DecidableEq, Repr

/-- What the handlers work on, and the exceptions reported, latest first. -/
structure Host where
  machine : Machine
  cr2 : Nat
  reports : List Report

def isrErrors : List String :=
  ["division by zero", "debug", "non-maskable interrupt", "breakpoint", "detected overflow", "out-of-bounds", "invalid opcode",
    "no coprocessor", "double fault", "coprocessor segment overrun", "bad TSS", "segment not present", "stack fault",
    "general protection fault", "page fault", "unknown interrupt", "coprocessor fault", "alignment check", "machine check",
    "reserved", "reserved", "reserved", "reserved", "reserved", "reserved", "reserved", "reserved", "reserved", "reserved",
    "reserved", "reserved", "reserved"]

/-- It stops the processor once it has reported the exception. -/
def isrHandler (r : Registers) (host : Host) : Outcome Host Registers :=
  if r.intNo = 0xff then .done r host
  else
    match isrErrors[r.intNo]? with
    | none => .faulted host
    | some error => .running { host with reports := ⟨error, if r.intNo = 0x0e then some host.cr2 else none⟩ :: host.reports }

def kernelHandlers : Callee → Registers → Host → Outcome Host Registers
  | .isrHandler, r, host => isrHandler r host
  | .irqHandler, r, host => .done (Sched.irqHandler r host.machine).1 { host with machine := (Sched.irqHandler r host.machine).2 }

/-- An interrupt of this vector goes back to another task. -/
def Switches (vector : Nat) (machine : Machine) : Prop :=
  machine.irqHandlers ((vector + 2 ^ 32 - 32) % 2 ^ 32) = some .schedSchedule ∧ machine.schedQuantum = 0 ∧ schedGetNextTask machine ≠ 0

/-! A program and its interrupts -/

/-- A step of a program, or an interrupt in front of its next step. -/
inductive Event where
  | step (run : Cpu → Option Cpu)
  | interrupt (vector behind : Nat) (leave : Leftover)

/-- The steps alone. -/
def undisturbed : List Event → Cpu → Option Cpu
  | [], cpu => some cpu
  | .step run :: rest, cpu => (run cpu).bind (undisturbed rest)
  | .interrupt .. :: rest, cpu => undisturbed rest cpu

section

variable (idtIntTable : Nat → Nat) (idt : Idt) (bottom : Nat)

def execute : List Event → State Host → Outcome (State Host) Unit
  | [], state => .done () state
  | .step run :: rest, state => (state.lift (run state.cpu)).bind fun _ state => execute rest state
  | .interrupt vector behind leave :: rest, state =>
      (interrupt idtIntTable idt kernelHandlers vector none leave behind state).bind fun _ state => execute rest state

/-- A processor that can be interrupted without a switch, above the bottom of its stack. -/
structure Interruptible (vector behind : Nat) (leave : Leftover) (cpu : Cpu) (machine : Machine) : Prop
    extends Ready idtIntTable idt vector behind leave cpu where
  irq : 32 ≤ vector
  above : bottom + 56 + leave.scratch.length ≤ cpu.reg .esp
  code : cpu.loadSegment .cs (cpu.seg .cs).selector = some cpu
  table : ∀ i < 8, (cpu.gdtr.base + (cpu.seg .cs).selector + i) % 2 ^ 32 < bottom ∨
    cpu.reg .esp ≤ (cpu.gdtr.base + (cpu.seg .cs).selector + i) % 2 ^ 32
  stays : ¬ Switches vector machine

/-- Every interrupt comes where the processor can be interrupted, and no step takes the stack pointer to zero. -/
def Allowed : List Event → State Host → Prop
  | [], _ => True
  | .step run :: rest, state => ∀ next, run state.cpu = some next → 0 < next.reg .esp ∧ Allowed rest ⟨next, state.world⟩
  | .interrupt vector behind leave :: rest, state =>
      Interruptible idtIntTable idt bottom vector behind leave state.cpu state.world.machine ∧
        ∀ after, interrupt idtIntTable idt kernelHandlers vector none leave behind state = .done () after → Allowed rest after

end

variable {idtIntTable : Nat → Nat} {idt : Idt} {bottom vector behind : Nat} {leave : Leftover} {cpu other last : Cpu}
  {host : Host} {events : List Event} {r : Registers} {machine : Machine}

theorem irqHandler_frame (stays : ¬ Switches r.intNo machine) : (Sched.irqHandler r machine).1 = r := by
  have first : (Sched.irqHandler r machine).1 = (handled r machine).1 := apply_ite Prod.fst _ _ _ |>.trans (ite_self _)
  rw [first]
  by_cases scheduled : machine.handlerOf r = some .schedSchedule
  · rw [handled_schedule scheduled]
    by_cases waiting : machine.schedQuantum > 0
    · rw [schedSchedule, if_pos waiting]
    · rw [schedSchedule, if_neg waiting]
      exact if_neg fun next => stays ⟨scheduled, Nat.eq_zero_of_not_pos waiting, next⟩
  · exact (handled_other scheduled).1

theorem kernelHandlers_irq (irq : 32 ≤ vector) :
    kernelHandlers (calleeOf vector) r host =
      .done (Sched.irqHandler r host.machine).1 { host with machine := (Sched.irqHandler r host.machine).2 } := by
  rw [calleeOf, if_pos irq]
  rfl

namespace Interruptible

variable {memory : Bytes} (able : Interruptible idtIntTable idt bottom vector behind leave cpu machine)
include able

/-- The two words above what the processor has pushed are left as they were read. -/
theorem kept (holds : memory.Holds (cpu.reg .esp - 52) (wordsBytes (frame cpu vector 0).words))
    (outside : ∀ place, place < cpu.reg .esp - (56 + leave.scratch.length) ∨ cpu.reg .esp + 8 ≤ place → memory place = cpu.memory place)
    {place : Nat} (apart : place < bottom ∨ cpu.reg .esp ≤ place) : memory place = cpu.memory place := by
  have above := able.above
  have top := able.top
  by_cases beside : cpu.reg .esp ≤ place ∧ place < cpu.reg .esp + 8
  · have behind : memory.Holds (cpu.reg .esp - 52 + 52) (wordsBytes (wordsAt cpu.memory (cpu.reg .esp) 2)) := by
      rw [frame_words, wordsBytes_append, Bytes.holds_append] at holds
      exact holds.2
    rw [show cpu.reg .esp - 52 + 52 = cpu.reg .esp by omega] at behind
    have inside : place - cpu.reg .esp < (wordsBytes (wordsAt cpu.memory (cpu.reg .esp) 2)).length := by
      rw [wordsBytes_length]
      change place - cpu.reg .esp < 4 * 2
      omega
    have same := Bytes.holds_same behind (wordsAt_holds _ _ _) inside
    rw [show (cpu.reg .esp + (place - cpu.reg .esp)) % 2 ^ 32 = place by omega] at same
    exact same
  · exact outside place (by omega)

/-- With the frame that it was interrupted in, the processor goes on where it was. -/
theorem goes_back (kept : ∀ place, place < bottom ∨ cpu.reg .esp ≤ place → memory place = cpu.memory place) :
    (restored (frame cpu vector 0) memory cpu).returnTo (frame cpu vector 0).eip ((frame cpu vector 0).cs % 2 ^ 16)
      (frame cpu vector 0).eflags = some { cpu with memory } := by
  obtain ⟨descriptor, found, fits, segment⟩ := Cpu.loadSegment_some able.code
  have again : ({ cpu with memory } : Cpu).descriptor (cpu.seg .cs).selector = some descriptor :=
    (@Cpu.descriptor_congr cpu { cpu with memory } _ rfl fun i low => kept _ (able.table i low)).trans found
  have registers : restored (frame cpu vector 0) memory cpu = { cpu with memory } := by
    have values : Reg.values _ _ _ _ _ _ _ _ = cpu.reg := Reg.values_eta cpu.reg
    exact congrArg (fun reg => { cpu with reg, memory }) values
  have selector : (cpu.seg .cs).selector % 2 ^ 16 = (cpu.seg .cs).selector := Nat.mod_eq_of_lt able.words.selector
  have seg : ({ cpu with memory } : Cpu).setSegment .cs (descriptor.segment (cpu.seg .cs).selector) = { cpu with memory } :=
    congrArg (fun cpu : Cpu => { cpu with memory }) segment.symm
  change Cpu.returnTo _ cpu.eip ((cpu.seg .cs).selector % 2 ^ 16) cpu.eflags = _
  rw [registers, selector, Cpu.returnTo_eq, again, Option.bind_some, if_pos fits, seg]

end Interruptible

/-- A handled interrupt leaves the processor as it was, and memory above the stack pointer. -/
theorem interrupt_undisturbed (able : Interruptible idtIntTable idt bottom vector behind leave cpu host.machine) :
    ∃ memory, interrupt idtIntTable idt kernelHandlers vector none leave behind ⟨cpu, host⟩ =
        .done () ⟨{ cpu with memory }, { host with machine := (Sched.irqHandler (frame cpu vector 0) host.machine).2 }⟩ ∧
      Alike bottom cpu { cpu with memory } := by
  have same : (Sched.irqHandler (frame cpu vector 0) host.machine).1 = frame cpu vector 0 := irqHandler_frame able.stays
  have handled : kernelHandlers (calleeOf vector) (frame cpu vector 0) host =
      .done (frame cpu vector 0) { host with machine := (Sched.irqHandler (frame cpu vector 0) host.machine).2 } := by
    rw [kernelHandlers_irq able.irq, same]
  have given := able.words.frame able.byte (by decide : 0 < 2 ^ 32)
  obtain ⟨memory, ends, holds, outside⟩ := interrupt_ends able.toReady (matchesStub_irq able.irq) (by decide) given handled
  have kept : ∀ place, place < bottom ∨ cpu.reg .esp ≤ place → memory place = cpu.memory place :=
    fun _ apart => able.kept holds outside apart
  refine ⟨memory, ?_, rfl, kept⟩
  rw [able.goes_back kept] at ends
  exact ends

/-- A program that its interrupts do not switch away from does what it does without them. -/
theorem interrupts_transparent (oblivious : ∀ run, .step run ∈ events → Oblivious bottom run) (level : OnFlat cpu)
    (allowed : Allowed idtIntTable idt bottom events ⟨cpu, host⟩) (alone : undisturbed events cpu = some last) :
    ∃ final after, execute idtIntTable idt events ⟨cpu, host⟩ = .done () ⟨final, after⟩ ∧ Alike bottom last final := by
  have general : ∀ events (cpu other : Cpu) (host : Host), (∀ run, .step run ∈ events → Oblivious bottom run) → OnFlat cpu →
      Alike bottom cpu other → Allowed idtIntTable idt bottom events ⟨other, host⟩ → undisturbed events cpu = some last →
      ∃ final after, execute idtIntTable idt events ⟨other, host⟩ = .done () ⟨final, after⟩ ∧ Alike bottom last final := by
    intro events
    induction events with
    | nil =>
        intro cpu other host _ _ alike _ alone
        cases alone
        exact ⟨other, host, rfl, alike⟩
    | cons event events ih =>
        intro cpu other host oblivious level alike allowed alone
        have rest : ∀ run, .step run ∈ events → Oblivious bottom run := fun run member => oblivious run (List.mem_cons_of_mem _ member)
        cases event with
        | step run =>
            obtain ⟨next, stepped, alone⟩ := Option.bind_eq_some_iff.mp alone
            obtain ⟨level, other, again, same, alike⟩ := oblivious run List.mem_cons_self cpu other next level alike stepped
            obtain ⟨positive, allowed⟩ := allowed other again
            obtain ⟨final, after, ran, last⟩ := ih next other host rest level (alike (same ▸ positive)) allowed alone
            refine ⟨final, after, ?_, last⟩
            rw [execute, again]
            exact ran
        | interrupt vector behind leave =>
            obtain ⟨able, allowed⟩ := allowed
            obtain ⟨memory, returned, same⟩ := interrupt_undisturbed able
            obtain ⟨final, after, run, last⟩ := ih cpu _ _ rest level (alike.trans same) (allowed _ returned) alone
            refine ⟨final, after, ?_, last⟩
            rw [execute, returned]
            exact run
  exact general events cpu cpu host oblivious level (.refl bottom cpu) allowed alone

/-! A step behind an interrupt -/

def idleHost : Host := ⟨handledMachine true, 0x123000, []⟩

def keyThenStep : List Event := [.interrupt 33 0x200300 noScratch, .step fun cpu => cpu.step (.movImm .eax 5 : Instr Empty)]

theorem interrupts_transparent_key : ∃ idt final after,
    execute kernelStubs idt keyThenStep ⟨kernelCpu, idleHost⟩ = .done () ⟨final, after⟩ ∧
      Alike 0x200000 (kernelCpu.setReg .eax 5) final := by
  obtain ⟨idt, tables⟩ := kernelCpu_tables
  have able : Interruptible kernelStubs idt 0x200000 33 0x200300 noScratch kernelCpu idleHost.machine := {
    toReady := tables.ready kernelCpu_roomy (by decide) (by decide)
    irq := by decide
    above := by decide
    code := by
      have kept : kernelCpu.setSegment .cs (flatSegment 0x08) = kernelCpu :=
        congrArg (fun seg => { kernelCpu with seg }) (Function.update_eq_self .cs kernelCpu.seg)
      exact tables.gdt.loadCode.trans (congrArg some kept)
    table := fun i low => .inr (by
      change 0x208000 ≤ (0x210000 + 8 + i) % 2 ^ 32
      omega)
    stays := fun switches => by cases switches.1 }
  refine ⟨idt, interrupts_transparent ?_ ⟨⟨rfl, rfl⟩, by decide⟩ ?_ rfl⟩
  · intro run member
    cases member with
    | tail _ member =>
        cases member with
        | head => exact oblivious_step (Reg.noConfusion : (.eax : Reg) ≠ .esp)
        | tail _ member => cases member
  · refine ⟨able, fun state done => ?_⟩
    obtain ⟨memory, returned, _⟩ := interrupt_undisturbed able
    cases returned.symm.trans done
    intro next stepped
    cases Option.some.inj stepped
    exact ⟨show 0 < kernelCpu.reg .esp by decide, trivial⟩

end BarrelOS.Interrupts
