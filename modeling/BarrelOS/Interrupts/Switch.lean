import BarrelOS.Interrupts.Transparency

namespace BarrelOS.Interrupts

open BarrelOS.Boot BarrelOS.Data BarrelOS.Sched BarrelOS.Semantics BarrelOS.X86

/-! A context switch on the processor -/

/-- The context of the task that is next. -/
def nextContext (machine : Machine) : Registers := (machine.task (schedGetNextTask machine)).ctx

/-- The processor goes on with a context, on the stack of the interrupted task. Two words of that
stack are taken for fields of the frame and overwritten. -/
structure SwitchedTo (ctx : Registers) (leave : Leftover) (cpu last : Cpu) : Prop where
  reg : last.reg = Reg.values ctx.edi ctx.esi ctx.ebp (cpu.reg .esp) ctx.ebx ctx.edx ctx.ecx ctx.eax
  eip : last.eip = ctx.eip
  eflags : last.eflags = ctx.eflags
  userEsp : last.memory.load32 (cpu.reg .esp) = ctx.userEsp
  ss : last.memory.load32 (cpu.reg .esp + 4) = ctx.ss
  outside : ∀ place, place < cpu.reg .esp - (56 + leave.scratch.length) ∨ cpu.reg .esp + 8 ≤ place → last.memory place = cpu.memory place

variable {idtIntTable : Nat → Nat} {idt : Idt} {gdtEntries vector behind : Nat} {leave : Leftover} {cpu : Cpu} {host : Host}
  {r : Registers} {machine : Machine}

theorem irqHandler_switched (switches : Switches r.intNo machine) : (Sched.irqHandler r machine).1 = nextContext machine ∧
    (Sched.irqHandler r machine).2.currentTask = schedGetNextTask machine := by
  obtain ⟨scheduled, spent, next⟩ := switches
  have waiting : ¬ machine.schedQuantum > 0 := by omega
  have first : (Sched.irqHandler r machine).1 = (handled r machine).1 := apply_ite Prod.fst _ _ _ |>.trans (ite_self _)
  refine ⟨?_, ?_⟩
  · rw [first, handled_schedule scheduled, schedSchedule, if_neg waiting]
    exact if_pos next
  · rw [irqHandler_snd, handled_schedule scheduled, schedSchedule, if_neg waiting]
    split <;> rfl

/-- With the kernel's tables a switch goes on exactly where the context's code segment is that of
the kernel, and then with all of the context but for its stack pointer. -/
theorem switch_returns_iff (tables : Tables idtIntTable idt gdtEntries cpu) (roomy : Roomy leave cpu) (byte : vector < 256) (irq : 32 ≤ vector)
    (address : behind < 2 ^ 32) (bound : gdtEntries + 24 ≤ 2 ^ 32)
    (apart : gdtEntries + 24 ≤ cpu.reg .esp - (56 + leave.scratch.length) ∨ cpu.reg .esp + 8 ≤ gdtEntries)
    (switches : Switches vector host.machine) (small : ∀ word ∈ (nextContext host.machine).words, word < 2 ^ 32) :
    ((∃ last after, interrupt idtIntTable idt kernelHandlers vector none leave behind ⟨cpu, host⟩ = .done () ⟨last, after⟩) ↔
        (nextContext host.machine).cs % 2 ^ 16 = 0x08) ∧
      ∀ last after, interrupt idtIntTable idt kernelHandlers vector none leave behind ⟨cpu, host⟩ = .done () ⟨last, after⟩ →
        SwitchedTo (nextContext host.machine) leave cpu last ∧ after.machine.currentTask = schedGetNextTask host.machine := by
  obtain ⟨context, current⟩ : _ ∧ _ := @irqHandler_switched (frame cpu vector 0) host.machine switches
  have handled : kernelHandlers (calleeOf vector) (frame cpu vector 0) host =
      .done (nextContext host.machine) { host with machine := (Sched.irqHandler (frame cpu vector 0) host.machine).2 } := by
    rw [kernelHandlers_irq irq, context]
  obtain ⟨memory, ends, holds, outside⟩ := interrupt_ends (tables.ready roomy byte address) (matchesStub_irq irq) (by decide) small handled
  have low := roomy.room
  have top := roomy.top
  have kept (start i : Nat) (inside : gdtEntries ≤ start ∧ start + i < gdtEntries + 24) :
      memory ((start + i) % 2 ^ 32) = cpu.memory ((start + i) % 2 ^ 32) := outside _ (by omega)
  have loaded : GdtLoaded gdtEntries (restored (nextContext host.machine) memory cpu) :=
    ⟨tables.gdt.gdtr, (Descriptor.read_congr fun i inside => kept _ i (by omega)).trans tables.gdt.code,
      (Descriptor.read_congr fun i inside => kept _ i (by omega)).trans tables.gdt.data⟩
  have code : ((restored (nextContext host.machine) memory cpu).loadSegment .cs ((nextContext host.machine).cs % 2 ^ 16)).isSome ↔
      (nextContext host.machine).cs % 2 ^ 16 = 0x08 := loaded.code_iff
  unfold Cpu.returnTo at ends
  cases segment : (restored (nextContext host.machine) memory cpu).loadSegment .cs ((nextContext host.machine).cs % 2 ^ 16) with
  | none =>
      rw [segment] at ends code
      obtain ⟨state, faulted⟩ := ends
      have never : ∀ last after, interrupt idtIntTable idt kernelHandlers vector none leave behind ⟨cpu, host⟩ ≠ .done () ⟨last, after⟩ := by
        intro last after done
        cases faulted.symm.trans done
      refine ⟨iff_of_false ?_ fun here => Bool.false_ne_true (code.mpr here), fun last after done => absurd done (never last after)⟩
      intro returns
      obtain ⟨last, after, done⟩ := returns
      exact never last after done
  | some last =>
      rw [segment] at ends code
      obtain ⟨descriptor, _, _, same⟩ := Cpu.loadSegment_some segment
      refine ⟨⟨fun _ => code.mp rfl, fun _ => ⟨_, _, ends⟩⟩, fun final after done => ?_⟩
      cases ends.symm.trans done
      have word {k value : Nat} (found : (nextContext host.machine).words[k]? = some value) :
          memory.load32 (cpu.reg .esp - 52 + 4 * k) = value :=
        (Bytes.load_words holds found).trans (Nat.mod_eq_of_lt (small value (List.mem_of_getElem? found)))
      have userEsp := word (k := 13) rfl
      have ss := word (k := 14) rfl
      rw [show cpu.reg .esp - 52 + 4 * 13 = cpu.reg .esp by omega] at userEsp
      rw [show cpu.reg .esp - 52 + 4 * 14 = cpu.reg .esp + 4 by omega] at ss
      rw [same]
      exact ⟨⟨rfl, rfl, rfl, userEsp, ss, outside⟩, current⟩

/-- A machine whose first task waits to be switched to. -/
def waitingMachine : Machine :=
  { handledMachine true with
    task := fun _ => ⟨frameOf 0x80, 1, 20⟩
    schedTasks := fun i => if i = 0 then 0x400000 else 0 }

theorem switch_returns_iff_waiting : ∃ idt,
    ((∃ last after, interrupt kernelStubs idt kernelHandlers 0x80 none noScratch 0x200300 ⟨kernelCpu, ⟨waitingMachine, 0, []⟩⟩ =
        .done () ⟨last, after⟩) ↔ (nextContext waitingMachine).cs % 2 ^ 16 = 0x08) ∧
      ∀ last after, interrupt kernelStubs idt kernelHandlers 0x80 none noScratch 0x200300 ⟨kernelCpu, ⟨waitingMachine, 0, []⟩⟩ =
          .done () ⟨last, after⟩ →
        SwitchedTo (nextContext waitingMachine) noScratch kernelCpu last ∧ after.machine.currentTask = schedGetNextTask waitingMachine := by
  obtain ⟨idt, tables⟩ := kernelCpu_tables
  have next : schedGetNextTask waitingMachine = 0x400000 := by decide
  have switches : Switches 0x80 waitingMachine := ⟨rfl, rfl, next ▸ by decide⟩
  have context : nextContext waitingMachine = frameOf 0x80 := by
    rw [nextContext, next]
    rfl
  exact ⟨idt, switch_returns_iff tables kernelCpu_roomy (by decide) (by decide) (by decide) (by decide) (.inr (by decide)) switches
    (context ▸ by decide)⟩

end BarrelOS.Interrupts
