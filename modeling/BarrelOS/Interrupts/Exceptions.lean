import BarrelOS.Interrupts.Transparency

namespace BarrelOS.Interrupts

open BarrelOS.Boot BarrelOS.Data BarrelOS.Sched BarrelOS.Semantics BarrelOS.X86

/-! Exceptions -/

variable {idtIntTable : Nat → Nat} {idt : Idt} {vector behind : Nat} {leave : Leftover} {cpu : Cpu} {host : Host}
  {errorCode : Option Nat}

/-- What `isr_handler` reports of a vector. -/
def reportOf (vector cr2 : Nat) : Report := ⟨isrErrors.getD vector "", if vector = 0x0e then some cr2 else none⟩

/-- The vector is the first of the numbers, whether the stub pushes another or the processor does. -/
theorem pushedBy_first (vector : Nat) (errorCode : Option Nat) :
    ∃ others, (pushedBy vector).reverse ++ errorCode.toList = vector :: others ∧ others.length ≤ 2 := by
  unfold pushedBy
  split
  · refine ⟨errorCode.toList, rfl, ?_⟩
    cases errorCode <;> simp
  · refine ⟨0 :: errorCode.toList, rfl, ?_⟩
    cases errorCode <;> simp

theorem isrHandler_stops {r : Registers} (named : r.intNo = vector) (exception : vector < 32) :
    isrHandler r host = .running { host with reports := reportOf vector host.cr2 :: host.reports } := by
  have other : r.intNo ≠ 0xff := by omega
  have found : isrErrors[r.intNo]? = some (isrErrors.getD vector "") := by
    rw [named, List.getD_eq_getElem?_getD]
    have inside : vector < isrErrors.length := exception
    rw [List.getElem?_eq_getElem inside]
    rfl
  rw [isrHandler, if_neg other, found, named]
  rfl

/-- Every exception is reported by its own name and stops the processor, with interrupts off, whether or not
the processor has put the error code that the stub expects. -/
theorem exceptions_stop (ready : Ready idtIntTable idt vector behind leave cpu) (exception : vector < 32)
    (spare : 60 + leave.scratch.length ≤ cpu.reg .esp) (top : cpu.reg .esp + 12 ≤ 2 ^ 32) :
    ∃ last, interrupt idtIntTable idt kernelHandlers vector errorCode leave behind ⟨cpu, host⟩ =
        .running ⟨last, { host with reports := reportOf vector host.cr2 :: host.reports }⟩ ∧ last.eflags.testBit 9 = false := by
  obtain ⟨segment, offset, inside, handles, delivered⟩ :=
    @interrupt_runs Host idtIntTable idt kernelHandlers cpu host vector behind leave ready errorCode
  have kept : Handles cpu inside := by
    rw [handles]
    exact ⟨rfl, rfl, rfl⟩
  obtain ⟨others, numbers, few⟩ := pushedBy_first vector errorCode
  have low := ready.top
  have room : 4 * ((vector :: others).length + 12) ≤ cpu.reg .esp := by
    rw [List.length_cons]
    omega
  obtain ⟨entry, entered⟩ : ∃ entry, entry = inside.onStack (behind :: saved cpu (vector :: others)) := ⟨_, rfl⟩
  have stack : entry.Stack (behind :: (saved cpu (vector :: others) ++ wordsAt cpu.memory (cpu.reg .esp) 2)) := by
    rw [entered]
    exact stub_entry kept room low
  have low_esp : entry.reg .esp = cpu.reg .esp - 4 * (others.length + 13) := by
    rw [entered]
    exact entry_esp kept
  have flat : ((inside.onStack (saved cpu (vector :: others))).seg .ss).Flat := (congrArg Segment.Flat kept.stack).mpr ready.flat
  have flat' : (entry.seg .ss).Flat := entered ▸ entry_flat kept ready.flat
  have named : (Registers.ofWords (wordsAt entry.memory (entry.reg .esp + 4) 15)).intNo = vector := by
    have loaded := stack.load (k := 9) rfl
    change entry.memory.load32 (entry.reg .esp + 4 + 4 * 8) = vector
    rw [Nat.add_assoc]
    exact loaded.trans (Nat.mod_eq_of_lt (by omega))
  have called : compiled kernelHandlers leave .isrHandler ⟨(inside.onStack (saved cpu (vector :: others))).onStack [behind], host⟩ =
      .running ⟨entry, { host with reports := reportOf vector host.cr2 :: host.reports }⟩ := by
    rw [entry_pushed kept room, ← entered, compiled, byValue_bind flat' (by decide) (by omega) (by omega)]
    change (Outcome.within _ ((isrHandler (Registers.ofWords (wordsAt entry.memory (entry.reg .esp + 4) 15)) host).bind _)).bind _ = _
    rw [isrHandler_stops named exception]
    rfl
  have pushed : (inside.onStack (saved cpu (vector :: others))).push behind =
      some ((inside.onStack (saved cpu (vector :: others))).onStack [behind]) := by
    have esp : inside.reg .esp = cpu.reg .esp := congrFun kept.reg .esp
    refine Cpu.push_flat flat ?_ ?_ behind <;> rw [Cpu.onStack_esp, saved_length, esp, List.length_cons] <;> omega
  refine ⟨entry, ?_, ?_⟩
  · rw [delivered, calleeOf, if_neg (by omega), stub_calls kept (by rw [List.length_cons]; omega) low ready.flat numbers, run, exec, pushed]
    change ((compiled kernelHandlers leave .isrHandler ⟨_, host⟩).bind _).bind _ = _
    rw [called]
    rfl
  · rw [entered, Cpu.onStack_eflags, handles]
    change (cpu.eflags &&& 0xFFFCBCFF).testBit 9 = false
    rw [Nat.testBit_and]
    exact Bool.and_false _

theorem exceptions_stop_page_fault : ∃ idt last,
    interrupt kernelStubs idt kernelHandlers 14 (some 2) noScratch 0x200300 ⟨kernelCpu, idleHost⟩ =
        .running ⟨last, { idleHost with reports := [reportOf 14 idleHost.cr2] }⟩ ∧ last.eflags.testBit 9 = false := by
  obtain ⟨idt, tables⟩ := kernelCpu_tables
  exact ⟨idt, exceptions_stop (tables.ready kernelCpu_roomy (by decide) (by decide)) (by decide) (by decide) (by decide)⟩

end BarrelOS.Interrupts
