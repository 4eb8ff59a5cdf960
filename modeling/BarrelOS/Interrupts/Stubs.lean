import BarrelOS.Interrupts.Idt
import BarrelOS.Sched.Scheduler
import BarrelOS.X86.Calls

namespace BarrelOS.Sched.Registers

/-- The words of `struct registers`. -/
def words (r : Registers) : List Nat :=
  [r.edi, r.esi, r.ebp, r.esp, r.ebx, r.edx, r.ecx, r.eax, r.intNo, r.errCode, r.eip, r.cs, r.eflags, r.userEsp, r.ss]

def ofWords (words : List Nat) : Registers where
  edi := words.getD 0 0
  esi := words.getD 1 0
  ebp := words.getD 2 0
  esp := words.getD 3 0
  ebx := words.getD 4 0
  edx := words.getD 5 0
  ecx := words.getD 6 0
  eax := words.getD 7 0
  intNo := words.getD 8 0
  errCode := words.getD 9 0
  eip := words.getD 10 0
  cs := words.getD 11 0
  eflags := words.getD 12 0
  userEsp := words.getD 13 0
  ss := words.getD 14 0

end BarrelOS.Sched.Registers

namespace BarrelOS.Interrupts

open BarrelOS.Data BarrelOS.Sched BarrelOS.Semantics BarrelOS.X86

/-! `idt.S` -/

/-- The functions the stubs call. -/
inductive Callee where
  | isrHandler
  | irqHandler
deriving DecidableEq, Repr

/-- The body the stubs share. The call returns to `behind`. -/
def stub (pushed : List Nat) (callee : Callee) (behind : Nat) : List (Instr Callee) :=
  pushed.map .pushImm ++ [.pushad, .call callee behind, .popad, .addImm .esp 8, .iret]

def isrNoErrStub (vector behind : Nat) : List (Instr Callee) := stub [0, vector] .isrHandler behind

def isrErrStub (vector behind : Nat) : List (Instr Callee) := stub [vector] .isrHandler behind

def irqStub (vector behind : Nat) : List (Instr Callee) := stub [0, vector] .irqHandler behind

/-- The vectors the file gives to `isr_err_stub`. -/
def errStubs : List Nat := [8, 10, 11, 12, 13, 14, 17, 30]

/-- `int_stub` of a vector. -/
def intStub (vector behind : Nat) : List (Instr Callee) :=
  if 32 ≤ vector then irqStub vector behind
  else if vector ∈ errStubs then isrErrStub vector behind
  else isrNoErrStub vector behind

/-! An interrupt -/

/-- The gate the processor finds for a vector. -/
def gateAt (idt : Idt) (vector : Nat) : Option Cpu.Gate := do
  let table ← idt.loaded
  let entry := idt.entries vector
  if sizeofIdtEntry * vector + 7 ≤ table.size ∧ entry.type = 0x8E then some ⟨entry.selector, entry.base⟩ else none

variable {World : Type}

/-- The functions as the C code has them, with `struct registers` on the stack. -/
def compiled (handlers : Callee → Registers → World → Outcome World Registers) (leave : Leftover) (callee : Callee) :
    State World → Outcome (State World) Unit :=
  byValue 15 (fun words world => (handlers callee (.ofWords words) world).bind fun r world => .done r.words world) leave

/-- The vector whose stub lies at an address. -/
def stubAt (idtIntTable : Nat → Nat) (address : Nat) : Option Nat := (List.range 256).find? fun vector => idtIntTable vector == address

/-- An interrupt is delivered and its stub runs to its end. -/
def interrupt (idtIntTable : Nat → Nat) (idt : Idt) (handlers : Callee → Registers → World → Outcome World Registers)
    (vector : Nat) (errorCode : Option Nat) (leave : Leftover) (behind : Nat) (state : State World) : Outcome (State World) Unit :=
  let entered := do
    let gate ← gateAt idt vector
    state.cpu.interrupt gate errorCode
  (state.lift entered).bind fun _ state =>
    match stubAt idtIntTable state.cpu.eip with
    | some vector => run (compiled handlers leave) (intStub vector behind) state
    | none => .faulted state

/-- The frame a stub hands over, for the error code in it. -/
def frame (cpu : Cpu) (vector errorCode : Nat) : Registers where
  edi := cpu.reg .edi
  esi := cpu.reg .esi
  ebp := cpu.reg .ebp
  esp := cpu.reg .esp - 20
  ebx := cpu.reg .ebx
  edx := cpu.reg .edx
  ecx := cpu.reg .ecx
  eax := cpu.reg .eax
  intNo := vector
  errCode := errorCode
  eip := cpu.eip
  cs := (cpu.seg .cs).selector
  eflags := cpu.eflags
  userEsp := cpu.memory.load32 (cpu.reg .esp)
  ss := cpu.memory.load32 (cpu.reg .esp + 4)

/-- The registers a stub goes back with. -/
def restored (r : Registers) (memory : Bytes) (cpu : Cpu) : Cpu :=
  { cpu with reg := Reg.values r.edi r.esi r.ebp (cpu.reg .esp) r.ebx r.edx r.ecx r.eax, memory }

variable {idtIntTable : Nat → Nat} {idt : Idt} {handlers : Callee → Registers → World → Outcome World Registers}
  {callee : Callee} {cpu handling : Cpu} {gate : Cpu.Gate} {r : Registers} {world after : World} {vector behind errorWord : Nat}
  {errorCode : Option Nat} {leave : Leftover} {pushed : List Nat}

/-- What the processor and a stub put on the stack, with the numbers between the two. -/
def saved (cpu : Cpu) (numbers : List Nat) : List Nat :=
  [cpu.reg .edi, cpu.reg .esi, cpu.reg .ebp, cpu.reg .esp - 4 * (numbers.length + 3), cpu.reg .ebx, cpu.reg .edx, cpu.reg .ecx,
    cpu.reg .eax] ++ (numbers ++ [cpu.eip, (cpu.seg .cs).selector, cpu.eflags])

theorem saved_length {numbers : List Nat} : (saved cpu numbers).length = numbers.length + 11 := by
  rw [saved, List.length_append, List.length_append]
  change 8 + (_ + 3) = _
  omega

theorem frame_words : (frame cpu vector errorWord).words = saved cpu [vector, errorWord] ++ wordsAt cpu.memory (cpu.reg .esp) 2 := rfl

/-- A processor whose registers hold words. -/
structure Words (cpu : Cpu) : Prop where
  reg : ∀ reg, cpu.reg reg < 2 ^ 32
  eip : cpu.eip < 2 ^ 32
  selector : (cpu.seg .cs).selector < 2 ^ 16
  eflags : cpu.eflags < 2 ^ 32

theorem Words.frame (words : Words cpu) (byte : vector < 256) (code : errorWord < 2 ^ 32) :
    ∀ word ∈ (frame cpu vector errorWord).words, word < 2 ^ 32 := by
  have esp := words.reg .esp
  have selector := words.selector
  rw [frame_words]
  simp only [saved, List.mem_append, List.mem_cons, List.not_mem_nil, or_false]
  rintro word (((rfl | rfl | rfl | rfl | rfl | rfl | rfl | rfl) | (rfl | rfl) | (rfl | rfl | rfl)) | above)
  all_goals first | exact words.reg _ | exact words.eip | exact words.eflags | omega | skip
  obtain ⟨k, _, rfl⟩ := List.mem_map.mp above
  exact Bytes.load32_lt

/-- What is left of the interrupted processor while its interrupt is handled. -/
structure Handles (cpu handling : Cpu) : Prop where
  reg : handling.reg = cpu.reg
  memory : handling.memory = cpu.memory
  stack : handling.seg .ss = cpu.seg .ss

section

variable (handles : Handles cpu handling)
include handles

theorem entry_esp {numbers : List Nat} :
    (handling.onStack (behind :: saved cpu numbers)).reg .esp = cpu.reg .esp - 4 * (numbers.length + 12) := by
  have esp : handling.reg .esp = cpu.reg .esp := congrFun handles.reg .esp
  rw [Cpu.onStack_esp, List.length_cons, saved_length, esp]

theorem entry_flat {numbers : List Nat} (flat : (cpu.seg .ss).Flat) : ((handling.onStack (behind :: saved cpu numbers)).seg .ss).Flat :=
  (congrArg Segment.Flat handles.stack).mpr flat

theorem entry_pushed {numbers : List Nat} (room : 4 * (numbers.length + 12) ≤ cpu.reg .esp) :
    (handling.onStack (saved cpu numbers)).onStack [behind] = handling.onStack (behind :: saved cpu numbers) := by
  have esp : handling.reg .esp = cpu.reg .esp := congrFun handles.reg .esp
  rw [Cpu.onStack_onStack]
  · rfl
  · rw [saved_length, esp]
    change 4 * (1 + _) ≤ _
    omega

/-- The stack as the stub's function finds it. -/
theorem stub_entry {numbers : List Nat} (room : 4 * (numbers.length + 12) ≤ cpu.reg .esp) (top : cpu.reg .esp + 8 < 2 ^ 32) :
    (handling.onStack (behind :: saved cpu numbers)).Stack (behind :: (saved cpu numbers ++ wordsAt cpu.memory (cpu.reg .esp) 2)) := by
  have above : handling.Stack (wordsAt cpu.memory (cpu.reg .esp) 2) := by
    rw [Cpu.Stack, handles.memory, handles.reg]
    exact wordsAt_holds _ _ _
  have esp : handling.reg .esp = cpu.reg .esp := congrFun handles.reg .esp
  refine @Cpu.onStack_stack handling _ (behind :: saved cpu numbers) above ?_ ?_
  · rw [List.length_cons, saved_length]
    omega
  · change handling.reg .esp + 4 * 2 ≤ 2 ^ 32
    omega

/-- Up to its call a stub puts numbers and the registers on the stack. -/
theorem stub_calls {numbers : List Nat} (room : 4 * (numbers.length + 11) ≤ cpu.reg .esp) (top : cpu.reg .esp + 8 < 2 ^ 32)
    (flat : (cpu.seg .ss).Flat) (pushes : pushed.reverse ++ errorCode.toList = numbers) :
    run (compiled handlers leave) (stub pushed callee behind)
        ⟨handling.onStack (errorCode.toList ++ [cpu.eip, (cpu.seg .cs).selector, cpu.eflags]), world⟩ =
      run (compiled handlers leave) [.call callee behind, .popad, .addImm .esp 8, .iret]
        ⟨handling.onStack (saved cpu numbers), world⟩ := by
  obtain ⟨tail, returns⟩ : ∃ tail, tail = [cpu.eip, (cpu.seg .cs).selector, cpu.eflags] := ⟨_, rfl⟩
  have three : tail.length = 3 := congrArg List.length returns
  have esp : handling.reg .esp = cpu.reg .esp := congrFun handles.reg .esp
  have flat' : ((handling.onStack (errorCode.toList ++ tail)).seg .ss).Flat := (congrArg Segment.Flat handles.stack).mpr flat
  have count : pushed.length + errorCode.toList.length = numbers.length := by
    rw [← List.length_reverse, ← List.length_append, pushes]
  have entered : (handling.onStack (errorCode.toList ++ tail)).reg .esp = cpu.reg .esp - 4 * (errorCode.toList.length + 3) := by
    rw [Cpu.onStack_esp, List.length_append, esp, three]
  have numbered : (handling.onStack (errorCode.toList ++ tail)).onStack pushed.reverse = handling.onStack (numbers ++ tail) := by
    rw [Cpu.onStack_onStack, ← List.append_assoc, pushes]
    rw [List.length_reverse, List.length_append, esp]
    omega
  have registers : (handling.onStack (numbers ++ tail)).registers ++ (numbers ++ tail) = saved cpu numbers := by
    rw [Cpu.registers_onStack, handles.reg, List.length_append, three, returns]
    rfl
  rw [← returns, stub, run_saves flat' (by omega) (by omega), numbered, Cpu.onStack_onStack, registers]
  rw [Cpu.registers_onStack, List.length_append, esp, three]
  change 4 * (8 + (_ + 3)) ≤ _
  omega

variable (room : 56 + leave.scratch.length ≤ cpu.reg .esp) (top : cpu.reg .esp + 8 < 2 ^ 32)
include room top

/-- The function of a stub returns with the frame as it has left it. -/
theorem stub_called (flat : (cpu.seg .ss).Flat) (given : ∀ word ∈ (frame cpu vector errorWord).words, word < 2 ^ 32)
    (handled : handlers callee (frame cpu vector errorWord) world = .done r after) :
    ∃ left, left = leave.apply ((handling.onStack (behind :: saved cpu [vector, errorWord])).reg .esp + 4) r.words
        (handling.onStack (behind :: saved cpu [vector, errorWord])) ∧
      compiled handlers leave callee ⟨(handling.onStack (saved cpu [vector, errorWord])).onStack [behind], world⟩ = .done () ⟨left, after⟩ ∧
      left.reg .esp = cpu.reg .esp - 56 ∧ left.Stack (behind :: r.words) ∧
      ∀ place, place < cpu.reg .esp - (56 + leave.scratch.length) ∨ cpu.reg .esp + 8 ≤ place → left.memory place = cpu.memory place := by
  obtain ⟨entry, entered⟩ : ∃ entry, entry = handling.onStack (behind :: saved cpu [vector, errorWord]) := ⟨_, rfl⟩
  have stack : entry.Stack (behind :: (frame cpu vector errorWord).words) := by
    rw [frame_words, entered]
    exact stub_entry handles (by change 4 * 14 ≤ _; omega) top
  have low : entry.reg .esp = cpu.reg .esp - 56 := by
    rw [entered]
    exact entry_esp handles
  have room' : leave.scratch.length ≤ entry.reg .esp := by omega
  have flat' : (entry.seg .ss).Flat := entered ▸ entry_flat handles flat
  have argument : wordsAt entry.memory (entry.reg .esp + 4) 15 = (frame cpu vector errorWord).words :=
    wordsAt_eq (Bytes.holds_words.mp stack).2 given
  rw [entry_pushed handles (by change 4 * 14 ≤ _; omega), ← entered]
  refine ⟨_, rfl, ?_, Leftover.apply_esp.trans low, Leftover.apply_stack room' stack rfl (by change _ + 4 * 15 ≤ _; omega),
    fun place outside => ?_⟩
  · rw [compiled, byValue_bind flat' (by decide) (by omega) room', argument]
    change (Outcome.within _ ((handlers callee (frame cpu vector errorWord) world).bind _)).bind _ = _
    rw [handled]
    rfl
  · have kept : (leave.apply (entry.reg .esp + 4) r.words entry).memory place = entry.memory place :=
      Leftover.apply_outside room' (by change _ + 4 * 15 ≤ _; omega) (by change _ ∨ _ + 4 * 15 ≤ _; omega)
    have esp : handling.reg .esp = cpu.reg .esp := congrFun handles.reg .esp
    rw [kept, entered, ← handles.memory]
    refine Bytes.store_outside fun j within => ?_
    rw [wordsBytes_length] at within
    change (handling.reg .esp - 4 * 14 + j) % 2 ^ 32 ≠ place
    change j < 4 * 14 at within
    omega

/-- Behind its call a stub goes back with the frame that its function has left. -/
theorem stub_returns (flat : (cpu.seg .ss).Flat) (address : behind < 2 ^ 32) (small : ∀ word ∈ r.words, word < 2 ^ 32)
    (given : ∀ word ∈ (frame cpu vector errorWord).words, word < 2 ^ 32)
    (handled : handlers callee (frame cpu vector errorWord) world = .done r after) :
    ∃ memory, Ends (run (compiled handlers leave) [.call callee behind, .popad, .addImm .esp 8, .iret]
        ⟨handling.onStack (saved cpu [vector, errorWord]), world⟩) after
          ((restored r memory handling).returnTo r.eip (r.cs % 2 ^ 16) r.eflags) ∧
      memory.Holds (cpu.reg .esp - 52) (wordsBytes r.words) ∧
      ∀ place, place < cpu.reg .esp - (56 + leave.scratch.length) ∨ cpu.reg .esp + 8 ≤ place → memory place = cpu.memory place := by
  obtain ⟨left, leaves, called, left_esp, left_stack, outside⟩ := stub_called handles room top flat given handled
  have esp : handling.reg .esp = cpu.reg .esp := congrFun handles.reg .esp
  have flat' : (handling.seg .ss).Flat := (congrArg Segment.Flat handles.stack).mpr flat
  have left_flat : (left.seg .ss).Flat := by
    rw [leaves]
    exact flat'
  have argument : left.memory.Holds (cpu.reg .esp - 52) (wordsBytes r.words) := by
    have behind_address := (Bytes.holds_words.mp left_stack).2
    rw [left_esp, show cpu.reg .esp - 56 + 4 = cpu.reg .esp - 52 by omega] at behind_address
    exact behind_address
  refine ⟨left.memory, ?_, argument, outside⟩
  have saved_esp : (handling.onStack (saved cpu [vector, errorWord])).reg .esp = cpu.reg .esp - 52 := by
    rw [Cpu.onStack_esp, esp]
    rfl
  have bound : left.reg .esp + 4 < 2 ^ 32 := by omega
  have saved_flat : ((handling.onStack (saved cpu [vector, errorWord])).seg .ss).Flat := flat'
  have call := exec_call saved_flat (by omega) (by omega) called left_flat left_stack bound address
  obtain ⟨back, returned⟩ : ∃ back : Cpu, back = { left.setReg .esp (left.reg .esp + 4) with eip := behind } := ⟨_, rfl⟩
  have back_esp : back.reg .esp = cpu.reg .esp - 52 := by
    rw [returned]
    have raised : left.reg .esp + 4 = cpu.reg .esp - 52 := by omega
    exact (@Cpu.setReg_reg left .esp _).trans raised
  have back_stack : back.Stack r.words := by
    rw [Cpu.Stack, back_esp, returned]
    exact argument
  have restores := @run_restores Callee World (compiled handlers leave) back after [r.userEsp, r.ss] _ _ _ _ _ _ _ _ _ _ _ _ _
    (by rw [returned]; exact left_flat) back_stack (by omega)
    (fun word member => small word (List.mem_append_left [r.userEsp, r.ss] member))
  have whole : { back with reg := Reg.values r.edi r.esi r.ebp (back.reg .esp + 52) r.ebx r.edx r.ecx r.eax } =
      { restored r left.memory handling with eip := behind, eflags := left.eflags } := by
    rw [back_esp, show cpu.reg .esp - 52 + 52 = handling.reg .esp by omega, returned, leaves]
    rfl
  rw [whole, Cpu.returnTo_with] at restores
  rw [run, call, Outcome.done_bind, ← returned]
  exact restores

end

/-! The whole way of an interrupt -/

def calleeOf (vector : Nat) : Callee := if 32 ≤ vector then .irqHandler else .isrHandler

/-- The stub expects an error code exactly where the processor has put one. -/
def MatchesStub (vector : Nat) (errorCode : Option Nat) : Prop := errorCode.isSome ↔ vector ∈ errStubs

theorem matchesStub_irq (irq : 32 ≤ vector) : MatchesStub vector none := by
  have exceptions : ∀ vector ∈ errStubs, ¬ 32 ≤ vector := by decide
  exact iff_of_false Bool.false_ne_true fun member => exceptions vector member irq

/-- A processor with room on its stack for a handler. -/
structure Roomy (leave : Leftover) (cpu : Cpu) : Prop where
  flat : (cpu.seg .ss).Flat
  words : Words cpu
  room : 56 + leave.scratch.length ≤ cpu.reg .esp
  top : cpu.reg .esp + 8 < 2 ^ 32

/-- A processor that an interrupt finds its stub from. -/
structure Ready (idtIntTable : Nat → Nat) (idt : Idt) (vector behind : Nat) (leave : Leftover) (cpu : Cpu) : Prop
    extends Roomy leave cpu where
  gate : ∃ gate, gateAt idt vector = some gate ∧ stubAt idtIntTable gate.offset = some vector ∧
    (cpu.loadSegment .cs gate.selector).isSome
  byte : vector < 256
  address : behind < 2 ^ 32

/-- The numbers a stub pushes. -/
def pushedBy (vector : Nat) : List Nat := if vector ∈ errStubs then [vector] else [0, vector]

theorem intStub_eq (vector behind : Nat) : intStub vector behind = stub (pushedBy vector) (calleeOf vector) behind := by
  have small : ∀ vector ∈ errStubs, ¬ 32 ≤ vector := by decide
  unfold intStub calleeOf pushedBy
  by_cases member : vector ∈ errStubs
  · rw [if_neg (small vector member), if_pos member, if_pos member, if_neg (small vector member)]
    rfl
  · rw [if_neg member, if_neg member]
    split <;> rfl

theorem pushedBy_reverse (matching : MatchesStub vector errorCode) :
    (pushedBy vector).reverse ++ errorCode.toList = [vector, errorCode.getD 0] := by
  unfold pushedBy
  cases errorCode with
  | none =>
      have plain : vector ∉ errStubs := fun member => Bool.false_ne_true (matching.mpr member)
      rw [if_neg plain]
      rfl
  | some code =>
      have member : vector ∈ errStubs := matching.mp rfl
      rw [if_pos member]
      rfl

/-- An interrupt starts its stub with what the processor has put on the stack. -/
theorem interrupt_runs (ready : Ready idtIntTable idt vector behind leave cpu) (errorCode : Option Nat) :
    ∃ segment offset inside, inside = { cpu.setSegment .cs segment with eip := offset, eflags := Cpu.interruptFlags cpu.eflags } ∧
      interrupt idtIntTable idt handlers vector errorCode leave behind ⟨cpu, world⟩ =
        run (compiled handlers leave) (stub (pushedBy vector) (calleeOf vector) behind)
          ⟨inside.onStack (errorCode.toList ++ [cpu.eip, (cpu.seg .cs).selector, cpu.eflags]), world⟩ := by
  obtain ⟨gate, found, here, loaded⟩ := ready.gate
  obtain ⟨handling, loaded⟩ := Option.isSome_iff_exists.mp loaded
  obtain ⟨descriptor, _, _, same⟩ := Cpu.loadSegment_some loaded
  have room := ready.room
  have top := ready.top
  have entered := @Cpu.interrupt_flat cpu handling gate errorCode ready.flat (by omega) (by omega) loaded
  obtain ⟨inside, handles⟩ : ∃ inside : Cpu, inside = { handling with eip := gate.offset, eflags := Cpu.interruptFlags cpu.eflags } := ⟨_, rfl⟩
  have eip : (inside.onStack (errorCode.toList ++ [cpu.eip, (cpu.seg .cs).selector, cpu.eflags])).eip = gate.offset := by
    rw [handles]
    rfl
  rw [← handles] at entered
  refine ⟨descriptor.segment gate.selector, gate.offset, inside, by rw [handles, same], ?_⟩
  rw [interrupt, found, Option.bind_eq_bind, Option.bind_some, entered]
  simp only [State.lift, Outcome.done_bind, eip, here, intStub_eq]

/-- An interrupt goes back with the frame its function leaves, of which it does not take the stack pointer. -/
theorem interrupt_ends (ready : Ready idtIntTable idt vector behind leave cpu) (matching : MatchesStub vector errorCode)
    (code : errorCode.getD 0 < 2 ^ 32) (small : ∀ word ∈ r.words, word < 2 ^ 32)
    (handled : handlers (calleeOf vector) (frame cpu vector (errorCode.getD 0)) world = .done r after) :
    ∃ memory, Ends (interrupt idtIntTable idt handlers vector errorCode leave behind ⟨cpu, world⟩) after
        ((restored r memory cpu).returnTo r.eip (r.cs % 2 ^ 16) r.eflags) ∧
      memory.Holds (cpu.reg .esp - 52) (wordsBytes r.words) ∧
      ∀ place, place < cpu.reg .esp - (56 + leave.scratch.length) ∨ cpu.reg .esp + 8 ≤ place → memory place = cpu.memory place := by
  have room := ready.room
  have top := ready.top
  obtain ⟨segment, offset, inside, handles, delivered⟩ := @interrupt_runs World idtIntTable idt handlers cpu world vector behind leave ready errorCode
  have kept : Handles cpu inside := by
    rw [handles]
    exact ⟨rfl, rfl, rfl⟩
  obtain ⟨memory, ends, holds, outside⟩ := stub_returns kept room top ready.flat ready.address small
    (ready.words.frame ready.byte code) handled
  refine ⟨memory, ?_, holds, outside⟩
  have back : (restored r memory inside).returnTo r.eip (r.cs % 2 ^ 16) r.eflags =
      (restored r memory cpu).returnTo r.eip (r.cs % 2 ^ 16) r.eflags := by
    have loaded : restored r memory inside =
        { (restored r memory cpu).setSegment .cs segment with eip := offset, eflags := Cpu.interruptFlags cpu.eflags } := by
      rw [handles]
      rfl
    rw [loaded, Cpu.returnTo_with, Cpu.setSegment_returnTo]
  rw [delivered, stub_calls kept (by change 4 * 13 ≤ _; omega) top ready.flat (pushedBy_reverse matching)]
  exact back ▸ ends

end BarrelOS.Interrupts
