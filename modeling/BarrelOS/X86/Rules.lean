import BarrelOS.X86.Cpu

namespace BarrelOS.X86

open BarrelOS.Data BarrelOS.Semantics

/-! What straight-line code does to a stack in a flat address space -/

/-- The values of the registers, in the order in which `pushad` leaves them in memory. -/
def Reg.values (edi esi ebp esp ebx edx ecx eax : Nat) : Reg → Nat
  | .edi => edi
  | .esi => esi
  | .ebp => ebp
  | .esp => esp
  | .ebx => ebx
  | .edx => edx
  | .ecx => ecx
  | .eax => eax

theorem Reg.values_eta (reg : Reg → Nat) :
    Reg.values (reg .edi) (reg .esi) (reg .ebp) (reg .esp) (reg .ebx) (reg .edx) (reg .ecx) (reg .eax) = reg := by
  funext r
  cases r <;> rfl

theorem Reg.update_values (edi esi ebp esp ebx edx ecx eax value : Nat) :
    Function.update (Reg.values edi esi ebp esp ebx edx ecx eax) .esp value = Reg.values edi esi ebp value ebx edx ecx eax := by
  funext r
  cases r <;> rfl

/-- A segment is the whole address space. -/
structure Segment.Flat (segment : Segment) : Prop where
  base : segment.base = 0
  limit : segment.limit = 2 ^ 32 - 1

theorem Segment.Flat.linear {segment : Segment} {offset size : Nat} (flat : segment.Flat) (some_byte : 0 < size)
    (inside : offset + size ≤ 2 ^ 32) : segment.linear offset size = some offset := by
  rw [Segment.linear, flat.base, flat.limit, if_pos (by omega), Nat.zero_add, Nat.mod_eq_of_lt (by omega)]

theorem Descriptor.read_congr {memory other : Bytes} {place : Nat}
    (same : ∀ i < 8, other ((place + i) % 2 ^ 32) = memory ((place + i) % 2 ^ 32)) : read other place = read memory place := by
  have byte (i : Nat) (low : i < 8) : other.load8 (place + i) = memory.load8 (place + i) := congrArg UInt8.toNat (same i low)
  have first : other.load8 place = memory.load8 place := byte 0 (by decide)
  simp only [read, Bytes.load16, Nat.add_assoc, Nat.reduceAdd, first, byte 1 (by decide), byte 2 (by decide), byte 3 (by decide),
    byte 4 (by decide), byte 5 (by decide), byte 6 (by decide), byte 7 (by decide)]

namespace Cpu

/-- The words from the stack pointer on. -/
def Stack (cpu : Cpu) (words : List Nat) : Prop := cpu.memory.Holds (cpu.reg .esp) (wordsBytes words)

/-- The registers as `pushad` leaves them in memory. -/
def registers (cpu : Cpu) : List Nat :=
  [cpu.reg .edi, cpu.reg .esi, cpu.reg .ebp, cpu.reg .esp, cpu.reg .ebx, cpu.reg .edx, cpu.reg .ecx, cpu.reg .eax]

/-- Words are put on the stack, the first one on top. -/
def onStack (cpu : Cpu) (words : List Nat) : Cpu :=
  { cpu.setReg .esp (cpu.reg .esp - 4 * words.length) with
    memory := cpu.memory.store (cpu.reg .esp - 4 * words.length) (wordsBytes words) }

/-- The processor goes on elsewhere, with other flags. -/
def returnTo (cpu : Cpu) (eip cs eflags : Nat) : Option Cpu :=
  (cpu.loadSegment .cs cs).map fun cpu => { cpu with eip, eflags }

variable {cpu : Cpu} {word : Nat} {reg : Reg} {words values : List Nat}

@[simp] theorem setReg_seg (reg : Reg) (value : Nat) : (cpu.setReg reg value).seg = cpu.seg := rfl

@[simp] theorem setReg_memory (reg : Reg) (value : Nat) : (cpu.setReg reg value).memory = cpu.memory := rfl

@[simp] theorem setReg_reg (reg : Reg) (value : Nat) : (cpu.setReg reg value).reg reg = value :=
  @Function.update_self Reg (fun _ => Nat) _ reg value cpu.reg

theorem setReg_of_ne {other : Reg} (ne : other ≠ reg) (value : Nat) : (cpu.setReg reg value).reg other = cpu.reg other :=
  @Function.update_of_ne Reg (fun _ => Nat) _ _ _ ne value cpu.reg

theorem setReg_setReg (reg : Reg) (value last : Nat) : (cpu.setReg reg value).setReg reg last = cpu.setReg reg last := by
  simp only [setReg, Function.update_idem]

@[simp] theorem onStack_esp (words : List Nat) : (cpu.onStack words).reg .esp = cpu.reg .esp - 4 * words.length :=
  @setReg_reg cpu .esp _

theorem onStack_of_ne (ne : reg ≠ .esp) (words : List Nat) : (cpu.onStack words).reg reg = cpu.reg reg := setReg_of_ne ne _

@[simp] theorem onStack_seg (words : List Nat) : (cpu.onStack words).seg = cpu.seg := rfl

@[simp] theorem onStack_eflags (words : List Nat) : (cpu.onStack words).eflags = cpu.eflags := rfl

theorem registers_onStack (words : List Nat) : (cpu.onStack words).registers =
    [cpu.reg .edi, cpu.reg .esi, cpu.reg .ebp, cpu.reg .esp - 4 * words.length, cpu.reg .ebx, cpu.reg .edx, cpu.reg .ecx, cpu.reg .eax] := by
  simp only [registers, onStack_esp, onStack_of_ne (by decide : Reg.edi ≠ .esp), onStack_of_ne (by decide : Reg.esi ≠ .esp),
    onStack_of_ne (by decide : Reg.ebp ≠ .esp), onStack_of_ne (by decide : Reg.ebx ≠ .esp), onStack_of_ne (by decide : Reg.edx ≠ .esp),
    onStack_of_ne (by decide : Reg.ecx ≠ .esp), onStack_of_ne (by decide : Reg.eax ≠ .esp)]

theorem onStack_enter (words : List Nat) (eip eflags : Nat) :
    { cpu.onStack words with eip, eflags } = { cpu with eip, eflags }.onStack words := rfl

theorem onStack_nil : cpu.onStack [] = cpu := by
  have same : cpu.setReg .esp (cpu.reg .esp - 4 * 0) = cpu := by rw [setReg, Nat.mul_zero, Nat.sub_zero, Function.update_eq_self]
  rw [onStack, List.length_nil, same]
  rfl

theorem onStack_onStack (room : 4 * (values.length + words.length) ≤ cpu.reg .esp) :
    (cpu.onStack words).onStack values = cpu.onStack (values ++ words) := by
  have below : cpu.reg .esp - 4 * words.length - 4 * values.length = cpu.reg .esp - 4 * (values.length + words.length) := by omega
  have behind : cpu.reg .esp - 4 * (values.length + words.length) + (wordsBytes values).length = cpu.reg .esp - 4 * words.length := by
    rw [wordsBytes_length]
    omega
  have stored : (cpu.memory.store (cpu.reg .esp - 4 * words.length) (wordsBytes words)).store
      (cpu.reg .esp - 4 * words.length - 4 * values.length) (wordsBytes values) =
        cpu.memory.store (cpu.reg .esp - 4 * (values ++ words).length) (wordsBytes (values ++ words)) := by
    rw [wordsBytes_append, Bytes.store_append, List.length_append, behind, below]
  have moved : (cpu.onStack words).setReg .esp (cpu.reg .esp - 4 * words.length - 4 * values.length) =
      { cpu.setReg .esp (cpu.reg .esp - 4 * (values ++ words).length) with memory := (cpu.onStack words).memory } := by
    rw [List.length_append, ← below]
    simp only [onStack, setReg, Function.update_idem]
  rw [onStack, onStack_esp, moved]
  exact congrArg (fun memory => { cpu.setReg .esp (cpu.reg .esp - 4 * (values ++ words).length) with memory }) stored

theorem onStack_stack (stack : cpu.Stack words) (room : 4 * values.length ≤ cpu.reg .esp)
    (bound : cpu.reg .esp + 4 * words.length ≤ 2 ^ 32) : (cpu.onStack values).Stack (values ++ words) := by
  have behind : cpu.reg .esp - 4 * values.length + (wordsBytes values).length = cpu.reg .esp := by
    rw [wordsBytes_length]
    omega
  rw [Stack, onStack_esp, wordsBytes_append, Bytes.holds_append, behind]
  refine ⟨Bytes.store_holds ?_, Bytes.holds_store stack fun i inside j within => ?_⟩
  · rw [wordsBytes_length]
    omega
  · rw [wordsBytes_length] at inside within
    omega

/-! Words on the stack -/

theorem Stack.load {k : Nat} (stack : cpu.Stack words) (found : words[k]? = some word) :
    cpu.memory.load32 (cpu.reg .esp + 4 * k) = word % 2 ^ 32 :=
  Bytes.load_words stack found

theorem Stack.behind (stack : cpu.Stack (values ++ words)) : cpu.memory.Holds (cpu.reg .esp + 4 * values.length) (wordsBytes words) := by
  rw [Stack, wordsBytes_append, Bytes.holds_append, wordsBytes_length] at stack
  exact stack.2

theorem push_flat (flat : (cpu.seg .ss).Flat) (room : 4 ≤ cpu.reg .esp) (bound : cpu.reg .esp < 2 ^ 32) (value : Nat) :
    cpu.push value = some (cpu.onStack [value]) := by
  have esp : (cpu.reg .esp + 2 ^ 32 - 4) % 2 ^ 32 = cpu.reg .esp - 4 := by omega
  simp only [push, esp, flat.linear (by decide : 0 < 4) (by omega : cpu.reg .esp - 4 + 4 ≤ 2 ^ 32)]
  rfl

theorem pushAll_flat (flat : (cpu.seg .ss).Flat) (room : 4 * values.length ≤ cpu.reg .esp) (bound : cpu.reg .esp < 2 ^ 32) :
    cpu.pushAll values = some (cpu.onStack values.reverse) := by
  induction values generalizing cpu with
  | nil => rw [List.reverse_nil, onStack_nil, pushAll]
  | cons value values ih =>
      rw [List.length_cons] at room
      have here : 4 * values.length ≤ (cpu.onStack [value]).reg .esp := by
        rw [onStack_esp, List.length_singleton]
        omega
      have bound' : (cpu.onStack [value]).reg .esp < 2 ^ 32 := by
        rw [onStack_esp]
        omega
      have all : 4 * (values.reverse.length + [value].length) ≤ cpu.reg .esp := by
        rw [List.length_reverse, List.length_singleton]
        omega
      calc cpu.pushAll (value :: values)
        _ = (cpu.onStack [value]).pushAll values := by
          rw [pushAll, push_flat flat (by omega) bound]
          rfl
        _ = some ((cpu.onStack [value]).onStack values.reverse) := ih (flat) here bound'
        _ = some (cpu.onStack (value :: values).reverse) := by rw [onStack_onStack all, List.reverse_cons]

section

variable (flat : (cpu.seg .ss).Flat) (stack : cpu.Stack words)
include flat stack

/-- A pop, after some others. -/
theorem pop_stack {k : Nat} (found : words[k]? = some word) (bound : cpu.reg .esp + 4 * (k + 1) < 2 ^ 32) :
    (cpu.setReg .esp (cpu.reg .esp + 4 * k)).pop = some (word % 2 ^ 32, cpu.setReg .esp (cpu.reg .esp + 4 * (k + 1))) := by
  have inside : cpu.reg .esp + 4 * k + 4 ≤ 2 ^ 32 := by omega
  have next : (cpu.reg .esp + 4 * k + 4) % 2 ^ 32 = cpu.reg .esp + 4 * (k + 1) := by omega
  simp only [pop, load, setReg_reg, setReg_seg, setReg_memory, flat.linear (by decide : 0 < 4) inside, next]
  change some (cpu.memory.load32 (cpu.reg .esp + 4 * k), _) = _
  rw [stack.load found, setReg_setReg]

theorem pop_first (found : words[0]? = some word) (bound : cpu.reg .esp + 4 < 2 ^ 32) :
    cpu.pop = some (word % 2 ^ 32, cpu.setReg .esp (cpu.reg .esp + 4)) := by
  have first := pop_stack flat stack found bound
  rw [Nat.mul_zero, Nat.add_zero, setReg, Function.update_eq_self] at first
  exact first

end

theorem add_status (cpu : Cpu) (reg : Reg) (value : Nat) :
    ∃ eflags, cpu.add reg value = { cpu.setReg reg ((cpu.reg reg + value) % 2 ^ 32) with eflags } :=
  ⟨_, rfl⟩

theorem pushad_flat (flat : (cpu.seg .ss).Flat) (room : 32 ≤ cpu.reg .esp) (bound : cpu.reg .esp < 2 ^ 32) :
    cpu.pushad = some (cpu.onStack cpu.registers) :=
  pushAll_flat flat room bound

section

variable {edi esi ebp passed ebx edx ecx eax : Nat} (flat : (cpu.seg .ss).Flat)
include flat

theorem popad_stack (stack : cpu.Stack ([edi, esi, ebp, passed, ebx, edx, ecx, eax] ++ words)) (bound : cpu.reg .esp + 32 < 2 ^ 32) :
    cpu.popad = some { cpu with
      reg := Reg.values (edi % 2 ^ 32) (esi % 2 ^ 32) (ebp % 2 ^ 32) (cpu.reg .esp + 32) (ebx % 2 ^ 32) (edx % 2 ^ 32)
        (ecx % 2 ^ 32) (eax % 2 ^ 32) } := by
  have pops {k : Nat} {word : Nat} (found : ([edi, esi, ebp, passed, ebx, edx, ecx, eax] ++ words)[k]? = some word) (low : k < 8) :
      (cpu.setReg .esp (cpu.reg .esp + 4 * k)).pop = some (word % 2 ^ 32, cpu.setReg .esp (cpu.reg .esp + 4 * (k + 1))) :=
    pop_stack flat stack found (by omega)
  have first : cpu.pop = some (edi % 2 ^ 32, cpu.setReg .esp (cpu.reg .esp + 4 * 1)) := pop_first flat stack rfl (by omega)
  unfold popad
  simp only [Option.bind_eq_bind, Option.bind_some, first, pops (k := 1) rfl (by decide), pops (k := 2) rfl (by decide), pops (k := 3) rfl (by decide), pops (k := 4) rfl (by decide),
    pops (k := 5) rfl (by decide), pops (k := 6) rfl (by decide), pops (k := 7) rfl (by decide)]
  refine congrArg (fun reg => some { cpu with reg }) (funext fun r => ?_)
  cases r <;> rfl

/-- What `iret` takes from the stack. -/
theorem iret_stack {eip cs eflags : Nat} (stack : cpu.Stack ([eip, cs, eflags] ++ words)) (bound : cpu.reg .esp + 12 < 2 ^ 32) :
    cpu.iret = (cpu.setReg .esp (cpu.reg .esp + 12)).returnTo (eip % 2 ^ 32) (cs % 2 ^ 16) (eflags % 2 ^ 32) := by
  have pops {k : Nat} {word : Nat} (found : ([eip, cs, eflags] ++ words)[k]? = some word) (low : k < 3) :
      (cpu.setReg .esp (cpu.reg .esp + 4 * k)).pop = some (word % 2 ^ 32, cpu.setReg .esp (cpu.reg .esp + 4 * (k + 1))) :=
    pop_stack flat stack found (by omega)
  have first : cpu.pop = some (eip % 2 ^ 32, cpu.setReg .esp (cpu.reg .esp + 4 * 1)) := pop_first flat stack rfl (by omega)
  have low : cs % 2 ^ 32 % 2 ^ 16 = cs % 2 ^ 16 := by omega
  unfold iret returnTo
  simp only [Option.bind_eq_bind, Option.bind_some, first, pops (k := 1) rfl (by decide), pops (k := 2) rfl (by decide), low]
  cases (cpu.setReg .esp (cpu.reg .esp + 12)).loadSegment .cs (cs % 2 ^ 16) <;> rfl

end

/-! Descriptors and selectors -/

theorem descriptor_congr {other : Cpu} {selector : Nat} (gdtr : other.gdtr = cpu.gdtr)
    (same : ∀ i < 8, other.memory ((cpu.gdtr.base + selector + i) % 2 ^ 32) = cpu.memory ((cpu.gdtr.base + selector + i) % 2 ^ 32)) :
    other.descriptor selector = cpu.descriptor selector := by
  rw [descriptor, descriptor, gdtr, Descriptor.read_congr same]

end Cpu

namespace Cpu

variable {cpu handling : Cpu} {selector : Nat}

theorem returnTo_eq (cpu : Cpu) (eip cs eflags : Nat) : cpu.returnTo eip cs eflags =
    (cpu.descriptor cs).bind fun descriptor =>
      if descriptor.Fits .cs then some { cpu.setSegment .cs (descriptor.segment cs) with eip, eflags } else none := by
  unfold returnTo loadSegment
  cases cpu.descriptor cs with
  | none => rfl
  | some descriptor =>
      change Option.map _ (if _ then _ else _) = if _ then _ else _
      split <;> rfl

/-- Where the processor was does not matter. -/
theorem returnTo_with (cpu : Cpu) (here flags eip cs eflags : Nat) :
    { cpu with eip := here, eflags := flags }.returnTo eip cs eflags = cpu.returnTo eip cs eflags := by
  rw [returnTo_eq, returnTo_eq]
  rfl

/-- Only the segment register is loaded. -/
theorem loadSegment_some {register : SegReg} (loaded : cpu.loadSegment register selector = some handling) :
    ∃ descriptor, cpu.descriptor selector = some descriptor ∧ descriptor.Fits register ∧
      handling = cpu.setSegment register (descriptor.segment selector) := by
  unfold loadSegment at loaded
  cases found : cpu.descriptor selector with
  | none =>
      rw [found] at loaded
      cases loaded
  | some descriptor =>
      rw [found] at loaded
      change (if descriptor.Fits register then _ else none) = some handling at loaded
      split at loaded
      · rename_i fits
        exact ⟨descriptor, rfl, fits, (Option.some.inj loaded).symm⟩
      · cases loaded

theorem setSegment_returnTo (register : Segment) (eip cs eflags : Nat) :
    (cpu.setSegment .cs register).returnTo eip cs eflags = cpu.returnTo eip cs eflags := by
  have same : ∀ segment, (cpu.setSegment .cs register).setSegment .cs segment = cpu.setSegment .cs segment := by
    intro segment
    simp only [setSegment, Function.update_idem]
  rw [returnTo_eq, returnTo_eq]
  simp only [same]
  rfl

theorem interrupt_flat {gate : Gate} {errorCode : Option Nat} (flat : (cpu.seg .ss).Flat) (room : 16 ≤ cpu.reg .esp)
    (bound : cpu.reg .esp < 2 ^ 32) (loaded : cpu.loadSegment .cs gate.selector = some handling) :
    cpu.interrupt gate errorCode = some ({ handling with eip := gate.offset, eflags := interruptFlags cpu.eflags }.onStack
      (errorCode.toList ++ [cpu.eip, (cpu.seg .cs).selector, cpu.eflags])) := by
  obtain ⟨descriptor, _, _, rfl⟩ := loadSegment_some loaded
  have flat' : ((cpu.setSegment .cs (descriptor.segment gate.selector)).seg .ss).Flat := flat
  have words : 4 * ([cpu.eflags, (cpu.seg .cs).selector, cpu.eip] ++ errorCode.toList).length ≤ cpu.reg .esp := by
    refine Nat.le_trans ?_ room
    cases errorCode <;> simp
  have reversed : ([cpu.eflags, (cpu.seg .cs).selector, cpu.eip] ++ errorCode.toList).reverse =
      errorCode.toList ++ [cpu.eip, (cpu.seg .cs).selector, cpu.eflags] := by
    cases errorCode <;> rfl
  have pushed := pushAll_flat flat' words bound
  rw [reversed] at pushed
  rw [interrupt, loaded, Option.bind_eq_bind, Option.bind_some, pushed, Option.bind_some, onStack_enter]
  rfl

end Cpu

/-! Instructions -/

variable {Function World : Type} {functions : Function → State World → Outcome (State World) Unit} {function : Function}
  {rest : List (Instr Function)} {cpu : Cpu} {world : World} {behind : Nat} {words values : List Nat}

theorem exec_step {instr : Instr Function} (plain : ∀ function behind, instr ≠ .call function behind) :
    exec functions instr ⟨cpu, world⟩ = State.lift ⟨cpu, world⟩ (cpu.step instr) := by
  cases instr with
  | call function behind => exact absurd rfl (plain function behind)
  | _ => rfl

theorem run_step {instr : Instr Function} {next : Cpu} (plain : ∀ function behind, instr ≠ .call function behind)
    (stepped : cpu.step instr = some next) : run functions (instr :: rest) ⟨cpu, world⟩ = run functions rest ⟨next, world⟩ := by
  rw [run, exec_step plain, stepped]
  rfl

theorem run_pushes (flat : (cpu.seg .ss).Flat) (room : 4 * values.length ≤ cpu.reg .esp) (bound : cpu.reg .esp < 2 ^ 32) :
    run functions (values.map .pushImm ++ rest) ⟨cpu, world⟩ = run functions rest ⟨cpu.onStack values.reverse, world⟩ := by
  induction values generalizing cpu with
  | nil => rw [List.map_nil, List.nil_append, List.reverse_nil, Cpu.onStack_nil]
  | cons value values ih =>
      rw [List.length_cons] at room
      have all : 4 * (values.reverse.length + [value].length) ≤ cpu.reg .esp := by
        rw [List.length_reverse, List.length_singleton]
        omega
      have pushed : cpu.step (.pushImm value : Instr Function) = some (cpu.onStack [value]) := Cpu.push_flat flat (by omega) bound value
      rw [List.map_cons, List.cons_append, run_step nofun pushed, List.reverse_cons, ← Cpu.onStack_onStack all]
      refine ih flat ?_ ?_
      · rw [Cpu.onStack_esp, List.length_singleton]
        omega
      · rw [Cpu.onStack_esp]
        omega

/-- Numbers and then the registers are put on the stack. -/
theorem run_saves (flat : (cpu.seg .ss).Flat) (room : 4 * values.length + 32 ≤ cpu.reg .esp) (bound : cpu.reg .esp < 2 ^ 32) :
    run functions (values.map .pushImm ++ .pushad :: rest) ⟨cpu, world⟩ =
      run functions rest ⟨(cpu.onStack values.reverse).onStack (cpu.onStack values.reverse).registers, world⟩ := by
  have numbered : (cpu.onStack values.reverse).reg .esp = cpu.reg .esp - 4 * values.length := by
    rw [Cpu.onStack_esp, List.length_reverse]
  have pushed : (cpu.onStack values.reverse).step (.pushad : Instr Function) =
      some ((cpu.onStack values.reverse).onStack (cpu.onStack values.reverse).registers) :=
    Cpu.pushad_flat flat (by omega) (by omega)
  rw [run_pushes flat (by omega) bound, run_step nofun pushed]

theorem exec_call {left : Cpu} {after : World} (flat : (cpu.seg .ss).Flat) (room : 4 ≤ cpu.reg .esp) (bound : cpu.reg .esp < 2 ^ 32)
    (called : functions function ⟨cpu.onStack [behind], world⟩ = .done () ⟨left, after⟩) (flat' : (left.seg .ss).Flat)
    (stack : left.Stack (behind :: words)) (bound' : left.reg .esp + 4 < 2 ^ 32) (address : behind < 2 ^ 32) :
    exec functions (.call function behind) ⟨cpu, world⟩ =
      .done () ⟨{ left.setReg .esp (left.reg .esp + 4) with eip := behind }, after⟩ := by
  have returned : left.ret = some { left.setReg .esp (left.reg .esp + 4) with eip := behind } := by
    rw [Cpu.ret, Cpu.pop_first flat' stack rfl bound', Nat.mod_eq_of_lt address]
    rfl
  rw [exec, Cpu.push_flat flat room bound]
  change (functions function ⟨cpu.onStack [behind], world⟩).bind _ = _
  rw [called, Outcome.done_bind, returned]
  exact if_pos rfl

/-- A run ends with this processor, or in a fault if there is none. -/
def Ends (outcome : Outcome (State World) Unit) (world : World) : Option Cpu → Prop
  | some cpu => outcome = .done () ⟨cpu, world⟩
  | none => ∃ state, outcome = .faulted state

/-- The registers are taken from the stack, two words passed over, and an interrupt returned from. -/
theorem run_restores {edi esi ebp passed ebx edx ecx eax first second eip cs eflags : Nat} (flat : (cpu.seg .ss).Flat)
    (stack : cpu.Stack ([edi, esi, ebp, passed, ebx, edx, ecx, eax, first, second, eip, cs, eflags] ++ words))
    (bound : cpu.reg .esp + 52 < 2 ^ 32)
    (small : ∀ word ∈ [edi, esi, ebp, passed, ebx, edx, ecx, eax, first, second, eip, cs, eflags], word < 2 ^ 32) :
    Ends (run functions [.popad, .addImm .esp 8, .iret] ⟨cpu, world⟩) world
      ({ cpu with reg := Reg.values edi esi ebp (cpu.reg .esp + 52) ebx edx ecx eax }.returnTo eip (cs % 2 ^ 16) eflags) := by
  simp only [List.forall_mem_cons] at small
  obtain ⟨edi_lt, esi_lt, ebp_lt, _, ebx_lt, edx_lt, ecx_lt, eax_lt, _, _, eip_lt, _, eflags_lt, _⟩ := small
  have popped : cpu.popad = some { cpu with reg := Reg.values edi esi ebp (cpu.reg .esp + 32) ebx edx ecx eax } := by
    have all := @Cpu.popad_stack cpu ([first, second, eip, cs, eflags] ++ words) _ _ _ _ _ _ _ _ flat stack (by omega)
    rw [Nat.mod_eq_of_lt edi_lt, Nat.mod_eq_of_lt esi_lt, Nat.mod_eq_of_lt ebp_lt, Nat.mod_eq_of_lt ebx_lt, Nat.mod_eq_of_lt edx_lt,
      Nat.mod_eq_of_lt ecx_lt, Nat.mod_eq_of_lt eax_lt] at all
    exact all
  obtain ⟨saved, loaded⟩ : ∃ saved : Cpu, saved = { cpu with reg := Reg.values edi esi ebp (cpu.reg .esp + 32) ebx edx ecx eax } := ⟨_, rfl⟩
  obtain ⟨status, added⟩ := Cpu.add_status saved .esp 8
  have sum : (saved.reg .esp + 8) % 2 ^ 32 = cpu.reg .esp + 40 := by
    rw [loaded]
    change (cpu.reg .esp + 32 + 8) % 2 ^ 32 = cpu.reg .esp + 40
    omega
  have top {value : Nat} : saved.setReg .esp value = { cpu with reg := Reg.values edi esi ebp value ebx edx ecx eax } := by
    rw [loaded]
    exact congrArg (fun reg => { cpu with reg }) (Reg.update_values ..)
  rw [sum, top] at added
  obtain ⟨next, summed⟩ : ∃ next : Cpu, next = { cpu with reg := Reg.values edi esi ebp (cpu.reg .esp + 40) ebx edx ecx eax, eflags := status } :=
    ⟨_, rfl⟩
  have behind : next.Stack ([eip, cs, eflags] ++ words) := by
    rw [summed]
    exact @Cpu.Stack.behind cpu _ [edi, esi, ebp, passed, ebx, edx, ecx, eax, first, second] stack
  have esp : next.reg .esp = cpu.reg .esp + 40 := by
    rw [summed]
    rfl
  have flat' : (next.seg .ss).Flat := by
    rw [summed]
    exact flat
  have last : next.setReg .esp (cpu.reg .esp + 40 + 12) =
      { { cpu with reg := Reg.values edi esi ebp (cpu.reg .esp + 52) ebx edx ecx eax } with eip := cpu.eip, eflags := status } := by
    rw [summed]
    exact congrArg (fun reg => { cpu with reg, eflags := status }) (Reg.update_values ..)
  have returned := Cpu.iret_stack flat' behind (by omega)
  rw [esp, last, Nat.mod_eq_of_lt eip_lt, Nat.mod_eq_of_lt eflags_lt, Cpu.returnTo_with] at returned
  have taken : cpu.step (.popad : Instr Function) = some saved := popped.trans (congrArg some loaded.symm)
  have passed : saved.step (.addImm .esp 8 : Instr Function) = some next := congrArg some (added.trans summed.symm)
  rw [run_step nofun taken, run_step nofun passed, run, exec_step nofun, Cpu.step, returned]
  cases { cpu with reg := Reg.values edi esi ebp (cpu.reg .esp + 52) ebx edx ecx eax }.returnTo eip (cs % 2 ^ 16) eflags with
  | none => exact ⟨_, rfl⟩
  | some cpu => rfl

end BarrelOS.X86
