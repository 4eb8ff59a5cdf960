import BarrelOS.Data.Words
import BarrelOS.Semantics.Outcome

namespace BarrelOS.X86

open BarrelOS.Data BarrelOS.Semantics

/-! A 32-bit processor in ring 0 -/

inductive Reg where
  | eax | ecx | edx | ebx | esp | ebp | esi | edi
deriving DecidableEq, Repr

inductive SegReg where
  | cs | ds | es | fs | gs | ss
deriving DecidableEq, Repr

/-- What a segment register holds: a selector, and the base and the last offset of its segment. -/
structure Segment where
  selector : Nat
  base : Nat
  limit : Nat
deriving DecidableEq, Repr

/-- The limit and the base of a descriptor table. -/
structure TableRegister where
  limit : Nat
  base : Nat
deriving DecidableEq, Repr

structure Cpu where
  reg : Reg → Nat
  seg : SegReg → Segment
  eip : Nat
  eflags : Nat
  cr0 : Nat
  cr3 : Nat
  gdtr : TableRegister
  memory : Bytes

/-! Segments -/

structure Descriptor where
  base : Nat
  limit : Nat
  access : Nat
  flags : Nat
deriving DecidableEq, Repr

namespace Descriptor

/-- The descriptor in eight bytes. -/
def read (memory : Bytes) (place : Nat) : Descriptor where
  base := memory.load16 (place + 2) + 2 ^ 16 * memory.load8 (place + 4) + 2 ^ 24 * memory.load8 (place + 7)
  limit := memory.load16 place + 2 ^ 16 * (memory.load8 (place + 6) % 2 ^ 4)
  access := memory.load8 (place + 5)
  flags := memory.load8 (place + 6) / 2 ^ 4

/-- Present, of ring 0, and for code or data. -/
def Usable (descriptor : Descriptor) : Prop := descriptor.access / 2 ^ 4 = 0b1001

/-- Code that only ring 0 runs. -/
def Code (descriptor : Descriptor) : Prop := descriptor.Usable ∧ descriptor.access / 2 ^ 2 % 2 ^ 2 = 0b10

def Writable (descriptor : Descriptor) : Prop := descriptor.Usable ∧ descriptor.access / 2 ^ 3 % 2 = 0 ∧ descriptor.access / 2 % 2 = 1

/-- Data, or code that may be read. -/
def Readable (descriptor : Descriptor) : Prop := descriptor.Usable ∧ (descriptor.access / 2 ^ 3 % 2 = 0 ∨ descriptor.access / 2 % 2 = 1)

/-- What a segment register may be loaded with. -/
def Fits (descriptor : Descriptor) : SegReg → Prop
  | .cs => descriptor.Code
  | .ss => descriptor.Writable
  | .ds | .es | .fs | .gs => descriptor.Readable

instance (descriptor : Descriptor) : Decidable descriptor.Usable := inferInstanceAs (Decidable (_ = _))

instance (descriptor : Descriptor) : Decidable descriptor.Code := inferInstanceAs (Decidable (_ ∧ _))

instance (descriptor : Descriptor) : Decidable descriptor.Writable := inferInstanceAs (Decidable (_ ∧ _))

instance (descriptor : Descriptor) : Decidable descriptor.Readable := inferInstanceAs (Decidable (_ ∧ _))

instance (descriptor : Descriptor) (register : SegReg) : Decidable (descriptor.Fits register) :=
  match register with
  | .cs => inferInstanceAs (Decidable descriptor.Code)
  | .ss => inferInstanceAs (Decidable descriptor.Writable)
  | .ds | .es | .fs | .gs => inferInstanceAs (Decidable descriptor.Readable)

/-- With the granularity flag the limit counts pages. -/
def segment (selector : Nat) (descriptor : Descriptor) : Segment where
  selector
  base := descriptor.base
  limit := if descriptor.flags / 2 ^ 3 % 2 = 1 then descriptor.limit * 4096 + 4095 else descriptor.limit

end Descriptor

/-- The address of bytes in a segment, none where they are not all inside. -/
def Segment.linear (segment : Segment) (offset size : Nat) : Option Nat :=
  if offset + size ≤ segment.limit + 1 then some ((segment.base + offset) % 2 ^ 32) else none

namespace Cpu

def setReg (cpu : Cpu) (reg : Reg) (value : Nat) : Cpu := { cpu with reg := Function.update cpu.reg reg value }

/-- The descriptor a selector of the global table and of ring 0 refers to. -/
def descriptor (cpu : Cpu) (selector : Nat) : Option Descriptor :=
  if 8 ≤ selector ∧ selector % 8 = 0 ∧ selector + 7 ≤ cpu.gdtr.limit then some (.read cpu.memory (cpu.gdtr.base + selector)) else none

def setSegment (cpu : Cpu) (register : SegReg) (segment : Segment) : Cpu :=
  { cpu with seg := Function.update cpu.seg register segment }

def loadSegment (cpu : Cpu) (register : SegReg) (selector : Nat) : Option Cpu := do
  let descriptor ← cpu.descriptor selector
  if descriptor.Fits register then some (cpu.setSegment register (descriptor.segment selector)) else none

def load (cpu : Cpu) (register : SegReg) (offset : Nat) : Option Nat := do
  let place ← (cpu.seg register).linear offset 4
  return cpu.memory.load32 place

def push (cpu : Cpu) (value : Nat) : Option Cpu := do
  let esp := (cpu.reg .esp + 2 ^ 32 - 4) % 2 ^ 32
  let place ← (cpu.seg .ss).linear esp 4
  return { cpu.setReg .esp esp with memory := cpu.memory.store place (wordBytes value) }

def pushAll (cpu : Cpu) : List Nat → Option Cpu
  | [] => some cpu
  | value :: values => do
      let cpu ← cpu.push value
      cpu.pushAll values

def pop (cpu : Cpu) : Option (Nat × Cpu) := do
  let value ← cpu.load .ss (cpu.reg .esp)
  return (value, cpu.setReg .esp ((cpu.reg .esp + 4) % 2 ^ 32))

def pushad (cpu : Cpu) : Option Cpu :=
  cpu.pushAll [cpu.reg .eax, cpu.reg .ecx, cpu.reg .edx, cpu.reg .ebx, cpu.reg .esp, cpu.reg .ebp, cpu.reg .esi, cpu.reg .edi]

/-- The word in the place of `esp` is passed over. -/
def popad (cpu : Cpu) : Option Cpu := do
  let (edi, cpu) ← cpu.pop
  let (esi, cpu) ← cpu.pop
  let (ebp, cpu) ← cpu.pop
  let (_, cpu) ← cpu.pop
  let (ebx, cpu) ← cpu.pop
  let (edx, cpu) ← cpu.pop
  let (ecx, cpu) ← cpu.pop
  let (eax, cpu) ← cpu.pop
  return ((((((cpu.setReg .edi edi).setReg .esi esi).setReg .ebp ebp).setReg .ebx ebx).setReg .edx edx).setReg .ecx ecx).setReg .eax eax

/-! Flags of arithmetic -/

def withStatus (cpu : Cpu) (status : Nat) : Cpu := { cpu with eflags := cpu.eflags &&& 0xFFFFF72A ||| status }

/-- `PF`, `ZF` and `SF`. -/
def resultStatus (result : Nat) : Nat :=
  (if (List.range 8).countP (result.testBit ·) % 2 = 0 then 0x4 else 0) + (if result = 0 then 0x40 else 0) +
    if 2 ^ 31 ≤ result then 0x80 else 0

def add (cpu : Cpu) (reg : Reg) (value : Nat) : Cpu :=
  let old := cpu.reg reg
  let result := (old + value) % 2 ^ 32
  let carry := if 2 ^ 32 ≤ old + value then 0x1 else 0
  let adjust := if 16 ≤ old % 16 + value % 16 then 0x10 else 0
  let overflow := if (old < 2 ^ 31 ↔ value < 2 ^ 31) ∧ ¬ (result < 2 ^ 31 ↔ old < 2 ^ 31) then 0x800 else 0
  (cpu.setReg reg result).withStatus (resultStatus result + carry + adjust + overflow)

def or (cpu : Cpu) (reg : Reg) (value : Nat) : Cpu :=
  let result := cpu.reg reg ||| value
  (cpu.setReg reg result).withStatus (resultStatus result)

/-! Interrupts -/

/-- An interrupt gate of ring 0. -/
structure Gate where
  selector : Nat
  offset : Nat
deriving DecidableEq, Repr

/-- Through an interrupt gate the flags `TF`, `IF`, `NT`, `RF` and `VM` are cleared. -/
def interruptFlags (eflags : Nat) : Nat := eflags &&& 0xFFFCBCFF

/-- An interrupt in ring 0 stays on its stack. -/
def interrupt (cpu : Cpu) (gate : Gate) (errorCode : Option Nat) : Option Cpu := do
  let handling ← cpu.loadSegment .cs gate.selector
  let pushed ← handling.pushAll ([cpu.eflags, (cpu.seg .cs).selector, cpu.eip] ++ errorCode.toList)
  return { pushed with eip := gate.offset, eflags := interruptFlags cpu.eflags }

/-- A return within ring 0. -/
def iret (cpu : Cpu) : Option Cpu := do
  let (eip, cpu) ← cpu.pop
  let (cs, cpu) ← cpu.pop
  let (eflags, cpu) ← cpu.pop
  let cpu ← cpu.loadSegment .cs (cs % 2 ^ 16)
  return { cpu with eip, eflags }

end Cpu

/-! Instructions -/

/-- A processor, and what it runs beside its memory. -/
structure State (World : Type) where
  cpu : Cpu
  world : World

/-- The instructions in straight-line code. A call has the address behind it. -/
inductive Instr (Function : Type) where
  | pushImm (value : Nat)
  | pushReg (reg : Reg)
  | popReg (reg : Reg)
  | pushad
  | popad
  | movImm (reg : Reg) (value : Nat)
  | movImm16 (reg : Reg) (value : Nat)
  | movReg (reg source : Reg)
  | movLoad (reg base : Reg) (disp : Nat)
  | movFromCr0 (reg : Reg)
  | movToCr0 (reg : Reg)
  | movToCr3 (reg : Reg)
  | movSeg (register : SegReg) (reg : Reg)
  | addImm (reg : Reg) (value : Nat)
  | orImm (reg : Reg) (value : Nat)
  | lgdt (address : Nat)
  | jmpFar (selector target : Nat)
  | call (function : Function) (behind : Nat)
  | ret
  | iret
  | cli
deriving DecidableEq, Repr

variable {Function World : Type}

namespace Cpu

def ret (cpu : Cpu) : Option Cpu := do
  let (eip, cpu) ← cpu.pop
  return { cpu with eip }

/-- The instructions other than calls. -/
def step (cpu : Cpu) : Instr Function → Option Cpu
  | .pushImm value => cpu.push value
  | .pushReg reg => cpu.push (cpu.reg reg)
  | .popReg reg => do
      let (value, cpu) ← cpu.pop
      return cpu.setReg reg value
  | .pushad => cpu.pushad
  | .popad => cpu.popad
  | .movImm reg value => some (cpu.setReg reg value)
  | .movImm16 reg value => some (cpu.setReg reg (cpu.reg reg / 2 ^ 16 * 2 ^ 16 + value))
  | .movReg reg source => some (cpu.setReg reg (cpu.reg source))
  | .movLoad reg base disp => do
      let value ← cpu.load (if base = .esp ∨ base = .ebp then .ss else .ds) ((cpu.reg base + disp) % 2 ^ 32)
      return cpu.setReg reg value
  | .movFromCr0 reg => some (cpu.setReg reg cpu.cr0)
  | .movToCr0 reg => some { cpu with cr0 := cpu.reg reg }
  | .movToCr3 reg => some { cpu with cr3 := cpu.reg reg }
  | .movSeg register reg => cpu.loadSegment register (cpu.reg reg % 2 ^ 16)
  | .addImm reg value => some (cpu.add reg value)
  | .orImm reg value => some (cpu.or reg value)
  | .lgdt address => do
      let place ← (cpu.seg .ds).linear address 6
      return { cpu with gdtr := ⟨cpu.memory.load16 place, cpu.memory.load32 (place + 2)⟩ }
  | .jmpFar selector target => do
      let cpu ← cpu.loadSegment .cs selector
      return { cpu with eip := target }
  | .call _ _ => none
  | .ret => cpu.ret
  | .iret => cpu.iret
  | .cli => some { cpu with eflags := cpu.eflags &&& 0xFFFFFDFF }

end Cpu

namespace State

def lift (state : State World) (cpu : Option Cpu) : Outcome (State World) Unit :=
  match cpu with
  | some cpu => .done () { state with cpu }
  | none => .faulted state

end State

/-- The functions are run from their first instruction up to their `ret`, which must lead
behind the call. -/
def exec (functions : Function → State World → Outcome (State World) Unit) (instr : Instr Function) (state : State World) :
    Outcome (State World) Unit :=
  match instr with
  | .call function behind =>
      (state.lift (state.cpu.push behind)).bind fun _ state =>
        (functions function state).bind fun _ state =>
          match state.cpu.ret with
          | some cpu => if cpu.eip = behind then .done () { state with cpu } else .faulted state
          | none => .faulted state
  | instr => state.lift (state.cpu.step instr)

def run (functions : Function → State World → Outcome (State World) Unit) : List (Instr Function) → State World →
    Outcome (State World) Unit
  | [], state => .done () state
  | instr :: rest, state => (exec functions instr state).bind fun _ state => run functions rest state

end BarrelOS.X86
