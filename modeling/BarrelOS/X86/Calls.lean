import BarrelOS.X86.Rules

namespace BarrelOS.X86

open BarrelOS.Data BarrelOS.Semantics

/-! Calls of compiled functions -/

variable {World Function : Type}

/-- What a compiled function leaves where the calling convention lets it: in three
registers, in the status flags and on the stack below its return address. -/
structure Leftover where
  eax : Nat
  ecx : Nat
  edx : Nat
  status : Nat
  scratch : List UInt8

/-- The words from an address on. -/
def wordsAt (memory : Bytes) (place count : Nat) : List Nat := (List.range count).map fun k => memory.load32 (place + 4 * k)

/-- The words of its argument have been changed in place. -/
def Leftover.apply (leave : Leftover) (place : Nat) (words : List Nat) (cpu : Cpu) : Cpu :=
  { (((cpu.setReg .eax leave.eax).setReg .ecx leave.ecx).setReg .edx leave.edx).withStatus leave.status with
    memory := (cpu.memory.store place (wordsBytes words)).store (cpu.reg .esp - leave.scratch.length) leave.scratch }

/-- A function with one argument of some words, which lies behind its return address. -/
def byValue (count : Nat) (body : List Nat → World → Outcome World (List Nat)) (leave : Leftover) (state : State World) :
    Outcome (State World) Unit :=
  match (state.cpu.seg .ss).linear ((state.cpu.reg .esp + 4) % 2 ^ 32) (4 * count) with
  | none => .faulted state
  | some place =>
      if leave.scratch.length ≤ state.cpu.reg .esp then
        ((body (wordsAt state.cpu.memory place count) state.world).within fun world => { state with world }).bind fun words state =>
          .done () { state with cpu := leave.apply place words state.cpu }
      else .faulted state

variable {cpu : Cpu} {memory : Bytes} {place count : Nat} {words args : List Nat} {leave : Leftover} {world : World}
  {body : List Nat → World → Outcome World (List Nat)} {behind word : Nat} {functions : Function → State World → Outcome (State World) Unit}
  {rest : List (Instr Function)}

theorem wordsAt_holds (memory : Bytes) (place count : Nat) : memory.Holds place (wordsBytes (wordsAt memory place count)) := by
  induction count generalizing place with
  | zero => exact nofun
  | succ count ih =>
      have shift : ((fun k => memory.load32 (place + 4 * k)) ∘ Nat.succ) = fun k => memory.load32 (place + 4 + 4 * k) := by
        funext k
        exact congrArg memory.load32 (by rw [Nat.succ_eq_add_one]; omega)
      rw [wordsAt, List.range_succ_eq_map, List.map_cons, List.map_map, shift, Bytes.holds_words]
      exact ⟨(Nat.mod_eq_of_lt Bytes.load32_lt).symm, ih (place + 4)⟩

theorem wordsAt_eq (holds : memory.Holds place (wordsBytes words)) (small : ∀ word ∈ words, word < 2 ^ 32) :
    wordsAt memory place words.length = words := by
  refine List.ext_getElem (by rw [wordsAt, List.length_map, List.length_range]) fun k inside inside' => ?_
  have found : words[k]? = some words[k] := List.getElem?_eq_getElem inside'
  simp only [wordsAt, List.getElem_map, List.getElem_range, Bytes.load_words holds found]
  exact Nat.mod_eq_of_lt (small _ (List.getElem_mem inside'))

namespace Leftover

@[simp] theorem apply_seg : (leave.apply place words cpu).seg = cpu.seg := rfl

theorem apply_reg {reg : Reg} (kept : reg ≠ .eax ∧ reg ≠ .ecx ∧ reg ≠ .edx) : (leave.apply place words cpu).reg reg = cpu.reg reg := by
  change (((cpu.setReg .eax leave.eax).setReg .ecx leave.ecx).setReg .edx leave.edx).reg reg = cpu.reg reg
  rw [Cpu.setReg_of_ne kept.2.2, Cpu.setReg_of_ne kept.2.1, Cpu.setReg_of_ne kept.1]

theorem apply_esp : (leave.apply place words cpu).reg .esp = cpu.reg .esp := apply_reg (by decide)

section

variable (room : leave.scratch.length ≤ cpu.reg .esp)
include room

/-- The return address and the argument it left are on the stack. -/
theorem apply_stack (stack : cpu.Stack (behind :: args)) (same : words.length = args.length)
    (bound : cpu.reg .esp + 4 + 4 * words.length ≤ 2 ^ 32) :
    (leave.apply (cpu.reg .esp + 4) words cpu).Stack (behind :: words) := by
  have below : ∀ i < 4 + 4 * words.length, ∀ j < leave.scratch.length,
      (cpu.reg .esp + i) % 2 ^ 32 ≠ (cpu.reg .esp - leave.scratch.length + j) % 2 ^ 32 := by
    intro i inside j within
    omega
  have length : (wordsBytes (behind :: words)).length = 4 + 4 * words.length := by
    rw [wordsBytes_length, List.length_cons]
    omega
  rw [Cpu.Stack, apply_esp]
  refine Bytes.holds_store ?_ (length ▸ below)
  obtain ⟨address, _⟩ := Bytes.holds_words.mp stack
  have outside : ∀ i < (wordBytes behind).length, ∀ j < (wordsBytes words).length,
      (cpu.reg .esp + i) % 2 ^ 32 ≠ (cpu.reg .esp + 4 + j) % 2 ^ 32 := by
    intro i inside j within
    rw [wordsBytes_length] at within
    change i < 4 at inside
    omega
  have top := Bytes.holds_store (Bytes.holds_word.mpr address) outside
  have argument : (cpu.memory.store (cpu.reg .esp + 4) (wordsBytes words)).Holds (cpu.reg .esp + 4) (wordsBytes words) := by
    refine Bytes.store_holds ?_
    rw [wordsBytes_length]
    omega
  exact Bytes.holds_words.mpr ⟨Bytes.holds_word.mp top, argument⟩

/-- The rest of memory stays as it was. -/
theorem apply_outside {address : Nat} (bound : cpu.reg .esp + 4 + 4 * words.length ≤ 2 ^ 32)
    (outside : address < cpu.reg .esp - leave.scratch.length ∨ cpu.reg .esp + 4 + 4 * words.length ≤ address) :
    (leave.apply (cpu.reg .esp + 4) words cpu).memory address = cpu.memory address := by
  refine (Bytes.store_outside fun j within => ?_).trans (Bytes.store_outside fun j within => ?_)
  · omega
  · rw [wordsBytes_length] at within
    omega

end

end Leftover

theorem byValue_bind (flat : (cpu.seg .ss).Flat) (some_word : 0 < count) (bound : cpu.reg .esp + 4 + 4 * count ≤ 2 ^ 32)
    (room : leave.scratch.length ≤ cpu.reg .esp) :
    byValue count body leave ⟨cpu, world⟩ =
      ((body (wordsAt cpu.memory (cpu.reg .esp + 4) count) world).within fun world => ⟨cpu, world⟩).bind fun words state =>
        .done () { state with cpu := leave.apply (cpu.reg .esp + 4) words state.cpu } := by
  have place : (cpu.reg .esp + 4) % 2 ^ 32 = cpu.reg .esp + 4 := Nat.mod_eq_of_lt (by omega)
  simp only [byValue, place, flat.linear (Nat.mul_pos (by decide : 0 < 4) some_word) bound, if_pos room]

end BarrelOS.X86
