import BarrelOS.X86.Rules

namespace BarrelOS.X86

open BarrelOS.Data

/-! Code that does not look below its stack pointer -/

variable {Function : Type}

/-- The same processor but for its memory from `bottom` up to the stack pointer. -/
structure Alike (bottom : Nat) (cpu other : Cpu) : Prop where
  same : other = { cpu with memory := other.memory }
  outside : ∀ place, place < bottom ∨ cpu.reg .esp ≤ place → other.memory place = cpu.memory place

/-- The stack lies in a flat address space. -/
structure OnFlat (cpu : Cpu) : Prop where
  flat : (cpu.seg .ss).Flat
  bound : cpu.reg .esp < 2 ^ 32

/-- From processors that are alike a step goes to such processors again, unless the stack pointer gets zero. -/
def Oblivious (bottom : Nat) (step : Cpu → Option Cpu) : Prop :=
  ∀ cpu other next, OnFlat cpu → Alike bottom cpu other → step cpu = some next →
    OnFlat next ∧ ∃ last, step other = some last ∧ last.reg = next.reg ∧ (0 < next.reg .esp → Alike bottom next last)

/-- Instructions that use the stack pointer only to push and pop. -/
def Plain : Instr Function → Prop
  | .pushImm _ | .pushReg _ | .movToCr0 _ | .movToCr3 _ | .cli => True
  | .popReg reg | .movImm reg _ | .movImm16 reg _ | .movReg reg _ | .movFromCr0 reg | .addImm reg _ | .orImm reg _ => reg ≠ .esp
  | _ => False

namespace Cpu

variable {cpu next : Cpu} {value : Nat}

theorem push_word (flat : (cpu.seg .ss).Flat) : cpu.push value = some next ↔
    (cpu.reg .esp + 2 ^ 32 - 4) % 2 ^ 32 + 4 ≤ 2 ^ 32 ∧
      next = { cpu.setReg .esp ((cpu.reg .esp + 2 ^ 32 - 4) % 2 ^ 32) with
        memory := cpu.memory.store ((cpu.reg .esp + 2 ^ 32 - 4) % 2 ^ 32) (wordBytes value) } := by
  by_cases inside : (cpu.reg .esp + 2 ^ 32 - 4) % 2 ^ 32 + 4 ≤ 2 ^ 32
  · simp only [push, flat.linear (by decide : 0 < 4) inside, Option.bind_eq_bind, Option.bind_some, inside, true_and]
    exact Option.some_inj.trans eq_comm
  · have outside : (cpu.seg .ss).linear ((cpu.reg .esp + 2 ^ 32 - 4) % 2 ^ 32) 4 = none := if_neg (by rw [flat.limit]; omega)
    simp only [push, outside, Option.bind_eq_bind, Option.bind_none, inside, false_and, reduceCtorEq]

theorem pop_word (flat : (cpu.seg .ss).Flat) : cpu.pop = some (value, next) ↔
    cpu.reg .esp + 4 ≤ 2 ^ 32 ∧ value = cpu.memory.load32 (cpu.reg .esp) ∧ next = cpu.setReg .esp ((cpu.reg .esp + 4) % 2 ^ 32) := by
  by_cases inside : cpu.reg .esp + 4 ≤ 2 ^ 32
  · simp only [pop, load, flat.linear (by decide : 0 < 4) inside, Option.bind_eq_bind, Option.bind_some, inside, true_and]
    exact Option.some_inj.trans (eq_comm.trans Prod.ext_iff)
  · have outside : (cpu.seg .ss).linear (cpu.reg .esp) 4 = none := if_neg (by rw [flat.limit]; omega)
    simp only [pop, load, outside, Option.bind_eq_bind, Option.bind_none, inside, false_and, reduceCtorEq]

end Cpu

namespace Alike

variable {bottom : Nat} {cpu other third : Cpu}

theorem refl (bottom : Nat) (cpu : Cpu) : Alike bottom cpu cpu := ⟨rfl, fun _ _ => rfl⟩

theorem reg (alike : Alike bottom cpu other) : other.reg = cpu.reg := by
  rw [alike.same]

theorem trans (first : Alike bottom cpu other) (second : Alike bottom other third) : Alike bottom cpu third := by
  refine ⟨?_, fun place outside => ?_⟩
  · have same := second.same
    rw [first.same] at same
    exact same
  · rw [second.outside place (first.reg ▸ outside), first.outside place outside]

/-- Registers other than the stack pointer are set alike. -/
theorem setReg (alike : Alike bottom cpu other) {reg : Reg} (ne : reg ≠ .esp) (value : Nat) :
    Alike bottom (cpu.setReg reg value) (other.setReg reg value) := by
  refine ⟨?_, fun place outside => ?_⟩
  · rw [alike.same]
    rfl
  · rw [Cpu.setReg_of_ne ne.symm] at outside
    exact alike.outside place outside

theorem push (alike : Alike bottom cpu other) {next : Cpu} {value : Nat} (level : OnFlat cpu) (pushed : cpu.push value = some next) :
    OnFlat next ∧ ∃ last, other.push value = some last ∧ last.reg = next.reg ∧ (0 < next.reg .esp → Alike bottom next last) := by
  obtain ⟨memory, rfl⟩ : ∃ memory, other = { cpu with memory } := ⟨_, alike.same⟩
  obtain ⟨inside, rfl⟩ := (Cpu.push_word level.flat).mp pushed
  obtain ⟨esp, low⟩ : ∃ esp, esp = (cpu.reg .esp + 2 ^ 32 - 4) % 2 ^ 32 := ⟨_, rfl⟩
  have bound := level.bound
  rw [← low] at inside ⊢
  have top : (cpu.setReg .esp esp).reg .esp = esp := Cpu.setReg_reg .esp esp
  have again : ({ cpu with memory } : Cpu).push value =
      some { cpu.setReg .esp esp with memory := memory.store esp (wordBytes value) } := by
    rw [low] at inside ⊢
    exact (@Cpu.push_word { cpu with memory } _ value level.flat).mpr ⟨inside, rfl⟩
  refine ⟨⟨level.flat, ?_⟩, _, again, rfl, fun _ => ⟨rfl, fun place outside => Bytes.store_congr ?_⟩⟩
  · change (cpu.setReg .esp esp).reg .esp < 2 ^ 32
    omega
  · change place < bottom ∨ (cpu.setReg .esp esp).reg .esp ≤ place at outside
    rw [top] at outside
    by_cases written : esp ≤ place ∧ place < esp + 4
    · refine .inr ⟨place - esp, ?_, by omega⟩
      change place - esp < 4
      omega
    · exact .inl (alike.outside place (by omega))

theorem pop (alike : Alike bottom cpu other) {next : Cpu} {value : Nat} (level : OnFlat cpu) (popped : cpu.pop = some (value, next)) :
    OnFlat next ∧ ∃ last, other.pop = some (value, last) ∧ last.reg = next.reg ∧ (0 < next.reg .esp → Alike bottom next last) := by
  obtain ⟨memory, rfl⟩ : ∃ memory, other = { cpu with memory } := ⟨_, alike.same⟩
  obtain ⟨inside, rfl, rfl⟩ := (Cpu.pop_word level.flat).mp popped
  have top : (cpu.setReg .esp ((cpu.reg .esp + 4) % 2 ^ 32)).reg .esp = (cpu.reg .esp + 4) % 2 ^ 32 := Cpu.setReg_reg .esp _
  have word : cpu.memory.load32 (cpu.reg .esp) = memory.load32 (cpu.reg .esp) :=
    Bytes.load32_congr fun i low => (alike.outside _ (by omega)).symm
  have again : ({ cpu with memory } : Cpu).pop =
      some (cpu.memory.load32 (cpu.reg .esp), { cpu.setReg .esp ((cpu.reg .esp + 4) % 2 ^ 32) with memory }) :=
    (@Cpu.pop_word { cpu with memory } _ _ level.flat).mpr ⟨inside, word, rfl⟩
  refine ⟨⟨level.flat, by omega⟩, _, again, rfl, fun positive => ⟨rfl, fun place outside => alike.outside place ?_⟩⟩
  rw [top] at outside positive
  omega

end Alike

theorem OnFlat.setReg {cpu : Cpu} (level : OnFlat cpu) {reg : Reg} (ne : reg ≠ .esp) (value : Nat) : OnFlat (cpu.setReg reg value) :=
  ⟨level.flat, (Cpu.setReg_of_ne ne.symm value).symm ▸ level.bound⟩

variable {bottom : Nat} {instr : Instr Function}

/-- A step that keeps memory, the stack pointer and its segment. -/
theorem oblivious_keep {update : Cpu → Cpu} (esp : ∀ cpu, (update cpu).reg .esp = cpu.reg .esp)
    (stack : ∀ cpu, (update cpu).seg .ss = cpu.seg .ss) (kept : ∀ cpu, (update cpu).memory = cpu.memory)
    (same : ∀ cpu memory, update { cpu with memory } = { update cpu with memory }) :
    Oblivious bottom fun cpu => some (update cpu) := by
  intro cpu other next level alike stepped
  obtain ⟨memory, rfl⟩ : ∃ memory, other = { cpu with memory } := ⟨_, alike.same⟩
  cases Option.some.inj stepped
  refine ⟨⟨(stack cpu).symm ▸ level.flat, (esp cpu).symm ▸ level.bound⟩, _, rfl, ?_, fun _ => ⟨?_, fun place outside => ?_⟩⟩
  · rw [same]
  · rw [same]
  · rw [same, kept]
    rw [esp] at outside
    exact alike.outside place outside

/-- A step that puts what it finds in the other fields into a register. -/
theorem oblivious_set {reg : Reg} {value flags : Cpu → Nat} (ne : reg ≠ .esp)
    (same : ∀ cpu memory, value { cpu with memory } = value cpu ∧ flags { cpu with memory } = flags cpu) :
    Oblivious bottom fun cpu => some { cpu.setReg reg (value cpu) with eflags := flags cpu } := by
  refine @oblivious_keep bottom (fun cpu => { cpu.setReg reg (value cpu) with eflags := flags cpu })
    (fun cpu => Cpu.setReg_of_ne ne.symm _) (fun _ => rfl) (fun _ => rfl) fun cpu memory => ?_
  simp only [(same cpu memory).1, (same cpu memory).2]
  rfl

/-- Code of plain instructions is oblivious. -/
theorem oblivious_step (plain : Plain instr) : Oblivious bottom fun cpu => cpu.step instr := by
  cases instr with
  | pushImm value =>
      intro cpu other next level alike stepped
      exact alike.push level stepped
  | pushReg reg =>
      intro cpu other next level alike stepped
      have pushed : other.step (.pushReg reg : Instr Function) = other.push (cpu.reg reg) := congrArg other.push (congrFun alike.reg reg)
      simp only [pushed]
      exact alike.push level stepped
  | popReg reg =>
      intro cpu other next level alike stepped
      obtain ⟨⟨value, middle⟩, popped, set⟩ := Option.bind_eq_some_iff.mp stepped
      cases Option.some.inj set
      have esp : (middle.setReg reg value).reg .esp = middle.reg .esp := Cpu.setReg_of_ne (Ne.symm plain) value
      obtain ⟨level, last, again, same, alike⟩ := alike.pop level popped
      refine ⟨level.setReg plain value, last.setReg reg value, ?_, ?_, fun positive => (alike (esp ▸ positive)).setReg plain value⟩
      · change (other.pop).bind _ = _
        rw [again]
        rfl
      · simp only [Cpu.setReg, same]
  | movImm reg value => exact @oblivious_set bottom reg (fun _ => value) Cpu.eflags plain fun cpu memory => ⟨rfl, rfl⟩
  | movImm16 reg value =>
      exact @oblivious_set bottom reg (fun cpu => cpu.reg reg / 2 ^ 16 * 2 ^ 16 + value) Cpu.eflags plain fun cpu memory => ⟨rfl, rfl⟩
  | movReg reg source => exact @oblivious_set bottom reg (fun cpu => cpu.reg source) Cpu.eflags plain fun cpu memory => ⟨rfl, rfl⟩
  | movFromCr0 reg => exact @oblivious_set bottom reg Cpu.cr0 Cpu.eflags plain fun cpu memory => ⟨rfl, rfl⟩
  | addImm reg value => exact @oblivious_set bottom reg _ (fun cpu => (cpu.add reg value).eflags) plain fun cpu memory => ⟨rfl, rfl⟩
  | orImm reg value => exact @oblivious_set bottom reg _ (fun cpu => (cpu.or reg value).eflags) plain fun cpu memory => ⟨rfl, rfl⟩
  | movToCr0 reg =>
      exact @oblivious_keep bottom (fun cpu => { cpu with cr0 := cpu.reg reg }) (fun _ => rfl) (fun _ => rfl) (fun _ => rfl) fun _ _ => rfl
  | movToCr3 reg =>
      exact @oblivious_keep bottom (fun cpu => { cpu with cr3 := cpu.reg reg }) (fun _ => rfl) (fun _ => rfl) (fun _ => rfl) fun _ _ => rfl
  | cli =>
      exact @oblivious_keep bottom (fun cpu => { cpu with eflags := cpu.eflags &&& 0xFFFFFDFF }) (fun _ => rfl) (fun _ => rfl)
        (fun _ => rfl) fun _ _ => rfl
  | _ => cases plain

end BarrelOS.X86
