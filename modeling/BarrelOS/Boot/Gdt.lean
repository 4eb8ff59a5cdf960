import BarrelOS.X86.Rules

namespace BarrelOS.Boot

open BarrelOS.Data BarrelOS.Semantics BarrelOS.X86

/-! `gdt.c` and `gdt.S` -/

def halfBytes (value : Nat) : List UInt8 := [UInt8.ofNat value, UInt8.ofNat (value / 2 ^ 8)]

/-- `struct gdt_entry`. -/
structure GdtEntry where
  limit : Nat
  baseLow : Nat
  baseMid : Nat
  access : Nat
  gran : Nat
  baseHigh : Nat

/-- It is packed. -/
def GdtEntry.bytes (entry : GdtEntry) : List UInt8 :=
  halfBytes entry.limit ++ halfBytes entry.baseLow ++
    [UInt8.ofNat entry.baseMid, UInt8.ofNat entry.access, UInt8.ofNat entry.gran, UInt8.ofNat entry.baseHigh]

def sizeofGdtEntry : Nat := 8

section

variable (gdtEntries gdtDescriptor : Nat)

def gdtSetEntry (index limit base access gran : Nat) (memory : Bytes) : Bytes :=
  memory.store (gdtEntries + sizeofGdtEntry * index)
    (GdtEntry.bytes ⟨limit, base &&& 0xFFFF, base >>> 16 &&& 0xFF, access, gran, base >>> 24 &&& 0xFF⟩)

/-- `gdt_install` up to the call of `gdt_flush`. -/
def gdtTables (memory : Bytes) : Bytes :=
  let memory := gdtSetEntry gdtEntries 0 0x0000 0x00000000 0b00000000 0b00000000 memory
  let memory := gdtSetEntry gdtEntries 1 0xFFFF 0x00000000 0b10011011 0b11001111 memory
  let memory := gdtSetEntry gdtEntries 2 0xFFFF 0x00000000 0b10010011 0b11001111 memory
  memory.store gdtDescriptor (halfBytes (sizeofGdtEntry * 3 - 1) ++ wordBytes gdtEntries)

/-- `gdt_flush` up to the `ret` that it jumps to. -/
def gdtFlush (ret : Nat) : List (Instr Empty) :=
  [.lgdt gdtDescriptor, .movImm16 .eax 0x10, .movSeg .ds .eax, .movSeg .es .eax, .movSeg .fs .eax, .movSeg .gs .eax, .movSeg .ss .eax,
    .jmpFar 0x08 ret]

def flushFunction (ret : Nat) (_ : Unit) : State Unit → Outcome (State Unit) Unit :=
  run (fun function => function.elim) (gdtFlush gdtDescriptor ret)

/-- The memory when a function has left anything on the stack below its return address at `esp`, down to `low`. -/
def usedStack (low esp : Nat) (left memory : Bytes) : Bytes := fun place => if low ≤ place ∧ place < esp then left place else memory place

/-- `gdt_install` up to the return of `gdt_flush`, behind which it prints. The registers and the
flags of its compiled code at the call of `gdt_flush`, and what is then on its stack, are parameters. -/
def gdtInstall (ret behind low : Nat) (left : Bytes) (reg : Reg → Nat) (eflags : Nat) (cpu : Cpu) : Outcome (State Unit) Unit :=
  let memory := gdtTables gdtEntries gdtDescriptor (usedStack low (cpu.reg .esp) left cpu.memory)
  exec (flushFunction gdtDescriptor ret) (.call () behind) ⟨{ cpu with reg, eflags, memory }, ()⟩

end

variable {memory left : Bytes} {gdtEntries gdtDescriptor index other limit base access gran ret behind low : Nat} {cpu : Cpu}

theorem read_holds {place lowLimit lowBase midBase accessByte granByte highBase : Nat}
    (holds : memory.Holds place (GdtEntry.bytes ⟨lowLimit, lowBase, midBase, accessByte, granByte, highBase⟩)) :
    Descriptor.read memory place = {
      base := lowBase % 2 ^ 16 + 2 ^ 16 * (midBase % 2 ^ 8) + 2 ^ 24 * (highBase % 2 ^ 8)
      limit := lowLimit % 2 ^ 16 + 2 ^ 16 * (granByte % 2 ^ 4)
      access := accessByte % 2 ^ 8
      flags := granByte % 2 ^ 8 / 2 ^ 4 } := by
  have digit : ∀ n : Nat, (UInt8.ofNat n).toNat = n % 2 ^ 8 := fun n => UInt8.toNat_ofNat'
  simp only [GdtEntry.bytes, halfBytes, List.cons_append, List.nil_append, Bytes.holds_cons, digit, Nat.add_assoc, Nat.reduceAdd] at holds
  obtain ⟨limit, limit', base, base', mid, access, gran, high, _⟩ := holds
  simp only [Descriptor.read, Bytes.load16, Nat.add_assoc, Nat.reduceAdd, limit, limit', base, base', mid, access, gran, high,
    Descriptor.mk.injEq, and_true]
  omega

/-- An entry is read back as it was set, from every base and limit, and the others stay as they were. -/
theorem gdtSetEntry_read (half : limit < 2 ^ 16) (word : base < 2 ^ 32) (accessed : access < 2 ^ 8) (granularity : gran < 2 ^ 8)
    (inside : index < 3) :
    Descriptor.read (gdtSetEntry gdtEntries index limit base access gran memory) (gdtEntries + sizeofGdtEntry * index) =
        ⟨base, limit + 2 ^ 16 * (gran % 2 ^ 4), access, gran / 2 ^ 4⟩ ∧
      ∀ other < 3, other ≠ index →
        Descriptor.read (gdtSetEntry gdtEntries index limit base access gran memory) (gdtEntries + sizeofGdtEntry * other) =
          Descriptor.read memory (gdtEntries + sizeofGdtEntry * other) := by
  have low : base &&& 0xFFFF = base % 2 ^ 16 := Nat.and_two_pow_sub_one_eq_mod base 16
  have mid : base >>> 16 &&& 0xFF = base / 2 ^ 16 % 2 ^ 8 := by
    rw [Nat.shiftRight_eq_div_pow]
    exact Nat.and_two_pow_sub_one_eq_mod _ 8
  have high : base >>> 24 &&& 0xFF = base / 2 ^ 24 % 2 ^ 8 := by
    rw [Nat.shiftRight_eq_div_pow]
    exact Nat.and_two_pow_sub_one_eq_mod _ 8
  have stored : (gdtSetEntry gdtEntries index limit base access gran memory).Holds (gdtEntries + sizeofGdtEntry * index) _ :=
    Bytes.store_holds (by change 8 ≤ 2 ^ 32; decide)
  constructor
  · rw [read_holds stored, low, mid, high]
    simp only [Descriptor.mk.injEq]
    omega
  · intro other small different
    unfold sizeofGdtEntry
    refine Descriptor.read_congr fun i here => Bytes.store_outside fun j within => ?_
    change j < 8 at within
    change (gdtEntries + 8 * index + j) % 2 ^ 32 ≠ (gdtEntries + 8 * other + i) % 2 ^ 32
    omega

theorem gdtSetEntry_read_code :
    Descriptor.read (gdtSetEntry 0x210000 1 0xFFFF 0x12345678 0b10011011 0b11001111 fun _ => 0) (0x210000 + sizeofGdtEntry * 1) =
        ⟨0x12345678, 0xFFFF + 2 ^ 16 * (0b11001111 % 2 ^ 4), 0b10011011, 0b11001111 / 2 ^ 4⟩ ∧
      ∀ other < 3, other ≠ 1 →
        Descriptor.read (gdtSetEntry 0x210000 1 0xFFFF 0x12345678 0b10011011 0b11001111 fun _ => 0) (0x210000 + sizeofGdtEntry * other) =
          Descriptor.read (fun _ => 0) (0x210000 + sizeofGdtEntry * other) :=
  gdtSetEntry_read (by decide) (by decide) (by decide) (by decide) (by decide)

/-! A flat address space -/

/-- The table that `gdt_install` fills in is loaded. -/
structure GdtLoaded (gdtEntries : Nat) (cpu : Cpu) : Prop where
  gdtr : cpu.gdtr = ⟨sizeofGdtEntry * 3 - 1, gdtEntries⟩
  code : Descriptor.read cpu.memory (gdtEntries + 8) = ⟨0, 0xFFFFF, 0b10011011, 0b1100⟩
  data : Descriptor.read cpu.memory (gdtEntries + 16) = ⟨0, 0xFFFFF, 0b10010011, 0b1100⟩

/-- The segment that a selector of the table stands for. -/
def flatSegment (selector : Nat) : Segment := ⟨selector, 0, 2 ^ 32 - 1⟩

namespace GdtLoaded

theorem loadCode (loaded : GdtLoaded gdtEntries cpu) : cpu.loadSegment .cs 0x08 = some (cpu.setSegment .cs (flatSegment 0x08)) := by
  have found : cpu.descriptor 0x08 = some ⟨0, 0xFFFFF, 0b10011011, 0b1100⟩ := by
    rw [Cpu.descriptor, loaded.gdtr, loaded.code]
    rfl
  rw [Cpu.loadSegment, found]
  rfl

theorem loadData (loaded : GdtLoaded gdtEntries cpu) {register : SegReg} (data : register ≠ .cs) :
    cpu.loadSegment register 0x10 = some (cpu.setSegment register (flatSegment 0x10)) := by
  have found : cpu.descriptor 0x10 = some ⟨0, 0xFFFFF, 0b10010011, 0b1100⟩ := by
    rw [Cpu.descriptor, loaded.gdtr, loaded.data]
    rfl
  have fits : (⟨0, 0xFFFFF, 0b10010011, 0b1100⟩ : Descriptor).Fits register := by
    cases register with
    | cs => exact absurd rfl data
    | _ => decide
  rw [Cpu.loadSegment, found]
  exact if_pos fits

theorem step_movSeg (loaded : GdtLoaded gdtEntries cpu) (eax : cpu.reg .eax % 2 ^ 16 = 0x10) {register : SegReg} (data : register ≠ .cs) :
    cpu.step (.movSeg register .eax : Instr Empty) = some (cpu.setSegment register (flatSegment 0x10)) := by
  change cpu.loadSegment register (cpu.reg .eax % 2 ^ 16) = _
  rw [eax]
  exact loaded.loadData data

theorem step_jmpFar (loaded : GdtLoaded gdtEntries cpu) :
    cpu.step (.jmpFar 0x08 ret : Instr Empty) = some { cpu.setSegment .cs (flatSegment 0x08) with eip := ret } := by
  rw [Cpu.step, loaded.loadCode]
  rfl

theorem setSegment (loaded : GdtLoaded gdtEntries cpu) (register : SegReg) (segment : Segment) :
    GdtLoaded gdtEntries (cpu.setSegment register segment) := ⟨loaded.gdtr, loaded.code, loaded.data⟩

/-- Of the selectors in the table of `gdt_install` only one is of code. -/
theorem code_iff {selector : Nat} (loaded : GdtLoaded gdtEntries cpu) : (cpu.loadSegment .cs selector).isSome ↔ selector = 0x08 := by
  constructor
  · intro found
    obtain ⟨next, found⟩ := Option.isSome_iff_exists.mp found
    obtain ⟨descriptor, here, fits, _⟩ := Cpu.loadSegment_some found
    unfold Cpu.descriptor at here
    split at here
    · rename_i inside
      rw [loaded.gdtr] at here inside
      have two : selector = 8 ∨ selector = 16 := by
        change _ ∧ _ ∧ selector + 7 ≤ 23 at inside
        omega
      rcases two with code | data
      · exact code
      · rw [data, loaded.data] at here
        cases here
        exact absurd fits (by decide)
    · cases here
  · rintro rfl
    rw [loaded.loadCode]
    rfl

end GdtLoaded

/-- The tables lie apart from each other and from the stack that is used below `esp`, with room
for a return address where it is at the call. -/
structure GdtPlaced (gdtEntries gdtDescriptor low call esp : Nat) : Prop where
  entries : gdtEntries + 24 ≤ 2 ^ 32
  descriptor : gdtDescriptor + 6 ≤ 2 ^ 32
  apart : gdtEntries + 24 ≤ gdtDescriptor ∨ gdtDescriptor + 6 ≤ gdtEntries
  used : low + 4 ≤ call
  frame : call ≤ esp
  bound : esp < 2 ^ 32
  entries_apart : gdtEntries + 24 ≤ low ∨ esp ≤ gdtEntries
  descriptor_apart : gdtDescriptor + 6 ≤ low ∨ esp ≤ gdtDescriptor

/-- The processor when `gdt_flush` returns. -/
def flushed (gdtEntries behind : Nat) (memory : Bytes) (cpu : Cpu) : Cpu :=
  { cpu with
    reg := Function.update cpu.reg .eax (cpu.reg .eax / 2 ^ 16 * 2 ^ 16 + 0x10)
    seg := fun register => flatSegment (if register = .cs then 0x08 else 0x10)
    eip := behind
    gdtr := ⟨sizeofGdtEntry * 3 - 1, gdtEntries⟩
    memory }

theorem gdtTables_holds {call esp : Nat} (placed : GdtPlaced gdtEntries gdtDescriptor low call esp) (memory : Bytes) (behind : Nat) :
    ∀ last, last = (gdtTables gdtEntries gdtDescriptor memory).store (call - 4) (wordBytes behind) →
      last.Holds gdtDescriptor (halfBytes 23 ++ wordBytes gdtEntries) ∧
      last.Holds (gdtEntries + 8) (GdtEntry.bytes ⟨0xFFFF, 0, 0, 0b10011011, 0b11001111, 0⟩) ∧
      last.Holds (gdtEntries + 16) (GdtEntry.bytes ⟨0xFFFF, 0, 0, 0b10010011, 0b11001111, 0⟩) := by
  rintro _ rfl
  obtain ⟨entries, descriptor, apart, used, frame, bound, entries_apart, descriptor_apart⟩ := placed
  refine ⟨Bytes.holds_store (Bytes.store_holds (by change 6 ≤ 2 ^ 32; decide)) ?_, Bytes.holds_store (Bytes.holds_store (Bytes.holds_store
    (Bytes.store_holds (by decide)) ?_) ?_) ?_, Bytes.holds_store (Bytes.holds_store (Bytes.store_holds (by decide)) ?_) ?_⟩
  · intro i inside j within
    change i < 6 at inside
    change j < 4 at within
    omega
  · intro i inside j within
    change i < 8 at inside
    change j < 8 at within
    change _ ≠ (gdtEntries + 16 + j) % 2 ^ 32
    omega
  · intro i inside j within
    change i < 8 at inside
    change j < 6 at within
    omega
  · intro i inside j within
    change i < 8 at inside
    change j < 4 at within
    omega
  · intro i inside j within
    change i < 8 at inside
    change j < 6 at within
    omega
  · intro i inside j within
    change i < 8 at inside
    change j < 4 at within
    omega

theorem step_lgdt (data : (cpu.seg .ds).Flat) (descriptor : gdtDescriptor + 6 ≤ 2 ^ 32)
    (table : cpu.memory.Holds gdtDescriptor (halfBytes 23 ++ wordBytes gdtEntries)) (word : gdtEntries < 2 ^ 32) :
    cpu.step (.lgdt gdtDescriptor : Instr Empty) = some { cpu with gdtr := ⟨sizeofGdtEntry * 3 - 1, gdtEntries⟩ } := by
  obtain ⟨limit, base⟩ := Bytes.holds_append.mp table
  have size : cpu.memory.load16 gdtDescriptor = 23 := by
    have digit : ∀ n : Nat, (UInt8.ofNat n).toNat = n % 2 ^ 8 := fun n => UInt8.toNat_ofNat'
    simp only [halfBytes, Bytes.holds_cons, digit] at limit
    rw [Bytes.load16, limit.1, limit.2.1]
    rfl
  have offset : cpu.memory.load32 (gdtDescriptor + 2) = gdtEntries := (Bytes.holds_word.mp base).trans (Nat.mod_eq_of_lt word)
  have place : (cpu.seg .ds).linear gdtDescriptor 6 = some gdtDescriptor := data.linear (by decide) descriptor
  rw [Cpu.step, place]
  change some { cpu with gdtr := ⟨cpu.memory.load16 gdtDescriptor, cpu.memory.load32 (gdtDescriptor + 2)⟩ } = _
  rw [size, offset]
  rfl

/-- What `gdt_flush` does once its table is in place. -/
theorem gdtFlush_run (data : (cpu.seg .ds).Flat) (descriptor : gdtDescriptor + 6 ≤ 2 ^ 32)
    (table : cpu.memory.Holds gdtDescriptor (halfBytes 23 ++ wordBytes gdtEntries)) (word : gdtEntries < 2 ^ 32)
    (code : Descriptor.read cpu.memory (gdtEntries + 8) = ⟨0, 0xFFFFF, 0b10011011, 0b1100⟩)
    (other : Descriptor.read cpu.memory (gdtEntries + 16) = ⟨0, 0xFFFFF, 0b10010011, 0b1100⟩) :
    run (fun function : Empty => function.elim) (gdtFlush gdtDescriptor ret) ⟨cpu, ()⟩ = .done () ⟨flushed gdtEntries ret cpu.memory cpu, ()⟩ := by
  obtain ⟨first, held⟩ : ∃ first : Cpu, first = { cpu with gdtr := ⟨sizeofGdtEntry * 3 - 1, gdtEntries⟩ } := ⟨_, rfl⟩
  have lgdt : cpu.step (.lgdt gdtDescriptor : Instr Empty) = some first := by
    rw [held]
    exact step_lgdt data descriptor table word
  obtain ⟨second, set⟩ : ∃ second, second = first.setReg .eax (first.reg .eax / 2 ^ 16 * 2 ^ 16 + 0x10) := ⟨_, rfl⟩
  have moved : first.step (.movImm16 .eax 0x10 : Instr Empty) = some second := congrArg some set.symm
  have selector : second.reg .eax % 2 ^ 16 = 0x10 := by
    rw [set, Cpu.setReg_reg]
    omega
  have loaded : GdtLoaded gdtEntries second := by
    rw [set, held]
    exact ⟨rfl, code, other⟩
  have ds := loaded.setSegment .ds (flatSegment 0x10)
  have es := ds.setSegment .es (flatSegment 0x10)
  have fs := es.setSegment .fs (flatSegment 0x10)
  have gs := fs.setSegment .gs (flatSegment 0x10)
  have ss := gs.setSegment .ss (flatSegment 0x10)
  have plain (instr : Instr Empty) : ∀ function behind, instr ≠ .call function behind := fun function => function.elim
  rw [gdtFlush, run_step (plain _) lgdt, run_step (plain _) moved, run_step (plain _) (loaded.step_movSeg selector (by decide)),
    run_step (plain _) (ds.step_movSeg selector (by decide)), run_step (plain _) (es.step_movSeg selector (by decide)),
    run_step (plain _) (fs.step_movSeg selector (by decide)), run_step (plain _) (gs.step_movSeg selector (by decide)),
    run_step (plain _) ss.step_jmpFar, run]
  have segments : (((((second.setSegment .ds (flatSegment 0x10)).setSegment .es (flatSegment 0x10)).setSegment .fs
      (flatSegment 0x10)).setSegment .gs (flatSegment 0x10)).setSegment .ss (flatSegment 0x10)).setSegment .cs (flatSegment 0x08) =
        { second with seg := fun register => flatSegment (if register = .cs then 0x08 else 0x10) } := by
    refine congrArg (fun seg => ({ second with seg } : Cpu)) (funext fun register => ?_)
    cases register <;> rfl
  rw [segments, set, held]
  rfl

theorem gdtSetEntry_outside {place : Nat} (entries : gdtEntries + 24 ≤ 2 ^ 32) (table : ¬ (gdtEntries ≤ place ∧ place < gdtEntries + 24))
    (inside : index < 3) : gdtSetEntry gdtEntries index limit base access gran memory place = memory place := by
  refine Bytes.store_outside fun i within => ?_
  change i < 8 at within
  change (gdtEntries + 8 * index + i) % 2 ^ 32 ≠ place
  omega

theorem gdtTables_outside {place : Nat} (entries : gdtEntries + 24 ≤ 2 ^ 32) (descriptor : gdtDescriptor + 6 ≤ 2 ^ 32)
    (table : ¬ (gdtEntries ≤ place ∧ place < gdtEntries + 24)) (pointer : ¬ (gdtDescriptor ≤ place ∧ place < gdtDescriptor + 6)) :
    gdtTables gdtEntries gdtDescriptor memory place = memory place := by
  have entry {before : Bytes} {index limit base access gran : Nat} (inside : index < 3) :
      gdtSetEntry gdtEntries index limit base access gran before place = before place := gdtSetEntry_outside entries table inside
  rw [gdtTables, Bytes.store_outside, entry (by decide), entry (by decide), entry (by decide)]
  intro i within
  change i < 6 at within
  omega

/-- The caller of `gdt_flush` gets its stack back. -/
theorem flushed_returned {start : Cpu} (same : start = { cpu with memory }) :
    ({ (flushed gdtEntries ret (start.onStack [behind]).memory (start.onStack [behind])).setReg .esp (cpu.reg .esp) with eip := behind } : Cpu) =
      flushed gdtEntries behind (start.onStack [behind]).memory cpu := by
  subst same
  have registers : ((flushed gdtEntries ret (Cpu.onStack { cpu with memory } [behind]).memory
      (Cpu.onStack { cpu with memory } [behind])).setReg .esp (cpu.reg .esp)).reg =
        (flushed gdtEntries behind (Cpu.onStack { cpu with memory } [behind]).memory cpu).reg := by
    funext register
    cases register <;> rfl
  exact congrArg (fun reg => ({ flushed gdtEntries behind (Cpu.onStack { cpu with memory } [behind]).memory cpu with reg } : Cpu)) registers

/-- From wherever it is called with flat segments, `gdt_install` gets segments of its own table, all of them flat. -/
theorem gdtInstall_flat {reg : Reg → Nat} {eflags : Nat} (placed : GdtPlaced gdtEntries gdtDescriptor low (reg .esp) (cpu.reg .esp))
    (data : (cpu.seg .ds).Flat) (stack : (cpu.seg .ss).Flat) (address : behind < 2 ^ 32) : ∃ memory,
      gdtInstall gdtEntries gdtDescriptor ret behind low left reg eflags cpu =
        .done () ⟨flushed gdtEntries behind memory { cpu with reg, eflags }, ()⟩ ∧
      GdtLoaded gdtEntries (flushed gdtEntries behind memory { cpu with reg, eflags }) ∧
      ∀ place, ¬ (gdtEntries ≤ place ∧ place < gdtEntries + 24) → ¬ (gdtDescriptor ≤ place ∧ place < gdtDescriptor + 6) →
        ¬ (low ≤ place ∧ place < cpu.reg .esp) → memory place = cpu.memory place := by
  obtain ⟨before, scratch⟩ : ∃ before, before = usedStack low (cpu.reg .esp) left cpu.memory := ⟨_, rfl⟩
  obtain ⟨called, calls⟩ : ∃ called : Cpu, called = { cpu with reg, eflags } := ⟨_, rfl⟩
  obtain ⟨start, tables⟩ : ∃ start : Cpu, start = { called with memory := gdtTables gdtEntries gdtDescriptor before } := ⟨_, rfl⟩
  have used := placed.used
  have frame := placed.frame
  have bound := placed.bound
  have entries := placed.entries
  have esp : start.reg .esp = reg .esp := by rw [tables, calls]
  have start_flat : (start.seg .ss).Flat := by
    rw [tables, calls]
    exact stack
  obtain ⟨table, code, other⟩ := gdtTables_holds placed before behind _ rfl
  have memory : (start.onStack [behind]).memory = (gdtTables gdtEntries gdtDescriptor before).store (reg .esp - 4) (wordBytes behind) := by
    rw [tables, calls]
    rfl
  rw [← memory] at table code other
  have deeper : (start.onStack [behind]).reg .esp = reg .esp - 4 := by
    rw [Cpu.onStack_esp, esp]
    rfl
  obtain ⟨last, ends⟩ : ∃ last, last = flushed gdtEntries ret (start.onStack [behind]).memory (start.onStack [behind]) := ⟨_, rfl⟩
  have body : flushFunction gdtDescriptor ret () ⟨start.onStack [behind], ()⟩ = .done () ⟨last, ()⟩ := by
    rw [ends]
    exact gdtFlush_run (by rw [tables, calls]; exact data) placed.descriptor table (by omega) (read_holds code) (read_holds other)
  have pushed : last.Stack [behind] := by
    rw [ends]
    change (start.onStack [behind]).memory.Holds ((start.onStack [behind]).reg .esp) (wordsBytes [behind])
    rw [deeper, memory]
    exact Bytes.store_holds (by change 4 ≤ 2 ^ 32; decide)
  have flat : (last.seg .ss).Flat := by
    rw [ends]
    exact ⟨rfl, rfl⟩
  have top : last.reg .esp = reg .esp - 4 := by
    rw [ends]
    exact deeper
  have returned := exec_call start_flat (by omega) (by omega) body flat pushed (by omega) address
  have same : called.reg .esp = reg .esp := by rw [calls]
  refine ⟨(start.onStack [behind]).memory, ?_, ⟨rfl, read_holds code, read_holds other⟩, fun place table pointer apart => ?_⟩
  · have run : gdtInstall gdtEntries gdtDescriptor ret behind low left reg eflags cpu =
        exec (flushFunction gdtDescriptor ret) (.call () behind) ⟨start, ()⟩ := by
      rw [tables, calls, scratch]
      rfl
    rw [run, returned, top, Nat.sub_add_cancel (Nat.le_of_add_left_le used), ends, ← same, flushed_returned tables, calls]
  · rw [memory, Bytes.store_outside, gdtTables_outside placed.entries placed.descriptor table pointer, scratch, usedStack, if_neg apart]
    intro i within
    change i < 4 at within
    omega

/-- The processor as a boot loader leaves it. -/
def bootCpu : Cpu where
  reg := fun reg => if reg = .esp then 0x208000 else 0
  seg := fun _ => flatSegment 0x18
  eip := 0x200180
  eflags := 0x2
  cr0 := 0x11
  cr3 := 0
  gdtr := ⟨0, 0⟩
  memory := fun _ => 0

/-- With a stack frame of 0x20 bytes. -/
def frameReg (reg : Reg) : Nat := if reg = .esp then 0x207FE0 else 7

theorem bootCpu_placed {call : Nat} (used : 0x207004 ≤ call) (frame : call ≤ 0x208000) :
    GdtPlaced 0x210000 0x210018 0x207000 call (bootCpu.reg .esp) where
  entries := by decide
  descriptor := by decide
  apart := .inl (by decide)
  used
  frame
  bound := by decide
  entries_apart := .inr (by decide)
  descriptor_apart := .inr (by decide)

theorem gdtInstall_flat_boot : ∃ memory, gdtInstall 0x210000 0x210018 0x200100 0x200200 0x207000 (fun _ => 0x20) frameReg 0x46 bootCpu =
      .done () ⟨flushed 0x210000 0x200200 memory { bootCpu with reg := frameReg, eflags := 0x46 }, ()⟩ ∧
      GdtLoaded 0x210000 (flushed 0x210000 0x200200 memory { bootCpu with reg := frameReg, eflags := 0x46 }) ∧
      ∀ place, ¬ (0x210000 ≤ place ∧ place < 0x210000 + 24) → ¬ (0x210018 ≤ place ∧ place < 0x210018 + 6) →
        ¬ (0x207000 ≤ place ∧ place < bootCpu.reg .esp) → memory place = bootCpu.memory place :=
  gdtInstall_flat (bootCpu_placed (by decide) (by decide)) ⟨rfl, rfl⟩ ⟨rfl, rfl⟩ (by decide)

/-- The processor behind `gdt_install`. -/
def kernelCpu : Cpu :=
  flushed 0x210000 0x200200 ((gdtTables 0x210000 0x210018 bootCpu.memory).store (bootCpu.reg .esp - 4) (wordBytes 0x200200)) bootCpu

theorem kernelCpu_loaded : GdtLoaded 0x210000 kernelCpu := by
  obtain ⟨_, code, data⟩ := gdtTables_holds (bootCpu_placed (by decide) (Nat.le_refl _)) bootCpu.memory 0x200200 _ rfl
  exact ⟨rfl, read_holds code, read_holds data⟩

end BarrelOS.Boot
