import BarrelOS.Boot.Gdt
import BarrelOS.Interrupts.Registration
import BarrelOS.Interrupts.Stubs

namespace BarrelOS.Interrupts

open BarrelOS.Boot BarrelOS.Data BarrelOS.Sched BarrelOS.Semantics BarrelOS.X86

/-! From a device to its handler -/

/-- `irq_unregister`, which leaves the redirection entry as it is. -/
def irqUnregister (vector : Nat) (board : Board) : Board :=
  { board with irqHandlers := Function.update board.irqHandlers vector 0 }

inductive Registration where
  | register (vector handler : Nat)
  | unregister (vector : Nat)
deriving DecidableEq, Repr

namespace Registration

def vector : Registration → Nat
  | register vector _ | unregister vector => vector

/-- What a registration leaves in `irq_handlers`. -/
def handler : Registration → Nat
  | register _ handler => handler
  | unregister _ => 0

end Registration

def registerInTurn : List Registration → Board → Outcome Board Unit
  | [], board => .done () board
  | .register vector handler :: rest, board => (irqRegister vector handler board).bind fun _ board => registerInTurn rest board
  | .unregister vector :: rest, board => registerInTurn rest (irqUnregister vector board)

/-- The handler that the last registration of an IRQ leaves. -/
def lastHandler (initial : Nat → Nat) (calls : List Registration) (irq : Nat) : Nat :=
  ((calls.reverse.find? fun call => call.vector == irq).map Registration.handler).getD (initial irq)

/-- The vector an I/O APIC sends for a pin, none while the pin is masked. -/
def signal (board : Board) (address pin : Nat) : Option Nat :=
  let entry := board.register address (redirectLow pin)
  if entry &&& 0x10000 = 0 then some (entry &&& 0xff) else none

/-- Both tables are those of the kernel, and every stub lies below 16 MiB and at a place of its own. -/
structure Tables (idtIntTable : Nat → Nat) (idt : Idt) (gdtEntries : Nat) (cpu : Cpu) : Prop where
  idt : ∃ fuel idtEntries before, idtInstall fuel idtEntries idtIntTable before = .done () idt
  low : ∀ vector < 256, idtIntTable vector < 2 ^ 24
  apart : ∀ vector < 256, ∀ other < 256, idtIntTable vector = idtIntTable other → vector = other
  gdt : GdtLoaded gdtEntries cpu

/-- `irq_handler` where the functions it calls are given by their addresses. -/
def dispatch {World : Type} (irqHandlers : Nat → Nat) (functions : Nat → Registers → World → Outcome World Registers)
    (eoi : Registers → World → World) : Callee → Registers → World → Outcome World Registers
  | .irqHandler, r, world =>
      let handler := irqHandlers ((r.intNo + 2 ^ 32 - 32) % 2 ^ 32)
      (if handler ≠ 0 then functions handler r world else .done r world).bind fun r world => .done r (eoi r world)
  | .isrHandler, _, world => .faulted world

variable {idtIntTable : Nat → Nat} {idt : Idt} {gdtEntries vector irq : Nat} {cpu : Cpu} {before after : Board} {calls : List Registration}

theorem Tables.gate (tables : Tables idtIntTable idt gdtEntries cpu) (byte : vector < 256) : ∃ gate, gateAt idt vector = some gate ∧
    stubAt idtIntTable gate.offset = some vector ∧ (cpu.loadSegment .cs gate.selector).isSome := by
  obtain ⟨fuel, idtEntries, before, install⟩ := tables.idt
  obtain ⟨_, written, run, finished⟩ := Outcome.bind_done.mp install
  cases finished
  have entry : written.entries vector = gateOf (idtIntTable vector) := (setEntries_done (Nat.zero_le _) run).1 vector byte
  have base : (gateOf (idtIntTable vector)).base = idtIntTable vector := (gateOf_base _).trans (Nat.mod_eq_of_lt (tables.low vector byte))
  refine ⟨⟨0x08, idtIntTable vector⟩, ?_, ?_, ?_⟩
  · have inside : sizeofIdtEntry * vector + 7 ≤ sizeofIdtEntry * 256 - 1 := by
      change 8 * vector + 7 ≤ 2047
      omega
    rw [gateAt, Option.bind_eq_bind, Option.bind_some, entry, if_pos ⟨inside, rfl⟩, base]
    rfl
  · refine List.find?_range_eq_some.mpr ⟨beq_self_eq_true _, List.mem_range.mpr byte, fun other earlier => ?_⟩
    have different : idtIntTable other ≠ idtIntTable vector := fun same =>
      Nat.ne_of_lt earlier (tables.apart other (Nat.lt_trans earlier byte) vector byte same)
    exact Bool.not_eq_true' _ |>.mpr (beq_false_of_ne different)
  · rw [tables.gdt.loadCode]
    rfl

theorem Tables.ready {behind : Nat} {leave : Leftover} (tables : Tables idtIntTable idt gdtEntries cpu) (roomy : Roomy leave cpu)
    (byte : vector < 256) (address : behind < 2 ^ 32) : Ready idtIntTable idt vector behind leave cpu where
  toRoomy := roomy
  gate := tables.gate byte
  byte := byte
  address := address

def noScratch : Leftover := ⟨0, 0, 0, 0, []⟩

theorem kernelCpu_roomy : Roomy noScratch kernelCpu where
  flat := ⟨rfl, rfl⟩
  words := ⟨fun reg => by cases reg <;> decide, by decide, by decide, by decide⟩
  room := by decide
  top := by decide

def kernelStubs (vector : Nat) : Nat := 0x200000 + 16 * vector

theorem kernelCpu_tables : ∃ idt, Tables kernelStubs idt 0x210000 kernelCpu := by
  obtain ⟨written, run⟩ := @setEntries_exists 0 kernelStubs emptyIdt 256 rfl
  unfold kernelStubs
  refine ⟨_, ⟨257, 0x208000, emptyIdt, Outcome.bind_done.mpr ⟨(), written, run, rfl⟩⟩, ?_, ?_, kernelCpu_loaded⟩
  · intro vector byte
    omega
  · intro vector _ other _ same
    omega

/-! The handlers are touched only by their registration -/

section

variable {ioapic : MadtIoapic} {reg value gsi handler : Nat} {list : List MadtIoapic} {found : Option MadtIoapic}

theorem ioapicRead_handlers (run : ioapicRead ioapic reg before = .done value after) : after.irqHandlers = before.irqHandlers := by
  unfold ioapicRead at run
  split at run
  · cases run
    rfl
  · cases run

theorem ioapicWrite_handlers (run : ioapicWrite ioapic reg value before = .done () after) : after.irqHandlers = before.irqHandlers := by
  unfold ioapicWrite at run
  split at run
  · cases run
    rfl
  · cases run

theorem ioapicGetGsi_handlers (run : ioapicGetGsi gsi list before = .done found after) : after.irqHandlers = before.irqHandlers := by
  induction list generalizing before with
  | nil =>
      cases run
      rfl
  | cons ioapic rest ih =>
      rw [ioapicGetGsi] at run
      split at run
      · obtain ⟨count, middle, counted, search⟩ := Outcome.bind_done.mp run
        obtain ⟨version, last, read, returned⟩ := Outcome.bind_done.mp counted
        cases returned
        have same := ioapicRead_handlers read
        split at search
        · cases search
          exact same
        · exact (ih search).trans same
      · exact ih run

theorem irqRegister_handlers (run : irqRegister vector handler before = .done () after) :
    after.irqHandlers = Function.update before.irqHandlers vector handler := by
  obtain ⟨_, middle, redirect, assigned⟩ := Outcome.bind_done.mp run
  cases assigned
  refine congrArg (fun handlers : Nat → Nat => Function.update handlers vector handler) ?_
  split at redirect
  · rw [ioapicRedirectIrq_eq] at redirect
    obtain ⟨found, searched, search, written⟩ := Outcome.bind_done.mp redirect
    cases found with
    | none => cases written
    | some ioapic =>
        obtain ⟨_, half, low, high⟩ := Outcome.bind_done.mp written
        rw [ioapicWrite_handlers high, ioapicWrite_handlers low, ioapicGetGsi_handlers search]
  · cases redirect
    rfl

end

theorem lastHandler_cons (initial : Nat → Nat) (call : Registration) (rest : List Registration) (irq : Nat) :
    lastHandler initial (call :: rest) irq = lastHandler (Function.update initial call.vector call.handler) rest irq := by
  rw [lastHandler, List.reverse_cons, List.find?_append, List.find?_singleton, lastHandler, Function.update_apply]
  cases rest.reverse.find? fun call => call.vector == irq with
  | some found => rfl
  | none =>
      by_cases here : call.vector = irq
      · rw [if_pos here.symm, if_pos (beq_iff_eq.mpr here)]
        rfl
      · rw [if_neg (Ne.symm here), if_neg fun same => here (beq_iff_eq.mp same)]
        rfl

theorem registerInTurn_handler (run : registerInTurn calls before = .done () after) :
    after.irqHandlers = lastHandler before.irqHandlers calls := by
  induction calls generalizing before with
  | nil =>
      cases run
      rfl
  | cons call rest ih =>
      funext irq
      cases call with
      | register vector handler =>
          obtain ⟨_, middle, first, later⟩ := Outcome.bind_done.mp run
          rw [ih later, irqRegister_handlers first, lastHandler_cons]
          rfl
      | unregister vector =>
          rw [ih run, lastHandler_cons]
          rfl

/-- One registration gives its IRQ a line, and leaves those of other IRQs with lines of their own. -/
theorem Registered.ownLine {middle : Board} (registered : Registered before vector middle)
    (own : irq = vector ∨ OwnLine before irq ∧ line before vector ≠ line before irq) : OwnLine middle irq := by
  have versions := registered.versions
  obtain ⟨lists, address, pin, low, high, here, written, unmasked, numbered⟩ := registered
  rcases own with rfl | ⟨⟨other, index, there, kept⟩, apart⟩
  · refine ⟨address, pin, (line_congr lists versions).trans here, ?_⟩
    rw [written, pokeEntry_low, if_pos ⟨rfl, rfl⟩]
    exact ⟨unmasked, numbered⟩
  · refine ⟨other, index, (line_congr lists versions).trans there, ?_⟩
    have elsewhere : ¬ (other = address ∧ index = pin) := by
      intro entry
      obtain ⟨rfl, rfl⟩ := entry
      exact apart (here.trans there.symm)
    rw [written, pokeEntry_low, if_neg elsewhere]
    exact kept

/-- IRQs that were registered keep lines of their own, whatever is registered again or unregistered. -/
theorem registerInTurn_ownLine (enabled : before.ioapicEnabled = true)
    (isa : ∀ vector handler, .register vector handler ∈ calls → vector ≤ 15)
    (apart : ∀ vector handler, .register vector handler ∈ calls → vector ≠ irq → line before vector ≠ line before irq)
    (run : registerInTurn calls before = .done () after) (own : (∃ handler, .register irq handler ∈ calls) ∨ OwnLine before irq) :
    OwnLine after irq := by
  induction calls generalizing before with
  | nil =>
      cases run
      rcases own with ⟨_, member⟩ | own
      · cases member
      · exact own
  | cons call rest ih =>
      have later_isa : ∀ vector handler, .register vector handler ∈ rest → vector ≤ 15 := fun vector handler member =>
        isa vector handler (List.mem_cons_of_mem _ member)
      have later_apart : ∀ vector handler, .register vector handler ∈ rest → vector ≠ irq → line before vector ≠ line before irq :=
        fun vector handler member => apart vector handler (List.mem_cons_of_mem _ member)
      cases call with
      | register vector handler =>
          obtain ⟨_, middle, first, later⟩ := Outcome.bind_done.mp run
          have registered := irqRegister_done enabled (isa vector handler List.mem_cons_self) first
          have lines {other : Nat} : line middle other = line before other := line_congr registered.lists registered.versions
          refine ih (registered.lists.enabled.trans enabled) later_isa ?_ later ?_
          · simp only [lines]
            exact later_apart
          · by_cases here : irq = vector
            · exact .inr (registered.ownLine (.inl here))
            · rcases own with ⟨other, member⟩ | own
              · rcases List.mem_cons.mp member with same | member
                · cases same
                  exact absurd rfl here
                · exact .inl ⟨other, member⟩
              · exact .inr (registered.ownLine (.inr ⟨own, apart vector handler List.mem_cons_self (Ne.symm here)⟩))
      | unregister vector =>
          have still := @ih (irqUnregister vector before) enabled later_isa later_apart run
          refine still ?_
          rcases own with ⟨other, member⟩ | own
          · rcases List.mem_cons.mp member with same | member
            · cases same
            · exact .inl ⟨other, member⟩
          · exact .inr own

/-- After any registrations, the signal of a registered IRQ runs the handler that was registered for it last. -/
theorem signals_reach_handlers {World : Type} {functions : Nat → Registers → World → Outcome World Registers} {eoi : Registers → World → World}
    {world left : World} {r : Registers} {behind handler : Nat} {leave : Leftover} (enabled : before.ioapicEnabled = true)
    (isa : ∀ vector handler, .register vector handler ∈ calls → vector ≤ 15)
    (apart : ∀ vector handler, .register vector handler ∈ calls → vector ≠ irq → line before vector ≠ line before irq)
    (run : registerInTurn calls before = .done () after) (member : .register irq handler ∈ calls)
    (tables : Tables idtIntTable idt gdtEntries cpu) (roomy : Roomy leave cpu) (address : behind < 2 ^ 32)
    (handled : (if lastHandler before.irqHandlers calls irq ≠ 0 then
      functions (lastHandler before.irqHandlers calls irq) (frame cpu (irq + 32) 0) world else .done (frame cpu (irq + 32) 0) world) =
        .done r left) (small : ∀ word ∈ r.words, word < 2 ^ 32) :
    ∃ address pin vector, line after irq = some (address, pin) ∧ signal after address pin = some vector ∧
      ∃ memory, Ends (interrupt idtIntTable idt (dispatch after.irqHandlers functions eoi) vector none leave behind ⟨cpu, world⟩) (eoi r left)
        ((restored r memory cpu).returnTo r.eip (r.cs % 2 ^ 16) r.eflags) := by
  have low : irq ≤ 15 := isa irq handler member
  obtain ⟨place, pin, here, unmasked, numbered⟩ := registerInTurn_ownLine enabled isa apart run (.inl ⟨handler, member⟩)
  have ready : Ready idtIntTable idt (irq + 32) behind leave cpu := tables.ready roomy (by omega) address
  have index : ((frame cpu (irq + 32) 0).intNo + 2 ^ 32 - 32) % 2 ^ 32 = irq := by
    change (irq + 32 + 2 ^ 32 - 32) % 2 ^ 32 = irq
    omega
  have dispatched : dispatch after.irqHandlers functions eoi (calleeOf (irq + 32)) (frame cpu (irq + 32) 0) world = .done r (eoi r left) := by
    rw [calleeOf, if_pos (by omega), dispatch, registerInTurn_handler run, index, handled]
    rfl
  obtain ⟨memory, ends, _⟩ := interrupt_ends ready (matchesStub_irq (Nat.le_add_left 32 irq)) (by decide) small dispatched
  exact ⟨place, pin, irq + 32, here, by rw [signal, if_pos unmasked, numbered], memory, ends⟩

/-- The timer's handler is registered, the keyboard's too, and the timer's once more. -/
def threeCalls : List Registration := [.register 0 0x1000, .register 1 0x2000, .register 0 0x3000]

theorem signals_reach_handlers_timer : ∃ idt after, registerInTurn threeCalls timerOverride = .done () after ∧
    ∃ address pin vector, line after 0 = some (address, pin) ∧ signal after address pin = some vector ∧
      ∃ memory, Ends (interrupt kernelStubs idt (dispatch after.irqHandlers (fun handler r _ => .done r handler) fun _ world => world) vector none
        noScratch 0x200300 ⟨kernelCpu, 0⟩) 0x3000 ((restored (frame kernelCpu 32 0) memory kernelCpu).returnTo (frame kernelCpu 32 0).eip
          ((frame kernelCpu 32 0).cs % 2 ^ 16) (frame kernelCpu 32 0).eflags) := by
  have zero : Served timerOverride 0 := ⟨by decide, by decide⟩
  have one : Served timerOverride 1 := ⟨by decide, by decide⟩
  obtain ⟨first, timer⟩ : ∃ first, irqRegister 0 0x1000 timerOverride = .done () first := irqRegister_exists rfl (by decide) zero
  have timed := irqRegister_done rfl (by decide) timer
  have still : first.ioapicEnabled = true := timed.lists.enabled.trans rfl
  obtain ⟨second, keyboard⟩ : ∃ second, irqRegister 1 0x2000 first = .done () second :=
    irqRegister_exists still (by decide) ((served_congr timed.lists timed.versions).mpr one)
  have typed := irqRegister_done still (by decide) keyboard
  obtain ⟨after, again⟩ : ∃ after, irqRegister 0 0x3000 second = .done () after :=
    irqRegister_exists (typed.lists.enabled.trans still) (by decide)
      ((served_congr typed.lists typed.versions).mpr ((served_congr timed.lists timed.versions).mpr zero))
  have run : registerInTurn threeCalls timerOverride = .done () after := by
    rw [threeCalls, registerInTurn, timer, Outcome.done_bind, registerInTurn, keyboard, Outcome.done_bind, registerInTurn, again]
    rfl
  have isa : ∀ vector handler, .register vector handler ∈ threeCalls → vector ≤ 15 := by
    have all : ∀ call ∈ threeCalls, call.vector ≤ 15 := by decide
    exact fun vector handler member => all _ member
  have apart : ∀ vector handler, .register vector handler ∈ threeCalls → vector ≠ 0 → line timerOverride vector ≠ line timerOverride 0 := by
    have all : ∀ call ∈ threeCalls, call.vector ≠ 0 → line timerOverride call.vector ≠ line timerOverride 0 := by decide
    exact fun vector handler member => all _ member
  obtain ⟨idt, tables⟩ := kernelCpu_tables
  have last : lastHandler timerOverride.irqHandlers threeCalls 0 = 0x3000 := by decide
  refine ⟨idt, after, run, signals_reach_handlers rfl isa apart run (by decide : .register 0 0x1000 ∈ threeCalls) tables kernelCpu_roomy
    (by decide) ?_ (kernelCpu_roomy.words.frame (by decide) (by decide))⟩
  rw [last]
  rfl

end BarrelOS.Interrupts
