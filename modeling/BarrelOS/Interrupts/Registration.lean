import BarrelOS.Interrupts.Ioapic

namespace BarrelOS.Interrupts

open BarrelOS.Memory BarrelOS.Semantics

/-- Calls of `irq_register`, with the vector and the handler of each. -/
def registerAll : List (Nat × Nat) → Board → Outcome Board Unit
  | [], board => .done () board
  | (vector, handler) :: rest, board => (irqRegister vector handler board).bind fun _ board => registerAll rest board

/-- The redirection entry of an IRQ is unmasked and has its vector. -/
def OwnLine (board : Board) (irq : Nat) : Prop :=
  ∃ address pin, line board irq = some (address, pin) ∧
    board.register address (redirectLow pin) &&& 0x10000 = 0 ∧
    board.register address (redirectLow pin) &&& 0xff = irq + 32

/-- `ioapic_get_gsi` finds an I/O APIC for an IRQ, and the windows it reads on the way are mapped. -/
def Served (board : Board) (irq : Nat) : Prop :=
  Asks board (resolve board irq).1 board.madtIoapics ∧ (serving board (resolve board irq).1).isSome

variable {vector handler irq address pin low high : Nat} {before middle after : Board} {calls : List (Nat × Nat)}

/-! One registration -/

theorem redirection_unmasked (flags : Nat) (isa : vector ≤ 15) :
    redirection 0 (vector + 32) flags false % 2 ^ 32 &&& 0x10000 = 0 ∧
      redirection 0 (vector + 32) flags false % 2 ^ 32 &&& 0xff = vector + 32 := by
  have small : vector < 16 := Nat.lt_succ_of_le isa
  unfold redirection
  split <;> split <;> revert vector <;> decide

theorem line_congr (lists : SameLists before after)
    (versions : ∀ address, after.register address ioapicVer = before.register address ioapicVer) :
    line after irq = line before irq := by
  rw [line, line, resolve_congr lists, serving_congr versions lists]

theorem served_congr (lists : SameLists before after)
    (versions : ∀ address, after.register address ioapicVer = before.register address ioapicVer) :
    Served after irq ↔ Served before irq := by
  rw [Served, Served, resolve_congr lists, serving_congr versions lists, asks_congr versions lists.vmm, lists.ioapics]

/-- A registration that returns writes the entry of its IRQ. -/
structure Registered (before : Board) (vector : Nat) (after : Board) : Prop where
  lists : SameLists before after
  entry : ∃ address pin low high, line before vector = some (address, pin) ∧
    after.register = pokeEntry address pin low high before.register ∧
    low &&& 0x10000 = 0 ∧ low &&& 0xff = vector + 32

theorem Registered.versions (registered : Registered before vector after) (address : Nat) :
    after.register address ioapicVer = before.register address ioapicVer := by
  obtain ⟨_, _, _, _, _, written, _⟩ := registered.entry
  rw [written, pokeEntry_ver]

section

variable (enabled : before.ioapicEnabled = true) (isa : vector ≤ 15)
include enabled isa

theorem irqRegister_done (run : irqRegister vector handler before = .done () after) :
    Registered before vector after := by
  obtain ⟨_, middle, redirect, assigned⟩ := Outcome.bind_done.mp run
  rw [if_pos ⟨enabled, isa⟩, ioapicRedirectIrq_eq] at redirect
  cases assigned
  obtain ⟨ioapic, found, lists, written⟩ := ioapicRedirectGsi_done redirect
  refine ⟨⟨lists.vmm, lists.ioapics, lists.isos, lists.enabled⟩, ioapic.address, _, _, _, ?_, written,
    redirection_unmasked _ isa⟩
  rw [line, found]
  rfl

theorem irqRegister_exists (served : Served before vector) :
    ∃ after, irqRegister vector handler before = .done () after := by
  obtain ⟨ioapic, found⟩ := Option.isSome_iff_exists.mp served.2
  obtain ⟨last, redirect⟩ : ∃ last, ioapicRedirectGsi 0 (vector + 32) (resolve before vector).1
      (resolve before vector).2 false before = .done () last := ioapicRedirectGsi_exists served.1 found
  refine ⟨{ last with irqHandlers := Function.update last.irqHandlers vector handler }, ?_⟩
  rw [irqRegister, if_pos ⟨enabled, isa⟩, ioapicRedirectIrq_eq, redirect]
  rfl

end

/-! A sequence of registrations -/

/-- What a sequence of registrations keeps: the lookups, and every redirection entry
that is not a registered IRQ's. -/
structure Kept (calls : List (Nat × Nat)) (before after : Board) : Prop where
  lists : SameLists before after
  versions : ∀ address, after.register address ioapicVer = before.register address ioapicVer
  others : ∀ address pin, (∀ call ∈ calls, line before call.1 ≠ some (address, pin)) →
    after.register address (redirectLow pin) = before.register address (redirectLow pin)

theorem registerAll_kept (enabled : before.ioapicEnabled = true) (isa : ∀ call ∈ calls, call.1 ≤ 15)
    (run : registerAll calls before = .done () after) : Kept calls before after := by
  induction calls generalizing before with
  | nil =>
      cases run
      exact ⟨⟨rfl, rfl, rfl, rfl⟩, fun _ => rfl, fun _ _ _ => rfl⟩
  | cons call rest ih =>
      obtain ⟨vector, handler⟩ := call
      obtain ⟨_, middle, first, later⟩ := Outcome.bind_done.mp run
      have registered := irqRegister_done enabled (isa _ List.mem_cons_self) first
      have versions := registered.versions
      obtain ⟨lists, address, pin, low, high, here, written, _⟩ := registered
      have kept := ih (lists.enabled.trans enabled) (fun call member => isa call (List.mem_cons_of_mem _ member)) later
      refine ⟨lists.trans kept.lists, fun other => (kept.versions other).trans (versions other), ?_⟩
      intro other index elsewhere
      have apart : ¬ (other = address ∧ index = pin) := by
        intro entry
        obtain ⟨rfl, rfl⟩ := entry
        exact elsewhere _ List.mem_cons_self here
      rw [kept.others other index ?_, written, pokeEntry_low, if_neg apart]
      intro call member
      rw [line_congr lists versions]
      exact elsewhere call (List.mem_cons_of_mem _ member)

theorem registerAll_exists (enabled : before.ioapicEnabled = true) (isa : ∀ call ∈ calls, call.1 ≤ 15)
    (served : ∀ call ∈ calls, Served before call.1) : ∃ after, registerAll calls before = .done () after := by
  induction calls generalizing before with
  | nil => exact ⟨before, rfl⟩
  | cons call rest ih =>
      obtain ⟨vector, handler⟩ := call
      have small := isa _ List.mem_cons_self
      obtain ⟨middle, first⟩ : ∃ middle, irqRegister vector handler before = .done () middle :=
        irqRegister_exists enabled small (served _ List.mem_cons_self)
      have registered := irqRegister_done enabled small first
      obtain ⟨after, later⟩ := ih (registered.lists.enabled.trans enabled)
        (fun call member => isa call (List.mem_cons_of_mem _ member))
        fun call member =>
          (served_congr registered.lists registered.versions).mpr (served call (List.mem_cons_of_mem _ member))
      exact ⟨after, Outcome.bind_done.mpr ⟨(), middle, first, later⟩⟩

theorem registerAll_ownLine (enabled : before.ioapicEnabled = true) (isa : ∀ call ∈ calls, call.1 ≤ 15)
    (apart : (calls.map Prod.fst).Pairwise fun vector other => line before vector ≠ line before other)
    (run : registerAll calls before = .done () after) : ∀ call ∈ calls, OwnLine after call.1 := by
  induction calls generalizing before with
  | nil => nofun
  | cons call rest ih =>
      obtain ⟨vector, handler⟩ := call
      have later_isa : ∀ call ∈ rest, call.1 ≤ 15 := fun call member => isa call (List.mem_cons_of_mem _ member)
      obtain ⟨_, middle, first, later⟩ := Outcome.bind_done.mp run
      have registered := irqRegister_done enabled (isa _ List.mem_cons_self) first
      have versions := registered.versions
      obtain ⟨lists, address, pin, low, high, here, written, unmasked, numbered⟩ := registered
      have still : middle.ioapicEnabled = true := lists.enabled.trans enabled
      obtain ⟨head, tail⟩ := List.pairwise_cons.mp apart
      have kept := registerAll_kept still later_isa later
      refine List.forall_mem_cons.mpr ⟨⟨address, pin, ?_, ?_⟩, ih still later_isa ?_ later⟩
      · rw [line_congr kept.lists kept.versions, line_congr lists versions, here]
      · rw [kept.others address pin ?_, written, pokeEntry_low, if_pos ⟨rfl, rfl⟩]
        · exact ⟨unmasked, numbered⟩
        · intro call member same
          rw [line_congr lists versions, ← here] at same
          exact head call.1 (List.mem_map_of_mem member) same.symm
      · simp only [line_congr lists versions]
        exact tail

/-- Registrations whose lookups succeed return, and leave every registered IRQ its
own line exactly when no two of them share a redirection entry. -/
theorem registered_irqs_keep_lines (enabled : before.ioapicEnabled = true) (isa : ∀ call ∈ calls, call.1 ≤ 15)
    (distinct : (calls.map Prod.fst).Nodup) (served : ∀ call ∈ calls, Served before call.1) :
    ∃ after, registerAll calls before = .done () after ∧
      ((∀ call ∈ calls, OwnLine after call.1) ↔
        (calls.map Prod.fst).Pairwise fun vector other => line before vector ≠ line before other) := by
  obtain ⟨after, run⟩ := registerAll_exists enabled isa served
  have kept := registerAll_kept enabled isa run
  refine ⟨after, run, fun own => ?_, fun apart => registerAll_ownLine enabled isa apart run⟩
  refine distinct.imp_of_mem ?_
  intro vector other left right different same
  obtain ⟨call, member, rfl⟩ := List.mem_map.mp left
  obtain ⟨again, member_again, rfl⟩ := List.mem_map.mp right
  obtain ⟨address, pin, here, _, numbered⟩ := own call member
  obtain ⟨_, _, there, _, numbered_again⟩ := own again member_again
  rw [line_congr kept.lists kept.versions] at here there
  cases here.symm.trans (same.trans there)
  exact different (Nat.add_right_cancel (numbered.symm.trans numbered_again))

/-! The timer's IRQ on pin 2 -/

/-- One I/O APIC with 24 pins, in a mapped window, and the override of most machines. -/
def timerOverride : Board where
  vmm := { pmm := .initial (fun _ => 0), pageDirectory := fun _ => 0x1003, memory := fun _ _ => 0xFEC00003, derefs := [] }
  chips := fun _ => ⟨0, fun reg => if reg = ioapicVer then 0x170011 else 0x10000, by decide⟩
  madtIoapics := [⟨0, 0xFEC00000, 0⟩]
  madtIsos := [⟨0, 0, 2, 0⟩]
  ioapicEnabled := true
  irqHandlers := fun _ => 0

theorem registered_irqs_keep_lines_keyboard :
    ∃ after, registerAll [(0, 0x1000), (1, 0x2000)] timerOverride = .done () after ∧
      ((∀ call ∈ [(0, 0x1000), (1, 0x2000)], OwnLine after call.1) ↔
        [0, 1].Pairwise fun vector other => line timerOverride vector ≠ line timerOverride other) :=
  registered_irqs_keep_lines rfl (by decide) (by decide)
    (List.forall_mem_cons.mpr ⟨⟨by decide, by decide⟩, List.forall_mem_cons.mpr ⟨⟨by decide, by decide⟩, nofun⟩⟩)

/-- IRQ 2 resolves to the timer's pin, which keeps the vector that was written last. -/
theorem registerAll_shares_line :
    line timerOverride 0 = some (0xFEC00000, 2) ∧ line timerOverride 2 = some (0xFEC00000, 2) ∧
    ∃ after, registerAll [(0, 0x1000), (2, 0x2000)] timerOverride = .done () after ∧
      OwnLine after 2 ∧ ¬ OwnLine after 0 := by
  have timer : line timerOverride 0 = some (0xFEC00000, 2) := by decide
  have other : line timerOverride 2 = some (0xFEC00000, 2) := by decide
  have isa : ∀ call ∈ [(0, 0x1000), (2, 0x2000)], call.1 ≤ 15 := by decide
  have served : ∀ call ∈ [(0, 0x1000), (2, 0x2000)], Served timerOverride call.1 :=
    List.forall_mem_cons.mpr ⟨⟨by decide, by decide⟩, List.forall_mem_singleton.mpr ⟨by decide, by decide⟩⟩
  obtain ⟨after, run⟩ := registerAll_exists rfl isa served
  have kept := registerAll_kept rfl isa run
  have same : ∀ irq, line after irq = line timerOverride irq := fun irq => line_congr kept.lists kept.versions
  obtain ⟨_, middle, first, second⟩ := Outcome.bind_done.mp run
  obtain ⟨_, last, again, returned⟩ := Outcome.bind_done.mp second
  cases returned
  have earlier := irqRegister_done rfl (by decide) first
  have later := irqRegister_done earlier.lists.enabled (by decide) again
  obtain ⟨address, pin, low, high, here, written, unmasked, numbered⟩ := later.entry
  rw [line_congr earlier.lists earlier.versions, other] at here
  cases here
  have entry : after.register 0xFEC00000 (redirectLow 2) = low := by
    rw [written, pokeEntry_low, if_pos ⟨rfl, rfl⟩]
  refine ⟨timer, other, after, run, ⟨0xFEC00000, 2, (same 2).trans other, entry ▸ unmasked, entry ▸ numbered⟩, fun own => ?_⟩
  obtain ⟨_, _, place, _, vector⟩ := own
  rw [same, timer] at place
  cases place
  rw [entry, numbered] at vector
  exact absurd vector (by decide)

end BarrelOS.Interrupts
