import BarrelOS.Interrupts.Registration
import Mathlib.Data.Nat.Bitwise

namespace BarrelOS.Interrupts

open BarrelOS.Data BarrelOS.Memory BarrelOS.Semantics

/-- The interrupts of an I/O APIC's redirection entries. The version register has
the number of the last of them, so that there is one more than `ioapic_gsi_count`. -/
def HasPin (board : Board) (gsi : Nat) (ioapic : MadtIoapic) : Prop :=
  ioapic.gsiBase ≤ gsi ∧ gsi ≤ ioapic.gsiBase + board.gsiCount ioapic

instance (board : Board) (gsi : Nat) (ioapic : MadtIoapic) : Decidable (HasPin board gsi ioapic) :=
  inferInstanceAs (Decidable (_ ∧ _))

def Apart (range : Nat → MadtIoapic → Prop) (list : List MadtIoapic) : Prop :=
  list.Pairwise fun first second => ∀ gsi, range gsi first → ¬ range gsi second

/-- `ioapic_get_gsi` returns the I/O APIC that has the pin, and `NULL` where none has
it, and `ioapic_redirect_gsi` returns for a pin that there is. -/
structure FindsPin (board : Board) (gsi : Nat) : Prop where
  lookup : ∃ found after, ioapicGetGsi gsi board.madtIoapics board = .done found after ∧
    ∀ ioapic, found = some ioapic ↔ ioapic ∈ board.madtIoapics ∧ HasPin board gsi ioapic
  redirect : (∃ ioapic ∈ board.madtIoapics, HasPin board gsi ioapic) → ∀ lapicId vector flags mask,
    ∃ after, ioapicRedirectGsi lapicId vector gsi flags mask board = .done () after

def redirectWord (vector flags : Nat) (mask : Bool) : Nat :=
  vector + (if flags.testBit 1 then 2 ^ 13 else 0) + (if flags.testBit 3 then 2 ^ 15 else 0) + if mask then 2 ^ 16 else 0

variable {gsi irq vector lapicId flags : Nat} {mask : Bool} {board before after : Board}
  {ioapic : MadtIoapic} {list : List MadtIoapic}

/-! Lookups among disjoint ranges -/

theorem Apart.find_eq {range : Nat → MadtIoapic → Prop} [∀ ioapic, Decidable (range gsi ioapic)]
    (apart : Apart range list) :
    list.find? (fun ioapic => range gsi ioapic) = some ioapic ↔ ioapic ∈ list ∧ range gsi ioapic := by
  constructor
  · intro found
    have inside := List.find?_some found
    exact ⟨List.mem_of_find?_eq_some found, of_decide_eq_true inside⟩
  · intro both
    obtain ⟨member, inside⟩ := both
    induction list with
    | nil => cases member
    | cons first rest ih =>
        obtain ⟨head, tail⟩ := List.pairwise_cons.mp apart
        rw [List.find?_cons]
        rcases List.mem_cons.mp member with same | later
        · rw [← same, decide_eq_true inside]
        · have other : ¬ range gsi first := fun covers => head ioapic later gsi covers inside
          rw [decide_eq_false other]
          exact ih tail later

theorem covers_iff_hasPin (inner : gsi ≠ ioapic.gsiBase + board.gsiCount ioapic) :
    Covers board gsi ioapic ↔ HasPin board gsi ioapic := by
  unfold Covers HasPin
  omega

theorem Apart.covers (apart : Apart (HasPin board) list) : Apart (Covers board) list := by
  refine apart.imp fun disjoint gsi first second => ?_
  exact disjoint gsi ⟨first.1, Nat.le_of_lt first.2⟩ ⟨second.1, Nat.le_of_lt second.2⟩

/-- The lookup misses the last pin of every I/O APIC, and no other. -/
theorem finds_pin_iff (apart : Apart (HasPin board) board.madtIoapics) :
    FindsPin board gsi ↔ Asks board gsi board.madtIoapics ∧
      ∀ ioapic ∈ board.madtIoapics, gsi ≠ ioapic.gsiBase + board.gsiCount ioapic := by
  have lookups := fun ioapic => @Apart.find_eq gsi ioapic board.madtIoapics (Covers board) _ apart.covers
  constructor
  · intro finds
    obtain ⟨found, after, run, right⟩ := finds.lookup
    obtain ⟨asks, find, _⟩ := ioapicGetGsi_done run
    refine ⟨asks, fun ioapic listed last => ?_⟩
    have has : HasPin board gsi ioapic := ⟨last ▸ Nat.le_add_right _ _, Nat.le_of_eq last⟩
    have here := (right ioapic).mpr ⟨listed, has⟩
    rw [find, lookups ioapic] at here
    exact absurd last (Nat.ne_of_lt here.2.2)
  · intro both
    obtain ⟨asks, inner⟩ := both
    have same : ∀ ioapic, ioapic ∈ board.madtIoapics ∧ Covers board gsi ioapic ↔
        ioapic ∈ board.madtIoapics ∧ HasPin board gsi ioapic :=
      fun ioapic => and_congr_right fun listed => covers_iff_hasPin (inner ioapic listed)
    constructor
    · obtain ⟨found, after, run⟩ := ioapicGetGsi_exists asks
      obtain ⟨_, find, _⟩ := ioapicGetGsi_done run
      refine ⟨found, after, run, fun ioapic => ?_⟩
      rw [find, lookups ioapic]
      exact same ioapic
    · intro exists_pin lapicId vector flags mask
      obtain ⟨ioapic, has⟩ := exists_pin
      exact ioapicRedirectGsi_exists asks ((lookups ioapic).mpr ((same ioapic).mpr has))

theorem timerOverride_apart (range : Nat → MadtIoapic → Prop) : Apart range timerOverride.madtIoapics :=
  List.pairwise_singleton _ _

theorem finds_pin_keyboard : FindsPin timerOverride 1 :=
  (finds_pin_iff (timerOverride_apart _)).mpr ⟨by decide, by decide⟩

/-- The one I/O APIC has the pins 0 to 23, and is not found for the last. -/
theorem ioapicGetGsi_misses_last_pin : Apart (HasPin timerOverride) timerOverride.madtIoapics ∧
    HasPin timerOverride 23 ⟨0, 0xFEC00000, 0⟩ ∧ ¬ FindsPin timerOverride 23 := by
  refine ⟨timerOverride_apart _, by decide, fun finds => ?_⟩
  obtain ⟨found, after, run, right⟩ := finds.lookup
  have here := (right ⟨0, 0xFEC00000, 0⟩).mpr ⟨List.mem_singleton_self _, by decide⟩
  rw [(ioapicGetGsi_done run).2.1] at here
  have none : timerOverride.madtIoapics.find? (fun ioapic => Covers timerOverride 23 ioapic) = none := by decide
  cases none.symm.trans here

/-! The word that is written -/

theorem or_bit {word i : Nat} (small : word < 2 ^ i) : word ||| 1 <<< i = word + 2 ^ i := by
  have added := Nat.two_pow_add_eq_or_of_lt small 1
  rw [Nat.mul_one] at added
  rw [Nat.one_shiftLeft, Nat.or_comm, ← added, Nat.add_comm]

theorem and_bit (flags i : Nat) : flags &&& 1 <<< i ≠ 0 ↔ flags.testBit i = true := by
  rw [Nat.one_shiftLeft, Nat.and_two_pow]
  cases flags.testBit i <;> simp

theorem and_unmasked {word : Nat} (small : word < 2 ^ 16) : word &&& 0xFFFFFFFFFFFEFFFF = word := by
  have low : 0xFFFF &&& 0xFFFFFFFFFFFEFFFF = 0xFFFF := by decide
  have whole : word &&& 0xFFFF = word := (Nat.and_two_pow_sub_one_eq_mod word 16).trans (Nat.mod_eq_of_lt small)
  rw [← whole, Nat.and_assoc, low]

theorem redirectWord_lt (byte : vector < 2 ^ 8) : redirectWord vector flags mask < 2 ^ 32 := by
  unfold redirectWord
  split <;> split <;> split <;> omega

theorem redirection_eq (byte : vector < 2 ^ 8) :
    redirection lapicId vector flags mask = redirectWord vector flags mask + lapicId % 2 ^ 8 * 2 ^ 56 := by
  have delivery : (if flags &&& 1 <<< 1 ≠ 0 then vector ||| 1 <<< 13 else vector) =
      vector + if flags.testBit 1 then 2 ^ 13 else 0 := by
    rw [if_congr (and_bit flags 1) (or_bit (by omega)) rfl]
    split <;> rfl
  have destination : ∀ word < 2 ^ 15, (if flags &&& 1 <<< 3 ≠ 0 then word ||| 1 <<< 15 else word) =
      word + if flags.testBit 3 then 2 ^ 15 else 0 := by
    intro word small
    rw [if_congr (and_bit flags 3) (or_bit small) rfl]
    split <;> rfl
  have masking : ∀ word < 2 ^ 16, (if mask then word ||| 1 <<< 16 else word &&& 0xFFFFFFFFFFFEFFFF) =
      word + if mask then 2 ^ 16 else 0 := by
    intro word small
    rw [or_bit small, and_unmasked small]
    split <;> rfl
  have local_id : ∀ word < 2 ^ 56, word ||| lapicId <<< 56 % 2 ^ 64 = word + lapicId % 2 ^ 8 * 2 ^ 56 := by
    intro word small
    have high : lapicId <<< 56 % 2 ^ 64 = 2 ^ 56 * (lapicId % 2 ^ 8) := by
      rw [Nat.shiftLeft_eq]
      omega
    rw [high, Nat.or_comm, ← Nat.two_pow_add_eq_or_of_lt small]
    omega
  have first : vector + (if flags.testBit 1 then 2 ^ 13 else 0) < 2 ^ 15 := by
    split <;> omega
  have second : vector + (if flags.testBit 1 then 2 ^ 13 else 0) + (if flags.testBit 3 then 2 ^ 15 else 0) < 2 ^ 16 := by
    split <;> split <;> omega
  have third : redirectWord vector flags mask < 2 ^ 56 := Nat.lt_of_lt_of_le (redirectWord_lt byte) (by decide)
  rw [← local_id _ third, redirectWord, ← masking _ second, ← destination _ first, ← delivery]
  rfl

theorem pokeEntry_high (address other pin index low high : Nat) (registers : Nat → Nat → Nat) :
    pokeEntry address pin low high registers other (redirectLow index + 1) =
      if other = address ∧ index = pin then high else registers other (redirectLow index + 1) := by
  have even : ¬ (other = address ∧ redirectLow index + 1 = redirectLow pin) := by
    unfold redirectLow
    omega
  have same : redirectLow index + 1 = redirectLow pin + 1 ↔ index = pin := by
    unfold redirectLow
    omega
  rw [pokeEntry, pokeRegister, pokeRegister_of_ne even]
  exact if_congr (and_congr_right' same) rfl rfl

theorem pokeEntry_of_ne {address other pin reg low high : Nat}
    (elsewhere : ¬ (other = address ∧ (reg = redirectLow pin ∨ reg = redirectLow pin + 1)))
    (registers : Nat → Nat → Nat) : pokeEntry address pin low high registers other reg = registers other reg := by
  rw [pokeEntry, pokeRegister_of_ne fun both => elsewhere ⟨both.1, .inr both.2⟩,
    pokeRegister_of_ne fun both => elsewhere ⟨both.1, .inl both.2⟩]

/-- What `ioapic_redirect_irq` does: it writes the two registers of one entry, and
no other register of an I/O APIC. -/
structure RedirectsOne (before after : Board) (address pin low high : Nat) : Prop where
  lists : SameLists before after
  low : after.register address (redirectLow pin) = low
  high : after.register address (redirectLow pin + 1) = high
  others : ∀ other reg, ¬ (other = address ∧ (reg = redirectLow pin ∨ reg = redirectLow pin + 1)) →
    after.register other reg = before.register other reg

/-- An IRQ whose interrupt an I/O APIC serves is redirected there, and nothing else is. -/
theorem redirect_irq_writes_one_entry (apart : Apart (Covers before) before.madtIoapics)
    (mapped : ∀ ioapic ∈ before.madtIoapics, WindowMapped before.vmm ioapic.address) (byte : vector < 2 ^ 8)
    (listed : ioapic ∈ before.madtIoapics) (covers : Covers before (resolve before irq).1 ioapic) :
    ∃ after, ioapicRedirectIrq lapicId vector irq mask before = .done () after ∧
      RedirectsOne before after ioapic.address ((resolve before irq).1 - ioapic.gsiBase)
        (redirectWord vector (resolve before irq).2 mask) (lapicId % 2 ^ 8 * 2 ^ 24) := by
  have found : serving before (resolve before irq).1 = some ioapic := apart.find_eq.mpr ⟨listed, covers⟩
  obtain ⟨after, run⟩ := @ioapicRedirectGsi_exists (resolve before irq).1 vector lapicId (resolve before irq).2 mask
    before ioapic (asks_of_mapped mapped) found
  obtain ⟨other, served, lists, written⟩ := ioapicRedirectGsi_done run
  cases found.symm.trans served
  have small := @redirectWord_lt vector (resolve before irq).2 mask byte
  have low : redirection lapicId vector (resolve before irq).2 mask % 2 ^ 32 =
      redirectWord vector (resolve before irq).2 mask := by
    rw [redirection_eq byte]
    omega
  have high : redirection lapicId vector (resolve before irq).2 mask >>> 32 = lapicId % 2 ^ 8 * 2 ^ 24 := by
    rw [redirection_eq byte, Nat.shiftRight_eq_div_pow]
    omega
  rw [low, high] at written
  refine ⟨after, (ioapicRedirectIrq_eq ..).trans run, lists, ?_, ?_, ?_⟩
  · rw [written, pokeEntry_low, if_pos ⟨rfl, rfl⟩]
  · rw [written, pokeEntry_high, if_pos ⟨rfl, rfl⟩]
  · intro address reg elsewhere
    rw [written, pokeEntry_of_ne elsewhere]

/-- The timer is redirected to pin 2, to CPU 1, and masked. -/
theorem redirect_irq_writes_timer :
    ∃ after, ioapicRedirectIrq 1 32 0 true timerOverride = .done () after ∧
      RedirectsOne timerOverride after 0xFEC00000 2 0x10020 0x1000000 :=
  @redirect_irq_writes_one_entry 0 32 1 true timerOverride ⟨0, 0xFEC00000, 0⟩ (timerOverride_apart _) (by decide)
    (by decide) (by decide) (by decide)

end BarrelOS.Interrupts
