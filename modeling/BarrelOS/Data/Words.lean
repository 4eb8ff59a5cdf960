import BarrelOS.Data.Bytes
import Mathlib.Data.List.Basic
import Mathlib.Logic.Function.Basic

namespace BarrelOS.Data

/-! Bytes and little-endian words that are written to a memory -/

def wordBytes (value : Nat) : List UInt8 :=
  [UInt8.ofNat value, UInt8.ofNat (value / 2 ^ 8), UInt8.ofNat (value / 2 ^ 16), UInt8.ofNat (value / 2 ^ 24)]

def wordsBytes (words : List Nat) : List UInt8 := words.flatMap wordBytes

theorem wordsBytes_append (words more : List Nat) : wordsBytes (words ++ more) = wordsBytes words ++ wordsBytes more :=
  List.flatMap_append

theorem wordsBytes_length (words : List Nat) : (wordsBytes words).length = 4 * words.length := by
  induction words with
  | nil => rfl
  | cons word words ih =>
      rw [wordsBytes, List.flatMap_cons, List.length_append, ← wordsBytes, ih, List.length_cons]
      change 4 + _ = _
      omega

namespace Bytes

/-- Bytes are written from an address on. -/
def store (memory : Bytes) (start : Nat) : List UInt8 → Bytes
  | [] => memory
  | byte :: bytes => Function.update (store memory (start + 1) bytes) (start % 2 ^ 32) byte

variable {memory : Bytes} {start other place value word : Nat} {byte : UInt8} {bytes more : List UInt8} {words : List Nat}

theorem store_append : memory.store start (bytes ++ more) = (memory.store (start + bytes.length) more).store start bytes := by
  induction bytes generalizing start with
  | nil => rfl
  | cons byte bytes ih =>
      have shifted : start + 1 + bytes.length = start + (byte :: bytes).length := by
        rw [List.length_cons]
        omega
      rw [List.cons_append, store, ih, shifted]
      rfl

theorem store_outside (outside : ∀ i < bytes.length, (start + i) % 2 ^ 32 ≠ place) :
    memory.store start bytes place = memory place := by
  induction bytes generalizing start with
  | nil => rfl
  | cons byte bytes ih =>
      have apart : place ≠ start % 2 ^ 32 := (outside 0 (Nat.succ_pos _)).symm
      rw [store, Function.update_of_ne apart]
      refine ih fun i inside same => outside (i + 1) (Nat.succ_lt_succ inside) ?_
      rw [← same, Nat.add_assoc, Nat.add_comm 1]

theorem store_holds (bound : bytes.length ≤ 2 ^ 32) : (memory.store start bytes).Holds start bytes := by
  induction bytes generalizing start with
  | nil => exact nofun
  | cons byte bytes ih =>
      rw [List.length_cons] at bound
      intro i here found
      cases i with
      | zero =>
          cases found
          exact Function.update_self ..
      | succ i =>
          have inside : i < bytes.length := Nat.lt_of_succ_lt_succ (List.getElem?_eq_some_iff.mp found).1
          have apart : (start + (i + 1)) % 2 ^ 32 ≠ start % 2 ^ 32 := by omega
          rw [store, Function.update_of_ne apart, ← Nat.add_comm 1 i, ← Nat.add_assoc]
          exact ih (by omega) i here found

theorem store_congr {memory' : Bytes}
    (agree : memory place = memory' place ∨ ∃ i < bytes.length, (start + i) % 2 ^ 32 = place) :
    memory.store start bytes place = memory'.store start bytes place := by
  induction bytes generalizing start with
  | nil =>
      rcases agree with same | ⟨i, inside, _⟩
      · exact same
      · cases inside
  | cons byte bytes ih =>
      rw [store, store]
      by_cases here : place = start % 2 ^ 32
      · rw [here, Function.update_self, Function.update_self]
      · rw [Function.update_of_ne here, Function.update_of_ne here]
        refine ih (agree.imp_right fun ⟨i, inside, same⟩ => ?_)
        cases i with
        | zero => exact absurd same.symm here
        | succ i => exact ⟨i, Nat.lt_of_succ_lt_succ inside, by rw [← same, Nat.add_assoc, Nat.add_comm 1]⟩

/-- Bytes elsewhere stay where they are. -/
theorem holds_store (holds : memory.Holds start bytes)
    (apart : ∀ i < bytes.length, ∀ j < more.length, (start + i) % 2 ^ 32 ≠ (other + j) % 2 ^ 32) :
    (memory.store other more).Holds start bytes := by
  intro i byte here
  have inside : i < bytes.length := (List.getElem?_eq_some_iff.mp here).1
  rw [store_outside fun j within same => apart i inside j within same.symm]
  exact holds i byte here

theorem holds_same {memory' : Bytes} {i : Nat} (left : memory.Holds start bytes) (right : memory'.Holds start bytes)
    (inside : i < bytes.length) : memory ((start + i) % 2 ^ 32) = memory' ((start + i) % 2 ^ 32) :=
  (left i _ (List.getElem?_eq_getElem inside)).trans (right i _ (List.getElem?_eq_getElem inside)).symm

/-! Words -/

theorem holds_word : memory.Holds start (wordBytes word) ↔ memory.load32 start = word % 2 ^ 32 := by
  have digit : ∀ n : Nat, (UInt8.ofNat n).toNat = n % 2 ^ 8 := fun n => UInt8.toNat_ofNat'
  simp only [wordBytes, holds_cons, digit]
  have rest : memory.Holds (start + 1 + 1 + 1 + 1) [] := nofun
  have first := @load8_lt memory start
  have second := @load8_lt memory (start + 1)
  have third := @load8_lt memory (start + 1 + 1)
  have last := @load8_lt memory (start + 1 + 1 + 1)
  simp only [load32, load16, show start + 2 = start + 1 + 1 from rfl, rest, and_true]
  omega

theorem holds_words : memory.Holds start (wordsBytes (word :: words)) ↔
    memory.load32 start = word % 2 ^ 32 ∧ memory.Holds (start + 4) (wordsBytes words) := by
  rw [wordsBytes, List.flatMap_cons, holds_append, holds_word]
  rfl

theorem load32_congr {memory' : Bytes} (same : ∀ i < 4, memory ((start + i) % 2 ^ 32) = memory' ((start + i) % 2 ^ 32)) :
    memory.load32 start = memory'.load32 start := by
  have byte (i : Nat) (low : i < 4) : memory.load8 (start + i) = memory'.load8 (start + i) := congrArg UInt8.toNat (same i low)
  have first : memory.load8 start = memory'.load8 start := byte 0 (by decide)
  simp only [load32, load16, Nat.add_assoc, Nat.reduceAdd, first, byte 1 (by decide), byte 2 (by decide), byte 3 (by decide)]

/-- A byte of a word is the word shifted down to it. -/
theorem load32_byte {i : Nat} (fewer : i < 4) :
    (UInt32.ofNat (memory.load32 start) >>> (8 * UInt32.ofNat i)).toUInt8 = memory ((start + i) % 2 ^ 32) := by
  have first := @load8_lt memory start
  have second := @load8_lt memory (start + 1)
  have third := @load8_lt memory (start + 2)
  have last := @load8_lt memory (start + 2 + 1)
  have byte : (memory ((start + i) % 2 ^ 32)).toNat = memory.load32 start / 2 ^ (8 * i) % 2 ^ 8 := by
    change memory.load8 (start + i) = _
    unfold load32 load16
    match i, fewer with
    | 0, _ | 1, _ | 2, _ | 3, _ => simp only [Nat.add_zero, Nat.add_assoc, Nat.reduceAdd, Nat.reduceMul] at *; omega
  have shift : (8 * UInt32.ofNat i).toNat = 8 * i := by
    match i, fewer with
    | 0, _ | 1, _ | 2, _ | 3, _ => rfl
  have low : 8 * i < 32 := by omega
  refine UInt8.toNat_inj.mp ?_
  rw [byte, UInt32.toNat_toUInt8, UInt32.toNat_shiftRight, shift, Nat.mod_eq_of_lt low, Nat.shiftRight_eq_div_pow,
    UInt32.toNat_ofNat', Nat.mod_eq_of_lt load32_lt]

theorem load_words {k : Nat} (holds : memory.Holds start (wordsBytes words)) (found : words[k]? = some word) :
    memory.load32 (start + 4 * k) = word % 2 ^ 32 := by
  induction k generalizing start words with
  | zero =>
      cases words with
      | nil => cases found
      | cons first words =>
          cases found
          exact (holds_words.mp holds).1
  | succ k ih =>
      cases words with
      | nil => cases found
      | cons first words =>
          rw [Nat.mul_succ, Nat.add_comm (4 * k), ← Nat.add_assoc]
          exact ih (holds_words.mp holds).2 found

end Bytes

end BarrelOS.Data
