import BarrelOS.Data.Bytes
import BarrelOS.Data.Stores
import BarrelOS.Data.Text
import Mathlib.Algebra.Group.Int.Defs

namespace BarrelOS.Lib

open BarrelOS.Data

def memcpy (dest src n : Nat) (memory : Bytes) : Bytes :=
  (List.range n).foldl
    (fun memory i => Function.update memory ((dest + i) % 2 ^ 32) (memory ((src + i) % 2 ^ 32))) memory

def memset (s : Nat) (c : UInt8) (n : Nat) (memory : Bytes) : Bytes :=
  stores memory ((List.range n).map fun i => ((s + i) % 2 ^ 32, c))

/-- Backward where `dest` is above `src`; between equal pointers nothing is copied. -/
def memmove (dest src n : Nat) (memory : Bytes) : Bytes :=
  let copy := fun (memory : Bytes) i => Function.update memory ((dest + i) % 2 ^ 32) (memory ((src + i) % 2 ^ 32))
  if src > dest then (List.range n).foldl copy memory
  else if src < dest then (List.range n).reverse.foldl copy memory
  else memory

/-- `ptr + offset`, at which the sanitizer halts if it starts at `NULL` or leaves the address space. -/
def pointerAdd (ptr offset : Nat) : Option Nat :=
  if ptr ≠ 0 ∧ ptr + offset < 2 ^ 32 then some (ptr + offset) else none

/-- The loop of `memcmp` over the `n` bytes that are left. It halts where a pointer leaves the address space. -/
def memcmp (memory : Bytes) (s1 s2 : Nat) : Nat → Option Int
  | 0 => some 0
  | n + 1 =>
      if s1 < 2 ^ 32 ∧ s2 < 2 ^ 32 then
        if memory.load8 s1 ≠ memory.load8 s2 then
          some (if memory.load8 s1 < memory.load8 s2 then -1 else 1)
        else memcmp memory (s1 + 1) (s2 + 1) n
      else none

/-- `strncmp`, where a string that may not be read has no result. -/
def strncmp (x y : Text) : Nat → Nat → Nat → Option Int
  | 0, _, _ => some 0
  | n + 1, xAt, yAt => do
      let u1 ← x xAt
      let u2 ← y yAt
      if u1 ≠ u2 then return u1.toNat - u2.toNat
      if u1 = 0 then return 0
      strncmp x y n (xAt + 1) (yAt + 1)

/-- The value of an `int` expression; where it overflows, the sanitizer halts. -/
def checkInt (value : Int) : Option Int := if -2 ^ 31 ≤ value ∧ value < 2 ^ 31 then some value else none

/-- `*s >= '0' && *s <= '9'`. -/
def isDigit (char : Nat) : Prop := '0'.toNat ≤ char ∧ char ≤ '9'.toNat

instance (char : Nat) : Decidable (isDigit char) := inferInstanceAs (Decidable (_ ∧ _))

/-- The loop of `atoi` over the rest of an array, which it must not run off. -/
def atoi (acum : Int) : List UInt8 → Option Int
  | [] => none
  | char :: rest =>
      if isDigit char.toNat then do
        let acum ← checkInt (acum * 10)
        let acum ← checkInt (acum + (char.toNat - 48))
        atoi acum rest
      else some acum

theorem checkInt_eq {value : Int} (low : -2 ^ 31 ≤ value) (high : value < 2 ^ 31) : checkInt value = some value :=
  if_pos ⟨low, high⟩

variable {memory : Bytes} {ptr offset result s1 s2 n : Nat}

theorem pointerAdd_eq_some : pointerAdd ptr offset = some result ↔
    ptr ≠ 0 ∧ ptr + offset < 2 ^ 32 ∧ ptr + offset = result := by
  unfold pointerAdd
  split
  · rename_i valid
    exact ⟨fun same => ⟨valid.1, valid.2, Option.some.inj same⟩, fun all => congrArg some all.2.2⟩
  · rename_i invalid
    exact ⟨nofun, fun all => absurd ⟨all.1, all.2.1⟩ invalid⟩

/-- The bytes that a comparison comes to lie in the address space. -/
def Comparable (memory : Bytes) (s1 s2 n : Nat) : Prop :=
  ∀ k < n, (∀ j < k, memory.load8 (s1 + j) = memory.load8 (s2 + j)) → s1 + k < 2 ^ 32 ∧ s2 + k < 2 ^ 32

theorem comparable_succ : Comparable memory s1 s2 (n + 1) ↔ (s1 < 2 ^ 32 ∧ s2 < 2 ^ 32) ∧
    (memory.load8 s1 = memory.load8 s2 → Comparable memory (s1 + 1) (s2 + 1) n) := by
  have shifted : ∀ s i, s + 1 + i = s + (i + 1) := fun s i => Nat.add_right_comm s 1 i
  rw [Comparable, Nat.forall_lt_succ_left]
  refine and_congr ⟨fun first => first nofun, fun first _ => first⟩ ?_
  constructor
  · intro rest same k below equal
    have inside := rest k below (Nat.forall_lt_succ_left.mpr ⟨same, fun j before => ?_⟩)
    · rwa [shifted, shifted]
    · have here := equal j before
      rwa [shifted, shifted] at here
  · intro rest k below equal
    obtain ⟨same, later⟩ := Nat.forall_lt_succ_left.mp equal
    have inside := rest same k below fun j before => by rw [shifted, shifted]; exact later j before
    rwa [shifted, shifted] at inside

/-- A comparison halts exactly when it comes to a byte outside the address space, and
returns 0 exactly when all bytes agree. -/
theorem memcmp_spec : (Comparable memory s1 s2 n → ∃ differ, memcmp memory s1 s2 n = some differ ∧
      (differ = 0 ↔ ∀ i < n, memory.load8 (s1 + i) = memory.load8 (s2 + i))) ∧
    (¬ Comparable memory s1 s2 n → memcmp memory s1 s2 n = none) := by
  induction n generalizing s1 s2 with
  | zero => exact ⟨fun _ => ⟨0, rfl, iff_of_true rfl nofun⟩, fun halts => absurd nofun halts⟩
  | succ n ih =>
      have shifted : ∀ s i, s + 1 + i = s + (i + 1) := fun s i => Nat.add_right_comm s 1 i
      simp only [comparable_succ, memcmp, Nat.forall_lt_succ_left]
      by_cases inside : s1 < 2 ^ 32 ∧ s2 < 2 ^ 32
      · rw [if_pos inside]
        by_cases same : memory.load8 s1 = memory.load8 s2
        · obtain ⟨returns, halts⟩ := @ih (s1 + 1) (s2 + 1)
          rw [if_neg (not_not.mpr same)]
          refine ⟨fun comparable => ?_, fun halted => halts fun comparable => halted ⟨inside, fun _ => comparable⟩⟩
          obtain ⟨differ, returned, zero⟩ := returns (comparable.2 same)
          refine ⟨differ, returned, zero.trans ?_⟩
          simp only [shifted, Nat.add_zero, same, true_and]
        · rw [if_pos same]
          refine ⟨fun _ => ⟨_, rfl, iff_of_false ?_ fun all => same all.1⟩, fun halted => ?_⟩
          · split <;> decide
          · exact absurd ⟨inside, fun equal => absurd equal same⟩ halted
      · rw [if_neg inside]
        exact ⟨fun comparable => absurd comparable.1 inside, fun _ => rfl⟩

theorem digit_ne {digit other : UInt8} (digits : isDigit digit.toNat) (apart : ¬ isDigit other.toNat) : digit ≠ other :=
  fun same => apart (same ▸ digits)

theorem strncmp_prefix {x y : Text} {xAt yAt : Nat} {chars command : List UInt8} (holds : x.Holds xAt chars)
    (literal : y.Holds yAt command) :
    ∃ diff, strncmp x y command.length xAt yAt = some diff ∧ (diff = 0 ↔ command <+: chars) := by
  induction command generalizing xAt yAt chars with
  | nil => exact ⟨0, rfl, iff_of_true rfl List.nil_prefix⟩
  | cons char command ih =>
      obtain ⟨there, nonzero⟩ := literal.head
      by_cases same : chars.head?.getD 0 = char
      · cases chars with
        | nil => exact absurd same.symm nonzero
        | cons first chars =>
            have same : first = char := same
            subst same
            obtain ⟨diff, run, zero⟩ := ih holds.tail literal.tail
            refine ⟨diff, ?_, zero.trans ?_⟩
            · rw [List.length_cons, strncmp, holds.head.1, there]
              simp only [Option.bind_eq_bind, Option.bind_some, ne_eq, not_true_eq_false, if_false, if_neg nonzero]
              exact run
            · rw [List.cons_prefix_cons, and_iff_right rfl]
      · refine ⟨(chars.head?.getD 0).toNat - char.toNat, ?_, iff_of_false (fun zero => ?_) fun begins => ?_⟩
        · rw [List.length_cons, strncmp, holds.first, there]
          simp only [Option.bind_eq_bind, Option.bind_some, ne_eq, same, not_false_eq_true, if_true]
          rfl
        · have apart : (chars.head?.getD 0).toNat ≠ char.toNat := fun equal => same (UInt8.toNat_inj.mp equal)
          omega
        · cases chars with
          | nil => exact absurd (List.prefix_nil.mp begins) (List.cons_ne_nil _ _)
          | cons first chars => exact same (List.cons_prefix_cons.mp begins).1.symm

theorem strncmp_eq_zero {x y : Text} {xAt yAt : Nat} {chars : List UInt8} (holds : y.Holds yAt chars)
    (readable : ∀ address, (x address).isSome) :
    ∃ diff, strncmp x y chars.length xAt yAt = some diff ∧
      (diff = 0 ↔ ∀ i < chars.length, x (xAt + i) = chars[i]?) := by
  induction chars generalizing xAt yAt with
  | nil => exact ⟨0, rfl, iff_of_true rfl nofun⟩
  | cons char rest ih =>
      obtain ⟨c, here⟩ := Option.isSome_iff_exists.mp (readable xAt)
      by_cases same : c = char
      · subst same
        obtain ⟨diff, run, zero⟩ := @ih (xAt + 1) (yAt + 1) holds.tail
        refine ⟨diff, by simp [strncmp, here, holds.head.1, holds.head.2, run], zero.trans ?_⟩
        rw [List.length_cons, Nat.forall_lt_succ_left]
        refine Iff.trans (forall₂_congr fun i _ => ?_) (and_iff_right here).symm
        rw [List.getElem?_cons_succ, Nat.add_right_comm, Nat.add_assoc]
      · refine ⟨c.toNat - char.toNat, by simp [strncmp, here, holds.head.1, same], iff_of_false ?_ fun all => ?_⟩
        · have apart : c.toNat ≠ char.toNat := fun equal => same (UInt8.toNat_inj.mp equal)
          omega
        · exact same (Option.some.inj (here.symm.trans (all 0 (Nat.zero_lt_succ _))))

end BarrelOS.Lib
