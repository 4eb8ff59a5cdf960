import BarrelOS.Data.Occurrence
import BarrelOS.Lib.Libc
import BarrelOS.Semantics.Outcome

namespace BarrelOS.Lib

open BarrelOS.Data BarrelOS.Semantics

/-! `strlen`, `strchr` and `strstr`, whose results are addresses or none for `NULL` -/

/-- A 32-bit `int` that has wrapped, as the count of `strlen` does only from 2 GiB on. -/
def wrapInt (value : Int) : Int := value.bmod (2 ^ 32)

def strlen (text : Text) : Nat → Int → Nat → Outcome Unit Int
  | 0, _, _ => .running ()
  | fuel + 1, i, s =>
      (Outcome.ofOption (text s) ()).bind fun char _ =>
        if char ≠ 0 then strlen text fuel (wrapInt (i + 1)) (s + 1) else .done i ()

def strchr (text : Text) (c : UInt8) : Nat → Nat → Outcome Unit (Option Nat)
  | 0, _ => .running ()
  | fuel + 1, s =>
      (Outcome.ofOption (text s) ()).bind fun char _ =>
        if char = c then .done (some s) ()
        else if char ≠ 0 then strchr text c fuel (s + 1)
        else .done none ()

/-- The loop of `strstr`. -/
def strstrLoop (x y : Text) (b len : Nat) : Nat → Nat → Outcome Unit (Option Nat)
  | 0, _ => .running ()
  | fuel + 1, p =>
      (Outcome.ofOption (y b) ()).bind fun c _ => (strchr x c fuel p).bind fun p _ =>
        match p with
        | none => .done none ()
        | some p =>
            (Outcome.ofOption (strncmp x y len p b) ()).bind fun diff _ =>
              if diff = 0 then .done (some p) () else strstrLoop x y b len fuel (p + 1)

def strstr (fuel : Nat) (x y : Text) (a b : Nat) : Outcome Unit (Option Nat) :=
  (strlen y fuel 0 b).bind fun length _ =>
    let len := (length % 2 ^ 32).toNat
    if len = 0 then .done (some a) () else strstrLoop x y b len fuel a

variable {text x y : Text} {fuel start a b p : Nat} {c : UInt8} {chars front rest s t : List UInt8} {i : Int}

theorem strlen_counts (holds : text.Holds start chars) (enough : chars.length < fuel) :
    ∃ n, strlen text fuel i start = .done n () ∧ n % 2 ^ 32 = (i + chars.length) % 2 ^ 32 := by
  induction chars generalizing fuel start i with
  | nil =>
      cases fuel with
      | zero => cases enough
      | succ fuel =>
          refine ⟨i, ?_, by rw [List.length_nil, Int.natCast_zero, Int.add_zero]⟩
          rw [strlen, holds.nil, Outcome.ofOption, Outcome.done_bind, if_neg (not_not.mpr rfl)]
  | cons char rest ih =>
      cases fuel with
      | zero => cases enough
      | succ fuel =>
          obtain ⟨n, run, count⟩ := @ih fuel (start + 1) (wrapInt (i + 1)) holds.tail (Nat.lt_of_succ_lt_succ enough)
          refine ⟨n, ?_, ?_⟩
          · rw [strlen, holds.head.1, Outcome.ofOption, Outcome.done_bind, if_pos holds.head.2, run]
          · have wrapped : wrapInt (i + 1) % 2 ^ 32 = (i + 1) % 2 ^ 32 := Int.bmod_emod
            rw [List.length_cons, count]
            omega

theorem strchr_absent (holds : text.Holds start chars) (absent : c ∉ chars) (some_char : c ≠ 0) (enough : chars.length < fuel) :
    strchr text c fuel start = .done none () := by
  induction chars generalizing fuel start with
  | nil =>
      cases fuel with
      | zero => cases enough
      | succ fuel => rw [strchr, holds.nil, Outcome.ofOption, Outcome.done_bind, if_neg some_char.symm, if_neg (not_not.mpr rfl)]
  | cons char rest ih =>
      cases fuel with
      | zero => cases enough
      | succ fuel =>
          obtain ⟨apart, others⟩ := not_or.mp (mt List.mem_cons.mpr absent)
          rw [strchr, holds.head.1, Outcome.ofOption, Outcome.done_bind, if_neg (Ne.symm apart), if_pos holds.head.2,
            ih holds.tail others (Nat.lt_of_succ_lt_succ enough)]

theorem strchr_found (holds : text.Holds start (front ++ c :: rest)) (absent : c ∉ front) (enough : front.length < fuel) :
    strchr text c fuel start = .done (some (start + front.length)) () := by
  induction front generalizing fuel start with
  | nil =>
      cases fuel with
      | zero => cases enough
      | succ fuel =>
          have here : text start = some c := holds.head.1
          rw [strchr, here, Outcome.ofOption, Outcome.done_bind, if_pos rfl]
          rfl
  | cons char front ih =>
      cases fuel with
      | zero => cases enough
      | succ fuel =>
          obtain ⟨apart, others⟩ := not_or.mp (mt List.mem_cons.mpr absent)
          have place : start + 1 + front.length = start + (char :: front).length := by
            rw [List.length_cons]
            omega
          rw [List.cons_append] at holds
          rw [strchr, holds.head.1, Outcome.ofOption, Outcome.done_bind, if_neg (Ne.symm apart), if_pos holds.head.2,
            ih holds.tail others (Nat.lt_of_succ_lt_succ enough), place]

/-- The loop finds the first occurrence in what is left of the text, and reads no further. -/
theorem strstrLoop_finds (second : y.Holds b (c :: t)) (first : x.Holds p chars) (enough : chars.length + 1 < fuel) :
    ∃ found, FirstAt (c :: t) chars found ∧
      strstrLoop x y b (c :: t).length fuel p = .done (found.map (p + ·)) () := by
  induction fuel generalizing p chars with
  | zero => cases enough
  | succ fuel ih =>
      rw [strstrLoop, second.head.1, Outcome.ofOption, Outcome.done_bind]
      by_cases member : c ∈ chars
      · obtain ⟨front, rest, same, absent⟩ := List.eq_append_cons_of_mem member
        subst same
        rw [List.length_append, List.length_cons] at enough
        have there : x.Holds (p + front.length) (c :: rest) := first.suffix
        obtain ⟨diff, compared, equal⟩ := strncmp_prefix there second
        rw [strchr_found first absent (by omega), Outcome.done_bind]
        simp only [compared, Outcome.ofOption, Outcome.done_bind]
        by_cases begins : c :: t <+: c :: rest
        · refine ⟨_, (FirstAt.here begins).behind absent, ?_⟩
          rw [if_pos (equal.mpr begins)]
          rfl
        · obtain ⟨found, later, run⟩ := ih there.tail (by omega)
          refine ⟨_, (later.cons begins).behind absent, ?_⟩
          rw [if_neg (mt equal.mp begins), run, Option.map_map, Option.map_map]
          have place : (p + front.length + 1 + ·) = (p + ·) ∘ (front.length + ·) ∘ (1 + ·) := by
            funext k
            simp only [Function.comp_apply]
            omega
          rw [place]
          rfl
      · have none : FirstAt (c :: t) chars none := by
          have passed := (FirstAt.nil (List.cons_ne_nil c t)).behind member
          rwa [List.append_nil] at passed
        refine ⟨_, none, ?_⟩
        rw [strchr_absent first member second.head.2 (by omega), Outcome.done_bind]
        rfl

/-- `strstr` returns the first occurrence of a string in another, whatever else may be read. -/
theorem strstr_finds (first : x.Holds a s) (second : y.Holds b t) (inside : b + t.length < 2 ^ 32) :
    ∃ found, FirstAt t s found ∧ ∃ enough, ∀ fuel ≥ enough, strstr fuel x y a b = .done (found.map (a + ·)) () := by
  have length : ∀ n : Int, n % 2 ^ 32 = (0 + t.length) % 2 ^ 32 → (n % 2 ^ 32).toNat = t.length := by
    intro n count
    omega
  cases t with
  | nil =>
      refine ⟨some 0, .here List.nil_prefix, 1, fun fuel more => ?_⟩
      obtain ⟨n, run, count⟩ := @strlen_counts y fuel b [] 0 second more
      simp only [strstr, run, Outcome.done_bind, length n count]
      rfl
  | cons c t =>
      obtain ⟨found, occurs, _⟩ := strstrLoop_finds second first (Nat.lt_succ_self _)
      refine ⟨found, occurs, s.length + (c :: t).length + 2, fun fuel more => ?_⟩
      obtain ⟨n, run, count⟩ := @strlen_counts y fuel b (c :: t) 0 second (by omega)
      obtain ⟨again, same, loop⟩ := strstrLoop_finds second first (by omega : s.length + 1 < fuel)
      simp only [strstr, run, Outcome.done_bind, length n count, if_neg (Nat.succ_ne_zero t.length), List.length_cons]
      rw [List.length_cons] at loop
      rw [loop, same.unique occurs]

/-- The `--a` in `---a`. -/
theorem strstr_finds_option : ∃ enough, ∀ fuel ≥ enough,
    strstr fuel (.only 0x1000 [0x2D, 0x2D, 0x2D, 0x61]) (.only 0x2000 [0x2D, 0x2D, 0x61]) 0x1000 0x2000 = .done (some 0x1001) () := by
  have first : (Text.only 0x1000 [0x2D, 0x2D, 0x2D, 0x61]).Holds 0x1000 [0x2D, 0x2D, 0x2D, 0x61] := Text.only_holds _ (by decide)
  have second : (Text.only 0x2000 [0x2D, 0x2D, 0x61]).Holds 0x2000 [0x2D, 0x2D, 0x61] := Text.only_holds _ (by decide)
  obtain ⟨found, occurs, runs⟩ := strstr_finds first second (by decide)
  have place : found = some 1 := (occurs.least 1).mpr (by decide)
  subst place
  exact runs

end BarrelOS.Lib
