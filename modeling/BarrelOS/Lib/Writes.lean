import BarrelOS.Data.Numeral
import BarrelOS.Lib.Printf

namespace BarrelOS.Lib

open BarrelOS.Data BarrelOS.Semantics

/-! What `parse_num`, `parse_hex` and `parse_string` write -/

def padding (count : Int) (zeroPadding : Bool) : List UInt8 :=
  List.replicate count.toNat (if zeroPadding then '0'.toUInt8 else ' '.toUInt8)

/-- The digits of a number, padded to a width. -/
def numberText (base val : Nat) (width : Int) (zeroPadding : Bool) : List UInt8 :=
  padding (width - digitCount base val) zeroPadding ++ numeral base val

def hexDigit (val i : Nat) : UInt8 :=
  let digit := val >>> (i * 4) &&& 0x0F
  UInt8.ofNat (if digit < 10 then digit + 48 else digit - 10 + 97)

def hexText (val : Nat) : List UInt8 := (List.range 8).reverse.map (hexDigit val)

variable {State : Type} {sink : Sink State UInt8} {state : State} {memory : Bytes} {buf chars : List UInt8} {c pad : UInt8}
  {low count width : Int} {zeroPadding : Bool} {base val fuel n i str : Nat}

/-- A loop that writes one byte in each turn. -/
theorem emits_cons {call : Nat → Outcome State Unit} {next : Nat → State → Outcome State Unit} {text : List UInt8}
    (none : call 0 = .running state) (turn : ∀ fuel, call (fuel + 1) = (sink.put c state).bind fun _ state => next fuel state)
    (rest : sink.index (sink.store c state) < sink.limit →
      sink.Emits (fun fuel => next fuel (sink.store c state)) (sink.store c state) text) :
    sink.Emits call state (c :: text) := by
  have later : sink.Emits (fun fuel => (sink.put c state).bind fun _ state => next fuel state) state ([c] ++ text) :=
    Sink.Emits.bind .put rest
  refine .delay (fun fuel spent => ?_) turn later
  rw [Nat.lt_one_iff.mp spent]
  exact none

theorem paddingLoop_emits (least : -2 ^ 31 < low) (above : -2 ^ 31 < count) (int : sink.index state < sink.limit) :
    sink.Emits (fun fuel => paddingLoop sink low pad fuel count state) state (List.replicate (count - low).toNat pad) := by
  obtain ⟨k, left⟩ : ∃ k, (count - low).toNat = k := ⟨_, rfl⟩
  rw [left]
  induction k generalizing count state with
  | zero =>
      refine .delay (n := 1) (fun fuel spent => ?_) (fun fuel => ?_) (.nil int)
      · rw [Nat.lt_one_iff.mp spent]
        rfl
      · simp only [paddingLoop, if_neg (show count ≠ -2 ^ 31 by omega), if_neg (show ¬ count > low by omega)]
  | succ k ih =>
      have turn : ∀ fuel, paddingLoop sink low pad (fuel + 1) count state =
          (sink.put pad state).bind fun _ state => paddingLoop sink low pad fuel (count - 1) state := fun fuel => by
        rw [paddingLoop, if_neg (show count ≠ -2 ^ 31 by omega), if_pos (show count > low by omega)]
      exact emits_cons rfl turn fun inside => ih (by omega) inside (by omega)

/-- The scratch buffer takes the digits of a number, the lowest first, one in each turn. -/
theorem bufLoop_digits (large : 1 < base) (length : (Nat.digits base val).length = n) (room : buf.length + n ≤ 32) :
    (∀ fuel ≤ n, bufLoop base fuel buf val state = .running state) ∧
      ∀ fuel, bufLoop base (fuel + (n + 1)) buf val state = .done (buf ++ (Nat.digits base val).map digitByte) state := by
  induction n generalizing buf val with
  | zero =>
      have none : Nat.digits base val = [] := List.length_eq_zero_iff.mp length
      have zero : val = 0 := Nat.digits_eq_nil_iff_eq_zero.mp none
      refine ⟨fun fuel spent => ?_, fun fuel => ?_⟩
      · rw [Nat.le_zero.mp spent]
        rfl
      · rw [bufLoop, if_pos zero, none, List.map_nil, List.append_nil]
  | succ n ih =>
      have nonzero : val ≠ 0 := fun zero => by
        rw [zero, Nat.digits_zero] at length
        cases length
      have digits := Nat.digits_eq_cons_digits_div large nonzero
      rw [digits, List.length_cons] at length
      have behind : (buf ++ [digitByte (val % base)]).length + n ≤ 32 := by
        rw [List.length_append, List.length_singleton]
        omega
      have turn : ∀ fuel, bufLoop base (fuel + 1) buf val state =
          bufLoop base fuel (buf ++ [digitByte (val % base)]) (val / base) state := fun fuel => by
        rw [bufLoop, if_neg nonzero, if_pos (by omega)]
        rfl
      obtain ⟨early, late⟩ := ih (Nat.succ.inj length) behind
      refine ⟨fun fuel spent => ?_, fun fuel => ?_⟩
      · cases fuel with
        | zero => rfl
        | succ fuel => rw [turn, early fuel (Nat.le_of_succ_le_succ spent)]
      · rw [← Nat.add_assoc, turn, late, digits, List.map_cons, List.append_assoc]
        rfl

theorem replayLoop_emits (inside : i ≤ buf.length) (int : sink.index state < sink.limit) :
    sink.Emits (fun _ => replayLoop sink buf i state) state (buf.take i).reverse := by
  induction i generalizing state with
  | zero => exact .nil int
  | succ i ih =>
      have here : buf[i]? = some buf[i] := List.getElem?_eq_getElem inside
      have last : (buf.take (i + 1)).reverse = [buf[i]] ++ (buf.take i).reverse := by
        rw [List.take_add_one, here, List.reverse_append]
        rfl
      rw [last]
      simp only [replayLoop, here, Outcome.ofOption, Outcome.done_bind]
      exact Sink.Emits.bind .put fun room => ih (Nat.le_of_succ_le inside) room

theorem digits_length_le (large : 1 < base) (word : val < 2 ^ 32) : (Nat.digits base val).length ≤ 32 := by
  have power : 2 ^ 32 ≤ base ^ 32 := Nat.pow_le_pow_left large 32
  exact (Nat.digits_length_le_iff large val).mpr (Nat.lt_of_lt_of_le word power)

theorem parseNum_emits (large : 1 < base) (few : (Nat.digits base val).length ≤ 32)
    (above : -2 ^ 31 + (Nat.digits base val).length < width) (int : sink.index state < sink.limit) :
    sink.Emits (fun fuel => parseNum sink fuel val base width zeroPadding state) state
      (numberText base val width zeroPadding) := by
  by_cases zero : val = 0
  · rw [zero, Nat.digits_zero] at above
    have one : digitCount base 0 = 1 := by rw [digitCount, Nat.digits_zero]; rfl
    rw [zero, numberText, numeral, if_pos rfl, one]
    simp only [parseNum, if_pos]
    exact Sink.Emits.bind (paddingLoop_emits (by decide) above int) fun _ => .put
  · have some_digit : 0 < (Nat.digits base val).length := List.length_pos_iff.mpr (Nat.digits_ne_nil_iff_ne_zero.mpr zero)
    have count : (digitCount base val : Int) = (Nat.digits base val).length := by
      rw [digitCount]
      omega
    have length : ((Nat.digits base val).map digitByte).length = (Nat.digits base val).length := List.length_map digitByte
    obtain ⟨early, late⟩ := @bufLoop_digits State state [] base val _ large rfl (by rwa [List.length_nil, Nat.zero_add])
    have padded : sink.Emits _ state _ := @paddingLoop_emits State sink state (if zeroPadding then '0'.toUInt8 else ' '.toUInt8) 0
      (width - (Nat.digits base val).length) (by decide) (by omega) int
    have writes := Sink.Emits.bind (padded.shift (n := (Nat.digits base val).length + 1)) fun inside =>
      replayLoop_emits (Nat.le_of_eq length.symm) inside
    rw [Int.sub_zero, List.take_of_length_le (Nat.le_of_eq length)] at writes
    rw [numberText, numeral, if_neg zero, count]
    refine .delay (n := (Nat.digits base val).length + 1) (fun fuel spent => ?_) (fun fuel => ?_) writes
    · simp only [parseNum, if_neg zero, early fuel (Nat.le_of_lt_succ spent)]
      rfl
    · simp only [parseNum, if_neg zero, late, List.nil_append, Outcome.done_bind, List.length_map,
        if_neg (show ¬ width - ((Nat.digits base val).length : Int) < -2 ^ 31 by omega)]

/-- The count of the padding is no `int`. -/
theorem parseNum_halts (large : 1 < base) (few : (Nat.digits base val).length ≤ 32) (least : -2 ^ 31 ≤ width)
    (below : width ≤ -2 ^ 31 + (Nat.digits base val).length) {after : State} :
    parseNum sink fuel val base width zeroPadding state ≠ .done () after := by
  have stops : ∀ {low pad state last}, paddingLoop sink low pad fuel (-2 ^ 31) state ≠ .done () last := by
    intro low pad state last run
    cases fuel with
    | zero => cases run
    | succ fuel =>
        rw [paddingLoop, if_pos rfl] at run
        cases run
  intro run
  rw [parseNum] at run
  split at run
  · rename_i zero
    rw [zero, Nat.digits_zero] at below
    obtain ⟨_, _, padded, _⟩ := Outcome.bind_done.mp run
    rw [Int.le_antisymm below least] at padded
    exact stops padded
  · obtain ⟨early, late⟩ := @bufLoop_digits State state [] base val _ large rfl (by rwa [List.length_nil, Nat.zero_add])
    by_cases spent : fuel ≤ (Nat.digits base val).length
    · rw [early fuel spent] at run
      cases run
    · have filled := late (fuel - ((Nat.digits base val).length + 1))
      rw [Nat.sub_add_cancel (Nat.lt_of_not_le spent)] at filled
      rw [filled, Outcome.done_bind, List.nil_append, List.length_map] at run
      split at run
      · cases run
      · rename_i int
        obtain ⟨_, _, padded, _⟩ := Outcome.bind_done.mp run
        rw [show width - (Nat.digits base val).length = -2 ^ 31 by omega] at padded
        exact stops padded

theorem hexLoop_emits (int : sink.index state < sink.limit) :
    sink.Emits (fun _ => hexLoop sink val i state) state ((List.range i).reverse.map (hexDigit val)) := by
  induction i generalizing state with
  | zero => exact .nil int
  | succ i ih =>
      rw [List.range_succ, List.reverse_append]
      exact Sink.Emits.bind .put fun room => ih room

theorem stringLoop_emits (string : memory.HoldsString str chars) (int : sink.index state < sink.limit) :
    sink.Emits (fun fuel => stringLoop sink memory fuel str state) state chars := by
  induction chars generalizing str state with
  | nil =>
      refine .delay (n := 1) (fun fuel spent => ?_) (fun fuel => ?_) (.nil int)
      · rw [Nat.lt_one_iff.mp spent]
        rfl
      · rw [stringLoop, if_neg (not_not.mpr string.nil)]
  | cons char chars ih =>
      refine emits_cons rfl (fun fuel => ?_) fun inside => ih string.tail inside
      rw [stringLoop, if_pos string.head.2, string.head.1, UInt8.ofNat_toNat]

theorem parseString_null : sink.Emits (fun fuel => parseString sink fuel memory 0 state) state nullText where
  returns := fun room => ⟨0, fun _ _ => if_pos room⟩
  stops := fun full => ⟨0, fun _ _ => ⟨nullText, List.prefix_refl _, by omega, if_neg (Int.not_lt.mpr full)⟩⟩
  part := by
    intro fuel
    by_cases room : sink.index state + 6 < sink.limit
    · exact .inl ⟨room, if_pos room⟩
    · exact .inr ⟨nullText, List.prefix_refl _, .inr (if_neg room)⟩

end BarrelOS.Lib
