import BarrelOS.Lib.Libc
import BarrelOS.Semantics.Sink
import Mathlib.Data.Stream.Defs

namespace BarrelOS.Lib

open BarrelOS.Data BarrelOS.Semantics

/-! `parse_num`, `parse_hex` and `parse_string`, which write to `s` with `*ptr` as its index -/

section

variable {State : Type} (sink : Sink State UInt8)

/-- `while (count-- > low) s[(*ptr)++] = pad`. -/
def paddingLoop (low : Int) (pad : UInt8) : Nat → Int → State → Outcome State Unit
  | 0, _, state => .running state
  | fuel + 1, count, state =>
      if count = -2 ^ 31 then .faulted state
      else if count > low then (sink.put pad state).bind fun _ state => paddingLoop low pad fuel (count - 1) state
      else .done () state

/-- `while (val) { buf[i++] = ..; val /= base; }`, with what is in `buf`. -/
def bufLoop (base : Nat) : Nat → List UInt8 → Nat → State → Outcome State (List UInt8)
  | 0, _, _, state => .running state
  | fuel + 1, buf, val, state =>
      if val = 0 then .done buf state
      else if buf.length < 32 then
        let digit := if val % base < 10 then val % base + 48 else val % base - 10 + 65
        bufLoop base fuel (buf ++ [UInt8.ofNat digit]) (val / base) state
      else .faulted state

/-- `while (i > 0) s[(*ptr)++] = buf[--i]`. -/
def replayLoop (buf : List UInt8) : Nat → State → Outcome State Unit
  | 0, state => .done () state
  | i + 1, state =>
      (Outcome.ofOption buf[i]? state).bind fun c state => (sink.put c state).bind fun _ state => replayLoop buf i state

def parseNum (fuel val base : Nat) (width : Int) (zeroPadding : Bool) (state : State) : Outcome State Unit :=
  let pad := if zeroPadding then '0'.toUInt8 else ' '.toUInt8
  if val = 0 then (paddingLoop sink 1 pad fuel width state).bind fun _ state => sink.put '0'.toUInt8 state
  else
    (bufLoop base fuel [] val state).bind fun buf state =>
      if width - buf.length < -2 ^ 31 then .faulted state
      else (paddingLoop sink 0 pad fuel (width - buf.length) state).bind fun _ state => replayLoop sink buf buf.length state

/-- `while (i-- > 0) s[(*ptr)++] = "0123456789abcdef"[val >> (i * 4) & 0x0F]`. -/
def hexLoop (val : Nat) : Nat → State → Outcome State Unit
  | 0, state => .done () state
  | i + 1, state =>
      let digit := val >>> (i * 4) &&& 0x0F
      (sink.put (UInt8.ofNat (if digit < 10 then digit + 48 else digit - 10 + 97)) state).bind fun _ state => hexLoop val i state

def parseHex (val : Nat) (state : State) : Outcome State Unit := hexLoop sink val 8 state

/-- `while (*str) s[(*ptr)++] = *str++`. -/
def stringLoop (memory : Bytes) : Nat → Nat → State → Outcome State Unit
  | 0, _, state => .running state
  | fuel + 1, str, state =>
      if memory.load8 str ≠ 0 then
        (sink.put (UInt8.ofNat (memory.load8 str)) state).bind fun _ state => stringLoop memory fuel (str + 1) state
      else .done () state

def nullText : List UInt8 := "(null)".toList.map Char.toUInt8

/-- For `NULL` six bytes are copied before `*ptr` grows by as many. -/
def parseString (fuel : Nat) (memory : Bytes) (str : Nat) (state : State) : Outcome State Unit :=
  if str = 0 then
    if sink.index state + 6 < sink.limit then .done () (sink.write nullText state) else .faulted (sink.write nullText state)
  else stringLoop sink memory fuel str state

end

/-! `sprintf` -/

/-- Where `sprintf` is: at a byte of the format, with the words on the stack that `va_arg` has
not read yet and the bytes written at `s`, of which the `int` `ptr` is the number. -/
structure Formatting where
  fmt : Nat
  args : Stream' UInt32
  written : List UInt8

namespace Formatting

def sink : Sink Formatting UInt8 where
  index := fun state => state.written.length
  limit := 2 ^ 31
  store := fun char state => { state with written := state.written ++ [char] }
  index_store := fun _ state => by simp

def skip (n : Nat) (state : Formatting) : Formatting := { state with fmt := state.fmt + n }

/-- The state behind a `va_arg`, which has read the word at its head. -/
def vaArg (state : Formatting) : Formatting := { state with args := state.args.tail }

end Formatting

/-- `width * 10 + (*fmt - '0')`. -/
def widthStep (width : Int) (char : Nat) : Option Int := do
  let width ← checkInt (width * 10)
  checkInt (width + (char - '0'.toNat))

/-- `while (*fmt >= '0' && *fmt <= '9') { width = width * 10 + (*fmt - '0'); fmt++; }`. -/
def widthLoop (memory : Bytes) : Nat → Int → Formatting → Outcome Formatting Int
  | 0, _, state => .running state
  | fuel + 1, width, state =>
      if isDigit (memory.load8 state.fmt) then
        (Outcome.ofOption (widthStep width (memory.load8 state.fmt)) state).bind fun width state =>
          widthLoop memory fuel width (state.skip 1)
      else .done width state

/-- The `switch` of `sprintf`; other letters write nothing. -/
def directive (fuel : Nat) (memory : Bytes) (width : Int) (zeroPadding : Bool) (state : Formatting) :
    Outcome Formatting Unit :=
  let char := memory.load8 state.fmt
  let word := state.args.head
  if char = 'd'.toNat then parseNum Formatting.sink fuel word.toNat 10 width zeroPadding state.vaArg
  else if char = 'x'.toNat then parseHex Formatting.sink word.toNat state.vaArg
  else if char = 's'.toNat then parseString Formatting.sink fuel memory word.toNat state.vaArg
  else if char = 'c'.toNat then Formatting.sink.put word.toUInt8 state.vaArg
  else .done () state

/-- One turn of the loop of `sprintf`, up to the `fmt++` at its end. -/
def sprintfTurn (fuel : Nat) (memory : Bytes) (state : Formatting) : Outcome Formatting Unit :=
  let char := memory.load8 state.fmt
  if char = '%'.toNat then
    let state := state.skip 1
    let zeroPadding := memory.load8 state.fmt = '0'.toNat
    (widthLoop memory fuel 0 (if zeroPadding then state.skip 1 else state)).bind fun width state =>
      directive fuel memory width zeroPadding state
  else Formatting.sink.put (UInt8.ofNat char) state

def sprintfLoop (memory : Bytes) : Nat → Formatting → Outcome Formatting Unit
  | 0, state => .running state
  | fuel + 1, state =>
      if memory.load8 state.fmt ≠ 0 then
        (sprintfTurn fuel memory state).bind fun _ state => sprintfLoop memory fuel (state.skip 1)
      else .done () state

/-- The bytes written at `s` in the order of their places, whose number is returned. -/
def sprintf (fuel : Nat) (memory : Bytes) (fmt : Nat) (args : Stream' UInt32) : Outcome Formatting Nat :=
  (sprintfLoop memory fuel ⟨fmt, args, []⟩).bind fun _ state => .done state.written.length state

/-! `vprintf` and `printf` -/

inductive BackEnd where
  | consoleWrite
  | vgaPuts
  | serialPuts
deriving DecidableEq, Repr

structure Output where
  auxOutput : Bool
  useFramebuffer : Bool

/-- What is returned, and the strings handed to the back ends, as memory from `buf` on. -/
structure Printed where
  ret : Nat
  calls : List (BackEnd × Bytes)

/-- `char buf[1024] = {-1}`, which sets the first byte to 0xFF and the others to
zero, and what lies behind it on the stack. -/
def initialBuf (stack : Bytes) : Bytes := fun i => if i = 0 then 0xFF else if i < 1024 then 0 else stack i

def fillBuf (written : List UInt8) (buf : Bytes) : Bytes := fun i => written[i]?.getD (buf i)

def Output.backEnds (output : Output) : List BackEnd :=
  (if output.useFramebuffer then .consoleWrite else .vgaPuts) :: if output.auxOutput then [.serialPuts] else []

/-- The common body of `vprintf` and `printf`, between `va_start` and `va_end` in the latter. -/
def formatAndShow (fuel : Nat) (memory stack : Bytes) (output : Output) (fmt : Nat) (args : Stream' UInt32) :
    Outcome Formatting Printed :=
  (sprintf fuel memory fmt args).bind fun ret state =>
    let buf := fillBuf state.written (initialBuf stack)
    .done ⟨ret, output.backEnds.map fun backEnd => (backEnd, buf)⟩ state

def vprintf := formatAndShow

def printf := formatAndShow

/-! What a format asks for -/

/-- The number that digits denote behind others. -/
def valueFrom (start : Nat) (digits : List UInt8) : Nat :=
  digits.foldl (fun value digit => value * 10 + (digit.toNat - '0'.toNat)) start

def value (digits : List UInt8) : Nat := valueFrom 0 digits

/-- A piece of a format: a byte that stands for itself, or a directive. -/
inductive Piece where
  | literal (char : UInt8)
  | directive (zeroPadding : Bool) (digits : List UInt8) (letter : UInt8)
deriving DecidableEq

namespace Piece

def bytes : Piece → List UInt8
  | literal char => [char]
  | directive zeroPadding digits letter =>
      '%'.toUInt8 :: (if zeroPadding then ['0'.toUInt8] else []) ++ digits ++ [letter]

/-- A zero in front of the width is the flag. -/
def WellFormed : Piece → Prop
  | literal char => char ≠ '%'.toUInt8
  | directive zeroPadding digits letter => (∀ digit ∈ digits, isDigit digit.toNat) ∧ ¬ isDigit letter.toNat ∧
      (zeroPadding = false → digits.head? ≠ some '0'.toUInt8)

instance : DecidablePred WellFormed
  | literal _ => inferInstanceAs (Decidable (_ ≠ _))
  | directive _ digits _ =>
      @instDecidableAnd _ _ (List.decidableBAll _ digits) (@instDecidableAnd _ _ inferInstance instDecidableForall)

/-- The width of a directive is an `int`. -/
def WidthFits : Piece → Prop
  | literal _ => True
  | directive _ digits _ => value digits < 2 ^ 31

instance : DecidablePred WidthFits
  | literal _ => inferInstanceAs (Decidable True)
  | directive _ digits _ => inferInstanceAs (Decidable (value digits < _))

end Piece

end BarrelOS.Lib
