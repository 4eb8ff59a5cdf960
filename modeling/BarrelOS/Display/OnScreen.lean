import BarrelOS.Display.BackEnds

namespace BarrelOS.Display

open BarrelOS.Data BarrelOS.Semantics BarrelOS.Lib

/-! What `vga.c` writes, event by event -/

/-- A character other than a tab, the end of a tab, and what a sequence does. -/
inductive Event where
  | put (c : UInt8)
  | settle
  | clear
  | home
  | select (code : Int)
deriving DecidableEq

def Vga.apply (vga : Vga) : Event → Vga
  | .put c => vga.put c
  | .settle => vga.wrap
  | .clear => vga.clear
  | .home => { vga with x := 0, y := 0 }.updateCursor
  | .select code => vga.select code

def Vga.play (vga : Vga) (log : List Event) : Vga := log.foldl Vga.apply vga

/-! `vga_puts` and `vga_putchar`, keeping a log of events instead of the screen -/

def traceEscape (fuel : Nat) (text : Text) (str : Nat) (log : List Event) : Outcome (List Event) (Bool × Nat) :=
  let str := str + 2
  (Outcome.ofOption (strncmp text (.only 0 ['2'.toUInt8, 'J'.toUInt8]) 2 str 0) log).bind fun diff log =>
    if diff = 0 then .done (true, str + 2) (log ++ [.clear])
    else (Outcome.ofOption (strncmp text (.only 0 ['H'.toUInt8]) 1 str 0) log).bind fun diff log =>
      if diff = 0 then .done (true, str + 1) (log ++ [.home])
      else (escapeCode fuel text str log).bind fun (code, str) log => .done (false, str) (log ++ [.select code])

mutual

def tracePuts : Nat → Text → Nat → List Event → Outcome (List Event) Nat
  | 0, _, _, log => .running log
  | fuel + 1, text, str, log =>
      (Outcome.ofOption (text str) log).bind fun char log =>
        if char ≠ 0 then
          (Outcome.ofOption (isEscape text str) log).bind fun escape log =>
            (if escape then traceEscape fuel text str log else .done (false, str) log).bind fun (continued, str) log =>
              if continued then tracePuts fuel text str log
              else (Outcome.ofOption (text str) log).bind fun char log =>
                (tracePutchar fuel char log).bind fun _ log => tracePuts fuel text (str + 1) log
        else .done str log

def tracePutchar : Nat → UInt8 → List Event → Outcome (List Event) Unit
  | 0, _, log => .running log
  | fuel + 1, c, log =>
      if c = '\t'.toUInt8 then
        (tracePuts fuel (.only 0 tabSpaces) 0 log).bind fun _ log => .done () (log ++ [.settle])
      else .done () (log ++ [.put c])

end

/-- A call from outside; a string lies in any memory. -/
inductive Call where
  | putchar (c : UInt8)
  | puts (text : Text) (str : Nat)

def vgaCalls (fuel : Nat) : List Call → Vga → Outcome Vga Unit
  | [], vga => .done () vga
  | .putchar c :: rest, vga => (vgaPutchar fuel c vga).bind fun _ vga => vgaCalls fuel rest vga
  | .puts text str :: rest, vga => (vgaPuts fuel text str vga).bind fun _ vga => vgaCalls fuel rest vga

def traceCalls (fuel : Nat) : List Call → List Event → Outcome (List Event) Unit
  | [], log => .done () log
  | .putchar c :: rest, log => (tracePutchar fuel c log).bind fun _ log => traceCalls fuel rest log
  | .puts text str :: rest, log => (tracePuts fuel text str log).bind fun _ log => traceCalls fuel rest log

variable {State Whole : Type} {text : Text} {fuel str : Nat} {c : UInt8} {vga : Vga} {log : List Event} {calls : List Call}
  {buf : List UInt8} {state : State} {place : Nat} {event : Event} {cursor : Cursor}

/-! The log is what happens to the screen -/

theorem ofOption_within {Value : Type} (embed : State → Whole) (value : Option Value) :
    (Outcome.ofOption value state).within embed = .ofOption value (embed state) := by
  cases value <;> rfl

theorem paramLoop_within (embed : State → Whole) :
    (paramLoop text fuel str buf state).within embed = paramLoop text fuel str buf (embed state) := by
  induction fuel generalizing str buf state with
  | zero => rfl
  | succ fuel ih =>
      rw [paramLoop, paramLoop, ← ofOption_within]
      refine Outcome.within_bind (fun char after => ?_) _
      split
      · split
        · exact ih
        · rfl
      · rfl

theorem escapeCode_within (embed : State → Whole) :
    (escapeCode fuel text str state).within embed = escapeCode fuel text str (embed state) := by
  rw [escapeCode, escapeCode, ← paramLoop_within]
  refine Outcome.within_bind (fun end_of_loop after => ?_) _
  obtain ⟨buf, str⟩ := end_of_loop
  simp only [← ofOption_within]
  refine Outcome.within_bind (fun code after => ?_) _
  rfl

theorem play_append (vga : Vga) (log : List Event) (event : Event) : vga.play (log ++ [event]) = (vga.play log).apply event :=
  List.foldl_concat ..

theorem traceEscape_within (vga : Vga) (log : List Event) :
    (traceEscape fuel text str log).within vga.play = vgaEscape fuel text str (vga.play log) := by
  simp only [traceEscape, vgaEscape]
  rw [← ofOption_within]
  refine Outcome.within_bind (fun diff log => ?_) _
  split
  · exact congrArg (Outcome.done _) (play_append vga log .clear)
  · rw [← ofOption_within]
    refine Outcome.within_bind (fun diff log => ?_) _
    split
    · exact congrArg (Outcome.done _) (play_append vga log .home)
    · rw [← escapeCode_within]
      refine Outcome.within_bind (fun coded log => ?_) _
      exact congrArg (Outcome.done _) (play_append vga log (.select coded.1))

/-- The functions do to the screen what the log says. -/
theorem trace_within (vga : Vga) (fuel : Nat) :
    (∀ text str log, (tracePuts fuel text str log).within vga.play = vgaPuts fuel text str (vga.play log)) ∧
    ∀ c log, (tracePutchar fuel c log).within vga.play = vgaPutchar fuel c (vga.play log) := by
  induction fuel with
  | zero => exact ⟨fun _ _ _ => rfl, fun _ _ => rfl⟩
  | succ fuel ih =>
      obtain ⟨puts, putchar⟩ := ih
      refine ⟨fun text str log => ?_, fun c log => ?_⟩
      · rw [tracePuts, vgaPuts, ← ofOption_within]
        refine Outcome.within_bind (fun char log => ?_) _
        split
        · rw [← ofOption_within]
          refine Outcome.within_bind (fun escape log => ?_) _
          have parsed : (if escape then vgaEscape fuel text str (vga.play log) else .done (false, str) (vga.play log)) =
              (if escape then traceEscape fuel text str log else .done (false, str) log).within vga.play := by
            split
            · exact (traceEscape_within vga log).symm
            · rfl
          rw [parsed]
          refine Outcome.within_bind (fun parsed log => ?_) _
          obtain ⟨continued, str⟩ := parsed
          simp only
          split
          · exact puts text str log
          · rw [← ofOption_within]
            refine Outcome.within_bind (fun char log => ?_) _
            rw [← putchar]
            exact Outcome.within_bind (fun _ log => puts text (str + 1) log) _
        · rfl
      · by_cases tab : c = '\t'.toUInt8
        · have newline : ¬ c = '\n'.toUInt8 := by
            rw [tab]
            decide
          have erase : ¬ c = '\x08'.toUInt8 := by
            rw [tab]
            decide
          rw [tracePutchar, vgaPutchar, if_pos tab, if_neg newline, if_neg erase, if_pos tab, ← puts]
          cases tracePuts fuel (.only 0 tabSpaces) 0 log with
          | done _ after => exact congrArg (Outcome.done ()) (play_append vga after .settle)
          | _ => rfl
        · rw [tracePutchar, if_neg tab, vgaPutchar_put tab]
          exact congrArg (Outcome.done ()) (play_append vga log (.put c))

theorem traceCalls_within (vga : Vga) (calls : List Call) (log : List Event) :
    (traceCalls fuel calls log).within vga.play = vgaCalls fuel calls (vga.play log) := by
  induction calls generalizing log with
  | nil => rfl
  | cons call calls ih =>
      obtain ⟨puts, putchar⟩ := trace_within vga fuel
      cases call with
      | putchar c =>
          rw [traceCalls, vgaCalls, ← putchar]
          exact Outcome.within_bind (fun _ log => ih log) _
      | puts text str =>
          rw [traceCalls, vgaCalls, ← puts]
          exact Outcome.within_bind (fun _ log => ih log) _

/-! Where the events write -/

/-- `vga_putchar` before it scrolls. -/
def Vga.turnover (vga : Vga) : Vga := if vga.x ≥ 80 then { vga with x := 0, y := vga.y + 1 } else vga

def Vga.scrollPlaces (vga : Vga) : List Nat := if vga.turnover.y ≥ 25 then List.range (80 * 25) else []

/-- The indices of `vga_buffer` that an event writes to. -/
def Vga.places (vga : Vga) : Event → List Nat
  | .put c =>
      if c = '\n'.toUInt8 then vga.newline.scrollPlaces
      else if c = '\x08'.toUInt8 then vga.back.place :: vga.back.scrollPlaces
      else vga.place :: (vga.draw c).scrollPlaces
  | .settle => vga.scrollPlaces
  | .clear => List.range (80 * 25)
  | .home | .select _ => []

theorem wrap_eq (vga : Vga) :
    vga.wrap = Vga.updateCursor (if vga.turnover.y ≥ 25 then vga.turnover.scroll else vga.turnover) := rfl

theorem turnover_buffer (vga : Vga) : vga.turnover.buffer = vga.buffer := by
  unfold Vga.turnover
  split <;> rfl

theorem wrap_buffer (outside : place ∉ vga.scrollPlaces) : vga.wrap.buffer place = vga.buffer place := by
  rw [wrap_eq, ← turnover_buffer vga]
  rw [Vga.scrollPlaces] at outside
  split at outside
  · next low =>
      have beyond : ¬ place < 80 * 25 := mt List.mem_range.mpr outside
      have last : ¬ (80 * 24 ≤ place ∧ place < 80 * 24 + 80) := by omega
      have inside : ¬ place < 80 * 24 := by omega
      rw [if_pos low]
      simp only [Vga.updateCursor, Vga.scroll, fill_apply, if_neg last, shiftDown_apply, if_neg inside]
  · next high =>
      rw [if_neg high]
      rfl

theorem back_buffer (apart : place ≠ vga.back.place) : vga.back.buffer place = vga.buffer place := by
  have moved : (if vga.x = 0 then { vga with x := 79, y := vga.y - 1 } else { vga with x := vga.x - 1 }).buffer = vga.buffer := by
    split <;> rfl
  rw [← moved]
  exact Function.update_of_ne apart _ _

theorem apply_buffer (outside : place ∉ vga.places event) : (vga.apply event).buffer place = vga.buffer place := by
  cases event with
  | put c =>
      simp only [Vga.places] at outside
      simp only [Vga.apply, Vga.put]
      split at outside
      · next newline =>
          rw [if_pos newline, wrap_buffer outside]
          rfl
      · next visible =>
          rw [if_neg visible]
          split at outside
          · next erase =>
              obtain ⟨apart, unscrolled⟩ := not_or.mp (mt List.mem_cons.mpr outside)
              rw [if_pos erase, wrap_buffer unscrolled]
              exact back_buffer apart
          · next text =>
              obtain ⟨apart, unscrolled⟩ := not_or.mp (mt List.mem_cons.mpr outside)
              rw [if_neg text, wrap_buffer unscrolled]
              exact Function.update_of_ne apart _ _
  | settle => exact wrap_buffer outside
  | clear =>
      have beyond : ¬ (0 ≤ place ∧ place < 0 + 80 * 25) := fun inside => outside (List.mem_range.mpr (by omega))
      simp only [Vga.apply, Vga.clear, fill_apply, if_neg beyond]
  | home => rfl
  | select code =>
      simp only [Vga.apply, Vga.select]
      repeat' split
      all_goals rfl

/-! The cursor and the writes -/

def Vga.OnScreen (vga : Vga) : Prop := vga.x < 80 ∧ vga.y < 25

instance (vga : Vga) : Decidable vga.OnScreen := inferInstanceAs (Decidable (_ ∧ _))

/-- The cursor is on the screen before and after all events, and so are the cells they write to. -/
def Contained : List Event → Vga → Prop
  | [], vga => vga.OnScreen
  | event :: rest, vga => vga.OnScreen ∧ (∀ place ∈ vga.places event, place < 2000) ∧ Contained rest (vga.apply event)

/-- No backspace is executed at the origin. -/
def NeverBefore : List Event → Vga → Prop
  | [], _ => True
  | event :: rest, vga =>
      (event = .put '\x08'.toUInt8 → ¬ (vga.x = 0 ∧ vga.y = 0)) ∧ NeverBefore rest (vga.apply event)

theorem onScreen_iff : vga.OnScreen ↔ ∃ cursor, vga.At cursor := by
  constructor
  · intro inside
    exact ⟨⟨vga.x.toNat, vga.y.toNat, inside.1, inside.2⟩, rfl, rfl⟩
  · intro here
    obtain ⟨cursor, col, row⟩ := here
    have narrow : vga.x.toNat < 80 := col ▸ cursor.narrow
    have high : vga.y.toNat < 25 := row ▸ cursor.high
    exact ⟨narrow, high⟩

theorem scrollPlaces_lt : ∀ place ∈ vga.scrollPlaces, place < 2000 := by
  intro place written
  rw [Vga.scrollPlaces] at written
  split at written
  · exact List.mem_range.mp written
  · cases written

namespace Vga.At

theorem place_lt (here : vga.At cursor) : vga.place < 2000 := by
  have narrow := cursor.narrow
  have high := cursor.high
  rw [Vga.place, here.1, here.2]
  omega

theorem erases (here : vga.At cursor) (stays : ¬ (vga.x = 0 ∧ vga.y = 0)) : ¬ (cursor.col = 0 ∧ cursor.row = 0) := by
  intro first
  have x : vga.x = 0 := UInt8.toNat_inj.mp (here.1.trans first.1)
  have y : vga.y = 0 := UInt8.toNat_inj.mp (here.2.trans first.2)
  exact stays ⟨x, y⟩

theorem put_places (here : vga.At cursor) (stays : c = '\x08'.toUInt8 → ¬ (vga.x = 0 ∧ vga.y = 0)) :
    ∀ place ∈ vga.places (.put c), place < 2000 := by
  simp only [Vga.places]
  split
  · exact scrollPlaces_lt
  · split
    · next erase =>
        have erased := (here.back (here.erases (stays erase))).place_lt
        exact List.forall_mem_cons.mpr ⟨erased, scrollPlaces_lt⟩
    · exact List.forall_mem_cons.mpr ⟨here.place_lt, scrollPlaces_lt⟩

theorem puts (here : vga.At cursor) (stays : c = '\x08'.toUInt8 → ¬ (vga.x = 0 ∧ vga.y = 0)) :
    ∃ cursor, (vga.put c).At cursor := by
  by_cases tab : c = '\t'.toUInt8
  · have newline : ¬ c = '\n'.toUInt8 := by
      rw [tab]
      decide
    have erase : ¬ c = '\x08'.toUInt8 := by
      rw [tab]
      decide
    rw [Vga.put, if_neg newline, if_neg erase]
    exact ⟨_, here.draw⟩
  · exact ⟨_, here.put (fun erase => here.erases (stays erase)) tab 4⟩

theorem clear (here : vga.At cursor) : vga.clear.At cursor := by
  obtain ⟨col, row⟩ := here
  rw [Vga.clear]
  exact ⟨col, row⟩

theorem apply (here : vga.At cursor) (stays : event = .put '\x08'.toUInt8 → ¬ (vga.x = 0 ∧ vga.y = 0)) :
    (∀ place ∈ vga.places event, place < 2000) ∧ ∃ cursor, (vga.apply event).At cursor := by
  cases event with
  | put c =>
      have stays := fun erase : c = '\x08'.toUInt8 => stays (congrArg Event.put erase)
      exact ⟨here.put_places stays, here.puts stays⟩
  | settle => exact ⟨scrollPlaces_lt, _, here.wrap⟩
  | clear => exact ⟨fun _ => List.mem_range.mp, cursor, here.clear⟩
  | home => exact ⟨fun _ => nofun, ⟨0, 0, by decide, by decide⟩, rfl, rfl⟩
  | select code => exact ⟨fun _ => nofun, cursor, here.select code⟩

end Vga.At

/-- A backspace at the origin writes to the last column of row 255. -/
theorem back_origin (origin : vga.x = 0 ∧ vga.y = 0) : vga.back.place = 20479 := by
  rw [Vga.place, Vga.back, if_pos origin.1]
  change (vga.y - 1).toNat * 80 + 79 = 20479
  rw [origin.2]
  decide

theorem contained_iff (start : vga.OnScreen) : Contained log vga ↔ NeverBefore log vga := by
  induction log generalizing vga with
  | nil => exact iff_of_true start trivial
  | cons event log ih =>
      rw [Contained, NeverBefore, and_iff_right start]
      by_cases stays : event = .put '\x08'.toUInt8 → ¬ (vga.x = 0 ∧ vga.y = 0)
      · obtain ⟨cursor, here⟩ := onScreen_iff.mp start
        obtain ⟨places, after⟩ := here.apply stays
        rw [and_iff_right places, and_iff_right stays, ih (onScreen_iff.mpr after)]
      · refine iff_of_false (fun contained => stays fun erase origin => ?_) (fun never => stays never.1)
        have written : vga.back.place ∈ vga.places event := by
          rw [erase]
          exact List.mem_cons_self
        exact absurd (contained.1 _ written) (by rw [back_origin origin]; decide)

namespace Contained

theorem last (contained : Contained log vga) : (vga.play log).OnScreen := by
  induction log generalizing vga with
  | nil => exact contained
  | cons event log ih => exact ih contained.2.2

theorem outside (contained : Contained log vga) (beyond : 2000 ≤ place) : (vga.play log).buffer place = vga.buffer place := by
  induction log generalizing vga with
  | nil => rfl
  | cons event log ih =>
      obtain ⟨_, places, rest⟩ := contained
      have unwritten : place ∉ vga.places event := fun written => Nat.not_lt.mpr beyond (places place written)
      exact (ih rest).trans (apply_buffer unwritten)

end Contained

theorem vgaCalls_after (fuel : Nat) (calls : List Call) (vga : Vga) :
    (vgaCalls fuel calls vga).after = vga.play (traceCalls fuel calls []).after := by
  have played : (traceCalls fuel calls []).within vga.play = vgaCalls fuel calls vga := traceCalls_within vga calls []
  rw [← played, Outcome.within_after]

/-- After any part of the run the cursor is on the screen, and the run writes to cells on
the screen only. -/
structure StaysOnScreen (calls : List Call) (vga : Vga) : Prop where
  after : ∀ fuel, (vgaCalls fuel calls vga).after.OnScreen
  through : ∀ fuel, Contained (traceCalls fuel calls []).after vga

theorem StaysOnScreen.outside (stays : StaysOnScreen calls vga) (beyond : 2000 ≤ place) :
    (vgaCalls fuel calls vga).after.buffer place = vga.buffer place := by
  rw [vgaCalls_after]
  exact (stays.through fuel).outside beyond

/-- The cursor and the writes stay on the screen exactly in the runs without a backspace at the origin. -/
theorem vga_stays_iff (start : vga.OnScreen) :
    StaysOnScreen calls vga ↔ ∀ fuel, NeverBefore (traceCalls fuel calls []).after vga := by
  constructor
  · intro stays fuel
    exact (contained_iff start).mp (stays.through fuel)
  · intro never
    have contained := fun fuel => (contained_iff start).mpr (never fuel)
    refine ⟨fun fuel => ?_, contained⟩
    rw [vgaCalls_after]
    exact (contained fuel).last

theorem vga_stays_erasing : StaysOnScreen [.putchar 0x41, .putchar 0x08] greyVga := by
  refine (vga_stays_iff (by decide)).mpr fun fuel => ?_
  cases fuel with
  | zero => exact trivial
  | succ fuel => exact ⟨by decide, by decide, trivial⟩

/-- A backspace as the first character takes the cursor to row 254 and writes there. -/
theorem backspace_leaves_screen : ¬ StaysOnScreen [.putchar 0x08] greyVga := by
  intro stays
  have never := (contained_iff (by decide)).mp (stays.through 1)
  exact never.1 rfl ⟨rfl, rfl⟩

end BarrelOS.Display
