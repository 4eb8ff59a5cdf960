import BarrelOS.Sched.Acknowledge

namespace BarrelOS.Sched

/-- Where a call of `pit_sleep` is: before `start_ticks` is read, in its loop with
`end_ticks`, or behind it. -/
inductive Sleep where
  | called (ms : Nat)
  | waiting (endTicks : Nat)
  | returned
deriving DecidableEq

/-- What `pit_sleep` does up to and with its next read of `pit_ticks`. -/
def Sleep.read (pitTicks : Nat) : Sleep → Sleep
  | .called ms => .waiting ((pitTicks + ms * 10 % 2 ^ 32) % 2 ^ 32)
  | .waiting endTicks => if pitTicks < endTicks then .waiting endTicks else .returned
  | .returned => .returned

/-- An interleaving of `pit_sleep` with a number of timer interrupts. -/
inductive Sleeps (start : Machine) (ms : Nat) : Nat → Machine → Sleep → Prop
  | called : Sleeps start ms 0 start (.called ms)
  | interrupt {count : Nat} {machine : Machine} {sleep : Sleep} (sleeps : Sleeps start ms count machine sleep)
      (r : Registers) : Sleeps start ms (count + 1) (pitHandler r machine).2 sleep
  | read {count : Nat} {machine : Machine} {sleep : Sleep} (sleeps : Sleeps start ms count machine sleep) :
      Sleeps start ms count machine (sleep.read machine.pitTicks)

/-- However the timer interrupts `pit_sleep`, it returns after 10 of them for each millisecond. -/
def SleepsLong (start : Machine) (ms : Nat) : Prop :=
  ∀ count after, Sleeps start ms count after .returned → ms * 10 ≤ count

/-- The end of the sleep has been computed after `early` interrupts, without a wrap
unless the sleep was over by then. -/
def Sleep.OnTime (ticks ms count : Nat) : Sleep → Prop
  | .called again => again = ms
  | .waiting endTicks => ∃ early ≤ count, early < ms * 10 → endTicks = ticks + early + ms * 10 ∧ endTicks < 2 ^ 32
  | .returned => ms * 10 ≤ count

variable {ms count : Nat} {start machine after : Machine} {sleep : Sleep}

theorem Sleeps.ticks (sleeps : Sleeps start ms count after sleep) (word : start.pitTicks < 2 ^ 32) :
    after.pitTicks = (start.pitTicks + count) % 2 ^ 32 := by
  induction sleeps with
  | called => exact (Nat.mod_eq_of_lt word).symm
  | interrupt sleeps r ih =>
      change (_ + 1) % 2 ^ 32 = _
      rw [ih]
      omega
  | read _ ih => exact ih

theorem Sleeps.onTime (sleeps : Sleeps start ms count after sleep) (word : start.pitTicks < 2 ^ 32)
    (room : start.pitTicks + 20 * ms ≤ 2 ^ 32) : sleep.OnTime start.pitTicks ms count := by
  induction sleeps with
  | called => rfl
  | @interrupt count _ sleep _ _ ih =>
      cases sleep with
      | called again => exact ih
      | waiting endTicks =>
          obtain ⟨early, sooner, exact_end⟩ := ih
          exact ⟨early, Nat.le_succ_of_le sooner, exact_end⟩
      | returned => exact Nat.le_succ_of_le ih
  | @read count machine sleep sleeps ih =>
      have ticks := sleeps.ticks word
      cases sleep with
      | called again =>
          have same : again = ms := ih
          subst same
          refine ⟨count, Nat.le_refl _, fun early => ?_⟩
          rw [ticks]
          omega
      | waiting endTicks =>
          obtain ⟨early, sooner, exact_end⟩ := ih
          rw [Sleep.read]
          split
          · exact ⟨early, sooner, exact_end⟩
          · rename_i past
            change ms * 10 ≤ count
            rw [ticks] at past
            omega
      | returned => exact ih

theorem Sleeps.interrupts (start : Machine) (ms count : Nat) :
    ∃ machine, Sleeps start ms count machine (.called ms) := by
  induction count with
  | zero => exact ⟨start, .called⟩
  | succ count ih =>
      obtain ⟨machine, sleeps⟩ := ih
      exact ⟨_, sleeps.interrupt (frameOf 32)⟩

/-- The sleep is long enough, however it is interrupted, exactly when the counter has
room for it twice: fewer interrupts than it takes may come before it is read. -/
theorem sleeps_long_iff (word : start.pitTicks < 2 ^ 32) (short : ms * 10 < 2 ^ 32) :
    SleepsLong start ms ↔ start.pitTicks + 20 * ms ≤ 2 ^ 32 := by
  constructor
  · intro long
    by_contra wraps
    obtain ⟨machine, sleeps⟩ := Sleeps.interrupts start ms (2 ^ 32 - ms * 10 - start.pitTicks)
    have ticks := sleeps.ticks word
    have passed : ¬ machine.pitTicks < (machine.pitTicks + ms * 10 % 2 ^ 32) % 2 ^ 32 := by omega
    have woken := sleeps.read.read
    rw [Sleep.read, Sleep.read, if_neg passed] at woken
    have early := long _ _ woken
    omega
  · intro room count after sleeps
    exact sleeps.onTime word room

theorem sleeps_long_calibration : SleepsLong (handledMachine true) 1 :=
  (sleeps_long_iff (by decide) (by decide)).mpr (by decide)

def oldMachine : Machine := { handledMachine true with pitTicks := 2 ^ 32 - 1 }

/-- A sleep of a millisecond that starts at the last tick returns at once. -/
theorem pitSleep_returns_at_once : Sleeps oldMachine 1 0 oldMachine .returned ∧ ¬ SleepsLong oldMachine 1 := by
  have woken : Sleeps oldMachine 1 0 oldMachine .returned := Sleeps.called.read.read
  exact ⟨woken, fun long => absurd (long 0 _ woken) (by decide)⟩

end BarrelOS.Sched
