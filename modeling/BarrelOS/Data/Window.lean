import Mathlib.Algebra.Group.Nat.Defs
import Mathlib.Tactic.ByContra

namespace BarrelOS.Data

/-! Searching a predicate on the naturals for the first window of consecutive
positions that satisfy it, by a scan that restarts behind every failed window. -/

variable {free : Nat → Prop} {start count position run blocked : Nat}

/-- The `count` positions from `start` on are free. -/
def Window (free : Nat → Prop) (start count : Nat) : Prop :=
  ∀ offset < count, free (start + offset)

theorem Window.nil : Window free start 0 := fun _ impossible => absurd impossible (Nat.not_lt_zero _)

theorem Window.grow (window : Window free start run) (next : free (start + run)) :
    Window free start (run + 1) := by
  intro offset bound
  rcases Nat.lt_succ_iff_lt_or_eq.mp bound with earlier | rfl
  · exact window offset earlier
  · exact next

theorem Window.not_of_blocked (occupied : ¬ free blocked)
    (lower : start ≤ blocked) (upper : blocked < start + count) : ¬ Window free start count := by
  intro window
  have inside := window (blocked - start) (by omega)
  rw [Nat.add_sub_cancel' lower] at inside
  exact occupied inside

/-- `position` starts the first free window at or behind `start`. -/
structure FirstWindow (free : Nat → Prop) (start count position : Nat) : Prop where
  from_start : start ≤ position
  window : Window free position count
  earliest : ∀ earlier, start ≤ earlier → earlier < position → ¬ Window free earlier count

theorem FirstWindow.le {other : Nat} (first : FirstWindow free start count position)
    (reached : start ≤ other) (window : Window free other count) : position ≤ other := by
  by_contra later
  exact first.earliest other reached (by omega) window

theorem FirstWindow.unique {other : Nat} (first : FirstWindow free start count position)
    (second : FirstWindow free start count other) : position = other :=
  Nat.le_antisymm (first.le second.from_start second.window)
    (second.le first.from_start first.window)

/-- How far a scan moves from a window that failed after `run` free positions. -/
def stride (run : Nat) : Nat := if run = 0 then 1 else run

theorem stride_pos (run : Nat) : 0 < stride run := by
  unfold stride
  split <;> omega

/-- What a scan for `count` positions knows at `position` with `run` free
positions behind it. Every position the scan stands on, apart from its start,
lies on a blocked position or right behind one. -/
structure Scan (free : Nat → Prop) (start count position run : Nat) : Prop where
  from_start : start ≤ position
  unfinished : run < count
  window : Window free position run
  rejected : ∀ earlier, start ≤ earlier → earlier < position → ¬ Window free earlier count
  boundary : start < position → ¬ free (position - 1) ∨ ¬ free position

namespace Scan

theorem initial (positive : 0 < count) : Scan free start count start 0 where
  from_start := Nat.le_refl _
  unfinished := positive
  window := Window.nil
  rejected := fun _ lower upper => absurd lower (by omega)
  boundary := fun impossible => absurd impossible (Nat.lt_irrefl _)

theorem grow (scan : Scan free start count position run) (next : free (position + run))
    (unfinished : run + 1 < count) : Scan free start count position (run + 1) where
  from_start := scan.from_start
  unfinished
  window := scan.window.grow next
  rejected := scan.rejected
  boundary := scan.boundary

theorem skip (scan : Scan free start count position run) (occupied : ¬ free (position + run)) :
    Scan free start count (position + stride run) 0 where
  from_start := Nat.le_add_right_of_le scan.from_start
  unfinished := Nat.zero_lt_of_lt scan.unfinished
  window := Window.nil
  rejected := by
    intro earlier lower upper
    by_cases before : earlier < position
    · exact scan.rejected earlier lower before
    · have unfinished := scan.unfinished
      have stepped : stride run ≤ run + 1 := by unfold stride; split <;> omega
      refine Window.not_of_blocked occupied ?_ (by omega)
      unfold stride at upper
      split at upper <;> omega
  boundary := by
    intro _
    by_cases none : run = 0
    · left
      simpa [stride, none] using occupied
    · right
      simpa [stride, none] using occupied

theorem found (scan : Scan free start count position run) (next : free (position + run))
    (finished : run + 1 = count) : FirstWindow free start count position where
  from_start := scan.from_start
  window := finished ▸ scan.window.grow next
  earliest := scan.rejected

theorem le_window {other : Nat} (scan : Scan free start count position run)
    (reached : start ≤ other) (window : Window free other count) : position ≤ other := by
  by_contra passed
  exact scan.rejected other reached (by omega) window

/-- A scan below a limit that is blocked, or lies right behind a blocked
position, does not step over it. -/
theorem stride_le_limit {limit : Nat} (scan : Scan free start count position run)
    (below : position < limit) (stop : ¬ free (limit - 1) ∨ ¬ free limit) :
    position + run ≤ limit ∧ position + stride run ≤ limit := by
  have reach : position + run ≤ limit := by
    by_contra beyond
    rcases stop with stop | stop
    · exact Window.not_of_blocked stop (by omega) (by omega) scan.window
    · exact Window.not_of_blocked stop (by omega) (by omega) scan.window
  refine ⟨reach, ?_⟩
  unfold stride
  split <;> omega

end Scan

end BarrelOS.Data
