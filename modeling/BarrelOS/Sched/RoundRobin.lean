import BarrelOS.Data.Rotation
import BarrelOS.Sched.Contexts

namespace BarrelOS.Sched

open BarrelOS.Boot BarrelOS.Data BarrelOS.Memory BarrelOS.Semantics

/-- What a call of `sched_new_task` or `sched_schedule` does: it takes a block from
`kmalloc`, counts the quantum down, or switches to a task with its quantum. -/
inductive Turn where
  | created (block : Nat)
  | waited
  | switched (task quantum : Nat)
deriving DecidableEq

def created (turns : List Turn) : List Nat :=
  turns.filterMap fun | .created block => some block | _ => none

def dispatched (turns : List Turn) : List Nat :=
  turns.filterMap fun | .switched task _ => some task | _ => none

@[simp] theorem created_created (block : Nat) (turns : List Turn) :
    created (.created block :: turns) = block :: created turns := rfl

@[simp] theorem created_waited (turns : List Turn) : created (.waited :: turns) = created turns := rfl

@[simp] theorem created_switched (task quantum : Nat) (turns : List Turn) :
    created (.switched task quantum :: turns) = created turns := rfl

@[simp] theorem dispatched_created (block : Nat) (turns : List Turn) :
    dispatched (.created block :: turns) = dispatched turns := rfl

@[simp] theorem dispatched_waited (turns : List Turn) : dispatched (.waited :: turns) = dispatched turns := rfl

@[simp] theorem dispatched_switched (task quantum : Nat) (turns : List Turn) :
    dispatched (.switched task quantum :: turns) = task :: dispatched turns := rfl

inductive TakesTurn (schedIdle : Nat) (before : Machine) : Turn → Machine → Prop
  | newTask {fuel handler block returned : Nat} {kernel : Kernel} {after : Machine}
      (alloc : kmalloc fuel sizeofTask before.kernel = .done block kernel)
      (run : schedNewTask fuel schedIdle handler before = .done returned after) :
      TakesTurn schedIdle before (.created block) after
  | tick {r : Registers} (waiting : 0 < before.schedQuantum) :
      TakesTurn schedIdle before .waited (schedSchedule r before).2
  | switch {r : Registers} (expired : before.schedQuantum = 0) :
      TakesTurn schedIdle before
        (.switched (schedSchedule r before).2.currentTask (before.task (schedSchedule r before).2.currentTask).quantum)
        (schedSchedule r before).2

inductive Turns (schedIdle : Nat) : Machine → List Turn → Machine → Prop
  | none {machine : Machine} : Turns schedIdle machine [] machine
  | next {turn : Turn} {turns : List Turn} {before middle after : Machine}
      (takes : TakesTurn schedIdle before turn middle) (rest : Turns schedIdle middle turns after) :
      Turns schedIdle before (turn :: turns) after

/-- `sched_tasks` is a list of distinct tasks followed by `NULL`s. -/
structure TaskTable (machine : Machine) (tasks : List Nat) : Prop where
  distinct : tasks.Nodup
  present : 0 ∉ tasks
  started : tasks ≠ []
  fits : tasks.length ≤ 256
  entries : ∀ i < 256, machine.schedTasks i = tasks[i]?.getD 0

/-- Between two switches without one between them, the quantum of the first one's
task is the number of calls that do not switch. -/
def ExactQuanta (turns : List Turn) : Prop :=
  ∀ earlier middle later task quantum next left,
    turns = earlier ++ .switched task quantum :: (middle ++ .switched next left :: later) →
      dispatched middle = [] → middle.count .waited = quantum

/-- As many consecutive switches as there are tasks go to each of them once, in the
order of the table and from its end on to its start. -/
def RoundRobin (tasks : List Nat) (turns : List Turn) : Prop :=
  ∀ consecutive, consecutive <:+: dispatched turns → consecutive.length = tasks.length →
    tasks ~r consecutive ∧ ∀ task ∈ tasks, consecutive.count task = 1

variable {fuel schedIdle block returned quantum current : Nat} {r : Registers} {start before middle after machine : Machine}
  {tasks blocks : List Nat} {turn : Turn} {earlier turns later : List Turn}

/-! One call -/

namespace TaskTable

theorem congr (table : TaskTable before tasks) (same : after.schedTasks = before.schedTasks) :
    TaskTable after tasks :=
  ⟨table.distinct, table.present, table.started, table.fits, same ▸ table.entries⟩

theorem entry (table : TaskTable machine tasks) {i : Nat} (inside : i < tasks.length) :
    machine.schedTasks i = tasks[i] := by
  rw [table.entries i (Nat.lt_of_lt_of_le inside table.fits), List.getElem?_eq_getElem inside]
  rfl

theorem entry_ne_zero (table : TaskTable machine tasks) {i : Nat} (bound : i < 256) :
    machine.schedTasks i ≠ 0 ↔ i < tasks.length := by
  constructor
  · intro present
    by_contra outside
    rw [table.entries i bound, List.getElem?_eq_none (Nat.le_of_not_lt outside)] at present
    exact present rfl
  · intro inside null
    rw [table.entry inside] at null
    exact table.present (null ▸ List.getElem_mem inside)

theorem next (table : TaskTable machine tasks) :
    schedGetNextTask machine ∈ tasks ∧
      (machine.currentTask ∈ tasks → Follows tasks machine.currentTask (schedGetNextTask machine)) := by
  have positive : 0 < tasks.length := List.length_pos_iff.mpr table.started
  unfold schedGetNextTask
  split
  · rename_i i found
    obtain ⟨both, bound, _⟩ := List.find?_range_eq_some.mp found
    simp only [Bool.and_eq_true, beq_iff_eq, bne_iff_ne] at both
    have inside := (table.entry_ne_zero (Nat.succ_lt_succ (List.mem_range.mp bound))).mp both.2
    have here : i < tasks.length := Nat.lt_of_succ_lt inside
    rw [table.entry inside]
    refine ⟨List.getElem_mem inside, fun _ => ⟨i, ?_, ?_⟩⟩
    · rw [List.getElem?_eq_getElem here, ← table.entry here, both.1]
    · rw [Nat.mod_eq_of_lt inside, List.getElem?_eq_getElem inside]
  · rename_i missed
    rw [table.entry positive]
    refine ⟨List.getElem_mem positive, fun member => ?_⟩
    obtain ⟨k, inside, here⟩ := List.mem_iff_getElem.mp member
    have last : k + 1 = tasks.length := by
      by_contra earlier
      have following : k + 1 < tasks.length := by omega
      have searched : k < 255 := by have := table.fits; omega
      have unmatched := List.find?_range_eq_none.mp missed k searched
      simp only [Bool.not_eq_true', Bool.and_eq_false_iff, beq_eq_false_iff_ne, bne_eq_false_iff_eq] at unmatched
      rcases unmatched with elsewhere | null
      · exact elsewhere ((table.entry inside).trans here)
      · exact (table.entry_ne_zero (Nat.succ_lt_succ searched)).mpr following null
    refine ⟨k, ?_, ?_⟩
    · rw [List.getElem?_eq_getElem inside, here]
    · rw [last, Nat.mod_self, List.getElem?_eq_getElem positive]

/-- A free slot is the first one behind the tasks. -/
theorem free_slot (table : TaskTable machine tasks) {i : Nat} (bound : i < 256)
    (earlier : ∀ j < i, machine.schedTasks j ≠ 0) (free : machine.schedTasks i = 0) : i = tasks.length := by
  have outside : ¬ i < tasks.length := fun inside => (table.entry_ne_zero bound).mpr inside free
  by_contra other
  have hole : tasks.length < i := by omega
  have inside := (table.entry_ne_zero (by omega)).mp (earlier tasks.length hole)
  exact Nat.lt_irrefl _ inside

theorem append (table : TaskTable before tasks) (fresh : block ∉ tasks) (present : block ≠ 0)
    (room : tasks.length < 256) (placed : after.schedTasks = Function.update before.schedTasks tasks.length block) :
    TaskTable after (tasks ++ [block]) where
  distinct := List.nodup_append.mpr ⟨table.distinct, List.nodup_singleton block, by
    intro task member other last
    rw [List.mem_singleton.mp last]
    exact fun same => fresh (same ▸ member)⟩
  present := by
    rw [List.mem_append, List.mem_singleton, not_or]
    exact ⟨table.present, present.symm⟩
  started := List.append_ne_nil_of_left_ne_nil table.started _
  fits := by
    rw [List.length_append, List.length_singleton]
    exact room
  entries := by
    intro i bound
    rw [placed, Function.update_apply, table.entries i bound]
    rcases Nat.lt_trichotomy i tasks.length with inside | rfl | outside
    · rw [if_neg (by omega), List.getElem?_append_left inside]
    · rw [if_pos rfl, List.getElem?_concat_length]
      rfl
    · have longer : (tasks ++ [block]).length ≤ i := by
        rw [List.length_append, List.length_singleton]
        exact outside
      rw [if_neg (by omega), List.getElem?_eq_none (by omega), List.getElem?_eq_none longer]

/-- The blocks that `kmalloc` returned enter the table in their order, as long as there is room. -/
theorem place {handler : Nat} (table : TaskTable before (blocks.take 256)) (fresh : block ∉ blocks)
    (created : NewTask fuel schedIdle handler block before returned after) :
    TaskTable after ((blocks ++ [block]).take 256) := by
  obtain ⟨_, _, _, alloc, _⟩ := created.memory
  rcases Nat.lt_or_ge blocks.length 256 with room | full
  · have longer : (blocks ++ [block]).length ≤ 256 := by
      rw [List.length_append, List.length_singleton]
      exact room
    rw [List.take_of_length_le longer]
    rw [List.take_of_length_le (Nat.le_of_lt room)] at table
    rcases created.placed with ⟨_, i, bound, earlier, free, placed⟩ | ⟨_, filled, _⟩
    · rw [table.free_slot bound earlier free] at placed
      exact table.append fresh (kmalloc_ne_zero alloc) room placed
    · exact absurd ((table.entry_ne_zero room).mp (filled _ room)) (Nat.lt_irrefl _)
  · have length : (blocks.take 256).length = 256 := List.length_take_of_le full
    rw [List.take_append_of_le_length full]
    rcases created.placed with ⟨_, i, bound, _, free, _⟩ | ⟨_, _, kept⟩
    · exact absurd free ((table.entry_ne_zero bound).mpr (length.symm ▸ bound))
    · exact table.congr kept

end TaskTable

theorem schedSchedule_tick (waiting : 0 < before.schedQuantum) :
    (schedSchedule r before).2.schedTasks = before.schedTasks ∧
      (schedSchedule r before).2.schedQuantum = before.schedQuantum - 1 ∧
      (schedSchedule r before).2.currentTask = before.currentTask := by
  rw [schedSchedule, if_pos waiting]
  exact ⟨rfl, rfl, rfl⟩

theorem schedSchedule_switch (expired : before.schedQuantum = 0) :
    (schedSchedule r before).2.schedTasks = before.schedTasks ∧
      (schedSchedule r before).2.schedQuantum = (before.task (schedSchedule r before).2.currentTask).quantum ∧
      (schedSchedule r before).2.currentTask = schedGetNextTask before := by
  rw [schedSchedule, if_neg (by omega)]
  exact ⟨rfl, rfl, rfl⟩

theorem TakesTurn.newTask_done (takes : TakesTurn schedIdle before (.created block) after) :
    ∃ fuel handler returned, NewTask fuel schedIdle handler block before returned after := by
  cases takes with
  | newTask alloc run => exact ⟨_, _, _, schedNewTask_alloc alloc run⟩

/-! Runs of calls -/

namespace Turns

/-- A run that makes the calls of two lists makes those of the first and then those of the second. -/
theorem split (runs : Turns schedIdle before (earlier ++ later) after) :
    ∃ middle, Turns schedIdle before earlier middle ∧ Turns schedIdle middle later after := by
  induction earlier generalizing before with
  | nil => exact ⟨before, .none, runs⟩
  | cons turn earlier ih =>
      cases runs with
      | next takes rest =>
          obtain ⟨middle, first, second⟩ := ih rest
          exact ⟨middle, .next takes first, second⟩

theorem table (runs : Turns schedIdle before turns after) (table : TaskTable before (blocks.take 256))
    (distinct : (blocks ++ created turns).Nodup) : TaskTable after ((blocks ++ created turns).take 256) := by
  induction runs generalizing blocks with
  | none => simpa [created] using table
  | @next turn turns before middle after takes rest ih =>
      cases turn with
      | created block =>
          obtain ⟨fuel, handler, returned, task⟩ := takes.newTask_done
          have regrouped : blocks ++ created (.created block :: turns) = (blocks ++ [block]) ++ created turns := by
            rw [created_created, List.append_assoc, List.singleton_append]
          have fresh : block ∉ blocks := by
            intro member
            exact List.disjoint_of_nodup_append distinct member List.mem_cons_self
          rw [regrouped] at distinct ⊢
          exact ih (table.place fresh task) distinct
      | waited =>
          cases takes with
          | tick waiting => exact ih (table.congr (schedSchedule_tick waiting).1) distinct
      | switched task quantum =>
          cases takes with
          | switch expired => exact ih (table.congr (schedSchedule_switch expired).1) distinct

theorem counted (runs : Turns schedIdle before turns after) (staying : dispatched turns = []) :
    after.schedQuantum + turns.count .waited = before.schedQuantum := by
  induction runs with
  | none => rfl
  | @next turn turns before middle after takes rest ih =>
      cases turn with
      | created block =>
          obtain ⟨fuel, handler, returned, task⟩ := takes.newTask_done
          rw [List.count_cons_of_ne (by simp), ← task.left]
          exact ih staying
      | waited =>
          cases takes with
          | tick waiting =>
              have left := (schedSchedule_tick (r := by assumption) waiting).2.1
              have rest := ih staying
              rw [List.count_cons_self]
              omega
      | switched task quantum => exact absurd staying (List.cons_ne_nil _ _)

/-- While the table stays as it is, every switch is to the task behind the one switched to before. -/
theorem chain (runs : Turns schedIdle before turns after) (table : TaskTable before (blocks.take 256))
    (distinct : (blocks ++ created turns).Nodup) (fixed : created turns = [] ∨ 256 ≤ blocks.length) :
    (before.currentTask ∈ blocks.take 256 →
      (before.currentTask :: dispatched turns).IsChain (Follows (blocks.take 256))) ∧
    (dispatched turns).IsChain (Follows (blocks.take 256)) ∧
    ∀ task ∈ dispatched turns, task ∈ blocks.take 256 := by
  induction runs generalizing blocks with
  | none => exact ⟨fun _ => .singleton _, .nil, nofun⟩
  | @next turn turns before middle after takes rest ih =>
      cases turn with
      | created block =>
          obtain ⟨fuel, handler, returned, task⟩ := takes.newTask_done
          have full : 256 ≤ blocks.length := fixed.resolve_left (List.cons_ne_nil _ _)
          have same : (blocks ++ [block]).take 256 = blocks.take 256 := List.take_append_of_le_length full
          have fresh : block ∉ blocks := by
            intro member
            exact List.disjoint_of_nodup_append distinct member List.mem_cons_self
          have placed := table.place fresh task
          rw [created_created, ← List.singleton_append, ← List.append_assoc] at distinct
          have following := ih placed distinct (.inr (by rw [List.length_append]; omega))
          rw [same, task.current] at following
          exact following
      | waited =>
          cases takes with
          | tick waiting =>
              obtain ⟨tasks, _, current⟩ := schedSchedule_tick (r := by assumption) waiting
              have following := ih (table.congr tasks) distinct fixed
              rw [current] at following
              exact following
      | switched task quantum =>
          cases takes with
          | switch expired =>
              obtain ⟨tasks, _, current⟩ := schedSchedule_switch (r := by assumption) expired
              obtain ⟨member, follows⟩ := table.next
              obtain ⟨linked, _, known⟩ := ih (table.congr tasks) distinct fixed
              rw [← current] at member follows
              refine ⟨fun earlier => .cons_cons (follows earlier) (linked member), linked member, ?_⟩
              exact List.forall_mem_cons.mpr ⟨member, known⟩

theorem exactQuanta (runs : Turns schedIdle before turns after) : ExactQuanta turns := by
  intro earlier middle later task quantum next left split staying
  rw [split] at runs
  obtain ⟨first, _, runs⟩ := runs.split
  cases runs with
  | next takes runs =>
      obtain ⟨second, waits, runs⟩ := runs.split
      have count := waits.counted staying
      cases runs with
      | next again _ =>
          cases takes with
          | switch expired =>
              cases again with
              | switch spent =>
                  rw [spent, (schedSchedule_switch expired).2.1, Nat.zero_add] at count
                  exact count

theorem roundRobin (runs : Turns schedIdle before turns after) (table : TaskTable before (blocks.take 256))
    (distinct : (blocks ++ created turns).Nodup) (fixed : created turns = [] ∨ 256 ≤ blocks.length) :
    RoundRobin (blocks.take 256) turns := by
  intro consecutive inside length
  obtain ⟨_, linked, known⟩ := runs.chain table distinct fixed
  have run := List.IsChain.infix linked inside
  have rotated := isRotated_of_chain table.distinct run
    (fun task member => known task (inside.subset member)) length
  refine ⟨rotated, fun task member => ?_⟩
  exact List.count_eq_one_of_mem (rotated.nodup_iff.mp table.distinct) (rotated.mem_iff.mp member)

end Turns

theorem schedInstall_table (run : schedInstall fuel schedIdle before = .done () after) :
    TaskTable after [after.schedTasks 0] := by
  obtain ⟨returned, placed, create, finished⟩ := Outcome.bind_done.mp run
  obtain ⟨task, created⟩ := schedNewTask_done create
  cases finished
  obtain ⟨_, _, _, alloc, _⟩ := created.memory
  rcases created.placed with ⟨_, i, bound, earlier, _, table⟩ | ⟨_, full, _⟩
  · have slot : i = 0 := by
      by_contra later
      exact earlier 0 (Nat.pos_of_ne_zero later) rfl
    subst slot
    have idle : placed.schedTasks 0 = task := by rw [table, Function.update_self]
    refine ⟨List.nodup_singleton _, ?_, List.cons_ne_nil _ _, Nat.succ_le_succ (Nat.zero_le _), ?_⟩
    · rw [List.mem_singleton]
      exact fun null => kmalloc_ne_zero alloc (idle.symm.trans null.symm)
    · intro i bound
      cases i with
      | zero => rfl
      | succ i =>
          have empty : placed.schedTasks (i + 1) = 0 := by
            rw [table, Function.update_of_ne (Nat.succ_ne_zero i)]
            exact if_pos bound
          exact empty
  · exact absurd rfl (full 0 (by decide))

/-- The calls after `sched_install`, and the last ones of these: the tasks in the
table, the time each of them has, and their order when none is placed. -/
theorem round_robin_with_exact_quanta {installed : Machine}
    (install : schedInstall fuel schedIdle start = .done () installed)
    (opening : Turns schedIdle installed earlier before) (runs : Turns schedIdle before turns after)
    (distinct : (installed.schedTasks 0 :: created earlier ++ created turns).Nodup) :
    ∃ tasks placed, TaskTable before tasks ∧ TaskTable after (tasks ++ placed) ∧ ExactQuanta turns ∧
      (placed = [] → RoundRobin tasks turns) := by
  have first : TaskTable installed ([installed.schedTasks 0].take 256) := schedInstall_table install
  have sooner : (([installed.schedTasks 0] ++ created earlier)).Nodup := (List.nodup_append.mp distinct).1
  have table := opening.table first sooner
  have last := runs.table table distinct
  refine ⟨_, (created turns).take (256 - ([installed.schedTasks 0] ++ created earlier).length), table, ?_,
    runs.exactQuanta, ?_⟩
  · rw [← List.take_append]
    exact last
  · intro none
    refine runs.roundRobin table distinct ?_
    rcases List.take_eq_nil_iff.mp none with full | none
    · exact .inr (by omega)
    · exact .inl none

theorem round_robin_idle :
    ∃ booted installed held fuel turns tasks placed, ∃ start idle after : Machine,
      VmmInstalled (pcInfo 0x7EE0000 (by decide)) 0x220000 smallImage (pcSystem booted) installed ∧
      SystemRuns (2 ^ 20) (fun _ _ => True) installed ⟨start.kernel, held⟩ ∧
      schedInstall fuel 0x201000 start = .done () idle ∧
      Turns 0x201000 idle turns after ∧ dispatched turns = [idle.schedTasks 0] ∧
      TaskTable idle tasks ∧ TaskTable after (tasks ++ placed) ∧ ExactQuanta turns ∧
      (placed = [] → RoundRobin tasks turns) := by
  obtain ⟨booted, installed, kernel, held, fuel, idle, behind, _, calls, install, _, expired, _⟩ :=
    freshMachine_install 0 0x201000
  have first : (schedSchedule timerFrame idle).2.currentTask = idle.schedTasks 0 := by
    rw [(schedSchedule_switch expired).2.2]
    exact List.mem_singleton.mp (schedInstall_table install).next.1
  have runs : Turns 0x201000 idle _ _ := .next (.switch (r := timerFrame) expired) .none
  obtain ⟨tasks, placed, table⟩ := round_robin_with_exact_quanta install .none runs (List.nodup_singleton _)
  exact ⟨booted, installed, held, fuel, _, tasks, placed, _, idle, _, behind, calls, install, runs,
    congrArg (fun task => [task]) first, table⟩

end BarrelOS.Sched
