import BarrelOS.Memory.Installed
import BarrelOS.Sched.Scheduler

namespace BarrelOS.Sched

open BarrelOS.Boot BarrelOS.Data BarrelOS.Memory BarrelOS.Semantics

/-! What happens to tasks -/

/-- A task placed in the table: its handler, the registers its memory held when
`kmalloc` returned it, and its stack pointer. -/
structure Birth where
  task : Nat
  handler : Nat
  memory : Registers
  stack : Nat
deriving DecidableEq

/-- The context `sched_new_task` leaves. -/
def Birth.context (birth : Birth) : Registers := { birth.memory with esp := birth.stack }

inductive Event where
  | created (birth : Birth)
  | switched (away : Nat) (interrupted : Registers) (next : Nat) (installed : Registers)
deriving DecidableEq

/-- What has happened, latest first. -/
abbrev History := List Event

def born : History → Nat → Option Birth
  | [], _ => none
  | .created birth :: earlier, task => if birth.task = task then some birth else born earlier task
  | .switched .. :: earlier, task => born earlier task

/-- The frame that was in `*r` when a task was last switched away from. -/
def lastLeft : History → Nat → Option Registers
  | [], _ => none
  | .created _ :: earlier, task => lastLeft earlier task
  | .switched away interrupted _ _ :: earlier, task =>
      if away = task then some interrupted else lastLeft earlier task

def Dispatched (history : History) (task : Nat) : Prop :=
  ∃ away interrupted installed, .switched away interrupted task installed ∈ history

/-- Every switch to a task meets a condition: the first on the task's birth and the
installed frame, each later one on these and the frame the task was last
switched away from with. -/
def Switches (first : Birth → Registers → Prop) (later : Birth → Registers → Registers → Prop) : History → Prop
  | [] => True
  | .created _ :: earlier => Switches first later earlier
  | .switched away interrupted next installed :: earlier =>
      Switches first later earlier ∧ ∃ birth, born earlier next = some birth ∧
        (¬ Dispatched earlier next → first birth installed) ∧
        (Dispatched earlier next → ∃ left,
          lastLeft (.switched away interrupted next installed :: earlier) next = some left ∧ later birth left installed)

/-- Context switches are transparent: a task starts at its handler and goes on with
the frame it was interrupted with. -/
def Transparent : History → Prop :=
  Switches (fun birth installed => installed.eip = birth.handler) fun _ left installed => installed = left

/-- Every task that runs has its handler in the `eip` its memory held already, and
every task that runs again was interrupted in the context it was created with. -/
def Unchanging : History → Prop :=
  Switches (fun birth _ => birth.memory.eip = birth.handler) fun birth left _ => left = birth.context

variable {fuel schedIdle handler returned task : Nat} {start before after machine : Machine}
  {history earlier : History} {held : List Holder}

/-- Runs of the scheduler from `sched_install` on, with what has happened. Every
call of `sched_new_task` takes pages below `2 ^ 20`. -/
inductive SchedRuns (schedIdle : Nat) (start : Machine) : History → Machine → Prop
  | install {fuel : Nat} {after : Machine}
      (run : schedInstall fuel schedIdle start = .done () after)
      (handed : HandsOutBelow (2 ^ 20) start.kernel.vmm.pmm after.kernel.vmm.pmm) :
      SchedRuns schedIdle start [.created ⟨after.schedTasks 0, schedIdle, (start.task (after.schedTasks 0)).ctx,
        (after.task (after.schedTasks 0)).ctx.esp⟩] after
  | newTask {fuel handler task : Nat} {history : History} {before after : Machine}
      (runs : SchedRuns schedIdle start history before)
      (run : schedNewTask fuel schedIdle handler before = .done task after)
      (handed : HandsOutBelow (2 ^ 20) before.kernel.vmm.pmm after.kernel.vmm.pmm)
      (placed : task ≠ 0) :
      SchedRuns schedIdle start
        (.created ⟨task, handler, (before.task task).ctx, (after.task task).ctx.esp⟩ :: history) after
  | full {fuel handler : Nat} {history : History} {before after : Machine}
      (runs : SchedRuns schedIdle start history before)
      (run : schedNewTask fuel schedIdle handler before = .done 0 after)
      (handed : HandsOutBelow (2 ^ 20) before.kernel.vmm.pmm after.kernel.vmm.pmm) :
      SchedRuns schedIdle start history after
  | tick {r : Registers} {history : History} {before : Machine}
      (runs : SchedRuns schedIdle start history before)
      (vector : r.intNo = 0x80)
      (waiting : 0 < before.schedQuantum) :
      SchedRuns schedIdle start history (irqHandler r before).2
  | switch {r : Registers} {history : History} {before : Machine}
      (runs : SchedRuns schedIdle start history before)
      (vector : r.intNo = 0x80)
      (expired : before.schedQuantum = 0) :
      SchedRuns schedIdle start
        (.switched before.currentTask r (irqHandler r before).2.currentTask (irqHandler r before).1 :: history)
        (irqHandler r before).2

/-- The tasks of a history hold the contexts they were created with, in blocks of
their own, and the table holds no others. -/
structure Tracked (history : History) (machine : Machine) : Prop where
  tasks : ∀ i < 256, machine.schedTasks i ≠ 0 → ∃ birth, born history (machine.schedTasks i) = some birth
  contexts : ∀ task birth, born history task = some birth → (machine.task task).ctx = birth.context
  memory : ∃ held, Sound ⟨machine.kernel, held⟩ ∧
    ∀ task birth, born history task = some birth → .block ⟨task, sizeofTask⟩ ∈ held

/-- The same, once `sched_install` has returned. -/
structure Coherent (history : History) (machine : Machine) : Prop extends Tracked history machine where
  handlers : machine.irqHandlers 96 = some .schedSchedule
  first : machine.schedTasks 0 ≠ 0

/-! Blocks of `kmalloc` -/

theorem kmalloc_ne_zero {n ptr : Nat} {kernel last : Kernel} (run : kmalloc fuel n kernel = .done ptr last) : ptr ≠ 0 := by
  obtain ⟨phys, pmm, alloc, _, returned, _⟩ := heapAlloc_done run
  obtain ⟨word, aligned⟩ := pmmAlloc_aligned alloc
  unfold higherHalf sizeofHeapBlock at returned
  omega

theorem NewTask.holds {kernel : Kernel} {stack : Nat} {pmm : Pmm}
    (created : NewTask fuel schedIdle handler task before returned after)
    (alloc : kmalloc fuel sizeofTask before.kernel = .done task kernel)
    (page : pmmAlloc fuel 1 kernel.vmm.pmm = .done stack pmm) (sound : Sound ⟨before.kernel, held⟩)
    (handed : HandsOutBelow (2 ^ 20) before.kernel.vmm.pmm after.kernel.vmm.pmm) :
    .block ⟨task, sizeofTask⟩ ∉ held ∧
      Sound ⟨after.kernel, .raw ⟨stack, 1⟩ :: .block ⟨task, sizeofTask⟩ :: held⟩ := by
  have kept := (created.takes alloc page).1
  have size : sizeofTask + sizeofHeapBlock + 4095 < 2 ^ 32 := by decide
  have pmms : after.kernel.vmm.pmm = pmm := congrArg (Vmm.pmm ∘ Kernel.vmm) kept
  rw [pmms] at handed
  have stacked : kernel.vmm.pmm.used ⊆ pmm.used := pmmAlloc_kept Nat.one_pos page
  have block := sound.heapAlloc (heapPages_pos size) alloc fun page set => handed page (stacked set)
  refine ⟨(List.nodup_cons.mp block.distinct).1, ?_⟩
  obtain ⟨position, middle, served⟩ := sound.served size alloc fun page set => handed page (stacked set)
  have blocked : before.kernel.vmm.pmm.used ⊆ kernel.vmm.pmm.used := served.provided.kept.trans served.mapping.kept
  have makes : Makes ⟨kernel, .block ⟨task, sizeofTask⟩ :: held⟩ (.pmmAlloc 1)
    ⟨kernel.withPmm pmm, .raw ⟨stack, 1⟩ :: .block ⟨task, sizeofTask⟩ :: held⟩ := .pmmAlloc Nat.one_pos page
  rw [kept]
  exact makes.sound block fun page set => (handed page set).imp_left fun earlier => blocked earlier

theorem NewTask.sound (created : NewTask fuel schedIdle handler task before returned after)
    (sound : Sound ⟨before.kernel, held⟩)
    (handed : HandsOutBelow (2 ^ 20) before.kernel.vmm.pmm after.kernel.vmm.pmm) :
    ∃ stack, .block ⟨task, sizeofTask⟩ ∉ held ∧
      Sound ⟨after.kernel, .raw stack :: .block ⟨task, sizeofTask⟩ :: held⟩ := by
  obtain ⟨kernel, stack, pmm, alloc, page, _⟩ := created.memory
  exact ⟨⟨stack, 1⟩, created.holds alloc page sound handed⟩

/-! Every step keeps the contexts -/

theorem Tracked.kept (tracked : Tracked history before)
    (created : NewTask fuel schedIdle handler task before returned after)
    (handed : HandsOutBelow (2 ^ 20) before.kernel.vmm.pmm after.kernel.vmm.pmm) :
    ∃ held, Sound ⟨after.kernel, held⟩ ∧ .block ⟨task, sizeofTask⟩ ∈ held ∧
      ∀ other birth, born history other = some birth →
        other ≠ task ∧ (after.task other).ctx = birth.context ∧ .block ⟨other, sizeofTask⟩ ∈ held := by
  obtain ⟨held, sound, blocks⟩ := tracked.memory
  obtain ⟨stack, fresh, following⟩ := created.sound sound handed
  refine ⟨_, following, List.mem_cons_of_mem _ List.mem_cons_self, ?_⟩
  intro other birth known
  have elsewhere : other ≠ task := by
    intro same
    exact fresh (same ▸ blocks other birth known)
  refine ⟨elsewhere, ?_, List.mem_cons_of_mem _ (List.mem_cons_of_mem _ (blocks other birth known))⟩
  rw [created.others other elsewhere]
  exact tracked.contexts other birth known

theorem Tracked.placed (tracked : Tracked history before)
    (created : NewTask fuel schedIdle handler task before task after)
    (handed : HandsOutBelow (2 ^ 20) before.kernel.vmm.pmm after.kernel.vmm.pmm)
    (table : ∃ i, after.schedTasks = Function.update before.schedTasks i task) :
    Tracked (.created ⟨task, handler, (before.task task).ctx, (after.task task).ctx.esp⟩ :: history) after := by
  obtain ⟨held, sound, here, kept⟩ := tracked.kept created handed
  obtain ⟨_, _, _, _, _, _, context⟩ := created.memory
  obtain ⟨i, table⟩ := table
  refine ⟨?_, ?_, held, sound, ?_⟩
  · intro j bound present
    rw [table, Function.update_apply] at present ⊢
    split
    · exact ⟨_, if_pos rfl⟩
    · rename_i other
      rw [if_neg other] at present
      obtain ⟨birth, known⟩ := tracked.tasks j bound present
      exact ⟨birth, (if_neg (kept _ birth known).1.symm).trans known⟩
  · intro other birth known
    rw [born] at known
    split at known
    · rename_i same
      cases known
      cases same
      rw [context]
      rfl
    · exact (kept other birth known).2.1
  · intro other birth known
    rw [born] at known
    split at known
    · rename_i same
      cases same
      exact here
    · exact (kept other birth known).2.2

theorem Tracked.unplaced (tracked : Tracked history before)
    (created : NewTask fuel schedIdle handler task before returned after)
    (handed : HandsOutBelow (2 ^ 20) before.kernel.vmm.pmm after.kernel.vmm.pmm)
    (table : after.schedTasks = before.schedTasks) : Tracked history after := by
  obtain ⟨held, sound, _, kept⟩ := tracked.kept created handed
  exact ⟨table ▸ tracked.tasks, fun other birth known => (kept other birth known).2.1, held, sound,
    fun other birth known => (kept other birth known).2.2⟩

theorem Coherent.newTask (coherent : Coherent history before)
    (run : schedNewTask fuel schedIdle handler before = .done task after)
    (handed : HandsOutBelow (2 ^ 20) before.kernel.vmm.pmm after.kernel.vmm.pmm) (placed : task ≠ 0) :
    Coherent (.created ⟨task, handler, (before.task task).ctx, (after.task task).ctx.esp⟩ :: history) after := by
  obtain ⟨ptr, created⟩ := schedNewTask_done run
  rcases created.placed with ⟨rfl, i, _, _, _, table⟩ | ⟨null, _⟩
  · refine ⟨coherent.toTracked.placed created handed ⟨i, table⟩, created.handlers ▸ coherent.handlers, ?_⟩
    rw [table, Function.update_apply]
    split
    · exact placed
    · exact coherent.first
  · exact absurd null placed

theorem Coherent.full (coherent : Coherent history before)
    (run : schedNewTask fuel schedIdle handler before = .done 0 after)
    (handed : HandsOutBelow (2 ^ 20) before.kernel.vmm.pmm after.kernel.vmm.pmm) : Coherent history after := by
  obtain ⟨ptr, created⟩ := schedNewTask_done run
  rcases created.placed with ⟨null, _⟩ | ⟨_, _, table⟩
  · obtain ⟨_, _, _, alloc, _⟩ := created.memory
    exact absurd null.symm (kmalloc_ne_zero alloc)
  · exact ⟨coherent.toTracked.unplaced created handed table, created.handlers ▸ coherent.handlers,
      table ▸ coherent.first⟩

theorem Coherent.sameTasks (coherent : Coherent history before) (same : SameTasks before after) :
    Coherent history after := by
  obtain ⟨kernel, task, _, schedTasks, handlers⟩ := same
  refine ⟨⟨schedTasks ▸ coherent.tasks, task ▸ coherent.contexts, ?_⟩, handlers ▸ coherent.handlers,
    schedTasks ▸ coherent.first⟩
  rw [kernel]
  exact coherent.memory

theorem schedInstall_coherent (sound : Sound ⟨before.kernel, held⟩)
    (run : schedInstall fuel schedIdle before = .done () after)
    (handed : HandsOutBelow (2 ^ 20) before.kernel.vmm.pmm after.kernel.vmm.pmm) :
    Coherent [.created ⟨after.schedTasks 0, schedIdle, (before.task (after.schedTasks 0)).ctx,
      (after.task (after.schedTasks 0)).ctx.esp⟩] after := by
  obtain ⟨returned, placed, create, finished⟩ := Outcome.bind_done.mp run
  obtain ⟨task, created⟩ := schedNewTask_done create
  cases finished
  rcases created.placed with ⟨rfl, i, bound, earlier, _, table⟩ | ⟨_, full, _⟩
  · have slot : i = 0 := by
      by_contra later
      exact earlier 0 (Nat.pos_of_ne_zero later) rfl
    subst slot
    have idle : placed.schedTasks 0 = returned := by rw [table, Function.update_self]
    obtain ⟨_, _, _, alloc, _⟩ := created.memory
    have empty : Tracked [] before.clearTasks := by
      refine ⟨?_, nofun, held, sound, nofun⟩
      intro j inside present
      exact absurd (if_pos inside) present
    have tracked := empty.placed created handed ⟨0, table⟩
    rw [← idle] at tracked
    have first : placed.schedTasks 0 ≠ 0 := idle ▸ kmalloc_ne_zero alloc
    have handlers : (placed.setHandler (0x80 - 32) .schedSchedule).irqHandlers 96 = some .schedSchedule := rfl
    exact ⟨⟨tracked.tasks, tracked.contexts, tracked.memory⟩, handlers, first⟩
  · exact absurd rfl (full 0 (by decide))

theorem SchedRuns.coherent (runs : SchedRuns schedIdle start history after) (sound : Sound ⟨start.kernel, held⟩) :
    Coherent history after := by
  induction runs with
  | install run handed => exact schedInstall_coherent sound run handed
  | newTask _ run handed placed ih => exact ih.newTask run handed placed
  | full _ run handed ih => exact ih.full run handed
  | tick _ vector waiting ih => exact ih.sameTasks (irqHandler_tick vector ih.handlers waiting).2.1
  | switch _ vector expired ih =>
      have same := ih.sameTasks (irqHandler_switch vector ih.handlers expired ih.first).1
      exact ⟨⟨same.tasks, same.contexts, same.memory⟩, same.handlers, same.first⟩

theorem Coherent.installs {r : Registers} (coherent : Coherent history before) (vector : r.intNo = 0x80)
    (expired : before.schedQuantum = 0) :
    ∃ birth, born history (irqHandler r before).2.currentTask = some birth ∧
      (irqHandler r before).1 = birth.context := by
  obtain ⟨_, next, _, installed⟩ := irqHandler_switch vector coherent.handlers expired coherent.first
  obtain ⟨i, bound, entry, present⟩ := schedGetNextTask_mem coherent.first
  obtain ⟨birth, known⟩ := coherent.tasks i bound present
  rw [next, installed, entry]
  exact ⟨birth, known, coherent.contexts _ birth known⟩

/-- Context switches are transparent in exactly the runs where nothing about a
task's context was to change. -/
theorem context_switches_transparent {mbd : MultibootInfo} {kernelEnd : Nat} {image : Image} {boot : System}
    (paging : PagingOn mbd kernelEnd image boot)
    (calls : SystemRuns (2 ^ 20) (fun _ _ => True) boot ⟨start.kernel, held⟩)
    (runs : SchedRuns schedIdle start history after) : Transparent history ↔ Unchanging history := by
  have sound : Sound ⟨start.kernel, held⟩ := calls.sound (Nat.le_refl _) paging.paged.toSound
  induction runs with
  | install => exact Iff.rfl
  | newTask _ _ _ _ ih => exact ih
  | full _ _ _ ih => exact ih
  | tick _ _ _ ih => exact ih
  | switch runs vector expired ih =>
      obtain ⟨birth, known, installed⟩ := (runs.coherent sound).installs vector expired
      refine and_congr ih (exists_congr fun other => and_congr_right fun same => ?_)
      cases known.symm.trans same
      rw [installed]
      refine and_congr Iff.rfl (imp_congr_right fun _ => exists_congr fun left => and_congr_right fun _ => ?_)
      exact eq_comm

/-! A machine that has just installed its scheduler -/

theorem schedNewTask_returns {kernel : Kernel} {stack : Nat} {pmm : Pmm}
    (alloc : kmalloc fuel sizeofTask machine.kernel = .done task kernel)
    (again : pmmAlloc fuel 1 kernel.vmm.pmm = .done stack pmm) :
    ∃ returned after, schedNewTask fuel schedIdle handler machine = .done returned after ∧
      after.kernel = kernel.withPmm pmm := by
  have place : ∀ last : Machine, ∃ returned after, placeTask task last = .done returned after ∧
      after.kernel = last.kernel := by
    intro last
    unfold placeTask
    split <;> exact ⟨_, _, rfl, rfl⟩
  simp only [schedNewTask, alloc, Outcome.within, Outcome.done_bind, Machine.withKernel, Machine.setTask, again]
  exact place _

theorem schedNewTask_ascending {lead limit : Nat} (ascending : machine.kernel.vmm.pmm.Ascending lead limit)
    (room : lead + 3 ≤ limit) (below : limit ≤ 2 ^ 20) :
    ∃ fuel returned after, schedNewTask fuel schedIdle handler machine = .done returned after ∧
      HandsOutBelow (2 ^ 20) machine.kernel.vmm.pmm after.kernel.vmm.pmm ∧
      ∃ behind ≤ lead + 3, after.kernel.vmm.pmm.Ascending behind limit := by
  have size : sizeofTask + sizeofHeapBlock + 4095 < 2 ^ 32 := by decide
  have pages : heapPages sizeofTask = 1 := rfl
  have most : lead + (Call.heapAlloc sizeofTask).most ≤ lead + 3 := Nat.add_le_add_left (by decide) lead
  obtain ⟨first, kernel, alloc, following⟩ := ascending.kmalloc size (by omega)
  obtain ⟨position, next, reach⟩ : ∃ position, kernel.vmm.pmm.Ascending position limit ∧ position + 1 ≤ lead + 3 := by
    refine ⟨_, following, ?_⟩
    rw [pages]
    split <;> omega
  obtain ⟨second, pmm, again, behind⟩ := next.alloc Nat.one_pos (reach.trans room)
  have here := alloc (max first second) (Nat.le_max_left _ _)
  have stacked := again (max first second) (Nat.le_max_right _ _)
  obtain ⟨returned, after, run, same⟩ := schedNewTask_returns here stacked
  refine ⟨_, returned, after, run, ?_, position + 1, reach, by rwa [same]⟩
  have block : HandsOutBelow (2 ^ 20) machine.kernel.vmm.pmm kernel.vmm.pmm := by
    have makes : Makes ⟨machine.kernel, []⟩ (.heapAlloc sizeofTask) _ := .heapAlloc size here
    have fits : Fits (2 ^ 20) ⟨machine.kernel, []⟩ (.heapAlloc sizeofTask) :=
      ascending.fits (heapPages_pos size) (Nat.le_trans most room) (Nat.le_trans most (room.trans below))
    exact makes.handed fits (Nat.le_refl _)
  have stack : HandsOutBelow (2 ^ 20) kernel.vmm.pmm pmm := by
    refine pmmAlloc_handed Nat.one_pos stacked (Nat.le_refl _) ?_
    intro other rest window
    obtain ⟨rfl, _⟩ := next.window Nat.one_pos (reach.trans room) window
    have word := Nat.mod_le other (2 ^ 32)
    omega
  rw [same]
  exact block.trans stack

/-- A machine before `sched_install`, with the same word in all of its free memory. -/
def freshMachine (kernel : Kernel) (word : Nat) : Machine where
  kernel
  task := fun _ => ⟨⟨word, word, word, word, word, word, word, word, word, word, word, word, word, word, word⟩, word, word⟩
  schedPid := 0
  schedQuantum := 0
  schedTasks := fun _ => 0
  currentTask := 0
  irqHandlers := fun _ => none
  pitTicks := 0
  lapic := ⟨true, 0, [], 0⟩
  ports := []

theorem freshMachine_returns {kernel : Kernel} {lead limit : Nat} (word schedIdle : Nat)
    (ascending : kernel.vmm.pmm.Ascending lead limit) (room : lead + 3 ≤ limit) (below : limit ≤ 2 ^ 20) :
    ∃ fuel after, schedInstall fuel schedIdle (freshMachine kernel word) = .done () after ∧
      HandsOutBelow (2 ^ 20) (freshMachine kernel word).kernel.vmm.pmm after.kernel.vmm.pmm ∧
      after.schedQuantum = 0 ∧ ∃ behind ≤ lead + 3, after.kernel.vmm.pmm.Ascending behind limit := by
  have opened : (freshMachine kernel word).clearTasks.kernel.vmm.pmm.Ascending lead limit := ascending
  obtain ⟨fuel, returned, after, run, handed, behind⟩ := schedNewTask_ascending opened room below
  obtain ⟨task, created⟩ := schedNewTask_done run
  have install : schedInstall fuel schedIdle (freshMachine kernel word) =
      .done () (after.setHandler (0x80 - 32) .schedSchedule) := by
    rw [schedInstall, run]
    rfl
  exact ⟨fuel, _, install, handed, created.left, behind⟩

theorem freshMachine_install (word schedIdle : Nat) :
    ∃ booted installed kernel held fuel after,
      VmmInstalled (pcInfo 0x7EE0000 (by decide)) 0x220000 smallImage (pcSystem booted) installed ∧
      SystemRuns (2 ^ 20) (fun _ _ => True) (pcSystem booted) installed ∧
      SystemRuns (2 ^ 20) (fun _ _ => True) installed ⟨kernel, held⟩ ∧
      schedInstall fuel schedIdle (freshMachine kernel word) = .done () after ∧
      HandsOutBelow (2 ^ 20) (freshMachine kernel word).kernel.vmm.pmm after.kernel.vmm.pmm ∧
      after.schedQuantum = 0 ∧ ∃ lead ≤ 0x227, after.kernel.vmm.pmm.Ascending lead 0x7EE0 := by
  obtain ⟨booted, installed, started, sample, init, initFits, ascending⟩ := pcHeap
  obtain ⟨fuel, after, install, handed, expired, behind⟩ :=
    freshMachine_returns word schedIdle ascending (by decide) (by decide)
  exact ⟨booted, installed, started.kernel, started.held, fuel, after, sample.installed, sample.runs.mono fun _ _ _ => trivial,
    .single init initFits trivial, install, handed, expired, behind⟩

theorem freshMachine_installs (word schedIdle : Nat) :
    ∃ booted installed kernel held birth after,
      VmmInstalled (pcInfo 0x7EE0000 (by decide)) 0x220000 smallImage (pcSystem booted) installed ∧
      SystemRuns (2 ^ 20) (fun _ _ => True) (pcSystem booted) installed ∧
      SystemRuns (2 ^ 20) (fun _ _ => True) installed ⟨kernel, held⟩ ∧
      SchedRuns schedIdle (freshMachine kernel word) [.created birth] after ∧
      birth.handler = schedIdle ∧ birth.memory.eip = word ∧ after.schedQuantum = 0 := by
  obtain ⟨booted, installed, kernel, held, fuel, after, behind, boot, calls, install, handed, expired, _⟩ :=
    freshMachine_install word schedIdle
  exact ⟨booted, installed, kernel, held, _, after, behind, boot, calls, .install install handed, rfl, rfl, expired⟩

def timerFrame : Registers := ⟨0, 0, 0, 0, 0, 0, 0, 0, 0x80, 0, 0x1000, 0x08, 0x202, 0, 0⟩

theorem Coherent.starts {birth : Birth} (coherent : Coherent [.created birth] before) (expired : before.schedQuantum = 0) :
    born [.created birth] (irqHandler timerFrame before).2.currentTask = some birth ∧
      (irqHandler timerFrame before).1 = birth.context := by
  obtain ⟨other, known, installed⟩ := coherent.installs (r := timerFrame) rfl expired
  have same : birth = other := by
    rw [born] at known
    split at known
    · exact Option.some.inj known
    · cases known
  subst same
  exact ⟨known, installed⟩

theorem not_dispatched {birth : Birth} : ¬ Dispatched [.created birth] task := by
  intro transparent
  obtain ⟨away, interrupted, installed, member⟩ := transparent
  rcases List.mem_cons.mp member with other | none
  · cases other
  · cases none

theorem context_switches_transparent_idle :
    ∃ booted installed start held history after,
      VmmInstalled (pcInfo 0x7EE0000 (by decide)) 0x220000 smallImage (pcSystem booted) installed ∧
      SystemRuns (2 ^ 20) (fun _ _ => True) installed ⟨start.kernel, held⟩ ∧
      SchedRuns 0x201000 start history after ∧ history.length = 2 ∧ Transparent history := by
  obtain ⟨booted, installed, kernel, held, birth, before, behind, boot, calls, created, handler, memory, expired⟩ :=
    freshMachine_installs 0x201000 0x201000
  have whole := boot.trans calls
  have sound : Sound ⟨(freshMachine kernel 0x201000).kernel, held⟩ :=
    whole.sound (Nat.le_refl _) behind.paging.paged.toSound
  have runs := created.switch (r := timerFrame) rfl expired
  refine ⟨booted, installed, freshMachine kernel 0x201000, held, _, _, behind, calls, runs, rfl, ?_⟩
  refine (context_switches_transparent behind.paging whole runs).mpr ?_
  exact ⟨trivial, birth, ((created.coherent sound).starts expired).1, fun _ => memory.trans handler.symm,
    fun again => absurd again not_dispatched⟩

/-- Where it held zeros, the first switch starts the idle task at address 0. -/
theorem schedSchedule_starts_elsewhere :
    ∃ booted installed start held history after,
      VmmInstalled (pcInfo 0x7EE0000 (by decide)) 0x220000 smallImage (pcSystem booted) installed ∧
      SystemRuns (2 ^ 20) (fun _ _ => True) installed ⟨start.kernel, held⟩ ∧
      SchedRuns 0x201000 start history after ∧ ¬ Transparent history := by
  obtain ⟨booted, installed, kernel, held, birth, before, behind, boot, calls, created, handler, memory, expired⟩ :=
    freshMachine_installs 0 0x201000
  have sound : Sound ⟨(freshMachine kernel 0).kernel, held⟩ :=
    (boot.trans calls).sound (Nat.le_refl _) behind.paging.paged.toSound
  obtain ⟨known, context⟩ := (created.coherent sound).starts expired
  refine ⟨booted, installed, freshMachine kernel 0, held, _, _, behind, calls, created.switch (r := timerFrame) rfl expired, ?_⟩
  intro found
  obtain ⟨_, other, same, first, _⟩ := found
  cases known.symm.trans same
  have eip := first not_dispatched
  rw [context, handler] at eip
  exact absurd (memory.symm.trans eip) (by decide)

end BarrelOS.Sched
