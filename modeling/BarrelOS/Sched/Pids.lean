import BarrelOS.Sched.FullTable

namespace BarrelOS.Sched

open BarrelOS.Boot BarrelOS.Data BarrelOS.Memory BarrelOS.Semantics

/-- A call of `sched_new_task`: its handler, the block of `kmalloc` and the page of
`pmm_alloc` it took, the stack pointer it stored, and what it returned. -/
structure Creation where
  handler : Nat
  task : Nat
  stack : Nat
  esp : Nat
  returned : Nat
deriving DecidableEq

/-- Any number of calls of `sched_new_task`, latest first. Each takes pages below `2 ^ 20`. -/
inductive Creates (schedIdle : Nat) (start : Machine) : List Creation → Machine → Prop
  | none : Creates schedIdle start [] start
  | next {fuel handler task stack returned : Nat} {creations : List Creation} {before after : Machine}
      {kernel : Kernel} {pmm : Pmm}
      (creates : Creates schedIdle start creations before)
      (alloc : kmalloc fuel sizeofTask before.kernel = .done task kernel)
      (page : pmmAlloc fuel 1 kernel.vmm.pmm = .done stack pmm)
      (run : schedNewTask fuel schedIdle handler before = .done returned after)
      (handed : HandsOutBelow (2 ^ 20) before.kernel.vmm.pmm after.kernel.vmm.pmm) :
      Creates schedIdle start (⟨handler, task, stack, (after.task task).ctx.esp, returned⟩ :: creations) after

/-- The tasks in the table have pairwise distinct process numbers. -/
def DistinctPids (machine : Machine) : Prop :=
  ∀ i < 256, ∀ j < 256, machine.schedTasks i ≠ 0 → machine.schedTasks j ≠ 0 →
    (machine.task (machine.schedTasks i)).pid = (machine.task (machine.schedTasks j)).pid → i = j

/-- After `sched_install` and a number of calls for other handlers. The idle task is
number 0, and the others are numbered from 0 on in the order of the table. -/
structure Numbered (calls : Nat) (machine : Machine) : Prop where
  filled : Filled (min (calls + 1) 256) machine
  counter : machine.schedPid = calls % 2 ^ 32
  pids : ∀ i < 256, machine.schedTasks i ≠ 0 → (machine.task (machine.schedTasks i)).pid = i - 1
  memory : ∃ held, Sound ⟨machine.kernel, held⟩ ∧
    ∀ i < 256, machine.schedTasks i ≠ 0 → .block ⟨machine.schedTasks i, sizeofTask⟩ ∈ held

variable {fuel schedIdle handler task returned calls : Nat} {start installed before after : Machine}
  {creations : List Creation} {held : List Holder}

theorem Numbered.next (numbered : Numbered calls before) (other : handler ≠ schedIdle)
    (run : schedNewTask fuel schedIdle handler before = .done returned after)
    (handed : HandsOutBelow (2 ^ 20) before.kernel.vmm.pmm after.kernel.vmm.pmm) : Numbered (calls + 1) after := by
  obtain ⟨task, created⟩ := schedNewTask_done run
  obtain ⟨held, sound, blocks⟩ := numbered.memory
  obtain ⟨stack, fresh, following⟩ := created.sound sound handed
  have elsewhere : ∀ i < 256, before.schedTasks i ≠ 0 → before.schedTasks i ≠ task := by
    intro i bound present same
    exact fresh (same ▸ blocks i bound present)
  have kept : ∀ i < 256, before.schedTasks i ≠ 0 → (after.task (before.schedTasks i)).pid = i - 1 := by
    intro i bound present
    rw [created.others _ (elsewhere i bound present)]
    exact numbered.pids i bound present
  have counter : after.schedPid = (calls + 1) % 2 ^ 32 := by
    rw [created.schedPid, if_neg other, numbered.counter]
    omega
  rcases created.placed with ⟨_, slot, bound, earlier, free, table⟩ | ⟨_, full, table⟩
  · have room : min (calls + 1) 256 < 256 := by
      by_contra full
      exact (numbered.filled slot bound).mpr (by omega) free
    have last : slot = calls + 1 := by
      have next := numbered.filled.slot room bound earlier free
      omega
    have filled := (numbered.filled.placed room run).2
    subst slot
    refine ⟨?_, counter, ?_, _, following, ?_⟩
    · rwa [show min (calls + 1) 256 + 1 = min (calls + 1 + 1) 256 from by omega] at filled
    · intro i inside present
      rw [table] at present ⊢
      by_cases here : i = calls + 1
      · subst i
        rw [Function.update_self, created.pid, if_neg other, numbered.counter]
        omega
      · rw [Function.update_of_ne here] at present ⊢
        exact kept i inside present
    · intro i inside present
      rw [table] at present ⊢
      by_cases here : i = calls + 1
      · subst i
        rw [Function.update_self]
        exact List.mem_cons_of_mem _ List.mem_cons_self
      · rw [Function.update_of_ne here] at present ⊢
        exact List.mem_cons_of_mem _ (List.mem_cons_of_mem _ (blocks i inside present))
  · have whole : 255 < min (calls + 1) 256 := (numbered.filled 255 (by decide)).mp (full 255 (by decide))
    refine ⟨?_, counter, table ▸ kept, _, following, ?_⟩
    · intro i inside
      rw [table, numbered.filled i inside]
      omega
    · intro i inside present
      rw [table] at present ⊢
      exact List.mem_cons_of_mem _ (List.mem_cons_of_mem _ (blocks i inside present))

theorem schedInstall_numbered (sound : Sound ⟨before.kernel, held⟩) (zero : before.schedPid = 0)
    (run : schedInstall fuel schedIdle before = .done () after)
    (handed : HandsOutBelow (2 ^ 20) before.kernel.vmm.pmm after.kernel.vmm.pmm) : Numbered 0 after := by
  have filled : Filled 1 after := schedInstall_filled run
  obtain ⟨returned, placed, create, finished⟩ := Outcome.bind_done.mp run
  obtain ⟨task, created⟩ := schedNewTask_done create
  cases finished
  have only : ∀ i < 256, placed.schedTasks i ≠ 0 → i = 0 := by
    intro i bound present
    exact Nat.lt_one_iff.mp ((filled i bound).mp present)
  obtain ⟨_, _, _, alloc, _⟩ := created.memory
  have idle : placed.schedTasks 0 = task := by
    rcases created.placed with ⟨_, slot, bound, _, _, table⟩ | ⟨_, full, _⟩
    · have present : placed.schedTasks slot ≠ 0 := by
        rw [table, Function.update_self]
        exact kmalloc_ne_zero alloc
      rw [← only slot bound present, table, Function.update_self]
    · exact absurd rfl (full 0 (by decide))
  obtain ⟨stack, _, following⟩ := created.sound sound handed
  refine ⟨filled, ?_, ?_, _, following, ?_⟩
  · exact created.schedPid.trans ((if_pos rfl).trans zero)
  · intro i bound present
    have first : i = 0 := only i bound present
    subst i
    change (placed.task (placed.schedTasks 0)).pid = 0
    rw [idle, created.pid, if_pos rfl]
  · intro i bound present
    have first : i = 0 := only i bound present
    subst i
    change Holder.block ⟨placed.schedTasks 0, sizeofTask⟩ ∈ _
    rw [idle]
    exact List.mem_cons_of_mem _ List.mem_cons_self

theorem Creates.numbered (creates : Creates schedIdle start creations after) (numbered : Numbered 0 start)
    (once : ∀ creation ∈ creations, creation.handler ≠ schedIdle) : Numbered creations.length after := by
  induction creates with
  | none => exact numbered
  | next creates _ _ run handed ih =>
      have others := List.forall_mem_cons.mp once
      exact (ih others.2).next others.1 run handed

/-- The first task made for another handler than the idle task's is given 0 too. -/
theorem Numbered.distinct_iff (numbered : Numbered calls after) : DistinctPids after ↔ calls = 0 := by
  constructor
  · intro distinct
    by_contra more
    have first : after.schedTasks 0 ≠ 0 := (numbered.filled 0 (by decide)).mpr (by omega)
    have second : after.schedTasks 1 ≠ 0 := (numbered.filled 1 (by decide)).mpr (by omega)
    have shared : (after.task (after.schedTasks 0)).pid = (after.task (after.schedTasks 1)).pid := by
      rw [numbered.pids 0 (by decide) first, numbered.pids 1 (by decide) second]
    exact absurd (distinct 0 (by decide) 1 (by decide) first second shared) (by decide)
  · intro none i inside j insideToo present presentToo _
    have left := (numbered.filled i inside).mp present
    have right := (numbered.filled j insideToo).mp presentToo
    omega

/-- The process numbers stay distinct exactly as long as there is no task but the idle task. -/
theorem pids_distinct_iff {mbd : MultibootInfo} {kernelEnd : Nat} {image : Image} {boot : System}
    (paging : PagingOn mbd kernelEnd image boot)
    (calls : SystemRuns (2 ^ 20) (fun _ _ => True) boot ⟨start.kernel, held⟩) (zero : start.schedPid = 0)
    (install : schedInstall fuel schedIdle start = .done () installed)
    (handed : HandsOutBelow (2 ^ 20) start.kernel.vmm.pmm installed.kernel.vmm.pmm)
    (creates : Creates schedIdle installed creations after)
    (once : ∀ creation ∈ creations, creation.handler ≠ schedIdle) : DistinctPids after ↔ creations = [] := by
  have sound : Sound ⟨start.kernel, held⟩ := calls.sound (Nat.le_refl _) paging.paged.toSound
  have numbered := creates.numbered (schedInstall_numbered sound zero install handed) once
  rw [numbered.distinct_iff, List.length_eq_zero_iff]

theorem pids_distinct_idle : ∃ booted installed held fuel, ∃ start idle : Machine,
    VmmInstalled (pcInfo 0x7EE0000 (by decide)) 0x220000 smallImage (pcSystem booted) installed ∧
    SystemRuns (2 ^ 20) (fun _ _ => True) installed ⟨start.kernel, held⟩ ∧
    schedInstall fuel 0x201000 start = .done () idle ∧ DistinctPids idle := by
  obtain ⟨booted, installed, kernel, held, fuel, idle, behind, boot, calls, install, handed, _⟩ := freshMachine_install 0 0x201000
  exact ⟨booted, installed, held, fuel, _, idle, behind, calls, install,
    (pids_distinct_iff behind.paging (boot.trans calls) rfl install handed .none nofun).mpr rfl⟩

theorem Creates.more {lead limit : Nat} (creates : Creates schedIdle start creations before)
    (ascending : before.kernel.vmm.pmm.Ascending lead limit) (room : lead + 3 ≤ limit) (below : limit ≤ 2 ^ 20)
    (handler : Nat) : ∃ creation after, creation.handler = handler ∧
      Creates schedIdle start (creation :: creations) after := by
  obtain ⟨fuel, returned, after, run, handed, _⟩ :=
    @schedNewTask_ascending schedIdle handler before lead limit ascending room below
  obtain ⟨task, created⟩ := schedNewTask_done run
  obtain ⟨kernel, stack, pmm, alloc, page, _⟩ := created.memory
  exact ⟨_, after, rfl, creates.next alloc page run handed⟩

/-- The idle task and the first task behind it are both number 0. -/
theorem schedNewTask_repeats_pid : ∃ booted installed held fuel creation, ∃ start idle after : Machine,
    VmmInstalled (pcInfo 0x7EE0000 (by decide)) 0x220000 smallImage (pcSystem booted) installed ∧
    SystemRuns (2 ^ 20) (fun _ _ => True) installed ⟨start.kernel, held⟩ ∧ start.schedPid = 0 ∧
    schedInstall fuel 0x201000 start = .done () idle ∧ creation.handler ≠ 0x201000 ∧
    Creates 0x201000 idle [creation] after ∧ ¬ DistinctPids after := by
  obtain ⟨booted, installed, kernel, held, fuel, idle, behind, boot, calls, install, handed, _, lead, reach, ascending⟩ :=
    freshMachine_install 0 0x201000
  obtain ⟨creation, after, handler, creates⟩ :=
    Creates.none.more ascending (by omega) (by decide) 0x202000
  have other : creation.handler ≠ 0x201000 := by
    rw [handler]
    decide
  have sound : Sound ⟨(freshMachine kernel 0).kernel, held⟩ :=
    (boot.trans calls).sound (Nat.le_refl _) behind.paging.paged.toSound
  have numbered := creates.numbered (schedInstall_numbered sound rfl install handed)
    (List.forall_mem_cons.mpr ⟨other, nofun⟩)
  refine ⟨booted, installed, held, fuel, creation, _, idle, after, behind, calls, rfl, install, other, creates, ?_⟩
  rw [numbered.distinct_iff]
  exact List.cons_ne_nil _ _ ∘ List.length_eq_zero_iff.mp

end BarrelOS.Sched
