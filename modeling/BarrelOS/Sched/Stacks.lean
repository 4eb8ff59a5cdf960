import BarrelOS.Sched.Pids

namespace BarrelOS.Sched

open BarrelOS.Boot BarrelOS.Data BarrelOS.Memory BarrelOS.Semantics

/-- What the calls hold of the memory manager, besides what was held before them. -/
def holders (held : List Holder) : List Creation → List Holder
  | [] => held
  | creation :: earlier =>
      .raw ⟨creation.stack, 1⟩ :: .block ⟨creation.task, sizeofTask⟩ :: holders held earlier

/-- The address a number of bytes below the task's first stack pointer. -/
def Creation.below (creation : Creation) (bytes : Nat) : Nat := (creation.esp + 2 ^ 32 - bytes) % 2 ^ 32

/-- The 4 bytes below a task's stack pointer lie in the page that was taken for its
stack, are present and writable, and nobody else owns the page. -/
structure OwnStack (machine : Machine) (held : List Holder) (creation : Creation) : Prop where
  inside : ∀ bytes, 0 < bytes → bytes ≤ 4 → physical (creation.below bytes) / 4096 = creation.stack / 4096
  mapped : ∀ bytes, 0 < bytes → bytes ≤ 4 →
    machine.kernel.vmm.mapsTo (creation.below bytes) (physical (creation.below bytes)) = true
  owned : ∀ owner ∈ System.owners ⟨machine.kernel, held⟩, creation.stack / 4096 ∈ owner.pages →
    owner = .caller (.raw ⟨creation.stack, 1⟩)

variable {schedIdle task : Nat} {start before after : Machine}
  {creation : Creation} {creations : List Creation} {held : List Holder}

/-! The stack pointer is the lowest address of the page -/

theorem Creates.esp (creates : Creates schedIdle start creations after) (member : creation ∈ creations) :
    creation.stack < 2 ^ 32 ∧ creation.stack % 4096 = 0 ∧ creation.esp = higherHalf creation.stack := by
  induction creates with
  | none => cases member
  | next _ alloc page run _ ih =>
      rcases List.mem_cons.mp member with same | earlier
      · subst same
        obtain ⟨_, context⟩ := (schedNewTask_alloc alloc run).takes alloc page
        obtain ⟨word, aligned⟩ := pmmAlloc_aligned page
        refine ⟨word, aligned, ?_⟩
        change (_ : Task).ctx.esp = _
        rw [context]
      · exact ih earlier

theorem Creates.push_page (creates : Creates schedIdle start creations after) (member : creation ∈ creations)
    {bytes : Nat} (positive : 0 < bytes) (few : bytes ≤ 4) :
    physical (creation.below bytes) / 4096 = (creation.stack / 4096 + 2 ^ 20 - 1) % 2 ^ 20 := by
  obtain ⟨word, aligned, esp⟩ := creates.esp member
  unfold Creation.below physical
  rw [esp, higherHalf]
  omega

theorem Creates.not_own (creates : Creates schedIdle start creations after) (member : creation ∈ creations) :
    ¬ OwnStack before held creation := by
  intro own
  obtain ⟨word, _⟩ := creates.esp member
  have inside := own.inside 4 (by decide) (Nat.le_refl _)
  rw [creates.push_page member (by decide) (Nat.le_refl _)] at inside
  omega

/-! The page itself is the task's alone, and stays as it was mapped -/

theorem Creates.sound (creates : Creates schedIdle start creations after) (sound : Sound ⟨start.kernel, held⟩) :
    Sound ⟨after.kernel, holders held creations⟩ := by
  induction creates with
  | none => exact sound
  | next _ alloc page run handed ih => exact ((schedNewTask_alloc alloc run).holds alloc page ih handed).2

theorem holders_mem (member : creation ∈ creations) :
    .raw ⟨creation.stack, 1⟩ ∈ holders held creations ∧
      .block ⟨creation.task, sizeofTask⟩ ∈ holders held creations := by
  induction creations with
  | nil => cases member
  | cons latest earlier ih =>
      rcases List.mem_cons.mp member with same | older
      · subst same
        exact ⟨List.mem_cons_self, List.mem_cons_of_mem _ List.mem_cons_self⟩
      · obtain ⟨raw, block⟩ := ih older
        exact ⟨List.mem_cons_of_mem _ (List.mem_cons_of_mem _ raw),
          List.mem_cons_of_mem _ (List.mem_cons_of_mem _ block)⟩

theorem Creates.stack_owned (creates : Creates schedIdle start creations after) (sound : Sound ⟨start.kernel, held⟩)
    (member : creation ∈ creations) :
    ∀ owner ∈ System.owners ⟨after.kernel, holders held creations⟩, creation.stack / 4096 ∈ owner.pages →
      owner = .caller (.raw ⟨creation.stack, 1⟩) := by
  intro owner owns inside
  by_contra other
  have raw : Owner.caller (.raw ⟨creation.stack, 1⟩) ∈ System.owners ⟨after.kernel, holders held creations⟩ :=
    (holders_mem member).1
  have apart := (creates.sound sound).owned.apart owns raw other
  exact Set.disjoint_left.mp apart inside ⟨Nat.le_refl _, Nat.lt_succ_self _⟩

/-- Only the first pages of the tasks' blocks are mapped. -/
theorem Creates.walk (creates : Creates schedIdle start creations after) (sound : Sound ⟨start.kernel, held⟩)
    {virt : Nat} (bound : virt < 2 ^ 32)
    (elsewhere : ∀ creation ∈ creations, virt / 4096 ≠ (Block.mk creation.task sizeofTask).header / 4096) :
    after.kernel.vmm.walk virt = start.kernel.vmm.walk virt := by
  induction creates with
  | none => rfl
  | @next _ _ task _ _ _ before after kernel pmm creates alloc page run handed ih =>
      obtain ⟨here, others⟩ := List.forall_mem_cons.mp elsewhere
      have kept := ((schedNewTask_alloc alloc run).takes alloc page).1
      have size : sizeofTask + sizeofHeapBlock + 4095 < 2 ^ 32 := by decide
      have pmms : after.kernel.vmm.pmm = pmm := congrArg (Vmm.pmm ∘ Kernel.vmm) kept
      have stacked : kernel.vmm.pmm.used ⊆ pmm.used := pmmAlloc_kept Nat.one_pos page
      obtain ⟨position, middle, served⟩ := (creates.sound sound).served size alloc fun page set =>
        handed page (pmms ▸ stacked set)
      have walk := (served.walk bound).trans (if_neg here)
      rw [kept]
      exact walk.trans (ih others)

/-- So the call does not map the stack. -/
theorem Creates.stack_walk (creates : Creates schedIdle start creations after)
    (sound : Sound ⟨start.kernel, held⟩) (member : creation ∈ creations) :
    after.kernel.vmm.walk (higherHalf creation.stack) = start.kernel.vmm.walk (higherHalf creation.stack) := by
  have last := creates.sound sound
  refine creates.walk sound (higherHalf_lt _) ?_
  intro other among same
  have block := (@holders_mem other creations held among).2
  have placed := last.block_placed block
  have raw : (Allocation.mk creation.stack 1).Placed := last.placed _ (@holders_mem creation creations held member).1
  have address : creation.stack / 4096 * 4096 = creation.stack := raw.address
  have page : higherHalf (creation.stack / 4096 * 4096) / 4096 = (Block.mk other.task sizeofTask).header / 4096 := by
    rw [address]
    exact same
  rw [Block.header_page placed] at page
  have first : creation.stack / 4096 = (Block.mk other.task sizeofTask).allocation.ptr / 4096 :=
    higherHalf_page_injective (raw.page_lt raw.first) (placed.page_lt placed.first) page
  have inside : creation.stack / 4096 ∈ (Block.mk other.task sizeofTask).allocation.pages := by
    rw [first]
    exact placed.first
  have owner := creates.stack_owned sound member (.caller (.block ⟨other.task, sizeofTask⟩)) block inside
  cases owner

/-! Which calls place a task -/

theorem Creates.placed (creates : Creates schedIdle start creations after) (some : creations ≠ [])
    {i : Nat} (bound : i < 256) (free : start.schedTasks i = 0) : ∃ creation ∈ creations, creation.returned ≠ 0 := by
  induction creates with
  | none => exact absurd rfl some
  | next creates alloc _ run _ ih =>
      cases creates with
      | none =>
          rcases (schedNewTask_alloc alloc run).placed with ⟨rfl, _⟩ | ⟨_, full, _⟩
          · exact ⟨_, List.mem_cons_self, kmalloc_ne_zero alloc⟩
          · exact absurd free (full i bound)
      | next =>
          obtain ⟨creation, earlier, placed⟩ := ih (List.cons_ne_nil _ _)
          exact ⟨creation, List.mem_cons_of_mem _ earlier, placed⟩

theorem Creates.full (creates : Creates schedIdle start creations after) (full : ∀ i < 256, start.schedTasks i ≠ 0) :
    after.schedTasks = start.schedTasks ∧ ∀ creation ∈ creations, creation.returned = 0 := by
  induction creates with
  | none => exact ⟨rfl, nofun⟩
  | next creates _ _ run _ ih =>
      obtain ⟨same, none⟩ := ih
      obtain ⟨block, created⟩ := schedNewTask_done run
      rcases created.placed with ⟨_, slot, bound, _, free, _⟩ | ⟨null, _, table⟩
      · exact absurd (same ▸ free) (full slot bound)
      · exact ⟨table.trans same, List.forall_mem_cons.mpr ⟨null, none⟩⟩

/-- No task that is placed starts on a stack of its own, so all of them do only where none is placed. -/
theorem own_stacks_iff (creates : Creates schedIdle start creations after) :
    (∀ creation ∈ creations, creation.returned ≠ 0 → OwnStack after (holders held creations) creation) ↔
      creations = [] ∨ ∀ i < 256, start.schedTasks i ≠ 0 := by
  constructor
  · intro own
    by_contra neither
    obtain ⟨some, room⟩ := not_or.mp neither
    obtain ⟨i, hole⟩ := not_forall.mp room
    obtain ⟨bound, free⟩ := Classical.not_imp.mp hole
    obtain ⟨creation, member, placed⟩ := creates.placed some bound (not_not.mp free)
    exact creates.not_own member (own creation member placed)
  · intro none creation member placed
    rcases none with empty | full
    · exact absurd (empty ▸ member) List.not_mem_nil
    · exact absurd ((creates.full full).2 creation member) placed

/-- The sample machine, where the next task is placed behind the idle task. -/
theorem pcMachine_creates : ∃ booted installed held creation, ∃ start after : Machine,
    VmmInstalled (pcInfo 0x7EE0000 (by decide)) 0x220000 smallImage (pcSystem booted) installed ∧
    SystemRuns (2 ^ 20) (fun _ _ => True) installed ⟨start.kernel, held⟩ ∧
    start.schedTasks 1 = 0 ∧ Creates 0x201000 start.clearTasks [creation] after := by
  obtain ⟨booted, installed, started, sample, init, initFits, ascending⟩ := pcHeap
  obtain ⟨creation, after, _, creates⟩ :=
    (@Creates.none 0x201000 (freshMachine started.kernel 0).clearTasks).more ascending (by decide) (by decide) 0x201000
  exact ⟨booted, installed, started.held, creation, freshMachine started.kernel 0, after, sample.installed,
    .single init initFits trivial, rfl, creates⟩

theorem own_stacks_idle : ∃ booted installed held creations, ∃ start after : Machine,
    VmmInstalled (pcInfo 0x7EE0000 (by decide)) 0x220000 smallImage (pcSystem booted) installed ∧
    SystemRuns (2 ^ 20) (fun _ _ => True) installed ⟨start.kernel, held⟩ ∧
    Creates 0x201000 start.clearTasks creations after ∧
    ¬ ∀ creation ∈ creations, creation.returned ≠ 0 → OwnStack after (holders [] creations) creation := by
  obtain ⟨booted, installed, held, creation, start, after, behind, calls, _, creates⟩ := pcMachine_creates
  refine ⟨booted, installed, held, _, start, after, behind, calls, creates, ?_⟩
  rw [own_stacks_iff creates]
  intro none
  rcases none with empty | full
  · exact absurd empty (List.cons_ne_nil _ _)
  · exact full 0 (by decide) rfl

/-- The idle task's first push lands in the page below its stack. -/
theorem schedNewTask_stack_elsewhere : ∃ booted installed held creation, ∃ start after : Machine,
    VmmInstalled (pcInfo 0x7EE0000 (by decide)) 0x220000 smallImage (pcSystem booted) installed ∧
    SystemRuns (2 ^ 20) (fun _ _ => True) installed ⟨start.kernel, held⟩ ∧
    Creates 0x201000 start.clearTasks [creation] after ∧ creation.returned ≠ 0 ∧
    ¬ OwnStack after (holders held [creation]) creation := by
  obtain ⟨booted, installed, held, creation, start, after, behind, calls, _, creates⟩ := pcMachine_creates
  obtain ⟨placed, member, present⟩ := creates.placed (List.cons_ne_nil _ _) (show 0 < 256 by decide) rfl
  have same : placed = creation := List.mem_singleton.mp member
  subst same
  exact ⟨booted, installed, held, placed, start, after, behind, calls, creates, present, creates.not_own member⟩

end BarrelOS.Sched
