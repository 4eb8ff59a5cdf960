import BarrelOS.Sched.RoundRobin

namespace BarrelOS.Sched

open BarrelOS.Boot BarrelOS.Data BarrelOS.Memory BarrelOS.Semantics

/-- A call of `sched_new_task` that returns, with the live blocks of the heap before
and after it: the task's block is allocated, and none is freed. -/
inductive TaskCall (schedIdle handler : Nat) (before : Machine) (live : List Block) :
    Nat → Machine → List Block → Prop
  | call {fuel task returned : Nat} {kernel : Kernel} {after : Machine}
      (alloc : kmalloc fuel sizeofTask before.kernel = .done task kernel)
      (run : schedNewTask fuel schedIdle handler before = .done returned after) :
      TaskCall schedIdle handler before live returned after (⟨task, sizeofTask⟩ :: live)

/-- What a failed call should leave as it was. -/
structure Untouched (before : Machine) (live : List Block) (after : Machine) (blocks : List Block) : Prop where
  schedTasks : after.schedTasks = before.schedTasks
  schedPid : after.schedPid = before.schedPid
  bitmap : after.kernel.vmm.pmm.bitmap = before.kernel.vmm.pmm.bitmap
  live : ∀ block, block ∈ blocks ↔ block ∈ live

variable {fuel schedIdle handler returned task count lead limit : Nat} {start before after : Machine}
  {history : History} {live blocks : List Block}

/-- The pages of the block and of the stack are taken before the table is searched. -/
theorem NewTask.grows (created : NewTask fuel schedIdle handler task before returned after) :
    before.kernel.vmm.pmm.used ⊂ after.kernel.vmm.pmm.used := by
  obtain ⟨kernel, stack, pmm, alloc, again, kept, _⟩ := created.memory
  obtain ⟨phys, middle, taken, map, _⟩ := heapAlloc_done alloc
  have mapping := vmmMap_done (higherHalf_lt phys) map
  have block : before.kernel.vmm.pmm.used ⊂ middle.used := pmmAlloc_grows (by decide) taken
  have stacked : kernel.vmm.pmm.used ⊂ pmm.used := pmmAlloc_grows Nat.one_pos again
  rw [kept]
  exact block.trans_subset (mapping.kept.trans stacked.subset)

theorem NewTask.touches (created : NewTask fuel schedIdle handler task before returned after) :
    ¬ Untouched before live after blocks := by
  intro untouched
  have same : after.kernel.vmm.pmm.used = before.kernel.vmm.pmm.used := by
    simp only [Pmm.used, untouched.bitmap]
  exact created.grows.ne same.symm

/-- A call that returns `NULL` found the table full, and has taken pages, a block and,
unless it is for `sched_idle`, a process number, and given nothing back. -/
theorem failed_task_keeps_pages (call : TaskCall schedIdle handler before live 0 after blocks) :
    (∀ i < 256, before.schedTasks i ≠ 0) ∧ after.schedTasks = before.schedTasks ∧
      after.schedPid = (if handler = schedIdle then before.schedPid else (before.schedPid + 1) % 2 ^ 32) ∧
      before.kernel.vmm.pmm.used ⊂ after.kernel.vmm.pmm.used ∧ ¬ Untouched before live after blocks := by
  cases call with
  | call alloc run =>
      obtain ⟨task, created⟩ := schedNewTask_done run
      rcases created.placed with ⟨null, _⟩ | ⟨_, full, table⟩
      · obtain ⟨_, _, _, taken, _⟩ := created.memory
        exact absurd null.symm (kmalloc_ne_zero taken)
      · exact ⟨full, table, created.schedPid, created.grows, created.touches⟩

/-! A table that is full -/

/-- The first entries of `sched_tasks` are tasks, and the others are `NULL`. -/
def Filled (count : Nat) (machine : Machine) : Prop := ∀ i < 256, machine.schedTasks i ≠ 0 ↔ i < count

theorem Filled.slot {slot : Nat} (filled : Filled count before) (room : count < 256) (bound : slot < 256)
    (earlier : ∀ i < slot, before.schedTasks i ≠ 0) (free : before.schedTasks slot = 0) : slot = count := by
  have outside : ¬ slot < count := fun inside => (filled slot bound).mpr inside free
  by_contra other
  have hole : count < slot := by omega
  exact Nat.lt_irrefl _ ((filled count room).mp (earlier count hole))

theorem Filled.placed (filled : Filled count before) (room : count < 256)
    (run : schedNewTask fuel schedIdle handler before = .done returned after) :
    returned ≠ 0 ∧ Filled (count + 1) after := by
  obtain ⟨task, created⟩ := schedNewTask_done run
  obtain ⟨_, _, _, alloc, _⟩ := created.memory
  have block : task ≠ 0 := kmalloc_ne_zero alloc
  rcases created.placed with ⟨same, slot, bound, earlier, free, table⟩ | ⟨_, full, _⟩
  · have next : slot = count := filled.slot room bound earlier free
    subst slot
    refine ⟨same ▸ block, ?_⟩
    intro i inside
    rw [table]
    by_cases here : i = count
    · subst i
      rw [Function.update_self]
      exact iff_of_true block (Nat.lt_succ_self _)
    · rw [Function.update_of_ne here, filled i inside]
      omega
  · exact absurd ((filled count room).mp (full count room)) (Nat.lt_irrefl _)

/-- Every page below 8 MiB has a page table for its address in the higher half, and
the page tables are reached where they lie, in the first 4 MiB. -/
structure TablesReady (vmm : Vmm) : Prop where
  apart : vmm.tree.Apart
  writable : vmm.DirectoryWritable
  reached : vmm.Reached
  low : ∀ slot pt, vmm.tree.root slot = some pt → pt < 0x400000
  present : ∀ page < 0x800, vmm.tree.root (higherHalf (pageAddress page) >>> 22) ≠ none

theorem TablesReady.withPmm {vmm : Vmm} (ready : TablesReady vmm) (pmm : Pmm) : TablesReady { vmm with pmm } :=
  ⟨ready.apart, ready.writable, ⟨ready.reached.tables, ready.reached.derefs⟩, ready.low, ready.present⟩

theorem TablesReady.map {page phys flags : Nat} {before after : Vmm} (ready : TablesReady before) (inside : page < 0x800)
    (run : vmmMap fuel phys (higherHalf (pageAddress page)) flags before = .done () after) : TablesReady after := by
  have mapping := vmmMap_done (higherHalf_lt _) run
  have fresh : FreshTable fuel (higherHalf (pageAddress page)) before after :=
    fun _ vacant => absurd vacant (ready.present page inside)
  have high : 0xC0000000 ≤ higherHalf (pageAddress page) := by
    unfold higherHalf pageAddress
    omega
  have root : after.tree.root = before.tree.root := by
    cases mapping with
    | shared _ _ tree => rw [tree, Directory.write_root]
    | created vacant => exact absurd vacant (ready.present page inside)
  refine ⟨mapping.apart fresh ready.apart, mapping.writable ready.writable, ?_, fun slot pt used => ?_, fun other below => ?_⟩
  · refine mapping.reached fresh ready.apart ready.writable (higherHalf_lt _) ready.reached
      (fun _ vacant => absurd vacant (ready.present page inside)) fun slot pt used => ?_
    have low := ready.low slot pt used
    omega
  · rw [root] at used
    exact ready.low slot pt used
  · rw [root]
    exact ready.present other below

theorem NewTask.ready (created : NewTask fuel schedIdle handler task before returned after)
    (ready : TablesReady before.kernel.vmm) (ascending : before.kernel.vmm.pmm.Ascending lead limit) (room : lead + 1 ≤ limit)
    (inside : lead < 0x800) : TablesReady after.kernel.vmm := by
  obtain ⟨kernel, stack, pmm, alloc, _, same, _⟩ := created.memory
  obtain ⟨phys, middle, taken, map, _⟩ := heapAlloc_done alloc
  obtain ⟨rfl, _⟩ := ascending.taken (by decide) room taken
  rw [same]
  exact ((ready.withPmm middle).map inside map).withPmm pmm

theorem schedInstall_ready (run : schedInstall fuel schedIdle before = .done () after) (ready : TablesReady before.kernel.vmm)
    (ascending : before.kernel.vmm.pmm.Ascending lead limit) (room : lead + 1 ≤ limit) (inside : lead < 0x800) :
    TablesReady after.kernel.vmm := by
  obtain ⟨returned, placed, create, finished⟩ := Outcome.bind_done.mp run
  obtain ⟨task, created⟩ := schedNewTask_done create
  cases finished
  exact created.ready ready ascending room inside

theorem SchedRuns.fills (runs : SchedRuns schedIdle start history before) (filled : Filled count before)
    (ready : TablesReady before.kernel.vmm) (ascending : before.kernel.vmm.pmm.Ascending lead limit) (below : limit ≤ 0x800)
    (handler more : Nat) (fits : count + more ≤ 256) (room : lead + 3 * more ≤ limit) :
    ∃ later after behind, SchedRuns schedIdle start later after ∧ Filled (count + more) after ∧
      TablesReady after.kernel.vmm ∧ after.kernel.vmm.pmm.Ascending behind limit ∧ behind ≤ lead + 3 * more := by
  induction more with
  | zero => exact ⟨history, before, lead, runs, filled, ready, ascending, Nat.le_refl _⟩
  | succ more ih =>
      obtain ⟨later, middle, behind, earlier, full, prepared, following, reach⟩ := ih (by omega) (by omega)
      obtain ⟨fuel, returned, after, run, handed, last, bound, ends⟩ :=
        @schedNewTask_ascending schedIdle handler middle behind limit following (by omega) (by omega)
      obtain ⟨placed, longer⟩ := full.placed (by omega) run
      obtain ⟨task, created⟩ := schedNewTask_done run
      exact ⟨_, after, last, earlier.newTask run handed placed, longer,
        created.ready prepared following (by omega) (by omega), ends, by omega⟩

theorem schedInstall_filled (run : schedInstall fuel schedIdle before = .done () after) : Filled 1 after :=
  fun _ bound => (schedInstall_table run).entry_ne_zero bound

/-! A machine with 8 MiB, whose ACPI tables lie at their end -/

/-- `malloc_init`, the `vmm_map` of `acpi_install` for the RSDT, and a block of 100
bytes: both halves of the 8 MiB have a page table then. -/
theorem pcSmall_ready : ∃ booted installed system lead,
    VmmInstalled (pcInfo 0x6E0000 (by decide)) 0x220000 smallImage (pcSystem booted) installed ∧
    SystemRuns (2 ^ 20) (fun _ _ => True) installed system ∧ TablesReady system.kernel.vmm ∧
    lead ≤ 0x227 ∧ system.kernel.vmm.pmm.Ascending lead 0x6E0 := by
  have size : 0x220 + bitmapSizeOf (pcRegion 0x6E0000 (by decide)) / 4096 = 0x221 := by decide
  obtain ⟨booted, installed, sample⟩ : ∃ booted installed, PcInstalled 0x6E0000 (by decide) 0x221 (pcSystem booted) installed :=
    size ▸ pcSystem_installed 0x6E0000 (by decide) (by decide) (by decide) (by decide) (by decide) (by decide)
  have ascending : installed.kernel.vmm.pmm.Ascending 0x222 0x6E0 := sample.ascending
  -- `malloc_init`
  have initRoom : 0x222 + Call.mallocInit.most ≤ 0x6E0 := by decide
  obtain ⟨started, init, following⟩ := ascending.mallocInit sample.unheld initRoom
  have initFits : Fits (2 ^ 20) installed .mallocInit := ascending.fits trivial initRoom (by decide)
  have opened := (sample.anchored (by decide) (by decide)).step init initFits
    (ascending.takesLow trivial initRoom (by decide)) nofun
  have tree : started.vmm.tree = installed.kernel.vmm.tree := init.mallocInit_tree
  generalize [Holder.heap (started.head started.kernelHeap), .heap started.kernelHeap] = held at init opened
  -- `acpi_install`
  have opening : (System.mk started held).kernel.vmm.pmm.Ascending 0x224 0x6E0 := following
  have mapRoom : 0x224 + (Call.vmmMap 0x7E1000 0xC07E1000 ptePresent).most ≤ 0x6E0 := by decide
  obtain ⟨fuel, vmm, map, behind, _⟩ := opening.mapping 0x7E1000 ptePresent (show 0xC07E1000 < 2 ^ 32 by decide) mapRoom
  have mapped := map fuel (Nat.le_refl _)
  have makes : Makes ⟨started, held⟩ (.vmmMap 0x7E1000 0xC07E1000 ptePresent) ⟨started.withVmm vmm, held⟩ :=
    .vmmMap (by decide) mapped
  have mapFits : Fits (2 ^ 20) ⟨started, held⟩ (.vmmMap 0x7E1000 0xC07E1000 ptePresent) :=
    opening.fits trivial mapRoom (by decide)
  have extended := opened.step makes mapFits (opening.takesLow trivial mapRoom (by decide)) fun named names => by
    cases names
    decide
  rw [if_pos (show started.vmm.tree.root (0xC07E1000 >>> 22) = none by rw [tree]; exact sample.root _)] at behind
  -- a block
  have next : (System.mk (started.withVmm vmm) held).kernel.vmm.pmm.Ascending 0x225 0x6E0 := behind
  have room : 0x225 + (Call.heapAlloc 100).most ≤ 0x6E0 := by decide
  obtain ⟨after, alloc, last⟩ := next.heapAlloc (n := 100) (by decide) room
  have fits : Fits (2 ^ 20) ⟨started.withVmm vmm, held⟩ (.heapAlloc 100) :=
    next.fits (show 0 < heapPages 100 by decide) room (by decide)
  have ready := extended.step alloc fits (next.takesLow (show 0 < heapPages 100 by decide) room (by decide)) fun named names => by
    cases names with
    | block request =>
        rw [(next.block (by decide) (by decide) request).2]
        decide
  have first : after.vmm.tree.root 0x300 ≠ none ∧ after.vmm.tree.root 0x301 ≠ none := by
    cases alloc with
    | heapAlloc _ run =>
        obtain ⟨phys, pmm, taken, again, _⟩ := heapAlloc_done run
        obtain ⟨rfl, _⟩ := next.taken (by decide) (by decide) taken
        have mapping := vmmMap_done (higherHalf_lt _) again
        have earlier : vmm.tree.root 0x301 ≠ none := (vmmMap_done (by decide) mapped).present
        exact ⟨mapping.present, (root_eq (mapping.directory_kept earlier)).trans_ne earlier⟩
  refine ⟨booted, installed, ⟨after, _⟩, _, sample.installed,
    ((SystemRuns.single init initFits trivial).step makes mapFits trivial).step alloc fits trivial,
    ⟨ready.apart, ready.writable, ready.reached, fun slot pt used => (ready.tables slot pt used).2, fun page below => ?_⟩, ?_, last⟩
  · rcases Nat.lt_or_ge page 0x400 with low | high
    · rw [show higherHalf (pageAddress page) >>> 22 = 0x300 by rw [slotOf_eq]; unfold higherHalf pageAddress; omega]
      exact first.1
    · rw [show higherHalf (pageAddress page) >>> 22 = 0x301 by rw [slotOf_eq]; unfold higherHalf pageAddress; omega]
      exact first.2
  · split <;> decide

theorem pcMachine_full : ∃ booted installed held history fuel, ∃ start before after : Machine,
    VmmInstalled (pcInfo 0x6E0000 (by decide)) 0x220000 smallImage (pcSystem booted) installed ∧
    SystemRuns (2 ^ 20) (fun _ _ => True) installed ⟨start.kernel, held⟩ ∧
    SchedRuns 0x201000 start history before ∧ schedNewTask fuel 0x201000 0x202000 before = .done 0 after ∧
    ∀ entry ∈ after.kernel.vmm.derefs, entry.2 = true := by
  obtain ⟨booted, installed, system, lead, behind, calls, ready, low, ascending⟩ := pcSmall_ready
  obtain ⟨fuel, idle, install, handed, _, next, reach, following⟩ :=
    freshMachine_returns 0 0x201000 ascending (show lead + 3 ≤ 0x6E0 by omega) (by decide)
  have opened : SchedRuns 0x201000 (freshMachine system.kernel 0) _ idle := .install install handed
  have prepared := schedInstall_ready install ready ascending (by omega) (by omega)
  obtain ⟨history, before, last, runs, full, still, ends, bound⟩ :=
    opened.fills (schedInstall_filled install) prepared following (by decide) 0x202000 255 (by decide) (by omega)
  obtain ⟨more, returned, after, run, _⟩ :=
    @schedNewTask_ascending 0x201000 0x202000 before last 0x6E0 ends (by omega) (by decide)
  obtain ⟨task, created⟩ := schedNewTask_done run
  have mapped := created.ready still ends (by omega) (by omega)
  rcases created.placed with ⟨_, slot, inside, _, free, _⟩ | ⟨null, _⟩
  · exact absurd free ((full slot inside).mpr inside)
  · exact ⟨booted, installed, system.held, history, more, _, before, after, behind, calls, runs, null ▸ run, mapped.reached.derefs⟩

theorem failed_task_keeps_pages_full : ∃ history start before after live blocks,
    SchedRuns 0x201000 start history before ∧ TaskCall 0x201000 0x202000 before live 0 after blocks ∧
    ¬ Untouched before live after blocks := by
  obtain ⟨_, _, _, history, fuel, start, before, after, _, _, runs, run, _⟩ := pcMachine_full
  obtain ⟨task, created⟩ := schedNewTask_done run
  obtain ⟨kernel, _, _, alloc, _⟩ := created.memory
  have call : TaskCall 0x201000 0x202000 before [] 0 after [⟨task, sizeofTask⟩] := .call alloc run
  exact ⟨history, start, before, after, _, _, runs, call, (failed_task_keeps_pages call).2.2.2.2⟩

/-- The 257th task gets no place, and its pages stay reserved. No page table was out
of reach on the way. -/
theorem schedNewTask_full_takes_pages : ∃ booted installed held history fuel, ∃ start before after : Machine,
    VmmInstalled (pcInfo 0x6E0000 (by decide)) 0x220000 smallImage (pcSystem booted) installed ∧
    SystemRuns (2 ^ 20) (fun _ _ => True) installed ⟨start.kernel, held⟩ ∧
    SchedRuns 0x201000 start history before ∧ schedNewTask fuel 0x201000 0x202000 before = .done 0 after ∧
    (∀ entry ∈ after.kernel.vmm.derefs, entry.2 = true) ∧ ∀ live blocks, ¬ Untouched before live after blocks := by
  obtain ⟨booted, installed, held, history, fuel, start, before, after, behind, calls, runs, run, derefs⟩ := pcMachine_full
  obtain ⟨task, created⟩ := schedNewTask_done run
  exact ⟨booted, installed, held, history, fuel, start, before, after, behind, calls, runs, run, derefs,
    fun _ _ => created.touches⟩

end BarrelOS.Sched
