import BarrelOS.Data.Caches
import BarrelOS.Memory.PageMap

namespace BarrelOS.Memory

open BarrelOS.Data BarrelOS.Semantics

/-! `vmm_map` and `vmm_unmap` store by store -/

/-- What a call does to the page tables and to the bitmap, and `vmm_flush_tlb`. -/
inductive VmmStore where
  | table (page index word : Nat)
  | directory (index word : Nat)
  | free (page : Nat)
  | invlpg (virt : Nat)
deriving DecidableEq, Repr

def VmmStore.perform (vmm : Vmm) : VmmStore → Vmm
  | .table page index word => vmm.store page index word
  | .directory index word => vmm.setDirectory index word
  | .free page => { vmm with pmm := pmmFree page 1 vmm.pmm }
  | .invlpg _ => vmm

/-- The `for` loop over a new table. -/
def clearStores (newPt : Nat) : List VmmStore := (List.range 1024).map fun i => .table newPt i 0

def mapStores (fuel phys virt flags : Nat) (vmm : Vmm) : Outcome Vmm (List VmmStore) :=
  let pdindex := virt >>> 22
  let ptindex := virt >>> 12 &&& 0x3FF
  if vmm.pageDirectory pdindex &&& 0x1 = 0 then
    ((pmmAlloc fuel 1 vmm.pmm).within fun pmm => { vmm with pmm }).bind fun newPt vmm =>
      .done (clearStores newPt ++ [.directory pdindex (tableWord newPt), .table (pageBase (tableWord newPt)) ptindex (pageBase phys ||| flags),
        .invlpg virt]) vmm
  else .done [.table (pageBase (vmm.pageDirectory pdindex)) ptindex (pageBase phys ||| flags), .invlpg virt] vmm

def unmapStores (virt : Nat) (vmm : Vmm) : List VmmStore :=
  let pdindex := virt >>> 22
  let ptindex := virt >>> 12 &&& 0x3FF
  if vmm.pageDirectory pdindex &&& 0x1 = 0 then [.invlpg virt]
  else
    let pt := pageBase (vmm.pageDirectory pdindex)
    .table pt ptindex 0 ::
      if tableEmpty (vmm.store pt ptindex 0) pt then [.free pt, .directory pdindex 0, .invlpg virt] else [.invlpg virt]

/-! The processor between the stores -/

/-- The page tables, what the processor remembers of them, and the stores that a call still has to make. -/
structure Mmu where
  vmm : Vmm
  caches : Caches Nat Nat Nat (Nat × Nat)
  pending : List VmmStore

namespace Mmu

def perform (store : VmmStore) (rest : List VmmStore) (mmu : Mmu) : Mmu where
  vmm := store.perform mmu.vmm
  caches :=
    match store with
    | .invlpg virt => mmu.caches.flush (virt >>> 22) (virt >>> 12 &&& 0x3FF)
    | _ => mmu.caches
  pending := rest

end Mmu

/-- The states of runs of `vmm_map` and `vmm_unmap`, in which the processor fills its caches between any
two stores. A page that becomes a page table is not in use as one. -/
inductive Reaches (start : Vmm) : List PageOp → Mmu → Prop
  | start : Reaches start [] ⟨start, .empty, []⟩
  | fill {ops : List PageOp} {mmu : Mmu} {caches : Caches Nat Nat Nat (Nat × Nat)}
      (reach : Reaches start ops mmu)
      (fills : mmu.caches.Fills mmu.vmm.tree caches) :
      Reaches start ops { mmu with caches }
  | store {ops : List PageOp} {mmu : Mmu} {store : VmmStore} {rest : List VmmStore}
      (reach : Reaches start ops mmu)
      (next : mmu.pending = store :: rest) :
      Reaches start ops (mmu.perform store rest)
  | map {ops : List PageOp} {mmu : Mmu} {fuel phys virt flags : Nat} {stores : List VmmStore} {vmm : Vmm}
      (reach : Reaches start ops mmu)
      (idle : mmu.pending = [])
      (address : virt < 2 ^ 32)
      (small : flags < 4096)
      (present : Present flags)
      (run : mapStores fuel phys virt flags mmu.vmm = .done stores vmm)
      (fresh : ∀ pt pmm, mmu.vmm.tree.root (virt >>> 22) = none → pmmAlloc fuel 1 mmu.vmm.pmm = .done pt pmm → mmu.vmm.tree.Unused pt) :
      Reaches start (ops ++ [.map phys virt flags]) { mmu with vmm, pending := stores }
  | unmap {ops : List PageOp} {mmu : Mmu} {virt : Nat}
      (reach : Reaches start ops mmu)
      (idle : mmu.pending = [])
      (address : virt < 2 ^ 32) :
      Reaches start (ops ++ [.unmap virt]) { mmu with pending := unmapStores virt mmu.vmm }

/-- The same but for the record of the pointers used. -/
structure SameTables (vmm other : Vmm) : Prop where
  pmm : other.pmm = vmm.pmm
  pageDirectory : other.pageDirectory = vmm.pageDirectory
  memory : other.memory = vmm.memory

variable {fuel phys virt flags pt word : Nat} {start vmm before middle after : Vmm} {stores rest : List VmmStore} {store : VmmStore}
  {ops : List PageOp} {mmu : Mmu} {pages : PageMap} {entry : Option (Nat × Nat)}

/-! The stores are those of the calls -/

theorem clearStores_perform (newPt : Nat) (vmm : Vmm) : (clearStores newPt).foldl VmmStore.perform vmm = clearTable newPt vmm := by
  have some_words : ∀ count, ((List.range count).map fun i => VmmStore.table newPt i 0).foldl VmmStore.perform vmm =
      { vmm with memory := Function.update vmm.memory newPt fun i => if i < count then 0 else vmm.memory newPt i } := by
    intro count
    induction count with
    | zero =>
        refine congrArg (fun memory => { vmm with memory }) (Eq.symm ?_)
        exact Function.update_eq_self newPt vmm.memory
    | succ count ih =>
        rw [List.range_succ, List.map_append, List.foldl_append, ih]
        refine congrArg (fun memory => { vmm with memory }) ?_
        simp only [Function.update_self, Function.update_idem]
        refine congrArg (Function.update vmm.memory newPt) (funext fun i => ?_)
        by_cases last : i = count
        · rw [last, Function.update_self, if_pos (Nat.lt_succ_self count)]
        · rw [Function.update_of_ne last]
          exact if_congr (by omega) rfl rfl
  exact some_words 1024

theorem vmmMap_stores (run : mapStores fuel phys virt flags before = .done stores middle) :
    ∃ after, vmmMap fuel phys virt flags before = .done () after ∧ SameTables (stores.foldl VmmStore.perform middle) after := by
  unfold mapStores at run
  by_cases vacant : before.pageDirectory (virt >>> 22) &&& 0x1 = 0
  · rw [if_pos vacant] at run
    obtain ⟨newPt, allocated, search, listed⟩ := Outcome.bind_done.mp run
    obtain ⟨rfl, rfl⟩ := Outcome.done.inj listed
    have table : newTable fuel (virt >>> 22) before =
        .done () ((clearTable newPt (allocated.deref newPt)).setDirectory (virt >>> 22) (tableWord newPt)) :=
      Outcome.bind_done.mpr ⟨newPt, allocated, search, rfl⟩
    refine ⟨_, Outcome.bind_done.mpr ⟨(), _, (if_pos vacant).trans table, rfl⟩, ?_⟩
    rw [List.foldl_append, clearStores_perform]
    simp only [List.foldl_cons, List.foldl_nil, VmmStore.perform, Vmm.setDirectory, Function.update_self]
    exact ⟨rfl, rfl, rfl⟩
  · rw [if_neg vacant] at run
    cases run
    exact ⟨_, Outcome.bind_done.mpr ⟨(), before, if_neg vacant, rfl⟩, rfl, rfl, rfl⟩

theorem vmmUnmap_stores (virt : Nat) (vmm : Vmm) :
    SameTables ((unmapStores virt vmm).foldl VmmStore.perform vmm) (vmmUnmap virt vmm) := by
  unfold vmmUnmap unmapStores
  by_cases vacant : vmm.pageDirectory (virt >>> 22) &&& 0x1 = 0
  · simp only [if_pos vacant]
    exact ⟨rfl, rfl, rfl⟩
  · simp only [if_neg vacant]
    generalize pageBase (vmm.pageDirectory (virt >>> 22)) = pt
    have scan : tableEmpty (((vmm.deref pt).store pt (virt >>> 12 &&& 0x3FF) 0).deref pt) pt =
        tableEmpty (vmm.store pt (virt >>> 12 &&& 0x3FF) 0) pt := rfl
    rw [scan]
    split <;> exact ⟨rfl, rfl, rfl⟩

theorem mapStores_derefs (derefs : List (Nat × Bool)) (run : mapStores fuel phys virt flags before = .done stores middle) :
    mapStores fuel phys virt flags { before with derefs } = .done stores { middle with derefs } := by
  unfold mapStores at run ⊢
  by_cases vacant : before.pageDirectory (virt >>> 22) &&& 0x1 = 0
  · rw [if_pos vacant] at run ⊢
    obtain ⟨newPt, allocated, search, listed⟩ := Outcome.bind_done.mp run
    obtain ⟨pmm, alloc, embedded⟩ := Outcome.within_done.mp search
    obtain ⟨rfl, rfl⟩ := Outcome.done.inj listed
    cases embedded
    rw [alloc]
    rfl
  · rw [if_neg vacant] at run ⊢
    cases run
    rfl

namespace SameTables

theorem tree (same : SameTables before after) : after.tree = before.tree := by
  rw [Vmm.tree, Vmm.tree, same.pageDirectory, same.memory]

theorem eq (same : SameTables before after) : after = { before with derefs := after.derefs } := by
  obtain ⟨pmm, pageDirectory, memory⟩ := same
  cases after
  cases pmm
  cases pageDirectory
  cases memory
  rfl

theorem trans (first : SameTables before middle) (second : SameTables middle after) : SameTables before after :=
  ⟨second.pmm.trans first.pmm, second.pageDirectory.trans first.pageDirectory, second.memory.trans first.memory⟩

theorem perform (same : SameTables before after) (stores : List VmmStore) :
    SameTables (stores.foldl VmmStore.perform before) (stores.foldl VmmStore.perform after) := by
  induction stores generalizing before after with
  | nil => exact same
  | cons store rest ih =>
      refine ih ?_
      rw [same.eq]
      cases store <;> exact ⟨rfl, rfl, rfl⟩

end SameTables

theorem VmmRun.snoc {op : PageOp} (run : VmmRun before ops middle) (step : VmmStep middle op after) : VmmRun before (ops ++ [op]) after := by
  induction run with
  | nil => exact .cons step .nil
  | cons first _ ih => exact .cons first (ih step)

/-- Behind its stores the tables are those that the calls leave one after another. -/
theorem Reaches.calls (reach : Reaches start ops mmu) :
    ∃ after, VmmRun start ops after ∧ SameTables (mmu.pending.foldl VmmStore.perform mmu.vmm) after := by
  induction reach with
  | start => exact ⟨start, .nil, rfl, rfl, rfl⟩
  | fill _ _ ih => exact ih
  | store _ next ih =>
      rw [next] at ih
      exact ih
  | @map ops mmu fuel phys virt flags stores vmm _ idle address small present run fresh ih =>
      obtain ⟨before, calls, same⟩ := ih
      rw [idle, List.foldl_nil] at same
      obtain ⟨after, mapped, left⟩ := vmmMap_stores (mapStores_derefs before.derefs run)
      rw [← same.eq] at mapped
      have logged : SameTables vmm { vmm with derefs := before.derefs } := ⟨rfl, rfl, rfl⟩
      refine ⟨after, calls.snoc (.map address small present mapped fun pt vacant alloc => ?_), (logged.perform stores).trans left⟩
      rw [same.tree] at vacant ⊢
      rw [same.pmm] at alloc
      exact fresh pt _ vacant alloc
  | @unmap ops mmu virt _ idle address ih =>
      obtain ⟨before, calls, same⟩ := ih
      rw [idle, List.foldl_nil] at same
      have stores : unmapStores virt before = unmapStores virt mmu.vmm := by
        rw [same.eq]
        rfl
      refine ⟨vmmUnmap virt before, calls.snoc (.unmap address), (same.perform _).trans ?_⟩
      rw [← stores]
      exact vmmUnmap_stores virt before

/-! Each state between the stores -/

/-- Between two calls the processor remembers nothing that the page tables do not say. -/
structure Idle (pages : PageMap) (mmu : Mmu) : Prop where
  refines : Refines mmu.vmm pages
  coherent : mmu.caches.Coherent mmu.vmm.tree
  pending : mmu.pending = []

/-- The stores of a call that gives the page of an address an entry. The page map changes with the store of the entry. -/
inductive Stage (virt : Nat) (entry : Option (Nat × Nat)) (pages : PageMap) (mmu : Mmu) : Prop
  | clearing {pt word : Nat} {left : List Nat}
      (refines : Refines mmu.vmm pages)
      (coherent : mmu.caches.Coherent mmu.vmm.tree)
      (vacant : mmu.vmm.tree.root (virt >>> 22) = none)
      (unused : mmu.vmm.tree.Unused pt)
      (page : pt < 2 ^ 32 ∧ pt % 4096 = 0)
      (inside : ∀ i ∈ left, i < 1024)
      (zero : ∀ i < 1024, i ∉ left → mmu.vmm.memory pt i = 0)
      (same : entryOf word = entry)
      (pending : mmu.pending = left.map (fun i => .table pt i 0) ++
        [.directory (virt >>> 22) (tableWord pt), .table pt (virt >>> 12 &&& 0x3FF) word, .invlpg virt])
  | linked {pt word : Nat} {rest : List VmmStore}
      (refines : Refines mmu.vmm pages)
      (coherent : mmu.caches.Coherent mmu.vmm.tree)
      (here : mmu.vmm.tree.root (virt >>> 22) = some pt)
      (same : entryOf word = entry)
      (pending : mmu.pending = .table pt (virt >>> 12 &&& 0x3FF) word :: rest)
      (left : rest = [.invlpg virt] ∨ rest = [.free pt, .directory (virt >>> 22) 0, .invlpg virt] ∧
        ∀ position, (mmu.vmm.store pt (virt >>> 12 &&& 0x3FF) word).tree.table pt position = none)
  | emptied {pt : Nat}
      (refines : Refines mmu.vmm (Function.update pages (virt / 4096) entry))
      (settling : mmu.caches.Settling (virt >>> 22) (virt >>> 12 &&& 0x3FF) (pages (virt / 4096)) mmu.vmm.tree)
      (here : mmu.vmm.tree.root (virt >>> 22) = some pt)
      (empty : ∀ position, mmu.vmm.tree.table pt position = none)
      (pending : mmu.pending = [.free pt, .directory (virt >>> 22) 0, .invlpg virt] ∨
        mmu.pending = [.directory (virt >>> 22) 0, .invlpg virt])
  | written
      (refines : Refines mmu.vmm (Function.update pages (virt / 4096) entry))
      (settling : mmu.caches.Settling (virt >>> 22) (virt >>> 12 &&& 0x3FF) (pages (virt / 4096)) mmu.vmm.tree)
      (pending : mmu.pending = [.invlpg virt])

theorem Refines.keeps (refines : Refines before pages) (apart : after.tree.Apart)
    (same : ∀ slot index, after.tree.lookup slot index = before.tree.lookup slot index) : Refines after pages where
  apart := apart
  walk := by
    intro virt bound
    rw [walk_eq_lookup bound, same, ← walk_eq_lookup bound]
    exact refines.walk virt bound

theorem Refines.writes (refines : Refines before pages) (apart : after.tree.Apart)
    (same : ∀ slot index, after.tree.lookup slot index =
      if slot = virt >>> 22 ∧ index = virt >>> 12 &&& 0x3FF then entry else before.tree.lookup slot index) :
    Refines after (Function.update pages (virt / 4096) entry) where
  apart := apart
  walk := by
    intro other bound
    rw [walk_eq_lookup bound, same, ← walk_eq_lookup bound, refines.walk other bound, Function.update_apply]
    exact if_congr (samePage_iff virt other) rfl rfl

theorem tree_link {slot : Nat} (bound : slot < 1024) (page : pt < 2 ^ 32 ∧ pt % 4096 = 0) (zero : ∀ i < 1024, vmm.memory pt i = 0) :
    (vmm.setDirectory slot (tableWord pt)).tree = vmm.tree.attach slot pt := by
  have base := pageBase_tableWord page.1 page.2
  have attached : ((clearTable (pageBase (tableWord pt)) vmm).setDirectory slot (tableWord pt)).tree =
      vmm.tree.attach slot (pageBase (tableWord pt)) := tree_attach bound (tableWord_present page.1 page.2)
  have cleared : clearTable pt vmm = vmm := by
    refine congrArg (fun memory => { vmm with memory }) ((congrArg (Function.update vmm.memory pt) (funext fun i => ?_)).trans
      (Function.update_eq_self pt vmm.memory))
    split
    · exact (zero i ‹_›).symm
    · rfl
  rw [base, cleared] at attached
  exact attached

theorem Stage.perform (stage : Stage virt entry pages mmu) (address : virt < 2 ^ 32) (next : mmu.pending = store :: rest) :
    Stage virt entry pages (mmu.perform store rest) ∨ Idle (Function.update pages (virt / 4096) entry) (mmu.perform store rest) := by
  have index := indexOf_lt virt
  cases stage with
  | @clearing pt word left refines coherent vacant unused page inside zero same pending =>
      rw [pending] at next
      cases left with
      | nil =>
          cases next
          have tree : (mmu.vmm.setDirectory (virt >>> 22) (tableWord pt)).tree = mmu.vmm.tree.attach (virt >>> 22) pt :=
            tree_link (slotOf_lt address) page fun i low => zero i low List.not_mem_nil
          refine .inl (.linked (refines.keeps ?_ fun slot position => ?_) ?_ ?_ same rfl (.inl rfl))
          · exact tree ▸ refines.apart.attach unused
          · exact tree ▸ Directory.lookup_attach unused vacant
          · exact tree ▸ coherent.attach unused vacant
          · exact tree ▸ Function.update_self ..
      | cons i left =>
          cases next
          have low : i < 1024 := inside i List.mem_cons_self
          have tree : (mmu.vmm.store pt i 0).tree = mmu.vmm.tree.write pt i none := Vmm.tree_store low
          refine .inl (.clearing (refines.keeps ?_ fun slot position => ?_) ?_ ?_ ?_ page
            (fun j member => inside j (List.mem_cons_of_mem i member)) (fun j below absent => ?_) same rfl)
          · exact tree ▸ refines.apart.write
          · exact tree ▸ Directory.lookup_write_unused unused
          · exact tree ▸ coherent.write_unused unused
          · exact tree ▸ vacant
          · exact tree ▸ unused
          · change Function.update mmu.vmm.memory pt (Function.update (mmu.vmm.memory pt) i 0) pt j = 0
            rw [Function.update_self, Function.update_apply]
            split
            · rfl
            · exact zero j below (List.not_mem_cons_of_ne_of_not_mem ‹_› absent)
  | @linked pt word after refines coherent here same pending left =>
      rw [pending] at next
      cases next
      have tree : (mmu.vmm.store pt (virt >>> 12 &&& 0x3FF) word).tree =
          mmu.vmm.tree.write pt (virt >>> 12 &&& 0x3FF) entry := (Vmm.tree_store index).trans (congrArg _ same)
      have old : mmu.vmm.tree.lookup (virt >>> 22) (virt >>> 12 &&& 0x3FF) = pages (virt / 4096) :=
        (walk_eq_lookup address).symm.trans (refines.walk virt address)
      have stored : Refines (mmu.vmm.store pt (virt >>> 12 &&& 0x3FF) word) (Function.update pages (virt / 4096) entry) := by
        refine refines.writes (tree ▸ refines.apart.write) fun slot position => ?_
        exact tree ▸ Directory.lookup_write refines.apart here
      have settling : mmu.caches.Settling (virt >>> 22) (virt >>> 12 &&& 0x3FF) (pages (virt / 4096))
          (mmu.vmm.store pt (virt >>> 12 &&& 0x3FF) word).tree := tree ▸ old ▸ coherent.write refines.apart here
      rcases left with rfl | ⟨rfl, empty⟩
      · exact .inl (.written stored settling rfl)
      · exact .inl (.emptied stored settling (tree ▸ here) empty (.inl rfl))
  | @emptied pt refines settling here empty pending =>
      rcases pending with pending | pending
      · rw [pending] at next
        cases next
        exact .inl (.emptied ⟨refines.apart, refines.walk⟩ settling here empty (.inr rfl))
      · rw [pending] at next
        cases next
        have tree : (mmu.vmm.setDirectory (virt >>> 22) 0).tree = mmu.vmm.tree.detach (virt >>> 22) := Vmm.tree_detach
        refine .inl (.written (refines.keeps ?_ fun slot position => ?_) ?_ rfl)
        · exact tree ▸ refines.apart.detach
        · exact tree ▸ Directory.lookup_detach here empty
        · exact tree ▸ settling.detach here empty
  | written refines settling pending =>
      rw [pending] at next
      cases next
      exact .inr ⟨refines, settling.flush, rfl⟩

theorem Stage.fills {caches : Caches Nat Nat Nat (Nat × Nat)} (stage : Stage virt entry pages mmu)
    (fills : mmu.caches.Fills mmu.vmm.tree caches) : Stage virt entry pages { mmu with caches } := by
  cases stage with
  | clearing refines coherent vacant unused page inside zero same pending =>
      exact .clearing refines (coherent.fills fills) vacant unused page inside zero same pending
  | linked refines coherent here same pending left => exact .linked refines (coherent.fills fills) here same pending left
  | emptied refines settling here empty pending => exact .emptied refines (settling.fills fills) here empty pending
  | written refines settling pending => exact .written refines (settling.fills fills) pending

theorem mapStores_stage (idle : Idle pages mmu) (address : virt < 2 ^ 32) (small : flags < 4096) (present : Present flags)
    (run : mapStores fuel phys virt flags mmu.vmm = .done stores vmm)
    (fresh : ∀ pt pmm, mmu.vmm.tree.root (virt >>> 22) = none → pmmAlloc fuel 1 mmu.vmm.pmm = .done pt pmm → mmu.vmm.tree.Unused pt) :
    Stage virt (some (pageBase phys, flags)) pages { mmu with vmm, pending := stores } := by
  obtain ⟨refines, coherent, _⟩ := idle
  have slot := slotOf_lt address
  unfold mapStores at run
  by_cases vacant : mmu.vmm.pageDirectory (virt >>> 22) &&& 0x1 = 0
  · rw [if_pos vacant] at run
    obtain ⟨newPt, allocated, search, listed⟩ := Outcome.bind_done.mp run
    obtain ⟨pmm, alloc, rfl⟩ := Outcome.within_done.mp search
    obtain ⟨rfl, rfl⟩ := Outcome.done.inj listed
    have page := pmmAlloc_aligned alloc
    have root : mmu.vmm.tree.root (virt >>> 22) = none := (Vmm.tree_root_none slot).mpr (not_not.mpr vacant)
    refine .clearing ⟨refines.apart, refines.walk⟩ coherent root (fresh newPt pmm root alloc) page
      (fun i (member : i ∈ List.range 1024) => List.mem_range.mp member) (fun i low absent => absurd (List.mem_range.mpr low) absent)
      (entryOf_flags small present) ?_
    rw [pageBase_tableWord page.1 page.2]
    rfl
  · rw [if_neg vacant] at run
    cases run
    exact .linked refines coherent (Vmm.tree_root_some.mpr ⟨slot, vacant, rfl⟩) (entryOf_flags small present) rfl (.inl rfl)

theorem unmapStores_stage (idle : Idle pages mmu) (address : virt < 2 ^ 32) :
    Stage virt none pages { mmu with pending := unmapStores virt mmu.vmm } := by
  obtain ⟨refines, coherent, _⟩ := idle
  have slot := slotOf_lt address
  unfold unmapStores
  by_cases vacant : mmu.vmm.pageDirectory (virt >>> 22) &&& 0x1 = 0
  · have absent : pages (virt / 4096) = none := by
      rw [← refines.walk virt address, walk_eq_lookup address, Directory.lookup, (Vmm.tree_root_none slot).mpr (not_not.mpr vacant)]
      rfl
    simp only [if_pos vacant]
    refine .written ?_ coherent.settling rfl
    rw [← absent, Function.update_eq_self]
    exact refines
  · have here : mmu.vmm.tree.root (virt >>> 22) = some (pageBase (mmu.vmm.pageDirectory (virt >>> 22))) :=
      Vmm.tree_root_some.mpr ⟨slot, vacant, rfl⟩
    simp only [if_neg vacant]
    refine .linked refines coherent here (entryOf_none.mpr rfl) rfl ?_
    split
    · exact .inr ⟨rfl, tableEmpty_iff.mp ‹_›⟩
    · exact .inl rfl

theorem Stage.busy (stage : Stage virt entry pages mmu) : mmu.pending ≠ [] := by
  intro idle
  cases stage with
  | clearing _ _ _ _ _ _ _ _ pending =>
      rw [pending] at idle
      cases (List.append_eq_nil_iff.mp idle).2
  | linked _ _ _ _ pending => cases pending.symm.trans idle
  | emptied _ _ _ _ pending => rcases pending with pending | pending <;> cases pending.symm.trans idle
  | written _ _ pending => cases pending.symm.trans idle

theorem Reaches.stage (refines : Refines start pages) (reach : Reaches start ops mmu) :
    Idle (ops.foldl PageOp.apply pages) mmu ∨ ∃ earlier op virt, ops = earlier ++ [op] ∧ virt < 2 ^ 32 ∧ op.page = virt / 4096 ∧
      Stage virt op.translation (earlier.foldl PageOp.apply pages) mmu := by
  induction reach with
  | start => exact .inl ⟨refines, Caches.coherent_empty, rfl⟩
  | fill _ fills ih =>
      rcases ih with idle | ⟨earlier, op, virt, calls, address, page, stage⟩
      · exact .inl ⟨idle.refines, idle.coherent.fills fills, idle.pending⟩
      · exact .inr ⟨earlier, op, virt, calls, address, page, stage.fills fills⟩
  | store _ next ih =>
      rcases ih with idle | ⟨earlier, op, virt, calls, address, page, stage⟩
      · cases idle.pending.symm.trans next
      · rcases stage.perform address next with stage | idle
        · exact .inr ⟨earlier, op, virt, calls, address, page, stage⟩
        · rw [calls, List.foldl_append, List.foldl_cons, List.foldl_nil, PageOp.apply, page]
          exact .inl idle
  | map _ idle address small present run fresh ih =>
      rcases ih with idle | ⟨earlier, op, virt, calls, address, page, stage⟩
      · exact .inr ⟨_, _, _, rfl, address, rfl, mapStores_stage idle address small present run fresh⟩
      · exact absurd idle stage.busy
  | unmap _ idle address ih =>
      rcases ih with idle | ⟨earlier, op, virt, calls, address, page, stage⟩
      · exact .inr ⟨_, _, _, rfl, address, rfl, unmapStores_stage idle address⟩
      · exact absurd idle stage.busy

end BarrelOS.Memory
