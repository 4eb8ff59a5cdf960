import BarrelOS.Memory.Ascent

namespace BarrelOS.Memory

open BarrelOS.Boot BarrelOS.Data BarrelOS.Semantics

variable {system start : System} {call : Call} {fuel phys virt flags : Nat} {before after : Vmm}

/-- The physical address is its own virtual address, present and writable. -/
def Vmm.Identity (vmm : Vmm) (address : Nat) : Prop := vmm.mapsTo address address = true

/-- What keeps physical addresses good as pointers: a page taken for a table or for
the heap is mapped to itself, and no call changes the mapping of the page of a
table. -/
structure KeepsIdentity (system : System) (call : Call) : Prop where
  taken : ∀ purpose count position, purpose = .table ∨ purpose = .heap →
    Requests system call purpose count position → system.kernel.vmm.Identity (pageAddress position)
  named : ∀ named, Names system call named →
    ∀ slot pt, system.kernel.vmm.tree.root slot = some pt → pt / 4096 ≠ named / 4096

/-- Every page table in use, and everything that has been used as a pointer, is
reached at its physical address. -/
structure Vmm.Reached (vmm : Vmm) : Prop where
  tables : ∀ slot pt, vmm.tree.root slot = some pt → vmm.Identity pt
  derefs : ∀ entry ∈ vmm.derefs, entry.2 = true

theorem root_lt {slot pt : Nat} (used : before.tree.root slot = some pt) : pt < 2 ^ 32 := by
  obtain ⟨_, _, base⟩ := Vmm.tree_root_some.mp used
  exact base ▸ pageBase_lt _

theorem identity_of_walk {address : Nat} (bound : address < 2 ^ 32) (first : before.DirectoryWritable)
    (second : after.DirectoryWritable) (walk : after.walk address = before.walk address)
    (reached : before.Identity address) : after.Identity address := by
  rw [Vmm.Identity, mapsTo_iff second bound, walk]
  exact (mapsTo_iff first bound).mp reached

theorem Mapping.reached (mapping : Mapping fuel phys virt flags before after)
    (fresh : FreshTable fuel virt before after) (apart : before.tree.Apart) (writable : before.DirectoryWritable)
    (bound : virt < 2 ^ 32) (reached : before.Reached)
    (taken : ∀ pt, before.tree.root (virt >>> 22) = none → pmmAlloc fuel 1 before.pmm = .done pt after.pmm →
      before.Identity pt)
    (elsewhere : ∀ slot pt, before.tree.root slot = some pt → pt / 4096 ≠ virt / 4096) : after.Reached := by
  have kept : ∀ pt, pt < 2 ^ 32 → pt / 4096 ≠ virt / 4096 → before.Identity pt → after.Identity pt := by
    intro pt word other
    refine identity_of_walk word writable (mapping.writable writable) ?_
    rw [mapping.walk fresh apart word, if_neg other]
  cases mapping with
  | @shared pt table _ tree _ derefs =>
      have root : after.tree.root = before.tree.root := by rw [tree, Directory.write_root]
      constructor
      · intro slot page used
        rw [root] at used
        exact kept page (root_lt used) (elsewhere slot page used) (reached.tables slot page used)
      · intro entry member
        rw [derefs] at member
        rcases List.mem_cons.mp member with rfl | earlier
        · exact reached.tables _ pt table
        · exact reached.derefs entry earlier
  | @created pt middle vacant alloc attached tree installed _ derefs =>
      have here := taken pt vacant alloc
      have word := (pmmAlloc_aligned alloc).1
      have unused := fresh pt vacant alloc
      -- the page of the new table is mapped, the page that needs it is not
      have other : pt / 4096 ≠ virt / 4096 := by
        intro same
        obtain ⟨_, walk, _⟩ := (mapsTo_iff writable word).mp here
        rw [walk_page same, walk_eq_lookup bound, Directory.lookup, vacant] at walk
        cases walk
      have root : after.tree.root = Function.update before.tree.root (virt >>> 22) (some pt) := by
        rw [tree, attached]
        rfl
      constructor
      · intro slot page used
        rw [root, Function.update_apply] at used
        split at used
        · cases used
          exact kept pt word other here
        · exact kept page (root_lt used) (elsewhere slot page used) (reached.tables slot page used)
      · intro entry member
        rw [derefs] at member
        rcases List.mem_cons.mp member with rfl | member
        · have middleWritable : middle.DirectoryWritable :=
            writable.update installed fun _ => tableWord_writable word (pmmAlloc_aligned alloc).2
          refine identity_of_walk word writable middleWritable ?_ here
          rw [walk_eq_lookup word, walk_eq_lookup word, attached, Directory.lookup_attach unused vacant]
        · rcases List.mem_cons.mp member with rfl | earlier
          · exact here
          · exact reached.derefs entry earlier

theorem Unmapping.reached (unmapping : Unmapping virt before after) (apart : before.tree.Apart)
    (writable : before.DirectoryWritable) (reached : before.Reached)
    (elsewhere : ∀ slot pt, before.tree.root slot = some pt → pt / 4096 ≠ virt / 4096) : after.Reached := by
  have kept : ∀ slot pt, before.tree.root slot = some pt → after.Identity pt := by
    intro slot pt used
    refine identity_of_walk (root_lt used) writable (unmapping.writable writable) ?_ (reached.tables slot pt used)
    rw [unmapping.walk apart (root_lt used), if_neg (elsewhere slot pt used)]
  -- the scan reads the table after its entry is cleared
  have scanned : ∀ {slot pt : Nat} {middle : Vmm}, before.tree.root slot = some pt → slot = virt >>> 22 →
      middle.tree = before.tree.write pt (virt >>> 12 &&& 0x3FF) none →
      middle.pageDirectory = before.pageDirectory → middle.Identity pt := by
    intro slot pt middle used here cleared unchanged
    have word := root_lt used
    have middleWritable : middle.DirectoryWritable := fun other => unchanged ▸ writable other
    refine identity_of_walk word writable middleWritable ?_ (reached.tables slot pt used)
    subst here
    rw [walk_eq_lookup word, walk_eq_lookup word, cleared, Directory.lookup_write apart used, if_neg]
    exact mt (samePage_iff virt pt).mp (elsewhere _ pt used)
  have logged : ∀ {pt : Nat} {middle : Vmm}, before.tree.root (virt >>> 22) = some pt → middle.Identity pt →
      after.derefs = (pt, middle.mapsTo pt pt) :: (pt, before.mapsTo pt pt) :: before.derefs →
      ∀ entry ∈ after.derefs, entry.2 = true := by
    intro pt middle table scan derefs entry member
    rw [derefs] at member
    rcases List.mem_cons.mp member with rfl | member
    · exact scan
    · rcases List.mem_cons.mp member with rfl | earlier
      · exact reached.tables _ pt table
      · exact reached.derefs entry earlier
  refine ⟨fun slot pt used => kept slot pt (unmapping.table_from used), ?_⟩
  cases unmapping with
  | absent _ same => exact same ▸ reached.derefs
  | kept table cleared _ _ _ unchanged _ derefs => exact logged table (scanned table rfl cleared unchanged) derefs
  | released table cleared _ _ _ unchanged _ derefs => exact logged table (scanned table rfl cleared unchanged) derefs

theorem Makes.reached {before after : System} (makes : Makes before call after) (paged : Paged before)
    (handed : HandsOutBelow (2 ^ 20) before.kernel.vmm.pmm after.kernel.vmm.pmm)
    (keeps : KeepsIdentity before call) (reached : before.kernel.vmm.Reached) : after.kernel.vmm.Reached := by
  cases makes with
  | pmmAlloc | pmmFree => exact ⟨reached.tables, reached.derefs⟩
  | vmmMap address run =>
      refine (vmmMap_done address run).reached (paged.freshTable handed) paged.apart paged.writable address
        reached ?_ (keeps.named _ .map)
      intro pt vacant alloc
      obtain ⟨position, _, next, _, rfl⟩ := pmmAlloc_next Nat.one_pos alloc
      exact keeps.taken _ _ _ (.inl rfl) (.table vacant next)
  | vmmUnmap address =>
      exact (vmmUnmap_cases address).reached paged.apart paged.writable reached (keeps.named _ .unmap)
  | mallocInit _ run =>
      obtain ⟨first, second, alloc, again, vmm⟩ := mallocInit_done run
      obtain ⟨heap, rest, next, same, here⟩ := pmmAlloc_next Nat.one_pos alloc
      obtain ⟨head, _, following, _, there⟩ := pmmAlloc_next Nat.one_pos again
      obtain ⟨_, transferred, _⟩ := same.next following
      have heapReached := keeps.taken _ _ _ (.inr rfl) (.heap next)
      have headReached := keeps.taken _ _ _ (.inr rfl) (.head next transferred)
      rw [← here] at heapReached
      rw [← there] at headReached
      rw [vmm]
      refine ⟨reached.tables, ?_⟩
      intro entry member
      rcases List.mem_cons.mp member with rfl | member
      · exact headReached
      · rcases List.mem_cons.mp member with rfl | earlier
        · exact heapReached
        · exact reached.derefs entry earlier
  | heapAlloc size run =>
      obtain ⟨position, pmm, served⟩ := paged.served size run handed
      refine served.mapping.reached (served.middle.freshTable served.handed) served.middle.apart paged.writable
        (Block.header_lt _) ⟨reached.tables, reached.derefs⟩ ?_ (keeps.named _ served.names)
      intro pt vacant alloc
      obtain ⟨other, _, next, _, rfl⟩ := pmmAlloc_next Nat.one_pos alloc
      exact keeps.taken _ _ _ (.inl rfl) (served.following other _ next vacant)
  | heapFree member =>
      exact (paged.heapFree_unmapping member).reached (paged.release member).apart paged.writable
        ⟨reached.tables, reached.derefs⟩ (keeps.named _ .freed)

structure Pointed (system : System) : Prop extends Paged system where
  reached : system.kernel.vmm.Reached

theorem SystemRuns.pointed (run : SystemRuns (2 ^ 20) KeepsIdentity start system) (pointed : Pointed start) :
    Pointed system :=
  run.induct (Nat.le_refl _) pointed fun _ _ _ before makes _ keeps handed =>
    ⟨makes.paged before.toPaged handed, makes.reached before.toPaged handed keeps before.reached⟩

theorem PagingOn.pointed {mbd : MultibootInfo} {kernelEnd : Nat} {image : Image}
    (paging : PagingOn mbd kernelEnd image start) (low : image.firstPageTable < 0x400000) : Pointed start where
  toPaged := paging.paged
  reached := by
    constructor
    · intro slot pt used
      obtain ⟨_, rfl⟩ := paging.root used
      refine (mapsTo_iff paging.paged.writable paging.word).mpr ⟨ptePresent ||| pteWritable, ?_, by decide⟩
      rw [paging.walk paging.word, if_pos low]
    · obtain ⟨_, _, _, _, _, filled⟩ := paging.installed
      rw [filled]
      exact fun entry member => absurd member List.not_mem_nil

/-! Pointers used in between -/

/-- What has been used as a pointer in between was mapped to itself each time, so that
no use of it page-faulted. -/
def Vmm.Unfaulted (before after : Vmm) : Prop :=
  ∃ used, after.derefs = used ++ before.derefs ∧ ∀ entry ∈ used, entry.2 = true

/-- What has been used as a pointer is put in front of what was before. -/
def Vmm.Logs (before after : Vmm) : Prop := ∃ used, after.derefs = used ++ before.derefs

theorem Mapping.logs (mapping : Mapping fuel phys virt flags before after) : before.Logs after := by
  cases mapping with
  | shared _ _ _ _ derefs => exact ⟨[_], derefs⟩
  | created _ _ _ _ _ _ derefs => exact ⟨[_, _], derefs⟩

theorem Vmm.Logs.trans {middle : Vmm} (first : before.Logs middle) (second : middle.Logs after) : before.Logs after := by
  obtain ⟨early, first⟩ := first
  obtain ⟨late, second⟩ := second
  exact ⟨late ++ early, by rw [second, first, List.append_assoc]⟩

theorem Vmm.Logs.unfaulted_iff {middle : Vmm} (first : before.Logs middle) (second : middle.Logs after) :
    before.Unfaulted after ↔ before.Unfaulted middle ∧ middle.Unfaulted after := by
  obtain ⟨early, first⟩ := first
  obtain ⟨late, second⟩ := second
  have whole : after.derefs = (late ++ early) ++ before.derefs := by rw [second, first, List.append_assoc]
  constructor
  · intro unfaulted
    obtain ⟨used, same, mapped⟩ := unfaulted
    cases List.append_cancel_right (whole.symm.trans same)
    exact ⟨⟨early, first, fun entry member => mapped entry (List.mem_append_right _ member)⟩,
      late, second, fun entry member => mapped entry (List.mem_append_left _ member)⟩
  · rintro ⟨⟨used, same, mapped⟩, others, again, shown⟩
    cases List.append_cancel_right (first.symm.trans same)
    cases List.append_cancel_right (second.symm.trans again)
    exact ⟨late ++ early, whole, fun entry member => (List.mem_append.mp member).elim (shown entry) (mapped entry)⟩

/-- The page table that serves a mapping is used as a pointer, and no other page is. -/
theorem Mapping.unfaulted_iff {pt : Nat} (mapping : Mapping fuel phys virt flags before after)
    (fresh : FreshTable fuel virt before after) (writable : before.DirectoryWritable)
    (table : after.tree.root (virt >>> 22) = some pt) : before.Unfaulted after ↔ before.Identity pt := by
  cases mapping with
  | shared used _ tree _ derefs =>
      rw [tree, Directory.write_root] at table
      cases used.symm.trans table
      constructor
      · intro unfaulted
        obtain ⟨logged, same, mapped⟩ := unfaulted
        cases List.append_cancel_right ((show after.derefs = [_] ++ before.derefs from derefs).symm.trans same)
        exact mapped _ List.mem_cons_self
      · exact fun here => ⟨[_], derefs, List.forall_mem_singleton.mpr here⟩
  | @created made middle vacant alloc attached tree installed _ derefs =>
      have root : after.tree.root = Function.update before.tree.root (virt >>> 22) (some made) := by
        rw [tree, attached]
        rfl
      rw [root, Function.update_self] at table
      cases table
      constructor
      · intro unfaulted
        obtain ⟨logged, same, mapped⟩ := unfaulted
        cases List.append_cancel_right ((show after.derefs = [_, _] ++ before.derefs from derefs).symm.trans same)
        exact mapped _ (List.mem_cons_of_mem _ List.mem_cons_self)
      · intro here
        have word := (pmmAlloc_aligned alloc).1
        have middleWritable : middle.DirectoryWritable :=
          writable.update installed fun _ => tableWord_writable word (pmmAlloc_aligned alloc).2
        have still : middle.Identity pt := by
          refine identity_of_walk word writable middleWritable ?_ here
          rw [walk_eq_lookup word, walk_eq_lookup word, attached, Directory.lookup_attach (fresh pt vacant alloc) vacant]
        exact ⟨[_, _], derefs, List.forall_mem_cons.mpr ⟨still, List.forall_mem_singleton.mpr here⟩⟩

/-! Page tables in the first 4 MiB -/

theorem Mapping.directory_kept {slot : Nat} (mapping : Mapping fuel phys virt flags before after)
    (used : before.tree.root slot ≠ none) : after.pageDirectory slot = before.pageDirectory slot := by
  cases mapping with
  | shared _ _ _ directory => rw [directory]
  | created vacant _ _ _ installed directory =>
      have elsewhere : slot ≠ virt >>> 22 := by
        intro same
        exact used (same ▸ vacant)
      rw [directory, installed, Function.update_of_ne elsewhere]

theorem root_eq {slot : Nat} {left right : Vmm} (directory : left.pageDirectory slot = right.pageDirectory slot) :
    left.tree.root slot = right.tree.root slot := by
  simp only [Vmm.tree, directory]

theorem Mapping.present (mapping : Mapping fuel phys virt flags before after) : after.tree.root (virt >>> 22) ≠ none := by
  cases mapping with
  | shared table _ tree =>
      rw [tree, Directory.write_root, table]
      exact Option.some_ne_none _
  | created _ _ attached tree =>
      rw [tree, attached]
      change Function.update before.tree.root (virt >>> 22) (some _) (virt >>> 22) ≠ none
      rw [Function.update_self]
      exact Option.some_ne_none _

theorem Makes.table_from {before after : System} {slot pt : Nat} (makes : Makes before call after) (sound : Sound before)
    (handed : HandsOutBelow (2 ^ 20) before.kernel.vmm.pmm after.kernel.vmm.pmm)
    (used : after.kernel.vmm.tree.root slot = some pt) : before.kernel.vmm.tree.root slot = some pt ∨
      ∃ position, Requests before call .table 1 position ∧ pt = pageAddress position := by
  cases makes with
  | pmmAlloc | pmmFree => exact .inl used
  | vmmMap address run =>
      refine ((vmmMap_done address run).table_from used).imp_right fun made => ?_
      obtain ⟨position, rest, next, _, here⟩ := pmmAlloc_next Nat.one_pos made.2
      exact ⟨position, .table made.1 next, here⟩
  | vmmUnmap address =>
      have unmapping : Unmapping _ before.kernel.vmm _ := vmmUnmap_cases address
      exact .inl (unmapping.table_from used)
  | mallocInit _ run =>
      obtain ⟨_, _, _, _, vmm⟩ := mallocInit_done run
      exact .inl (by rwa [vmm] at used)
  | heapAlloc size run =>
      obtain ⟨position, pmm, served⟩ := sound.served size run handed
      refine (served.mapping.table_from used).imp_right fun made => ?_
      obtain ⟨other, rest, next, _, here⟩ := pmmAlloc_next Nat.one_pos made.2
      exact ⟨other, served.following other rest next made.1, here⟩
  | heapFree member => exact .inl ((sound.heapFree_unmapping member).table_from used)

theorem Makes.mallocInit_tree {before after : System} (makes : Makes before .mallocInit after) :
    after.kernel.vmm.tree = before.kernel.vmm.tree := by
  cases makes with
  | mallocInit _ run =>
      obtain ⟨_, _, _, _, vmm⟩ := mallocInit_done run
      rw [vmm]
      rfl

/-- The first 4 MiB are mapped to themselves and hold every page table. -/
structure Anchored (system : System) : Prop extends Pointed system where
  identity : ∀ address < 0x400000, system.kernel.vmm.Identity address
  tables : ∀ slot pt, system.kernel.vmm.tree.root slot = some pt → 4096 ≤ pt ∧ pt < 0x400000

/-- The pages a call takes for a table or the heap lie in the first 4 MiB. -/
def TakesLow (system : System) (call : Call) : Prop :=
  ∀ purpose count position, purpose = .table ∨ purpose = .heap → Requests system call purpose count position →
    0 < position ∧ position < 0x400

theorem Anchored.keeps (anchored : Anchored system) (low : TakesLow system call)
    (high : ∀ named, Names system call named → 0x400000 ≤ named) : KeepsIdentity system call where
  taken := by
    intro purpose count position for_what request
    have bounds := low purpose count position for_what request
    refine anchored.identity _ ?_
    unfold pageAddress
    omega
  named := by
    intro named names slot pt used
    have above := high named names
    have below := (anchored.tables slot pt used).2
    omega

theorem Anchored.step {before after : System} (anchored : Anchored before) (makes : Makes before call after)
    (fits : Fits (2 ^ 20) before call) (low : TakesLow before call)
    (high : ∀ named, Names before call named → 0x400000 ≤ named) : Anchored after := by
  have handed := makes.handed fits (Nat.le_refl _)
  have paged := makes.paged anchored.toPaged handed
  refine ⟨⟨paged, makes.reached anchored.toPaged handed (anchored.keeps low high) anchored.reached⟩, fun address small => ?_,
    fun slot pt used => ?_⟩
  · have word : address < 2 ^ 32 := Nat.lt_trans small (by decide)
    refine identity_of_walk word anchored.writable paged.writable ?_ (anchored.identity address small)
    refine makes.walk_frame anchored.toSound handed word fun named names => ?_
    have above := high named names
    omega
  · rcases makes.table_from anchored.toSound handed used with earlier | ⟨position, request, rfl⟩
    · exact anchored.tables slot pt earlier
    · have bounds := low .table 1 position (.inl rfl) request
      unfold pageAddress
      omega

theorem Pmm.Ascending.takesLow {lead limit : Nat} (ascending : system.kernel.vmm.pmm.Ascending lead limit) (asks : call.Asks)
    (room : lead + call.most ≤ limit) (low : lead + call.most < 0x400) : TakesLow system call := by
  intro purpose count position _ request
  have nonzero := ascending.nonzero
  have bounds := ascending.requests request asks room
  omega

end BarrelOS.Memory
