import BarrelOS.Memory.Installed

namespace BarrelOS.Memory

open BarrelOS.Boot BarrelOS.Data BarrelOS.Semantics

variable {fuel turns limit address virt page pages : Nat} {before after vmm : Vmm} {kernel : Kernel}
  {mbootInfo : MultibootInfo} {pmm rest last : Pmm} {image : Image}

/-! The page tables a loop uses -/

/-- The page is mapped to itself. -/
def Vmm.shown (vmm : Vmm) (page : Nat) : Bool :=
  decide (page < 2 ^ 20) && vmm.mapsTo (pageAddress page) (pageAddress page)

/-- A loop that maps consecutive pages to themselves has its page tables: the table
of each page is in use or `pmm_alloc(1)` returns one, and its own page is mapped to
itself by then. -/
inductive Supplies : (Nat → Option Nat) → (Nat → Bool) → Nat → Nat → Pmm → Pmm → Prop
  | nothing {root : Nat → Option Nat} {shown : Nat → Bool} {page : Nat} {pmm : Pmm} : Supplies root shown page 0 pmm pmm
  | shared {root : Nat → Option Nat} {shown : Nat → Bool} {page pages pt : Nat} {pmm last : Pmm}
      (table : root (page / 1024) = some pt) (here : shown (pt / 4096) = true)
      (later : Supplies root (Function.update shown page true) (page + 1) pages pmm last) :
      Supplies root shown page (pages + 1) pmm last
  | created {root : Nat → Option Nat} {shown : Nat → Bool} {fuel page pages pt : Nat} {pmm rest last : Pmm}
      (vacant : root (page / 1024) = none) (alloc : pmmAlloc fuel 1 pmm = .done pt rest)
      (here : shown (pt / 4096) = true)
      (later : Supplies (Function.update root (page / 1024) (some pt)) (Function.update shown page true) (page + 1)
        pages rest last) :
      Supplies root shown page (pages + 1) pmm last

/-- How often a loop from `start` to `limit` turns, unless its counter wraps. -/
def loopTurns (start limit : Nat) : Nat := (limit - start + 4095) / 4096

section

variable {root : Nat → Option Nat} {shown : Nat → Bool} {pt : Nat}

theorem Supplies.shared_iff (table : root (page / 1024) = some pt) : Supplies root shown page (pages + 1) pmm last ↔
    shown (pt / 4096) = true ∧ Supplies root (Function.update shown page true) (page + 1) pages pmm last := by
  constructor
  · intro supplied
    cases supplied with
    | shared used here later =>
        cases table.symm.trans used
        exact ⟨here, later⟩
    | created vacant => cases table.symm.trans vacant
  · rintro ⟨here, later⟩
    exact .shared table here later

theorem Supplies.created_iff (vacant : root (page / 1024) = none) (alloc : pmmAlloc fuel 1 pmm = .done pt rest) :
    Supplies root shown page (pages + 1) pmm last ↔ shown (pt / 4096) = true ∧
      Supplies (Function.update root (page / 1024) (some pt)) (Function.update shown page true) (page + 1) pages rest last := by
  constructor
  · intro supplied
    cases supplied with
    | shared used => cases vacant.symm.trans used
    | @created _ _ other _ _ ptr _ middle _ _ again here later =>
        have same := pmmAlloc_more (Nat.le_max_left fuel other) alloc
        rw [pmmAlloc_more (Nat.le_max_right fuel other) again] at same
        cases same
        exact ⟨here, later⟩
  · rintro ⟨here, later⟩
    exact .created vacant alloc here later

end

theorem slotOf_page (address : Nat) : address >>> 22 = address / 4096 / 1024 := by
  rw [slotOf_eq]
  omega

theorem shown_iff {vmm : Vmm} (writable : vmm.DirectoryWritable) (word : page < 2 ^ 20) :
    vmm.shown page = true ↔ ∃ flags, vmm.walk (pageAddress page) = some (pageAddress page, flags) ∧ flags &&& 0x3 = 0x3 := by
  have bound : pageAddress page < 2 ^ 32 := by
    unfold pageAddress
    omega
  have base : pageBase (pageAddress page) = pageAddress page := by
    rw [pageBase_eq bound]
    unfold pageAddress
    omega
  rw [Vmm.shown, decide_eq_true word, Bool.true_and, mapsTo_iff writable bound, base]

theorem identity_shown {vmm : Vmm} {pt : Nat} (word : pt < 2 ^ 32) (aligned : pt % 4096 = 0) :
    vmm.Identity pt ↔ vmm.shown (pt / 4096) = true := by
  have inside : pt / 4096 < 2 ^ 20 := by omega
  have base : pageAddress (pt / 4096) = pt := by
    unfold pageAddress
    omega
  rw [Vmm.shown, decide_eq_true inside, Bool.true_and, base, Vmm.Identity]

theorem Mapping.shown (mapping : Mapping fuel virt virt (ptePresent ||| pteWritable) before after)
    (fresh : FreshTable fuel virt before after) (apart : before.tree.Apart) (first : before.DirectoryWritable)
    (word : virt < 2 ^ 32) : after.shown = Function.update before.shown (virt / 4096) true := by
  have second := mapping.writable first
  funext other
  by_cases inside : other < 2 ^ 20
  · have bound : pageAddress other < 2 ^ 32 := by
      unfold pageAddress
      omega
    have walk := mapping.walk_flags fresh apart (by decide) (by decide) bound
    have position : pageAddress other / 4096 = other := by
      unfold pageAddress
      omega
    rw [position] at walk
    rw [Bool.eq_iff_iff, shown_iff second inside, walk, Function.update_apply]
    by_cases here : other = virt / 4096
    · have base : pageBase virt = pageAddress other := by
        rw [pageBase_eq word, here]
        unfold pageAddress
        omega
      rw [if_pos here, if_pos here, base]
      exact iff_of_true ⟨_, rfl, by decide⟩ rfl
    · rw [if_neg here, if_neg here, shown_iff first inside]
  · have elsewhere : other ≠ virt / 4096 := by omega
    rw [Function.update_of_ne elsewhere, Vmm.shown, Vmm.shown, decide_eq_false inside, Bool.false_and, Bool.false_and]

/-- One turn: its page table is there and can be reached, and the later pages have theirs. -/
theorem Mapping.supplies_iff (mapping : Mapping fuel virt virt (ptePresent ||| pteWritable) before after)
    (fresh : FreshTable fuel virt before after) (apart : before.tree.Apart) (writable : before.DirectoryWritable)
    (word : virt < 2 ^ 32) : Supplies before.tree.root before.shown (virt / 4096) (pages + 1) before.pmm last ↔
      before.Unfaulted after ∧ Supplies after.tree.root after.shown (virt / 4096 + 1) pages after.pmm last := by
  have reached : ∀ pt, after.tree.root (virt >>> 22) = some pt → (before.Unfaulted after ↔ before.Identity pt) :=
    fun _ => mapping.unfaulted_iff fresh writable
  rw [mapping.shown fresh apart writable word]
  rw [slotOf_page] at reached
  cases mapping with
  | @shared pt table pmm tree =>
      rw [slotOf_page] at table
      have root : after.tree.root = before.tree.root := by rw [tree, Directory.write_root]
      obtain ⟨_, _, base⟩ := Vmm.tree_root_some.mp table
      have aligned : pt % 4096 = 0 := base ▸ pageBase_aligned _
      rw [Supplies.shared_iff table, reached pt (root ▸ table), identity_shown (root_lt table) aligned, root, pmm]
  | @created pt middle vacant alloc attached tree =>
      rw [slotOf_page] at vacant
      have root : after.tree.root = Function.update before.tree.root (virt / 4096 / 1024) (some pt) := by
        rw [tree, attached, slotOf_page]
        rfl
      have aligned := pmmAlloc_aligned alloc
      rw [Supplies.created_iff vacant alloc, reached pt (by rw [root, Function.update_self]),
        identity_shown aligned.1 aligned.2, root]

/-- A loop that maps pages to themselves and returns has not page-faulted if and only
if its page tables are there and mapped to themselves. -/
theorem mapPages_supplies (ends : limit ≤ 2 ^ 32 - 4096 + address % 4096) (word : address < 2 ^ 32)
    (paged : Paged ⟨kernel.withVmm before, []⟩)
    (run : mapPages fuel (ptePresent ||| pteWritable) (fun vmem => vmem) limit turns address before = .done () after)
    (handed : HandsOutBelow (2 ^ 20) before.pmm after.pmm) : before.Logs after ∧ (before.Unfaulted after ↔
      Supplies before.tree.root before.shown (address / 4096) (loopTurns address limit) before.pmm after.pmm) := by
  induction turns generalizing address before with
  | zero => cases run
  | succ turns ih =>
      rw [mapPages] at run
      by_cases more : address < limit
      · rw [if_pos more] at run
        obtain ⟨_, middle, map, later⟩ := Outcome.bind_done.mp run
        have next : loopTurns address limit = loopTurns (address + 4096) limit + 1 := by
          unfold loopTurns
          omega
        have page : (address + 4096) / 4096 = address / 4096 + 1 := by omega
        have mapping := vmmMap_done word map
        have used := mapPages_used later Placement.identity (by omega)
        have first := handed.between Set.Subset.rfl used
        have second := handed.between mapping.kept Set.Subset.rfl
        have fresh : FreshTable fuel address before middle := paged.freshTable first
        rw [Nat.mod_eq_of_lt (by omega)] at later
        obtain ⟨logs, supplied⟩ := ih (by omega) (by omega) (vmmMap_paged paged word map first) later second
        rw [page] at supplied
        refine ⟨mapping.logs.trans logs, ?_⟩
        rw [mapping.logs.unfaulted_iff logs, supplied, next, mapping.supplies_iff fresh paged.apart paged.writable word]
      · have none : loopTurns address limit = 0 := by
          unfold loopTurns
          omega
        rw [if_neg more] at run
        cases run
        rw [none]
        exact ⟨⟨[], rfl⟩, iff_of_true ⟨[], rfl, fun _ member => absurd member List.not_mem_nil⟩ .nothing⟩

section

variable {shown : Nat → Bool}

theorem Supplies.vmmMap (phys flags : Nat) (word : virt < 2 ^ 32)
    (supplied : Supplies before.tree.root shown (virt / 4096) (pages + 1) before.pmm last) :
    ∃ fuel middle, (∀ larger, fuel ≤ larger → Memory.vmmMap larger phys virt flags before = .done () middle) ∧
      Supplies middle.tree.root (Function.update shown (virt / 4096) true) (virt / 4096 + 1) pages middle.pmm last := by
  cases supplied with
  | @shared _ _ _ _ pt _ _ table here later =>
      rw [← slotOf_page] at table
      have returns : ∃ middle, ∀ larger, 0 ≤ larger → Memory.vmmMap larger phys virt flags before = .done () middle :=
        @vmmMap_returns 0 phys virt flags before.pmm before word 0 fun vacant => by cases table.symm.trans vacant
      obtain ⟨middle, map⟩ := returns
      refine ⟨0, middle, map, ?_⟩
      cases vmmMap_done word (map 0 (Nat.le_refl _)) with
      | shared _ pmm tree =>
          rw [pmm, tree, Directory.write_root]
          exact later
      | created vacant => cases table.symm.trans vacant
  | @created _ _ fuel _ _ pt _ rest _ vacant alloc here later =>
      rw [← slotOf_page] at vacant later
      have returns : ∃ middle, ∀ larger, fuel ≤ larger → Memory.vmmMap larger phys virt flags before = .done () middle :=
        vmmMap_returns word fun _ larger more => pmmAlloc_more more alloc
      obtain ⟨middle, map⟩ := returns
      refine ⟨fuel, middle, map, ?_⟩
      cases vmmMap_done word (map fuel (Nat.le_refl _)) with
      | shared table => cases vacant.symm.trans table
      | created _ again attached tree =>
          rw [alloc] at again
          cases again
          rw [tree, attached]
          exact later

theorem Supplies.mapPages (flags : Nat) (supplied : Supplies before.tree.root shown (address / 4096) turns before.pmm last)
    (count : loopTurns address limit = turns) (ends : limit ≤ 2 ^ 32 - 4096 + address % 4096) (word : address < 2 ^ 32) :
    ∃ fuel after, after.pmm = last ∧ ∀ larger steps, fuel ≤ larger → turns < steps →
      Memory.mapPages larger flags (fun vmem => vmem) limit steps address before = .done () after := by
  unfold loopTurns at count
  induction turns generalizing address before shown with
  | zero =>
      cases supplied with
      | nothing =>
          refine ⟨0, before, rfl, fun larger steps _ more => ?_⟩
          cases steps with
          | zero => cases more
          | succ steps => rw [Memory.mapPages, if_neg (by omega)]
  | succ turns ih =>
      obtain ⟨first, middle, map, later⟩ := supplied.vmmMap address flags word
      have page : (address + 4096) / 4096 = address / 4096 + 1 := by omega
      have next : address + 4096 < 2 ^ 32 := by omega
      rw [← page] at later
      obtain ⟨second, after, ended, rest⟩ := ih later (by omega) (by omega) next
      refine ⟨max first second, after, ended, fun larger steps enough longer => ?_⟩
      cases steps with
      | zero => cases longer
      | succ steps =>
          rw [Memory.mapPages, if_pos (by omega), map larger (Nat.le_trans (Nat.le_max_left _ _) enough),
            Outcome.done_bind, Nat.mod_eq_of_lt next]
          exact rest larger steps (Nat.le_trans (Nat.le_max_right _ _) enough) (Nat.lt_of_succ_lt_succ longer)

end

/-! The whole framebuffer -/

/-- The end of the framebuffer, as an exact integer. -/
def framebufferEnd (mbootInfo : MultibootInfo) : Nat :=
  mbootInfo.framebufferAddr + mbootInfo.framebufferHeight * mbootInfo.framebufferPitch

/-- The framebuffer loop has its page tables, and each can be reached. -/
def FramebufferSupplied (mbootInfo : MultibootInfo) (vmm : Vmm) (last : Pmm) : Prop :=
  Supplies vmm.tree.root vmm.shown (framebufferStart mbootInfo / 4096)
    (loopTurns (framebufferStart mbootInfo) (framebufferLimit mbootInfo)) vmm.pmm last

/-- The loop leaves out this byte: the framebuffer ends with the address space,
so that the limit is truncated to 0, or the byte lies on its last page and the
counter's offset behind the framebuffer's end there. -/
def LeftOut (mbootInfo : MultibootInfo) (byte : Nat) : Prop :=
  framebufferEnd mbootInfo = 2 ^ 32 ∨ byte / 4096 = (framebufferEnd mbootInfo - 1) / 4096 ∧
    (framebufferEnd mbootInfo - 1) % 4096 < mbootInfo.framebufferAddr % 4096

structure FramebufferReached (mbootInfo : MultibootInfo) (vmm : Vmm) : Prop where
  ends : framebufferEnd mbootInfo = 2 ^ 32 ∨
    framebufferEnd mbootInfo ≤ 2 ^ 32 - 4096 + mbootInfo.framebufferAddr % 4096
  rest : ∀ byte, mbootInfo.framebufferAddr ≤ byte → byte < framebufferEnd mbootInfo →
    LeftOut mbootInfo byte → vmm.mapsTo byte byte = true
  tables : ∃ last, FramebufferSupplied mbootInfo vmm last

theorem framebufferLimit_le_iff (fits : framebufferEnd mbootInfo ≤ 2 ^ 32) :
    framebufferLimit mbootInfo ≤ 2 ^ 32 - 4096 + framebufferStart mbootInfo % 4096 ↔
      framebufferEnd mbootInfo = 2 ^ 32 ∨
        framebufferEnd mbootInfo ≤ 2 ^ 32 - 4096 + mbootInfo.framebufferAddr % 4096 := by
  unfold framebufferLimit framebufferStart
  unfold framebufferEnd at fits ⊢
  generalize mbootInfo.framebufferHeight * mbootInfo.framebufferPitch = size at fits ⊢
  omega

theorem framebufferPage_iff {byte : Nat} (graphics : mbootInfo.vbeMode ≠ 3) (fits : framebufferEnd mbootInfo ≤ 2 ^ 32)
    (lower : mbootInfo.framebufferAddr ≤ byte) (upper : byte < framebufferEnd mbootInfo) :
    FramebufferPage mbootInfo (byte / 4096) ↔ ¬ LeftOut mbootInfo byte := by
  refine (and_iff_right graphics).trans ?_
  unfold LeftOut Stepped framebufferLimit framebufferStart
  unfold framebufferEnd at fits upper ⊢
  generalize mbootInfo.framebufferHeight * mbootInfo.framebufferPitch = size at fits upper ⊢
  omega

/-- After the loop a byte of the framebuffer is mapped to itself unless the loop left
it out and it was not. -/
theorem framebuffer_byte_iff {byte : Nat} (graphics : mbootInfo.vbeMode ≠ 3)
    (fits : framebufferEnd mbootInfo ≤ 2 ^ 32) (earlier : vmm.DirectoryWritable) (later : after.DirectoryWritable)
    (walk : ∀ virt < 2 ^ 32, after.walk virt = if FramebufferPage mbootInfo (virt / 4096) then
      some (pageBase virt, ptePresent ||| pteWritable) else vmm.walk virt)
    (lower : mbootInfo.framebufferAddr ≤ byte) (upper : byte < framebufferEnd mbootInfo) :
    after.mapsTo byte byte = true ↔ (LeftOut mbootInfo byte → vmm.mapsTo byte byte = true) := by
  have bound : byte < 2 ^ 32 := Nat.lt_of_lt_of_le upper fits
  have page := framebufferPage_iff graphics fits lower upper
  rw [mapsTo_iff later bound, mapsTo_iff earlier bound, walk byte bound]
  by_cases stepped : FramebufferPage mbootInfo (byte / 4096)
  · rw [if_pos stepped]
    exact iff_of_true ⟨_, rfl, by decide⟩ fun out => absurd out (page.mp stepped)
  · rw [if_neg stepped, forall_prop_of_true (not_not.mp (mt page.mpr stepped))]

theorem FramebufferSupplied.framebufferLoop (supplied : FramebufferSupplied mbootInfo vmm last)
    (graphics : mbootInfo.vbeMode ≠ 3)
    (ends : framebufferLimit mbootInfo ≤ 2 ^ 32 - 4096 + framebufferStart mbootInfo % 4096) :
    ∃ fuel after, after.pmm = last ∧ Memory.framebufferLoop fuel mbootInfo vmm = .done () after := by
  have word : framebufferStart mbootInfo < 2 ^ 32 := Nat.mod_lt _ (by decide)
  obtain ⟨fuel, after, ended, loop⟩ := Supplies.mapPages (ptePresent ||| pteWritable) supplied rfl ends word
  have large : ∃ larger, fuel ≤ larger ∧
      loopTurns (framebufferStart mbootInfo) (framebufferLimit mbootInfo) < larger :=
    ⟨fuel + loopTurns (framebufferStart mbootInfo) (framebufferLimit mbootInfo) + 1, by omega, by omega⟩
  obtain ⟨larger, more, longer⟩ := large
  exact ⟨larger, after, ended, (if_pos graphics).trans (loop larger larger more longer)⟩

/-- The framebuffer loop ends, without a page fault and with the whole framebuffer
mapped to itself, if and only if its counter does not wrap, what it leaves out was
mapped before, and it has the page tables it uses, each mapped to itself. -/
theorem framebuffer_mapped_iff (paged : Paged ⟨kernel.withVmm vmm, []⟩) (graphics : mbootInfo.vbeMode ≠ 3)
    (fits : framebufferEnd mbootInfo ≤ 2 ^ 32)
    (handed : ∀ fuel after, framebufferLoop fuel mbootInfo vmm = .done () after → HandsOutBelow (2 ^ 20) vmm.pmm after.pmm) :
    (∃ fuel after, framebufferLoop fuel mbootInfo vmm = .done () after ∧ vmm.Unfaulted after ∧
      ∀ byte, mbootInfo.framebufferAddr ≤ byte → byte < framebufferEnd mbootInfo → after.mapsTo byte byte = true) ↔
    FramebufferReached mbootInfo vmm := by
  have limit := framebufferLimit_le_iff fits
  have word : framebufferStart mbootInfo < 2 ^ 32 := Nat.mod_lt _ (by decide)
  have supplies : ∀ {fuel : Nat} {after : Vmm}, framebufferLoop fuel mbootInfo vmm = .done () after →
      framebufferLimit mbootInfo ≤ 2 ^ 32 - 4096 + framebufferStart mbootInfo % 4096 →
      (vmm.Unfaulted after ↔ FramebufferSupplied mbootInfo vmm after.pmm) := by
    intro fuel after run ends
    have below := handed fuel after run
    rw [framebufferLoop, if_pos graphics] at run
    exact (mapPages_supplies ends word paged run below).2
  constructor
  · intro mapped
    obtain ⟨fuel, after, run, unfaulted, reached⟩ := mapped
    have ends : framebufferLimit mbootInfo ≤ 2 ^ 32 - 4096 + framebufferStart mbootInfo % 4096 := by
      by_contra long
      rw [framebufferLoop, if_pos graphics] at run
      exact mapPages_endless (Nat.lt_of_not_le long) word run
    obtain ⟨pagedAfter, walk⟩ := framebufferLoop_walk paged (handed fuel after run) run
    refine ⟨limit.mp ends, ?_, _, (supplies run ends).mp unfaulted⟩
    intro byte lower upper
    exact (framebuffer_byte_iff graphics fits paged.writable pagedAfter.writable walk lower upper).mp
      (reached byte lower upper)
  · intro reached
    obtain ⟨ends, rest, last, supplied⟩ := reached
    obtain ⟨fuel, after, ended, run⟩ := supplied.framebufferLoop graphics (limit.mpr ends)
    obtain ⟨pagedAfter, walk⟩ := framebufferLoop_walk paged (handed fuel after run) run
    refine ⟨fuel, after, run, (supplies run (limit.mpr ends)).mpr (ended ▸ supplied), ?_⟩
    intro byte lower upper
    exact (framebuffer_byte_iff graphics fits paged.writable pagedAfter.writable walk lower upper).mpr
      (rest byte lower upper)

/-- A machine with a graphics mode. -/
def screenInfo (address height pitch : Nat) : MultibootInfo :=
  { pcInfo 0x7EE0000 (by decide) with
    vbeMode := 0, framebufferAddr := address, framebufferHeight := height, framebufferPitch := pitch }

/-- A framebuffer of one page behind the sections: its table is the first clear page. -/
theorem framebuffer_mapped_page : ∃ booted installed,
    VmmInstalled (pcInfo 0x7EE0000 (by decide)) 0x220000 smallImage (pcSystem booted) installed ∧
    ∃ fuel after, framebufferLoop fuel (screenInfo 0xFD000000 16 256) installed.kernel.vmm = .done () after ∧
      installed.kernel.vmm.Unfaulted after ∧
      ∀ byte, 0xFD000000 ≤ byte → byte < 0xFD001000 → after.mapsTo byte byte = true := by
  obtain ⟨booted, installed, sample⟩ := pcInstalled
  have ascending : installed.kernel.vmm.pmm.Ascending 0x222 0x7EE0 := sample.ascending
  have room : 0x222 + 1 ≤ 0x7EE0 := by decide
  have outside : ∀ byte, ¬ LeftOut (screenInfo 0xFD000000 16 256) byte := by
    intro byte out
    rcases out with wraps | ⟨_, behind⟩
    · exact absurd wraps (by decide)
    · exact absurd behind (by decide)
  have paged : Paged ⟨installed.kernel.withVmm installed.kernel.vmm, []⟩ := by
    have same : System.mk (installed.kernel.withVmm installed.kernel.vmm) [] = installed := by
      rw [← sample.unheld]
      rfl
    exact same.symm ▸ sample.paged
  refine ⟨booted, installed, sample.installed, (framebuffer_mapped_iff paged (by decide) (by decide) ?_).mpr ⟨?_, ?_, ?_⟩⟩
  · intro fuel after run
    have turn : ∃ fuel, vmmMap fuel 0xFD000000 0xFD000000 (ptePresent ||| pteWritable) installed.kernel.vmm = .done () after := by
      rw [framebufferLoop, if_pos (by decide)] at run
      cases fuel with
      | zero => cases run
      | succ fuel =>
          rw [mapPages, if_pos (by decide)] at run
          obtain ⟨_, middle, map, rest⟩ := Outcome.bind_done.mp run
          cases fuel with
          | zero => cases rest
          | succ fuel =>
              rw [mapPages, if_neg (by decide)] at rest
              cases rest
              exact ⟨_, map⟩
    obtain ⟨fuel, map⟩ := turn
    have makes : Makes installed (.vmmMap 0xFD000000 0xFD000000 (ptePresent ||| pteWritable))
        ⟨installed.kernel.withVmm after, installed.held⟩ := .vmmMap (by decide) map
    exact makes.handed (ascending.fits trivial room (by decide)) (Nat.le_refl _)
  · exact .inr (by decide)
  · exact fun byte _ _ out => absurd out (outside byte)
  · obtain ⟨fuel, rest, alloc, _⟩ := ascending.alloc Nat.one_pos room
    have vacant : installed.kernel.vmm.tree.root 0x3F4 = none := sample.root 0x3F4
    have low : installed.kernel.vmm.Identity 0x222000 := (sample.anchored (by decide) (by decide)).identity _ (by decide)
    exact ⟨rest, .created vacant (alloc fuel (Nat.le_refl _)) ((identity_shown (by decide) (by decide)).mp low) .nothing⟩

theorem mapKernel_graphics {info : MultibootInfo} (textMode : info.vbeMode = 3)
    (run : mapKernel fuel image info before = .done () vmm) :
    mapKernel fuel image mbootInfo before = framebufferLoop fuel mbootInfo vmm := by
  obtain ⟨_, text, textRun, rest⟩ := Outcome.bind_done.mp run
  obtain ⟨_, rodata, rodataRun, rest⟩ := Outcome.bind_done.mp rest
  obtain ⟨_, data, dataRun, rest⟩ := Outcome.bind_done.mp rest
  obtain ⟨_, bss, bssRun, last⟩ := Outcome.bind_done.mp rest
  rw [if_neg (not_not.mpr textMode)] at last
  cases last
  rw [mapKernel, textRun, Outcome.done_bind, rodataRun, Outcome.done_bind, dataRun, Outcome.done_bind, bssRun,
    Outcome.done_bind, framebufferLoop]
  rfl

/-- The limit of a framebuffer that ends with the address space is 0, and none of
its pages is mapped. -/
theorem framebufferLoop_maps_nothing : framebufferEnd (screenInfo 0xFF000000 2048 8192) ≤ 2 ^ 32 ∧
    ∃ booted fuel after,
      pmmInstall (2 ^ 20 + 2) (screenInfo 0xFF000000 2048 8192) 0x220000 (Pmm.initial fun _ => 0) = .done () booted ∧
      vmmInstall fuel smallImage (screenInfo 0xFF000000 2048 8192) (pcVmm booted) = .done () after ∧
      ¬ after.mapsTo 0xFF000000 0xFF000000 = true := by
  obtain ⟨booted, fuel, vmm, install, reserved, run, handed, _⟩ := pcVmm_install smallImage_low
  have kernel : Kernel := ⟨vmm, fun _ => 0, fun _ => ⟨0, 0, 0, 0⟩, 0⟩
  have whole : vmmInstall fuel smallImage (screenInfo 0xFF000000 2048 8192) (pcVmm booted) = .done () vmm := by
    refine (mapKernel_graphics rfl run).trans ?_
    cases fuel with
    | zero => cases run
    | succ fuel => rfl
  obtain ⟨paged, walk⟩ := mapKernel_walk smallImage_linked
    (fillDirectory_paged kernel (by decide) (by decide) reserved) whole handed
  have place : sectionAddress smallImage 0xBEE00000 = 0xFF000000 := by decide
  have found := walk 0xBEE00000 (by decide)
  have uncovered : ¬ FramebufferPage (screenInfo 0xFF000000 2048 8192) (0xFF000000 / 4096) := by decide
  have apart : smallImage.sectionWalk (fillDirectory smallImage (pcVmm booted)) 0xBEE00000 =
      (fillDirectory smallImage (pcVmm booted)).walk (sectionAddress smallImage 0xBEE00000) :=
    (if_neg (by decide)).trans (if_neg (by decide))
  have word : smallImage.firstPageTable < 2 ^ 32 := by decide
  have aligned : smallImage.firstPageTable % 4096 = 0 := by decide
  rw [apart, place, if_neg uncovered, fillDirectory_walk word aligned (by decide), if_neg (by decide)] at found
  refine ⟨by decide, booted, fuel, vmm, install, whole, ?_⟩
  rw [Vmm.mapsTo, found]
  simp

end BarrelOS.Memory
