import BarrelOS.Memory.HeapStart

namespace BarrelOS.Memory

open BarrelOS.Boot BarrelOS.Data BarrelOS.Semantics BarrelOS.X86

/-! What the heap is for: a block keeps what is written to it -/

/-- A call of the heap that returns, or a byte that is written to a block. -/
inductive HeapAction where
  | kmalloc (n ptr : Nat)
  | kfree (block : Block)
  | write (block : Block) (i : Nat) (byte : UInt8)

/-- The bytes last written to a block since it was allocated. -/
abbrev Contents := Block → Nat → Option UInt8

def Contents.apply (contents : Contents) : HeapAction → Contents
  | .kmalloc n ptr => Function.update contents ⟨ptr, n⟩ fun _ => none
  | .kfree _ => contents
  | .write block i byte => Function.update contents block (Function.update (contents block) i (some byte))

def contentsAfter (actions : List HeapAction) : Contents := actions.foldl Contents.apply fun _ _ => none

/-- What `kmalloc` needs: pages below 1 GiB for the block, its later pages mapped, and a page table below 4 MiB. -/
structure Serves (system : System) (n : Nat) : Prop where
  fits : Fits (2 ^ 20) system (.heapAlloc n)
  high : StaysHigh system (.heapAlloc n)
  tables : TablesLow system (.heapAlloc n)
  mapped : KeepsBacked system (.heapAlloc n)

/-- An action in the structured model. A block is used while it is live. -/
inductive Acts : System → HeapAction → System → Prop
  | kmalloc {system : System} {fuel n ptr : Nat} {last : Kernel}
      (size : n + sizeofHeapBlock + 4095 < 2 ^ 32)
      (run : Memory.kmalloc fuel n system.kernel = .done ptr last)
      (serves : Serves system n) :
      Acts system (.kmalloc n ptr) ⟨last, .block ⟨ptr, n⟩ :: system.held⟩
  | kfree {system : System} {block : Block} (member : .block block ∈ system.held) :
      Acts system (.kfree block) ⟨Memory.kfree block.ptr system.kernel, system.held.erase (.block block)⟩
  | write {system : System} {block : Block} {i : Nat} {byte : UInt8}
      (member : .block block ∈ system.held) (inside : i < block.size) :
      Acts system (.write block i byte) system

inductive ActsRun (start : System) : List HeapAction → System → Prop
  | start : ActsRun start [] start
  | step {actions : List HeapAction} {action : HeapAction} {before after : System}
      (earlier : ActsRun start actions before) (acts : Acts before action after) : ActsRun start (actions ++ [action]) after

def Block.address (block : Block) (i : Nat) : Nat := (block.ptr + i) % 2 ^ 32

/-- The same action on the bytes: the code runs to its end, and the call returns what it returns in the model. -/
inductive Performs (directory : Nat) : Ram → HeapAction → Ram → Prop
  | kmalloc {ram after : Ram} {fuel n ptr : Nat} (run : ram.kmalloc directory fuel n = .done ptr after) :
      Performs directory ram (.kmalloc n ptr) after
  | kfree {ram after : Ram} {block : Block} (run : ram.kfree directory block.ptr = .done () after) :
      Performs directory ram (.kfree block) after
  | write {ram after : Ram} {block : Block} {i : Nat} {byte : UInt8}
      (run : ram.writeByte directory (block.address i) byte = .done () after) :
      Performs directory ram (.write block i byte) after

inductive PerformsRun (directory : Nat) (first : Ram) : List HeapAction → Ram → Prop
  | start : PerformsRun directory first [] first
  | step {actions : List HeapAction} {action : HeapAction} {before after : Ram}
      (earlier : PerformsRun directory first actions before) (performs : Performs directory before action after) :
      PerformsRun directory first (actions ++ [action]) after

/-! Where the bytes of a block are -/

variable {directory page fuel n i j : Nat} {byte : UInt8} {system start after : System} {ram last : Ram} {block other : Block} {site : Site}
  {owner : Owner} {contents : Contents} {action : HeapAction} {actions : List HeapAction}

def Block.place (block : Block) (i : Nat) : Nat := block.allocation.ptr + sizeofHeapBlock + i

namespace Steady

variable (steady : Steady directory system)
include steady

theorem byte_page (member : .block block ∈ system.held) (inside : i < block.size) :
    block.place i / 4096 ∈ block.allocation.pages ∧ (ByteUsable system block i ↔ system.kernel.vmm.Backs (block.place i / 4096)) :=
  byteUsable_iff (steady.block_placed member) (steady.size block member) inside

theorem place_page (member : .block block ∈ system.held) (inside : i < block.size) : block.place i / 4096 ∈ block.allocation.pages :=
  (steady.byte_page member inside).1

theorem address (member : .block block ∈ system.held) (inside : i < block.size) :
    block.address i < 2 ^ 32 ∧ physical (block.address i) = block.place i ∧ (block.address i) % 4096 = block.place i % 4096 := by
  have placed := steady.block_placed member
  have pages := placed.page_lt (steady.place_page member inside)
  have header := block.header_eq
  have high := steady.below block member
  have size := steady.size block member
  have count : block.allocation.count = (block.size + 15) / 4096 + 1 := heapPages_eq size
  unfold Block.place at *
  unfold Block.address
  simp only [Block.header, higherHalf, physical, sizeofHeapBlock] at *
  omega

/-- The processor finds a byte of a block where its page is. -/
theorem translate (represents : Represents directory system.sites system.kernel ram) (member : .block block ∈ system.held)
    (inside : i < block.size) : X86.translate ram.memory directory (block.address i) = some (block.place i) := by
  obtain ⟨word, place, offset⟩ := steady.address member inside
  obtain ⟨flags, walk, _⟩ := (mapsTo_iff steady.writable word).mp (steady.backed.bytes member i inside).1
  have frame : pageBase (block.place i) = block.place i / 4096 * 4096 := by
    refine pageBase_eq ?_
    rw [← place]
    exact Nat.mod_lt _ (by decide)
  change system.kernel.vmm.walk (block.address i) = some (pageBase (physical (block.address i)), flags) at walk
  rw [X86.translate, represents.pageWalk word, walk, place, frame, offset]
  refine congrArg some ?_
  change block.place i / 4096 * 4096 + block.place i % 4096 = block.place i
  omega

/-- No word of the memory manager lies in the bytes of a block. -/
theorem outside (member : .block block ∈ system.held) (inside : i < block.size) (live : site ∈ system.sites) :
    ¬ (sites directory).Covers site (block.place i) := by
  intro covers
  have page : (sites directory).page site = block.place i / 4096 := by
    have fits := steady.sites_apart.fits site live
    obtain ⟨lower, upper⟩ := covers
    omega
  have own := steady.place_page member inside
  rw [← page] at own
  rcases live with rfl | ⟨owner, live, uses⟩
  · exact steady.reserves.unheld (.caller (.block block)) member own
  · have owns : (sites directory).page site ∈ owner.pages := uses.page_owned steady.toAccounted steady.toHeapPlaced live
    have same : owner = .caller (.block block) := by
      by_contra differ
      have disjoint := steady.owned.apart live (show Owner.caller (.block block) ∈ system.owners from member) differ
      exact Set.disjoint_left.mp disjoint owns own
    subst same
    cases uses
    have upper : block.place i < frameOf block.header / 4096 * 4096 + 4 * 4 := covers.2
    have high := steady.blocks block member
    have aligned := (steady.block_placed member).address
    have frame : frameOf block.header = block.allocation.ptr := if_pos high
    rw [frame, aligned] at upper
    unfold Block.place sizeofHeapBlock at upper
    omega

theorem place_injective (first : .block block ∈ system.held) (second : .block other ∈ system.held) (left : i < block.size)
    (right : j < other.size) (same : block.place i = other.place j) : block = other ∧ i = j := by
  have inFirst := steady.place_page first left
  have inSecond := steady.place_page second right
  rw [same] at inFirst
  have blocks : block = other := by
    by_contra differ
    have owners : Owner.caller (.block block) ≠ .caller (.block other) := fun equal => differ (Holder.block.inj (Owner.caller.inj equal))
    have disjoint := steady.owned.apart (show Owner.caller (.block block) ∈ system.owners from first)
      (show Owner.caller (.block other) ∈ system.owners from second) owners
    exact Set.disjoint_left.mp disjoint inFirst inSecond
  subst blocks
  exact ⟨rfl, Nat.add_left_cancel same⟩

end Steady

/-! Every action keeps the contents -/

/-- The bytes stand for the heap, and every block for what was written to it. -/
structure Stores (directory : Nat) (system : System) (contents : Contents) (ram : Ram) : Prop extends Steady directory system where
  represents : Represents directory system.sites system.kernel ram
  bytes : ∀ block, .block block ∈ system.held → ∀ i < block.size, ∀ byte, contents block i = some byte → ram.memory (block.place i) = byte

namespace Stores

theorem kmalloc {ptr : Nat} {kernel : Kernel} (stores : Stores directory system contents ram)
    (size : n + sizeofHeapBlock + 4095 < 2 ^ 32) (run : Memory.kmalloc fuel n system.kernel = .done ptr kernel) (serves : Serves system n) :
    ∃ last, Performs directory ram (.kmalloc n ptr) last ∧
      Stores directory ⟨kernel, .block ⟨ptr, n⟩ :: system.held⟩ (contents.apply (.kmalloc n ptr)) last := by
  have makes : Makes system (.heapAlloc n) ⟨kernel, .block ⟨ptr, n⟩ :: system.held⟩ := .heapAlloc size run
  have handed := makes.handed serves.fits (Nat.le_refl _)
  have following := stores.toSteady.kmalloc size run serves.high serves.tables serves.mapped handed
  obtain ⟨last, performed, represented, touches⟩ := stores.represents.kmalloc stores.toSteady size run handed following
  refine ⟨last, .kmalloc performed, following, represented, ?_⟩
  intro block member i inside byte found
  change Function.update contents ⟨ptr, n⟩ _ block i = some byte at found
  by_cases new : block = ⟨ptr, n⟩
  · rw [new, Function.update_self] at found
    cases found
  · rw [Function.update_of_ne new] at found
    have older : .block block ∈ system.held := (List.mem_cons.mp member).resolve_left fun same => new (Holder.block.inj same)
    rw [touches _ fun site live => following.outside member inside live]
    exact stores.bytes block older i inside byte found

theorem kfree (stores : Stores directory system contents ram) (member : .block block ∈ system.held) :
    ∃ last, Performs directory ram (.kfree block) last ∧
      Stores directory ⟨Memory.kfree block.ptr system.kernel, system.held.erase (.block block)⟩
        (contents.apply (.kfree block)) last := by
  obtain ⟨last, performed, represented, touches⟩ := stores.represents.kfree stores.toSteady member
  refine ⟨last, .kfree performed, stores.toSteady.kfree member, represented, ?_⟩
  intro other kept i inside byte found
  have older := List.mem_of_mem_erase kept
  rw [touches _ fun site live => stores.outside older inside live]
  exact stores.bytes other older i inside byte found

theorem write (stores : Stores directory system contents ram) (member : .block block ∈ system.held) (inside : i < block.size)
    (byte : UInt8) :
    ∃ last, Performs directory ram (.write block i byte) last ∧
      Stores directory system (contents.apply (.write block i byte)) last := by
  have place := stores.translate stores.represents member inside
  refine ⟨{ ram with memory := Function.update ram.memory (block.place i) byte }, .write ?_, stores.toSteady, ?_, ?_⟩
  · rw [Ram.writeByte, place]
  · have represents := stores.represents
    refine ⟨represents.aligned, represents.apart, represents.root, represents.tables, ?_, represents.pmm, represents.kernelHeap⟩
    refine represents.words.outside represents.apart fun site live place covers => Function.update_of_ne (fun same => ?_) ..
    exact stores.outside member inside live (same ▸ covers)
  · intro other live j within last found
    change Function.update contents block _ other j = some last at found
    change Function.update ram.memory (block.place i) byte (other.place j) = last
    by_cases here : other = block ∧ j = i
    · obtain ⟨rfl, rfl⟩ := here
      rw [Function.update_self, Function.update_self] at found
      rw [Function.update_self]
      exact Option.some.inj found
    · have elsewhere : other.place j ≠ block.place i := fun same => here (stores.place_injective live member within inside same)
      rw [Function.update_of_ne elsewhere]
      refine stores.bytes other live j within last ?_
      by_cases same : other = block
      · rw [same, Function.update_self, Function.update_of_ne fun index => here ⟨same, index⟩] at found
        rw [same]
        exact found
      · rwa [Function.update_of_ne same] at found

theorem step (stores : Stores directory system contents ram) (acts : Acts system action after) :
    ∃ last, Performs directory ram action last ∧ Stores directory after (contents.apply action) last := by
  cases acts with
  | kmalloc size run serves => exact stores.kmalloc size run serves
  | kfree member => exact stores.kfree member
  | write member inside => exact stores.write member inside _

theorem run (stores : Stores directory start (fun _ _ => none) ram) (run : ActsRun start actions system) :
    ∃ last, PerformsRun directory ram actions last ∧ Stores directory system (contentsAfter actions) last := by
  induction run with
  | start => exact ⟨ram, .start, stores⟩
  | step _ acts ih =>
      obtain ⟨middle, performed, stored⟩ := ih
      obtain ⟨last, performs, kept⟩ := stored.step acts
      refine ⟨last, .step performed performs, ?_⟩
      rw [contentsAfter, List.foldl_append]
      exact kept

end Stores

/-! From the moment the heap is there -/

variable {mbd : MultibootInfo} {kernelEnd lead : Nat} {image : Image}

theorem Pmm.Ascending.serves {n : Nat} (ascending : system.kernel.vmm.pmm.Ascending lead 0x400) (one : heapPages n = 1)
    (room : lead + 2 ≤ 0x400) : Serves system n where
  fits := ascending.fits (show 0 < heapPages n by omega) (show lead + (heapPages n + 1) ≤ 0x400 by omega)
    (show lead + (heapPages n + 1) ≤ 2 ^ 20 by omega)
  high := by
    intro count position request
    obtain ⟨rfl, rfl⟩ := ascending.block (by omega) (by omega) request
    unfold pageAddress
    omega
  tables := by
    intro position request
    have inside := (ascending.requests request (show 0 < heapPages n by omega) (show lead + (heapPages n + 1) ≤ 0x400 by omega)).2
    change position + 1 ≤ lead + (heapPages n + 1) at inside
    unfold pageAddress
    omega
  mapped := by
    intro count position request offset behind inside
    cases request with
    | block => omega

theorem Contents.apply_write {block : Block} {i : Nat} {byte : UInt8} (contents : Contents) :
    contents.apply (.write block i byte) block i = some byte := by
  change Function.update contents block (Function.update (contents block) i (some byte)) block i = some byte
  rw [Function.update_self, Function.update_self]

theorem contentsAfter_last {block : Block} {i : Nat} {byte : UInt8} (actions : List HeapAction) :
    contentsAfter (actions ++ [.write block i byte]) block i = some byte := by
  rw [contentsAfter, List.foldl_append]
  exact Contents.apply_write _

/-- The memory manager on bytes, with every pointer translated by the page tables in those bytes: whatever is allocated, freed and
written in turn, each call runs to its end and returns what it returns in the structured model, the bytes keep standing for that
model, and a byte of a live block reads as what was last written to it. -/
theorem heap_keeps_contents (booted : Booted mbd kernelEnd image start) (low : LowStart directory start)
    (represents : Represents directory start.sites start.kernel ram) (run : ActsRun start actions system) :
    ∃ last, PerformsRun directory ram actions last ∧ Represents directory system.sites system.kernel last ∧
      (∀ virt < 2 ^ 32, pageWalk last.memory directory virt = system.kernel.vmm.walk virt) ∧
      ∀ block, .block block ∈ system.held → ∀ i < block.size, ∃ byte, last.readByte directory (block.address i) = .done byte last ∧
        ∀ stored, contentsAfter actions block i = some stored → byte = stored := by
  have stores : Stores directory start (fun _ _ => none) ram := ⟨booted.steady low, represents, fun _ _ _ _ _ found => by cases found⟩
  obtain ⟨last, performed, kept⟩ := stores.run run
  refine ⟨last, performed, kept.represents, fun virt bound => kept.represents.pageWalk bound, ?_⟩
  intro block member i inside
  refine ⟨last.memory (block.place i), ?_, fun stored found => kept.bytes block member i inside stored found⟩
  rw [Ram.readByte, kept.translate kept.represents member inside]

/-- A block of 100 bytes keeps a byte. -/
theorem heap_keeps_contents_byte : ∃ (start system : System) (ram last : Ram) (block : Block),
    Booted (pcInfo 0x7EE0000 (by decide)) 0x220000 smallImage start ∧ Represents 0x218000 start.sites start.kernel ram ∧
      ActsRun start [.kmalloc 100 block.ptr, .write block 5 0x41] system ∧
      PerformsRun 0x218000 ram [.kmalloc 100 block.ptr, .write block 5 0x41] last ∧
      last.readByte 0x218000 (block.address 5) = .done 0x41 last := by
  obtain ⟨start, lead, booted, low, ascending, most⟩ := pcStart
  obtain ⟨ram, represents⟩ := (booted.steady low).represented rfl
  obtain ⟨fuel, kernel, run, _⟩ := ascending.kmalloc (show 100 + sizeofHeapBlock + 4095 < 2 ^ 32 by decide)
    (show lead + 1 + 1 ≤ 0x400 by omega)
  have serves : Serves start 100 := ascending.serves (by decide) (by omega)
  generalize (higherHalf (pageAddress lead) + sizeofHeapBlock) % 2 ^ 32 = ptr at run
  have member : Holder.block ⟨ptr, 100⟩ ∈ .block ⟨ptr, 100⟩ :: start.held := List.mem_cons_self
  have acts : ActsRun start [.kmalloc 100 ptr, .write ⟨ptr, 100⟩ 5 0x41] ⟨kernel, .block ⟨ptr, 100⟩ :: start.held⟩ :=
    (ActsRun.start.step (.kmalloc (by decide) (run fuel (Nat.le_refl _)) serves)).step
      (.write member (show 5 < 100 by decide))
  obtain ⟨last, performed, _, _, bytes⟩ := heap_keeps_contents booted low represents acts
  obtain ⟨byte, read, same⟩ := bytes _ member 5 (show 5 < 100 by decide)
  have stored : byte = 0x41 := same 0x41 (contentsAfter_last [.kmalloc 100 ptr])
  rw [stored] at read
  exact ⟨start, _, ram, last, _, booted, represents, acts, performed, read⟩

end BarrelOS.Memory
