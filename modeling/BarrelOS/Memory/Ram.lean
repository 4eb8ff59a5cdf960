import BarrelOS.Data.Pages
import BarrelOS.Memory.HeapBytes
import BarrelOS.Memory.HeapList
import BarrelOS.Memory.LowMemory
import BarrelOS.X86.Paging

namespace BarrelOS.Memory

open BarrelOS.Data BarrelOS.Semantics BarrelOS.X86

/-! The memory manager on bytes, with every pointer translated by the processor -/

/-- The bytes of the machine, with the bitmap of `pmm.c` and `kernel_heap`. -/
structure Ram where
  memory : Bytes
  pmm : Pmm
  kernelHeap : Nat

namespace Ram

-- `page_directory`, which is what `cr3` holds too.
variable (directory : Nat)

def read (virt : Nat) (ram : Ram) : Outcome Ram Nat :=
  match translate ram.memory directory virt with
  | some phys => .done (ram.memory.load32 phys) ram
  | none => .faulted ram

def write (virt word : Nat) (ram : Ram) : Outcome Ram Unit :=
  match translate ram.memory directory virt with
  | some phys => .done () { ram with memory := ram.memory.store phys (wordBytes word) }
  | none => .faulted ram

def readByte (virt : Nat) (ram : Ram) : Outcome Ram UInt8 :=
  match translate ram.memory directory virt with
  | some phys => .done (ram.memory phys) ram
  | none => .faulted ram

def writeByte (virt : Nat) (byte : UInt8) (ram : Ram) : Outcome Ram Unit :=
  match translate ram.memory directory virt with
  | some phys => .done () { ram with memory := Function.update ram.memory phys byte }
  | none => .faulted ram

def pmmAlloc (fuel count : Nat) (ram : Ram) : Outcome Ram Nat :=
  (Memory.pmmAlloc fuel count ram.pmm).within fun pmm => { ram with pmm }

def pmmFree (ptr count : Nat) (ram : Ram) : Ram := { ram with pmm := Memory.pmmFree ptr count ram.pmm }

/-- `for (i = start; i < start + count; i++) new_pt[i] = 0`. -/
def clearTable (newPt : Nat) : Nat → Nat → Ram → Outcome Ram Unit
  | _, 0, ram => .done () ram
  | start, count + 1, ram => (ram.write directory (newPt + 4 * start) 0).bind fun _ ram => clearTable newPt (start + 1) count ram

def newTable (fuel pdindex : Nat) (ram : Ram) : Outcome Ram Unit :=
  (ram.pmmAlloc fuel 1).bind fun newPt ram =>
  (ram.clearTable directory newPt 0 1024).bind fun _ ram =>
    ram.write directory (directory + 4 * pdindex) (newPt ||| ptePresent ||| pteWritable)

def vmmMap (fuel phys virt flags : Nat) (ram : Ram) : Outcome Ram Unit :=
  let pdindex := virt >>> 22
  let ptindex := virt >>> 12 &&& 0x3FF
  (ram.read directory (directory + 4 * pdindex)).bind fun pde ram =>
  (if pde &&& 0x1 = 0 then ram.newTable directory fuel pdindex else .done () ram).bind fun _ ram =>
  (ram.read directory (directory + 4 * pdindex)).bind fun pde ram =>
    ram.write directory (pageBase pde + 4 * ptindex) (pageBase phys ||| flags)

/-- The scan of `vmm_unmap`. -/
def tableEmpty (pt : Nat) : Nat → Nat → Ram → Outcome Ram Bool
  | _, 0, ram => .done true ram
  | start, count + 1, ram => (ram.read directory (pt + 4 * start)).bind fun pte ram =>
      if pte &&& 0x1 = 0 then tableEmpty pt (start + 1) count ram else .done false ram

def vmmUnmap (virt : Nat) (ram : Ram) : Outcome Ram Unit :=
  let pdindex := virt >>> 22
  let ptindex := virt >>> 12 &&& 0x3FF
  (ram.read directory (directory + 4 * pdindex)).bind fun pde ram =>
  if pde &&& 0x1 = 0 then .done () ram
  else
    let pt := pageBase pde
    (ram.write directory (pt + 4 * ptindex) 0).bind fun _ ram =>
    (ram.tableEmpty directory pt 0 1024).bind fun empty ram =>
      if empty then (ram.pmmFree pt 1).write directory (directory + 4 * pdindex) 0 else .done () ram

/-- `offsetof` for the fields of `struct heap_block`. -/
def next (block : Nat) : Nat := block

def prev (block : Nat) : Nat := block + 4

def size (block : Nat) : Nat := block + 8

def magic (block : Nat) : Nat := block + 12

def heapAlloc (fuel h n : Nat) (ram : Ram) : Outcome Ram Nat :=
  (ram.pmmAlloc fuel (heapPages n)).bind fun ptr ram =>
    let block := higherHalf ptr
    (ram.vmmMap directory fuel (physical block) block (ptePresent ||| pteWritable)).bind fun _ ram =>
    (ram.read directory h).bind fun head ram =>
    (ram.write directory (next block) head).bind fun _ ram =>
    (ram.read directory h).bind fun head ram =>
    (ram.read directory (prev head)).bind fun last ram =>
    (ram.write directory (prev block) last).bind fun _ ram =>
    (ram.write directory (size block) n).bind fun _ ram =>
    (ram.write directory (magic block) heapMagic).bind fun _ ram =>
      .done ((block + sizeofHeapBlock) % 2 ^ 32) ram

def heapFree (ptr : Nat) (ram : Ram) : Outcome Ram Unit :=
  let block := (ptr + 2 ^ 32 - sizeofHeapBlock) % 2 ^ 32
  (ram.read directory (magic block)).bind fun found ram =>
  if found ≠ heapMagic then .done () ram
  else
    (ram.read directory (prev block)).bind fun before ram =>
    (ram.read directory (next block)).bind fun behind ram =>
    (ram.write directory (next before) behind).bind fun _ ram =>
    (ram.read directory (next block)).bind fun behind ram =>
    (ram.read directory (prev block)).bind fun before ram =>
    (ram.write directory (prev behind) before).bind fun _ ram =>
    (ram.read directory (size block)).bind fun length ram =>
      (ram.pmmFree (physical block) (heapPages length)).vmmUnmap directory block

def kmalloc (fuel n : Nat) (ram : Ram) : Outcome Ram Nat := ram.heapAlloc directory fuel ram.kernelHeap n

def kfree (ptr : Nat) (ram : Ram) : Outcome Ram Unit := ram.heapFree directory ptr

end Ram

/-! Where the words of the structured model are -/

/-- What of the memory manager lies in a page of its own: the page directory, a page table, the header of a block or
of the head of the list, and a `struct heap`. -/
inductive Site where
  | directory
  | table (page : Nat)
  | header (virt : Nat)
  | heap (page : Nat)
deriving DecidableEq

/-- The frame behind an address: those of the higher half are the blocks', the others are used as they are. -/
def frameOf (virt : Nat) : Nat := if 0xC0000000 ≤ virt then physical virt else virt

def sites (directory : Nat) : Layout Site where
  page
    | .directory => directory / 4096
    | .table page | .heap page => page / 4096
    | .header virt => frameOf virt / 4096
  size
    | .directory | .table _ => 1024
    | .header _ => 4
    | .heap _ => 1

def HeapBlock.word (header : HeapBlock) : Nat → Nat
  | 0 => header.next
  | 1 => header.prev
  | 2 => header.size
  | _ => header.magic

def Kernel.word (kernel : Kernel) : Site → Nat → Nat
  | .directory => kernel.vmm.pageDirectory
  | .table page => kernel.vmm.memory page
  | .header virt => (kernel.block virt).word
  | .heap page => fun _ => kernel.head page

/-- The bytes hold the words of the structured model, page tables in use among them. -/
structure Represents (directory : Nat) (live : Set Site) (kernel : Kernel) (ram : Ram) : Prop where
  aligned : directory % 4096 = 0
  apart : (sites directory).Apart live
  root : .directory ∈ live
  tables : ∀ slot page, kernel.vmm.tree.root slot = some page → .table page ∈ live
  words : (sites directory).Holds live kernel.word ram.memory
  pmm : ram.pmm = kernel.vmm.pmm
  kernelHeap : ram.kernelHeap = kernel.kernelHeap

variable {directory virt start i word value phys : Nat} {live : Set Site} {site : Site} {kernel : Kernel} {ram : Ram}

theorem and_one_mod (word : Nat) : word % 2 ^ 32 &&& 0x1 = word &&& 0x1 := by
  rw [Nat.and_one_is_mod, Nat.and_one_is_mod]
  omega

theorem pageBase_mod (word : Nat) : pageBase (word % 2 ^ 32) = pageBase word := by
  rw [pageBase, ← Nat.and_two_pow_sub_one_eq_mod, Nat.and_assoc]
  rfl

theorem pageFlags_mod (word : Nat) : pageFlags (word % 2 ^ 32) = pageFlags word := by
  rw [pageFlags_eq_mod, pageFlags_eq_mod]
  omega

namespace Represents

variable (represents : Represents directory live kernel ram)
include represents

/-- The processor finds in the bytes what the structured model finds. -/
theorem pageWalk (bound : virt < 2 ^ 32) : pageWalk ram.memory directory virt = kernel.vmm.walk virt := by
  have bounded := represents.apart.inside _ represents.root
  have base : pageBase directory = directory / 4096 * 4096 := by
    rw [pageBase_of_aligned (by change directory / 4096 < _ at bounded; omega) represents.aligned]
    have aligned := represents.aligned
    omega
  have entry := represents.words _ represents.root (virt >>> 22) (slotOf_lt bound)
  unfold X86.pageWalk Vmm.walk
  rw [base]
  change ram.memory.load32 (directory / 4096 * 4096 + 4 * (virt >>> 22)) = kernel.vmm.pageDirectory (virt >>> 22) % 2 ^ 32 at entry
  simp only [entry, and_one_mod, pageBase_mod]
  by_cases present : kernel.vmm.pageDirectory (virt >>> 22) &&& 0x1 = 0
  · rw [if_pos present, if_pos present]
  · rw [if_neg present, if_neg present]
    have used := represents.tables _ _ (Vmm.tree_root_some.mpr ⟨slotOf_lt bound, present, rfl⟩)
    have page := represents.words _ used (virt >>> 12 &&& 0x3FF) (indexOf_lt virt)
    have whole : pageBase (kernel.vmm.pageDirectory (virt >>> 22)) / 4096 * 4096 = pageBase (kernel.vmm.pageDirectory (virt >>> 22)) := by
      have aligned := pageBase_aligned (kernel.vmm.pageDirectory (virt >>> 22))
      omega
    change ram.memory.load32 (pageBase (kernel.vmm.pageDirectory (virt >>> 22)) / 4096 * 4096 + 4 * _) = _ at page
    rw [whole] at page
    simp only [page, and_one_mod, pageBase_mod, pageFlags_mod, Kernel.word]

end Represents

/-! Reading and writing one word -/

/-- The page from an address on is that of a site. -/
structure Views (directory : Nat) (kernel : Kernel) (start : Nat) (site : Site) : Prop where
  aligned : start % 4096 = 0
  word : start < 2 ^ 32
  walk : ∃ flags, kernel.vmm.walk start = some ((sites directory).page site * 4096, flags)

/-- Only words of live sites differ. -/
def Touches (directory : Nat) (live : Set Site) (ram after : Ram) : Prop :=
  ∀ place, (∀ site ∈ live, ¬ (sites directory).Covers site place) → after.memory place = ram.memory place

/-- The machine with a word of a site written. -/
def Ram.put (directory : Nat) (site : Site) (i value : Nat) (ram : Ram) : Ram :=
  { ram with memory := ram.memory.store ((sites directory).address site i) (wordBytes value) }

variable {last : Ram} {next : Kernel}

namespace Touches

theorem refl (ram : Ram) : Touches directory live ram ram := fun _ _ => rfl

theorem trans {middle : Ram} (first : Touches directory live ram middle) (second : Touches directory live middle last) :
    Touches directory live ram last := fun place outside => (second place outside).trans (first place outside)

end Touches

namespace Represents

variable (represents : Represents directory live kernel ram)
include represents

theorem translate {offset : Nat} (views : Views directory kernel start site) (inside : offset < 4096) :
    translate ram.memory directory (start + offset) = some ((sites directory).page site * 4096 + offset) := by
  obtain ⟨aligned, bound, flags, walk⟩ := views
  have page : (start + offset) / 4096 = start / 4096 := by omega
  have rest : (start + offset) % 4096 = offset := by omega
  rw [X86.translate, represents.pageWalk (by omega), walk_page page, walk, rest]
  rfl

theorem index_lt (member : site ∈ live) (inside : i < (sites directory).size site) : 4 * i < 4096 := by
  have fits := represents.apart.fits site member
  omega

theorem read (views : Views directory kernel start site) (member : site ∈ live) (inside : i < (sites directory).size site) :
    ram.read directory (start + 4 * i) = .done (kernel.word site i % 2 ^ 32) ram := by
  rw [Ram.read, represents.translate views (represents.index_lt member inside)]
  exact congrArg (Outcome.done · ram) (represents.words site member i inside)

theorem write (views : Views directory kernel start site) (member : site ∈ live) (inside : i < (sites directory).size site)
    (value : Nat) : ram.write directory (start + 4 * i) value = .done () (ram.put directory site i value) := by
  rw [Ram.write, represents.translate views (represents.index_lt member inside)]
  rfl

theorem touches (member : site ∈ live) (inside : i < (sites directory).size site) (value : Nat) :
    Touches directory live ram (ram.put directory site i value) :=
  fun _ outside => Layout.store_elsewhere represents.apart member inside (outside site member)

/-- A word of the structured model is written, and no page table comes into use by it. -/
theorem put (member : site ∈ live) (inside : i < (sites directory).size site)
    (words : ∀ other ∈ live, ∀ j < (sites directory).size other,
      next.word other j = Function.update kernel.word site (Function.update (kernel.word site) i value) other j)
    (tables : ∀ slot page, next.vmm.tree.root slot = some page → .table page ∈ live) (pmm : next.vmm.pmm = kernel.vmm.pmm)
    (kernelHeap : next.kernelHeap = kernel.kernelHeap) : Represents directory live next (ram.put directory site i value) where
  aligned := represents.aligned
  apart := represents.apart
  root := represents.root
  tables := tables
  words := (represents.words.write represents.apart member inside).congr words
  pmm := represents.pmm.trans pmm.symm
  kernelHeap := represents.kernelHeap.trans kernelHeap.symm

end Represents

end BarrelOS.Memory
