import BarrelOS.Acpi.Coverage
import BarrelOS.Acpi.Install
import BarrelOS.Acpi.ListBounds
import BarrelOS.Acpi.Madt
import BarrelOS.Acpi.Tables
import BarrelOS.Acpi.Walk
import BarrelOS.Boot.Gdt
import BarrelOS.Boot.Multiboot
import BarrelOS.Data.Bytes
import BarrelOS.Data.Caches
import BarrelOS.Data.Count
import BarrelOS.Data.Course
import BarrelOS.Data.Directory
import BarrelOS.Data.Ledger
import BarrelOS.Data.Numeral
import BarrelOS.Data.Occurrence
import BarrelOS.Data.Pages
import BarrelOS.Data.Rotation
import BarrelOS.Data.Served
import BarrelOS.Data.Stores
import BarrelOS.Data.Text
import BarrelOS.Data.Window
import BarrelOS.Data.Word
import BarrelOS.Data.Words
import BarrelOS.Display.BackEnds
import BarrelOS.Display.Colors
import BarrelOS.Display.Console
import BarrelOS.Display.ConsoleBounds
import BarrelOS.Display.ConsoleSplit
import BarrelOS.Display.Cursor
import BarrelOS.Display.Escape
import BarrelOS.Display.OnScreen
import BarrelOS.Display.Page
import BarrelOS.Display.Parsing
import BarrelOS.Display.Scroll
import BarrelOS.Display.Sheet
import BarrelOS.Display.Stride
import BarrelOS.Display.Turns
import BarrelOS.Display.Vga
import BarrelOS.Display.VgaSplit
import BarrelOS.Interrupts.Delivery
import BarrelOS.Interrupts.Exceptions
import BarrelOS.Interrupts.Idt
import BarrelOS.Interrupts.Ioapic
import BarrelOS.Interrupts.IoapicInstall
import BarrelOS.Interrupts.Pins
import BarrelOS.Interrupts.Registration
import BarrelOS.Interrupts.Stubs
import BarrelOS.Interrupts.Switch
import BarrelOS.Interrupts.Transparency
import BarrelOS.Lib.Buffer
import BarrelOS.Lib.Directives
import BarrelOS.Lib.Format
import BarrelOS.Lib.FormatEnd
import BarrelOS.Lib.Libc
import BarrelOS.Lib.Memory
import BarrelOS.Lib.Numbers
import BarrelOS.Lib.Printf
import BarrelOS.Lib.Shows
import BarrelOS.Lib.Spans
import BarrelOS.Lib.Strstr
import BarrelOS.Lib.Writes
import BarrelOS.Memory.Accounts
import BarrelOS.Memory.Alloc
import BarrelOS.Memory.Ascent
import BarrelOS.Memory.Bitmap
import BarrelOS.Memory.Bounds
import BarrelOS.Memory.DoubleFree
import BarrelOS.Memory.Exhaustion
import BarrelOS.Memory.Framebuffer
import BarrelOS.Memory.Heap
import BarrelOS.Memory.HeapBytes
import BarrelOS.Memory.HeapList
import BarrelOS.Memory.HeapSizes
import BarrelOS.Memory.HeapStart
import BarrelOS.Memory.HeapStore
import BarrelOS.Memory.Identity
import BarrelOS.Memory.Install
import BarrelOS.Memory.Installed
import BarrelOS.Memory.KernelMap
import BarrelOS.Memory.Leaks
import BarrelOS.Memory.Limit
import BarrelOS.Memory.LowMemory
import BarrelOS.Memory.Ownership
import BarrelOS.Memory.PageLoop
import BarrelOS.Memory.PageMap
import BarrelOS.Memory.Paging
import BarrelOS.Memory.Pmm
import BarrelOS.Memory.Pointers
import BarrelOS.Memory.Ram
import BarrelOS.Memory.RamCalls
import BarrelOS.Memory.RamFrames
import BarrelOS.Memory.RamHeap
import BarrelOS.Memory.RamTables
import BarrelOS.Memory.Search
import BarrelOS.Memory.Sections
import BarrelOS.Memory.Startup
import BarrelOS.Memory.System
import BarrelOS.Memory.Tables
import BarrelOS.Memory.Tlb
import BarrelOS.Memory.Usable
import BarrelOS.Memory.Usage
import BarrelOS.Memory.Vmm
import BarrelOS.Sched.Acknowledge
import BarrelOS.Sched.Contexts
import BarrelOS.Sched.FullTable
import BarrelOS.Sched.Pids
import BarrelOS.Sched.RoundRobin
import BarrelOS.Sched.Scheduler
import BarrelOS.Sched.Sleep
import BarrelOS.Sched.Stacks
import BarrelOS.Sched.Timer
import BarrelOS.Semantics.Outcome
import BarrelOS.Semantics.Sink
import BarrelOS.X86.Below
import BarrelOS.X86.Calls
import BarrelOS.X86.Cpu
import BarrelOS.X86.LocalApic
import BarrelOS.X86.Paging
import BarrelOS.X86.Rules
