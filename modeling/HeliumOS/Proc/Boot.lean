import HeliumOS.Lib.Startup
import HeliumOS.Proc.Ignite

/-!
# The Way to the Event Loop

What the cores do from `_start` to `event_loop`, as far as they meet in statics.  The bootstrap core
sets up memory, interrupts, the initial ramdisk and the ACPI tables, and then the tables of the
cores; the others spin on `IGNITION`.  All of them run `wakeup`, where the bootstrap core maps the
registers of the local APIC while the others spin on `MAPPED`, and where the others spin on
`LATE_IGNITION` before they enter the event loop.

A `Once`, and anything else that is set up once, is a `Cell`.  An `unwrap` of a `Once`, or an access
to memory that has to be mapped first, is a `use` of it.  Registers of one core and the values that
are computed are left out, and so is the growth of the heap, for which no handler is loaded yet.
-/

namespace HeliumOS.Proc.Boot

open HeliumOS.Lib HeliumOS.Lib.Startup

/-! ## Statics -/

/-- What is set up once. -/
inductive Cell where
  | FRAMEBUFFER
  /-- The early allocator has its memory. -/
  | earlyHeap
  /-- The allocator of frames has its segments. -/
  | phys
  | VCACHE
  | P4TABLE
  /-- The global allocator has its memory. -/
  | heap
  /-- `IDT` is filled. -/
  | idt
  | INITRD
  | HANDLERS
  | IOAPIC
  | IOAPIC_REDIRECTION
  | APIC_CONFIG
  /-- The tables with a slot for each core are mapped. -/
  | tables
  | TASKS
  | PROC_TABLE
  | IGNITION
  /-- The page at `APIC_VBASE` is mapped. -/
  | lapic
  | MAPPED
  | LATE_IGNITION
  /-- The slot of a core in the table of stacks is written. -/
  | slot (id : ℕ)
  /-- A core has loaded its own descriptor table. -/
  | gdt (id : ℕ)
  /-- A core has its entry in `PROC_TABLE`. -/
  | entry (id : ℕ)
  | kernelGsBase (id : ℕ)
  | scheduleQuantum (id : ℕ)
  /-- A core has loaded `IDT`. -/
  | idtLoaded (id : ℕ)
  /-- A core takes system calls. -/
  | syscall (id : ℕ)
  deriving DecidableEq

/-- The locks. -/
inductive Lock where
  | HANDLERS
  | NUMCORES
  | IOAPIC
  | IOAPIC_REDIRECTION
  | APIC_CONFIG
  | PROC_TABLE
  | CALIB_LOCK
  | IDT
  | MAPPER
  | VCACHE
  | P4TABLE
  | PHYS_FRAME_ALLOCATOR
  | EARLY_HEAP
  | EARLY_ALLOCATOR
  | DEBUG_WRITER
  | GLOB_ALLOCATOR
  | FRAMEBUFFER
  deriving DecidableEq

/-- The code of a core. -/
abbrev Code := Startup.Code Cell Lock

/-- What is done while a guard lives. -/
def guarded (r : Lock) (m : LockMode) (as : Code) : Code := .lock r m :: (as ++ [.unlock r])

/-! ## The environment -/

/-- An entry of the MADT.  An I/O APIC comes with the number of page tables that are allocated to
map its registers. -/
inductive MadtEntry where
  | localApic
  | ioApic (tables : ℕ)
  | interruptSourceOverride
  | localApicNmi
  | other
  deriving DecidableEq

/-- What `walk_recursive` comes across: a table that has to be mapped, with the page tables that
each `vmap` allocates, and then what is done with a table. -/
inductive AcpiWork where
  | mapTable (vmaps : List ℕ)
  | invalidChecksum
  | madt (entries : List MadtEntry)
  | noHandler

/-- What the run of the code depends on.  The numbers say how many page tables a `vmap`
allocates. -/
structure BootEnv where
  isvm : Bool
  /-- The entries of the memory map, and which of them are used. -/
  mmap : List Bool
  vcacheTables : ℕ
  headerTables : ℕ
  heapTables : List ℕ
  initrdTables : ℕ
  /-- The entries of the archive, and which of them are inserted. -/
  initrd : List Bool
  acpi : List AcpiWork
  ktables : KTable → List ℕ
  lapicTables : ℕ
  /-- The core leaves the calibration early, as it may in a virtual machine. -/
  early : ℕ → Bool

/-- There is an entry that `APIC_CONFIG` is made for. -/
def AcpiWork.hasNmi : AcpiWork → Bool
  | .madt entries => entries.contains .localApicNmi
  | .mapTable _ | .invalidChecksum | .noHandler => false

variable (env : BootEnv)

/-! ## Output and memory -/

/-- `println!`.  The arguments are evaluated while the writer is locked. -/
def println (args : Code) : Code :=
  if env.isvm then guarded .DEBUG_WRITER .write args else []

/-- `debug_set_pixel`, and `debug_printbin`, which takes the framebuffer once. -/
def debugSetPixel : Code := .use .FRAMEBUFFER :: guarded .FRAMEBUFFER .write []

/-- An allocation from the early heap. -/
def earlyAlloc : Code := .use .earlyHeap :: guarded .EARLY_ALLOCATOR .write []

/-- An allocation from the heap. -/
def heapAlloc : Code := .use .heap :: guarded .GLOB_ALLOCATOR .write []

/-- `palloc`. -/
def palloc : Code := guarded .PHYS_FRAME_ALLOCATOR .write [.use .phys]

/-- `vmap`, which allocates a number of page tables. -/
def vmap (tables : ℕ) : Code :=
  guarded .MAPPER .write <| .use .VCACHE :: guarded .VCACHE .write
    (.use .P4TABLE :: guarded .P4TABLE .write ((List.range tables).flatMap fun _ => palloc))

/-- `valloc`, page by page. -/
def valloc (pages : List ℕ) : Code := pages.flatMap fun tables => palloc ++ vmap tables

/-! ## The bootstrap core -/

/-- `early_heap::init`. -/
def earlyHeapInit : Code :=
  guarded .EARLY_HEAP .write (guarded .EARLY_ALLOCATOR .write [.set .earlyHeap])

/-- `phys::init`.  A `push` is taken to allocate. -/
def physInit : Code :=
  (env.mmap.flatMap fun usable => println env [] ++ if usable then earlyAlloc else []) ++
  ((env.mmap.filter id).flatMap fun _ => println env [] ++ earlyAlloc) ++ println env [] ++
  guarded .PHYS_FRAME_ALLOCATOR .write [.set .phys]

/-- `vcache::init`. -/
def vcacheInit : Code :=
  ((List.range env.vcacheTables).flatMap fun _ => palloc) ++ earlyAlloc ++ [.set .VCACHE]

/-- `mapper::init`. -/
def mapperInit : Code := .use .VCACHE :: guarded .VCACHE .write [.set .P4TABLE]

/-- `phys::map_header`. -/
def mapHeader : Code :=
  guarded .PHYS_FRAME_ALLOCATOR .read [] ++ vmap env.headerTables ++
  guarded .PHYS_FRAME_ALLOCATOR .write ((env.mmap.filter id).flatMap fun _ => earlyAlloc)

/-- `mapper::remove_identity`. -/
def removeIdentity : Code := .use .P4TABLE :: guarded .P4TABLE .write []

/-- `heap::init`. -/
def heapInit : Code := valloc env.heapTables ++ guarded .GLOB_ALLOCATOR .write [.set .heap]

/-- `mem::init`. -/
def memInit : Code :=
  earlyHeapInit ++ physInit env ++ vcacheInit env ++ mapperInit ++ mapHeader env ++
  removeIdentity ++ heapInit env

/-- `interrupts::init`. -/
def interruptsInit : Code := guarded .IDT .write [.set .idt]

/-- `initrd::init`. -/
def initrdInit : Code :=
  vmap env.initrdTables ++
  (env.initrd.flatMap fun inserted => if inserted then println env [] ++ heapAlloc else []) ++
  [.set .INITRD]

/-- `console::init`. -/
def consoleInit : Code := .use .INITRD :: println env []

/-- `cfgtb::init`: the cell is set, and the handler of the MADT registered. -/
def cfgtbInit : Code :=
  [.set .HANDLERS, .use .HANDLERS] ++ guarded .HANDLERS .write heapAlloc

/-- The body of the loop of `acpi_handler`. -/
def acpiEntry : MadtEntry → Code
  | .localApic => println env [] ++ guarded .NUMCORES .write []
  | .ioApic tables => println env [] ++ [.set .IOAPIC, .use .IOAPIC] ++
      guarded .IOAPIC .write (vmap tables ++ heapAlloc)
  | .interruptSourceOverride => println env [] ++
      [.set .IOAPIC_REDIRECTION, .use .IOAPIC_REDIRECTION] ++
      guarded .IOAPIC_REDIRECTION .write heapAlloc
  | .localApicNmi => println env [] ++ [.set .APIC_CONFIG, .use .APIC_CONFIG] ++
      guarded .APIC_CONFIG .write heapAlloc
  | .other => println env []

/-- One piece of `walk_recursive`.  The handlers run under the guard of `cfgtb::acpi::call`, and the
signature is made a string while it is written. -/
def acpiWork : AcpiWork → Code
  | .mapTable vmaps => vmaps.flatMap vmap ++ heapAlloc
  | .invalidChecksum => println env []
  | .madt entries => .use .HANDLERS :: guarded .HANDLERS .read
      (println env [] ++ entries.flatMap (acpiEntry env))
  | .noHandler => .use .HANDLERS :: (guarded .HANDLERS .read [] ++ println env heapAlloc)

/-- `acpi::init`. -/
def acpiInit : Code := env.acpi.flatMap (acpiWork env)

/-- `numcores`. -/
def numcores : Code := guarded .NUMCORES .read []

/-- `KernelGlobalDescriptorTable::init`. -/
def gdtInit : Code :=
  numcores ++ valloc (env.ktables .gdt) ++ println env [] ++ println env [] ++
  valloc (env.ktables .tss)

/-- The allocations of `ignite`. -/
def igniteTables : Code :=
  numcores ++ valloc (env.ktables .stack) ++ gdtInit env ++ valloc (env.ktables .nmi) ++
  valloc (env.ktables .df)

/-- `ignite`, up to the call of `wakeup`. -/
def ignite : Code :=
  igniteTables env ++ [.set .tables, .set .TASKS, .set .PROC_TABLE, .set .IGNITION] ++
  debugSetPixel ++ debugSetPixel ++ debugSetPixel

/-- `_start`, up to `mem::init`. -/
def startMemory : Code :=
  println env [] ++ [.set .FRAMEBUFFER] ++ debugSetPixel ++ println env [] ++ println env [] ++
  debugSetPixel ++ println env [] ++ memInit env

/-- `_start`, from there to `cfgtb::init`. -/
def startTables : Code :=
  debugSetPixel ++ println env [] ++ interruptsInit ++ println env [] ++ initrdInit env ++
  println env [] ++ consoleInit env ++ println env [] ++ cfgtbInit

/-- `_start`, up to the call of `ignite`. -/
def start : Code :=
  startMemory env ++ startTables env ++ debugSetPixel ++ println env [] ++ acpiInit env ++
  debugSetPixel ++ println env []

/-! ## All cores -/

/-- `KernelGlobalDescriptorTable::register`: the task state segment and the table are written to the
slots of the core. -/
def register (id : ℕ) : Code :=
  debugSetPixel ++ debugSetPixel ++ debugSetPixel ++ debugSetPixel ++ debugSetPixel ++
  debugSetPixel ++ [.use .tables] ++ debugSetPixel ++ debugSetPixel ++ [.use .tables] ++
  debugSetPixel ++ [.set (.gdt id)] ++ debugSetPixel ++ debugSetPixel ++ debugSetPixel

/-- `ProcInfo::instance`. -/
def procInstance (id : ℕ) : Code :=
  .use .PROC_TABLE :: guarded .PROC_TABLE .write [.use (.entry id)]

/-- `pit_calib_sleep`, with its return from inside the loop. -/
def pitCalibSleep (id : ℕ) : Code :=
  guarded .CALIB_LOCK .write <| debugSetPixel ++ println env [] ++ [.use .lapic] ++
    if env.early id then [] else [.use .lapic] ++ println env [] ++ debugSetPixel ++ debugSetPixel

/-- The first lines of `apic::init`. -/
def mapLapic (primary : Bool) : Code :=
  if primary then
    debugSetPixel ++ println env [] ++ vmap env.lapicTables ++ [.set .lapic] ++ debugSetPixel ++
    [.set .MAPPED]
  else [.await .MAPPED]

/-- `apic::init`.  `APIC_CONFIG` is looked at, and read if it is there. -/
def apicInit (primary : Bool) (id : ℕ) : Code :=
  mapLapic env primary ++ debugSetPixel ++ [.use .lapic] ++ debugSetPixel ++ [.use .lapic] ++
  debugSetPixel ++ [.use .lapic] ++ debugSetPixel ++ [.use .lapic] ++ println env [] ++
  debugSetPixel ++ pitCalibSleep env id ++ debugSetPixel ++ debugSetPixel ++ println env [] ++
  [.use .lapic] ++ debugSetPixel ++
  if env.acpi.any AcpiWork.hasNmi then
    .use .APIC_CONFIG :: guarded .APIC_CONFIG .read [.use .lapic]
  else []

/-- `interrupts::load`. -/
def interruptsLoad (id : ℕ) : Code := guarded .IDT .read [.use .idt, .set (.idtLoaded id)]

/-- `syscall::enable`, which reads the selectors from the table of the core. -/
def syscallEnable (id : ℕ) : Code := [.use .tables, .use (.gdt id), .set (.syscall id)]

/-- The end of `wakeup`: `late_start` and `LATE_IGNITION`, or `latewait`. -/
def lateIgnition (primary : Bool) : Code :=
  if primary then debugSetPixel ++ println env [] ++ [.set .LATE_IGNITION]
    else [.await .LATE_IGNITION]

/-- `wakeup`, up to the call of `apic::init`. -/
def wakeupEntry (id : ℕ) : Code :=
  debugSetPixel ++ debugSetPixel ++ [.use .tables, .set (.slot id)] ++ debugSetPixel ++
  debugSetPixel ++ debugSetPixel ++ register id ++ debugSetPixel ++ debugSetPixel ++
  (.use .PROC_TABLE :: guarded .PROC_TABLE .write (heapAlloc ++ [.set (.entry id)])) ++
  debugSetPixel ++ procInstance id ++ [.set (.kernelGsBase id)] ++ debugSetPixel

/-- `wakeup`.  The right side of the assignment to the quantum comes first.  The last use is the
load of the stack pointer at the start of `event_loop`. -/
def wakeup (primary : Bool) (id : ℕ) : Code :=
  wakeupEntry id ++ apicInit env primary id ++ procInstance id ++ [.set (.scheduleQuantum id)] ++
  debugSetPixel ++ interruptsLoad id ++ debugSetPixel ++ syscallEnable id ++ debugSetPixel ++
  lateIgnition env primary ++ debugSetPixel ++ debugSetPixel ++ println env [] ++
  [.use (.kernelGsBase id)]

/-- What a core does until it is in the event loop. -/
def coreCode (bspid : ℕ) (id : ℕ) : Code :=
  if id = bspid then start env ++ ignite env ++ wakeup env true id
  else [.await .IGNITION] ++ wakeup env false id

/-- The cores of the machine, all about to run `_start`. -/
def machine (bspid : ℕ) (cores : Finset ℕ) : State ℕ Cell Lock :=
  .start fun id => if id ∈ cores then coreCode env bspid id else []

/-- What a core in the event loop relies on when an interrupt or a system call arrives. -/
def ready (id : ℕ) : Set Cell :=
  {.heap, .idt, .INITRD, .tables, .TASKS, .PROC_TABLE, .lapic, .LATE_IGNITION, .slot id, .gdt id,
    .entry id, .kernelGsBase id, .scheduleQuantum id, .idtLoaded id, .syscall id}

-- two pieces of code are never compared by running through them
attribute [irreducible] println debugSetPixel earlyAlloc heapAlloc palloc vmap valloc earlyHeapInit
  physInit vcacheInit mapperInit mapHeader removeIdentity heapInit memInit interruptsInit initrdInit
  consoleInit cfgtbInit acpiEntry acpiWork acpiInit numcores gdtInit igniteTables ignite startMemory
  startTables start register procInstance pitCalibSleep mapLapic apicInit interruptsLoad
  syscallEnable lateIgnition wakeupEntry wakeup coreCode

end HeliumOS.Proc.Boot
