import HeliumOS.Elf
import HeliumOS.Mem.Data

/-!
# Memory Maps and the Program Loader

`MemoryMap`, `MemoryMapping` and the part of `Task::exec` in `proc/task.rs` that fills a memory map
from an ELF file.

- `MemoryMap.allocate` takes one frame for each page.  When it fails it gives back the frames that
  it has taken, and leaves the mappings that own them in the map.
- `load` goes through the program headers and adds the stack.  Its early returns hand back the map
  as it stands, for the caller to drop.
- Every core writes the contents of new pages through a window of its own (`tmpLocalReserve`).
-/

namespace HeliumOS.Proc

open HeliumOS.Lib HeliumOS.Mem HeliumOS.Mem.Virt HeliumOS.Elf

/-! ## Memory maps -/

/-- `MemoryMapping`. -/
structure MemoryMapping where
  vadr : Page
  padr : PhysFrame
  n : ℕ
  flags : PageTableFlags
  allocated : Bool
  deriving DecidableEq

/-- `MemoryMap`. -/
structure MemoryMap where
  id : ℕ
  mappings : List MemoryMapping
  deriving DecidableEq

/-- `MemoryMapping::drop`. -/
def MemoryMapping.drop (m : MemoryMapping) : Kernel Unit :=
  if m.allocated then AllocProg.put m.padr else pure ()

/-- The drops of a list of mappings, in the order of the list. -/
def dropMappings : List MemoryMapping → Kernel Unit
  | [] => return ()
  | m :: ms => do
    m.drop
    dropMappings ms

/-- `MemoryMapping::apply(..).unwrap()` for a list of mappings. -/
def applyMappings : List MemoryMapping → Vm → Kernel Vm
  | [], vm => return vm
  | m :: ms, vm => do
    let size ← checkedMul 64 Panic.sizeOverflow m.n pageSize
    let vm ← vmapExpect .applyFailed vm m.vadr m.padr size m.flags
    applyMappings ms vm

namespace MemoryMap

/-- `MemoryMap::new`.  `ID_COUNT` is a `const`, so that every use of it is a counter of its own and
the identifier is always the first one. -/
def new : MemoryMap := ⟨0, []⟩

/-- `MemoryMap::add_raw`. -/
def addRaw (map : MemoryMap) (vadr : Page) (padr : PhysFrame) (n : ℕ) (flags : PageTableFlags)
    (allocated : Bool) : MemoryMap :=
  { map with mappings := map.mappings ++ [⟨vadr, padr, n, flags, allocated⟩] }

/-- The loop of `MemoryMap::allocate`, from page `i` on with `n` pages to go.  `frames` are the
frames taken so far. -/
def allocateFrom (vadr : Page) (flags : PageTableFlags) :
    ℕ → ℕ → List PhysFrame → MemoryMap → Kernel (Option (List PhysFrame) × MemoryMap)
  | 0, _, frames, map => return (some frames, map)
  | n + 1, i, frames, map => do
    match ← AllocProg.get with
    | none => do
      pfreeAll frames
      return (none, map)
    | some frame => do
      let page ← vadr.add i
      allocateFrom vadr flags n (i + 1) (frames ++ [frame]) (map.addRaw page frame 1 flags true)

/-- `MemoryMap::allocate`. -/
def allocate (map : MemoryMap) (vadr : Page) (n : ℕ) (flags : PageTableFlags) :
    Kernel (Option (List PhysFrame) × MemoryMap) :=
  allocateFrom vadr flags n 0 [] map

/-- The frames of the mappings. -/
def frames (map : MemoryMap) : List PhysFrame := map.mappings.map MemoryMapping.padr

/-- The mapping that counts for a page: the last one that was recorded. -/
def last (map : MemoryMap) (page : Page) : Option MemoryMapping :=
  map.mappings.reverse.find? fun m => m.vadr = page

theorem last_mem {map : MemoryMap} {q : Page} {m : MemoryMapping}
    (h : map.last q = some m) : m ∈ map.mappings ∧ m.vadr = q :=
  ⟨List.mem_reverse.mp (List.mem_of_find?_eq_some h), by simpa using List.find?_some h⟩

theorem last_eq_some {map : MemoryMap} {m : MemoryMapping} (hm : m ∈ map.mappings) :
    ∃ m', map.last m.vadr = some m' := by
  rw [← Option.isSome_iff_exists, last, List.find?_isSome]
  exact ⟨m, List.mem_reverse.mpr hm, by simp⟩

end MemoryMap

/-! ## Constants of the loader -/

/-- `USERSPACE_TOP`. -/
def USERSPACE_TOP : ℕ := 0x7fffffffffff

/-- `USERSTACK_SIZE`. -/
def USERSTACK_SIZE : ℕ := 512 * 1024

/-- `USERSTACK_BOTTOM`. -/
def USERSTACK_BOTTOM : ℕ := USERSPACE_TOP + 1 - 1024 * 1024

/-- The page of `USERSTACK_TOP`. -/
def USERSTACK_TOP : Page := ⟨(USERSTACK_BOTTOM - USERSTACK_SIZE) / pageSize, by decide⟩

/-- The page of `TMP_TASKLDMAP`, 9 TiB into the kernel half. -/
def TMP_TASKLDMAP : Page := ⟨kvmspace.num + 9 * 1024 * 1024 * 1024 * 1024 / pageSize, by decide⟩

/-- `TMP_TASK_SIZE_PER_PROC`. -/
def TMP_TASK_SIZE_PER_PROC : ℕ := 32 * 1024 * 1024 * 1024

/-- `ExecResult`. -/
inductive ExecResult where
  | success (id : ℕ)
  | fileError
  | parseError
  | insecureLoad (vadr memSize : ℕ)
  | allocationError
  | largeAlignment (align : ℕ)
  | largeSize (size : ℕ)
  | binaryEnd (offset size : ℕ)
  deriving DecidableEq, Repr

/-! ## The loader -/

/-- The first page of the window of a core. -/
def tmpStartPage (core : ℕ) : Except Panic Page := do
  let off ← checkedMul 64 Panic.windowOverflow core TMP_TASK_SIZE_PER_PROC
  TMP_TASKLDMAP.add (off / pageSize)

/-- `tmp_local_reserve`: map the frames into the window of the core.  The result is the address
`offset` bytes into the window. -/
def tmpLocalReserve (core offset : ℕ) (frames : List PhysFrame) (vm : Vm) : Kernel (ℕ × Vm) := do
  let startPage ← tmpStartPage core
  let vm ← vmapMany vm startPage frames .WRITABLE
  let ptr ← checkedAdd 64 Panic.windowOverflow startPage.startAddress offset
  return (ptr, vm)

/-- The outcome of a part of `exec`: `error e` is an early return of `e`. -/
abbrev Loaded := Except ExecResult Unit × MemoryMap × Vm

/-- The second half of the treatment of a `Load` header: frames for its pages, and their
contents. -/
def loadContent (core : ℕ) (entry : ProgramHeader) (content : List (BitVec 8)) (map : MemoryMap)
    (vm : Vm) : Kernel Loaded := do
  let flags := entry.memoryFlags ||| .USER_ACCESSIBLE
  let pageStart := Page.containing (newTruncate entry.vadr)
  let stop ← checkedAdd 64 Panic.loadOverflow entry.memSize entry.vadr
  let bytes ← checkedSub Panic.loadOverflow stop pageStart.startAddress
  let size ← checkedAlignUp 64 Panic.alignOverflow bytes pageSize
  match ← map.allocate pageStart (size / pageSize) flags with
  | (none, map) => return (.error .allocationError, map, vm)
  | (some frames, map) => do
    let offset ← checkedSub Panic.loadOverflow entry.vadr pageStart.startAddress
    let (ptr, vm) ← tmpLocalReserve core offset frames vm
    let vm ← storeBytes (List.replicate entry.memSize 0) ptr vm
    if entry.memSize < content.length then .fail .copyRange
    else do
      let vm ← storeBytes content ptr vm
      return (.ok (), map, vm)

/-- The treatment of a `Load` header. -/
def loadSegment (core : ℕ) (elf : ElfFile) (entry : ProgramHeader) (map : MemoryMap) (vm : Vm) :
    Kernel Loaded := do
  if pageSize < entry.align then return (.error (.largeAlignment entry.align), map, vm)
  else do
    let stop ← checkedAdd 64 Panic.loadOverflow entry.vadr entry.memSize
    if USERSPACE_TOP ≤ stop then return (.error (.insecureLoad entry.vadr entry.memSize), map, vm)
    else if TMP_TASK_SIZE_PER_PROC < entry.memSize then
      return (.error (.largeSize entry.memSize), map, vm)
    else do
      match ← elf.slice entry.offset entry.fileSize with
      | none => return (.error (.binaryEnd entry.offset entry.fileSize), map, vm)
      | some content => loadContent core entry content map vm

/-- The loop over the program headers, from `index` on with `n` headers to go. -/
def loadFrom (core : ℕ) (elf : ElfFile) : ℕ → ℕ → MemoryMap → Vm → Kernel Loaded
  | 0, _, map, vm => return (.ok (), map, vm)
  | n + 1, index, map, vm => do
    let entry ← elf.progHeader index
    if entry.isLoad then do
      match ← loadSegment core elf entry map vm with
      | (.error e, map, vm) => return (.error e, map, vm)
      | (.ok (), map, vm) => loadFrom core elf n (index + 1) map vm
    else loadFrom core elf n (index + 1) map vm

/-- The stack. -/
def loadStack (core : ℕ) (map : MemoryMap) (vm : Vm) : Kernel Loaded := do
  match ← map.allocate USERSTACK_TOP (USERSTACK_SIZE / pageSize)
    (.USER_ACCESSIBLE ||| .WRITABLE) with
  | (none, map) => return (.error .allocationError, map, vm)
  | (some frames, map) => do
    let (ptr, vm) ← tmpLocalReserve core 0 frames vm
    let vm ← storeBytes (List.replicate USERSTACK_SIZE 0) ptr vm
    return (.ok (), map, vm)

/-- `Task::exec` up to the creation of the task. -/
def load (core : ℕ) (elf : ElfFile) (vm : Vm) : Kernel Loaded := do
  match ← loadFrom core elf elf.header.phtLen 0 .new vm with
  | (.error e, map, vm) => return (.error e, map, vm)
  | (.ok (), map, vm) => loadStack core map vm

end HeliumOS.Proc
