import HeliumOS.Lib.AllocProg
import HeliumOS.Mem.Virt.Vm

/-!
# The Kernel Mapper

`mem/virt/mapper.rs` and `alloc_substruct` of `mem/virt/mod.rs`.  The functions call `palloc`, so
they are programs over the pool of frames; virtual memory is passed through them explicitly.

A `&mut PageTableEntry` is the page of its table and an index, so that it is resolved again at
every access.  Flushing the translation cache has no counterpart in the model.
-/

namespace HeliumOS.Mem.Virt

open HeliumOS.Lib HeliumOS.Lib.Radix

/-- A function that may call `palloc` and `pfree`, and may panic. -/
abbrev Kernel (α : Type) := AllocProg PhysFrame Panic α

/-- `KernelMapError`. -/
inductive KernelMapError where
  | nullSize | managed | noVCacheSpace
  deriving DecidableEq, Repr

/-- A mutable reference to an entry of the table at a page. -/
structure EntryRef where
  page : Page
  index : Fin 512

/-- Clear a frame through the identity mapping, as `alloc_substruct` does while it is in place. -/
def Vm.clearInplace (vm : Vm) (frame : PhysFrame) : Except Panic Vm :=
  if h : frame.num < 2 ^ 35 then vm.clear ⟨frame.num, PhysFrame.canonical_of_low h⟩
  else .error .virtAddrInvalid

/-- `alloc_substruct`. -/
def allocSubstruct (vm : Vm) (entry : EntryRef) (flags : PageTableFlags) (clearInplace : Bool) :
    Kernel (PhysFrame × Vm) := do
  match ← AllocProg.get with
  | none => .fail .outOfFrames
  | some frame => do
    let vm ← (if clearInplace then vm.clearInplace frame else .ok vm : Except Panic Vm)
    -- `PageTableEntry::new()`, and then `set_frame`
    let vm ← vm.write entry.page entry.index 0
    let word ← PageTableEntry.setFrame frame flags
    let vm ← vm.write entry.page entry.index word
    return (frame, vm)

/-- Clear the first 256 entries of a table. -/
def Vm.clearLower (vm : Vm) (table : PhysFrame) : Vm :=
  { vm with mem := fun f i => if f = table ∧ i.val < 256 then 0 else vm.mem f i }

/-- `remove_identity`: clear the lower half of the table behind `P4TABLE`. -/
def removeIdentity (vm : Vm) : Except Panic Vm := do
  let p4 ← vm.frameOf vm.p4table
  .ok (vm.clearLower p4)

/-- The flags of a new table above the leaves. -/
def tableFlags (page : Page) : PageTableFlags :=
  if page.num < kvmspace.num then .WRITABLE ||| .PRESENT ||| .USER_ACCESSIBLE
  else .WRITABLE ||| .PRESENT

/-- The first half of `ensure_allocated`: allocate a table when the entry is unused.  The result
says whether one was created. -/
def allocateIfUnused (vm : Vm) (entry : EntryRef) (page : Page) : Kernel (Bool × Vm) := do
  let word ← vm.read entry.page entry.index
  if word.isUnused then do
    let (_, vm) ← allocSubstruct vm entry (tableFlags page) false
    return (true, vm)
  else return (false, vm)

/-- `vcache.remap(page, frame).unwrap()`. -/
def Vm.remap (vm : Vm) (page : Page) (frame : PhysFrame) : Except Panic Vm := do
  let vc ← unwrap .remapFailed (← vm.vcache.remap page frame)
  .ok (vm.withVCache vc)

/-- `ensure_allocated`: the table behind `entry` is then accessible at `mapToPage`. -/
def ensureAllocated (vm : Vm) (entry : EntryRef) (page mapToPage : Page) : Kernel Vm := do
  let (created, vm) ← allocateIfUnused vm entry page
  let word ← vm.read entry.page entry.index
  let frame ← unwrap Panic.entryFrame word.frame
  let vm ← vm.remap mapToPage frame
  -- a new table is cleared only now, through its window
  if created then vm.clear mapToPage else return vm

/-- The flags of a leaf, by page number: pages of kernel space are global and not accessible to
the user, except for the very first one, and every mapping is present. -/
def leafFlags (num : ℕ) (flags : PageTableFlags) : PageTableFlags :=
  (if kvmspace.num < num then (flags ||| .GLOBAL).remove .USER_ACCESSIBLE else flags) ||| .PRESENT

/-- The body of the loop of `map`.  The flags are an accumulator of the loop. -/
def mapPage (vm : Vm) (page : Page) (frame : PhysFrame) (flags : PageTableFlags)
    (tmp0 tmp1 : Page) : Kernel (PageTableFlags × Vm) := do
  let vm ← ensureAllocated vm ⟨vm.p4table, page.p4Index⟩ page tmp0
  let vm ← ensureAllocated vm ⟨tmp0, page.p3Index⟩ page tmp1
  let vm ← ensureAllocated vm ⟨tmp1, page.p2Index⟩ page tmp0
  -- `flags` is assigned to, so that the next iteration sees the change
  let flags := leafFlags page.num flags
  let word ← PageTableEntry.setFrame frame flags
  let vm ← vm.write tmp0 page.p1Index word
  return (flags, vm)

/-- The loop of `map`, from iteration `i` on with `n` iterations to go. -/
def mapPages (page : Page) (phys : PhysFrame) (tmp0 tmp1 : Page) :
    ℕ → ℕ → PageTableFlags → Vm → Kernel Vm
  | 0, _, _, vm => return vm
  | n + 1, i, flags, vm => do
    let pageI ← page.add i
    let frameI ← phys.add i
    let (flags, vm) ← mapPage vm pageI frameI flags tmp0 tmp1
    mapPages page phys tmp0 tmp1 n (i + 1) flags vm

/-- The frame at physical address zero, which the temporary windows show at first. -/
def nullFrame : PhysFrame := ⟨0, by decide⟩

/-- `KernelMapper::map`. -/
def KernelMapper.map (vm : Vm) (page : Page) (phys : PhysFrame) (size : ℕ)
    (flags : PageTableFlags) : Kernel (Except KernelMapError Unit × Vm) := do
  if size = 0 then return (.error .nullSize, vm)
  else if InArea page then return (.error .managed, vm)
  else do
    let size ← checkedAlignUp 64 Panic.alignOverflow size pageSize
    match ← vm.vcache.mapMany [nullFrame, nullFrame] [] with
    | (some [tmp0, tmp1], vc) => do
      let vm ← mapPages page phys tmp0 tmp1 (size / pageSize) 0 flags (vm.withVCache vc)
      let vc ← vm.vcache.unmapMany [tmp0, tmp1]
      return (.ok (), vm.withVCache vc)
    -- two frames give two pages, so that nothing but an error is left
    | (_, vc) => return (.error .noVCacheSpace, vm.withVCache vc)

end HeliumOS.Mem.Virt
