import HeliumOS.Lib.Lookaside
import HeliumOS.Mem.Virt.Mapper

/-!
# The Mapper on Several Cores with Translation Caches

`mem/virt/mapper.rs` once more, with the flushes that `Mapper` leaves out.  All cores share the page
tables, and each has a translation cache of its own.  A core looks a page up in its cache first;
`invlpg` and a reload of `CR3` act on the cache of the core that executes them.

Between any two accesses the caches may change by themselves.  `Hardware` is an arbitrary such
behaviour.  Only translations are cached: entries above the leaves are looked up anew.
-/

namespace HeliumOS.Mem.Virt

open HeliumOS.Lib HeliumOS.Lib.Radix

/-- The page tables and the translation caches of the cores.  `time` counts the accesses, so that
the hardware may do something else at each of them. -/
structure Smp (ι : Type) where
  vm : Vm
  tlb : ι → Lookaside Page Translation
  time : ℕ

/-- What the caches do between two accesses. -/
structure Hardware (ι : Type) where
  drift : ℕ → Vm → (ι → Lookaside Page Translation) → ι → Lookaside Page Translation
  lawful : ∀ n vm tlb i, Lookaside.Drift vm.translate (tlb i) (drift n vm tlb i)

/-- `RLCR3_THRESHOLD`. -/
def rlcr3Threshold : ℕ := 32

namespace Smp

variable {ι : Type}

/-- The same caches over other tables. -/
def withVm (st : Smp ι) (vm : Vm) : Smp ι := { st with vm }

section Access

variable (hw : Hardware ι)

/-- Let the caches drift. -/
def settle (st : Smp ι) : Smp ι :=
  { st with tlb := hw.drift st.time st.vm st.tlb, time := st.time + 1 }

/-- The frame that core `me` finds behind a page. -/
def frameOf (me : ι) (st : Smp ι) (page : Page) : Except Panic PhysFrame :=
  match (st.tlb me).lookup st.vm.translate page with
  | some t => .ok t.frame
  | none => .error .pageFault

/-- Core `me` reads entry `i` of the table at `page`. -/
def read (me : ι) (st : Smp ι) (page : Page) (i : Fin 512) :
    Except Panic (PageTableEntry × Smp ι) := do
  let st := st.settle hw
  let f ← st.frameOf me page
  .ok (st.vm.mem f i, st)

/-- Core `me` writes entry `i` of the table at `page`. -/
def write (me : ι) (st : Smp ι) (page : Page) (i : Fin 512) (w : PageTableEntry) :
    Except Panic (Smp ι) := do
  let st := st.settle hw
  let f ← st.frameOf me page
  .ok (st.withVm (st.vm.setEntry f i w))

/-- Core `me` clears the page. -/
def clear (me : ι) (st : Smp ι) (page : Page) : Except Panic (Smp ι) := do
  let st := st.settle hw
  let f ← st.frameOf me page
  .ok (st.withVm (st.vm.clearFrame f))

/-- The virtual cache is written back.  Its tables are addressed by their frames, as in `Vm`. -/
def withVCache (st : Smp ι) (vc : VCache) : Smp ι :=
  let st := st.settle hw
  st.withVm (st.vm.withVCache vc)

variable [DecidableEq ι]

/-- `MapperFlush::flush` on core `me`. -/
def invlpg (me : ι) (st : Smp ι) (page : Page) : Smp ι :=
  let st := st.settle hw
  { st with tlb := Function.update st.tlb me ((st.tlb me).flush page) }

/-- `MapperFlushAll::flush_all` on core `me`: global translations survive a reload of `CR3`. -/
def flushAll (me : ι) (st : Smp ι) : Smp ι :=
  let st := st.settle hw
  { st with
    tlb := Function.update st.tlb me ((st.tlb me).keepOnly fun t => t.flags.contains .GLOBAL) }

end Access

section Mapper

variable [DecidableEq ι] (hw : Hardware ι) (me : ι)

/-- `VCache::map` on core `me`: the new window is flushed. -/
def mapWindow (st : Smp ι) (frame : PhysFrame) : Except Panic (Option Page × Smp ι) := do
  match ← st.vm.vcache.map frame with
  | (some page, vc) => .ok (some page, (st.withVCache hw vc).invlpg hw me page)
  | (none, vc) => .ok (none, st.withVCache hw vc)

/-- `VCache::unmap_many`. -/
def unmapMany (st : Smp ι) (pages : List Page) : Except Panic (Smp ι) := do
  let vc ← st.vm.vcache.unmapMany pages
  .ok (st.withVCache hw vc)

/-- `VCache::map_many`. -/
def mapMany (st : Smp ι) : List PhysFrame → List Page → Except Panic (Option (List Page) × Smp ι)
  | [], result => .ok (some result, st)
  | frame :: frames, result => do
    match ← st.mapWindow hw me frame with
    | (some page, st) => mapMany st frames (result ++ [page])
    | (none, st) => do
      let st ← st.unmapMany hw result
      .ok (none, st)

/-- `vcache.remap(page, frame).unwrap()`. -/
def remap (st : Smp ι) (page : Page) (frame : PhysFrame) : Except Panic (Smp ι) :=
  if ¬ InArea page then .error .remapFailed
  else do
    let p2i ← p2Group page
    let vc := st.vm.vcache
    let entry := vc.p1 p2i page.p1Index
    -- a window that shows the frame already is not flushed
    if !entry.isUnused && entry.frame == some frame then .ok (st.settle hw)
    else
      let vc := { vc with p1 := vc.p1.set p2i page.p1Index (windowEntry frame) }
      .ok ((st.withVCache hw vc).invlpg hw me page)

/-- Clear a frame through the identity mapping. -/
def clearInplace (st : Smp ι) (frame : PhysFrame) : Except Panic (Smp ι) :=
  if h : frame.num < 2 ^ 35 then st.clear hw me ⟨frame.num, PhysFrame.canonical_of_low h⟩
  else .error .virtAddrInvalid

/-- `alloc_substruct`. -/
def allocSubstruct (st : Smp ι) (entry : EntryRef) (flags : PageTableFlags) (inplace : Bool) :
    Kernel (PhysFrame × Smp ι) := do
  match ← AllocProg.get with
  | none => .fail .outOfFrames
  | some frame => do
    let st ← (if inplace then st.clearInplace hw me frame else .ok st : Except Panic (Smp ι))
    let st ← st.write hw me entry.page entry.index 0
    let word ← PageTableEntry.setFrame frame flags
    let st ← st.write hw me entry.page entry.index word
    return (frame, st)

/-- The first half of `ensure_allocated`. -/
def allocateIfUnused (st : Smp ι) (entry : EntryRef) (page : Page) : Kernel (Bool × Smp ι) := do
  let (word, st) ← st.read hw me entry.page entry.index
  if word.isUnused then do
    let (_, st) ← st.allocSubstruct hw me entry (tableFlags page) false
    return (true, st)
  else return (false, st)

/-- `ensure_allocated`. -/
def ensureAllocated (st : Smp ι) (entry : EntryRef) (page mapToPage : Page) : Kernel (Smp ι) := do
  let (created, st) ← st.allocateIfUnused hw me entry page
  let (word, st) ← st.read hw me entry.page entry.index
  let frame ← unwrap Panic.entryFrame word.frame
  let st ← st.remap hw me mapToPage frame
  -- a new table is cleared only now, and has been visible with the old contents of its frame
  if created then st.clear hw me mapToPage else return st

/-- The body of the loop of `map`. -/
def mapPage (detailFlush : Bool) (st : Smp ι) (page : Page) (frame : PhysFrame)
    (flags : PageTableFlags) (tmp0 tmp1 : Page) : Kernel (PageTableFlags × Smp ι) := do
  let st ← st.ensureAllocated hw me ⟨st.vm.p4table, page.p4Index⟩ page tmp0
  let st ← st.ensureAllocated hw me ⟨tmp0, page.p3Index⟩ page tmp1
  let st ← st.ensureAllocated hw me ⟨tmp1, page.p2Index⟩ page tmp0
  let flags := leafFlags page.num flags
  let word ← PageTableEntry.setFrame frame flags
  let st ← st.write hw me tmp0 page.p1Index word
  return (flags, if detailFlush then st.invlpg hw me page else st)

/-- The loop of `map`, from iteration `i` on with `n` iterations to go. -/
def mapPages (detailFlush : Bool) (page : Page) (phys : PhysFrame) (tmp0 tmp1 : Page) :
    ℕ → ℕ → PageTableFlags → Smp ι → Kernel (Smp ι)
  | 0, _, _, st => return st
  | n + 1, i, flags, st => do
    let pageI ← page.add i
    let frameI ← phys.add i
    let (flags, st) ← st.mapPage hw me detailFlush pageI frameI flags tmp0 tmp1
    mapPages detailFlush page phys tmp0 tmp1 n (i + 1) flags st

/-- `detail_flush`: whether the pages are flushed one by one. -/
def detailFlush (page : Page) (pages : ℕ) (flags : PageTableFlags) : Bool :=
  flags.contains .GLOBAL || decide (kvmspace.num ≤ page.num) || decide (pages < rlcr3Threshold)

/-- `KernelMapper::map`, called on core `me`. -/
def map (st : Smp ι) (page : Page) (phys : PhysFrame) (size : ℕ) (flags : PageTableFlags) :
    Kernel (Except KernelMapError Unit × Smp ι) := do
  if size = 0 then return (.error .nullSize, st)
  else if InArea page then return (.error .managed, st)
  else do
    let size ← checkedAlignUp 64 Panic.alignOverflow size pageSize
    let detail := detailFlush page (size / pageSize) flags
    match ← st.mapMany hw me [nullFrame, nullFrame] [] with
    | (some [tmp0, tmp1], st) => do
      let st ← mapPages hw me detail page phys tmp0 tmp1 (size / pageSize) 0 flags st
      let st ← st.unmapMany hw [tmp0, tmp1]
      return (.ok (), if detail then st else st.flushAll hw me)
    | (_, st) => return (.error .noVCacheSpace, st)

end Mapper

end Smp

end HeliumOS.Mem.Virt
