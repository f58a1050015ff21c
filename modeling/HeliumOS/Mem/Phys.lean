import HeliumOS.Lib.AllocProg
import HeliumOS.Lib.Bitmap
import HeliumOS.Mem.Address

/-!
# The Physical Memory Manager

The boot memory map (`bootboot.rs`) and the bitmap allocator built from it (`mem/phys.rs`).

- `init` turns the memory map into segments, reserves room for the PMM header at the start of
  the first segment that can hold it, and writes one bitmap for each segment.
- `PhysicalFrameAllocator.allocateFrame` and `deallocateFrame` are `palloc` and `pfree`.

A `Segment` is a segment header together with the bitmap stored behind it.
-/

namespace HeliumOS.Mem

open HeliumOS.Lib

/-! ## The boot memory map -/

/-- `MMapType`. -/
inductive MMapType where
  | used | free | acpi | memoryMappedIo
  deriving DecidableEq, Repr

/-- `MMapEnt`: the low four bits of `size` are the type of the region. -/
structure MMapEnt where
  ptr : ℕ
  size : ℕ
  deriving DecidableEq, Repr

namespace MMapEnt

/-- `MMapEnt::get_type`: the four low bits of the size. Any other value makes it panic. -/
def getType (e : MMapEnt) : Except Panic MMapType :=
  match e.size % 16 with
  | 0 => .ok .used
  | 1 => .ok .free
  | 2 => .ok .acpi
  | 3 => .ok .memoryMappedIo
  | _ => .error .unknownMMapType

/-- `MMapEnt::phyadr`: the start, rounded up to a page. -/
def phyadr (e : MMapEnt) : Except Panic ℕ := do
  physAddr (← checkedAlignUp 64 .alignOverflow e.ptr pageSize)

/-- `MMapEnt::raw_size`: the size without the bits of the type. -/
def rawSize (e : MMapEnt) : ℕ := e.size / 16 * 16

/-- `MMapEnt::size`: the whole pages of the raw size. The start may be rounded up without the size
getting smaller. -/
def pagedSize (e : MMapEnt) : ℕ := alignDown e.rawSize pageSize

end MMapEnt

/-- The part of the `BOOTBOOT` structure that `phys::init` reads: its total size in bytes, and
the entries found from the field `mmap` on. -/
structure BootBoot where
  size : ℕ
  mmap : ℕ → MMapEnt

/-- `mem::size_of::<BootBoot>()`.  The structure is packed: 24 bytes up to the date, 16 for the
initial ramdisk, 24 for the framebuffer, 64 for `ArchInfo`, and 16 for the first entry of the memory
map. -/
def bootBootSize : ℕ := 144

/-- `mem::size_of::<MMapEnt>()`. -/
def mmapEntSize : ℕ := 16

/-- Number of entries of the memory map. -/
def BootBoot.mmapLen (bb : BootBoot) : ℕ := (bb.size - bootBootSize) / mmapEntSize + 1

/-- The memory map, in the order of the table. -/
def BootBoot.entries (bb : BootBoot) : List MMapEnt := (List.range bb.mmapLen).map bb.mmap

/-! ## Segments -/

/-- `SegmentHeader`. -/
structure SegmentHeader where
  magic : ℕ
  address : ℕ
  size : ℕ
  deriving DecidableEq, Repr

namespace SegmentHeader

/-- `SegmentHeader::MAGIC`. -/
def MAGIC : ℕ := 0xA55AA55AA55AA55A

/-- `SegmentHeader::new`. -/
def new (address size : ℕ) : SegmentHeader := ⟨MAGIC, address, size⟩

/-- `core::mem::size_of::<SegmentHeader>()`. -/
def byteSize : ℕ := 24

/-- Bytes of the bitmap behind the header. -/
def bitmapSize (s : SegmentHeader) : ℕ := alignUp (s.size / pageSize) 64 / 8

/-- `SegmentHeader::bitmap_u64len`. -/
def bitmapU64len (s : SegmentHeader) : ℕ := s.bitmapSize / 8

/-- The bytes that a header and its bitmap take. -/
def extent (s : SegmentHeader) : ℕ := s.bitmapSize + byteSize

/-- The sum is evaluated only when the first comparison holds. -/
def inRange (s : SegmentHeader) (addr : ℕ) : Except Panic Bool :=
  if s.address ≤ addr then do
    let stop ← physAddr (s.address + s.size)
    .ok (decide (addr < stop))
  else .ok false

end SegmentHeader

/-- A segment header with its bitmap. -/
structure Segment extends SegmentHeader where
  bitmap : List (BitVec 64)
  deriving DecidableEq, Repr

/-- `PhysicalFrameAllocator`. -/
structure PhysicalFrameAllocator where
  segments : List Segment
  size : ℕ
  phyframe : PhysFrame
  deriving DecidableEq

/-! ## Initialisation -/

/-- The `println!` of the first loop, made on a virtual machine only: it evaluates the address
of the entry. -/
def printEntry (isvm : Bool) (e : MMapEnt) : Except Panic Unit :=
  if isvm then do
    let _ ← e.phyadr
    .ok ()
  else .ok ()

/-- The first loop of `init`: collect the free regions of at least one page and add up the room
that their headers take. -/
def collect (isvm : Bool) : List MMapEnt → ℕ → Except Panic (List SegmentHeader × ℕ)
  | [], total => .ok ([], total)
  | e :: es, total => do
    let type ← e.getType
    printEntry isvm e
    if type = .free ∧ pageSize ≤ e.rawSize then
      let adr ← e.phyadr
      let header := SegmentHeader.new adr e.pagedSize
      let total ← checkedAdd 64 .headerSizeOverflow total header.extent
      let (headers, total) ← collect isvm es total
      .ok (header :: headers, total)
    else
      collect isvm es total

/-- The second loop of `init`: take `need` bytes from the start of the first segment that has
them.  The result is the address of the reserved area and the segments that remain. -/
def carve (need : ℕ) : List SegmentHeader → Except Panic (Option (ℕ × List SegmentHeader))
  | [] => .ok none
  | s :: rest =>
    if need ≤ s.size then do
      -- the area is taken from the front of the segment
      let adr ← physAddr (s.address + need)
      .ok (some (s.address, { s with address := adr, size := s.size - need } :: rest))
    else do
      let found ← carve need rest
      .ok (found.map fun (header, rest) => (header, s :: rest))

/-- The bitmap that `init` writes behind a header: all clear, but for the last word. -/
def initBitmap (s : SegmentHeader) : Except Panic (List (BitVec 64)) :=
  let len := s.bitmapU64len
  if len = 0 then .error .emptyBitmap
  else
    -- `u64::MAX << (pages % 64)`: without a remainder the whole word is set
    .ok ((List.replicate len 0#64).set (len - 1)
      (BitVec.allOnes 64 <<< (s.size / pageSize % 64)))

/-- Where the lower half of the virtual addresses ends, and with it any identity mapping: what
follows is not canonical. -/
def identityEnd : ℕ := 2 ^ 47

/-- The third loop of `init`: write header and bitmap at `header + cursor`.  The address is used as
a pointer.  The boot loader is taken to have mapped the lower half to itself. -/
def writeHeaders (header : ℕ) : List SegmentHeader → ℕ → Except Panic (List Segment)
  | [], _ => .ok []
  | s :: rest, cursor => do
    let ptr ← physAddr (header + cursor)
    -- `segment_ptr.as_mut().unwrap()`
    ensure .headerNull (ptr ≠ 0)
    -- the store of the header, and `bitmap.fill(0)`
    ensure .headerUnreachable (ptr + s.extent ≤ identityEnd)
    let bitmap ← initBitmap s
    let segments ← writeHeaders header rest (cursor + s.extent)
    .ok ({ s with bitmap } :: segments)

/-- `phys::init`.  The regions are visited backwards. -/
def init (isvm : Bool) (bb : BootBoot) : Except Panic PhysicalFrameAllocator := do
  let _ ← checkedSub .bootbootSize bb.size bootBootSize
  let (usable, total) ← collect isvm bb.entries.reverse 0
  let need ← checkedAlignUp 64 .alignOverflow total pageSize
  let (header, usable) ← unwrap .noHeaderPlace (← carve need usable)
  let segments ← writeHeaders header usable 0
  .ok { segments, size := total, phyframe := ← frameContaining header }

/-! ## Allocation and release -/

/-- The loop of `allocate_frame` over the segments. -/
def allocateIn : List Segment → Except Panic (Option (PhysFrame × List Segment))
  | [] => .ok none
  | s :: rest => do
    ensure .segmentMagic (s.magic = SegmentHeader.MAGIC)
    match Bitmap.firstNotFull s.bitmap with
    | none =>
      let found ← allocateIn rest
      .ok (found.map fun (frame, rest) => (frame, s :: rest))
    | some windex =>
      let word := s.bitmap.getD windex 0
      let bitindex := Bitmap.trailingOnes word
      -- `word` is not full
      ensure .wordFull (bitindex ≠ 64)
      let bitmap := s.bitmap.set windex (Bitmap.setBit word bitindex)
      let frame ← frameContaining (s.address + (64 * windex + bitindex) * pageSize)
      .ok (some (frame, { s with bitmap } :: rest))

/-- `deallocate_frame` on the first segment whose range holds `addr`. -/
def deallocateIn (addr : ℕ) : List Segment → Except Panic (List Segment)
  | [] => .ok []
  | s :: rest => do
    if ← s.inRange addr then
      let index := (addr - s.address) / pageSize
      ensure .bitmapIndex (index / 64 < s.bitmap.length)
      let word := s.bitmap.getD (index / 64) 0
      .ok ({ s with bitmap := s.bitmap.set (index / 64) (Bitmap.clearBit word (index % 64)) }
        :: rest)
    else
      let rest ← deallocateIn addr rest
      .ok (s :: rest)

namespace PhysicalFrameAllocator

/-- `allocate_frame`. -/
def allocateFrame (a : PhysicalFrameAllocator) :
    Except Panic (Option PhysFrame × PhysicalFrameAllocator) := do
  match ← allocateIn a.segments with
  | none => .ok (none, a)
  | some (frame, segments) => .ok (some frame, { a with segments })

/-- `deallocate_frame`. -/
def deallocateFrame (a : PhysicalFrameAllocator) (frame : PhysFrame) :
    Except Panic PhysicalFrameAllocator := do
  let segments ← deallocateIn frame.startAddress a.segments
  .ok { a with segments }

/-- `palloc` and `pfree` as the two operations of a pool of frames. -/
def pool : Pool PhysicalFrameAllocator PhysFrame Panic where
  acquire := allocateFrame
  release := deallocateFrame

end PhysicalFrameAllocator

end HeliumOS.Mem
