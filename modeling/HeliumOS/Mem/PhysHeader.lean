import HeliumOS.Lib.ByteMemory
import HeliumOS.Mem.Data
import HeliumOS.Mem.PhysFresh

/-!
# The Header of the Physical Memory Manager in Memory

The allocator of `mem/phys.rs` over a memory of bytes.  Headers and bitmaps lie one behind the other
in the area that `init` has reserved; a reference to a header is its address, and the length of a
bitmap is computed from the header in memory at every access.

- `SegmentAt` and `Stored` relate the bytes to a list of segments.
- `writeHeaders_sim`, `allocateIn_sim` and `deallocateIn_sim`: each function ends as its counterpart
  on lists of segments does, and the bytes follow.
- `mapHeader_shifts`: behind `map_header` the references denote the same bytes.
- `header_faithful` puts these together, for all sequences of calls before and after `map_header`.
-/

namespace HeliumOS.Mem

open HeliumOS.Lib HeliumOS.Lib.AllocProg HeliumOS.Mem.Virt

/-! ## Headers in memory -/

namespace SegmentHeader

/-- The bytes of a header. -/
def bytes (s : SegmentHeader) : List (BitVec 8) :=
  wordBytes (BitVec.ofNat 64 s.magic) ++ (wordBytes (BitVec.ofNat 64 s.address) ++
    (wordBytes (BitVec.ofNat 64 s.size) ++ []))

/-- The header at an address. -/
def read (m : ByteMemory) (p : ℕ) : SegmentHeader :=
  ⟨(m.load 64 p).toNat, (m.load 64 (p + 8)).toNat, (m.load 64 (p + 16)).toNat⟩

/-- `SegmentHeader::bitmap`, for the header at an address. -/
def bitmap (m : ByteMemory) (p : ℕ) : List (BitVec 64) :=
  m.words 64 (p + byteSize) (read m p).bitmapU64len

/-- All fields fit into a word. -/
structure Fits (s : SegmentHeader) : Prop where
  magic : s.magic < 2 ^ 64
  address : s.address < 2 ^ 64
  size : s.size < 2 ^ 64

/-- A header that has been written is read back. Each field is a word of its own, so the three loads
take the bytes apart in the order in which they were put together. -/
theorem read_write {s : SegmentHeader} (hs : s.Fits) (m : ByteMemory) (p : ℕ) :
    read (m.write p s.bytes) p = s := by
  have hbytes : (m.write p s.bytes).slice p s.bytes.length = s.bytes := ByteMemory.slice_write_self
  obtain ⟨hmagic, hrest⟩ := ByteMemory.load_of_append (by decide) hbytes
  obtain ⟨haddress, hrest⟩ := ByteMemory.load_of_append (by decide) hrest
  obtain ⟨hsize, -⟩ := ByteMemory.load_of_append (by decide) hrest
  rw [read, hmagic, haddress, hsize]
  simp only [BitVec.toNat_ofNat, Nat.mod_eq_of_lt hs.magic, Nat.mod_eq_of_lt hs.address,
    Nat.mod_eq_of_lt hs.size]

theorem read_congr {m m' : ByteMemory} {p q : ℕ} (h : ∀ i < byteSize, m' (q + i) = m (p + i)) :
    read m' q = read m p := by
  have hword {k : ℕ} (hk : k + 8 ≤ byteSize) : m'.load 64 (q + k) = m.load 64 (p + k) := by
    refine ByteMemory.load_congr fun i hi => ?_
    rw [Nat.add_assoc, Nat.add_assoc]
    exact h (k + i) (by omega)
  have hfirst : m'.load 64 q = m.load 64 p := hword (k := 0) (by decide)
  rw [read, read, hfirst, hword (by decide), hword (by decide)]

/-- A bitmap consists of whole words. -/
theorem bitmapSize_eq (s : SegmentHeader) : s.bitmapSize = 8 * s.bitmapU64len := by
  simp only [bitmapU64len, bitmapSize, alignUp]
  omega

end SegmentHeader

/-- The bytes at an address are those of a segment. -/
structure SegmentAt (m : ByteMemory) (p : ℕ) (s : Segment) : Prop where
  header : SegmentHeader.read m p = s.toSegmentHeader
  bitmap : SegmentHeader.bitmap m p = s.bitmap

/-- A segment is found wherever its bytes are found again: the header first, and with it the length
of the bitmap that has to be compared. -/
theorem SegmentAt.congr {m m' : ByteMemory} {p q : ℕ} {s : Segment} (h : SegmentAt m p s)
    (hsame : ∀ i < s.extent, m' (q + i) = m (p + i)) : SegmentAt m' q s := by
  have hheader : SegmentHeader.read m' q = SegmentHeader.read m p := by
    refine SegmentHeader.read_congr fun i hi => hsame i ?_
    exact Nat.lt_of_lt_of_le hi (Nat.le_add_left _ _)
  refine ⟨hheader.trans h.header, ?_⟩
  rw [SegmentHeader.bitmap, hheader, ← h.bitmap, SegmentHeader.bitmap]
  refine ByteMemory.words_congr fun i hi => ?_
  rw [Nat.add_assoc, Nat.add_assoc]
  refine hsame _ ?_
  rw [h.header] at hi
  rw [SegmentHeader.extent, SegmentHeader.bitmapSize_eq]
  omega

/-- The segments lie one behind the other between two addresses. -/
inductive Stored (m : ByteMemory) : ℕ → List ℕ → List Segment → ℕ → Prop where
  | nil {lo hi : ℕ} : lo ≤ hi → Stored m lo [] [] hi
  | cons {lo hi p : ℕ} {s : Segment} {ps : List ℕ} {ss : List Segment} : lo ≤ p → 8 ∣ p →
      SegmentAt m p s → Stored m (p + s.extent) ps ss hi → Stored m lo (p :: ps) (s :: ss) hi

namespace Stored

variable {m m' : ByteMemory} {lo hi : ℕ} {ps : List ℕ} {ss : List Segment}

theorem le (h : Stored m lo ps ss hi) : lo ≤ hi := by
  induction h with
  | nil hle => exact hle
  | cons hle _ _ _ ih => exact hle.trans ((Nat.le_add_right _ _).trans ih)

theorem mono (h : Stored m lo ps ss hi) {lo' hi' : ℕ} (hlo : lo' ≤ lo) (hhi : hi ≤ hi') :
    Stored m lo' ps ss hi' := by
  induction h generalizing lo' with
  | nil hle => exact .nil (hlo.trans (hle.trans hhi))
  | cons hle halign hseg _ ih => exact .cons (hlo.trans hle) halign hseg (ih le_rfl hhi)

/-- The same bytes, at a distance. -/
theorem shift (h : Stored m lo ps ss hi) {d : ℕ} (hd : 8 ∣ d)
    (hsame : ∀ x, lo ≤ x → x < hi → m' (x + d) = m x) :
    Stored m' (lo + d) (ps.map (· + d)) ss (hi + d) := by
  induction h with
  | nil hle => exact .nil (Nat.add_le_add_right hle d)
  | @cons lo hi p s ps ss hle halign hseg hrest ih =>
    have hend := hrest.le
    refine .cons (Nat.add_le_add_right hle d) (Nat.dvd_add halign hd) ?_ ?_
    · refine hseg.congr fun i hi => ?_
      rw [Nat.add_right_comm]
      exact hsame (p + i) (by omega) (by omega)
    · rw [Nat.add_right_comm]
      exact ih fun x hx hx' => hsame x (by omega) hx'

theorem congr (h : Stored m lo ps ss hi) (hsame : ∀ x, lo ≤ x → x < hi → m' x = m x) :
    Stored m' lo ps ss hi := by
  simpa using h.shift (Nat.dvd_zero 8) hsame

theorem forall₂ (h : Stored m lo ps ss hi) : List.Forall₂ (SegmentAt m) ps ss := by
  induction h with
  | nil => exact .nil
  | cons _ _ hseg _ ih => exact .cons hseg ih

end Stored

/-! ## The functions of the source -/

namespace Flat

/-- `PhysicalFrameAllocator`, with references as addresses. -/
structure Allocator where
  segments : List ℕ
  size : ℕ
  phyframe : PhysFrame
  deriving DecidableEq

/-- One turn of the third loop of `init`: write a header, clear the bitmap that it has in memory,
and set the last word. -/
def writeHeader (m : ByteMemory) (ptr : ℕ) (s : SegmentHeader) : Except Panic ByteMemory :=
  let m := m.write ptr s.bytes
  let len := (SegmentHeader.read m ptr).bitmapU64len
  let m := m.write (ptr + SegmentHeader.byteSize) (List.replicate (8 * len) 0)
  if len = 0 then .error .emptyBitmap
  else .ok (m.store (ptr + SegmentHeader.byteSize + 8 * (len - 1))
    (BitVec.allOnes 64 <<< (s.size / pageSize % 64)))

/-- The third loop of `init`.  The cursor is advanced by what the header in memory says. -/
def writeHeaders (header : ℕ) :
    List SegmentHeader → ℕ → ByteMemory → Except Panic (List ℕ × ByteMemory)
  | [], _, m => .ok ([], m)
  | s :: rest, cursor, m => do
    let ptr ← physAddr (header + cursor)
    ensure .headerNull (ptr ≠ 0)
    ensure .headerUnreachable (ptr + s.extent ≤ identityEnd)
    let m ← writeHeader m ptr s
    let cursor := cursor + (SegmentHeader.read m ptr).extent
    let written ← writeHeaders header rest cursor m
    .ok (ptr :: written.1, written.2)

/-- `phys::init`. -/
def init (isvm : Bool) (bb : BootBoot) (m : ByteMemory) :
    Except Panic (Allocator × ByteMemory) := do
  let _ ← checkedSub .bootbootSize bb.size bootBootSize
  let (usable, total) ← collect isvm bb.entries.reverse 0
  let need ← checkedAlignUp 64 .alignOverflow total pageSize
  let (header, usable) ← unwrap .noHeaderPlace (← carve need usable)
  let written ← writeHeaders header usable 0 m
  .ok (⟨written.1, total, ← frameContaining header⟩, written.2)

/-- The loop of `allocate_frame`. -/
def allocateIn : List ℕ → ByteMemory → Except Panic (Option PhysFrame × ByteMemory)
  | [], m => .ok (none, m)
  | ptr :: rest, m => do
    ensure .segmentMagic ((SegmentHeader.read m ptr).magic = SegmentHeader.MAGIC)
    match Bitmap.firstNotFull (SegmentHeader.bitmap m ptr) with
    | none => allocateIn rest m
    | some windex =>
      let control := ptr + SegmentHeader.byteSize + 8 * windex
      let bitindex := Bitmap.trailingOnes (m.load 64 control)
      ensure .wordFull (bitindex ≠ 64)
      let m := m.store control (Bitmap.setBit (m.load 64 control) bitindex)
      let frame ← frameContaining
        ((SegmentHeader.read m ptr).address + (64 * windex + bitindex) * pageSize)
      .ok (some frame, m)

/-- `deallocate_frame` from the segment at the head of the list on. -/
def deallocateIn (addr : ℕ) : List ℕ → ByteMemory → Except Panic ByteMemory
  | [], m => .ok m
  | ptr :: rest, m => do
    if ← (SegmentHeader.read m ptr).inRange addr then
      let index := (addr - (SegmentHeader.read m ptr).address) / pageSize
      ensure .bitmapIndex (index / 64 < (SegmentHeader.bitmap m ptr).length)
      let control := ptr + SegmentHeader.byteSize + 8 * (index / 64)
      .ok (m.store control (Bitmap.clearBit (m.load 64 control) (index % 64)))
    else deallocateIn addr rest m

def Allocator.allocateFrame (fa : Allocator) (m : ByteMemory) :
    Except Panic (Option PhysFrame × ByteMemory) :=
  allocateIn fa.segments m

def Allocator.deallocateFrame (fa : Allocator) (frame : PhysFrame) (m : ByteMemory) :
    Except Panic ByteMemory :=
  deallocateIn frame.startAddress fa.segments m

/-- `PHYSHEADER_START`. -/
def PHYSHEADER_START : Page := ⟨0xFFFF804000000, by decide⟩

/-- The references of `map_header`, moved by an offset. -/
def shiftSegments (segmentOffset : ℕ) : List ℕ → Except Panic (List ℕ)
  | [] => .ok []
  | ptr :: rest => do
    let offsetPtr ← checkedAdd 64 Panic.headerShift ptr segmentOffset
    let offsetRest ← shiftSegments segmentOffset rest
    .ok (offsetPtr :: offsetRest)

/-- `map_header`. -/
def mapHeader (vm : Vm) (fa : Allocator) : Kernel (Allocator × Vm) := do
  let vm ← vmapExpect .mapHeader vm PHYSHEADER_START fa.phyframe fa.size .WRITABLE
  let segmentOffset ← checkedSub Panic.headerShift PHYSHEADER_START.startAddress
    fa.phyframe.startAddress
  let segments ← shiftSegments segmentOffset fa.segments
  return ({ fa with segments := segments }, vm)

end Flat

/-! ## Initialisation -/

section WriteHeaders

variable {m : ByteMemory} {p : ℕ} {s : SegmentHeader}

/-- Header and fresh bitmap of one segment; nothing else is written. -/
theorem writeHeader_sim (hs : s.Fits) : SameOutcome
    (fun m' bitmap => SegmentAt m' p ⟨s, bitmap⟩ ∧ ∀ i, i < p ∨ p + s.extent ≤ i → m' i = m i)
    (Flat.writeHeader m p s) (initBitmap s) := by
  have hlength : s.bytes.length = SegmentHeader.byteSize := rfl
  have hsize := s.bitmapSize_eq
  simp only [Flat.writeHeader, initBitmap, SegmentHeader.read_write hs]
  split_ifs with hlen
  -- a bitmap without words: both sides panic at the last word
  · exact .error _
  set zeros : List (BitVec 8) := List.replicate (8 * s.bitmapU64len) 0 with hzeros
  have hcount : zeros.length = 8 * s.bitmapU64len := List.length_replicate
  -- the bitmap is behind the header
  have hread : SegmentHeader.read
      (((m.write p s.bytes).write (p + SegmentHeader.byteSize) zeros).store
        (p + SegmentHeader.byteSize + 8 * (s.bitmapU64len - 1))
        (BitVec.allOnes 64 <<< (s.size / pageSize % 64))) p = s := by
    refine (SegmentHeader.read_congr fun i hi => ?_).trans (SegmentHeader.read_write hs m p)
    rw [ByteMemory.store_of_apart (.inl (by omega)), ByteMemory.write_of_lt (by omega)]
  refine .ok ⟨⟨hread, ?_⟩, fun i hi => ?_⟩
  · rw [SegmentHeader.bitmap, hread]
    exact (ByteMemory.words_store (by decide) _).trans
      (congrArg (List.set · _ _) ByteMemory.words_write_zero)
  -- none of the three writes leaves the extent of the segment
  · rw [SegmentHeader.extent] at hi
    rcases hi with hi | hi
    · rw [ByteMemory.store_of_apart (.inl (by omega)), ByteMemory.write_of_lt (by omega),
        ByteMemory.write_of_lt hi]
    · rw [ByteMemory.store_of_apart (.inr (by omega)), ByteMemory.write_of_le (by omega),
        ByteMemory.write_of_le (by omega)]

/-- The third loop of `init` writes the segments one behind the other. Both versions return or panic
together; what is written is stored from the cursor on, and the bytes before it are left alone. -/
theorem writeHeaders_sim {header cursor : ℕ} {headers : List SegmentHeader}
    (hfits : ∀ s ∈ headers, s.Fits) (halign : 8 ∣ header + cursor) : SameOutcome
    (fun written segs =>
      Stored written.2 (header + cursor) written.1 segs (header + cursor + room headers) ∧
        ∀ i < header + cursor, written.2 i = m i)
    (Flat.writeHeaders header headers cursor m) (writeHeaders header headers cursor) := by
  -- induction on the headers still to be written; the cursor and the memory change with each
  induction headers generalizing cursor m with
  | nil => exact .ok ⟨.nil (Nat.le_add_right _ _), fun i _ => rfl⟩
  | cons s rest ih =>
    rw [List.forall_mem_cons] at hfits
    simp only [Flat.writeHeaders, writeHeaders]
    refine .bind_same fun ptr hptr => .bind_same fun _ _ => .bind_same fun _ _ => ?_
    obtain ⟨-, rfl⟩ := physAddr_eq_ok.mp hptr
    refine (writeHeader_sim hfits.1).bind fun m' bitmap hwritten => ?_
    obtain ⟨hseg, hframe⟩ := hwritten
    -- the cursor is where the next header starts
    have hcursor : header + (cursor + (SegmentHeader.read m' (header + cursor)).extent) =
        header + cursor + s.extent := by
      rw [hseg.header, Nat.add_assoc]
    have hdvd : 8 ∣ s.extent := by
      rw [SegmentHeader.extent, s.bitmapSize_eq]
      exact Nat.dvd_add (Nat.dvd_mul_right 8 _) (by decide)
    rw [hseg.header] at hcursor ⊢
    refine (ih hfits.2 (by rw [hcursor]; exact Nat.dvd_add halign hdvd)).bind
      fun written segs hrest => ?_
    rw [hcursor] at hrest
    obtain ⟨hstored, hbelow⟩ := hrest
    -- the later turns write behind this segment and leave it alone
    refine .ok ⟨.cons le_rfl halign (hseg.congr fun i hi => hbelow _ ?_) ?_, fun i hi => ?_⟩
    · exact Nat.add_lt_add_left hi _
    · rw [room, List.map_cons, List.sum_cons, ← Nat.add_assoc]
      exact hstored
    · exact (hbelow i (Nat.lt_add_right _ hi)).trans (hframe i (.inl hi))

end WriteHeaders

section Init

variable {isvm : Bool} {bb : BootBoot} {m : ByteMemory}

/-- The fields of the memory map are 64-bit words. -/
def BootBoot.Words (bb : BootBoot) : Prop := ∀ e ∈ bb.entries, e.ptr < 2 ^ 64 ∧ e.size < 2 ^ 64

theorem SegmentHeader.extent_dropFront_le (need : ℕ) (s : SegmentHeader) :
    (s.dropFront need).extent ≤ s.extent := by
  have hsize : (s.dropFront need).size ≤ s.size := Nat.sub_le _ _
  have hpages := Nat.div_le_div_right (c := pageSize) hsize
  simp only [SegmentHeader.extent, SegmentHeader.bitmapSize, alignUp]
  omega

theorem MMapEnt.fits_header {e : MMapEnt} (hsize : e.size < 2 ^ 64)
    (haddress : e.header.address < 2 ^ 52) : e.header.Fits := by
  refine ⟨show SegmentHeader.MAGIC < 2 ^ 64 by decide, by omega, ?_⟩
  have hle : e.header.size ≤ e.rawSize := Nat.div_mul_le_self _ _
  have hle' : e.rawSize ≤ e.size := Nat.div_mul_le_self _ _
  omega

/-- What the first two loops leave: headers that fit, and room for all of them in the area. -/
theorem carve_collect {need total header : ℕ} {usable usable' : List SegmentHeader}
    (hbb : bb.Words) (hcollect : collect isvm bb.entries.reverse 0 = .ok (usable, total))
    (hcarve : carve need usable = .ok (some (header, usable'))) :
    (∀ s ∈ usable', s.Fits) ∧ pageSize ∣ header ∧ room usable' ≤ total := by
  obtain ⟨rfl, haddress⟩ := collect_room hcollect
  have hfits : ∀ s ∈ usable, s.Fits ∧ pageSize ∣ s.address := by
    rw [collect_eq_ok hcollect] at haddress ⊢
    rw [List.forall_mem_map] at haddress ⊢
    intro e he
    have hmem : e ∈ bb.entries := List.mem_reverse.mp (List.mem_filter.mp he).1
    exact ⟨e.fits_header (hbb e hmem).2 (haddress e he), dvd_alignUp _ _⟩
  obtain ⟨pre, s, post, rfl, rfl, rfl, -, hadr, -⟩ := carve_cases hcarve
  simp only [List.forall_mem_append, List.forall_mem_cons] at hfits ⊢
  obtain ⟨hpre, ⟨hs, hdvd⟩, hpost⟩ := hfits
  refine ⟨⟨fun t ht => (hpre t ht).1, ⟨hs.magic, ?_, ?_⟩, fun t ht => (hpost t ht).1⟩, hdvd, ?_⟩
  · exact hadr.trans (by decide)
  · exact (Nat.sub_le _ _).trans_lt hs.size
  · have hle := s.extent_dropFront_le need
    simp only [room, List.map_append, List.map_cons, List.sum_append, List.sum_cons]
    omega

/-- `init` stores the segments that it returns in the model, inside the area it has reserved. -/
theorem init_sim (hbb : bb.Words) : SameOutcome
    (fun r a => r.1.size = a.size ∧ r.1.phyframe = a.phyframe ∧
      Stored r.2 a.phyframe.startAddress r.1.segments a.segments
        (a.phyframe.startAddress + a.size))
    (Flat.init isvm bb m) (init isvm bb) := by
  simp only [Flat.init, init]
  refine .bind_same fun _ _ => .bind_same fun collected hcollect => ?_
  obtain ⟨usable, total⟩ := collected
  refine .bind_same fun need hneed => .bind_same fun found hcarve =>
    .bind_same fun carved hfound => ?_
  obtain ⟨header, usable'⟩ := carved
  rw [unwrap_eq_ok.mp hfound] at hcarve
  obtain ⟨hfits, hpage, hroom⟩ := carve_collect hbb hcollect hcarve
  have halign : 8 ∣ header + 0 := (Nat.dvd_trans (by decide) hpage)
  refine (writeHeaders_sim hfits halign).bind fun written segs hwritten => ?_
  refine .bind_same fun phyframe hframe => ?_
  have hstart : phyframe.startAddress = header := by
    rw [PhysFrame.startAddress, (frameContaining_eq_ok.mp hframe).2, Nat.div_mul_cancel hpage]
  refine .ok ⟨rfl, rfl, ?_⟩
  rw [hstart]
  exact hwritten.1.mono le_rfl (Nat.add_le_add_left hroom header)

end Init

/-! ## Calls -/

/-- A call of the allocator, with its result. -/
inductive Call where
  | allocate (frame : Option PhysFrame)
  | deallocate (frame : PhysFrame)

/-- The segment is the one that the call is about: it has the frame. -/
def SegmentHeader.Concerns (s : SegmentHeader) : Call → Prop
  | .allocate frame => ∃ f k, frame = some f ∧ k < 64 * s.bitmapU64len ∧
      frameContaining (s.address + k * pageSize) = .ok f
  | .deallocate frame => s.inRange frame.startAddress = .ok true

/-- All that differs is in the bitmap of the segment at an address. -/
def BitmapOnly (m m' : ByteMemory) (p : ℕ) : Prop :=
  ∀ i, i < p + SegmentHeader.byteSize ∨ p + (SegmentHeader.read m p).extent ≤ i → m' i = m i

/-- What a call writes is in the bitmap of the segment that it concerns. -/
def Writes (ps : List ℕ) (c : Call) (m m' : ByteMemory) : Prop :=
  ∃ p ∈ ps, (SegmentHeader.read m p).Concerns c ∧ BitmapOnly m m' p

section Calls

variable {m m' : ByteMemory} {lo hi p k : ℕ} {ps : List ℕ} {s : Segment} {ss : List Segment}
  {c : Call}

theorem bitmapOnly_store (hk : k < (SegmentHeader.read m p).bitmapU64len) (v : BitVec 64) :
    BitmapOnly m (m.store (p + SegmentHeader.byteSize + 8 * k) v) p := by
  intro i hi
  rw [SegmentHeader.extent, SegmentHeader.bitmapSize_eq] at hi
  refine ByteMemory.store_of_apart ?_
  omega

/-- A word of the bitmap is replaced. -/
theorem SegmentAt.store (h : SegmentAt m p s) (v : BitVec 64) :
    SegmentAt (m.store (p + SegmentHeader.byteSize + 8 * k) v) p
      { s with bitmap := s.bitmap.set k v } := by
  have hheader : SegmentHeader.read (m.store (p + SegmentHeader.byteSize + 8 * k) v) p =
      SegmentHeader.read m p := by
    refine SegmentHeader.read_congr fun i hi => ByteMemory.store_of_apart (.inl ?_)
    omega
  refine ⟨hheader.trans h.header, ?_⟩
  rw [← h.bitmap, SegmentHeader.bitmap, hheader]
  exact ByteMemory.words_store (by decide) v

theorem SegmentAt.length_bitmap (h : SegmentAt m p s) :
    s.bitmap.length = (SegmentHeader.read m p).bitmapU64len := by
  rw [← h.bitmap, SegmentHeader.bitmap, ByteMemory.length_words]

theorem SegmentAt.load_bitmap (h : SegmentAt m p s) (hk : k < s.bitmap.length) :
    m.load 64 (p + SegmentHeader.byteSize + 8 * k) = s.bitmap.getD k 0 := by
  rw [h.length_bitmap] at hk
  rw [← h.bitmap]
  exact (ByteMemory.getD_words hk).symm

theorem Stored.le_of_mem (h : Stored m lo ps ss hi) (hp : p ∈ ps) : lo ≤ p := by
  induction h with
  | nil => cases hp
  | cons hle _ _ _ ih =>
    rcases List.mem_cons.mp hp with rfl | hp
    · exact hle
    · exact hle.trans ((Nat.le_add_right _ _).trans (ih hp))

/-- A call that changes the first segment. -/
theorem Stored.head {s' : Segment} (hle : lo ≤ p) (halign : 8 ∣ p) (hseg : SegmentAt m p s)
    (hrest : Stored m (p + s.extent) ps ss hi) (hseg' : SegmentAt m' p s')
    (hheader : s'.toSegmentHeader = s.toSegmentHeader) (honly : BitmapOnly m m' p) :
    Stored m' lo (p :: ps) (s' :: ss) hi := by
  refine .cons hle halign hseg' ?_
  rw [hheader]
  refine hrest.congr fun x hx _ => honly x (.inr ?_)
  rwa [hseg.header]

/-- A call that changes one of the others. -/
theorem Stored.tail {ss' : List Segment} (hle : lo ≤ p) (halign : 8 ∣ p) (hseg : SegmentAt m p s)
    (hrest : Stored m (p + s.extent) ps ss hi) (hrest' : Stored m' (p + s.extent) ps ss' hi)
    (hwrites : Writes ps c m m') : Stored m' lo (p :: ps) (s :: ss') hi := by
  obtain ⟨q, hq, -, honly⟩ := hwrites
  have hbehind := hrest.le_of_mem hq
  refine .cons hle halign (hseg.congr fun i hi => honly _ (.inl ?_)) hrest'
  omega

theorem Writes.tail (h : Writes ps c m m') : Writes (p :: ps) c m m' := by
  obtain ⟨q, hq, hrest⟩ := h
  exact ⟨q, List.mem_cons_of_mem _ hq, hrest⟩

/-- The results of `allocate_frame` on bytes and on segments. -/
inductive AllocateSim (m : ByteMemory) (lo : ℕ) (ps : List ℕ) (ss : List Segment) (hi : ℕ) :
    Option PhysFrame × ByteMemory → Option (PhysFrame × List Segment) → Prop where
  | none : AllocateSim m lo ps ss hi (none, m) none
  | some {f : PhysFrame} {m' : ByteMemory} {ss' : List Segment} : Stored m' lo ps ss' hi →
      ss'.map Segment.toSegmentHeader = ss.map Segment.toSegmentHeader →
      Writes ps (.allocate (some f)) m m' →
      AllocateSim m lo ps ss hi (some f, m') (some (f, ss'))

/-- `allocate_frame` ends on bytes as it does on segments: with the same frame, the same panic or
nothing. The bytes change in one bitmap word, that of the frame. -/
theorem allocateIn_sim (h : Stored m lo ps ss hi) :
    SameOutcome (AllocateSim m lo ps ss hi) (Flat.allocateIn ps m) (allocateIn ss) := by
  -- induction along the loop, from segment to segment
  induction h with
  | nil => exact .ok .none
  | @cons lo hi p s ps ss hle halign hseg hrest ih =>
    simp only [Flat.allocateIn, allocateIn, hseg.header, hseg.bitmap]
    refine .bind_same fun _ _ => ?_
    cases hfirst : Bitmap.firstNotFull s.bitmap with
    | none =>
      -- the segment is full, and the loop goes on
      refine ih.bind_right fun r r' hsim => ?_
      cases hsim with
      | none => exact .ok .none
      | some hstored hheaders hwrites =>
        refine .ok (.some (.tail hle halign hseg hrest hstored hwrites) ?_ hwrites.tail)
        rw [List.map_cons, List.map_cons, hheaders]
    | some windex =>
      obtain ⟨hlen, hfull⟩ := Bitmap.firstNotFull_eq_some hfirst
      have hget : s.bitmap.getD windex 0 = s.bitmap[windex] := by simp [hlen]
      simp only [hseg.load_bitmap hlen, hget]
      set bitindex := Bitmap.trailingOnes s.bitmap[windex] with hbitindex
      have hbit : bitindex < 64 := Bitmap.trailingOnes_lt hfull
      refine .bind_same fun _ _ => ?_
      -- the address is read after the word has been written
      have hseg' := hseg.store (k := windex) (Bitmap.setBit s.bitmap[windex] bitindex)
      rw [hseg'.header]
      refine .bind_same fun frame hframe => ?_
      have honly := bitmapOnly_store (hseg.length_bitmap ▸ hlen)
        (Bitmap.setBit s.bitmap[windex] bitindex)
      refine .ok (.some (.head hle halign hseg hrest hseg' rfl honly) rfl ?_)
      refine ⟨p, List.mem_cons_self, ⟨frame, 64 * windex + bitindex, rfl, ?_, ?_⟩, honly⟩
      · rw [← hseg.length_bitmap]
        omega
      · rw [hseg.header]
        exact hframe

/-- `deallocate_frame` clears the bit of the frame in the first segment that has it in its range. A
frame of no segment leaves the bytes as they are. -/
theorem deallocateIn_sim {frame : PhysFrame} (h : Stored m lo ps ss hi) : SameOutcome
    (fun m' ss' => Stored m' lo ps ss' hi ∧
      ss'.map Segment.toSegmentHeader = ss.map Segment.toSegmentHeader ∧
      (m' = m ∨ Writes ps (.deallocate frame) m m'))
    (Flat.deallocateIn frame.startAddress ps m) (deallocateIn frame.startAddress ss) := by
  induction h with
  | nil hle => exact .ok ⟨.nil hle, rfl, .inl rfl⟩
  | @cons lo hi p s ps ss hle halign hseg hrest ih =>
    simp only [Flat.deallocateIn, deallocateIn, hseg.header, hseg.bitmap]
    refine .bind_same fun inside hinside => ?_
    cases inside with
    | false =>
      -- not in the range of this segment
      refine ih.bind_right fun m' ss' hsim => ?_
      obtain ⟨hstored, hheaders, hwrites⟩ := hsim
      refine .ok ⟨?_, by simp [hheaders], hwrites.imp_right Writes.tail⟩
      rcases hwrites with rfl | hwrites
      · exact .cons hle halign hseg hstored
      · exact .tail hle halign hseg hrest hstored hwrites
    | true =>
      -- the frame is in the range: the loop of the source stops here
      refine .bind_same fun _ hindex => ?_
      have hlen := ensure_eq_ok.mp hindex
      simp only [hseg.load_bitmap hlen]
      have honly := bitmapOnly_store (hseg.length_bitmap ▸ hlen) (Bitmap.clearBit
        (s.bitmap.getD ((frame.startAddress - s.address) / pageSize / 64) 0)
        ((frame.startAddress - s.address) / pageSize % 64))
      refine .ok ⟨.head hle halign hseg hrest (hseg.store _) rfl honly, rfl, .inr ?_⟩
      refine ⟨p, List.mem_cons_self, ?_, honly⟩
      rw [hseg.header]
      exact hinside

end Calls

/-! ## Sequences of calls -/

/-- One call on the segments of the model. -/
def PhysicalFrameAllocator.Step (a : PhysicalFrameAllocator) : Call → PhysicalFrameAllocator → Prop
  | .allocate frame, a' => a.allocateFrame = .ok (frame, a')
  | .deallocate frame, a' => a.deallocateFrame frame = .ok a'

/-- One call on the bytes. -/
def Flat.Step (fa : Flat.Allocator) (m : ByteMemory) : Call → ByteMemory → Prop
  | .allocate frame, m' => fa.allocateFrame m = .ok (frame, m')
  | .deallocate frame, m' => fa.deallocateFrame frame m = .ok m'

section Runs

variable {fa : Flat.Allocator} {a : PhysicalFrameAllocator} {m m' : ByteMemory} {lo hi : ℕ}
  {es : List Call} {c : Call}

/-- A call on the bytes is one on the segments. -/
theorem step_sim (hstored : Stored m lo fa.segments a.segments hi) (h : Flat.Step fa m c m') :
    ∃ a', a.Step c a' ∧ Stored m' lo fa.segments a'.segments hi ∧
      a'.segments.map Segment.toSegmentHeader = a.segments.map Segment.toSegmentHeader ∧
      (m' = m ∨ Writes fa.segments c m m') := by
  cases c with
  | allocate frame =>
    obtain ⟨found, hfound, hsim⟩ := (allocateIn_sim hstored).of_ok_left h
    cases hsim with
    | none => exact ⟨a, allocateFrame_eq_ok.mpr (.inl ⟨rfl, rfl, hfound⟩), hstored, rfl, .inl rfl⟩
    | @some f _ ss' hstored' hheaders hwrites =>
      exact ⟨{ a with segments := ss' }, allocateFrame_eq_ok.mpr (.inr ⟨f, ss', rfl, rfl, hfound⟩),
        hstored', hheaders, .inr hwrites⟩
  | deallocate frame =>
    obtain ⟨ss', hss', hstored', hheaders, hwrites⟩ := (deallocateIn_sim hstored).of_ok_left h
    refine ⟨{ a with segments := ss' }, ?_, hstored', hheaders, hwrites⟩
    rw [PhysicalFrameAllocator.Step, PhysicalFrameAllocator.deallocateFrame, hss']
    rfl

/-- A sequence of calls on the bytes is one on the segments, and all headers stay. -/
theorem run_sim (hstored : Stored m lo fa.segments a.segments hi)
    (hrun : Run (Flat.Step fa) m es m') :
    ∃ a', Run PhysicalFrameAllocator.Step a es a' ∧ Stored m' lo fa.segments a'.segments hi ∧
      a'.segments.map Segment.toSegmentHeader = a.segments.map Segment.toSegmentHeader := by
  induction hrun with
  | nil => exact ⟨a, .nil a, hstored, rfl⟩
  | snoc _ hlast ih =>
    obtain ⟨a₁, hrun₁, hstored₁, hheaders₁⟩ := ih
    obtain ⟨a', hstep, hstored', hheaders, -⟩ := step_sim hstored₁ hlast
    exact ⟨a', hrun₁.snoc hstep, hstored', hheaders.trans hheaders₁⟩

/-- With all magic numbers in place no check fails. -/
theorem allocateIn_ne_segmentMagic {segs : List Segment} (h : Marked segs) :
    allocateIn segs ≠ .error .segmentMagic := by
  induction segs with
  | nil => simp [allocateIn]
  | cons s rest ih =>
    rw [Marked, List.forall_mem_cons] at h
    have hrest := ih h.2
    simp only [allocateIn, ensure_of h.1, except_ok_bind]
    cases Bitmap.firstNotFull s.bitmap with
    | none =>
      cases hfound : allocateIn rest with
      | error e => simpa [hfound] using hrest
      | ok found => simp
    | some windex =>
      simp only [ensure, frameContaining]
      split_ifs <;> simp

/-- What is true after a sequence of calls that starts from the memory `m`. -/
structure Kept (fa : Flat.Allocator) (m m' : ByteMemory) (a' : PhysicalFrameAllocator) : Prop where
  /-- The bytes are those of the segments of the model. -/
  stored : List.Forall₂ (SegmentAt m') fa.segments a'.segments
  /-- Every header has its first value. -/
  headers : ∀ p ∈ fa.segments, SegmentHeader.read m' p = SegmentHeader.read m p
  /-- The next check does not fail. -/
  check : fa.allocateFrame m' ≠ .error .segmentMagic
  /-- The next call writes to the bitmap of the segment concerned, or not at all. -/
  writes : ∀ c m'', Flat.Step fa m' c m'' → m'' = m' ∨ Writes fa.segments c m' m''

theorem Stored.map_read (h : Stored m lo fa.segments a.segments hi) :
    fa.segments.map (SegmentHeader.read m) = a.segments.map Segment.toSegmentHeader := by
  have hsegs := h.forall₂
  generalize fa.segments = ps at hsegs
  generalize a.segments = ss at hsegs
  induction hsegs with
  | nil => rfl
  | cons hseg _ ih => rw [List.map_cons, List.map_cons, hseg.header, ih]

theorem marked_of_headers {ss ss' : List Segment} (h : Marked ss)
    (hheaders : ss'.map Segment.toSegmentHeader = ss.map Segment.toSegmentHeader) : Marked ss' := by
  have hall : ∀ t ∈ ss.map Segment.toSegmentHeader, t.magic = SegmentHeader.MAGIC :=
    List.forall_mem_map.mpr h
  rw [← hheaders] at hall
  exact List.forall_mem_map.mp hall

/-- What is true after any sequence of calls. The magic numbers have stayed, hence no check of them
fails, and the last field speaks of the next call from here. -/
theorem run_kept (hstored : Stored m lo fa.segments a.segments hi) (hmarked : Marked a.segments)
    (hrun : Run (Flat.Step fa) m es m') :
    ∃ a', Run PhysicalFrameAllocator.Step a es a' ∧ Kept fa m m' a' ∧
      Stored m' lo fa.segments a'.segments hi ∧ Marked a'.segments := by
  obtain ⟨a', habs, hstored', hheaders⟩ := run_sim hstored hrun
  have hmarked' := marked_of_headers hmarked hheaders
  refine ⟨a', habs, ⟨hstored'.forall₂, ?_, ?_, fun c m'' hstep => ?_⟩, hstored', hmarked'⟩
  · have hmaps := hstored'.map_read.trans (hheaders.trans hstored.map_read.symm)
    exact List.map_inj_left.mp hmaps
  · intro hfail
    exact allocateIn_ne_segmentMagic hmarked' ((allocateIn_sim hstored').error_iff.mp hfail)
  · obtain ⟨_, -, -, -, hwrites⟩ := step_sim hstored' hstep
    exact hwrites

end Runs

/-! ## The mapped header -/

/-- Physical memory as it is seen through virtual addresses. -/
def seen (vm : Vm) (m : ByteMemory) : ByteMemory := fun v => ((physOf vm v).map m).getD 0

section MapHeader

variable {M F F' : Set PhysFrame} {vm vm' : Vm} {fa fb : Flat.Allocator}

theorem shiftSegments_eq_ok {d : ℕ} {ps qs : List ℕ} (h : Flat.shiftSegments d ps = .ok qs) :
    qs = ps.map (· + d) := by
  induction ps generalizing qs with
  | nil => exact (Except.ok.inj h).symm
  | cons p ps ih =>
    simp only [Flat.shiftSegments, except_bind_eq_ok, checkedAdd_eq_ok, Except.ok.injEq] at h
    obtain ⟨_, ⟨-, rfl⟩, qs', hrest, rfl⟩ := h
    rw [ih hrest, List.map_cons]

/-- Behind `map_header` the references are moved by one distance, at which each byte of the reserved
area is found. -/
theorem mapHeader_shifts (hinv : vm.Inv) (hfresh : Disjoint F vm.tables)
    (h : Returns M (Flat.mapHeader vm fa) F (fb, vm') F') :
    ∃ d, 8 ∣ d ∧ fb = { fa with segments := fa.segments.map (· + d) } ∧
      ∀ x, fa.phyframe.startAddress ≤ x → x < fa.phyframe.startAddress + fa.size →
        physOf vm' (x + d) = some x := by
  simp only [Flat.mapHeader, returns_bind, returns_lift, checkedSub_eq_ok] at h
  obtain ⟨vm₁, F₁, hmap, _, _, ⟨⟨hle, rfl⟩, rfl⟩, segments, _, ⟨hshift, rfl⟩, hret⟩ := h
  obtain ⟨hpair, rfl⟩ := returns_pure.mp hret
  obtain ⟨rfl, rfl⟩ := Prod.mk.inj hpair
  -- the reserved area is mapped page by page, with the frames in order
  obtain ⟨-, hpages⟩ := map_evolves hinv hfresh (returns_vmapExpect.mp hmap)
  refine ⟨_, ?_, by rw [shiftSegments_eq_ok hshift], fun x hx hx' => ?_⟩
  · refine Nat.dvd_trans (show 8 ∣ pageSize by decide) (Nat.dvd_sub ?_ ?_) <;>
      exact Nat.dvd_mul_left _ _
  · have hk : (x - fa.phyframe.startAddress) / pageSize < pageCount fa.size := by
      simp only [pageCount, alignUp, pageSize]
      omega
    -- the page of the address, counted from the start of the area
    obtain ⟨q, f, hq, hf, -, htrans⟩ := hpages _ hk
    rw [Page.add_eq_ok] at hq
    rw [PhysFrame.add_eq_ok] at hf
    simp only [PhysFrame.startAddress, Page.startAddress, pageSize] at hle hx hq hf ⊢
    rw [physOf_of_translate htrans (by simp only [pageSize]; omega), Option.some.injEq]
    simp only [pageSize]
    omega

/-- The segments are found through the moved references. -/
theorem Stored.seen {a : PhysicalFrameAllocator} {m : ByteMemory} {d : ℕ}
    (h : Stored m fa.phyframe.startAddress fa.segments a.segments
      (fa.phyframe.startAddress + fa.size)) (hd : 8 ∣ d)
    (hphysical : ∀ x, fa.phyframe.startAddress ≤ x → x < fa.phyframe.startAddress + fa.size →
      physOf vm' (x + d) = some x) :
    Stored (seen vm' m) (fa.phyframe.startAddress + d) (fa.segments.map (· + d)) a.segments
      (fa.phyframe.startAddress + fa.size + d) := by
  refine h.shift hd fun x hx hx' => ?_
  rw [HeliumOS.Mem.seen, hphysical x hx hx']
  rfl

end MapHeader

/-! ## The layout -/

/-- The bytes of the header at an address. -/
def headerBytes (p : ℕ) : Set ℕ := Set.Ico p (p + SegmentHeader.byteSize)

/-- The bytes of the bitmap behind it. -/
def bitmapBytes (m : ByteMemory) (p : ℕ) : Set ℕ :=
  Set.Ico (p + SegmentHeader.byteSize) (p + (SegmentHeader.read m p).extent)

/-- Headers and bitmaps, one by one. -/
def areas (m : ByteMemory) (ps : List ℕ) : List (Set ℕ) :=
  ps.flatMap fun p => [headerBytes p, bitmapBytes m p]

/-- Where headers and bitmaps lie: at multiples of eight, in the reserved area, without overlaps. -/
structure Layout (m : ByteMemory) (fa : Flat.Allocator) : Prop where
  aligned : ∀ p ∈ fa.segments, 8 ∣ p ∧ 8 ∣ p + SegmentHeader.byteSize
  inside : ∀ p ∈ fa.segments, fa.phyframe.startAddress ≤ p ∧
    p + (SegmentHeader.read m p).extent ≤ fa.phyframe.startAddress + fa.size
  disjoint : (areas m fa.segments).Pairwise Disjoint

namespace Stored

variable {m : ByteMemory} {lo hi p : ℕ} {ps : List ℕ} {ss : List Segment}

theorem aligned (h : Stored m lo ps ss hi) (hp : p ∈ ps) : 8 ∣ p := by
  induction h with
  | nil => cases hp
  | cons _ halign _ _ ih =>
    rcases List.mem_cons.mp hp with rfl | hp
    · exact halign
    · exact ih hp

theorem end_le (h : Stored m lo ps ss hi) (hp : p ∈ ps) :
    p + (SegmentHeader.read m p).extent ≤ hi := by
  induction h with
  | nil => cases hp
  | cons _ _ hseg hrest ih =>
    rcases List.mem_cons.mp hp with rfl | hp
    · rw [hseg.header]
      exact hrest.le
    · exact ih hp

/-- Everything lies behind the lower end. -/
theorem subset_of_mem_areas (h : Stored m lo ps ss hi) {A : Set ℕ} (hA : A ∈ areas m ps) :
    A ⊆ Set.Ici lo := by
  obtain ⟨p, hp, hA⟩ := List.mem_flatMap.mp hA
  have hle := h.le_of_mem hp
  simp only [List.mem_cons, List.not_mem_nil, or_false] at hA
  rcases hA with rfl | rfl
  · exact fun x hx => hle.trans hx.1
  · exact fun x hx => hle.trans ((Nat.le_add_right _ _).trans hx.1)

/-- No two headers or bitmaps overlap: a bitmap starts where its header ends, and the next segment
starts where the bitmap ends. -/
theorem pairwise_areas (h : Stored m lo ps ss hi) : (areas m ps).Pairwise Disjoint := by
  induction h with
  | nil => exact .nil
  | @cons lo hi p s ps ss _ _ hseg hrest ih =>
    have hbehind {A : Set ℕ} (hA : A ∈ areas m ps) {e : ℕ} (he : e ≤ p + s.extent) (b : ℕ) :
        Disjoint (Set.Ico b e) A := by
      refine Set.disjoint_left.mpr fun x hx hxA => ?_
      exact Nat.not_lt.mpr (he.trans (hrest.subset_of_mem_areas hA hxA)) hx.2
    have hle : p + SegmentHeader.byteSize ≤ p + s.extent :=
      Nat.add_le_add_left (Nat.le_add_left _ _) _
    rw [areas, List.flatMap_cons]
    refine List.pairwise_cons.mpr ⟨?_, List.pairwise_cons.mpr ⟨?_, ih⟩⟩
    · intro A hA
      rcases List.mem_cons.mp hA with rfl | hA
      · exact Set.disjoint_left.mpr fun x hx hx' => Nat.not_lt.mpr hx'.1 hx.2
      · exact hbehind hA hle p
    · intro A hA
      rw [bitmapBytes, hseg.header]
      exact hbehind hA le_rfl _

end Stored

/-- **The header stores the segments.**  `init` writes headers and bitmaps without overlaps into the
area it has reserved, and they are the segments of the model.  Through any sequence of calls the
bytes follow the model: the writes of each call stay in the bitmap of the segment concerned, every
header keeps its value and no check fails.  `map_header` moves the references to where the same
bytes are mapped, and the same is true of the calls that follow. -/
theorem header_faithful {isvm : Bool} {bb : BootBoot} {m₀ m : ByteMemory} {fa : Flat.Allocator}
    (hbb : bb.Words) (h : Flat.init isvm bb m₀ = .ok (fa, m)) :
    ∃ a, init isvm bb = .ok a ∧ fa.size = a.size ∧ fa.phyframe = a.phyframe ∧ Layout m fa ∧
      ∀ es m₁, Run (Flat.Step fa) m es m₁ →
        ∃ a₁, Run PhysicalFrameAllocator.Step a es a₁ ∧ Kept fa m m₁ a₁ ∧
          ∀ (M F F' : Set PhysFrame) (vm vm' : Vm) (fb : Flat.Allocator), vm.Inv →
            Disjoint F vm.tables → Returns M (Flat.mapHeader vm fa) F (fb, vm') F' →
            ∃ d, fb = { fa with segments := fa.segments.map (· + d) } ∧
              (∀ x, fa.phyframe.startAddress ≤ x → x < fa.phyframe.startAddress + fa.size →
                physOf vm' (x + d) = some x) ∧
              ∀ es' m₂, Run (Flat.Step fb) (seen vm' m₁) es' m₂ →
                ∃ a₂, Run PhysicalFrameAllocator.Step a₁ es' a₂ ∧
                  Kept fb (seen vm' m₁) m₂ a₂ := by
  obtain ⟨a, hinit, hsize, hframe, hstored⟩ := (init_sim hbb).of_ok_left h
  rw [← hframe, ← hsize] at hstored
  refine ⟨a, hinit, hsize, hframe, ⟨fun p hp => ?_, fun p hp => ?_, hstored.pairwise_areas⟩, ?_⟩
  · have halign := hstored.aligned hp
    exact ⟨halign, Nat.dvd_add halign (by decide)⟩
  · exact ⟨hstored.le_of_mem hp, hstored.end_le hp⟩
  -- the calls before `map_header`, on physical addresses
  intro es m₁ hrun
  obtain ⟨a₁, habs, hkept, hstored₁, hmarked₁⟩ := run_kept hstored (marked_of_init hinit) hrun
  refine ⟨a₁, habs, hkept, fun M F F' vm vm' fb hinv hfresh hmap => ?_⟩
  -- and those after it: the same lemma, at the moved references and the memory seen through them
  obtain ⟨d, hd, rfl, hphysical⟩ := mapHeader_shifts hinv hfresh hmap
  refine ⟨d, rfl, hphysical, fun es' m₂ hrun' => ?_⟩
  obtain ⟨a₂, habs', hkept', -⟩ := run_kept (hstored₁.seen hd hphysical) hmarked₁ hrun'
  exact ⟨a₂, habs', hkept'⟩

/-- A machine with three free pages. -/
theorem header_faithful_threePages : ∃ fa m,
    Flat.init false (oneRegion 3) (fun _ => 0) = .ok (fa, m) ∧ Layout m fa ∧ fa.size = 32 := by
  have hwords : (oneRegion 3).Words := by
    intro e he
    obtain ⟨i, -, rfl⟩ := List.mem_map.mp he
    exact ⟨show 0x100000 < 2 ^ 64 by decide, show 3 * 4096 + 1 < 2 ^ 64 by decide⟩
  obtain ⟨⟨fa, m⟩, hflat, -⟩ := (init_sim hwords).of_ok_right init_threePages
  obtain ⟨a, hinit, hsize, -, hlayout, -⟩ := header_faithful hwords hflat
  obtain rfl := Except.ok.inj (init_threePages.symm.trans hinit)
  exact ⟨fa, m, hflat, hlayout, hsize⟩

end HeliumOS.Mem
