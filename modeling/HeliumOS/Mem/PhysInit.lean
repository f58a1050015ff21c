import HeliumOS.Mem.PhysSound
import Mathlib.Order.Interval.Set.LinearOrder

/-!
# From the Boot Memory Map to the Free Set

`phys::init` builds an allocator that satisfies the representation invariant, manages only
frames of the free regions of the memory map, and leaves out the area it reserved for its own
header.  With the run rule for pools this bounds what `palloc` can ever hand out.

- `collect_eq_ok`, `carve_cases` and `writeHeaders_eq_ok` say what each loop of `init` returns.
- `init_cases` puts the three together: one segment for each usable entry, one of them shortened at
  the front.
- `init_sound`: on a regular memory map the segments are those of the invariant.
-/

namespace HeliumOS.Mem

open HeliumOS.Lib

/-! ## Byte ranges -/

/-- The bytes of a frame. -/
def PhysFrame.bytes (f : PhysFrame) : Set ℕ := Set.Ico f.startAddress (f.startAddress + pageSize)

/-- The bytes of an entry of the memory map. -/
def MMapEnt.bytes (e : MMapEnt) : Set ℕ := Set.Ico e.ptr (e.ptr + e.rawSize)

/-- The type bits of the entry say `Free`. -/
def MMapEnt.IsFree (e : MMapEnt) : Prop := e.size % 16 = 1

instance (e : MMapEnt) : Decidable e.IsFree := inferInstanceAs (Decidable (_ = _))

/-- The physical area that `init` reserved for headers and bitmaps. -/
def PhysicalFrameAllocator.headerArea (a : PhysicalFrameAllocator) : Set ℕ :=
  Set.Ico a.phyframe.startAddress (a.phyframe.startAddress + alignUp a.size pageSize)

/-- A memory map whose free entries consist of whole pages and do not overlap. -/
structure BootBoot.Regular (bb : BootBoot) : Prop where
  aligned : ∀ e ∈ bb.entries, e.IsFree → pageSize ∣ e.ptr
  whole : ∀ e ∈ bb.entries, e.IsFree → pageSize ∣ e.rawSize
  disjoint : bb.entries.Pairwise fun e e' => e.IsFree → e'.IsFree → Disjoint e.bytes e'.bytes

/-! ## The loops of `init` -/

/-- The entries that become segments. -/
def MMapEnt.Usable (e : MMapEnt) : Prop := e.IsFree ∧ pageSize ≤ e.rawSize

instance (e : MMapEnt) : Decidable e.Usable := inferInstanceAs (Decidable (_ ∧ _))

/-- The segment header of an entry. -/
def MMapEnt.header (e : MMapEnt) : SegmentHeader :=
  .new (alignUp e.ptr pageSize) e.pagedSize

theorem MMapEnt.getType_eq_free {e : MMapEnt} {t : MMapType} (h : e.getType = .ok t) :
    t = .free ↔ e.IsFree := by
  unfold MMapEnt.getType at h
  unfold MMapEnt.IsFree
  split at h <;> simp_all <;> subst h <;> simp

/-- The first loop keeps the usable entries, in order. -/
theorem collect_eq_ok {isvm : Bool} {es : List MMapEnt} {total total' : ℕ}
    {headers : List SegmentHeader} (h : collect isvm es total = .ok (headers, total')) :
    headers = (es.filter (·.Usable)).map MMapEnt.header := by
  induction es generalizing total headers with
  | nil =>
    simp only [collect, Except.ok.injEq, Prod.mk.injEq] at h
    simp [← h.1]
  | cons e es ih =>
    simp only [collect, except_bind_eq_ok] at h
    obtain ⟨type, htype, -, -, h⟩ := h
    simp only [MMapEnt.getType_eq_free htype] at h
    -- entries that are not free, or too short, are skipped
    split_ifs at h with husable
    · simp only [except_bind_eq_ok, Except.ok.injEq, Prod.mk.injEq, Prod.exists,
        MMapEnt.phyadr, checkedAlignUp_eq_ok, physAddr_eq_ok] at h
      obtain ⟨adr, ⟨a, ⟨-, rfl⟩, -, rfl⟩, total₁, -, rest, total₂, hrec, rfl, rfl⟩ := h
      have : e.Usable := husable
      simp [ih hrec, this, MMapEnt.header]
    · have : ¬ e.Usable := husable
      simp [ih h, this]

/-- The bytes that headers and bitmaps of a list take. -/
def room (headers : List SegmentHeader) : ℕ := (headers.map SegmentHeader.extent).sum

/-- The first loop adds up the room that the headers take, and checks their addresses. -/
theorem collect_room {isvm : Bool} {es : List MMapEnt} {total total' : ℕ}
    {headers : List SegmentHeader} (h : collect isvm es total = .ok (headers, total')) :
    total' = total + room headers ∧ ∀ s ∈ headers, s.address < 2 ^ 52 := by
  induction es generalizing total headers with
  | nil =>
    simp only [collect, Except.ok.injEq, Prod.mk.injEq] at h
    simp [← h.1, ← h.2, room]
  | cons e es ih =>
    simp only [collect, except_bind_eq_ok] at h
    obtain ⟨type, -, -, -, h⟩ := h
    split_ifs at h with husable
    · simp only [except_bind_eq_ok, Except.ok.injEq, Prod.mk.injEq, Prod.exists, MMapEnt.phyadr,
        physAddr_eq_ok, checkedAdd_eq_ok] at h
      obtain ⟨adr, ⟨a, -, hadr, rfl⟩, total₁, ⟨-, rfl⟩, rest, total₂, hrec, rfl, rfl⟩ := h
      obtain ⟨rfl, hall⟩ := ih hrec
      refine ⟨?_, List.forall_mem_cons.mpr ⟨hadr, hall⟩⟩
      rw [room, room, List.map_cons, List.sum_cons, Nat.add_assoc]
    · exact ih h

/-- A segment without its first `need` bytes. -/
def SegmentHeader.dropFront (need : ℕ) (s : SegmentHeader) : SegmentHeader :=
  { s with address := s.address + need, size := s.size - need }

/-- The second loop shortens the first segment that is large enough. -/
theorem carve_cases {need header : ℕ} {headers headers' : List SegmentHeader}
    (h : carve need headers = .ok (some (header, headers'))) :
    ∃ pre s post, headers = pre ++ s :: post ∧ headers' = pre ++ s.dropFront need :: post ∧
      header = s.address ∧ need ≤ s.size ∧ s.address + need < 2 ^ 52 ∧
      ∀ t ∈ pre, ¬ need ≤ t.size := by
  induction headers generalizing headers' with
  | nil => simp [carve] at h
  | cons s rest ih =>
    simp only [carve] at h
    split_ifs at h with hle
    · simp only [except_bind_eq_ok, physAddr_eq_ok, Except.ok.injEq, Option.some.injEq,
        Prod.mk.injEq] at h
      obtain ⟨adr, ⟨hadr, rfl⟩, rfl, rfl⟩ := h
      exact ⟨[], s, rest, rfl, rfl, rfl, hle, hadr, by simp⟩
    · simp only [except_bind_eq_ok, Except.ok.injEq, Option.map_eq_some_iff] at h
      obtain ⟨found, hrec, ⟨header', rest'⟩, rfl, hpair⟩ := h
      simp only [Prod.mk.injEq] at hpair
      obtain ⟨rfl, rfl⟩ := hpair
      obtain ⟨pre, t, post, rfl, rfl, hheader, hle', hadr, hpre⟩ := ih hrec
      exact ⟨s :: pre, t, post, rfl, rfl, hheader, hle', hadr, List.forall_mem_cons.mpr ⟨hle, hpre⟩⟩

/-- The frames of a list of segment headers. -/
def heldBy (headers : List SegmentHeader) : Set PhysFrame := {f | ∃ s ∈ headers, s.Holds f}

/-- Segments of whole pages without common frames. -/
structure Laid (headers : List SegmentHeader) : Prop where
  paged : ∀ s ∈ headers, s.Paged
  apart : headers.Pairwise SegmentHeader.Apart

/-- A frame that touches the first `need` bytes of a segment lies inside the segment. -/
theorem SegmentHeader.Paged.holds_of_mem_front {s : SegmentHeader} (hs : s.Paged) {need x : ℕ}
    (hneed : pageSize ∣ need) (hle : need ≤ s.size) {f : PhysFrame} (hx : x ∈ f.bytes)
    (hx' : x ∈ Set.Ico s.address (s.address + need)) :
    s.Holds f := by
  obtain ⟨a, ha⟩ := hs.address
  obtain ⟨n, hn⟩ := hs.size
  obtain ⟨k, hk⟩ := hneed
  simp only [PhysFrame.bytes, Set.mem_Ico, PhysFrame.startAddress, SegmentHeader.Holds, ha, hn, hk,
    pageSize] at *
  omega

/-- The front of a segment that gives up its first `need` bytes. -/
theorem SegmentHeader.Paged.drop_front {s : SegmentHeader} (hs : s.Paged) {need : ℕ}
    (hneed : pageSize ∣ need) (hle : need ≤ s.size) :
    (s.dropFront need).Paged ∧ ∀ f, (s.dropFront need).Holds f ↔
      s.Holds f ∧ Disjoint f.bytes (Set.Ico s.address (s.address + need)) := by
  have hpaged : (s.dropFront need).Paged :=
    ⟨hs.magic, (Nat.dvd_add_iff_right hs.address).mp hneed, Nat.dvd_sub hs.size hneed⟩
  refine ⟨hpaged, fun f => ⟨fun hf => ⟨?_, ?_⟩, ?_⟩⟩
  · simp only [SegmentHeader.Holds, SegmentHeader.dropFront] at hf ⊢
    omega
  · refine Set.disjoint_left.mpr fun x hx hx' => ?_
    simp only [SegmentHeader.Holds, SegmentHeader.dropFront, PhysFrame.bytes, Set.mem_Ico]
      at hf hx hx'
    omega
  · rintro ⟨hf, hdisj⟩
    -- otherwise the first byte of the frame would be in the area
    by_contra hnot
    have hbyte : f.startAddress ∈ f.bytes := by simp [PhysFrame.bytes, pageSize]
    refine Set.disjoint_left.mp hdisj hbyte ?_
    simp only [SegmentHeader.Holds, SegmentHeader.dropFront, Set.mem_Ico] at hf hnot ⊢
    omega

theorem mem_heldBy_cons {s : SegmentHeader} {headers : List SegmentHeader} {f : PhysFrame} :
    f ∈ heldBy (s :: headers) ↔ s.Holds f ∨ f ∈ heldBy headers := by
  simp [heldBy]

theorem heldBy_middle (pre post : List SegmentHeader) (s : SegmentHeader) :
    heldBy (pre ++ s :: post) = heldBy (s :: (pre ++ post)) := by
  ext f
  simp only [heldBy, Set.mem_ofPred_eq, List.perm_middle.mem_iff]

theorem Laid.middle {pre post : List SegmentHeader} {s : SegmentHeader} :
    Laid (pre ++ s :: post) ↔ Laid (s :: (pre ++ post)) := by
  have hperm : (pre ++ s :: post).Perm (s :: (pre ++ post)) := List.perm_middle
  constructor
  · intro h
    exact ⟨fun t ht => h.paged t (hperm.mem_iff.mpr ht),
      (hperm.pairwise_iff SegmentHeader.Apart.symm).mp h.apart⟩
  · intro h
    exact ⟨fun t ht => h.paged t (hperm.mem_iff.mp ht),
      (hperm.pairwise_iff SegmentHeader.Apart.symm).mpr h.apart⟩

/-- An area of whole pages at the front of one segment consists of frames of this segment, and
shortening the segment takes just these away. -/
theorem Laid.dropFront {pre post : List SegmentHeader} {s : SegmentHeader} {need : ℕ}
    (hlaid : Laid (pre ++ s :: post)) (hneed : pageSize ∣ need) (hle : need ≤ s.size) :
    Laid (pre ++ s.dropFront need :: post) ∧
      ∀ f, f ∈ heldBy (pre ++ s.dropFront need :: post) ↔
        f ∈ heldBy (pre ++ s :: post) ∧
        Disjoint f.bytes (Set.Ico s.address (s.address + need)) := by
  -- the segment in the middle is moved to the front, the order does not matter
  rw [Laid.middle] at hlaid
  rw [Laid.middle, heldBy_middle, heldBy_middle]
  obtain ⟨happ, hrest⟩ := List.pairwise_cons.mp hlaid.apart
  have hs : s.Paged := hlaid.paged s (List.mem_cons_self ..)
  obtain ⟨hpaged, hholds⟩ := hs.drop_front hneed hle
  refine ⟨⟨?_, List.pairwise_cons.mpr ⟨?_, hrest⟩⟩, fun f => ?_⟩
  · exact List.forall_mem_cons.mpr ⟨hpaged, (List.forall_mem_cons.mp hlaid.paged).2⟩
  · exact fun t ht f hf => happ t ht f ((hholds f).mp hf).1
  · rw [mem_heldBy_cons, mem_heldBy_cons, hholds]
    constructor
    · rintro (hf | hf)
      · exact ⟨.inl hf.1, hf.2⟩
      · refine ⟨.inr hf, by_contra fun hnot => ?_⟩
        -- a frame of another segment would share a byte with the front, and be held twice
        obtain ⟨x, hx, hx'⟩ := Set.not_disjoint_iff.mp hnot
        obtain ⟨t, ht, hft⟩ := hf
        exact happ t ht f (hs.holds_of_mem_front hneed hle hx hx') hft
    · rintro ⟨hf | hf, hdisj⟩
      · exact .inl ⟨hf, hdisj⟩
      · exact .inr hf

/-- The third loop keeps the headers and puts an initial bitmap behind each. -/
theorem writeHeaders_eq_ok {header : ℕ} {headers : List SegmentHeader} {cursor : ℕ}
    {segments : List Segment} (h : writeHeaders header headers cursor = .ok segments) :
    segments.map Segment.toSegmentHeader = headers ∧
      ∀ s ∈ segments, initBitmap s.toSegmentHeader = .ok s.bitmap := by
  induction headers generalizing cursor segments with
  | nil =>
    simp only [writeHeaders, Except.ok.injEq] at h
    simp [← h]
  | cons s rest ih =>
    simp only [writeHeaders, except_bind_eq_ok, Except.ok.injEq] at h
    obtain ⟨-, -, -, -, -, -, bitmap, hbitmap, segments', hrec, rfl⟩ := h
    obtain ⟨hmap, hinit⟩ := ih hrec
    exact ⟨by simp [hmap], by simpa using ⟨hbitmap, hinit⟩⟩

/-- The entries that become segments, in the order of the segments. -/
def BootBoot.usable (bb : BootBoot) : List MMapEnt := bb.entries.reverse.filter (·.Usable)

/-- The total header size, rounded up to pages. -/
def BootBoot.headerSize (bb : BootBoot) : ℕ :=
  alignUp (room (bb.usable.map MMapEnt.header)) pageSize

/-- **What `init` returns**: the headers of the usable entries, the first one that is large enough
without the area that holds headers and bitmaps, and a fresh bitmap behind each. -/
theorem init_cases {isvm : Bool} {bb : BootBoot} {a : PhysicalFrameAllocator}
    (h : init isvm bb = .ok a) : ∃ pre s post,
      bb.usable.map MMapEnt.header = pre ++ s :: post ∧
      a.segments.map Segment.toSegmentHeader =
        pre ++ s.dropFront (alignUp a.size pageSize) :: post ∧
      alignUp a.size pageSize ≤ s.size ∧ frameContaining s.address = .ok a.phyframe ∧
      writeHeaders s.address (pre ++ s.dropFront (alignUp a.size pageSize) :: post) 0 =
        .ok a.segments ∧
      collect isvm bb.entries.reverse 0 = .ok (bb.usable.map MMapEnt.header, a.size) ∧
      ∀ t ∈ pre, ¬ alignUp a.size pageSize ≤ t.size := by
  simp only [init, except_bind_eq_ok, unwrap_eq_ok, checkedAlignUp_eq_ok, Prod.exists,
    Except.ok.injEq] at h
  obtain ⟨-, -, usable, total, hcollect, need, ⟨-, rfl⟩, found, hcarve, header, usable', rfl,
    segments, hwrite, phyframe, hframe, rfl⟩ := h
  obtain rfl := collect_eq_ok hcollect
  obtain ⟨pre, s, post, hheaders, rfl, rfl, hle, -, hpre⟩ := carve_cases hcarve
  exact ⟨pre, s, post, hheaders, (writeHeaders_eq_ok hwrite).1, hle, hframe, hwrite, hcollect, hpre⟩

/-- Every segment has a fresh bitmap. -/
theorem initBitmap_of_init {isvm : Bool} {bb : BootBoot} {a : PhysicalFrameAllocator}
    (h : init isvm bb = .ok a) {s : Segment} (hs : s ∈ a.segments) :
    initBitmap s.toSegmentHeader = .ok s.bitmap := by
  obtain ⟨pre, t, post, -, -, -, -, hwrite, -⟩ := init_cases h
  exact (writeHeaders_eq_ok hwrite).2 s hs

/-- The bits of an initial bitmap.  The last word is clear below the page count modulo 64, so
that it is full when the pages fill it exactly. -/
theorem bit_initBitmap {s : SegmentHeader} {bitmap : List (BitVec 64)}
    (h : initBitmap s = .ok bitmap) :
    bitmap.length = s.bitmapU64len ∧
      ∀ k, k < 64 * bitmap.length → Bitmap.bit bitmap k =
        decide (64 * (s.bitmapU64len - 1) + s.size / pageSize % 64 ≤ k) := by
  simp only [initBitmap] at h
  split_ifs at h with hlen
  cases h
  refine ⟨by simp, fun k hk => ?_⟩
  have hk' : k / 64 < s.bitmapU64len := by simpa using Bitmap.div_lt_length hk
  rw [Bitmap.bit_set (by simp; omega), Bitmap.bit_replicate_zero]
  split_ifs with hlast
  · have hmod : k % 64 < 64 := Nat.mod_lt _ (by decide)
    simp only [BitVec.getLsbD_shiftLeft, BitVec.getLsbD_allOnes, hmod, decide_true, Bool.true_and]
    grind
  · rw [eq_comm, decide_eq_false_iff_not]
    omega

theorem Segment.wf_of_initBitmap {s : Segment} (hs : s.toSegmentHeader.Paged)
    (h : initBitmap s.toSegmentHeader = .ok s.bitmap) : s.Wf := by
  obtain ⟨hlen, hbit⟩ := bit_initBitmap h
  refine ⟨hs, hlen, fun k hk hk' => ?_⟩
  have hcap := bitmapU64len_mul s.toSegmentHeader
  rw [hbit k hk', decide_eq_true_eq]
  unfold alignUp at hcap
  omega

/-! ## The state that `init` builds -/

section Regular

variable {e e' : MMapEnt} {f : PhysFrame}

/-- On whole pages neither address nor size of an entry is rounded. -/
theorem MMapEnt.header_of_aligned (hptr : pageSize ∣ e.ptr) (hsize : pageSize ∣ e.rawSize) :
    e.header = .new e.ptr e.rawSize := by
  rw [MMapEnt.header, MMapEnt.pagedSize, alignUp_of_dvd (by decide) hptr, alignDown_of_dvd hsize]

theorem MMapEnt.holds_header_iff (hptr : pageSize ∣ e.ptr) (hsize : pageSize ∣ e.rawSize) :
    e.header.Holds f ↔ f.bytes ⊆ e.bytes := by
  have hpage : f.startAddress < f.startAddress + pageSize := Nat.lt_add_of_pos_right (by decide)
  rw [MMapEnt.header_of_aligned hptr hsize, PhysFrame.bytes, MMapEnt.bytes,
    Set.Ico_subset_Ico_iff hpage]
  rfl

/-- Entries without common bytes have no common frame. -/
theorem PhysFrame.not_subset_both (hdisj : Disjoint e.bytes e'.bytes) (h : f.bytes ⊆ e.bytes) :
    ¬ f.bytes ⊆ e'.bytes := by
  intro h'
  have hbyte : f.startAddress ∈ f.bytes := by simp [PhysFrame.bytes, pageSize]
  exact Set.disjoint_left.mp hdisj (h hbyte) (h' hbyte)

variable {bb : BootBoot}

/-- The segments that the first loop collects from a regular memory map. -/
theorem laid_of_regular (hbb : bb.Regular) :
    Laid (bb.usable.map MMapEnt.header) := by
  have hmem : ∀ e ∈ bb.usable, e ∈ bb.entries ∧ e.IsFree := by
    intro e he
    simp only [BootBoot.usable, List.mem_filter, List.mem_reverse, decide_eq_true_eq] at he
    exact ⟨he.1, he.2.1⟩
  -- free entries are aligned and whole, so that rounding does nothing to them
  constructor
  · simp only [List.forall_mem_map]
    intro e he
    obtain ⟨he, hfree⟩ := hmem e he
    rw [MMapEnt.header_of_aligned (hbb.aligned e he hfree) (hbb.whole e he hfree)]
    exact ⟨rfl, hbb.aligned e he hfree, hbb.whole e he hfree⟩
  · have hpair : bb.usable.Pairwise
        fun e e' => e.IsFree → e'.IsFree → Disjoint e.bytes e'.bytes := by
      refine List.Pairwise.filter _ (List.pairwise_reverse.mpr ?_)
      exact hbb.disjoint.imp fun h hfree hfree' => (h hfree' hfree).symm
    refine List.pairwise_map.mpr (hpair.imp_of_mem fun he he' hdisj f hf hf' => ?_)
    obtain ⟨he, hfree⟩ := hmem _ he
    obtain ⟨he', hfree'⟩ := hmem _ he'
    rw [MMapEnt.holds_header_iff (hbb.aligned _ he hfree) (hbb.whole _ he hfree)] at hf
    rw [MMapEnt.holds_header_iff (hbb.aligned _ he' hfree') (hbb.whole _ he' hfree')] at hf'
    exact PhysFrame.not_subset_both (hdisj hfree hfree') hf hf'

/-- `init` establishes the invariant, over exactly the frames of the free entries that its own
header leaves. -/
theorem init_sound {isvm : Bool} {a : PhysicalFrameAllocator} (hbb : bb.Regular)
    (h : init isvm bb = .ok a) :
    a.Sound ∧ ∀ f ∈ a.managed,
      (∃ e ∈ bb.entries, e.IsFree ∧ f.bytes ⊆ e.bytes) ∧ Disjoint f.bytes a.headerArea := by
  obtain ⟨pre, s, post, husable, hsegments, hle, hframe, -⟩ := init_cases h
  have hlaid := laid_of_regular hbb
  rw [husable] at hlaid
  have hstart : a.phyframe.startAddress = s.address := by
    rw [PhysFrame.startAddress, (frameContaining_eq_ok.mp hframe).2,
      Nat.div_mul_cancel (hlaid.paged s (by simp)).address]
  -- the header area is cut out of the segments before the bitmaps are written
  obtain ⟨hlaid', hheld⟩ := hlaid.dropFront (dvd_alignUp a.size pageSize) hle
  rw [← hsegments] at hlaid' hheld
  refine ⟨⟨fun t ht => ?_, List.pairwise_map.mp hlaid'.apart⟩, fun f hf => ?_⟩
  · exact t.wf_of_initBitmap (hlaid'.paged _ (List.mem_map_of_mem ht)) (initBitmap_of_init h ht)
  · have hf' : f ∈ heldBy (a.segments.map Segment.toSegmentHeader) := by
      simpa [heldBy, PhysicalFrameAllocator.managed, heldIn] using hf
    obtain ⟨hin, hdisj⟩ := (hheld f).mp hf'
    rw [← husable] at hin
    refine ⟨?_, by simpa [PhysicalFrameAllocator.headerArea, hstart] using hdisj⟩
    obtain ⟨t, ht, hft⟩ := hin
    simp only [BootBoot.usable, List.mem_map, List.mem_filter, List.mem_reverse,
      decide_eq_true_eq] at ht
    obtain ⟨e, ⟨he, hfree, -⟩, rfl⟩ := ht
    exact ⟨e, he, hfree,
      (MMapEnt.holds_header_iff (hbb.aligned e he hfree) (hbb.whole e he hfree)).mp hft⟩

/-! ## Runs of `palloc` and `pfree` -/

/-- **No double hand-out.**  After any run of `palloc` and `pfree` on the state that `init`
builds, the frames handed out are distinct, each lies inside one free entry of the memory map,
and none touches the header area. -/
theorem handed_out_distinct_inside_free {isvm : Bool} {a : PhysicalFrameAllocator}
    {l : Ledger PhysicalFrameAllocator PhysFrame} (hbb : bb.Regular) (h : init isvm bb = .ok a)
    (hrun : Ledger.Calls PhysicalFrameAllocator.pool ⟨a, []⟩ l) :
    l.handed.Nodup ∧
      (∀ f ∈ l.handed, ∃ e ∈ bb.entries, e.IsFree ∧ f.bytes ⊆ e.bytes) ∧
      ∀ f ∈ l.handed, Disjoint f.bytes a.headerArea := by
  obtain ⟨hsound, hmanaged⟩ := init_sound hbb h
  have hstart : Ledger.Exact PhysicalFrameAllocator.freeSet a.managed ⟨a, []⟩ :=
    ⟨hsound, rfl, List.nodup_nil, by simp⟩
  have hexact := hrun.exact hstart
  exact ⟨hexact.nodup, fun f hf => (hmanaged f (hexact.taken f hf).1).1,
    fun f hf => (hmanaged f (hexact.taken f hf).1).2⟩

end Regular

/-- A memory map with one free region of `n` pages at 1 MiB. -/
def oneRegion (n : ℕ) : BootBoot := ⟨bootBootSize, fun _ => ⟨0x100000, n * 4096 + 1⟩⟩

theorem oneRegion_entries (n : ℕ) : (oneRegion n).entries = [⟨0x100000, n * 4096 + 1⟩] := by
  simp [oneRegion, BootBoot.entries, BootBoot.mmapLen]

theorem oneRegion_regular (n : ℕ) : (oneRegion n).Regular := by
  refine ⟨?_, ?_, ?_⟩
  · simp [oneRegion_entries, pageSize]
  · simp only [oneRegion_entries, List.mem_singleton, forall_eq, MMapEnt.rawSize, pageSize]
    omega
  · simp [oneRegion_entries]

/-- The first page of the region, which holds the header of the allocator. -/
def headerFrame : PhysFrame := ⟨0x100, by decide⟩

/-- The allocator over a region of three pages, with the given bitmap word. -/
def threePagesPmm (word : BitVec 64) : PhysicalFrameAllocator where
  segments := [⟨.new 0x101000 0x2000, [word]⟩]
  size := 32
  phyframe := headerFrame

theorem init_threePages : init false (oneRegion 3) = .ok (threePagesPmm 0xfffffffffffffffc) := by
  decide +kernel

/-- The two frames of the region that `init` leaves. -/
def firstFrame : PhysFrame := ⟨0x101, by decide⟩

@[inherit_doc firstFrame]
def secondFrame : PhysFrame := ⟨0x102, by decide⟩

theorem take_first : (threePagesPmm 0xfffffffffffffffc).allocateFrame =
    .ok (some firstFrame, threePagesPmm 0xfffffffffffffffd) := by decide +kernel

theorem take_second : (threePagesPmm 0xfffffffffffffffd).allocateFrame =
    .ok (some secondFrame, threePagesPmm 0xffffffffffffffff) := by decide +kernel

/-- Two calls of `palloc` use up the region. -/
theorem handed_out_threePages :
    ∃ l : Ledger PhysicalFrameAllocator PhysFrame,
      Ledger.Calls PhysicalFrameAllocator.pool ⟨threePagesPmm 0xfffffffffffffffc, []⟩ l ∧
      l.handed = [⟨0x102, by decide⟩, ⟨0x101, by decide⟩] ∧ l.handed.Nodup ∧
      (∀ f ∈ l.handed, ∃ e ∈ (oneRegion 3).entries, e.IsFree ∧ f.bytes ⊆ e.bytes) ∧
      ∀ f ∈ l.handed, Disjoint f.bytes (threePagesPmm 0xfffffffffffffffc).headerArea := by
  have hrun : Ledger.Calls PhysicalFrameAllocator.pool ⟨threePagesPmm 0xfffffffffffffffc, []⟩
      ⟨threePagesPmm 0xffffffffffffffff, [secondFrame, firstFrame]⟩ :=
    .tail (.tail (.refl _) (.acquire take_first)) (.acquire take_second)
  exact ⟨_, hrun, rfl, handed_out_distinct_inside_free (oneRegion_regular 3) init_threePages hrun⟩

end HeliumOS.Mem
