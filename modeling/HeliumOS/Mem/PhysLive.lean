import HeliumOS.Mem.PhysInit

/-!
# Progress of the Physical Memory Manager

A sound allocator whose segments end inside the physical address space does not panic, and the
state that `init` builds has a free frame for every page but the padding of its last word.

- `PhysicalFrameAllocator.live` is the progress half of the free-set abstraction.
- `hasFree_of_initBitmap` counts the frames of a fresh segment.
-/

namespace HeliumOS.Mem

open HeliumOS.Lib HeliumOS.Lib.AllocProg

/-- The segments end inside the physical address space. -/
def InSpace (segs : List Segment) : Prop := ∀ s ∈ segs, s.address + s.size < 2 ^ 52

theorem InSpace.tail {s : Segment} {segs : List Segment} (h : InSpace (s :: segs)) :
    InSpace segs := fun t ht => h t (List.mem_cons_of_mem _ ht)

theorem InSpace.cons {s : Segment} {segs segs' : List Segment} (h : InSpace (s :: segs))
    (h' : InSpace segs') : InSpace (s :: segs') := by
  simpa [InSpace] using ⟨h s (by simp), h'⟩

theorem InSpace.replace_head {s : Segment} {segs : List Segment} (h : InSpace (s :: segs))
    (bitmap : List (BitVec 64)) : InSpace ({ s with bitmap } :: segs) := by
  simpa [InSpace] using h

theorem allocateIn_live {segs : List Segment} (hs : SegmentsSound segs) (hspace : InSpace segs) :
    allocateIn segs = .ok none ∨
      ∃ f segs', allocateIn segs = .ok (some (f, segs')) ∧ InSpace segs' := by
  have hmarked : Marked segs := fun s hmem => (hs.wf s hmem).paged.magic
  -- a clear bit belongs to a page of the segment, so that its address exists
  have haddr : Addressed segs := by
    intro s hmem k hk
    have hpage := (hs.wf s hmem).lt_pages_of_clear hk
    have hend := hspace s hmem
    simp only [pageSize] at hpage ⊢
    omega
  obtain ⟨r, hr⟩ := allocateIn_returns hmarked haddr
  rcases allocateIn_cases hr with ⟨rfl, -⟩ | ⟨pre, s, post, k, f, rfl, -, -, -, rfl⟩
  · exact .inl hr
  · refine .inr ⟨f, _, hr, ?_⟩
    rw [InSpace, List.forall_mem_append, List.forall_mem_cons] at hspace ⊢
    exact hspace

/-- `deallocate_frame` does not panic, on any frame: all ends of segments can be computed. -/
theorem deallocateIn_live {segs : List Segment} (hs : SegmentsSound segs) (hspace : InSpace segs)
    (f : PhysFrame) : ∃ segs', deallocateIn f.startAddress segs = .ok segs' ∧ InSpace segs' := by
  induction segs with
  | nil => exact ⟨[], rfl, hspace⟩
  | cons s rest ih =>
    -- the end of the segment is a physical address
    have hrange : ∃ b, s.inRange f.startAddress = .ok b := by
      simp only [SegmentHeader.inRange]
      split_ifs
      · rw [physAddr_eq_ok.mpr ⟨hspace s (by simp), rfl⟩]
        exact ⟨_, rfl⟩
      · exact ⟨_, rfl⟩
    obtain ⟨b, hb⟩ := hrange
    simp only [deallocateIn, hb, except_ok_bind]
    cases b with
    | true =>
      have hf : s.Holds f := (hs.head.paged.inRange_eq_ok hb).mp rfl
      -- the bitmap covers all pages of the segment
      have hindex : (f.startAddress - s.address) / pageSize / 64 < s.bitmap.length :=
        Bitmap.div_lt_length (hs.head.index_lt_capacity hf)
      simp only [if_true, ensure_of hindex, except_ok_bind]
      exact ⟨_, rfl, hspace.replace_head _⟩
    | false =>
      obtain ⟨segs', hrec, hspace'⟩ := ih hs.tail hspace.tail
      exact ⟨s :: segs', by simp [hrec], hspace.cons hspace'⟩

namespace PhysicalFrameAllocator

/-- `palloc` and `pfree` do not panic on a sound allocator inside the address space. -/
theorem live : Live freeSet fun a => InSpace a.segments where
  acquire {a} hs hspace := by
    rcases allocateIn_live hs hspace with hnone | ⟨f, segments, hsome, hspace'⟩
    · exact ⟨none, a, by simp [pool, allocateFrame, hnone], hspace⟩
    · exact ⟨some f, { a with segments }, by simp [pool, allocateFrame, hsome], hspace'⟩
  release {a} f hs hspace := by
    obtain ⟨segments, hok, hspace'⟩ := deallocateIn_live hs hspace f
    exact ⟨{ a with segments }, by simp [pool, deallocateFrame, hok], hspace'⟩

end PhysicalFrameAllocator

/-- The frames of a fresh segment below the padding of its last word are free. -/
theorem hasFree_of_initBitmap {s : Segment} {n : ℕ} (hs : s.toSegmentHeader.Paged)
    (h : initBitmap s.toSegmentHeader = .ok s.bitmap) (hspace : s.address + s.size < 2 ^ 52)
    (hn : n ≤ 64 * (s.bitmapU64len - 1) + s.size / pageSize % 64)
    (hn' : n ≤ s.size / pageSize) : HasFree n (freeIn [s]) := by
  obtain ⟨hlen, hbit⟩ := bit_initBitmap h
  have hcap := pages_le_capacity s.toSegmentHeader
  have hlt : ∀ k : Fin n, s.address / pageSize + k.val < 2 ^ 40 := by
    intro k
    have := k.isLt
    simp only [pageSize] at hn' ⊢
    omega
  -- the first `n` frames of the segment are free
  refine .of_injective (g := fun k => ⟨s.address / pageSize + k.val, hlt k⟩) ?_ fun k => ?_
  -- different positions are different frames
  · intro k k' hkk
    rw [PhysFrame.mk.injEq] at hkk
    ext
    omega
  · have hk := k.isLt
    refine ⟨s, by simp, (hs.holds_iff _).mpr ⟨Nat.le_add_right _ _, ?_⟩, ?_⟩
    · change s.address / pageSize + k.val < _
      omega
    · have hindex : s.index ⟨s.address / pageSize + k.val, hlt k⟩ = k.val := by
        rw [hs.index_eq]
        exact Nat.add_sub_cancel_left _ _
      rw [hindex, hbit k.val (by omega), decide_eq_false_iff_not]
      omega

/-- The allocator over a region of 4096 pages, as `init` leaves it. -/
def freshPmm : PhysicalFrameAllocator where
  segments := [⟨.new 0x101000 0xfff000,
    (List.replicate 64 0).set 63 (BitVec.allOnes 64 <<< 63)⟩]
  size := 536
  phyframe := headerFrame

theorem init_freshPmm : init false (oneRegion 4096) = .ok freshPmm := by decide +kernel

theorem freshPmm_sound : freshPmm.Sound := (init_sound (oneRegion_regular 4096) init_freshPmm).1

theorem freshPmm_inSpace : InSpace freshPmm.segments := by
  simp [InSpace, freshPmm, SegmentHeader.new]

theorem freshPmm_hasFree : HasFree 4095 freshPmm.free := by
  refine hasFree_of_initBitmap ⟨rfl, ?_, ?_⟩ (by decide +kernel) ?_ ?_ ?_
  · exact ⟨0x101, rfl⟩
  · exact ⟨0xfff, rfl⟩
  all_goals decide

/-- Free frames lie in the pages of the segments. -/
theorem num_of_mem_free {a : PhysicalFrameAllocator} {f : PhysFrame} (lo hi : ℕ)
    (h : ∀ s ∈ a.segments, lo * pageSize ≤ s.address ∧ s.address + s.size ≤ hi * pageSize)
    (hf : f ∈ a.free) : lo ≤ f.num ∧ f.num < hi := by
  obtain ⟨s, hs, hholds, -⟩ := hf
  obtain ⟨hlo, hhi⟩ := h s hs
  simp only [SegmentHeader.Holds, PhysFrame.startAddress, pageSize] at hholds hlo hhi
  omega

/-- An allocator over `n` pages, with the bitmap that `init` writes for them. -/
def pagesPmm (n : ℕ) : PhysicalFrameAllocator where
  segments := [⟨.new 0x101000 (n * pageSize),
    (List.replicate (SegmentHeader.new 0x101000 (n * pageSize)).bitmapU64len 0).set
      ((SegmentHeader.new 0x101000 (n * pageSize)).bitmapU64len - 1)
      (BitVec.allOnes 64 <<< (n * pageSize / pageSize % 64))⟩]
  size := (SegmentHeader.new 0x101000 (n * pageSize)).bitmapSize + SegmentHeader.byteSize
  phyframe := headerFrame

section Pages

variable {n : ℕ}

theorem pagesPmm_bitmap (hn : 0 < n) :
    ∀ s ∈ (pagesPmm n).segments, s.toSegmentHeader.Paged ∧
      initBitmap s.toSegmentHeader = .ok s.bitmap := by
  have hlen : (SegmentHeader.new 0x101000 (n * pageSize)).bitmapU64len ≠ 0 := by
    simp only [SegmentHeader.bitmapU64len, SegmentHeader.bitmapSize, SegmentHeader.new, alignUp,
      pageSize]
    omega
  rw [pagesPmm, List.forall_mem_singleton]
  exact ⟨⟨rfl, ⟨0x101, rfl⟩, ⟨n, Nat.mul_comm _ _⟩⟩, if_neg hlen⟩

theorem pagesPmm_sound (hn : 0 < n) : (pagesPmm n).Sound := by
  refine ⟨fun s hs => ?_, List.pairwise_singleton _ _⟩
  obtain ⟨hpaged, hbitmap⟩ := pagesPmm_bitmap hn s hs
  exact s.wf_of_initBitmap hpaged hbitmap

theorem pagesPmm_inSpace (hn : n < 2 ^ 39) : InSpace (pagesPmm n).segments := by
  simp only [InSpace, pagesPmm, List.forall_mem_singleton, SegmentHeader.new, pageSize]
  omega

/-- A page count that is no multiple of 64 loses no page. -/
theorem pagesPmm_hasFree (hn : n < 2 ^ 39) (hmod : n % 64 ≠ 0) : HasFree n (pagesPmm n).free := by
  obtain ⟨hpaged, hbitmap⟩ := List.forall_mem_singleton.mp (pagesPmm_bitmap (n := n) (by omega))
  refine hasFree_of_initBitmap hpaged hbitmap ?_ ?_ ?_
  · exact pagesPmm_inSpace hn _ (List.mem_singleton_self _)
  · simp only [SegmentHeader.bitmapU64len, SegmentHeader.bitmapSize, SegmentHeader.new, alignUp,
      pageSize]
    omega
  · simp only [SegmentHeader.new, pageSize]
    omega

theorem num_of_mem_pagesPmm_free {f : PhysFrame} (hf : f ∈ (pagesPmm n).free) : 0x101 ≤ f.num := by
  refine (num_of_mem_free 0x101 (0x101 + n) ?_ hf).1
  simp only [pagesPmm, List.forall_mem_singleton, SegmentHeader.new, pageSize]
  omega

end Pages

/-- Only frames above the header are managed. -/
theorem num_of_mem_freshPmm_free {f : PhysFrame} (hf : f ∈ freshPmm.free) : 0x101 ≤ f.num :=
  (num_of_mem_free 0x101 0x1100 (by decide) hf).1

end HeliumOS.Mem
