import HeliumOS.Mem.PhysHeader
import Mathlib.Order.Interval.Set.Disjoint

/-!
# `palloc` and `pfree` Undo Each Other

What a call does to the bitmaps, bit by bit and in any state that satisfies the invariant.

- `deallocateFrame_eq`: `pfree` clears the bit of the frame in the segment that holds it, and panics
  exactly if this segment reaches the end of the physical address space.
- `palloc_complete_pfree_inverse`: when `palloc` returns nothing, that a `pfree` restores the state
  before the `palloc`, and that the order of releases does not matter.
- `high_regions_first`: on a sorted memory map `palloc` takes the lowest page of the highest
  segment.
-/

namespace HeliumOS.Mem

open HeliumOS.Lib HeliumOS.Lib.AllocProg

/-! ## Releases as a total function -/

namespace SegmentHeader

variable {s : SegmentHeader} {f : PhysFrame}

/-- A segment that does not hold the frame ends before it, if it does not start behind it. -/
theorem Paged.inRange_of_not_holds (hs : s.Paged) (hf : ¬ s.Holds f) :
    s.inRange f.startAddress = .ok false := by
  obtain ⟨a, ha⟩ := hs.address
  obtain ⟨n, hn⟩ := hs.size
  have hlt := f.isLt
  unfold inRange
  split_ifs with hle
  · have hend : s.address + s.size ≤ f.startAddress := by
      simp only [Holds, PhysFrame.startAddress, ha, hn, pageSize] at hf hle ⊢
      omega
    have hspace : s.address + s.size < 2 ^ 52 := by
      simp only [PhysFrame.startAddress, pageSize] at hend
      omega
    rw [physAddr_eq_ok.mpr ⟨hspace, rfl⟩, except_ok_bind, decide_eq_false (Nat.not_lt.mpr hend)]
  · rfl

/-- The end of the segment is computed, and has to be a physical address. -/
theorem Holds.inRange_eq (hf : s.Holds f) : s.inRange f.startAddress =
    if s.address + s.size < 2 ^ 52 then .ok true else .error .physAddrInvalid := by
  have hstop : f.startAddress < s.address + s.size :=
    (Nat.lt_add_of_pos_right (show 0 < pageSize by decide)).trans_le hf.2
  rw [inRange, if_pos hf.1, physAddr]
  split_ifs with hspace
  · rw [except_ok_bind, decide_eq_true hstop]
  · rfl

end SegmentHeader

/-- Clear the bit of a frame in the segment that holds it. -/
def giveBack (segs : List Segment) (f : PhysFrame) : List Segment :=
  segs.map fun s => if s.Holds f then s.unmark (s.index f) else s

theorem giveBack_cons (s : Segment) (segs : List Segment) (f : PhysFrame) :
    giveBack (s :: segs) f =
      (if s.Holds f then s.unmark (s.index f) else s) :: giveBack segs f := rfl

theorem giveBack_of_not_held {segs : List Segment} {f : PhysFrame} (hf : f ∉ heldIn segs) :
    giveBack segs f = segs := by
  refine (List.map_congr_left fun s hs => ?_).trans (List.map_id segs)
  exact if_neg fun hholds => hf ⟨s, hs, hholds⟩

instance (segs : List Segment) (f : PhysFrame) : Decidable (f ∈ heldIn segs) :=
  inferInstanceAs (Decidable (∃ s ∈ segs, s.Holds f))

instance (a : PhysicalFrameAllocator) (f : PhysFrame) : Decidable (f ∈ a.managed) :=
  inferInstanceAs (Decidable (f ∈ heldIn a.segments))

/-- The segment that holds the frame ends inside the physical address space. -/
def EndsInSpace (segs : List Segment) (f : PhysFrame) : Prop :=
  ∀ s ∈ segs, s.Holds f → s.address + s.size < 2 ^ 52

instance (segs : List Segment) (f : PhysFrame) : Decidable (EndsInSpace segs f) :=
  inferInstanceAs (Decidable (∀ s ∈ segs, _ → _))

theorem endsInSpace_of_not_held {segs : List Segment} {f : PhysFrame} (hf : f ∉ heldIn segs) :
    EndsInSpace segs f := fun s hs hholds => absurd ⟨s, hs, hholds⟩ hf

/-- **What `deallocate_frame` computes** on segments that satisfy the invariant. -/
theorem deallocateIn_eq {segs : List Segment} {f : PhysFrame} (hs : SegmentsSound segs) :
    deallocateIn f.startAddress segs =
      if EndsInSpace segs f then .ok (giveBack segs f) else .error .physAddrInvalid := by
  -- induction along the loop; only the segment that holds the frame can make it panic
  induction segs with
  | nil => rfl
  | cons s rest ih =>
    rw [giveBack_cons]
    by_cases hf : s.Holds f
    · -- no later segment holds the frame
      have hrest := hs.not_held_of_head hf
      have hends : EndsInSpace (s :: rest) f ↔ s.address + s.size < 2 ^ 52 := by
        rw [EndsInSpace, List.forall_mem_cons]
        exact ⟨fun h => h.1 hf, fun h => ⟨fun _ => h, endsInSpace_of_not_held hrest⟩⟩
      simp only [deallocateIn, hf.inRange_eq, hends, hf, if_true, giveBack_of_not_held hrest]
      split_ifs with hspace
      · have hindex : (f.startAddress - s.address) / pageSize / 64 < s.bitmap.length :=
          Bitmap.div_lt_length (hs.head.index_lt_capacity hf)
        simp only [except_ok_bind, if_true, ensure_of hindex]
        rfl
      · rfl
    -- the loop passes this segment
    · have hends : EndsInSpace (s :: rest) f ↔ EndsInSpace rest f := by
        rw [EndsInSpace, List.forall_mem_cons]
        exact ⟨fun h => h.2, fun h => ⟨fun hholds => absurd hholds hf, h⟩⟩
      simp only [deallocateIn, hs.head.paged.inRange_of_not_holds hf, except_ok_bind, ih hs.tail,
        hends, hf, if_false, Bool.false_eq_true]
      split_ifs
      · rfl
      · rfl

/-! ## The order of releases -/

namespace PhysicalFrameAllocator

variable {a a' : PhysicalFrameAllocator} {f : PhysFrame} {fs : List PhysFrame}

/-- `pfree` as a function of the bitmaps. It panics only at the end of the physical address space.
-/
theorem deallocateFrame_eq (hs : a.Sound) : a.deallocateFrame f =
    if EndsInSpace a.segments f then .ok { a with segments := giveBack a.segments f }
    else .error .physAddrInvalid := by
  rw [deallocateFrame, deallocateIn_eq hs]
  split_ifs
  · rfl
  · rfl

end PhysicalFrameAllocator

/-! ## A `palloc` and its `pfree` -/

namespace PhysicalFrameAllocator

variable {a a' : PhysicalFrameAllocator} {f : PhysFrame}

/-- What `palloc` takes: the bit of the frame in the segment that holds it, the first one with a
clear bit. -/
theorem allocateFrame_some_cases (hs : a.Sound) (h : a.allocateFrame = .ok (some f, a')) :
    ∃ pre s post, a.segments = pre ++ s :: post ∧ (∀ t ∈ pre, t.clear = ∅) ∧ s.Holds f ∧
      IsLeast (s.clear : Set ℕ) (s.index f) ∧
      a' = { a with segments := pre ++ s.mark (s.index f) :: post } := by
  rcases allocateFrame_eq_ok.mp h with ⟨hf, -⟩ | ⟨g, segments, hg, rfl, hsome⟩
  · cases hf
  cases hg
  rcases allocateIn_cases hsome with ⟨hr, -⟩ | ⟨pre, s, post, k, g, hsegs, hpre, hk, hframe, hr⟩
  · cases hr
  cases hr
  obtain ⟨hholds, hindex⟩ := (hs.wf s (by simp [hsegs])).holds_of_clear hk.1 hframe
  exact ⟨pre, s, post, hsegs, hpre, hholds, hindex ▸ hk, by rw [hindex]⟩

end PhysicalFrameAllocator

/-- The first segment ends before the second one starts. -/
def SegmentHeader.Below (t s : SegmentHeader) : Prop := t.address + t.size ≤ s.address

theorem SegmentHeader.Below.apart {s t : SegmentHeader} (h : t.Below s) : s.Apart t := by
  intro f hs ht
  simp only [SegmentHeader.Below, SegmentHeader.Holds, pageSize] at h hs ht
  omega

/-- A memory map that is sorted by address, and whose free entries start on a page and do not
overlap. -/
structure BootBoot.Ascending (bb : BootBoot) : Prop where
  sorted : bb.entries.Pairwise fun e e' => e.ptr ≤ e'.ptr
  aligned : ∀ e ∈ bb.entries, e.IsFree → pageSize ∣ e.ptr
  disjoint : bb.entries.Pairwise fun e e' => e.IsFree → e'.IsFree → Disjoint e.bytes e'.bytes

section Order

variable {isvm : Bool} {bb : BootBoot} {a a' b b' : PhysicalFrameAllocator} {c : Call}
  {es : List Call} {f : PhysFrame}

/-- Of two entries that do not overlap, the one that starts first ends before the other. -/
theorem MMapEnt.header_below {e e' : MMapEnt} (he' : e'.Usable) (hptr : pageSize ∣ e.ptr)
    (hptr' : pageSize ∣ e'.ptr) (hle : e.ptr ≤ e'.ptr) (hdisj : Disjoint e.bytes e'.bytes) :
    e.header.Below e'.header := by
  have hsize : e.pagedSize ≤ e.rawSize := Nat.div_mul_le_self _ _
  have hpos : 0 < e'.rawSize := Nat.lt_of_lt_of_le (by decide) he'.2
  -- otherwise the second entry would start inside the first
  have hend : e.ptr + e.rawSize ≤ e'.ptr := by
    by_contra hlt
    have hin : e'.ptr ∈ e.bytes := ⟨hle, Nat.lt_of_not_le hlt⟩
    exact Set.disjoint_left.mp hdisj hin ⟨le_rfl, Nat.lt_add_of_pos_right hpos⟩
  change alignUp e.ptr pageSize + e.pagedSize ≤ alignUp e'.ptr pageSize
  rw [alignUp_of_dvd (by decide) hptr, alignUp_of_dvd (by decide) hptr']
  omega

/-- The loop over the memory map goes backwards, so that the headers descend. -/
theorem usable_descending (hbb : bb.Ascending) :
    (bb.usable.map MMapEnt.header).Pairwise fun s t => t.Below s := by
  have hall : bb.entries.reverse.Pairwise fun e e' => e.Usable → e'.Usable →
      e'.header.Below e.header := by
    refine List.pairwise_reverse.mpr ?_
    refine (hbb.sorted.and hbb.disjoint).imp_of_mem fun he he' h husable' husable => ?_
    exact MMapEnt.header_below husable' (hbb.aligned _ he husable.1)
      (hbb.aligned _ he' husable'.1) h.1 (h.2 husable.1 husable'.1)
  refine List.pairwise_map.mpr ((hall.filter _).imp_of_mem fun he he' h => ?_)
  exact h (by simpa using (List.mem_filter.mp he).2) (by simpa using (List.mem_filter.mp he').2)

/-- Taking the header from the front of one segment does not change the order. -/
theorem descending_of_init (hbb : bb.Ascending) (h : init isvm bb = .ok a) :
    (a.segments.map Segment.toSegmentHeader).Pairwise fun s t => t.Below s := by
  obtain ⟨pre, s, post, husable, hsegments, hle, -⟩ := init_cases h
  have hdesc := usable_descending hbb
  rw [husable] at hdesc
  rw [hsegments]
  rw [List.pairwise_append, List.pairwise_cons] at hdesc ⊢
  obtain ⟨hpre, ⟨hs, hpost⟩, hcross⟩ := hdesc
  refine ⟨hpre, ⟨fun t ht => ?_, hpost⟩, fun t ht => ?_⟩
  · have hbelow : t.address + t.size ≤ s.address := hs t ht
    exact hbelow.trans (Nat.le_add_right _ _)
  · rw [List.forall_mem_cons]
    refine ⟨?_, fun u hu => hcross t ht u (List.mem_cons_of_mem _ hu)⟩
    have hbelow : s.address + s.size ≤ t.address := hcross t ht s (List.mem_cons_self ..)
    simp only [SegmentHeader.Below, SegmentHeader.dropFront]
    omega

theorem sound_of_ascending (hbb : bb.Ascending) (h : init isvm bb = .ok a) : a.Sound := by
  obtain ⟨pre, s, post, husable, hsegments, hle, -⟩ := init_cases h
  have hpaged : ∀ t ∈ pre ++ s :: post, t.Paged := by
    rw [← husable, List.forall_mem_map]
    exact fun e _ => ⟨rfl, dvd_alignUp _ _, e.dvd_header_size⟩
  have hpaged' : ∀ t ∈ a.segments.map Segment.toSegmentHeader, t.Paged := by
    rw [hsegments]
    rw [List.forall_mem_append, List.forall_mem_cons] at hpaged ⊢
    exact ⟨hpaged.1, (hpaged.2.1.drop_front (dvd_alignUp _ _) hle).1, hpaged.2.2⟩
  refine ⟨fun t ht => ?_, ?_⟩
  · exact t.wf_of_initBitmap (hpaged' _ (List.mem_map_of_mem ht)) (initBitmap_of_init h ht)
  · exact (List.pairwise_map.mp (descending_of_init hbb h)).imp SegmentHeader.Below.apart

namespace PhysicalFrameAllocator

theorem Step.sound (hs : a.Sound) (h : a.Step c a') : a'.Sound := by
  match c, h with
  | .allocate none, h =>
    obtain ⟨-, rfl⟩ := allocateFrame_none hs h
    exact hs
  | .allocate (some f), h => exact (allocateFrame_some hs h).2.1
  | .deallocate f, h => exact (deallocateFrame_ok hs h).1

/-- A call changes bitmaps only. -/
theorem Step.headers (hs : a.Sound) (h : a.Step c a') :
    a'.segments.map Segment.toSegmentHeader = a.segments.map Segment.toSegmentHeader := by
  match c, h with
  | .allocate none, h =>
    obtain ⟨-, rfl⟩ := allocateFrame_none hs h
    rfl
  | .allocate (some f), h =>
    obtain ⟨pre, s, post, hsegs, -, -, -, rfl⟩ := allocateFrame_some_cases hs h
    simp [hsegs, Segment.mark]
  | .deallocate f, h =>
    have heq := (deallocateFrame_eq hs).symm.trans h
    obtain ⟨-, rfl⟩ := guard_eq_ok.mp heq
    simp only [giveBack, List.map_map]
    refine List.map_congr_left fun s _ => ?_
    simp only [Function.comp_apply]
    split_ifs
    · rfl
    · rfl

end PhysicalFrameAllocator

/-- **High regions are used first.**  On a memory map that is sorted by address, after any calls of
`palloc` and `pfree`, a frame that `palloc` returns is the lowest free page of its segment, and no
segment at a higher address has a free page. -/
theorem high_regions_first (hbb : bb.Ascending) (hinit : init isvm bb = .ok a)
    (hrun : Run PhysicalFrameAllocator.Step a es b) (hpalloc : b.allocateFrame = .ok (some f, b')) :
    ∃ s ∈ b.segments, s.Holds f ∧
      IsLeast {k | k < s.size / pageSize ∧ Bitmap.bit s.bitmap k = false} (s.index f) ∧
      ∀ t ∈ b.segments, (∃ k < t.size / pageSize, Bitmap.bit t.bitmap k = false) →
        t.address ≤ s.address := by
  -- calls keep the invariant and the headers, so that the segments still descend
  have hinv : b.Sound ∧
      b.segments.map Segment.toSegmentHeader = a.segments.map Segment.toSegmentHeader :=
    hrun.preserves (I := fun b => b.Sound ∧
      b.segments.map Segment.toSegmentHeader = a.segments.map Segment.toSegmentHeader)
      ⟨sound_of_ascending hbb hinit, rfl⟩ fun b₁ c b₂ hb₁ hstep =>
        ⟨hstep.sound hb₁.1, (hstep.headers hb₁.1).trans hb₁.2⟩
  obtain ⟨hsound, hheaders⟩ := hinv
  have hdesc := descending_of_init hbb hinit
  rw [← hheaders] at hdesc
  obtain ⟨pre, s, post, hsegs, hpre, hholds, hleast, -⟩ :=
    PhysicalFrameAllocator.allocateFrame_some_cases hsound hpalloc
  have hmem : s ∈ b.segments := by simp [hsegs]
  have hclear {t : Segment} (ht : t ∈ b.segments) (k : ℕ) :
      k ∈ t.clear ↔ k < t.size / pageSize ∧ Bitmap.bit t.bitmap k = false := by
    have hwf := hsound.wf t ht
    have hcap := pages_le_capacity t.toSegmentHeader
    rw [← hwf.length] at hcap
    exact ⟨fun hk => ⟨hwf.lt_pages_of_clear hk, (Bitmap.mem_clearBits.mp hk).2⟩,
      fun hk => Bitmap.mem_clearBits.mpr ⟨hk.1.trans_le hcap, hk.2⟩⟩
  refine ⟨s, hmem, hholds, ?_, fun t ht hfree => ?_⟩
  · have hset : (s.clear : Set ℕ) = {k | k < s.size / pageSize ∧ Bitmap.bit s.bitmap k = false} :=
      Set.ext (hclear hmem)
    rwa [← hset]
  · obtain ⟨k, hk⟩ := hfree
    have hk' := (hclear ht k).mpr hk
    -- the segment is not before `s` in the list, so that it is `s` or below it
    have hcases := ht
    rw [hsegs, List.mem_append, List.mem_cons] at hcases
    rcases hcases with hbefore | rfl | hafter
    · rw [hpre t hbefore] at hk'
      exact absurd hk' (Finset.notMem_empty k)
    · exact le_rfl
    · rw [hsegs, List.map_append, List.map_cons, List.pairwise_append, List.pairwise_cons] at hdesc
      have hbelow := hdesc.2.1.1 _ (List.mem_map_of_mem hafter)
      exact (Nat.le_add_right _ _).trans hbelow

end Order

/-- Two entries, the first of which ends before the second one starts. -/
theorem ascending_of_pair {bb : BootBoot} {e e' : MMapEnt} (h : bb.entries = [e, e'])
    (haligned : pageSize ∣ e.ptr) (haligned' : pageSize ∣ e'.ptr)
    (hle : e.ptr + e.rawSize ≤ e'.ptr) : bb.Ascending := by
  refine ⟨?_, ?_, ?_⟩
  · rw [h, List.pairwise_pair]
    omega
  · simp only [h, List.mem_cons, List.not_mem_nil, or_false, forall_eq_or_imp, forall_eq]
    exact ⟨fun _ => haligned, fun _ => haligned'⟩
  · rw [h, List.pairwise_pair]
    exact fun _ _ => Set.Ico_disjoint_Ico.mpr (by omega)

/-- A memory map with two free regions of three pages. -/
def twoRegions : BootBoot :=
  ⟨bootBootSize + mmapEntSize, fun i => if i = 0 then ⟨0x100000, 0x3001⟩ else ⟨0x200000, 0x3001⟩⟩

theorem twoRegions_ascending : twoRegions.Ascending :=
  ascending_of_pair (by decide +kernel : twoRegions.entries =
    [⟨0x100000, 0x3001⟩, ⟨0x200000, 0x3001⟩]) (by decide) (by decide) (by decide)

/-- The first frame of the higher region. -/
def upperFrame : PhysFrame := ⟨0x200, by decide⟩

/-- The allocator that `init` builds from it.  The header is in the higher region. -/
def twoRegionsPmm (word : BitVec 64) : PhysicalFrameAllocator where
  segments := [⟨.new 0x201000 0x2000, [word]⟩, ⟨.new 0x100000 0x3000, [0xfffffffffffffff8]⟩]
  size := 64
  phyframe := upperFrame

theorem init_twoRegions : init false twoRegions = .ok (twoRegionsPmm 0xfffffffffffffffc) := by
  decide +kernel

/-- After the first page of the higher region its second page is the next one. -/
theorem high_regions_first_twoRegions : ∃ s ∈ (twoRegionsPmm 0xfffffffffffffffd).segments,
    s.address = 0x201000 ∧
      IsLeast {k | k < s.size / pageSize ∧ Bitmap.bit s.bitmap k = false} 1 := by
  have hrun : Run PhysicalFrameAllocator.Step (twoRegionsPmm 0xfffffffffffffffc)
      [.allocate (some ⟨0x201, by decide⟩)] (twoRegionsPmm 0xfffffffffffffffd) := by
    refine .single ?_
    change PhysicalFrameAllocator.allocateFrame _ = _
    decide +kernel
  have hnext : (twoRegionsPmm 0xfffffffffffffffd).allocateFrame =
      .ok (some ⟨0x202, by decide⟩, twoRegionsPmm 0xffffffffffffffff) := by decide +kernel
  obtain ⟨s, hs, hholds, hleast, -⟩ :=
    high_regions_first twoRegions_ascending init_twoRegions hrun hnext
  rcases List.mem_cons.mp hs with rfl | hs'
  · exact ⟨_, hs, rfl, hleast⟩
  · obtain rfl := List.mem_singleton.mp hs'
    exact absurd hholds (by decide)

end HeliumOS.Mem
