import HeliumOS.Mem.Phys

/-!
# Soundness of the Physical Memory Manager

The bitmaps are read as a set of free frames.

- `Segment.Wf` ties the words of a bitmap, padding bits included, to the page count of its
  segment; `PhysicalFrameAllocator.Sound` asks it of every segment and asks the segments to be
  apart.
- `allocateIn_cases` and `deallocateIn_cases` say what a call does to the bitmap of one segment.
- `PhysicalFrameAllocator.freeSet` shows that `allocate_frame` and `deallocate_frame` act on
  the free set as taking and returning one element, and keep the invariant.
-/

namespace HeliumOS.Mem

open HeliumOS.Lib

/-! ## Frames of a segment -/

/-- The frame lies wholly inside the segment. -/
def SegmentHeader.Holds (s : SegmentHeader) (f : PhysFrame) : Prop :=
  s.address ≤ f.startAddress ∧ f.startAddress + pageSize ≤ s.address + s.size

/-- Two segments without a common frame. -/
def SegmentHeader.Apart (s t : SegmentHeader) : Prop := ∀ f, s.Holds f → ¬ t.Holds f

theorem SegmentHeader.Apart.symm {s t : SegmentHeader} (h : s.Apart t) : t.Apart s :=
  fun f ht hs => h f hs ht

/-- A segment of whole pages. -/
structure SegmentHeader.Paged (s : SegmentHeader) : Prop where
  magic : s.magic = SegmentHeader.MAGIC
  address : pageSize ∣ s.address
  size : pageSize ∣ s.size

/-- Position of a frame in the bitmap, as `deallocate_frame` computes it. -/
def SegmentHeader.index (s : SegmentHeader) (f : PhysFrame) : ℕ :=
  (f.startAddress - s.address) / pageSize

theorem SegmentHeader.Paged.holds_iff {s : SegmentHeader} (hs : s.Paged) (f : PhysFrame) :
    s.Holds f ↔ s.address / pageSize ≤ f.num ∧
      f.num < s.address / pageSize + s.size / pageSize := by
  obtain ⟨a, ha⟩ := hs.address
  obtain ⟨n, hn⟩ := hs.size
  simp only [SegmentHeader.Holds, PhysFrame.startAddress, ha, hn, pageSize]
  omega

theorem SegmentHeader.Paged.index_eq {s : SegmentHeader} (hs : s.Paged) (f : PhysFrame) :
    s.index f = f.num - s.address / pageSize := by
  obtain ⟨a, ha⟩ := hs.address
  simp only [SegmentHeader.index, PhysFrame.startAddress, ha, pageSize]
  omega

/-- Inside one segment a frame is determined by its position. -/
theorem SegmentHeader.Paged.eq_of_index_eq {s : SegmentHeader} (hs : s.Paged) {f g : PhysFrame}
    (hf : s.Holds f) (hg : s.Holds g) (h : s.index f = s.index g) : f = g := by
  rw [hs.holds_iff] at hf hg
  rw [hs.index_eq, hs.index_eq] at h
  ext
  omega

theorem SegmentHeader.Paged.index_lt {s : SegmentHeader} (hs : s.Paged) {f : PhysFrame}
    (hf : s.Holds f) : s.index f < s.size / pageSize := by
  rw [hs.holds_iff] at hf
  rw [hs.index_eq]
  omega

/-- `in_range` on a frame decides whether the segment holds it. -/
theorem SegmentHeader.Paged.inRange_eq_ok {s : SegmentHeader} (hs : s.Paged) {f : PhysFrame}
    {b : Bool} (h : s.inRange f.startAddress = .ok b) : b = true ↔ s.Holds f := by
  obtain ⟨a, ha⟩ := hs.address
  obtain ⟨n, hn⟩ := hs.size
  unfold SegmentHeader.inRange at h
  split_ifs at h with hle
  · simp only [except_bind_eq_ok, physAddr_eq_ok, Except.ok.injEq] at h
    obtain ⟨stop, ⟨-, rfl⟩, rfl⟩ := h
    simp only [decide_eq_true_eq, SegmentHeader.Holds, PhysFrame.startAddress, ha, hn,
      pageSize] at hle ⊢
    omega
  · cases h
    simp [SegmentHeader.Holds, hle]

/-! ## The bitmap of a segment -/

/-- Representation invariant: the bitmap has room for every page, and its bits beyond the last
page are set. -/
structure Segment.Wf (s : Segment) : Prop where
  paged : s.toSegmentHeader.Paged
  length : s.bitmap.length = s.bitmapU64len
  padding : ∀ k, s.size / pageSize ≤ k → k < 64 * s.bitmap.length → Bitmap.bit s.bitmap k = true

/-- The frame belongs to the segment and its bit is clear. -/
def Segment.IsFree (s : Segment) (f : PhysFrame) : Prop :=
  s.Holds f ∧ Bitmap.bit s.bitmap (s.index f) = false

instance (s : SegmentHeader) (f : PhysFrame) : Decidable (s.Holds f) :=
  inferInstanceAs (Decidable (_ ∧ _))

instance (s : Segment) (f : PhysFrame) : Decidable (s.IsFree f) :=
  inferInstanceAs (Decidable (_ ∧ _))

theorem bitmapU64len_mul (s : SegmentHeader) :
    64 * s.bitmapU64len = alignUp (s.size / pageSize) 64 := by
  obtain ⟨k, hk⟩ := dvd_alignUp (s.size / pageSize) 64
  simp only [SegmentHeader.bitmapU64len, SegmentHeader.bitmapSize, hk]
  omega

theorem pages_le_capacity (s : SegmentHeader) : s.size / pageSize ≤ 64 * s.bitmapU64len := by
  rw [bitmapU64len_mul]
  exact le_alignUp (by decide)

/-- The pages of a segment that its bitmap calls free. -/
def Segment.clear (s : Segment) : Finset ℕ := Bitmap.clearBits s.bitmap

/-- The bitmap with one more bit set. -/
def Segment.mark (s : Segment) (k : ℕ) : Segment :=
  { s with bitmap := s.bitmap.set (k / 64) (Bitmap.setBit (s.bitmap.getD (k / 64) 0) (k % 64)) }

theorem Segment.clear_mark {s : Segment} {k : ℕ} (hk : k ∈ s.clear) :
    (s.mark k).clear = s.clear.erase k := by
  have hi : k / 64 < s.bitmap.length := Bitmap.div_lt_length (Bitmap.mem_clearBits.mp hk).1
  have hset := Bitmap.clearBits_set_setBit hi (Nat.mod_lt k (show 0 < 64 by decide))
  rw [Nat.div_add_mod] at hset
  simpa [Segment.clear, Segment.mark, hi] using hset

theorem Segment.bit_mark {s : Segment} {k : ℕ} (hk : k ∈ s.clear) (j : ℕ) :
    Bitmap.bit (s.mark k).bitmap j = (decide (j = k) || Bitmap.bit s.bitmap j) := by
  have hi : k / 64 < s.bitmap.length := Bitmap.div_lt_length (Bitmap.mem_clearBits.mp hk).1
  have hset := Bitmap.bit_set_setBit hi (Nat.mod_lt k (show 0 < 64 by decide)) j
  rw [Nat.div_add_mod] at hset
  simpa [Segment.mark, hi] using hset

/-- The bitmap with one bit fewer set. -/
def Segment.unmark (s : Segment) (k : ℕ) : Segment :=
  { s with bitmap := s.bitmap.set (k / 64) (Bitmap.clearBit (s.bitmap.getD (k / 64) 0) (k % 64)) }

theorem Segment.bit_unmark {s : Segment} {k : ℕ} (hk : k < 64 * s.bitmap.length) (j : ℕ) :
    Bitmap.bit (s.unmark k).bitmap j = (!decide (j = k) && Bitmap.bit s.bitmap j) := by
  have hi : k / 64 < s.bitmap.length := Bitmap.div_lt_length hk
  have hset := Bitmap.bit_set_clearBit hi (Nat.mod_lt k (show 0 < 64 by decide)) j
  rw [Nat.div_add_mod] at hset
  simpa [Segment.unmark, hi] using hset

/-- The bitmap has a bit for every frame of the segment. -/
theorem Segment.Wf.index_lt_capacity {s : Segment} (hs : s.Wf) {f : PhysFrame} (hf : s.Holds f) :
    s.index f < 64 * s.bitmap.length := by
  rw [hs.length]
  exact (hs.paged.index_lt hf).trans_le (pages_le_capacity s.toSegmentHeader)

/-- A clear bit belongs to a page of the segment. -/
theorem Segment.Wf.lt_pages_of_clear {s : Segment} (hs : s.Wf) {k : ℕ} (hk : k ∈ s.clear) :
    k < s.size / pageSize := by
  obtain ⟨hlt, hclear⟩ := Bitmap.mem_clearBits.mp hk
  by_contra hge
  rw [hs.padding k (by omega) hlt] at hclear
  cases hclear

theorem Segment.Wf.isFree_iff {s : Segment} (hs : s.Wf) {f : PhysFrame} :
    s.IsFree f ↔ s.Holds f ∧ s.index f ∈ s.clear := by
  refine and_congr_right fun hf => ?_
  rw [Segment.clear, Bitmap.mem_clearBits, and_iff_right (hs.index_lt_capacity hf)]

/-- Changing one bit of the bitmap keeps the frames that the segment holds. -/
theorem Segment.wf_update {s : Segment} (hs : s.Wf) {bitmap : List (BitVec 64)}
    (hlen : bitmap.length = s.bitmap.length)
    (hpad : ∀ k, s.size / pageSize ≤ k → Bitmap.bit s.bitmap k = true →
      Bitmap.bit bitmap k = true) :
    Segment.Wf { s with bitmap } :=
  ⟨hs.paged, hlen.trans hs.length,
    fun k hk hk' => hpad k hk (hs.padding k hk (by rw [← hlen]; exact hk'))⟩

/-- The frame that is computed from the position of a clear bit is the one at that position. -/
theorem Segment.Wf.holds_of_clear {s : Segment} (hs : s.Wf) {k : ℕ} (hk : k ∈ s.clear)
    {f : PhysFrame} (hf : frameContaining (s.address + k * pageSize) = .ok f) :
    s.Holds f ∧ s.index f = k := by
  have hpage : k < s.size / pageSize := hs.lt_pages_of_clear hk
  have hnum : f.num = s.address / pageSize + k := by
    obtain ⟨a, ha⟩ := hs.paged.address
    obtain ⟨-, hnum⟩ := frameContaining_eq_ok.mp hf
    simp only [ha, pageSize] at hnum ⊢
    omega
  rw [hs.paged.holds_iff, hs.paged.index_eq]
  omega

/-- Taking a clear bit. -/
theorem Segment.Wf.take {s : Segment} (hs : s.Wf) {k : ℕ} (hk : k ∈ s.clear) {f : PhysFrame}
    (hf : frameContaining (s.address + k * pageSize) = .ok f) :
    s.IsFree f ∧ (s.mark k).Wf ∧ ∀ g, (s.mark k).IsFree g ↔ s.IsFree g ∧ g ≠ f := by
  obtain ⟨hholds, hindex⟩ := hs.holds_of_clear hk hf
  have hwf : (s.mark k).Wf := by
    refine Segment.wf_update hs (by simp) fun j _ hj => ?_
    exact (Segment.bit_mark hk j).trans (by rw [hj, Bool.or_true])
  refine ⟨hs.isFree_iff.mpr ⟨hholds, by rwa [hindex]⟩, hwf, fun g => ?_⟩
  rw [hwf.isFree_iff, hs.isFree_iff, Segment.clear_mark hk, Finset.mem_erase]
  constructor
  · rintro ⟨hg, hne, hclear⟩
    exact ⟨⟨hg, hclear⟩, by rintro rfl; exact hne hindex⟩
  · rintro ⟨⟨hg, hclear⟩, hne⟩
    exact ⟨hg, fun h => hne (hs.paged.eq_of_index_eq hg hholds (h.trans hindex.symm)), hclear⟩

/-- When no bit is clear, the segment has no free frame. -/
theorem Segment.Wf.full {s : Segment} (hs : s.Wf) (h : s.clear = ∅) (f : PhysFrame) :
    ¬ s.IsFree f := by
  intro hf
  have hmem := (hs.isFree_iff.mp hf).2
  rw [h] at hmem
  exact absurd hmem (Finset.notMem_empty _)

/-- Clearing the bit of a frame that the segment holds. -/
theorem Segment.Wf.give {s : Segment} (hs : s.Wf) {f : PhysFrame} (hf : s.Holds f) :
    (s.unmark (s.index f)).Wf ∧
      ∀ g, (s.unmark (s.index f)).IsFree g ↔ s.IsFree g ∨ g = f := by
  have hlt := hs.paged.index_lt hf
  have hbit := Segment.bit_unmark (hs.index_lt_capacity hf)
  refine ⟨?_, fun g => ?_⟩
  · -- the bits behind the last page stay set
    refine Segment.wf_update hs (by simp) fun k hk hset => ?_
    have hne : k ≠ s.index f := by omega
    exact (hbit k).trans (by simp [hne, hset])
  · change s.Holds g ∧ Bitmap.bit (s.unmark (s.index f)).bitmap (s.index g) = false ↔ _
    rw [hbit, Bool.and_eq_false_iff, Bool.not_eq_false', decide_eq_true_eq]
    constructor
    · rintro ⟨hg, heq | hclear⟩
      · exact .inr (hs.paged.eq_of_index_eq hg hf heq)
      · exact .inl ⟨hg, hclear⟩
    · rintro (⟨hg, hclear⟩ | rfl)
      · exact ⟨hg, .inr hclear⟩
      · exact ⟨hf, .inl rfl⟩

/-! ## One call of `palloc` or `pfree` -/

/-- All headers have their magic number. -/
def Marked (segs : List Segment) : Prop := ∀ s ∈ segs, s.magic = SegmentHeader.MAGIC

/-- **What `allocate_frame` does.**  It returns nothing if no page is free.  Otherwise it takes the
lowest free page of the first segment that has one, and sets its bit. -/
theorem allocateIn_cases {segs : List Segment} {r : Option (PhysFrame × List Segment)}
    (h : allocateIn segs = .ok r) :
    (r = none ∧ ∀ s ∈ segs, s.clear = ∅) ∨
      ∃ pre s post k f, segs = pre ++ s :: post ∧ (∀ t ∈ pre, t.clear = ∅) ∧
        IsLeast (s.clear : Set ℕ) k ∧ frameContaining (s.address + k * pageSize) = .ok f ∧
        r = some (f, pre ++ s.mark k :: post) := by
  -- induction along the loop over the segments
  induction segs generalizing r with
  | nil =>
    simp only [allocateIn, Except.ok.injEq] at h
    exact .inl ⟨h.symm, by simp⟩
  | cons s rest ih =>
    simp only [allocateIn, except_bind_eq_ok, ensure_eq_ok, exists_const] at h
    obtain ⟨-, h⟩ := h
    cases hi : Bitmap.firstNotFull s.bitmap with
    | none =>
      -- a full bitmap: the loop goes on with the next segment
      have hnone : s.clear = ∅ := Bitmap.clearBits_of_firstNotFull_eq_none hi
      simp only [hi, except_bind_eq_ok, Except.ok.injEq] at h
      obtain ⟨found, hrec, rfl⟩ := h
      rcases ih hrec with ⟨rfl, hall⟩ | ⟨pre, t, post, k, f, rfl, hpre, hk, hf, rfl⟩
      · exact .inl ⟨rfl, by simpa using ⟨hnone, hall⟩⟩
      · exact .inr ⟨s :: pre, t, post, k, f, rfl, by simpa using ⟨hnone, hpre⟩, hk, hf, rfl⟩
    | some i =>
      obtain ⟨hlen, hfull⟩ := Bitmap.firstNotFull_eq_some hi
      have hget : s.bitmap.getD i 0 = s.bitmap[i] := by simp [hlen]
      have hb : Bitmap.trailingOnes s.bitmap[i] < 64 := Bitmap.trailingOnes_lt hfull
      simp only [hi, hget, except_bind_eq_ok, ensure_eq_ok, exists_const, Except.ok.injEq] at h
      obtain ⟨-, f, hframe, rfl⟩ := h
      -- the page is the lowest one of the first word that is not full
      obtain ⟨hdiv, hmod⟩ := (Bitmap.eq_mul_add_iff (i := i) hb).mp rfl
      refine .inr ⟨[], s, rest, _, f, rfl, by simp,
        Bitmap.isLeast_of_firstNotFull hi hlen hfull, hframe, ?_⟩
      rw [Segment.mark, hdiv, hmod, hget]
      rfl

/-- Every free page has a physical address. -/
def Addressed (segs : List Segment) : Prop :=
  ∀ s ∈ segs, ∀ k ∈ s.clear, s.address + k * pageSize < 2 ^ 52

/-- With the magic numbers in place and all free pages addressable, `allocate_frame` cannot panic.
-/
theorem allocateIn_returns {segs : List Segment} (hmarked : Marked segs) (haddr : Addressed segs) :
    ∃ r, allocateIn segs = .ok r := by
  induction segs with
  | nil => exact ⟨none, rfl⟩
  | cons s rest ih =>
    simp only [allocateIn, ensure_of (hmarked s (by simp)), except_ok_bind]
    cases hi : Bitmap.firstNotFull s.bitmap with
    | none =>
      obtain ⟨r, hr⟩ := ih (fun t ht => hmarked t (List.mem_cons_of_mem _ ht))
        (fun t ht => haddr t (List.mem_cons_of_mem _ ht))
      rw [hr]
      exact ⟨_, rfl⟩
    | some i =>
      obtain ⟨hlen, hfull⟩ := Bitmap.firstNotFull_eq_some hi
      have hget : s.bitmap.getD i 0 = s.bitmap[i] := by simp [hlen]
      have hb : Bitmap.trailingOnes s.bitmap[i] < 64 := Bitmap.trailingOnes_lt hfull
      obtain ⟨f, hf⟩ := exists_frameContaining
        (haddr s (by simp) _ (Bitmap.mem_clearBits_of_firstNotFull hlen hfull))
      refine ⟨some (f, ⟨s.toSegmentHeader, s.bitmap.set i
        (Bitmap.setBit s.bitmap[i] (Bitmap.trailingOnes s.bitmap[i]))⟩ :: rest), ?_⟩
      simp only [hget, ensure_of (show Bitmap.trailingOnes s.bitmap[i] ≠ 64 by omega), hf,
        except_ok_bind]

/-- **What `deallocate_frame` does.**  It clears one bit of the first segment in whose range the
address is, and does nothing if there is none. -/
theorem deallocateIn_cases {addr : ℕ} {segs segs' : List Segment}
    (h : deallocateIn addr segs = .ok segs') :
    (segs' = segs ∧ ∀ s ∈ segs, s.inRange addr = .ok false) ∨
      ∃ pre s post, segs = pre ++ s :: post ∧ s.inRange addr = .ok true ∧
        segs' = pre ++ s.unmark ((addr - s.address) / pageSize) :: post := by
  induction segs generalizing segs' with
  | nil =>
    simp only [deallocateIn, Except.ok.injEq] at h
    exact .inl ⟨h.symm, by simp⟩
  | cons s rest ih =>
    simp only [deallocateIn, except_bind_eq_ok] at h
    obtain ⟨b, hrange, h⟩ := h
    cases b with
    | true =>
      simp only [if_true, except_bind_eq_ok, ensure_eq_ok, exists_const, Except.ok.injEq] at h
      obtain ⟨-, rfl⟩ := h
      exact .inr ⟨[], s, rest, rfl, hrange, rfl⟩
    | false =>
      simp only [Bool.false_eq_true, if_false, except_bind_eq_ok, Except.ok.injEq] at h
      obtain ⟨rest', hrec, rfl⟩ := h
      rcases ih hrec with ⟨rfl, hall⟩ | ⟨pre, t, post, rfl, ht, rfl⟩
      · exact .inl ⟨rfl, by simpa using ⟨hrange, hall⟩⟩
      · exact .inr ⟨s :: pre, t, post, rfl, ht, rfl⟩

/-! ## The allocator as a set of free frames -/

/-- The frames with a clear bit in one of the segments. -/
def freeIn (segs : List Segment) : Set PhysFrame := {f | ∃ s ∈ segs, s.IsFree f}

instance (segs : List Segment) (f : PhysFrame) : Decidable (f ∈ freeIn segs) :=
  inferInstanceAs (Decidable (∃ s ∈ segs, s.IsFree f))

/-- The frames of the segments. -/
def heldIn (segs : List Segment) : Set PhysFrame := {f | ∃ s ∈ segs, s.Holds f}

/-- Every segment is well formed, and no two have a common frame. -/
structure SegmentsSound (segs : List Segment) : Prop where
  wf : ∀ s ∈ segs, s.Wf
  apart : segs.Pairwise fun s t => s.toSegmentHeader.Apart t.toSegmentHeader

theorem mem_freeIn_cons {s : Segment} {segs : List Segment} {f : PhysFrame} :
    f ∈ freeIn (s :: segs) ↔ s.IsFree f ∨ f ∈ freeIn segs := by
  simp [freeIn]

theorem mem_heldIn_cons {s : Segment} {segs : List Segment} {f : PhysFrame} :
    f ∈ heldIn (s :: segs) ↔ s.Holds f ∨ f ∈ heldIn segs := by
  simp [heldIn]

theorem freeIn_middle (pre post : List Segment) (s : Segment) :
    freeIn (pre ++ s :: post) = freeIn (s :: (pre ++ post)) := by
  ext f
  simp only [freeIn, Set.mem_ofPred_eq, List.perm_middle.mem_iff]

theorem heldIn_middle (pre post : List Segment) (s : Segment) :
    heldIn (pre ++ s :: post) = heldIn (s :: (pre ++ post)) := by
  ext f
  simp only [heldIn, Set.mem_ofPred_eq, List.perm_middle.mem_iff]

theorem freeIn_subset_heldIn (segs : List Segment) : freeIn segs ⊆ heldIn segs := by
  rintro f ⟨s, hs, hf⟩
  exact ⟨s, hs, hf.1⟩

namespace SegmentsSound

variable {s : Segment} {segs segs' : List Segment} {f : PhysFrame}

theorem head (h : SegmentsSound (s :: segs)) : s.Wf := h.wf s (by simp)

theorem tail (h : SegmentsSound (s :: segs)) : SegmentsSound segs :=
  ⟨fun t ht => h.wf t (List.mem_cons_of_mem _ ht), (List.pairwise_cons.mp h.apart).2⟩

/-- The order of the segments does not matter, so that one segment may be taken as the first. -/
theorem middle {pre post : List Segment} :
    SegmentsSound (pre ++ s :: post) ↔ SegmentsSound (s :: (pre ++ post)) := by
  have hperm : (pre ++ s :: post).Perm (s :: (pre ++ post)) := List.perm_middle
  constructor
  · intro h
    exact ⟨fun t ht => h.wf t (hperm.mem_iff.mpr ht),
      (hperm.pairwise_iff SegmentHeader.Apart.symm).mp h.apart⟩
  · intro h
    exact ⟨fun t ht => h.wf t (hperm.mem_iff.mp ht),
      (hperm.pairwise_iff SegmentHeader.Apart.symm).mpr h.apart⟩

/-- A frame of the first segment is in no later one. -/
theorem not_held_of_head (h : SegmentsSound (s :: segs)) (hf : s.Holds f) : f ∉ heldIn segs := by
  rintro ⟨t, ht, hft⟩
  exact (List.pairwise_cons.mp h.apart).1 t ht f hf hft

/-- No frame belongs to two segments. -/
theorem eq_of_holds (h : SegmentsSound segs) {t : Segment} (hs : s ∈ segs) (ht : t ∈ segs)
    (hf : s.Holds f) (hf' : t.Holds f) : s = t := by
  obtain ⟨pre, post, rfl⟩ := List.append_of_mem hs
  rcases List.mem_cons.mp (List.perm_middle.mem_iff.mp ht) with rfl | ht
  · rfl
  · exact absurd ⟨t, ht, hf'⟩ ((middle.mp h).not_held_of_head hf)

/-- Replacing the bitmap of the first segment. -/
theorem replace_head (h : SegmentsSound (s :: segs)) {bitmap : List (BitVec 64)}
    (hwf : Segment.Wf { s with bitmap }) : SegmentsSound ({ s with bitmap } :: segs) := by
  obtain ⟨happ, htail⟩ := List.pairwise_cons.mp h.apart
  exact ⟨by simpa using ⟨hwf, h.tail.wf⟩, List.pairwise_cons.mpr ⟨happ, htail⟩⟩

end SegmentsSound

/-- `allocate_frame` with a result takes exactly that frame out of the free set. -/
theorem allocateIn_some {segs segs' : List Segment} {f : PhysFrame} (hs : SegmentsSound segs)
    (h : allocateIn segs = .ok (some (f, segs'))) :
    f ∈ freeIn segs ∧ SegmentsSound segs' ∧ freeIn segs' = freeIn segs \ {f} ∧
      heldIn segs' = heldIn segs := by
  rcases allocateIn_cases h with ⟨hr, -⟩ | ⟨pre, s, post, k, g, rfl, -, ⟨hk, -⟩, hframe, hr⟩
  · cases hr
  obtain ⟨rfl, rfl⟩ := Prod.mk.inj (Option.some.inj hr)
  -- the segment of the frame may be taken as the first one
  rw [SegmentsSound.middle] at hs
  rw [SegmentsSound.middle, freeIn_middle, freeIn_middle, heldIn_middle, heldIn_middle]
  obtain ⟨hfree, hwf, hiff⟩ := hs.head.take hk hframe
  refine ⟨mem_freeIn_cons.mpr (.inl hfree), hs.replace_head hwf, ?_, ?_⟩
  · ext x
    simp only [mem_freeIn_cons, Set.mem_sdiff, Set.mem_singleton_iff, hiff]
    constructor
    · rintro (⟨hx, hne⟩ | hx)
      · exact ⟨.inl hx, hne⟩
      · refine ⟨.inr hx, ?_⟩
        rintro rfl
        -- no other segment has the frame
        exact hs.not_held_of_head hfree.1 (freeIn_subset_heldIn _ hx)
    · rintro ⟨hx | hx, hne⟩
      · exact .inl ⟨hx, hne⟩
      · exact .inr hx
  · ext x
    simp only [mem_heldIn_cons, Segment.mark]

/-- `allocate_frame` returns nothing only when no frame is free. -/
theorem allocateIn_none {segs : List Segment} (hs : SegmentsSound segs)
    (h : allocateIn segs = .ok none) : freeIn segs = ∅ := by
  rcases allocateIn_cases h with ⟨-, hall⟩ | ⟨pre, s, post, k, f, -, -, -, -, hr⟩
  · refine Set.eq_empty_of_forall_notMem ?_
    rintro f ⟨s, hmem, hf⟩
    exact (hs.wf s hmem).full (hall s hmem) f hf
  · cases hr

/-- `deallocate_frame` adds the frame to the free set, when a segment holds it. -/
theorem deallocateIn_ok {segs segs' : List Segment} {f : PhysFrame} (hs : SegmentsSound segs)
    (h : deallocateIn f.startAddress segs = .ok segs') :
    SegmentsSound segs' ∧ freeIn segs' = freeIn segs ∪ ({f} ∩ heldIn segs) ∧
      heldIn segs' = heldIn segs := by
  rcases deallocateIn_cases h with ⟨rfl, hout⟩ | ⟨pre, s, post, rfl, hin, rfl⟩
  · -- no segment holds the frame
    have hnot : f ∉ heldIn segs' := by
      rintro ⟨s, hmem, hf⟩
      have := ((hs.wf s hmem).paged.inRange_eq_ok (hout s hmem)).mpr hf
      cases this
    refine ⟨hs, ?_, rfl⟩
    rw [Set.singleton_inter_eq_empty.mpr hnot, Set.union_empty]
  · rw [SegmentsSound.middle] at hs
    rw [SegmentsSound.middle, freeIn_middle, freeIn_middle, heldIn_middle, heldIn_middle]
    have hf : s.Holds f := (hs.head.paged.inRange_eq_ok hin).mp rfl
    obtain ⟨hwf, hfree⟩ := hs.head.give hf
    refine ⟨hs.replace_head hwf, ?_, ?_⟩
    · have hheld : f ∈ heldIn (s :: (pre ++ post)) := mem_heldIn_cons.mpr (.inl hf)
      rw [Set.singleton_inter_of_mem hheld]
      ext x
      refine (mem_freeIn_cons.trans (or_congr_left (hfree x))).trans ?_
      rw [Set.mem_union, mem_freeIn_cons, Set.mem_singleton_iff]
      exact or_right_comm
    · ext x
      simp only [mem_heldIn_cons, Segment.unmark]

namespace PhysicalFrameAllocator

/-- Representation invariant of the allocator. -/
def Sound (a : PhysicalFrameAllocator) : Prop := SegmentsSound a.segments

/-- The frames whose bit is clear. -/
def free (a : PhysicalFrameAllocator) : Set PhysFrame := freeIn a.segments

instance (a : PhysicalFrameAllocator) (f : PhysFrame) : Decidable (f ∈ a.free) :=
  inferInstanceAs (Decidable (f ∈ freeIn a.segments))

/-- The frames that some segment holds. -/
def managed (a : PhysicalFrameAllocator) : Set PhysFrame := heldIn a.segments

theorem allocateFrame_some {a a' : PhysicalFrameAllocator} {f : PhysFrame} (hs : a.Sound)
    (h : a.allocateFrame = .ok (some f, a')) :
    f ∈ a.free ∧ a'.Sound ∧ a'.free = a.free \ {f} ∧ a'.managed = a.managed := by
  simp only [allocateFrame, except_bind_eq_ok] at h
  obtain ⟨found, hin, h⟩ := h
  match found, h with
  | some (g, segments), h =>
    simp only [Except.ok.injEq, Prod.mk.injEq, Option.some.injEq] at h
    obtain ⟨rfl, rfl⟩ := h
    exact allocateIn_some hs hin

theorem allocateFrame_none {a a' : PhysicalFrameAllocator} (hs : a.Sound)
    (h : a.allocateFrame = .ok (none, a')) : a.free = ∅ ∧ a' = a := by
  simp only [allocateFrame, except_bind_eq_ok] at h
  obtain ⟨found, hin, h⟩ := h
  match found, h with
  | none, h =>
    simp only [Except.ok.injEq, Prod.mk.injEq, true_and] at h
    exact ⟨allocateIn_none hs hin, h.symm⟩

/-- `deallocate_frame` returns a frame to the free set, provided that some segment holds it. It does
not ask whether the frame was allocated. -/
theorem deallocateFrame_ok {a a' : PhysicalFrameAllocator} {f : PhysFrame} (hs : a.Sound)
    (h : a.deallocateFrame f = .ok a') :
    a'.Sound ∧ a'.free = a.free ∪ ({f} ∩ a.managed) ∧ a'.managed = a.managed := by
  simp only [deallocateFrame, except_bind_eq_ok, Except.ok.injEq] at h
  obtain ⟨segments, hin, rfl⟩ := h
  exact deallocateIn_ok hs hin

/-- The bitmaps implement a set of free frames. -/
def freeSet : Pool.FreeSet pool where
  Sound := Sound
  free := free
  managed := managed
  free_managed := fun _ => freeIn_subset_heldIn _
  acquire_some := allocateFrame_some
  acquire_none := allocateFrame_none
  release_ok := deallocateFrame_ok

end PhysicalFrameAllocator

end HeliumOS.Mem
