import HeliumOS.Mem.PhysLive
import Mathlib.Algebra.Order.BigOperators.Group.List

/-!
# The Allocator Right After `init`

Which pages the segments of `phys::init` consist of, and how many of them `palloc` hands out, for
any memory map on which `init` returns.

- `segments_inside_iff`: a segment stays inside its entry exactly when rounding the start up costs
  no more than rounding the size down leaves.
- `pallocsExactly_iff` says how many calls of `palloc` succeed.
- `no_page_lost_iff`: no page is lost exactly when no page count is a multiple of 64.
-/

namespace HeliumOS.Mem

open HeliumOS.Lib

/-! ## Pages and entries -/

/-- The bytes of page `k` of a segment. -/
def SegmentHeader.pageBytes (s : SegmentHeader) (k : ℕ) : Set ℕ :=
  Set.Ico (s.address + k * pageSize) (s.address + (k + 1) * pageSize)

/-- Every page of the segment lies inside the entry. -/
def SegmentHeader.Inside (s : SegmentHeader) (e : MMapEnt) : Prop :=
  ∀ k < s.size / pageSize, s.pageBytes k ⊆ e.bytes

/-- What rounding the start up adds is not more than what rounding the size down takes away. -/
def MMapEnt.Rounds (e : MMapEnt) : Prop :=
  pageSize ∣ e.ptr ∨ pageSize ≤ e.ptr % pageSize + e.rawSize % pageSize

instance (e : MMapEnt) : Decidable e.Rounds := inferInstanceAs (Decidable (_ ∨ _))

/-- A segment that ends where the header of its entry ends, and does not start before it. -/
theorem inside_iff_rounds {s : SegmentHeader} {e : MMapEnt} (hstart : e.header.address ≤ s.address)
    (hend : s.address + s.size = e.header.address + e.header.size) (hsize : pageSize ∣ s.size)
    (hpos : 0 < s.size) : s.Inside e ↔ e.Rounds := by
  obtain ⟨n, hn⟩ := hsize
  have hsub (k : ℕ) : s.pageBytes k ⊆ e.bytes ↔
      e.ptr ≤ s.address + k * pageSize ∧
        s.address + (k + 1) * pageSize ≤ e.ptr + e.rawSize := by
    refine Set.Ico_subset_Ico_iff ?_
    simp only [pageSize]
    omega
  simp only [SegmentHeader.Inside, hsub, MMapEnt.Rounds]
  simp only [MMapEnt.header, SegmentHeader.new, MMapEnt.pagedSize, alignUp, alignDown,
    pageSize] at hn hstart hend ⊢
  constructor
  · -- the last page ends where the segment ends
    intro hall
    have hlast := (hall (n - 1) (by omega)).2
    omega
  · intro hrounds k hk
    omega

/-- A segment and the header it comes from: the same end, in whole pages. -/
def SegmentHeader.Shortens (s t : SegmentHeader) : Prop :=
  t.address ≤ s.address ∧ s.address + s.size = t.address + t.size ∧ pageSize ∣ s.size

theorem SegmentHeader.shortens_dropFront {s : SegmentHeader} {need : ℕ} (hle : need ≤ s.size)
    (hneed : pageSize ∣ need) (hsize : pageSize ∣ s.size) : (s.dropFront need).Shortens s := by
  refine ⟨Nat.le_add_right _ _, ?_, Nat.dvd_sub hsize hneed⟩
  simp only [SegmentHeader.dropFront]
  omega

theorem MMapEnt.dvd_header_size (e : MMapEnt) : pageSize ∣ e.header.size :=
  Dvd.intro_left (e.rawSize / pageSize) rfl

section Init

variable {isvm : Bool} {bb : BootBoot} {a : PhysicalFrameAllocator}

/-- There is one segment for each usable entry. -/
theorem shortens_of_init (h : init isvm bb = .ok a) : List.Forall₂
    (fun (s : Segment) (e : MMapEnt) => s.toSegmentHeader.Shortens e.header)
      a.segments bb.usable := by
  obtain ⟨pre, s, post, husable, hsegments, hle, -⟩ := init_cases h
  have hdvd : ∀ t ∈ pre ++ s :: post, pageSize ∣ t.size := by
    rw [← husable, List.forall_mem_map]
    exact fun e _ => e.dvd_header_size
  have hsame {t : SegmentHeader} (ht : t ∈ pre ++ s :: post) : t.Shortens t :=
    ⟨le_rfl, rfl, hdvd t ht⟩
  have hheaders : List.Forall₂ SegmentHeader.Shortens (a.segments.map Segment.toSegmentHeader)
      (bb.usable.map MMapEnt.header) := by
    rw [hsegments, husable]
    refine List.rel_append ?_ (.cons ?_ ?_)
    · exact List.forall₂_same.mpr fun t ht => hsame (List.mem_append_left _ ht)
    · exact SegmentHeader.shortens_dropFront hle (dvd_alignUp a.size pageSize) (hdvd s (by simp))
    · exact List.forall₂_same.mpr fun t ht => hsame (by simp [ht])
  exact List.forall₂_map_left_iff.mp (List.forall₂_map_right_iff.mp hheaders)

/-- No segment is empty: the word that is written last would not exist. -/
theorem pages_pos_of_init (h : init isvm bb = .ok a) {s : Segment} (hs : s ∈ a.segments) :
    0 < s.size / pageSize := by
  have hbitmap := initBitmap_of_init h hs
  simp only [initBitmap] at hbitmap
  split_ifs at hbitmap with hlen
  have hcap := bitmapU64len_mul s.toSegmentHeader
  unfold alignUp at hcap
  omega

/-- **Which segments stay inside the entry they are built from**: those whose entry starts on a
page, or loses at least as much to the rounding of its size as it gains by the rounding of its
start. -/
theorem segments_inside_iff (h : init isvm bb = .ok a) : List.Forall₂
    (fun (s : Segment) (e : MMapEnt) => s.toSegmentHeader.Inside e ↔ e.Rounds)
    a.segments bb.usable := by
  have hpos : ∀ s ∈ a.segments, 0 < s.size := fun s hs =>
    Nat.pos_of_div_pos (pages_pos_of_init h hs)
  have hboth := (List.forall₂_and_left _ _).mpr ⟨hpos, shortens_of_init h⟩
  refine hboth.imp fun s e hse => ?_
  obtain ⟨hsize, hstart, hend, hdvd⟩ := hse
  exact inside_iff_rounds hstart hend hdvd hsize

end Init

/-- One free region of three pages that starts in the middle of a page. -/
def shiftedRegion : BootBoot := ⟨bootBootSize, fun _ => ⟨0x100800, 0x3001⟩⟩

/-- The last page of the only segment ends `0x800` bytes behind the region. -/
theorem shiftedRegion_runs_past : ∃ a, init false shiftedRegion = .ok a ∧
    a.segments.map Segment.toSegmentHeader = [.new 0x102000 0x2000] ∧
    shiftedRegion.usable = [⟨0x100800, 0x3001⟩] ∧
    ¬ (SegmentHeader.new 0x102000 0x2000).Inside ⟨0x100800, 0x3001⟩ := by
  have hinit : init false shiftedRegion = .ok
      ⟨[⟨.new 0x102000 0x2000, [0xfffffffffffffffc]⟩], 32, ⟨0x101, by decide⟩⟩ := by
    decide +kernel
  refine ⟨_, hinit, rfl, by decide +kernel, fun hinside => ?_⟩
  have hlast := hinside 1 (by decide) (show 0x103fff ∈ _ by simp [SegmentHeader.pageBytes,
    SegmentHeader.new, pageSize])
  simp [MMapEnt.bytes, MMapEnt.rawSize] at hlast

theorem segments_inside_threePages :
    init false (oneRegion 3) = .ok (threePagesPmm 0xfffffffffffffffc) ∧
    List.Forall₂ (fun (s : Segment) (e : MMapEnt) => s.toSegmentHeader.Inside e ↔ e.Rounds)
      (threePagesPmm 0xfffffffffffffffc).segments (oneRegion 3).usable :=
  ⟨init_threePages, segments_inside_iff init_threePages⟩

/-! ## Counting calls -/

/-- The pages that are free, over all segments. -/
def clearTotal (segs : List Segment) : ℕ := (segs.map fun s => s.clear.card).sum

theorem clearTotal_of_empty {segs : List Segment} (h : ∀ s ∈ segs, s.clear = ∅) :
    clearTotal segs = 0 := by
  induction segs with
  | nil => rfl
  | cons s rest ih =>
    rw [clearTotal, List.map_cons, List.sum_cons, h s (by simp), Finset.card_empty, Nat.zero_add]
    exact ih fun t ht => h t (List.mem_cons_of_mem _ ht)

/-- `palloc` succeeds exactly `n` times before it returns `None`. -/
def PallocsExactly : ℕ → PhysicalFrameAllocator → Prop
  | 0, a => ∃ a', a.allocateFrame = .ok (none, a')
  | n + 1, a => ∃ f a', a.allocateFrame = .ok (some f, a') ∧ PallocsExactly n a'

theorem allocateFrame_eq_ok {a a' : PhysicalFrameAllocator} {r : Option PhysFrame} :
    a.allocateFrame = .ok (r, a') ↔ (r = none ∧ a' = a ∧ allocateIn a.segments = .ok none) ∨
      ∃ f segments, r = some f ∧ a' = { a with segments } ∧
        allocateIn a.segments = .ok (some (f, segments)) := by
  simp only [PhysicalFrameAllocator.allocateFrame, except_bind_eq_ok]
  constructor
  · rintro ⟨found, hfound, h⟩
    rcases found with _ | ⟨f, segments⟩
    · cases h
      exact .inl ⟨rfl, rfl, hfound⟩
    · cases h
      exact .inr ⟨f, segments, rfl, rfl, hfound⟩
  · rintro (⟨rfl, rfl, hfound⟩ | ⟨f, segments, rfl, rfl, hfound⟩)
    · exact ⟨none, hfound, rfl⟩
    · exact ⟨some (f, segments), hfound, rfl⟩

section Marking

variable {pre post : List Segment} {s : Segment} {k : ℕ}

theorem Marked.mark (h : Marked (pre ++ s :: post)) : Marked (pre ++ s.mark k :: post) := by
  simp only [Marked, List.forall_mem_append, List.forall_mem_cons] at h ⊢
  exact h

/-- One page less. -/
theorem clearTotal_mark (hk : k ∈ s.clear) :
    clearTotal (pre ++ s :: post) = clearTotal (pre ++ s.mark k :: post) + 1 := by
  have hpos : 0 < s.clear.card := Finset.card_pos.mpr ⟨k, hk⟩
  simp only [clearTotal, List.map_append, List.map_cons, List.sum_append, List.sum_cons,
    Segment.clear_mark hk, Finset.card_erase_of_mem hk]
  omega

/-- The page that was taken had an address. -/
theorem addressed_mark_iff (hk : k ∈ s.clear) (hadr : s.address + k * pageSize < 2 ^ 52) :
    Addressed (pre ++ s.mark k :: post) ↔ Addressed (pre ++ s :: post) := by
  have hsegment : (∀ j ∈ (s.mark k).clear, s.address + j * pageSize < 2 ^ 52) ↔
      ∀ j ∈ s.clear, s.address + j * pageSize < 2 ^ 52 := by
    rw [Segment.clear_mark hk]
    constructor
    · intro h j hj
      by_cases hjk : j = k
      · rwa [hjk]
      · exact h j (Finset.mem_erase.mpr ⟨hjk, hj⟩)
    · exact fun h j hj => h j (Finset.mem_of_mem_erase hj)
  simp only [Addressed, List.forall_mem_append, List.forall_mem_cons]
  exact and_congr_right' (and_congr_left' hsegment)

end Marking

/-- **How often `palloc` succeeds**: once for each clear bit, if the pages have addresses. A clear
bit whose address is not a physical one makes `palloc` panic. -/
theorem pallocsExactly_iff {n : ℕ} {a : PhysicalFrameAllocator} (hmarked : Marked a.segments) :
    PallocsExactly n a ↔ n = clearTotal a.segments ∧ Addressed a.segments := by
  induction n generalizing a with
  | zero =>
    constructor
    · rintro ⟨a', ha'⟩
      rcases allocateFrame_eq_ok.mp ha' with ⟨-, -, hnone⟩ | ⟨f, segments, hf, -⟩
      · rcases allocateIn_cases hnone with ⟨-, hall⟩ | ⟨pre, s, post, k, f, -, -, -, -, hr⟩
        · refine ⟨?_, fun s hs k hk => by simp [hall s hs] at hk⟩
          exact (clearTotal_of_empty hall).symm
        · cases hr
      · cases hf
    · rintro ⟨htotal, haddr⟩
      obtain ⟨r, hr⟩ := allocateIn_returns hmarked haddr
      rcases allocateIn_cases hr with ⟨rfl, -⟩ | ⟨pre, s, post, k, f, hsegs, -, ⟨hk, -⟩, -, -⟩
      · exact ⟨a, allocateFrame_eq_ok.mpr (.inl ⟨rfl, rfl, hr⟩)⟩
      · rw [hsegs, clearTotal_mark hk] at htotal
        omega
  | succ n ih =>
    constructor
    · rintro ⟨f, a', ha', hrest⟩
      rcases allocateFrame_eq_ok.mp ha' with ⟨hf, -⟩ | ⟨g, segments, -, rfl, hsome⟩
      · cases hf
      · rcases allocateIn_cases hsome with ⟨hr, -⟩ | ⟨pre, s, post, k, g', hsegs, -, ⟨hk, -⟩,
          hframe, hr⟩
        · cases hr
        · cases hr
          rw [hsegs] at hmarked ⊢
          obtain ⟨htotal, haddr⟩ := (ih (a := { a with segments := _ }) hmarked.mark).mp hrest
          have hadr := (frameContaining_eq_ok.mp hframe).1
          exact ⟨by rw [clearTotal_mark hk, htotal], (addressed_mark_iff hk hadr).mp haddr⟩
    · rintro ⟨htotal, haddr⟩
      obtain ⟨r, hr⟩ := allocateIn_returns hmarked haddr
      rcases allocateIn_cases hr with ⟨-, hall⟩ | ⟨pre, s, post, k, f, hsegs, -, ⟨hk, -⟩,
        hframe, rfl⟩
      · -- with a page left, `palloc` does not give up
        rw [clearTotal_of_empty hall] at htotal
        cases htotal
      · refine ⟨f, { a with segments := pre ++ s.mark k :: post },
          allocateFrame_eq_ok.mpr (.inr ⟨f, _, rfl, rfl, hr⟩), ?_⟩
        rw [hsegs] at hmarked haddr htotal
        refine (ih hmarked.mark).mpr ⟨?_, ?_⟩
        · rw [clearTotal_mark hk] at htotal
          exact Nat.succ.inj htotal
        · exact (addressed_mark_iff hk (frameContaining_eq_ok.mp hframe).1).mpr haddr

/-! ## A fresh segment -/

/-- The free pages of a fresh segment: all of them, or 64 less if they fill the last word. -/
theorem clear_of_initBitmap {s : Segment} (h : initBitmap s.toSegmentHeader = .ok s.bitmap) :
    s.clear = Finset.range
      (if s.size / pageSize % 64 = 0 then s.size / pageSize - 64 else s.size / pageSize) := by
  obtain ⟨hlen, hbit⟩ := bit_initBitmap h
  have hpos : s.bitmapU64len ≠ 0 := by
    intro hzero
    simp [initBitmap, hzero] at h
  have hcap := bitmapU64len_mul s.toSegmentHeader
  unfold alignUp at hcap
  ext k
  rw [Segment.clear, Bitmap.mem_clearBits, Finset.mem_range]
  constructor
  · rintro ⟨hk, hclear⟩
    rw [hbit k hk, decide_eq_false_iff_not] at hclear
    split_ifs <;> omega
  · intro hk
    have hk' : k < 64 * s.bitmap.length := by
      split_ifs at hk <;> omega
    refine ⟨hk', ?_⟩
    rw [hbit k hk', decide_eq_false_iff_not]
    split_ifs at hk <;> omega

/-- The bitmap calls exactly the pages of the segment free. -/
def Segment.Exact (s : Segment) : Prop :=
  (∀ k < s.size / pageSize, Bitmap.bit s.bitmap k = false) ∧
    ∀ k, s.size / pageSize ≤ k → k < 64 * s.bitmap.length → Bitmap.bit s.bitmap k = true

theorem exact_iff_clear {s : Segment} (hcap : s.size / pageSize ≤ 64 * s.bitmap.length) :
    s.Exact ↔ s.clear = Finset.range (s.size / pageSize) := by
  constructor
  · rintro ⟨hfree, hpad⟩
    ext k
    rw [Segment.clear, Bitmap.mem_clearBits, Finset.mem_range]
    constructor
    · rintro ⟨hk, hclear⟩
      by_contra hnot
      rw [hpad k (Nat.le_of_not_lt hnot) hk] at hclear
      cases hclear
    · exact fun hk => ⟨hk.trans_le hcap, hfree k hk⟩
  · intro hclear
    have hmem (k : ℕ) : (k < 64 * s.bitmap.length ∧ Bitmap.bit s.bitmap k = false) ↔
        k < s.size / pageSize := by
      rw [← Bitmap.mem_clearBits, ← Finset.mem_range, ← hclear]
      rfl
    refine ⟨fun k hk => ((hmem k).mpr hk).2, fun k hk hlt => ?_⟩
    by_contra hnot
    have := (hmem k).mp ⟨hlt, Bool.eq_false_iff.mpr hnot⟩
    omega

/-- How many pages each entry has left, when the first one with `need` bytes gives them up. -/
def pagesLeft (need : ℕ) : List MMapEnt → List ℕ
  | [] => []
  | e :: es =>
    if need ≤ e.pagedSize then
      (e.pagedSize - need) / pageSize :: es.map fun e => e.pagedSize / pageSize
    else e.pagedSize / pageSize :: pagesLeft need es

/-- The pages of the usable entries, in the order of the segments, without those of the header. -/
def BootBoot.pagesLeft (bb : BootBoot) : List ℕ := Mem.pagesLeft bb.headerSize bb.usable

theorem pagesLeft_of_split {need : ℕ} {es : List MMapEnt} {pre post : List SegmentHeader}
    {s : SegmentHeader} (hsplit : es.map MMapEnt.header = pre ++ s :: post)
    (hpre : ∀ t ∈ pre, ¬ need ≤ t.size) (hs : need ≤ s.size) :
    (pre ++ s.dropFront need :: post).map (fun t => t.size / pageSize) = pagesLeft need es := by
  induction es generalizing pre with
  | nil => simp at hsplit
  | cons e es ih =>
    rcases pre with _ | ⟨t, pre⟩
    · rw [List.map_cons, List.nil_append, List.cons.injEq] at hsplit
      obtain ⟨rfl, rfl⟩ := hsplit
      have hfits : need ≤ e.pagedSize := hs
      rw [pagesLeft, if_pos hfits, List.nil_append, List.map_cons, List.map_map]
      rfl
    · rw [List.map_cons, List.cons_append, List.cons.injEq] at hsplit
      obtain ⟨rfl, hsplit⟩ := hsplit
      rw [List.forall_mem_cons] at hpre
      have hshort : ¬ need ≤ e.pagedSize := hpre.1
      rw [pagesLeft, if_neg hshort, List.cons_append, List.map_cons, ih hsplit hpre.2]
      rfl

theorem forall_mem_iff_of_forall₂ {α β : Type} {p : α → Prop} {q : β → Prop} {l : List α}
    {l' : List β} (h : List.Forall₂ (fun x y => p x ↔ q y) l l') :
    (∀ x ∈ l, p x) ↔ ∀ y ∈ l', q y := by
  induction h with
  | nil => simp
  | cons hxy _ ih => rw [List.forall_mem_cons, List.forall_mem_cons, hxy, ih]

section Lost

variable {isvm : Bool} {bb : BootBoot} {a : PhysicalFrameAllocator}

theorem marked_of_init (h : init isvm bb = .ok a) : Marked a.segments := by
  obtain ⟨pre, s, post, husable, hsegments, -⟩ := init_cases h
  have hnew : ∀ t ∈ pre ++ s :: post, t.magic = SegmentHeader.MAGIC := by
    rw [← husable, List.forall_mem_map]
    exact fun e _ => rfl
  have hall : ∀ t ∈ a.segments.map Segment.toSegmentHeader, t.magic = SegmentHeader.MAGIC := by
    rw [hsegments]
    simp only [List.forall_mem_append, List.forall_mem_cons] at hnew ⊢
    exact hnew
  exact List.forall_mem_map.mp hall

theorem exact_iff_of_init (h : init isvm bb = .ok a) {s : Segment} (hs : s ∈ a.segments) :
    s.Exact ↔ s.size / pageSize % 64 ≠ 0 := by
  have hbitmap := initBitmap_of_init h hs
  have hpos := pages_pos_of_init h hs
  have hcap := pages_le_capacity s.toSegmentHeader
  rw [← (bit_initBitmap hbitmap).1] at hcap
  rw [exact_iff_clear hcap, clear_of_initBitmap hbitmap]
  split_ifs with hmod
  · refine ⟨fun heq => ?_, fun hne => absurd hmod hne⟩
    have hcard := congrArg Finset.card heq
    rw [Finset.card_range, Finset.card_range] at hcard
    omega
  · exact ⟨fun _ => hmod, fun _ => rfl⟩

/-- Sums of numbers, each at most another, are equal only if the numbers are. -/
theorem sum_eq_iff_of_le {α : Type} {f g : α → ℕ} {l : List α} (hle : ∀ x ∈ l, f x ≤ g x) :
    (l.map g).sum = (l.map f).sum ↔ ∀ x ∈ l, f x = g x := by
  induction l with
  | nil => simp
  | cons x l ih =>
    have hx := hle x (by simp)
    have hsum : (l.map f).sum ≤ (l.map g).sum :=
      List.sum_le_sum fun y hy => hle y (List.mem_cons_of_mem _ hy)
    rw [List.forall_mem_cons, ← ih fun y hy => hle y (List.mem_cons_of_mem _ hy)]
    simp only [List.map_cons, List.sum_cons]
    omega

theorem sum_pages_eq_clearTotal_iff (h : init isvm bb = .ok a) :
    (a.segments.map fun s => s.size / pageSize).sum = clearTotal a.segments ↔
      ∀ s ∈ a.segments, s.size / pageSize % 64 ≠ 0 := by
  have hcard {s : Segment} (hs : s ∈ a.segments) : s.clear.card =
      if s.size / pageSize % 64 = 0 then s.size / pageSize - 64 else s.size / pageSize := by
    rw [clear_of_initBitmap (initBitmap_of_init h hs), Finset.card_range]
  rw [clearTotal, sum_eq_iff_of_le]
  · refine forall₂_congr fun s hs => ?_
    have hpos := pages_pos_of_init h hs
    simp only [hcard hs]
    split_ifs with hmod
    · exact ⟨fun heq => by omega, fun hne => absurd hmod hne⟩
    · exact ⟨fun _ => hmod, fun _ => rfl⟩
  · intro s hs
    simp only [hcard hs]
    split_ifs
    · exact Nat.sub_le _ _
    · exact le_rfl

/-- The last page of a segment has an address if its entry ends inside the address space. -/
theorem addressed_iff_of_init (h : init isvm bb = .ok a)
    (hmod : ∀ s ∈ a.segments, s.size / pageSize % 64 ≠ 0) :
    Addressed a.segments ↔ ∀ e ∈ bb.usable, e.header.address + e.pagedSize ≤ 2 ^ 52 := by
  have hsegment : ∀ s ∈ a.segments, (∀ k ∈ s.clear, s.address + k * pageSize < 2 ^ 52) ↔
      s.address + (s.size / pageSize - 1) * pageSize < 2 ^ 52 := by
    intro s hs
    have hpos := pages_pos_of_init h hs
    rw [clear_of_initBitmap (initBitmap_of_init h hs), if_neg (hmod s hs)]
    constructor
    · exact fun haddr => haddr _ (Finset.mem_range.mpr (by omega))
    · intro hlast k hk
      rw [Finset.mem_range] at hk
      have hle : k * pageSize ≤ (s.size / pageSize - 1) * pageSize :=
        Nat.mul_le_mul_right pageSize (by omega)
      omega
  -- the address of the last page, and the end of the entry
  have hpair : List.Forall₂ (fun (s : Segment) (e : MMapEnt) =>
      (s.address + (s.size / pageSize - 1) * pageSize < 2 ^ 52 ↔
        e.header.address + e.pagedSize ≤ 2 ^ 52)) a.segments bb.usable := by
    have hpos : ∀ s ∈ a.segments, 0 < s.size / pageSize := fun s hs => pages_pos_of_init h hs
    have hboth := (List.forall₂_and_left _ _).mpr ⟨hpos, shortens_of_init h⟩
    refine hboth.imp fun s e hse => ?_
    obtain ⟨hpages, -, hend, n, hn⟩ := hse
    obtain ⟨k, hk⟩ : pageSize ∣ e.header.address := dvd_alignUp _ _
    obtain ⟨l, hl⟩ := e.dvd_header_size
    change _ ↔ e.header.address + e.header.size ≤ 2 ^ 52
    rw [hk, hl] at hend ⊢
    simp only [hn, pageSize] at hpages hend ⊢
    omega
  rw [Addressed, forall₂_congr hsegment]
  exact forall_mem_iff_of_forall₂ hpair

theorem pagesLeft_of_init (h : init isvm bb = .ok a) :
    a.segments.map (fun s => s.size / pageSize) = bb.pagesLeft := by
  obtain ⟨pre, s, post, husable, hsegments, hle, -, -, hcollect, hpre⟩ := init_cases h
  have hsize : alignUp a.size pageSize = bb.headerSize := by
    rw [(collect_room hcollect).1, Nat.zero_add]
    rfl
  rw [hsize] at hsegments hle hpre
  have hpages : a.segments.map (fun s => s.size / pageSize) =
      (a.segments.map Segment.toSegmentHeader).map fun s => s.size / pageSize := by
    rw [List.map_map]
    rfl
  rw [hpages, hsegments, BootBoot.pagesLeft, pagesLeft_of_split husable hpre hle]

/-- **No page is lost exactly if no segment has a multiple of 64 pages.**  The page counts are those
of the usable entries, where the first one with room for the header has given up the pages of the
header.  A segment with a multiple of 64 pages starts with its last word full, so that its last 64
pages are never handed out.  Otherwise the bitmaps are as they should be, and `palloc` succeeds once
for each page, as long as no entry reaches beyond the physical address space. -/
theorem no_page_lost_iff (h : init isvm bb = .ok a) :
    a.segments.map (fun s => s.size / pageSize) = bb.pagesLeft ∧
      List.Forall₂ (fun (s : Segment) n => s.Exact ↔ n % 64 ≠ 0) a.segments bb.pagesLeft ∧
      (PallocsExactly bb.pagesLeft.sum a ↔ (∀ n ∈ bb.pagesLeft, n % 64 ≠ 0) ∧
        ∀ e ∈ bb.usable, e.header.address + e.pagedSize ≤ 2 ^ 52) := by
  have hpages := pagesLeft_of_init h
  refine ⟨hpages, ?_, ?_⟩
  · rw [← hpages, List.forall₂_map_right_iff, List.forall₂_same]
    exact fun s hs => exact_iff_of_init h hs
  rw [pallocsExactly_iff (marked_of_init h), ← hpages, sum_pages_eq_clearTotal_iff h,
    List.forall_mem_map]
  exact and_congr_right fun hmod => addressed_iff_of_init h hmod

end Lost

/-- The allocator over a region of 65 pages, one of which holds its header. -/
def sixtyFourPagesPmm : PhysicalFrameAllocator where
  segments := [⟨.new 0x101000 0x40000, [BitVec.allOnes 64]⟩]
  size := 40
  phyframe := headerFrame

/-- With 64 pages `palloc` returns `None` at the first call. -/
theorem sixtyFourPages_lost : init false (oneRegion 65) = .ok sixtyFourPagesPmm ∧
    (oneRegion 65).pagesLeft = [64] ∧
    sixtyFourPagesPmm.allocateFrame = .ok (none, sixtyFourPagesPmm) := by
  refine ⟨?_, ?_, ?_⟩ <;> decide +kernel

theorem no_page_lost_threePages :
    init false (oneRegion 3) = .ok (threePagesPmm 0xfffffffffffffffc) ∧
      PallocsExactly 2 (threePagesPmm 0xfffffffffffffffc) :=
  ⟨init_threePages, (no_page_lost_iff init_threePages).2.2.mpr (by decide +kernel)⟩

end HeliumOS.Mem
