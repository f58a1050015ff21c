import HeliumOS.Mem.PhysHeader

/-!
# When `phys::init` Returns

A condition on the memory map for each loop of `init`, and for the whole of it.

- `collect_returns_iff`: the first loop stops only at an address that is no physical address.
- `carve_of_first`: the second loop takes the area from the first segment that can hold it.
- `writeHeaders_returns_iff`: the third loop needs a header that is not at address zero, headers and
  bitmaps in the lower half, and at least one page in every segment.
- `init_returns_iff`: with room for the header somewhere, `init` still panics on a segment that the
  header uses up.
-/

namespace HeliumOS.Mem

open HeliumOS.Lib

/-! ## The first loop -/

/-- The type bits are those of one of the four types. -/
def MMapEnt.Known (e : MMapEnt) : Prop := e.size % 16 ≤ 3

instance (e : MMapEnt) : Decidable e.Known := inferInstanceAs (Decidable (_ ≤ _))

theorem MMapEnt.Known.getType {e : MMapEnt} (h : e.Known) : ∃ t, e.getType = .ok t := by
  unfold MMapEnt.Known at h
  have hcases : e.size % 16 = 0 ∨ e.size % 16 = 1 ∨ e.size % 16 = 2 ∨ e.size % 16 = 3 := by omega
  rcases hcases with h | h | h | h
  all_goals simp [MMapEnt.getType, h]

/-- The start of the entry, rounded up to a page, is a physical address. -/
def MMapEnt.HasAddress (e : MMapEnt) : Prop := e.header.address < 2 ^ 52

instance (e : MMapEnt) : Decidable e.HasAddress := inferInstanceAs (Decidable (_ < _))

theorem MMapEnt.phyadr_eq_ok {e : MMapEnt} {adr : ℕ} :
    e.phyadr = .ok adr ↔ e.HasAddress ∧ adr = e.header.address := by
  simp only [MMapEnt.phyadr, except_bind_eq_ok, checkedAlignUp_eq_ok, physAddr_eq_ok]
  constructor
  · rintro ⟨_, ⟨-, rfl⟩, hlt, rfl⟩
    exact ⟨hlt, rfl⟩
  · rintro ⟨hlt, rfl⟩
    exact ⟨_, ⟨hlt.trans (by decide), rfl⟩, hlt, rfl⟩

theorem printEntry_eq_ok {isvm : Bool} {e : MMapEnt} :
    printEntry isvm e = .ok () ↔ (isvm = true → e.HasAddress) := by
  cases isvm with
  | false => simp [printEntry]
  | true => simp [printEntry, except_bind_eq_ok, MMapEnt.phyadr_eq_ok]

/-- The addresses that the first loop evaluates: those of the free regions, and on a virtual machine
those of all regions. -/
def MMapEnt.Evaluated (isvm : Bool) (e : MMapEnt) : Prop := isvm = true ∨ e.Usable

/-- The room for the headers of the usable entries. -/
def usableRoom (es : List MMapEnt) : ℕ := room ((es.filter (·.Usable)).map MMapEnt.header)

theorem usableRoom_cons_of_usable {e : MMapEnt} {es : List MMapEnt} (h : e.Usable) :
    usableRoom (e :: es) = e.header.extent + usableRoom es := by
  simp [usableRoom, room, h]

theorem usableRoom_cons_of_not {e : MMapEnt} {es : List MMapEnt} (h : ¬ e.Usable) :
    usableRoom (e :: es) = usableRoom es := by
  simp [usableRoom, room, h]

/-- When the first loop returns. -/
theorem collect_returns_iff (isvm : Bool) {es : List MMapEnt} {total : ℕ}
    (hknown : ∀ e ∈ es, e.Known) (hroom : total + usableRoom es < 2 ^ 64) :
    (∃ r, collect isvm es total = .ok r) ↔ ∀ e ∈ es, e.Evaluated isvm → e.HasAddress := by
  induction es generalizing total with
  | nil => simp [collect]
  | cons e es ih =>
    obtain ⟨type, htype⟩ := (hknown e (by simp)).getType
    have hknown' : ∀ e ∈ es, e.Known := fun e' he' => hknown e' (List.mem_cons_of_mem _ he')
    simp only [collect, htype, except_ok_bind, except_bind_eq_ok, List.forall_mem_cons,
      MMapEnt.getType_eq_free htype]
    -- only a usable entry makes a header, and only its address is always evaluated
    by_cases husable : e.Usable
    · rw [usableRoom_cons_of_usable husable] at hroom
      have hadd : total + e.header.extent < 2 ^ 64 := by omega
      have husable' : e.IsFree ∧ pageSize ≤ e.rawSize := husable
      rw [← ih hknown' (show total + e.header.extent + usableRoom es < 2 ^ 64 by omega)]
      constructor
      · rintro ⟨r, -, -, h⟩
        rw [if_pos husable'] at h
        simp only [except_bind_eq_ok, MMapEnt.phyadr_eq_ok, checkedAdd_eq_ok] at h
        obtain ⟨adr, ⟨haddress, rfl⟩, total', ⟨-, rfl⟩, r', hrec, -⟩ := h
        exact ⟨fun _ => haddress, r', hrec⟩
      · rintro ⟨haddress, ⟨headers, total'⟩, hrec⟩
        have hphyadr : e.phyadr = .ok e.header.address :=
          MMapEnt.phyadr_eq_ok.mpr ⟨haddress (.inr husable), rfl⟩
        refine ⟨(e.header :: headers, total'), (),
          printEntry_eq_ok.mpr fun _ => haddress (.inr husable), ?_⟩
        rw [if_pos husable', hphyadr, except_ok_bind]
        have hchecked : checkedAdd 64 Panic.headerSizeOverflow total e.header.extent =
            .ok (total + e.header.extent) := checkedAdd_eq_ok.mpr ⟨hadd, rfl⟩
        change (checkedAdd 64 Panic.headerSizeOverflow total e.header.extent >>= _) = _
        rw [hchecked, except_ok_bind, hrec]
        rfl
    · rw [usableRoom_cons_of_not husable] at hroom
      have husable' : ¬ (e.IsFree ∧ pageSize ≤ e.rawSize) := husable
      rw [← ih hknown' hroom]
      simp only [if_neg husable', MMapEnt.Evaluated, husable, or_false]
      constructor
      · rintro ⟨r, _, hprint, hrec⟩
        exact ⟨printEntry_eq_ok.mp hprint, r, hrec⟩
      · rintro ⟨haddress, r, hrec⟩
        exact ⟨r, (), printEntry_eq_ok.mpr haddress, hrec⟩

/-! ## The second loop -/

/-- The second loop takes the area from the first segment that can hold it. -/
theorem carve_of_first {need : ℕ} {pre post : List SegmentHeader} {s : SegmentHeader}
    (hpre : ∀ t ∈ pre, ¬ need ≤ t.size) (hs : need ≤ s.size) :
    carve need (pre ++ s :: post) = physAddr (s.address + need) >>= fun _ =>
      .ok (some (s.address, pre ++ s.dropFront need :: post)) := by
  induction pre with
  | nil =>
    rw [List.nil_append, carve, if_pos hs]
    unfold physAddr
    split_ifs with hlt
    · rfl
    · rfl
  | cons t pre ih =>
    have ht : ¬ need ≤ t.size := hpre t (by simp)
    rw [List.cons_append, carve, if_neg ht, ih fun u hu => hpre u (List.mem_cons_of_mem _ hu)]
    unfold physAddr
    split_ifs with hlt
    · rfl
    · rfl

/-! ## The third loop -/

theorem initBitmap_returns_iff {s : SegmentHeader} :
    (∃ bitmap, initBitmap s = .ok bitmap) ↔ 0 < s.size / pageSize := by
  have hcap := bitmapU64len_mul s
  unfold alignUp at hcap
  simp only [initBitmap]
  split_ifs with hlen
  · simp only [exists_false, false_iff]
    omega
  · simp only [Except.ok.injEq, exists_eq', true_iff]
    omega

/-- When the third loop returns. -/
theorem writeHeaders_returns_iff {header cursor : ℕ} {headers : List SegmentHeader} :
    (∃ segments, writeHeaders header headers cursor = .ok segments) ↔
      (headers ≠ [] → header + cursor ≠ 0 ∧ header + cursor + room headers ≤ identityEnd) ∧
        ∀ s ∈ headers, 0 < s.size / pageSize := by
  -- induction on the headers that are left to write; the cursor moves by the extent of each
  induction headers generalizing cursor with
  | nil => simp [writeHeaders]
  | cons s rest ih =>
    have hroom : room (s :: rest) = s.extent + room rest := by simp [room]
    -- behind the first header the address is not zero
    have hpos : header + (cursor + s.extent) ≠ 0 := by
      simp only [SegmentHeader.extent, SegmentHeader.byteSize]
      omega
    have hrest := @ih (cursor + s.extent)
    simp only [hpos, ne_eq, not_false_eq_true, true_and] at hrest
    rw [hroom, List.forall_mem_cons]
    simp only [writeHeaders, except_bind_eq_ok, ensure_eq_ok, physAddr_eq_ok, Except.ok.injEq]
    constructor
    · rintro ⟨segments, ptr, ⟨-, rfl⟩, -, hne, -, hreach, bitmap, hbitmap, segments', hsegments', -⟩
      obtain ⟨hend, hpages⟩ := hrest.mp ⟨segments', hsegments'⟩
      refine ⟨fun _ => ⟨hne, ?_⟩, initBitmap_returns_iff.mp ⟨bitmap, hbitmap⟩, hpages⟩
      -- the last header ends furthest
      rcases rest with _ | ⟨t, rest⟩
      · simpa [room, Nat.add_assoc] using hreach
      · have := hend (List.cons_ne_nil _ _)
        omega
    · rintro ⟨hspace, hpage, hpages⟩
      obtain ⟨hne, hend⟩ := hspace (List.cons_ne_nil _ _)
      obtain ⟨bitmap, hbitmap⟩ := initBitmap_returns_iff.mpr hpage
      obtain ⟨segments', hsegments'⟩ := hrest.mpr ⟨fun _ => by omega, hpages⟩
      have hlt : header + cursor < 2 ^ 52 := by
        simp only [identityEnd] at hend
        omega
      exact ⟨_, _, ⟨hlt, rfl⟩, (), hne, (), by omega, bitmap, hbitmap, segments', hsegments', rfl⟩

/-! ## The whole of `init` -/

/-- The entry whose segment holds the header: the first one, in the order of the segments, that has
the room. -/
def BootBoot.headerEntry (bb : BootBoot) : Option MMapEnt :=
  bb.usable.find? fun e => bb.headerSize ≤ e.pagedSize

/-- The bytes that headers and bitmaps take once the entry `e` has given up the header: its own
bitmap is for fewer pages then. -/
def BootBoot.writtenSize (bb : BootBoot) (e : MMapEnt) : ℕ :=
  room (bb.usable.map MMapEnt.header) - e.header.extent + (e.header.dropFront bb.headerSize).extent

/-- An entry that can give up the header at its front and still be a segment, at an address that is
not zero and with all headers and bitmaps in the lower half. -/
structure BootBoot.Spares (bb : BootBoot) (e : MMapEnt) : Prop where
  address_ne_zero : e.header.address ≠ 0
  end_le : e.header.address + bb.writtenSize e ≤ identityEnd
  size_ne : e.pagedSize ≠ bb.headerSize

theorem MMapEnt.Usable.pages_pos {e : MMapEnt} (h : e.Usable) : 0 < e.header.size / pageSize := by
  have hsize := h.2
  change 0 < e.rawSize / pageSize * pageSize / pageSize
  simp only [pageSize] at hsize ⊢
  omega

section Init

variable {isvm : Bool} {bb : BootBoot}

theorem mem_entries_of_usable {e : MMapEnt} {pre post : List MMapEnt}
    (hsplit : bb.usable = pre ++ e :: post) : e ∈ bb.entries := by
  have hmem : e ∈ bb.usable := by simp [hsplit]
  exact List.mem_reverse.mp (List.mem_filter.mp hmem).1

theorem headerSize_lt (hwords : bb.Words)
    (hplace : ∃ e ∈ bb.entries, e.Usable ∧ bb.headerSize ≤ e.pagedSize) :
    bb.headerSize < 2 ^ 64 := by
  obtain ⟨e, he, -, hle⟩ := hplace
  have hsize : e.pagedSize ≤ e.rawSize := Nat.div_mul_le_self _ _
  have hraw : e.rawSize ≤ e.size := Nat.div_mul_le_self _ _
  have hword := (hwords e he).2
  omega

/-- The entries before and behind the one that holds the header. -/
theorem exists_headerEntry (hplace : ∃ e ∈ bb.entries, e.Usable ∧ bb.headerSize ≤ e.pagedSize) :
    ∃ e pre post, bb.headerEntry = some e ∧ bb.usable = pre ++ e :: post ∧
      bb.headerSize ≤ e.pagedSize ∧ ∀ e' ∈ pre, ¬ bb.headerSize ≤ e'.pagedSize := by
  obtain ⟨e, he, husable, hle⟩ := hplace
  have hmem : e ∈ bb.usable := by
    simp [BootBoot.usable, he, husable]
  cases hfind : bb.headerEntry with
  | none =>
    have hall := List.find?_eq_none.mp hfind e hmem
    exact absurd (by simpa using hle) hall
  | some e' =>
    obtain ⟨hle', pre, post, heq, hpre⟩ := List.find?_eq_some_iff_append.mp hfind
    exact ⟨e', pre, post, rfl, heq, by simpa using hle', fun t ht => by simpa using hpre t ht⟩

theorem MMapEnt.extent_header_lt {e : MMapEnt} (hsize : e.size < 2 ^ 64) :
    e.header.extent < 2 ^ 50 := by
  have hpaged : e.header.size ≤ e.rawSize := Nat.div_mul_le_self _ _
  have hraw : e.rawSize ≤ e.size := Nat.div_mul_le_self _ _
  simp only [SegmentHeader.extent, SegmentHeader.bitmapSize, SegmentHeader.byteSize, alignUp,
    pageSize]
  omega

theorem room_carved {e : MMapEnt} {pre post : List MMapEnt}
    (hsplit : bb.usable = pre ++ e :: post) :
    room (pre.map MMapEnt.header ++ e.header.dropFront bb.headerSize :: post.map MMapEnt.header) =
      bb.writtenSize e := by
  rw [BootBoot.writtenSize, hsplit]
  simp only [room, List.map_append, List.map_cons, List.sum_append, List.sum_cons]
  omega

theorem BootBoot.Spares.address_lt (hwords : bb.Words) {e : MMapEnt} (he : e ∈ bb.entries)
    (h : bb.Spares e) : e.header.address + bb.headerSize < 2 ^ 52 := by
  have hextent := MMapEnt.extent_header_lt (hwords e he).2
  have hend := h.end_le
  simp only [BootBoot.writtenSize, identityEnd] at hend
  rw [BootBoot.headerSize]
  simp only [alignUp, pageSize]
  omega

/-- The third loop, after the area has been taken from the entry `e`. -/
theorem writeHeaders_carved_iff {e : MMapEnt} {pre post : List MMapEnt}
    (hsplit : bb.usable = pre ++ e :: post) (hfits : bb.headerSize ≤ e.pagedSize) :
    (∃ segments, writeHeaders e.header.address (pre.map MMapEnt.header ++
      e.header.dropFront bb.headerSize :: post.map MMapEnt.header) 0 = .ok segments) ↔
      bb.Spares e := by
  have husable : ∀ t ∈ bb.usable, 0 < t.header.size / pageSize := by
    intro t ht
    exact MMapEnt.Usable.pages_pos (by simpa using (List.mem_filter.mp ht).2)
  -- all segments but the shortened one have a page
  rw [writeHeaders_returns_iff, room_carved hsplit]
  rw [hsplit] at husable
  simp only [List.forall_mem_append, List.forall_mem_cons, List.forall_mem_map] at husable ⊢
  obtain ⟨hpre, -, hpost⟩ := husable
  have hdropped : 0 < (e.header.dropFront bb.headerSize).size / pageSize ↔
      e.pagedSize ≠ bb.headerSize := by
    obtain ⟨n, hn⟩ := e.dvd_header_size
    obtain ⟨k, hk⟩ : pageSize ∣ bb.headerSize := dvd_alignUp _ _
    change 0 < (e.header.size - bb.headerSize) / pageSize ↔ e.header.size ≠ bb.headerSize
    change bb.headerSize ≤ e.header.size at hfits
    simp only [hn, hk, pageSize] at hfits ⊢
    omega
  simp only [hdropped, ne_eq, List.append_eq_nil_iff, List.cons_ne_nil, and_false,
    not_false_eq_true, true_implies, Nat.add_zero]
  constructor
  · rintro ⟨⟨hzero, hend⟩, -, hne, -⟩
    exact ⟨hzero, hend, hne⟩
  · rintro ⟨hzero, hend, hne⟩
    exact ⟨⟨hzero, hend⟩, hpre, hne, hpost⟩

/-- **When `init` returns.**  Let some entry have room for the header.  Then `init` returns exactly
if the structure is not shorter than its fixed part, the addresses it evaluates are physical, and
the segment that is chosen for the header has more than the header needs: a segment of just that
size would be left empty, and the loop that writes the bitmaps panics on it.  That segment must not
start at zero, and what is written there has to end in the lower half, where an address can be used
as a pointer. -/
theorem init_returns_iff (hwords : bb.Words) (hknown : ∀ e ∈ bb.entries, e.Known)
    (hplace : ∃ e ∈ bb.entries, e.Usable ∧ bb.headerSize ≤ e.pagedSize) :
    (∃ a, init isvm bb = .ok a) ↔ bootBootSize ≤ bb.size ∧
      (∀ e ∈ bb.entries, e.Evaluated isvm → e.HasAddress) ∧
      ∀ e, bb.headerEntry = some e → bb.Spares e := by
  have hlt := headerSize_lt hwords hplace
  have hle : usableRoom bb.entries.reverse ≤ bb.headerSize :=
    le_alignUp (a := room (bb.usable.map MMapEnt.header)) (by decide)
  have hcollect := collect_returns_iff isvm (fun e he => hknown e (List.mem_reverse.mp he))
    (show 0 + usableRoom bb.entries.reverse < 2 ^ 64 by omega)
  simp only [List.mem_reverse] at hcollect
  obtain ⟨e, pre, post, hentry, hsplit, hfits, hpre⟩ := exists_headerEntry hplace
  rw [← hcollect, hentry]
  have hcarve : carve bb.headerSize (bb.usable.map MMapEnt.header) =
      physAddr (e.header.address + bb.headerSize) >>= fun _ => .ok (some (e.header.address,
        pre.map MMapEnt.header ++
          e.header.dropFront bb.headerSize :: post.map MMapEnt.header)) := by
    rw [hsplit, List.map_append, List.map_cons]
    exact carve_of_first (List.forall_mem_map.mpr hpre) hfits
  -- what the first loop returns is known
  have hresult {usable : List SegmentHeader} {total : ℕ}
      (h : collect isvm bb.entries.reverse 0 = .ok (usable, total)) :
      usable = bb.usable.map MMapEnt.header ∧ alignUp total pageSize = bb.headerSize := by
    obtain ⟨rfl, -⟩ := collect_room h
    rw [collect_eq_ok h, Nat.zero_add]
    exact ⟨rfl, rfl⟩
  simp only [init, except_bind_eq_ok, checkedSub_eq_ok, unwrap_eq_ok, checkedAlignUp_eq_ok,
    Prod.exists, Except.ok.injEq]
  constructor
  · rintro ⟨a, -, ⟨hsize, -⟩, usable, total, hcol, need, ⟨-, rfl⟩, found, hfound, header, usable',
      rfl, segments, hwrite, -⟩
    obtain ⟨rfl, hneed⟩ := hresult hcol
    rw [hneed, hcarve] at hfound
    simp only [except_bind_eq_ok, physAddr_eq_ok, Except.ok.injEq, Option.some.injEq,
      Prod.mk.injEq] at hfound
    obtain ⟨-, -, rfl, rfl⟩ := hfound
    refine ⟨hsize, ⟨_, _, hcol⟩, ?_⟩
    rintro _ ⟨⟩
    exact (writeHeaders_carved_iff hsplit hfits).mp ⟨segments, hwrite⟩
  · rintro ⟨hsize, ⟨usable, total, hcol⟩, hspares⟩
    obtain ⟨rfl, hneed⟩ := hresult hcol
    have hspace := (hspares e rfl).address_lt hwords (mem_entries_of_usable hsplit)
    obtain ⟨segments, hwrite⟩ := (writeHeaders_carved_iff hsplit hfits).mpr (hspares e rfl)
    obtain ⟨phyframe, hframe⟩ :=
      exists_frameContaining (show e.header.address < 2 ^ 52 by omega)
    refine ⟨_, _, ⟨hsize, rfl⟩, _, _, hcol, _, ⟨hneed ▸ hlt, rfl⟩, _, ?_, _, _, rfl,
      segments, hwrite, phyframe, hframe, rfl⟩
    rw [hneed, hcarve, physAddr_eq_ok.mpr ⟨hspace, rfl⟩, except_ok_bind]

end Init

theorem oneRegion_words {n : ℕ} (hn : n < 2 ^ 51) : (oneRegion n).Words := by
  simp only [BootBoot.Words, oneRegion_entries, List.mem_singleton, forall_eq]
  omega

theorem oneRegion_known (n : ℕ) : ∀ e ∈ (oneRegion n).entries, e.Known := by
  simp only [oneRegion_entries, List.mem_singleton, forall_eq, MMapEnt.Known]
  omega

/-- A region of one page has room for the header, which takes its only page, and `init` panics on
the empty segment that is left. -/
theorem init_onePage_panics : (oneRegion 1).Words ∧ (∀ e ∈ (oneRegion 1).entries, e.Known) ∧
    (∃ e ∈ (oneRegion 1).entries, e.Usable ∧ (oneRegion 1).headerSize ≤ e.pagedSize) ∧
    init false (oneRegion 1) = .error .emptyBitmap := by
  refine ⟨oneRegion_words (by decide), oneRegion_known 1, ?_, ?_⟩ <;> decide +kernel

theorem init_returns_threePages : ∃ a, init false (oneRegion 3) = .ok a := by
  have hentry : (oneRegion 3).headerEntry = some ⟨0x100000, 0x3001⟩ := by decide +kernel
  have hsize : (oneRegion 3).headerSize = 0x1000 := by decide +kernel
  refine (init_returns_iff (oneRegion_words (by decide)) (oneRegion_known 3)
    (by decide +kernel)).mpr ⟨by decide, ?_, ?_⟩
  · rw [oneRegion_entries]
    exact List.forall_mem_singleton.mpr fun _ => by decide
  · rw [hentry]
    rintro _ ⟨⟩
    exact ⟨by decide, by decide +kernel, by rw [hsize]; decide⟩

end HeliumOS.Mem
