import HeliumOS.Lib.Run
import HeliumOS.Mem.Virt.VCacheCount

/-!
# Runs of the Virtual Cache

A window goes through four states: free, held, lazy and reclaimed.  They are recorded twice, in
the entries and in the bookkeeping.  This file follows the callers of the cache instead.  A
`Client` remembers which pages the cache handed out, and `Holds` says that the cache agrees: the
entry of every such page shows the frame it was last pointed at.

One lemma per operation keeps `Holds` (`Holds.map`, `Holds.mapMany`, `Holds.remap`,
`Holds.unmap`), and the run of any length follows.  The counters remain exact as well
(`Client.counted_of_run`).
-/

namespace HeliumOS.Mem.Virt

open HeliumOS.Lib

/-- The cache before its first call: no window is present, and all counters are fresh. -/
def VCache.initial : VCache := ⟨fun _ _ => 0, .new⟩

/-! ## Calls -/

/-- A cache and the windows that its callers hold: the pages that were returned by `map` or
`map_many` and not given up since.  Each one comes with the frame of its last `map` or `remap`. -/
structure Client where
  cache : VCache
  held : List (Page × PhysFrame)

/-- The pages that are held. -/
def Client.pages (c : Client) : List Page := c.held.map Prod.fst

/-- Write down that a page is pointed at another frame. -/
def repoint (held : List (Page × PhysFrame)) (page : Page) (frame : PhysFrame) :
    List (Page × PhysFrame) :=
  held.map fun e => if e.1 = page then (e.1, frame) else e

theorem map_fst_repoint (held : List (Page × PhysFrame)) (page : Page) (frame : PhysFrame) :
    (repoint held page frame).map Prod.fst = held.map Prod.fst := by
  rw [repoint, List.map_map]
  refine List.map_congr_left fun e _ => ?_
  simp only [Function.comp_apply]
  split_ifs <;> rfl

/-- Write down that a page is given up. -/
def giveUp (held : List (Page × PhysFrame)) (page : Page) : List (Page × PhysFrame) :=
  held.filter fun e => e.1 ≠ page

/-- The calls, with their arguments. -/
inductive VCache.Call where
  | map (frame : PhysFrame)
  | mapMany (frames : List PhysFrame)
  | remap (page : Page) (frame : PhysFrame)
  | unmap (page : Page)

/-- One call that does not panic.  `remap` and `unmap` are called for held pages only. -/
inductive Client.Step : Client → VCache.Call → Client → Prop where
  | map {vc vc' : VCache} {held : List (Page × PhysFrame)} {frame : PhysFrame} {page : Page} :
      vc.map frame = .ok (some page, vc') → Step ⟨vc, held⟩ (.map frame)
      ⟨vc', (page, frame) :: held⟩
  | mapFails {vc vc' : VCache} {held : List (Page × PhysFrame)} {frame : PhysFrame} :
      vc.map frame = .ok (none, vc') → Step ⟨vc, held⟩ (.map frame) ⟨vc', held⟩
  | mapMany {vc vc' : VCache} {held : List (Page × PhysFrame)} {frames : List PhysFrame}
      {pages : List Page} :
      vc.mapMany frames [] = .ok (some pages, vc') →
      Step ⟨vc, held⟩ (.mapMany frames) ⟨vc', pages.zip frames ++ held⟩
  | mapManyFails {vc vc' : VCache} {held : List (Page × PhysFrame)} {frames : List PhysFrame} :
      vc.mapMany frames [] = .ok (none, vc') → Step ⟨vc, held⟩ (.mapMany frames) ⟨vc', held⟩
  | remap {c : Client} {vc' : VCache} {page : Page} {frame : PhysFrame} :
      page ∈ c.pages → c.cache.remap page frame = .ok (some vc') →
      Step c (.remap page frame) ⟨vc', repoint c.held page frame⟩
  | remapFails {c : Client} {page : Page} {frame : PhysFrame} :
      page ∈ c.pages → c.cache.remap page frame = .ok none → Step c (.remap page frame) c
  | unmap {c : Client} {vc' : VCache} {page : Page} :
      page ∈ c.pages → c.cache.unmap page = .ok vc' →
      Step c (.unmap page) ⟨vc', giveUp c.held page⟩

/-! ## What the cache knows about held pages -/

namespace VCache

variable {vc vc' : VCache} {held held' : List (Page × PhysFrame)} {page : Page} {frame : PhysFrame}

/-- The cache agrees with what its callers hold. -/
structure Holds (vc : VCache) (held : List (Page × PhysFrame)) : Prop where
  nodup : (held.map Prod.fst).Nodup
  window : ∀ page frame, (page, frame) ∈ held →
    ∃ i j, page = slotPage i j ∧ vc.p1 i j = windowEntry frame ∧ vc.state.p1Age i j = 0

theorem holds_initial : Holds initial [] := ⟨List.nodup_nil, by simp⟩

theorem Holds.perm (h : Holds vc held) (hperm : held'.Perm held) : Holds vc held' where
  nodup := ((hperm.map Prod.fst).nodup_iff).mpr h.nodup
  window page frame hmem := h.window page frame (hperm.mem_iff.mp hmem)

/-- A window that is not in use is not the window of a held page. -/
theorem Holds.notMem_of_fresh (h : Holds vc held) {i : Fin 4} {j : Fin 512}
    (hfresh : ¬ vc.Held i j) : slotPage i j ∉ held.map Prod.fst := by
  intro hmem
  obtain ⟨⟨page, frame⟩, hmem, hpage⟩ := List.mem_map.mp hmem
  obtain ⟨i', j', hslot, hentry, hage⟩ := h.window page frame hmem
  obtain ⟨rfl, rfl⟩ := slotPage_injective (hpage.symm.trans hslot)
  exact hfresh ⟨by rw [hentry, present_windowEntry], hage⟩

/-- A new window is not held yet, and shows its frame. -/
theorem Holds.map (h : Holds vc held) (hmap : vc.map frame = .ok (some page, vc')) :
    page ∉ held.map Prod.fst ∧ Holds vc' ((page, frame) :: held) := by
  obtain ⟨i, j, rfl, hmapped⟩ := map_spec hmap
  have hnew := h.notMem_of_fresh hmapped.fresh
  refine ⟨hnew, List.nodup_cons.mpr ⟨hnew, h.nodup⟩, fun page' frame' hmem => ?_⟩
  rcases List.mem_cons.mp hmem with heq | hmem
  · obtain ⟨rfl, rfl⟩ := Prod.mk.inj heq
    exact ⟨i, j, rfl, hmapped.entry, hmapped.age⟩
  · obtain ⟨i', j', rfl, hentry, hage⟩ := h.window page' frame' hmem
    have hheld : vc.Held i' j' := ⟨by rw [hentry, present_windowEntry], hage⟩
    have hne : ¬ (i' = i ∧ j' = j) := by
      rintro ⟨rfl, rfl⟩
      exact hmapped.fresh hheld
    obtain ⟨hheld', hsame⟩ := hmapped.keeps i' j' hne hheld
    exact ⟨i', j', rfl, hsame.trans hentry, hheld'.2⟩

/-- The pages that the loop of `map_many` adds to its result. -/
private theorem Holds.mapManyFrom {frames : List PhysFrame} {result pages : List Page}
    (h : Holds vc held) (hmap : vc.mapMany frames result = .ok (some pages, vc')) :
    ∃ new, pages = result ++ new ∧ new.length = frames.length ∧
      (∀ page ∈ new, page ∉ held.map Prod.fst) ∧ Holds vc' (new.zip frames ++ held) := by
  induction frames generalizing vc held result with
  | nil =>
    simp only [mapMany, Except.ok.injEq, Prod.mk.injEq, Option.some.injEq] at hmap
    obtain ⟨rfl, rfl⟩ := hmap
    exact ⟨[], by simp, rfl, by simp, h⟩
  | cons frame frames ih =>
    simp only [mapMany, except_bind_eq_ok, Prod.exists] at hmap
    obtain ⟨page, vc₁, hfirst, hrest⟩ := hmap
    cases page with
    | none => exact absurd hfirst map_ne_none
    | some page =>
      obtain ⟨hnew, hholds⟩ := h.map hfirst
      obtain ⟨new, rfl, hlen, hnews, hholds'⟩ := ih hholds hrest
      refine ⟨page :: new, by simp, by simp [hlen], ?_, hholds'.perm List.perm_middle.symm⟩
      -- the later pages avoid the first one as well, which is held by then
      intro page' hmem
      rcases List.mem_cons.mp hmem with rfl | hmem
      · exact hnew
      · exact fun hheld => hnews page' hmem (List.mem_cons_of_mem _ hheld)

/-- The same for several windows at once. -/
theorem Holds.mapMany {frames : List PhysFrame} {pages : List Page} (h : Holds vc held)
    (hmap : vc.mapMany frames [] = .ok (some pages, vc')) :
    pages.Nodup ∧ (∀ page ∈ pages, page ∉ held.map Prod.fst) ∧
      Holds vc' (pages.zip frames ++ held) := by
  obtain ⟨new, rfl, hlen, hnew, hholds⟩ := h.mapManyFrom hmap
  refine ⟨?_, hnew, hholds⟩
  have hnodup := hholds.nodup
  rw [List.map_append, List.map_fst_zip hlen.le] at hnodup
  exact hnodup.of_append_left

/-- `map_many` does not return `Err` either. -/
theorem mapMany_ne_none {frames : List PhysFrame} {result : List Page} :
    vc.mapMany frames result ≠ .ok (none, vc') := by
  induction frames generalizing vc result with
  | nil => simp [VCache.mapMany]
  | cons frame frames ih =>
    intro hmap
    simp only [VCache.mapMany, except_bind_eq_ok, Prod.exists] at hmap
    obtain ⟨page, vc₁, hfirst, hrest⟩ := hmap
    cases page with
    | none => exact map_ne_none hfirst
    | some page => exact ih hrest

/-- `remap` leaves the entry of a window onto the new frame, also when it does nothing. -/
@[simp] theorem remapEntry_windowEntry (old frame : PhysFrame) :
    remapEntry (windowEntry old) frame = windowEntry frame := by
  unfold remapEntry
  split_ifs with hsame
  · simp only [Bool.and_eq_true, beq_iff_eq] at hsame
    have haddr := (PageTableEntry.frame_eq_some hsame.2).2
    rw [← haddr, addr_windowEntry]
  · rfl

/-- Pointing a window elsewhere. -/
theorem Holds.remap (h : Holds vc held) (hmem : page ∈ held.map Prod.fst)
    (hremap : vc.remap page frame = .ok (some vc')) : Holds vc' (repoint held page frame) := by
  obtain ⟨⟨page, old⟩, hpair, rfl⟩ := List.mem_map.mp hmem
  obtain ⟨i, j, rfl, hentry, hage⟩ := h.window page old hpair
  rw [remap_slotPage, Except.ok.injEq, Option.some.injEq] at hremap
  subst hremap
  constructor
  · -- the pages of the windows remain, with another frame for one of them
    rw [map_fst_repoint]
    exact h.nodup
  · intro page' frame' hmem'
    obtain ⟨⟨page', old'⟩, hmem', heq⟩ := List.mem_map.mp hmem'
    obtain ⟨i', j', rfl, hentry', hage'⟩ := h.window page' old' hmem'
    simp only at heq
    split_ifs at heq with hpage <;> obtain ⟨rfl, rfl⟩ := Prod.mk.inj heq
    · obtain ⟨rfl, rfl⟩ := slotPage_injective hpage
      exact ⟨i', j', rfl, by simp [setSlot, hentry], hage⟩
    · refine ⟨i', j', rfl, ?_, hage'⟩
      simp only [setSlot]
      rw [Radix.Store.set_apply, if_neg fun hij => hpage (by rw [hij.1, hij.2]), hentry']

/-- Giving up a window: its entry stays, but nobody holds the page any more. -/
theorem Holds.unmap (h : Holds vc held) (hmem : page ∈ held.map Prod.fst)
    (hunmap : vc.unmap page = .ok vc') : Holds vc' (giveUp held page) := by
  obtain ⟨⟨page, old⟩, hpair, rfl⟩ := List.mem_map.mp hmem
  obtain ⟨i, j, rfl, -, -⟩ := h.window page old hpair
  obtain ⟨hp1, hages, -, -⟩ := unmap_spec hunmap
  refine ⟨h.nodup.sublist (List.filter_sublist.map _), fun page' frame' hmem' => ?_⟩
  obtain ⟨hmem', hne⟩ := List.mem_filter.mp hmem'
  obtain ⟨i', j', rfl, hentry, hage⟩ := h.window page' frame' hmem'
  have hij : ¬ (i' = i ∧ j' = j) := by
    rintro ⟨rfl, rfl⟩
    simp at hne
  exact ⟨i', j', rfl, by rw [hp1, hentry], by rw [hages, Radix.Store.set_apply, if_neg hij, hage]⟩

end VCache

/-! ## Runs -/

/-- One call keeps the cache and its callers in agreement. -/
theorem Client.Step.holds {c c' : Client} {call : VCache.Call} (hstep : Client.Step c call c')
    (h : c.cache.Holds c.held) : c'.cache.Holds c'.held := by
  cases hstep with
  | map hmap => exact (h.map hmap).2
  | mapFails hmap => exact absurd hmap VCache.map_ne_none
  | mapMany hmap => exact (h.mapMany hmap).2.2
  | mapManyFails hmap => exact absurd hmap VCache.mapMany_ne_none
  | remap hmem hremap => exact h.remap hmem hremap
  | remapFails _ _ => exact h
  | unmap hmem hunmap => exact h.unmap hmem hunmap

/-- After any run of calls the cache and its callers agree. -/
theorem Client.holds_of_run {c : Client} {calls : List VCache.Call}
    (hrun : Run Client.Step ⟨.initial, []⟩ calls c) : c.cache.Holds c.held :=
  hrun.preserves (I := fun c => c.cache.Holds c.held) VCache.holds_initial
    fun _ _ _ h hstep => hstep.holds h

/-- **Windows are exclusive and stable.**  After any run of calls the held pages are distinct and
lie in the area of the cache, the entry of each one shows the frame it was last pointed at, and
what `map` or `map_many` returns next is not held. -/
theorem windows_exclusive_stable {c : Client} {calls : List VCache.Call}
    (hrun : Run Client.Step ⟨.initial, []⟩ calls c) :
    c.pages.Nodup ∧
      (∀ page frame, (page, frame) ∈ c.held →
        (kvmspace.startAddress ≤ page.startAddress ∧
          page.startAddress < kvmspace.startAddress + p1PageCount * pageSize) ∧
        ∃ p2i, p2Group page = .ok p2i ∧
          (c.cache.p1 p2i page.p1Index).flags = .PRESENT ||| .WRITABLE ||| .GLOBAL ∧
          (c.cache.p1 p2i page.p1Index).addr = frame) ∧
      (∀ frame page vc', c.cache.map frame = .ok (some page, vc') → page ∉ c.pages) ∧
      ∀ frames pages vc', c.cache.mapMany frames [] = .ok (some pages, vc') →
        pages.Nodup ∧ ∀ page ∈ pages, page ∉ c.pages := by
  -- everything is read off the invariant of the run
  have h := Client.holds_of_run hrun
  refine ⟨h.nodup, fun page frame hmem => ?_, fun frame page vc' hmap => (h.map hmap).1,
    fun frames pages vc' hmap => ?_⟩
  · obtain ⟨i, j, rfl, hentry, -⟩ := h.window page frame hmem
    obtain ⟨hlo, hhi⟩ := slotPage_inArea i j
    refine ⟨?_, i, p2Group_slotPage i j, ?_, ?_⟩
    · simp only [Page.startAddress, pageSize]
      omega
    · rw [slotPage_p1Index, hentry, windowEntry, PageTableEntry.flags_ofFrame]
      decide
    · rw [slotPage_p1Index, hentry, addr_windowEntry]
  · obtain ⟨hnodup, hnew, -⟩ := h.mapMany hmap
    exact ⟨hnodup, hnew⟩

namespace VCache

theorem present_initial (i : Fin 4) (j : Fin 512) : (initial.p1 i j).present = false :=
  PageTableEntry.present_zero

theorem counted_initial : initial.Counted where
  free i := by
    simp only [freeSlots, present_initial]
    simp [initial, VCacheState.new]
  lazyCount i := by simp [initial, VCacheState.new, lazySlots]
  lazyPresent i j hage := absurd rfl hage

end VCache

/-! ## The counters along a run -/

namespace VCache

variable {vc vc' : VCache} {held : List (Page × PhysFrame)} {page : Page} {frame : PhysFrame}

/-- `map` takes the window of the page it returns, and no other. -/
theorem Counted.map_takes (hc : vc.Counted) (hmap : vc.map frame = .ok (some page, vc')) :
    ∃ i j, page = slotPage i j ∧ vc'.Counted ∧ HeldBut vc vc' i j := by
  rcases Nat.eq_zero_or_pos vc.capacity with hzero | hpos
  · rw [map_panics hc hzero] at hmap
    cases hmap
  · obtain ⟨i, j, vc₁, hmap₁, hcounted, hbut, -⟩ := map_of_capacity hc hpos frame
    rw [hmap, Except.ok.injEq, Prod.mk.injEq, Option.some.injEq] at hmap₁
    obtain ⟨rfl, rfl⟩ := hmap₁
    exact ⟨i, j, rfl, hcounted, hbut⟩

theorem Counted.map (hc : vc.Counted) (hmap : vc.map frame = .ok (some page, vc')) :
    vc'.Counted := by
  obtain ⟨i, j, -, hcounted, -⟩ := hc.map_takes hmap
  exact hcounted

theorem Counted.mapMany {frames : List PhysFrame} {result pages : List Page} (hc : vc.Counted)
    (hmap : vc.mapMany frames result = .ok (some pages, vc')) : vc'.Counted := by
  induction frames generalizing vc result with
  | nil =>
    simp only [VCache.mapMany, Except.ok.injEq, Prod.mk.injEq] at hmap
    rwa [← hmap.2]
  | cons frame frames ih =>
    simp only [VCache.mapMany, except_bind_eq_ok, Prod.exists] at hmap
    obtain ⟨page, vc₁, hfirst, hrest⟩ := hmap
    cases page with
    | none => exact absurd hfirst map_ne_none
    | some page => exact ih (hc.map hfirst) hrest

/-- A held page has a window that is in use. -/
theorem Holds.held_of_mem (h : Holds vc held) (hmem : page ∈ held.map Prod.fst) :
    ∃ i j, page = slotPage i j ∧ vc.Held i j := by
  obtain ⟨⟨page, old⟩, hpair, rfl⟩ := List.mem_map.mp hmem
  obtain ⟨i, j, rfl, hentry, hage⟩ := h.window page old hpair
  exact ⟨i, j, rfl, by rw [hentry, present_windowEntry], hage⟩

/-- The entry of a held window is present before and after `remap`. -/
theorem Counted.remap (hc : vc.Counted) {i : Fin 4} {j : Fin 512} (hheld : vc.Held i j)
    (hremap : vc.remap (slotPage i j) frame = .ok (some vc')) : vc'.Counted := by
  rw [remap_slotPage, Except.ok.injEq, Option.some.injEq] at hremap
  subst hremap
  refine hc.of_present rfl fun i' j' => ?_
  simp only [setSlot]
  rw [Radix.Store.set_apply]
  split_ifs with heq
  · rw [present_remapEntry, heq.1, heq.2, hheld.1]
  · rfl

/-- `unmap` gives up the window of its page, and no other. -/
theorem Counted.unmap_gives (hc : vc.Counted) {i : Fin 4} {j : Fin 512} (hheld : vc.Held i j)
    (hunmap : vc.unmap (slotPage i j) = .ok vc') :
    vc'.Counted ∧ HeldBut vc vc' i j ∧ ¬ vc'.Held i j := by
  obtain ⟨vc₁, hunmap₁, hgives⟩ := unmap_progress hc hheld
  rw [hunmap, Except.ok.injEq] at hunmap₁
  rwa [hunmap₁]

theorem Counted.unmap (hc : vc.Counted) {i : Fin 4} {j : Fin 512} (hheld : vc.Held i j)
    (hunmap : vc.unmap (slotPage i j) = .ok vc') : vc'.Counted :=
  (hc.unmap_gives hheld hunmap).1

end VCache

/-- Each call keeps the counters right. For `remap` and `unmap` this needs the window to be held,
which is what the callers see to. -/
theorem Client.Step.counted {c c' : Client} {call : VCache.Call} (hstep : Client.Step c call c')
    (h : c.cache.Holds c.held) (hc : c.cache.Counted) : c'.cache.Counted := by
  cases hstep with
  | map hmap => exact hc.map hmap
  | mapFails hmap => exact absurd hmap VCache.map_ne_none
  | mapMany hmap => exact hc.mapMany hmap
  | mapManyFails hmap => exact absurd hmap VCache.mapMany_ne_none
  | remap hmem hremap =>
    obtain ⟨i, j, rfl, hheld⟩ := h.held_of_mem hmem
    exact hc.remap hheld hremap
  | remapFails _ _ => exact hc
  | unmap hmem hunmap =>
    obtain ⟨i, j, rfl, hheld⟩ := h.held_of_mem hmem
    exact hc.unmap hheld hunmap

/-- After any run of calls the counters are exact. -/
theorem Client.counted_of_run {c : Client} {calls : List VCache.Call}
    (hrun : Run Client.Step ⟨.initial, []⟩ calls c) : c.cache.Counted := by
  have hboth := hrun.preserves (I := fun c => c.cache.Holds c.held ∧ c.cache.Counted)
    ⟨VCache.holds_initial, VCache.counted_initial⟩
    fun _ _ _ h hstep => ⟨hstep.holds h.1, hstep.counted h.1 h.2⟩
  exact hboth.2

/-- A window that is mapped and then pointed at another frame. -/
theorem windows_exclusive_stable_remap :
    ∃ (page : Page) (c : Client),
      Run Client.Step ⟨.initial, []⟩ [.map ⟨1, by decide⟩, .remap page ⟨2, by decide⟩] c ∧
      c.pages = [page] ∧ c.pages.Nodup ∧
      ∃ p2i, p2Group page = .ok p2i ∧ (c.cache.p1 p2i page.p1Index).addr = ⟨2, by decide⟩ := by
  have hroom : VCache.initial.unheld.Nonempty :=
    ⟨0, VCache.mem_unheld.mpr fun h => by simp [VCache.Held, VCache.present_initial] at h⟩
  obtain ⟨i, j, vc, hmap, -, -⟩ :=
    VCache.map_progress VCache.counted_initial hroom ⟨1, by decide⟩
  have hfirst : Client.Step ⟨.initial, []⟩ _ _ := .map hmap
  have hrun := ((Run.nil _).snoc hfirst).snoc
    (.remap (by simp [Client.pages]) (VCache.remap_slotPage vc i j ⟨2, by decide⟩))
  obtain ⟨hnodup, hwindow, -⟩ := windows_exclusive_stable hrun
  obtain ⟨-, p2i, hgroup, -, haddr⟩ := hwindow (slotPage i j) ⟨2, by decide⟩ (by simp [repoint])
  exact ⟨slotPage i j, _, hrun, by simp [Client.pages, repoint], hnodup, p2i, hgroup, haddr⟩

end HeliumOS.Mem.Virt
