import HeliumOS.Mem.Virt.VCacheRuns
import Mathlib.Data.Fintype.Prod

/-!
# Exhaustion of the Virtual Cache

`map` is meant to return `Err(())` when all 2048 windows are held, and a window otherwise.  What
it does depends on the capacity of the cache instead: with capacity left it returns a window, and
without it panics.  The capacity can be zero while windows are lazy, in tables other than the
first.

- `map_reports_exhaustion_iff` says for which states reached by the callers `map` and `map_many`
  do what they are meant to.
- `exists_filled` drives the cache to any number of held pages.
-/

namespace HeliumOS.Mem.Virt

open HeliumOS.Lib

/-! ## What is meant -/

/-- `map` returns a window while fewer than 2048 are held, and reports an error without a change
when all of them are. -/
def Client.MapsOrReports (c : Client) (frame : PhysFrame) : Prop :=
  (c.held.length < p1PageCount → ∃ page vc', c.cache.map frame = .ok (some page, vc')) ∧
    (c.held.length = p1PageCount → c.cache.map frame = .ok (none, c.cache))

/-- `map_many` returns as many fresh and distinct pages as there are frames, or it reports an
error and the same windows are in use as before. -/
def Client.MapsAllOrReports (c : Client) (frames : List PhysFrame) : Prop :=
  (∃ pages vc', c.cache.mapMany frames [] = .ok (some pages, vc') ∧
      pages.length = frames.length ∧ pages.Nodup ∧ ∀ page ∈ pages, page ∉ c.pages) ∨
    ∃ vc', c.cache.mapMany frames [] = .ok (none, vc') ∧
      ∀ i j, vc'.Held i j ↔ c.cache.Held i j

namespace VCache

variable {vc vc' : VCache} {held : List (Page × PhysFrame)} {frame : PhysFrame}

/-! ## The loop of `map_many` -/

theorem mapMany_of_capacity {frames : List PhysFrame} (result : List Page) (hc : vc.Counted)
    (hlen : frames.length ≤ vc.capacity) :
    ∃ pages vc', vc.mapMany frames result = .ok (some pages, vc') ∧
      pages.length = result.length + frames.length := by
  induction frames generalizing vc result with
  | nil => exact ⟨result, vc, rfl, rfl⟩
  | cons frame frames ih =>
    rw [List.length_cons] at hlen
    obtain ⟨i, j, vc₁, hmap, hcounted, -, hcap⟩ := map_of_capacity hc (by omega) frame
    obtain ⟨pages, vc', hrest, hpages⟩ := ih (result ++ [slotPage i j]) hcounted (by omega)
    refine ⟨pages, vc', ?_, ?_⟩
    · simp only [VCache.mapMany, hmap, except_ok_bind, hrest]
    · rw [hpages, List.length_append, List.length_singleton, List.length_cons]
      omega

theorem mapMany_panics {frames : List PhysFrame} (result : List Page) (hc : vc.Counted)
    (hlen : vc.capacity < frames.length) : ∃ e, vc.mapMany frames result = .error e := by
  induction frames generalizing vc result with
  | nil => exact absurd hlen (Nat.not_lt_zero _)
  | cons frame frames ih =>
    rw [List.length_cons] at hlen
    rcases Nat.eq_zero_or_pos vc.capacity with hzero | hpos
    · rw [VCache.mapMany, map_panics hc hzero]
      exact ⟨_, rfl⟩
    · obtain ⟨i, j, vc₁, hmap, hcounted, -, hcap⟩ := map_of_capacity hc hpos frame
      obtain ⟨e, hrest⟩ := ih (result ++ [slotPage i j]) hcounted (by omega)
      refine ⟨e, ?_⟩
      simp only [VCache.mapMany, hmap, except_ok_bind, hrest]

/-! ## Held pages and windows -/

/-- The windows that are in use. -/
def heldSlots (vc : VCache) : Finset (Fin 4 × Fin 512) :=
  Finset.univ.filter fun s => vc.Held s.1 s.2

/-- The pages of a set of windows. -/
def slotPages (slots : Finset (Fin 4 × Fin 512)) : Finset Page :=
  slots.image fun s => slotPage s.1 s.2

theorem card_slotPages_le (slots : Finset (Fin 4 × Fin 512)) :
    (slotPages slots).card ≤ slots.card := Finset.card_image_le

theorem card_windows : (Finset.univ : Finset (Fin 4 × Fin 512)).card = p1PageCount := by
  rw [Finset.card_univ, Fintype.card_prod, Fintype.card_fin, Fintype.card_fin]
  rfl

theorem Holds.card_pages (h : Holds vc held) :
    (held.map Prod.fst).toFinset.card = held.length := by
  rw [List.toFinset_card_of_nodup h.nodup, List.length_map]

theorem Holds.pages_subset (h : Holds vc held) :
    (held.map Prod.fst).toFinset ⊆ slotPages vc.heldSlots := by
  intro page hmem
  obtain ⟨i, j, rfl, hheld⟩ := h.held_of_mem (List.mem_toFinset.mp hmem)
  exact Finset.mem_image.mpr ⟨(i, j), by simpa [heldSlots] using hheld, rfl⟩

/-- Held pages are pages of different windows. -/
theorem Holds.length_le (h : Holds vc held) : held.length ≤ vc.heldSlots.card := by
  rw [← h.card_pages]
  exact (Finset.card_le_card h.pages_subset).trans (card_slotPages_le _)

theorem Holds.length_le_windows (h : Holds vc held) : held.length ≤ p1PageCount := by
  rw [← card_windows]
  exact h.length_le.trans (Finset.card_le_univ _)

/-- Capacity is in windows that are not held. -/
theorem exists_not_held (hcap : 0 < vc.capacity) : ∃ i j, ¬ vc.Held i j := by
  by_contra hall
  push Not at hall
  have hfree : ∀ i, vc.freeSlots i = ∅ := fun i => by
    rw [Finset.eq_empty_iff_forall_notMem]
    intro j
    simp [(hall i j).1]
  have hlazy : vc.lazySlots 0 = ∅ := by
    rw [Finset.eq_empty_iff_forall_notMem]
    intro j
    simp [(hall 0 j).2]
  simp [capacity, hfree, hlazy] at hcap

theorem Holds.length_lt (h : Holds vc held) (hcap : 0 < vc.capacity) :
    held.length < p1PageCount := by
  obtain ⟨i, j, hnot⟩ := exists_not_held hcap
  have hssubset : vc.heldSlots ⊂ Finset.univ :=
    Finset.filter_ssubset.mpr ⟨(i, j), Finset.mem_univ _, hnot⟩
  rw [← card_windows]
  exact h.length_le.trans_lt (Finset.card_lt_card hssubset)

/-- With 2048 held pages every window has one. -/
theorem Holds.mem_pages_of_full (h : Holds vc held) (hfull : held.length = p1PageCount)
    (i : Fin 4) (j : Fin 512) : slotPage i j ∈ held.map Prod.fst := by
  have hsub : (held.map Prod.fst).toFinset ⊆ slotPages Finset.univ :=
    h.pages_subset.trans (Finset.image_subset_image (Finset.subset_univ _))
  have heq := Finset.eq_of_subset_of_card_le hsub (by
    rw [h.card_pages, hfull, ← card_windows]
    exact card_slotPages_le _)
  rw [← List.mem_toFinset, heq]
  exact Finset.mem_image.mpr ⟨(i, j), Finset.mem_univ _, rfl⟩

end VCache

/-! ## Exhaustion -/

/-- **`map` and `map_many` do what they are meant to exactly while the capacity lasts.**  In every
state that the callers reach, `map` needs capacity for one window and `map_many` for as many as
there are frames. -/
theorem map_reports_exhaustion_iff {c : Client} {calls : List VCache.Call}
    (hrun : Run Client.Step ⟨.initial, []⟩ calls c) :
    (∀ frame, c.MapsOrReports frame ↔ 0 < c.cache.capacity) ∧
      ∀ frames, c.MapsAllOrReports frames ↔ frames.length ≤ c.cache.capacity := by
  have hholds := Client.holds_of_run hrun
  have hc := Client.counted_of_run hrun
  constructor
  · intro frame
    constructor
    · rintro ⟨hmaps, hreports⟩
      by_contra hzero
      have hpanic := VCache.map_panics hc (Nat.eq_zero_of_not_pos hzero) frame
      -- neither of the two cases allows a panic
      rcases hholds.length_le_windows.lt_or_eq with hlt | hfull
      · obtain ⟨page, vc', hmap⟩ := hmaps hlt
        rw [hpanic] at hmap
        cases hmap
      · rw [hreports hfull] at hpanic
        cases hpanic
    · intro hcap
      obtain ⟨i, j, vc', hmap, -⟩ := VCache.map_of_capacity hc hcap frame
      have hlt := hholds.length_lt hcap
      exact ⟨fun _ => ⟨_, vc', hmap⟩, fun hfull => absurd hfull hlt.ne⟩
  · intro frames
    constructor
    · intro hmaps
      by_contra hlen
      obtain ⟨e, hpanic⟩ := VCache.mapMany_panics [] hc (Nat.not_le.mp hlen)
      rcases hmaps with ⟨pages, vc', hmap, -⟩ | ⟨vc', hmap, -⟩
      · rw [hpanic] at hmap
        cases hmap
      · exact VCache.mapMany_ne_none hmap
    · intro hlen
      obtain ⟨pages, vc', hmap, hpages⟩ := VCache.mapMany_of_capacity [] hc hlen
      obtain ⟨hnodup, hnew, -⟩ := hholds.mapMany hmap
      rw [List.length_nil, Nat.zero_add] at hpages
      exact .inl ⟨pages, vc', hmap, hpages, hnodup, hnew⟩

/-! ## Runs to the end -/

theorem VCache.capacity_initial : VCache.initial.capacity = p1PageCount := by
  rw [counted_initial.capacity_eq]
  rfl

/-- The first call has 2048 windows to choose from. -/
theorem map_reports_exhaustion_initial :
    0 < VCache.initial.capacity ∧ Client.MapsOrReports ⟨.initial, []⟩ ⟨1, by decide⟩ ∧
      Client.MapsAllOrReports ⟨.initial, []⟩ [⟨1, by decide⟩, ⟨2, by decide⟩] := by
  have hcap : VCache.initial.capacity = 2048 := VCache.capacity_initial
  obtain ⟨hmap, hmany⟩ := map_reports_exhaustion_iff (.nil _)
  refine ⟨by omega, (hmap _).mpr ?_, (hmany _).mpr ?_⟩
  · change 0 < VCache.initial.capacity
    omega
  · change 2 ≤ VCache.initial.capacity
    omega

/-- Every call of `map` uses up one window, down to the last one. -/
theorem exists_filled {n : ℕ} (hn : n ≤ p1PageCount) :
    ∃ calls c, Run Client.Step ⟨.initial, []⟩ calls c ∧ c.held.length = n ∧
      c.cache.capacity + n = p1PageCount := by
  induction n with
  | zero =>
    refine ⟨[], _, .nil _, rfl, ?_⟩
    rw [Nat.add_zero, VCache.capacity_initial]
  | succ n ih =>
    obtain ⟨calls, c, hrun, hlen, hcap⟩ := ih (by omega)
    have hc := Client.counted_of_run hrun
    obtain ⟨i, j, vc', hmap, -, -, hcap'⟩ :=
      VCache.map_of_capacity hc (by omega) ⟨1, by decide⟩
    refine ⟨_, _, hrun.snoc (.map hmap), ?_, ?_⟩
    · rw [List.length_cons, hlen]
    · change vc'.capacity + (n + 1) = p1PageCount
      omega

/-- Giving up a held page leaves one page less. -/
theorem length_giveUp {held : List (Page × PhysFrame)} {page : Page}
    (hnodup : (held.map Prod.fst).Nodup) (hmem : page ∈ held.map Prod.fst) :
    (giveUp held page).length + 1 = held.length := by
  have hone : held.countP (fun e => e.1 = page) = 1 := by
    have hcount := List.count_eq_one_of_mem hnodup hmem
    rw [List.count, List.countP_map] at hcount
    rw [← hcount]
    exact List.countP_congr fun e _ => by simp
  have hsplit := List.length_eq_countP_add_countP (fun e : Page × PhysFrame => e.1 = page)
    (l := held)
  rw [hone] at hsplit
  rw [giveUp, ← List.countP_eq_length_filter, hsplit, Nat.add_comm]
  refine congrArg _ (List.countP_congr fun e _ => by simp)

/-- All windows are taken, and one of the second table is given up.  2047 pages are held, and yet
`map` panics when it counts the free windows of that table down from zero. -/
theorem map_panics_lazy_second_table :
    ∃ calls c, Run Client.Step ⟨.initial, []⟩ calls c ∧ c.held.length = 2047 ∧
      c.cache.map ⟨1, by decide⟩ = .error .freecountUnderflow ∧
      ¬ c.MapsOrReports ⟨1, by decide⟩ := by
  obtain ⟨calls, c, hrun, hlen, hcap⟩ := exists_filled le_rfl
  have hholds := Client.holds_of_run hrun
  have hmem := hholds.mem_pages_of_full hlen 1 0
  obtain ⟨i, j, hslot, hheld⟩ := hholds.held_of_mem hmem
  obtain ⟨rfl, rfl⟩ := slotPage_injective hslot
  have hc := Client.counted_of_run hrun
  obtain ⟨vc', hunmap, hcounted, -, -⟩ := VCache.unmap_progress hc hheld
  obtain ⟨-, -, hfree, hlazy⟩ := VCache.unmap_spec hunmap
  -- the lazy count of the first table is still zero, and no window is free
  have hzero : vc'.capacity = 0 := by
    rw [hcounted.capacity_eq, hfree, hlazy, Function.update_of_ne (by decide), ← hc.capacity_eq]
    omega
  have hpanic : vc'.map ⟨1, by decide⟩ = .error .freecountUnderflow := by
    rw [VCache.map_panics hcounted hzero, if_neg]
    intro hnone
    have hone := hnone 1
    rw [hlazy, Function.update_self] at hone
    cases hone
  have hlen' : (giveUp c.held (slotPage 1 0)).length = 2047 := by
    have hgive := length_giveUp hholds.nodup hmem
    rw [hlen] at hgive
    exact Nat.succ.inj hgive
  refine ⟨_, _, hrun.snoc (.unmap hmem hunmap), hlen', hpanic, fun hmaps => ?_⟩
  obtain ⟨page, vc'', hmap⟩ := hmaps.1 (by rw [hlen']; decide)
  rw [hpanic] at hmap
  cases hmap

end HeliumOS.Mem.Virt
