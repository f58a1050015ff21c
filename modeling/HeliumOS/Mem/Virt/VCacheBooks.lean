import HeliumOS.Mem.Virt.VCacheRuns

/-!
# The Books of the Virtual Cache

The cache records the state of a window three times: in its entry, in its age, and in the two
counters of its table.  None of them names the callers, so a window could be in use without anybody
holding its page, and would be lost for good.  This does not happen: along every run the windows in
use are the windows of held pages (`Client.held_iff_of_run`).

Each window of a table is therefore free, lazy or held by a caller, and `bookkeeping_agrees` adds
the three up.
-/

namespace HeliumOS.Mem.Virt

open HeliumOS.Lib

namespace VCache

variable {vc vc' : VCache} {held : List (Page × PhysFrame)} {page : Page} {frame : PhysFrame}
  {i : Fin 4} {j : Fin 512}

/-! ## No window is lost -/

/-- Every window in use is the window of a held page. -/
def Owned (vc : VCache) (held : List (Page × PhysFrame)) : Prop :=
  ∀ i j, vc.Held i j → slotPage i j ∈ held.map Prod.fst

theorem owned_initial : Owned initial [] := by
  intro i j hheld
  have hpresent := hheld.1
  rw [present_initial] at hpresent
  cases hpresent

theorem Owned.map (ho : Owned vc held) (hc : vc.Counted)
    (hmap : vc.map frame = .ok (some page, vc')) : Owned vc' ((page, frame) :: held) := by
  obtain ⟨i, j, rfl, -, hbut⟩ := hc.map_takes hmap
  intro i' j' hheld
  rw [List.map_cons, List.mem_cons]
  by_cases hij : i' = i ∧ j' = j
  · left
    rw [hij.1, hij.2]
  · right
    exact ho i' j' ((hbut i' j' hij).mp hheld)

/-- `Owned` is about the pages only, in any order. -/
theorem Owned.perm {held' : List (Page × PhysFrame)} (ho : Owned vc held)
    (hperm : held'.Perm held) : Owned vc held' := by
  intro i j hheld
  exact (hperm.map Prod.fst).mem_iff.mpr (ho i j hheld)

/-- The loop of `map_many`, which adds its pages to the result one by one. -/
theorem Owned.mapManyFrom {frames : List PhysFrame} {result pages : List Page}
    (ho : Owned vc held) (hc : vc.Counted)
    (hmap : vc.mapMany frames result = .ok (some pages, vc')) :
    ∃ new, pages = result ++ new ∧ Owned vc' (new.zip frames ++ held) := by
  induction frames generalizing vc held result with
  | nil =>
    simp only [VCache.mapMany, Except.ok.injEq, Prod.mk.injEq, Option.some.injEq] at hmap
    obtain ⟨rfl, rfl⟩ := hmap
    exact ⟨[], by simp, ho⟩
  | cons frame frames ih =>
    simp only [VCache.mapMany, except_bind_eq_ok, Prod.exists] at hmap
    obtain ⟨page, vc₁, hfirst, hrest⟩ := hmap
    cases page with
    | none => exact absurd hfirst map_ne_none
    | some page =>
      obtain ⟨new, rfl, howned⟩ := ih (ho.map hc hfirst) (hc.map hfirst) hrest
      exact ⟨page :: new, by simp, howned.perm List.perm_middle.symm⟩

theorem Owned.mapMany {frames : List PhysFrame} {pages : List Page} (ho : Owned vc held)
    (hc : vc.Counted) (hmap : vc.mapMany frames [] = .ok (some pages, vc')) :
    Owned vc' (pages.zip frames ++ held) := by
  obtain ⟨new, rfl, howned⟩ := ho.mapManyFrom hc hmap
  exact howned

/-- `remap` changes the frame of a window, and not whether it is in use. -/
theorem Owned.remap (ho : Owned vc held) (hheld : vc.Held i j)
    (hremap : vc.remap (slotPage i j) frame = .ok (some vc')) :
    Owned vc' (repoint held (slotPage i j) frame) := by
  rw [remap_slotPage, Except.ok.injEq, Option.some.injEq] at hremap
  subst hremap
  intro i' j' hheld'
  rw [map_fst_repoint]
  refine ho i' j' ⟨?_, hheld'.2⟩
  by_cases hij : i' = i ∧ j' = j
  · rw [hij.1, hij.2]
    exact hheld.1
  · have hpresent := hheld'.1
    simp only [setSlot] at hpresent
    rwa [Radix.Store.set_apply, if_neg hij] at hpresent

/-- The window of the page that is given up is in use no longer. -/
theorem Owned.unmap (ho : Owned vc held) (hc : vc.Counted) (hheld : vc.Held i j)
    (hunmap : vc.unmap (slotPage i j) = .ok vc') : Owned vc' (giveUp held (slotPage i j)) := by
  obtain ⟨-, hbut, hfree⟩ := hc.unmap_gives hheld hunmap
  intro i' j' hheld'
  have hij : ¬ (i' = i ∧ j' = j) := by
    rintro ⟨rfl, rfl⟩
    exact hfree hheld'
  obtain ⟨e, hmem, hpage⟩ := List.mem_map.mp (ho i' j' ((hbut i' j' hij).mp hheld'))
  refine List.mem_map.mpr ⟨e, List.mem_filter.mpr ⟨hmem, ?_⟩, hpage⟩
  rw [decide_eq_true_eq, hpage]
  exact fun heq => hij (slotPage_injective heq)

end VCache

/-- One call loses no window. -/
theorem Client.Step.owned {c c' : Client} {call : VCache.Call} (hstep : Client.Step c call c')
    (h : c.cache.Holds c.held) (hc : c.cache.Counted) (ho : c.cache.Owned c.held) :
    c'.cache.Owned c'.held := by
  cases hstep with
  | map hmap => exact ho.map hc hmap
  | mapFails hmap => exact absurd hmap VCache.map_ne_none
  | mapMany hmap => exact ho.mapMany hc hmap
  | mapManyFails hmap => exact absurd hmap VCache.mapMany_ne_none
  | remap hmem hremap =>
    obtain ⟨i, j, rfl, hheld⟩ := h.held_of_mem hmem
    exact ho.remap hheld hremap
  | remapFails _ _ => exact ho
  | unmap hmem hunmap =>
    obtain ⟨i, j, rfl, hheld⟩ := h.held_of_mem hmem
    exact ho.unmap hc hheld hunmap

/-- After any run of calls the windows in use are the windows of held pages. -/
theorem Client.held_iff_of_run {c : Client} {calls : List VCache.Call}
    (hrun : Run Client.Step ⟨.initial, []⟩ calls c) (i : Fin 4) (j : Fin 512) :
    c.cache.Held i j ↔ slotPage i j ∈ c.pages := by
  have hinv := hrun.preserves
    (I := fun c => c.cache.Holds c.held ∧ c.cache.Counted ∧ c.cache.Owned c.held)
    ⟨VCache.holds_initial, VCache.counted_initial, VCache.owned_initial⟩
    fun _ _ _ ⟨h, hc, ho⟩ hstep =>
      ⟨hstep.holds h, hstep.counted h hc, hstep.owned h hc ho⟩
  obtain ⟨h, -, ho⟩ := hinv
  constructor
  · exact ho i j
  · intro hmem
    by_contra hfresh
    exact h.notMem_of_fresh hfresh hmem

/-! ## The counters of one table -/

/-- The windows of one table whose pages are held. -/
def Client.heldWindows (c : Client) (i : Fin 4) : Finset (Fin 512) :=
  Finset.univ.filter fun j => slotPage i j ∈ c.pages

namespace VCache

variable {vc : VCache}

/-- A window that is not in use is free or lazy, and not both. -/
theorem Counted.card_not_held (hc : vc.Counted) (i : Fin 4) :
    (Finset.univ.filter fun j => ¬ vc.Held i j).card =
      vc.state.p2Freecount i + vc.state.p2Lazycount i := by
  have hdisjoint : Disjoint (vc.freeSlots i) (vc.lazySlots i) := by
    rw [Finset.disjoint_left]
    intro j hfree hlazy
    rw [mem_freeSlots] at hfree
    exact mem_lazySlots.mp hlazy (hc.age_of_free hfree)
  have hunion : (Finset.univ.filter fun j => ¬ vc.Held i j) = vc.freeSlots i ∪ vc.lazySlots i := by
    ext j
    simp only [Finset.mem_filter, Finset.mem_univ, true_and, Finset.mem_union, mem_freeSlots,
      mem_lazySlots, Held, not_and_or, Bool.not_eq_true]
  rw [hunion, Finset.card_union_of_disjoint hdisjoint, hc.free, hc.lazyCount]

end VCache

/-- **The bookkeeping agrees with the tables.**  After any run of calls that does not panic, the
counters of each table are the numbers of its free and of its lazy windows, a lazy window is
present, and together with the windows that the callers hold they make up the table. -/
theorem bookkeeping_agrees {c : Client} {calls : List VCache.Call}
    (hrun : Run Client.Step ⟨.initial, []⟩ calls c) (i : Fin 4) :
    c.cache.state.p2Freecount i =
        (Finset.univ.filter fun j => (c.cache.p1 i j).present = false).card ∧
      c.cache.state.p2Lazycount i =
        (Finset.univ.filter fun j => c.cache.state.p1Age i j ≠ 0).card ∧
      (∀ j, c.cache.state.p1Age i j ≠ 0 → (c.cache.p1 i j).present = true) ∧
      c.cache.state.p2Freecount i + c.cache.state.p2Lazycount i + (c.heldWindows i).card = 512 := by
  have hc := Client.counted_of_run hrun
  refine ⟨hc.free i, hc.lazyCount i, fun j => hc.lazyPresent i j, ?_⟩
  have hheld : c.heldWindows i = Finset.univ.filter fun j => c.cache.Held i j := by
    ext j
    simp only [Client.heldWindows, Finset.mem_filter, Client.held_iff_of_run hrun]
  have hsplit := Finset.card_filter_add_card_filter_not
    (s := (Finset.univ : Finset (Fin 512))) (p := fun j => c.cache.Held i j)
  rw [Finset.card_univ, Fintype.card_fin, hc.card_not_held, ← hheld] at hsplit
  omega

/-- A window that is mapped and given up is held by nobody, and counted as lazy. -/
theorem bookkeeping_agrees_unmap :
    ∃ (page : Page) (c : Client),
      Run Client.Step ⟨.initial, []⟩ [.map ⟨1, by decide⟩, .unmap page] c ∧ c.pages = [] ∧
      ∀ i, c.cache.state.p2Freecount i + c.cache.state.p2Lazycount i +
        (c.heldWindows i).card = 512 := by
  have hroom : VCache.initial.unheld.Nonempty :=
    ⟨0, VCache.mem_unheld.mpr fun h => by simp [VCache.Held, VCache.present_initial] at h⟩
  obtain ⟨i, j, vc, hmap, hc, -⟩ :=
    VCache.map_progress VCache.counted_initial hroom ⟨1, by decide⟩
  have hfirst : Client.Step ⟨.initial, []⟩ _ _ := .map hmap
  have hrun := (Run.nil _).snoc hfirst
  have hheld : vc.Held i j := (Client.held_iff_of_run hrun i j).mpr (by simp [Client.pages])
  obtain ⟨vc', hunmap, -⟩ := VCache.unmap_progress hc hheld
  have hrun' := hrun.snoc (.unmap (by simp [Client.pages]) hunmap)
  exact ⟨slotPage i j, _, hrun', by simp [Client.pages, giveUp],
    fun i => (bookkeeping_agrees hrun' i).2.2.2⟩

end HeliumOS.Mem.Virt
