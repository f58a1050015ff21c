import HeliumOS.Proc.Loader

/-!
# What a Loaded Program Contains

The bytes behind the mappings of a memory map, while the loader fills it.

- `Imaged` is the invariant of a load: for every page that the regions loaded so far take, the last
  mapping of the page leads to a frame with the contents of the owner of the page.  Outside the
  owner's own addresses a frame still has the contents that it had when it was free.
- `imaged_of_run` carries it through the regions of a file, one at a time.
-/

namespace HeliumOS.Proc

open HeliumOS.Lib HeliumOS.Lib.AllocProg HeliumOS.Mem HeliumOS.Mem.Virt HeliumOS.Elf

/-- The frame of a mapping has the contents of a page of the region. -/
def Shows (vm₀ vm : Vm) (r : Region) (m : MemoryMapping) : Prop :=
  ∀ o < pageSize,
    frameByte vm m.padr o = r.fill (m.vadr.num * pageSize + o) (frameByte vm₀ m.padr o)

/-- The loader has come from `vm₀` with `F₀` free to `vm` with `F` free, and has loaded the
regions. -/
structure Imaged (vm₀ vm : Vm) (F₀ F : Set PhysFrame) (map : MemoryMap) (regions : List Region) :
    Prop extends Loading vm₀ vm F₀ F map where
  stale : ∀ f ∈ F, vm.mem f = vm₀.mem f
  length : map.mappings.length = pageTotal regions
  unmapped : ∀ q : Page, owner regions q.num = none → map.last q = none
  shown : ∀ (q : Page) r, owner regions q.num = some r → ∃ m, map.last q = some m ∧ Shows vm₀ vm r m

section Imaged

variable {vm₀ vm vm' : Vm} {F₀ F F' M : Set PhysFrame} {map map' : MemoryMap}
  {regions : List Region} {r : Region} {core : ℕ}

theorem Imaged.new (hinv : vm.Inv) (F : Set PhysFrame) : Imaged vm vm F F .new [] where
  toLoading := .new hinv F
  stale _ _ := rfl
  length := rfl
  unmapped _ _ := rfl
  shown q r h := by simp [owner] at h

/-- The mapping that counts after a region was added. -/
theorem Filled.last {added : List MemoryMapping} (h : Filled vm vm' F F' r map map' added)
    (q : Page) :
    if r.Maps q.num then
      ∃ m, map'.last q = some m ∧ m.vadr = q ∧ added[q.num - r.first]? = some m
    else map'.last q = map.last q := by
  have hsplit : map'.last q =
      (added.reverse.find? fun m => m.vadr = q).or (map.last q) := by
    rw [MemoryMap.last, h.mappings, List.reverse_append, List.find?_append, MemoryMap.last]
  split_ifs with hmaps
  · obtain ⟨hlo, hhi⟩ := hmaps
    have hk : q.num - r.first < added.length := by
      rw [h.count]
      omega
    have hcell := List.getElem?_eq_getElem hk
    have hpage : added[q.num - r.first].vadr = q := Page.ext (by rw [h.pages _ _ hcell]; omega)
    have hsome : (added.reverse.find? fun m => m.vadr = q).isSome := by
      rw [List.find?_isSome]
      exact ⟨_, List.mem_reverse.mpr (List.getElem_mem hk), by simpa using hpage⟩
    obtain ⟨m, hm⟩ := Option.isSome_iff_exists.mp hsome
    -- whatever is found sits at the index of its page
    have hvadr : m.vadr = q := by simpa using List.find?_some hm
    obtain ⟨k, hk'⟩ := List.mem_iff_getElem?.mp
      (List.mem_reverse.mp (List.mem_of_find?_eq_some hm))
    have hnum := h.pages k m hk'
    rw [hvadr] at hnum
    refine ⟨m, by rw [hsplit, hm, Option.some_or], hvadr, ?_⟩
    rw [show q.num - r.first = k by omega, hk']
  · have hnone : (added.reverse.find? fun m => m.vadr = q) = none := by
      rw [List.find?_eq_none]
      intro m hm
      obtain ⟨k, hk⟩ := List.mem_iff_getElem?.mp (List.mem_reverse.mp hm)
      have hnum := h.pages k m hk
      have hlt : k < added.length := (List.getElem?_eq_some_iff.mp hk).1
      rw [h.count] at hlt
      simp only [decide_eq_true_eq]
      rintro rfl
      exact hmaps ⟨by omega, by omega⟩
    rw [hsplit, hnone, Option.none_or]

/-- The frames of the earlier mappings are none of the new ones, and no tables. -/
theorem Imaged.kept {added : List MemoryMapping} (h : Imaged vm₀ vm F₀ F map regions)
    (hload : Loading vm₀ vm' F₀ F' map') (hfilled : Filled vm vm' F F' r map map' added) :
    ∀ m ∈ map.mappings, vm'.mem m.padr = vm.mem m.padr := by
  intro m hm
  have hold := List.mem_map_of_mem (f := MemoryMapping.padr) hm
  apply hfilled.others
  · intro hnew
    obtain ⟨m', hm', heq⟩ := List.mem_map.mp hnew
    exact (h.taken _ hold).2.1 (heq ▸ hfilled.taken m' hm')
  · exact (hload.taken _ (List.mem_map_of_mem (by rw [hfilled.mappings]; simp [hm]))).2.2

/-- The pages of the new region show it. -/
theorem Imaged.shows_new {added : List MemoryMapping} (h : Imaged vm₀ vm F₀ F map regions)
    (hfilled : Filled vm vm' F F' r map map' added) {q : Page} (hmaps : r.Maps q.num) :
    ∃ m, map'.last q = some m ∧ Shows vm₀ vm' r m := by
  have hlast := hfilled.last q
  rw [if_pos hmaps] at hlast
  obtain ⟨m, hm, hvadr, hcell⟩ := hlast
  refine ⟨m, hm, fun o ho => ?_⟩
  have hnum : r.first + (q.num - r.first) = m.vadr.num := by
    rw [hvadr]
    exact Nat.add_sub_cancel' hmaps.1
  -- the frame was free until now, with what was in it at the start
  have hstale : frameByte vm m.padr o = frameByte vm₀ m.padr o := by
    rw [frameByte, h.stale _ (hfilled.taken m (List.mem_of_getElem? hcell)), frameByte]
  rw [hfilled.content _ m hcell o ho, hstale, hnum]

/-- One more region. -/
theorem Imaged.fills (h : Imaged vm₀ vm F₀ F map regions) (hfresh : Disjoint F₀ vm₀.tables)
    (hfills : Fills M core (map, vm, F) r (map', vm', F')) :
    Imaged vm₀ vm' F₀ F' map' (regions ++ [r]) := by
  obtain ⟨hload, added, hfilled⟩ := hfills.loading h.toLoading hfresh
  have hfresh' := hload.evolves.fresh hfresh
  have hmem : ∀ m ∈ added, m.padr ∈ map'.frames := fun m hm =>
    List.mem_map_of_mem (by rw [hfilled.mappings]; exact List.mem_append_right _ hm)
  refine ⟨hload, fun f hf => ?_, ?_, fun q hq => ?_, fun q r' hq => ?_⟩
  · have hnew : f ∉ added.map MemoryMapping.padr := fun hmap => by
      obtain ⟨m, hm, rfl⟩ := List.mem_map.mp hmap
      exact (hload.taken _ (hmem m hm)).2.1 hf
    rw [hfilled.others f hnew (Set.disjoint_left.mp hfresh' hf), h.stale f (hfilled.free hf)]
  · rw [hfilled.mappings, List.length_append, h.length, hfilled.count, pageTotal_append,
      pageTotal_singleton]
  · have hlast := hfilled.last q
    rw [owner_snoc] at hq
    split_ifs at hlast hq with hmaps
    rw [hlast, h.unmapped q hq]
  · rw [owner_snoc] at hq
    split_ifs at hq with hmaps
    · obtain rfl := Option.some.inj hq
      exact h.shows_new hfilled hmaps
    · -- the page keeps its owner, and the owner's frame its contents
      have hlast := hfilled.last q
      rw [if_neg hmaps] at hlast
      obtain ⟨m, hm, hshows⟩ := h.shown q r' hq
      refine ⟨m, hlast.trans hm, fun o ho => ?_⟩
      have hkept := h.kept hload hfilled m (List.mem_reverse.mp (List.mem_of_find?_eq_some hm))
      rw [frameByte, hkept, ← hshows o ho, frameByte]

/-- The regions of a run, in its order. -/
theorem imaged_of_run (hinv : vm.Inv) (hfresh : Disjoint F vm.tables)
    (h : Run (Fills M core) (.new, vm, F) regions (map, vm', F')) :
    Imaged vm vm' F F' map regions := by
  generalize hs' : ((map, vm', F') : LoadState) = s' at h
  induction h generalizing map vm' F' with
  | nil =>
    cases hs'
    exact .new hinv F
  | snoc _ hlast ih =>
    subst hs'
    exact (ih rfl).fills hfresh hlast

end Imaged

end HeliumOS.Proc
