import HeliumOS.Mem.Machine
import HeliumOS.Proc.Ownership

/-!
# A Failed `exec` Leaves Nothing Behind

`exec` returns early from many places, and relies on the drop of its memory map to give the frames
back.  When frames run out, `MemoryMap::allocate` has given some of them back before.

- `Accounted` is the invariant of the loader: a frame that was free at the start is still free, is
  a page table on the way to the window of the core, or belongs to a mapping of the map.
- The drop of the map leaves the page tables only (`exec_keeps_frames`).
- `failed_exec_leaves_nothing` is the statement about `exec_raw` and the bitmaps of the allocator.
-/

/-! ## Frames that the mapper takes -/

namespace HeliumOS.Mem

open HeliumOS.Lib HeliumOS.Lib.AllocProg HeliumOS.Mem.Virt

variable {vm vm' : Vm} {M F F' : Set PhysFrame} {page : Page} {flags : PageTableFlags}

/-- Every frame that `vmap_many` takes is a table on the way to one of its pages. -/
theorem vmapManyFrom_taken {frames : List PhysFrame} {i : ℕ} (hinv : vm.Inv)
    (hfresh : Disjoint F vm.tables) (h : Returns M (vmapManyFrom page flags frames i vm) F vm' F') :
    F ⊆ F' ∪ vm'.leading (visited page i frames.length) := by
  induction frames generalizing i vm F with
  | nil =>
    obtain ⟨rfl, rfl⟩ := returns_pure.mp h
    exact Set.subset_union_left
  | cons frame frames ih =>
    simp only [vmapManyFrom, returns_bind, returns_lift] at h
    obtain ⟨q, F₁, ⟨hq, rfl⟩, vm₁, F₂, hmap, hrest⟩ := h
    obtain ⟨hev, -, -⟩ := vmapExpect_evolves hinv hfresh hmap
    have hev' := (vmapManyFrom_evolves hev.inv (hev.fresh hfresh) hrest).1
    have hone := map_taken hinv hfresh (returns_vmapExpect.mp hmap)
    have hmany := ih hev.inv (hev.fresh hfresh) hrest
    rw [visited_one] at hone
    rw [List.length_cons, visited_succ hq]
    exact hev'.taken_trans
      (hone.trans (Set.union_subset_union_right _ (Vm.leading_mono Set.subset_union_left)))
      (hmany.trans (Set.union_subset_union_right _ (Vm.leading_mono Set.subset_union_right)))

end HeliumOS.Mem

namespace HeliumOS.Proc

open HeliumOS.Lib HeliumOS.Lib.AllocProg HeliumOS.Mem HeliumOS.Mem.Virt HeliumOS.Elf

/-! ## The frames of a load -/

/-- The pages that a region may take in the window of a core.  A region that does not start at a
page boundary takes one page more than its size says. -/
def tmpWindow (core : ℕ) : Set Page :=
  {q | ∃ start, tmpStartPage core = .ok start ∧
    q ∈ visited start 0 (TMP_TASK_SIZE_PER_PROC / pageSize + 1)}

/-- Every frame of `F₀` is still free, or a table on the way to the window of the core, or a mapping
has it. -/
def Accounted (core : ℕ) (F₀ : Set PhysFrame) (map : MemoryMap) (vm : Vm)
    (F : Set PhysFrame) : Prop :=
  ∀ f ∈ F₀, f ∈ F ∪ vm.leading (tmpWindow core) ∨ f ∈ map.frames

section Loader

variable {M F F' F₀ : Set PhysFrame} {vm vm' vm₀ : Vm} {map map' : MemoryMap} {core : ℕ}

theorem accounted_new (core : ℕ) (vm : Vm) (F : Set PhysFrame) : Accounted core F .new vm F :=
  fun _ hf => .inl (.inl hf)

/-- What is taken goes to the tables. -/
theorem Accounted.step {P : Set Page} (h : Accounted core F₀ map vm F) (hev : Evolves vm vm' F F' P)
    (htaken : F ⊆ F' ∪ vm'.leading (tmpWindow core)) : Accounted core F₀ map vm' F' := by
  intro f hf
  rcases h f hf with (hfree | hlead) | hmap
  · exact .inl (htaken hfree)
  · exact .inl (.inr (hev.leading_subset hlead))
  · exact .inr hmap

/-- Frames are given back. -/
theorem Accounted.mono (h : Accounted core F₀ map vm F) (hF : F ⊆ F') :
    Accounted core F₀ map vm F' :=
  fun f hf => (h f hf).imp_left fun hmem => Set.union_subset_union_left _ hF hmem

/-- A frame is taken for a page. -/
theorem Accounted.addRaw (h : Accounted core F₀ map vm F) (f : PhysFrame) (page : Page)
    (flags : PageTableFlags) :
    Accounted core F₀ (map.addRaw page f 1 flags true) vm (F \ {f}) := by
  intro g hg
  rw [MemoryMap.frames_addRaw, List.mem_append, List.mem_singleton]
  by_cases heq : g = f
  · exact .inr (.inr heq)
  · rcases h g hg with (hfree | hlead) | hmap
    · exact .inl (.inl ⟨hfree, heq⟩)
    · exact .inl (.inr hlead)
    · exact .inr (.inl hmap)

theorem allocateFrom_accounted {n i : ℕ} {vadr : Page} {flags : PageTableFlags}
    {frames : List PhysFrame} {res : Option (List PhysFrame)} (h : Accounted core F₀ map vm F)
    (hret : Returns M (MemoryMap.allocateFrom vadr flags n i frames map) F (res, map') F') :
    Accounted core F₀ map' vm F' := by
  induction n generalizing i frames map F with
  | zero =>
    obtain ⟨hpair, rfl⟩ := returns_pure.mp hret
    cases hpair
    exact h
  | succ n ih =>
    rw [MemoryMap.allocateFrom, returns_bind] at hret
    obtain ⟨r, F₁, hget, hret⟩ := hret
    rcases returns_get.mp hget with ⟨f, hf, rfl, rfl⟩ | ⟨-, rfl, rfl⟩
    · simp only [returns_bind, returns_lift] at hret
      obtain ⟨page, F₂, ⟨-, rfl⟩, hret⟩ := hret
      exact ih (h.addRaw f page flags) hret
    · -- the frames of this call go back, and their mappings stay
      simp only [returns_bind, returns_pfreeAll, returns_pure] at hret
      obtain ⟨-, F₂, rfl, hpair, rfl⟩ := hret
      cases hpair
      exact h.mono Set.subset_union_left

/-- The window of a core takes frames for its tables only. -/
theorem tmpLocalReserve_taken {offset ptr : ℕ} {frames : List PhysFrame} (hinv : vm.Inv)
    (hfresh : Disjoint F vm.tables) (hlen : frames.length ≤ TMP_TASK_SIZE_PER_PROC / pageSize + 1)
    (hret : Returns M (tmpLocalReserve core offset frames vm) F (ptr, vm') F') :
    F ⊆ F' ∪ vm'.leading (tmpWindow core) := by
  simp only [tmpLocalReserve, returns_bind, returns_lift, checkedAdd_eq_ok, returns_pure,
    Prod.mk.injEq] at hret
  obtain ⟨page, F₁, ⟨hpage, rfl⟩, vm₁, F₂, hmap, _, F₃, ⟨⟨-, rfl⟩, rfl⟩, ⟨rfl, rfl⟩, rfl⟩ := hret
  refine (vmapManyFrom_taken hinv hfresh hmap).trans (Set.union_subset_union_right _ ?_)
  refine Vm.leading_mono fun q hq => ⟨page, hpage, ?_⟩
  rw [mem_visited] at hq ⊢
  omega

theorem Region.count_le {r : Region} (hsize : r.memSize ≤ TMP_TASK_SIZE_PER_PROC) :
    r.count ≤ TMP_TASK_SIZE_PER_PROC / pageSize + 1 := by
  simp only [Region.count, Region.first, alignUp, pageSize, TMP_TASK_SIZE_PER_PROC] at hsize ⊢
  omega

theorem fillRegion_accounted {r : Region} {res : Loaded} (hload : Loading vm₀ vm F₀ F map)
    (hfresh : Disjoint F₀ vm₀.tables) (huser : r.vadr + r.memSize < USERSPACE_TOP)
    (hsize : r.memSize ≤ TMP_TASK_SIZE_PER_PROC) (hsmall : r.flags.contains .HUGE_PAGE = false)
    (h : Accounted core F₀ map vm F) (hret : Returns M (fillRegion core r map vm) F res F') :
    Accounted core F₀ res.2.1 res.2.2 F' := by
  obtain ⟨map', rfl, -, halloc⟩ |
    ⟨map', vm₁, vm', F₁, frames, added, start, rfl, halloc, hreserve, hfilling⟩ :=
    fillRegion_filling hload hfresh huser hsmall hret
  · exact allocateFrom_accounted h halloc
  · have hinv := hfilling.loading.evolves.inv
    have hfresh₁ := hfilling.loading.evolves.fresh hfresh
    have hcount := hfilling.length ▸ Region.count_le hsize
    have htaken := tmpLocalReserve_taken hinv hfresh₁ hcount hreserve
    have hallocated := allocateFrom_accounted h halloc
    -- the stores change the contents of the new frames
    exact (hallocated.step hfilling.window htaken).step hfilling.evolves Set.subset_union_left

theorem loadInvariant_accounted (core : ℕ) (hfresh : Disjoint F₀ vm₀.tables) :
    LoadInvariant M core fun res F =>
      Leaves vm₀ F₀ res F ∧ Accounted core F₀ res.2.1 res.2.2 F where
  refuse he h := ⟨(loadInvariant_leaves (M := M) core hfresh).refuse he h.1, h.2⟩
  fill huser hsize hsmall h hret :=
  ⟨(loadInvariant_leaves core hfresh).fill huser hsize hsmall h.1 hret,
    fillRegion_accounted h.1 hfresh huser hsize hsmall h.2 hret⟩

end Loader

/-! ## The whole call -/

section Exec

variable {M F F' : Set PhysFrame} {sys sys' : System} {core : ℕ} {res : ExecResult}

/-- After the drop of the map, every frame that is not free again is a table on the way to the
window of the core. -/
theorem exec_keeps_frames {elf : ElfFile} (hinv : sys.vm.Inv) (hfresh : Disjoint F sys.vm.tables)
    (hM : F ⊆ M) (hres : ∀ id, res ≠ .success id)
    (h : Returns M (exec core elf sys) F (res, sys') F') :
    F ⊆ F' ∪ sys'.vm.leading (tmpWindow core) := by
  simp only [exec, returns_bind] at h
  obtain ⟨⟨r, map, vm⟩, F₁, hload, h⟩ := h
  obtain ⟨hleaves, haccounted⟩ := (loadInvariant_accounted core hfresh).load
    ⟨Loading.new hinv F, accounted_new core sys.vm F⟩ hload
  cases r with
  | error e =>
    obtain ⟨-, F₂, hloading, -, -⟩ := hleaves
    simp only [returns_bind, returns_pure, Prod.mk.injEq, dropMappings_eq, returns_pfreeAll] at h
    obtain ⟨-, _, rfl, ⟨rfl, rfl⟩, rfl⟩ := h
    intro f hf
    rcases haccounted f hf with (hfree | hlead) | hmap
    · exact .inl (.inl hfree)
    · exact .inr hlead
    · -- every mapping owns its frame, so that the drop gives it back
      obtain ⟨m, hm, rfl⟩ := List.mem_map.mp hmap
      have howned := List.mem_filter.mpr ⟨hm, (hloading.wf m hm).allocated⟩
      exact .inl (.inr ⟨List.mem_map_of_mem howned, hM hf⟩)
  | ok u =>
    simp only [returns_bind, returns_lift, returns_pure, Prod.mk.injEq, Prod.exists] at h
    obtain ⟨id, sys₁, F₂, -, ⟨rfl, -⟩, -⟩ := h
    exact absurd rfl (hres id)

/-- The same for `exec_raw`, with what the call does to the state besides. -/
theorem execRaw_failed {content : File} (hinv : sys.vm.Inv) (hfresh : Disjoint F sys.vm.tables)
    (hM : F ⊆ M) (hres : ∀ id, res ≠ .success id)
    (h : Returns M (execRaw core content sys) F (res, sys') F') :
    (∃ vm, sys' = { sys with vm }) ∧ F' ⊆ F ∧ F ⊆ F' ∪ sys'.vm.leading (tmpWindow core) := by
  unfold execRaw at h
  split at h
  · have hkeeps := exec_keeps_frames hinv hfresh hM hres h
    obtain ⟨map, vm, id, hid, -⟩ | ⟨vm, -, rfl, hev⟩ := exec_spec hinv hfresh h
    · exact absurd hid (hres id)
    · exact ⟨⟨vm, rfl⟩, hev.free, hkeeps⟩
  · obtain ⟨hpair, rfl⟩ := returns_pure.mp h
    cases hpair
    exact ⟨⟨sys.vm, rfl⟩, subset_rfl, Set.subset_union_left⟩

/-- **Failed calls.**  When `exec_raw` does not succeed, the tasks and the task counter are as they
were, every frame that was marked is still marked, and the only new marks are on tables that the
mapping of the window has linked. -/
theorem failed_exec_leaves_nothing {content : File} {pmm pmm' : PhysicalFrameAllocator}
    (hinv : sys.vm.Inv) (hsound : pmm.Sound) (hfresh : Disjoint pmm.free sys.vm.tables)
    (hres : ∀ id, res ≠ .success id)
    (hrun : (execRaw core content sys).run PhysicalFrameAllocator.pool pmm =
      .ok ((res, sys'), pmm')) :
    (sys'.tasks = sys.tasks ∧ sys'.arena = sys.arena ∧ sys'.idCount = sys.idCount) ∧
      (∀ f, pmm.Marked f → pmm'.Marked f) ∧
      ∀ f, pmm'.Marked f → ¬ pmm.Marked f →
        f ∈ sys'.vm.tables ∧ f ∉ sys.vm.tables ∧ f ∈ sys'.vm.leading (tmpWindow core) := by
  obtain ⟨hret, hsound', hsame⟩ := run_returns PhysicalFrameAllocator.freeSet hsound hrun
  have hmanaged : pmm'.managed = pmm.managed := hsame
  have hM : pmm.free ⊆ pmm.managed := PhysicalFrameAllocator.freeSet.free_managed hsound
  obtain ⟨⟨vm, rfl⟩, hfree, htaken⟩ := execRaw_failed hinv hfresh hM hres hret
  have hmarked : ∀ f, pmm.Marked f ↔ f ∈ pmm.managed ∧ f ∉ pmm.free := fun f =>
    PhysicalFrameAllocator.marked_iff hsound
  have hmarked' : ∀ f, pmm'.Marked f ↔ f ∈ pmm.managed ∧ f ∉ pmm'.free := fun f =>
    hmanaged ▸ PhysicalFrameAllocator.marked_iff hsound'
  refine ⟨⟨rfl, rfl, rfl⟩, fun f hf => ?_, fun f hf hold => ?_⟩
  · obtain ⟨hf, hnot⟩ := (hmarked f).mp hf
    exact (hmarked' f).mpr ⟨hf, fun hmem => hnot (hfree hmem)⟩
  · obtain ⟨hf, hnot⟩ := (hmarked' f).mp hf
    -- a frame that the allocator has, and had not marked, was free
    have hwas : f ∈ pmm.free := by
      by_contra hnotFree
      exact hold ((hmarked f).mpr ⟨hf, hnotFree⟩)
    have hlead := (htaken hwas).resolve_left hnot
    exact ⟨Vm.leading_subset_tables vm _ hlead, Set.disjoint_left.mp hfresh hwas, hlead⟩

end Exec

/-! ## Two frames of memory -/

theorem give_second_last : (threePagesPmm 0xfffffffffffffffe).deallocateFrame secondFrame =
    .ok (threePagesPmm 0xfffffffffffffffc) := by decide +kernel

theorem give_first_free : (threePagesPmm 0xfffffffffffffffc).deallocateFrame firstFrame =
    .ok (threePagesPmm 0xfffffffffffffffc) := by decide +kernel

theorem give_second_free : (threePagesPmm 0xfffffffffffffffc).deallocateFrame secondFrame =
    .ok (threePagesPmm 0xfffffffffffffffc) := by decide +kernel

/-- Both frames are taken for the stack, given back by `allocate`, and given back again with the
map. -/
theorem execRaw_twoFrames :
    (execRaw 0 bareFile bootSystem).run PhysicalFrameAllocator.pool
    (threePagesPmm 0xfffffffffffffffc) =
      .ok ((.allocationError, bootSystem), threePagesPmm 0xfffffffffffffffc) := by
  have hparse : ElfFile.parse bareFile = some bareElf := rfl
  rw [execRaw, hparse]
  refine Eq.trans (run_acquire rfl take_first) ?_
  refine Eq.trans (run_acquire rfl take_second) ?_
  refine Eq.trans (run_acquire rfl take_none) ?_
  refine Eq.trans (run_release rfl give_first) ?_
  refine Eq.trans (run_release rfl give_second_last) ?_
  refine Eq.trans (run_release rfl give_first_free) ?_
  refine Eq.trans (run_release rfl give_second_free) ?_
  rfl

/-- The stack does not fit into two frames, and both are free afterwards. -/
theorem failed_exec_leaves_nothing_twoFrames :
    ∃ sys' pmm', (execRaw 0 bareFile bootSystem).run PhysicalFrameAllocator.pool
        (threePagesPmm 0xfffffffffffffffc) = .ok ((.allocationError, sys'), pmm') ∧
      sys'.tasks = bootSystem.tasks ∧
      ∀ f, pmm'.Marked f → ¬ (threePagesPmm 0xfffffffffffffffc).Marked f →
        f ∈ sys'.vm.tables ∧ f ∉ bootSystem.vm.tables ∧ f ∈ sys'.vm.leading (tmpWindow 0) := by
  have hfresh : Disjoint (threePagesPmm 0xfffffffffffffffc).free bootSystem.vm.tables := by
    refine Set.disjoint_left.mpr fun f hf htables => ?_
    have hlow := freshVm_tables htables
    have hhigh := (num_of_mem_free 0x101 0x103 (by decide) hf).1
    omega
  obtain ⟨⟨htasks, -⟩, -, hmarks⟩ := failed_exec_leaves_nothing able_fresh.ready.inv
    threePagesPmm_sound hfresh (by simp) execRaw_twoFrames
  exact ⟨_, _, execRaw_twoFrames, htasks, hmarks⟩

end HeliumOS.Proc
