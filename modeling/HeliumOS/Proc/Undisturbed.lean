import HeliumOS.Proc.Contents
import HeliumOS.Proc.Failure

/-!
# A Load Leaves the Running Task Alone

`exec` runs while other tasks are in memory, and in the address space of the task that has called
it.  It writes through raw slices into a window that is mapped again for every segment.

- `Undisturbed` is the frame condition: translations change in the window only, and contents only in
  frames that were free or were page tables.
- The load of a region keeps it (`fillRegion_undisturbed`), and with it every load.
- `exec_undisturbed` is the statement about `exec`, whatever it returns.
-/

namespace HeliumOS.Proc

open HeliumOS.Lib HeliumOS.Lib.AllocProg HeliumOS.Mem HeliumOS.Mem.Virt HeliumOS.Elf

/-- From `vm₀` with `F₀` free to `vm`, translations have changed in `P` only, and contents only in
free frames and page tables. -/
structure Undisturbed (vm₀ : Vm) (F₀ : Set PhysFrame) (P : Set Page) (vm : Vm) : Prop where
  translate : ∀ q, ¬ InArea q → q ∉ P → vm.translate q = vm₀.translate q
  mem : ∀ f ∉ F₀, f ∉ vm₀.tables → vm.mem f = vm₀.mem f

section Loader

variable {M F F' F₀ : Set PhysFrame} {vm vm' vm₀ : Vm} {map : MemoryMap} {core : ℕ}

/-- The window of a core starts at `TMP_TASKLDMAP` or behind it. -/
theorem num_of_mem_tmpWindow {q : Page} (h : q ∈ tmpWindow core) :
    TMP_TASKLDMAP.num + core * 2 ^ 23 ≤ q.num ∧
      q.num ≤ TMP_TASKLDMAP.num + (core + 1) * 2 ^ 23 := by
  obtain ⟨start, hstart, hq⟩ := h
  simp only [tmpStartPage, except_bind_eq_ok, checkedMul_eq_ok, Page.add_eq_ok] at hstart
  obtain ⟨_, ⟨-, rfl⟩, hnum⟩ := hstart
  rw [mem_visited] at hq
  simp only [TMP_TASK_SIZE_PER_PROC, pageSize] at hnum hq
  omega

theorem visited_subset_tmpWindow {start : Page} {n : ℕ} (hstart : tmpStartPage core = .ok start)
    (hn : n ≤ TMP_TASK_SIZE_PER_PROC / pageSize + 1) : visited start 0 n ⊆ tmpWindow core := by
  refine fun q hq => ⟨start, hstart, ?_⟩
  rw [mem_visited] at hq ⊢
  omega

/-- A region that is loaded goes through the window of the core, from its first page on. -/
theorem fillRegion_maps {r : Region} {map' : MemoryMap} (hload : Loading vm₀ vm F₀ F map)
    (hfresh : Disjoint F₀ vm₀.tables) (huser : r.vadr + r.memSize < USERSPACE_TOP)
    (hsmall : r.flags.contains .HUGE_PAGE = false)
    (hret : Returns M (fillRegion core r map vm) F (.ok (), map', vm') F') :
    ∃ start frames, tmpStartPage core = .ok start ∧ frames.length = r.count ∧
      Backs vm' start 0 frames ∧
      ∀ q, ¬ InArea q → q ∉ visited start 0 r.count → vm'.translate q = vm.translate q := by
  obtain ⟨map₁, hpair, -⟩ | ⟨map₁, vm₁, vm₂, F₁, frames, added, start, hpair, -, -, h⟩ :=
    fillRegion_filling hload hfresh huser hsmall hret
  · cases hpair
  · cases hpair
    refine ⟨start, frames, h.starts, h.length, h.backs.of_dataOnly h.stores h.apart,
      fun q hq hout => ?_⟩
    rw [← h.length] at hout
    -- the stores change no translation
    rw [h.evolves.translate q hq (Set.notMem_empty q), h.window.translate q hq hout]

theorem fillRegion_undisturbed {r : Region} {res : Loaded} (hload : Loading vm₀ vm F₀ F map)
    (hfresh : Disjoint F₀ vm₀.tables) (huser : r.vadr + r.memSize < USERSPACE_TOP)
    (hsize : r.memSize ≤ TMP_TASK_SIZE_PER_PROC) (hsmall : r.flags.contains .HUGE_PAGE = false)
    (h : Undisturbed vm₀ F₀ (tmpWindow core) vm)
    (hret : Returns M (fillRegion core r map vm) F res F') :
    Undisturbed vm₀ F₀ (tmpWindow core) res.2.2 := by
  obtain ⟨hleaves, hfilled⟩ := fillRegion_spec hload hfresh huser hsmall hret
  rcases res with ⟨_ | u, map', vm'⟩
  · -- without frames for the region nothing is mapped
    obtain ⟨map₁, hpair, -⟩ | ⟨map₁, vm₁, hpair, -⟩ := fillRegion_cases hret
    · cases hpair
      exact h
    · cases hpair
  · refine ⟨fun q hq hout => ?_, fun f hf htables => ?_⟩
    · obtain ⟨start, frames, hstart, -, -, hsame⟩ := fillRegion_maps hload hfresh huser hsmall hret
      rw [hsame q hq fun hmem =>
        hout (visited_subset_tmpWindow hstart (Region.count_le hsize) hmem), h.translate q hq hout]
    · obtain ⟨added, hfilled⟩ := hfilled rfl
      rw [← h.mem f hf htables]
      refine hfilled.others f (fun hmem => hf ?_) fun hmem => ?_
      · -- the frames of the region were free
        obtain ⟨m, hm, rfl⟩ := List.mem_map.mp hmem
        exact hload.evolves.free (hfilled.taken m hm)
      · -- and so were the new tables
        rcases (show Loading vm₀ vm' F₀ F' map' from hleaves).evolves.tables hmem with hold
          | ⟨hnew, -⟩
        · exact htables hold
        · exact hf hnew

theorem loadInvariant_undisturbed (core : ℕ) (hfresh : Disjoint F₀ vm₀.tables) :
    LoadInvariant M core fun res F =>
      Leaves vm₀ F₀ res F ∧ Undisturbed vm₀ F₀ (tmpWindow core) res.2.2 where
  refuse he h := ⟨(loadInvariant_leaves (M := M) core hfresh).refuse he h.1, h.2⟩
  fill huser hsize hsmall h hret :=
  ⟨(loadInvariant_leaves core hfresh).fill huser hsize hsmall h.1 hret,
    fillRegion_undisturbed h.1 hfresh huser hsize hsmall h.2 hret⟩

end Loader

/-! ## The whole call -/

section Exec

variable {M F F' : Set PhysFrame} {sys sys' : System} {core : ℕ} {elf : ElfFile} {res : ExecResult}

/-- The virtual memory that `exec` leaves is the one that the loader leaves. -/
theorem exec_load (h : Returns M (exec core elf sys) F (res, sys') F') :
    ∃ r F₁, Returns M (load core elf sys.vm) F r F₁ ∧ sys'.vm = r.2.2 := by
  simp only [exec, returns_bind] at h
  obtain ⟨⟨r, map, vm⟩, F₁, hload, h⟩ := h
  refine ⟨_, F₁, hload, ?_⟩
  cases r with
  | error e =>
    simp only [returns_bind, returns_pure, Prod.mk.injEq] at h
    obtain ⟨-, F₂, -, ⟨-, rfl⟩, -⟩ := h
    rfl
  | ok u =>
    simp only [returns_bind, returns_lift, returns_pure, Prod.mk.injEq, Prod.exists] at h
    obtain ⟨id, sys₁, F₂, ⟨hnew, -⟩, ⟨-, rfl⟩, -⟩ := h
    obtain ⟨-, -, rfl⟩ := newLocked_eq_ok.mp hnew
    rfl

/-- **Loads and the running task.**  Whatever `exec` returns, pages of the user half translate as
before, and so do pages of the kernel half outside the virtual cache and the window of the core; a
frame that was neither free nor a page table has its contents. -/
theorem exec_undisturbed {pmm pmm' : PhysicalFrameAllocator} (hinv : sys.vm.Inv)
    (hsound : pmm.Sound) (hfresh : Disjoint pmm.free sys.vm.tables)
    (h : (exec core elf sys).run PhysicalFrameAllocator.pool pmm = .ok ((res, sys'), pmm')) :
    (∀ q : Page, q.IsUser → sys'.vm.translate q = sys.vm.translate q) ∧
      (∀ f ∉ pmm.free, f ∉ sys.vm.tables → sys'.vm.mem f = sys.vm.mem f) ∧
      ∀ q : Page, ¬ q.IsUser → ¬ InArea q →
        ¬ (TMP_TASKLDMAP.num + core * 2 ^ 23 ≤ q.num ∧
          q.num ≤ TMP_TASKLDMAP.num + (core + 1) * 2 ^ 23) →
        sys'.vm.translate q = sys.vm.translate q := by
  obtain ⟨hret, -, -⟩ := run_returns PhysicalFrameAllocator.freeSet hsound h
  obtain ⟨r, F₁, hload, hvm⟩ := exec_load hret
  have hstart : Undisturbed sys.vm pmm.free (tmpWindow core) sys.vm :=
    ⟨fun _ _ _ => rfl, fun _ _ _ => rfl⟩
  obtain ⟨-, hkept⟩ := (loadInvariant_undisturbed core hfresh).load
    ⟨Loading.new hinv pmm.free, hstart⟩ hload
  rw [hvm]
  refine ⟨fun q hq => ?_, hkept.mem, fun q _ harea hout => ?_⟩
  · refine hkept.translate q (not_inArea_of_isUser hq) fun hmem => ?_
    have hlow := (num_of_mem_tmpWindow hmem).1
    rw [Page.IsUser] at hq
    simp only [TMP_TASKLDMAP, kvmspace, pageSize] at hlow
    omega
  · exact hkept.translate q harea fun hmem => hout (num_of_mem_tmpWindow hmem)

/-- The load of a program with two segments. -/
theorem exec_undisturbed_shared : ∃ sys' pmm',
    (exec 0 sharedElf bootSystem).run PhysicalFrameAllocator.pool freshPmm =
      .ok ((.success 1, sys'), pmm') ∧
    (∀ q : Page, q.IsUser → sys'.vm.translate q = bootSystem.vm.translate q) ∧
    ∀ f ∉ freshPmm.free, f ∉ bootSystem.vm.tables → sys'.vm.mem f = bootSystem.vm.mem f := by
  obtain ⟨sys', pmm', hrun⟩ := exec_shared
  obtain ⟨huser, hmem, -⟩ :=
    exec_undisturbed able_fresh.ready.inv able_fresh.sound able_fresh.fresh hrun
  exact ⟨sys', pmm', hrun, huser, hmem⟩

end Exec

end HeliumOS.Proc
