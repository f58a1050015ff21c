import HeliumOS.Proc.Panics
import HeliumOS.Proc.Undisturbed

/-!
# The Windows of the Cores

Each core loads programs through 32 GiB of addresses of its own.  `exec` compares the size of a
segment with the size of the window, but maps whole pages, from the page of the first address on.

- `reserve_inWindow_iff`: a segment stays inside the window exactly when its size and the offset of
  its address in its page are together not more than the window.
- `exec_overruns_window`: a segment of 32 GiB that does not start at a page boundary passes the
  check, and its last page is mapped at the first page of the window of the next core.
-/

namespace HeliumOS.Proc

open HeliumOS.Lib HeliumOS.Lib.AllocProg HeliumOS.Mem HeliumOS.Mem.Virt HeliumOS.Elf

/-! ## Calls of `tmp_local_reserve` -/

/-- The page lies in the window of the core. -/
def InWindow (core : ℕ) (q : Page) : Prop :=
  TMP_TASKLDMAP.startAddress + core * TMP_TASK_SIZE_PER_PROC ≤ q.startAddress ∧
    q.startAddress + pageSize ≤ TMP_TASKLDMAP.startAddress + (core + 1) * TMP_TASK_SIZE_PER_PROC

instance (core : ℕ) (q : Page) : Decidable (InWindow core q) := inferInstanceAs (Decidable (_ ∧ _))

/-- The pages at which `tmp_local_reserve` maps `n` frames. -/
def reservedPages (core n : ℕ) : Set Page :=
  {q | ∃ start, tmpStartPage core = .ok start ∧ q ∈ visited start 0 n}

/-- A load of `elf` that has started with `vm₀` and `F₀` comes to the call of `tmp_local_reserve`
for the region `r`: the headers up to that of the region have passed the checks, the regions before
it are loaded, and there are `frames` for its pages. -/
def Reserves (M : Set PhysFrame) (core : ℕ) (elf : ElfFile) (vm₀ : Vm) (F₀ : Set PhysFrame)
    (r : Region) (frames : List PhysFrame) (vm : Vm) (F : Set PhysFrame) : Prop :=
  ∃ pre post map map' F₁, elf.regions = pre ++ r :: post ∧
    (∀ entry ∈ elf.loads.take (pre.length + 1), elf.Accepts entry) ∧
    Run (Fills M core) (.new, vm₀, F₀) pre (map, vm, F₁) ∧
    Returns M (map.allocate (.containing (newTruncate r.vadr)) r.count r.flags) F₁
      (some frames, map') F

section Calls

variable {M F F' F₀ F₁ : Set PhysFrame} {vm vm' vm₀ : Vm} {core ptr : ℕ} {elf : ElfFile}
  {r : Region}
  {frames : List PhysFrame}

/-- A region whose header has passed the checks. -/
theorem checked_of_regions {pre post : List Region} (hsplit : elf.regions = pre ++ r :: post)
    (haccepts : ∀ entry ∈ elf.loads.take (pre.length + 1), elf.Accepts entry) :
    r.vadr + r.memSize < USERSPACE_TOP ∧ r.flags.contains .HUGE_PAGE = false := by
  have hr : elf.regions[pre.length]? = some r := by
    rw [hsplit, List.getElem?_append_right le_rfl, Nat.sub_self, List.getElem?_cons_zero]
  rw [ElfFile.regions] at hr
  rcases Nat.lt_or_ge pre.length elf.loads.length with hlt | hge
  · rw [List.getElem?_append_left (by simpa using hlt), List.getElem?_map,
      List.getElem?_eq_getElem hlt] at hr
    obtain rfl := Option.some.inj hr
    have hmem : elf.loads[pre.length] ∈ elf.loads.take (pre.length + 1) :=
      List.mem_take_iff_getElem.mpr ⟨pre.length, by omega, rfl⟩
    exact ⟨(haccepts _ hmem).user, memoryFlags_small _⟩
  · rw [List.getElem?_append_right (by simpa using hge)] at hr
    obtain rfl := List.mem_singleton.mp (List.mem_of_getElem? hr)
    exact ⟨stackRegion_wf.user, stackRegion_wf.small⟩

/-- The state at the call. -/
theorem Reserves.loading (h : Reserves M core elf vm₀ F₀ r frames vm F) (hinv : vm₀.Inv)
    (hfresh : Disjoint F₀ vm₀.tables) :
    frames.length = r.count ∧ ∃ map, Loading vm₀ vm F₀ F map := by
  obtain ⟨pre, post, map, map', F₁, hsplit, haccepts, hrun, halloc⟩ := h
  obtain ⟨huser, hsmall⟩ := checked_of_regions hsplit haccepts
  have hload := (imaged_of_run hinv hfresh hrun).toLoading
  rcases Region.allocate_spec hload hfresh huser hsmall halloc with
    ⟨_, ⟨rfl⟩, hlen, hload₁, -⟩ | ⟨hnone, -⟩
  · exact ⟨hlen, map', hload₁⟩
  · cases hnone

/-- When `exec` succeeds, it has made the call for every region of the file. -/
theorem exec_reserves {sys sys' : System} {id : ℕ} {pre post : List Region}
    (h : Returns M (exec core elf sys) F (.success id, sys') F')
    (hsplit : elf.regions = pre ++ r :: post) :
    ∃ frames vm F₁ ptr vm' F₂, Reserves M core elf sys.vm F r frames vm F₁ ∧
      Returns M (tmpLocalReserve core r.offset frames vm) F₁ (ptr, vm') F₂ := by
  obtain ⟨map, vm, rfl, haccepts, hrun⟩ := exec_fills h
  rw [hsplit] at hrun
  obtain ⟨⟨map₁, vm₁, F₁⟩, hpre, hrun⟩ := hrun.exists_of_append
  obtain ⟨⟨map₂, vm₂, F₂⟩, ⟨-, hret⟩, -⟩ := hrun.exists_of_cons
  obtain ⟨map₃, herror, -⟩ |
    ⟨map₃, vm₃, -, -, frames, F₃, ptr, vm₄, vm₅, halloc, hwindow, -⟩ := fillRegion_cases hret
  · cases herror
  · exact ⟨frames, vm₁, F₃, ptr, vm₄, _, ⟨pre, post, map₁, map₃, F₁, hsplit,
      fun entry hentry => haccepts entry (List.mem_of_mem_take hentry), hpre, halloc⟩, hwindow⟩

/-! ## Inside the window -/

theorem Region.count_le_iff :
    r.count ≤ TMP_TASK_SIZE_PER_PROC / pageSize ↔
    r.offset + r.memSize ≤ TMP_TASK_SIZE_PER_PROC := by
  simp only [Region.count, Region.offset, Region.first, alignUp, pageSize, TMP_TASK_SIZE_PER_PROC]
  omega

/-- The window of a core has the pages from its first one on. -/
theorem inWindow_iff {start q : Page} (hstart : tmpStartPage core = .ok start) :
    InWindow core q ↔ start.num ≤ q.num ∧
      q.num < start.num + TMP_TASK_SIZE_PER_PROC / pageSize := by
  simp only [tmpStartPage, except_bind_eq_ok, checkedMul_eq_ok, Page.add_eq_ok] at hstart
  obtain ⟨_, ⟨-, rfl⟩, hnum⟩ := hstart
  simp only [InWindow, Page.startAddress, TMP_TASK_SIZE_PER_PROC, pageSize] at hnum ⊢
  omega

/-- Pages that exist lie in the window as long as there are not too many. -/
theorem reservedPages_subset_iff {start : Page} (hstart : tmpStartPage core = .ok start)
    (hbacks : Backs vm start 0 frames) :
    (∀ q ∈ reservedPages core frames.length, InWindow core q) ↔
      frames.length ≤ TMP_TASK_SIZE_PER_PROC / pageSize := by
  constructor
  · intro hall
    by_contra hlt
    -- the first page behind the window is one of them
    have hk : TMP_TASK_SIZE_PER_PROC / pageSize < frames.length := Nat.not_le.mp hlt
    obtain ⟨q, flags, hq, -⟩ := hbacks _ _ (List.getElem?_eq_getElem hk)
    have hnum := Page.add_eq_ok.mp hq
    rw [Nat.zero_add] at hnum
    have hmem : q ∈ reservedPages core frames.length := by
      refine ⟨start, hstart, mem_visited.mpr ?_⟩
      rw [hnum]
      exact ⟨Nat.le_add_right _ _, Nat.add_lt_add_left hk _⟩
    exact Nat.lt_irrefl _ (hnum ▸ ((inWindow_iff hstart).mp (hall q hmem)).2)
  · rintro hle q ⟨start', hstart', hq⟩
    obtain rfl : start = start' := Except.ok.inj (hstart.symm.trans hstart')
    rw [mem_visited] at hq
    rw [inWindow_iff hstart]
    omega

/-- **The window of a core.**  The call of `tmp_local_reserve` for a region maps the reserved pages
and no others, and these lie in the window of the core exactly when the region does not take more
than the window from the start of its first page on. -/
theorem reserve_inWindow_iff (hinv : vm₀.Inv) (hfresh : Disjoint F₀ vm₀.tables)
    (hcall : Reserves M core elf vm₀ F₀ r frames vm F)
    (hret : Returns M (tmpLocalReserve core r.offset frames vm) F (ptr, vm') F') :
    (∀ q ∈ reservedPages core frames.length, ∃ f ∈ frames, ∃ flags,
        vm'.translate q = some ⟨f, flags⟩) ∧
      (∀ q ∉ reservedPages core frames.length, ¬ InArea q → vm'.translate q = vm.translate q) ∧
      ((∀ q ∈ reservedPages core frames.length, InWindow core q) ↔
        r.offset + r.memSize ≤ TMP_TASK_SIZE_PER_PROC) := by
  obtain ⟨hlen, map, hload⟩ := hcall.loading hinv hfresh
  obtain ⟨start, hstart, hev, -, hbacks, -⟩ :=
    tmpLocalReserve_maps hload.evolves.inv (hload.evolves.fresh hfresh) hret
  refine ⟨?_, fun q hq harea => ?_, ?_⟩
  · rintro q ⟨start', hstart', hq⟩
    obtain rfl : start = start' := Except.ok.inj (hstart.symm.trans hstart')
    rw [mem_visited] at hq
    have hk : q.num - start.num < frames.length := by omega
    obtain ⟨p, flags, hp, htrans⟩ := hbacks _ _ (List.getElem?_eq_getElem hk)
    obtain rfl : p = q := Page.ext (by
      rw [Page.add_eq_ok.mp hp]
      omega)
    exact ⟨_, List.getElem_mem hk, flags, htrans⟩
  · exact hev.translate q harea fun hmem => hq ⟨start, hstart, hmem⟩
  · rw [reservedPages_subset_iff hstart hbacks, hlen, Region.count_le_iff]

end Calls

/-- The first segment of the program with two segments. -/
theorem reserve_inWindow_shared : ∃ frames vm F ptr vm' F',
    Reserves freshPmm.managed 0 sharedElf bootSystem.vm freshPmm.free
      (sharedElf.segment ⟨1, 5, 0, 0x1000, 16, 16, 0x1000⟩) frames vm F ∧
    Returns freshPmm.managed (tmpLocalReserve 0 0 frames vm) F (ptr, vm') F' ∧
    ∀ q ∈ reservedPages 0 frames.length, InWindow 0 q := by
  obtain ⟨sys', pmm', hrun⟩ := exec_shared
  obtain ⟨hret, -, -⟩ := run_returns PhysicalFrameAllocator.freeSet able_fresh.sound hrun
  have hsplit : sharedElf.regions = [] ++ sharedElf.segment ⟨1, 5, 0, 0x1000, 16, 16, 0x1000⟩ ::
      [sharedElf.segment ⟨1, 6, 0, 0x1010, 16, 16, 0x1000⟩, stackRegion] := by
    rw [ElfFile.regions, sharedElf_loads]
    rfl
  obtain ⟨frames, vm, F, ptr, vm', F', hcall, hret⟩ := exec_reserves hret hsplit
  exact ⟨frames, vm, F, ptr, vm', F', hcall, hret,
    (reserve_inWindow_iff able_fresh.ready.inv able_fresh.fresh hcall hret).2.2.mpr (by decide)⟩

/-! ## Into the next window -/

/-- A segment of 32 GiB at `0x1001`. -/
def windowElf : ElfFile := segmentElf 0 0x1001 0 0x800000000

theorem windowElf_loads : windowElf.loads = [⟨1, 5, 0, 0x1001, 0, 0x800000000, 0x1000⟩] := by
  decide +kernel

theorem windowElf_loadable : Loadable windowElf := by
  refine ⟨fun i hi => ?_, ?_, ?_, ?_, ?_, ?_⟩
  · have hlen : windowElf.header.phtLen = 1 := by decide +kernel
    have htable : windowElf.content.base + windowElf.header.phoff = 64 := by decide +kernel
    have hsize : windowElf.header.phentSize = 56 := by decide +kernel
    rw [htable, hsize]
    omega
  all_goals
    rw [windowElf_loads]
    decide

theorem windowElf_regions : windowElf.regions =
    [windowElf.segment ⟨1, 5, 0, 0x1001, 0, 0x800000000, 0x1000⟩, stackRegion] := by
  rw [ElfFile.regions, windowElf_loads]
  rfl

theorem windowElf_pages : pageTotal windowElf.regions = 2 ^ 23 + 1 + 128 := by
  rw [windowElf_regions]
  decide

/-- The first page of the window of the core with number 1. -/
def secondWindow : Page := ⟨TMP_TASKLDMAP.num + 2 ^ 23, .inr (by decide)⟩

theorem secondWindow_of_tmpStartPage {start q : Page} (hstart : tmpStartPage 0 = .ok start)
    (hq : start.add (0 + 2 ^ 23) = .ok q) : q = secondWindow := by
  simp only [tmpStartPage, except_bind_eq_ok, checkedMul_eq_ok, Page.add_eq_ok] at hstart
  obtain ⟨_, ⟨-, rfl⟩, hnum⟩ := hstart
  refine Page.ext ?_
  rw [Page.add_eq_ok.mp hq, hnum]
  rfl

/-- A region of more than 32 GiB from its first page on reaches the second window, and the stack,
which is loaded after it, leaves the page there. -/
theorem secondWindow_mapped {M F F' : Set PhysFrame} {vm vm' : Vm} {map : MemoryMap} {r : Region}
    (hinv : vm.Inv) (hfresh : Disjoint F vm.tables) (hcount : 2 ^ 23 < r.count)
    (h : Run (Fills M 0) (.new, vm, F) [r, stackRegion] (map, vm', F')) :
    (vm'.translate secondWindow).isSome := by
  obtain ⟨⟨map₁, vm₁, F₁⟩, hfirst, hrest⟩ := h.exists_of_cons
  obtain ⟨⟨map₂, vm₂, F₂⟩, hstack, hnil⟩ := hrest.exists_of_cons
  cases hnil.eq_of_nil
  have hload := (hfirst.loading (.new hinv F) hfresh).1
  obtain ⟨start, frames, hstart, hlen, hbacks, -⟩ :=
    fillRegion_maps (.new hinv F) hfresh hfirst.1.user hfirst.1.small hfirst.2
  obtain ⟨start', _, hstart', -, -, hsame⟩ :=
    fillRegion_maps hload hfresh hstack.1.user hstack.1.small hstack.2
  obtain rfl : start = start' := Except.ok.inj (hstart.symm.trans hstart')
  rw [← hlen] at hcount
  obtain ⟨q, flags, hq, htrans⟩ := hbacks _ _ (List.getElem?_eq_getElem hcount)
  obtain rfl := secondWindow_of_tmpStartPage hstart hq
  have hnum := Page.add_eq_ok.mp hq
  rw [hsame secondWindow (by decide) fun hmem => ?_, htrans, Option.isSome_some]
  -- the stack takes 128 pages
  rw [mem_visited, show stackRegion.count = 128 by decide] at hmem
  omega

/-- The segment is accepted and loaded, and its last page ends up in the window of another core. -/
theorem exec_overruns_window : ∃ pmm sys' pmm',
    Able bootSystem.vm pmm (4 * pageTotal windowElf.regions) ∧
    ElfFile.parse windowElf.content = some windowElf ∧
    (∀ entry ∈ windowElf.loads, windowElf.Accepts entry) ∧
    (exec 0 windowElf bootSystem).run PhysicalFrameAllocator.pool pmm =
      .ok ((.success 1, sys'), pmm') ∧
    InWindow 1 secondWindow ∧ bootSystem.vm.translate secondWindow = none ∧
    (sys'.vm.translate secondWindow).isSome := by
  have hable : Able bootSystem.vm (pagesPmm 33554948) (0 + 4 * pageTotal windowElf.regions) := by
    rw [windowElf_pages]
    exact able_pages (by decide) (by decide)
  obtain ⟨_, pmm', hrun, -, -, map, vm, rfl, -, hfills⟩ :=
    hable.run (exec_loads (Nat.zero_le 255) windowElf_loadable (by decide) (.of_able hable))
  rw [windowElf_regions] at hfills
  refine ⟨_, _, pmm', hable.mono (Nat.le_add_left _ _), ElfFile.parse_of_verify (by decide +kernel),
    windowElf_loadable.accepts, hrun, by decide, freshVm_translate (by decide), ?_⟩
  exact secondWindow_mapped hable.ready.inv hable.fresh (by decide) hfills

end HeliumOS.Proc
