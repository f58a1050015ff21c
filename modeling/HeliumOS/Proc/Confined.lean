import HeliumOS.Proc.Contents
import Mathlib.Data.List.Range

/-!
# The Memory Map of a New Task

What `exec` records in the memory map of a task: which pages, with which flags and which frames.

- A region has one mapping for each page that it meets, in order (`Region.Mapped`).
- `Built` is the invariant of a load: the map is the concatenation of the mappings of the regions,
  and its frames were free at the start and are taken, each for one mapping.
- `exec_confined` reads this off for the task that `exec` makes of a file (`Confined`).

Nothing here depends on the page tables: the mapper asks for frames and gives none back, so that
a frame of the map is never handed out twice.
-/

namespace HeliumOS.Proc

open HeliumOS.Lib HeliumOS.Lib.AllocProg HeliumOS.Mem HeliumOS.Mem.Virt HeliumOS.Elf

/-! ## The pages of a range -/

/-- Page number `n` has one of the `size` bytes from `vadr` on.  A range without bytes still has the
page of its address, unless it starts at a page boundary. -/
def MeetsPage (vadr size n : ℕ) : Prop :=
  (∃ adr, vadr ≤ adr ∧ adr < vadr + size ∧ adr / pageSize = n) ∨
    (size = 0 ∧ ¬ pageSize ∣ vadr ∧ vadr / pageSize = n)

/-- The pages that the loader takes for a region are those that it meets. -/
theorem Region.maps_iff_meetsPage {r : Region} {n : ℕ} :
    r.Maps n ↔ MeetsPage r.vadr r.memSize n := by
  constructor
  · rintro ⟨hlo, hhi⟩
    rcases Nat.eq_zero_or_pos r.memSize with hzero | hpos
    · refine .inr ⟨hzero, ?_, ?_⟩ <;>
      · simp only [Region.count, Region.first, alignUp, pageSize, hzero] at hlo hhi ⊢
        omega
    · -- the first byte of the region in the page
      refine .inl ⟨max r.vadr (n * pageSize), Nat.le_max_left .., ?_, ?_⟩ <;>
      · simp only [Region.count, Region.first, alignUp, pageSize] at hlo hhi ⊢
        omega
  · rintro (⟨adr, hlo, hhi, rfl⟩ | ⟨hzero, hoff, rfl⟩)
    · exact Region.Holds.maps ⟨hlo, hhi⟩
    · simp only [Region.Maps, Region.count, Region.first, alignUp, pageSize, hzero] at hoff ⊢
      omega

/-! ## Mappings of a region -/

/-- One mapping for each page of the region, in order. -/
structure Region.Mapped (r : Region) (ms : List MemoryMapping) : Prop where
  pages : ms.map (fun m => m.vadr.num) = List.range' r.first r.count
  flags : ∀ m ∈ ms, m.flags = r.flags
  single : ∀ m ∈ ms, m.n = 1

section Load

variable {M F F' F₀ : Set PhysFrame} {vm vm' : Vm} {map map' : MemoryMap} {core : ℕ}

/-- What a call of `allocate` that succeeds has added to a map. -/
structure Adds (F F' : Set PhysFrame) (map map' : MemoryMap) (flags : PageTableFlags)
    (start n : ℕ) (added : List MemoryMapping) : Prop where
  mappings : map'.mappings = map.mappings ++ added
  pages : added.map (fun m => m.vadr.num) = List.range' start n
  flags : ∀ m ∈ added, m.flags = flags
  single : ∀ m ∈ added, m.n = 1
  free : F' ⊆ F
  nodup : (added.map MemoryMapping.padr).Nodup
  taken : ∀ m ∈ added, m.padr ∈ F ∧ m.padr ∉ F'

theorem allocateFrom_adds {n i : ℕ} {vadr : Page} {flags : PageTableFlags}
    {frames res : List PhysFrame}
    (hret : Returns M (MemoryMap.allocateFrom vadr flags n i frames map) F (some res, map') F') :
    ∃ added, Adds F F' map map' flags (vadr.num + i) n added := by
  induction n generalizing i frames map F with
  | zero =>
    obtain ⟨hpair, rfl⟩ := returns_pure.mp hret
    cases hpair
    exact ⟨[], by simp, rfl, by simp, by simp, subset_rfl, by simp, by simp⟩
  | succ n ih =>
    rw [MemoryMap.allocateFrom, returns_bind] at hret
    obtain ⟨r, F₁, hget, hret⟩ := hret
    rcases returns_get.mp hget with ⟨f, hf, rfl, rfl⟩ | ⟨-, rfl, rfl⟩
    · simp only [returns_bind, returns_lift] at hret
      obtain ⟨page, F₂, ⟨hpage, rfl⟩, hret⟩ := hret
      obtain ⟨added, hadds⟩ := ih hret
      refine ⟨⟨page, f, 1, flags, true⟩ :: added, ?_, ?_, ?_, ?_, ?_, ?_, ?_⟩
      · rw [hadds.mappings, MemoryMap.addRaw, List.append_assoc, List.singleton_append]
      · rw [List.map_cons, hadds.pages, List.range'_succ, Page.add_eq_ok.mp hpage, Nat.add_assoc]
      · exact List.forall_mem_cons.mpr ⟨rfl, hadds.flags⟩
      · exact List.forall_mem_cons.mpr ⟨rfl, hadds.single⟩
      · exact fun g hg => (hadds.free hg).1
      · -- the frame was gone when the others were taken
        refine List.nodup_cons.mpr ⟨fun hmem => ?_, hadds.nodup⟩
        obtain ⟨m, hm, hpadr⟩ := List.mem_map.mp hmem
        exact (hadds.taken m hm).1.2 hpadr
      · refine List.forall_mem_cons.mpr ⟨⟨hf, fun hmem => (hadds.free hmem).2 rfl⟩, fun m hm => ?_⟩
        exact ⟨(hadds.taken m hm).1.1, (hadds.taken m hm).2⟩
    · -- a call that runs out of frames does not succeed
      simp only [returns_bind, returns_pure] at hret
      obtain ⟨-, F₂, -, hpair, -⟩ := hret
      cases hpair

/-- The window of a core takes frames, and gives none back. -/
theorem tmpLocalReserve_free {offset ptr : ℕ} {frames : List PhysFrame}
    (hret : Returns M (tmpLocalReserve core offset frames vm) F (ptr, vm') F') : F' ⊆ F := by
  simp only [tmpLocalReserve, returns_bind, returns_lift, returns_pure] at hret
  obtain ⟨page, F₁, ⟨-, rfl⟩, vm₁, F₂, hmap, _, F₃, ⟨-, rfl⟩, -, rfl⟩ := hret
  exact (vmapManyFrom_atMost _ _ _ _ _).returns_subset hmap

/-- A region that was loaded. -/
theorem Fills.adds {r : Region} (h : Fills M core (map, vm, F) r (map', vm', F')) :
    ∃ added, Adds F F' map map' r.flags r.first r.count added := by
  obtain ⟨hwf, hret⟩ := h
  obtain ⟨map₁, herror, -⟩ |
    ⟨map₁, vm₁, hpair, -, frames, F₁, ptr, vm₂, vm₃, halloc, hwindow, -, -⟩ := fillRegion_cases hret
  · cases herror
  · cases hpair
    obtain ⟨added, hadds⟩ := allocateFrom_adds halloc
    rw [Region.page_eq hwf.user] at hadds
    have hfree := tmpLocalReserve_free hwindow
    exact ⟨added, { hadds with
      free := hfree.trans hadds.free
      taken := fun m hm => ⟨(hadds.taken m hm).1, fun hmem => (hadds.taken m hm).2 (hfree hmem)⟩ }⟩

/-! ## The whole map -/

/-- The map has the mappings of the regions, one region after the other.  Its frames were free at
the start, with `F₀`, and are not free any more, and no two mappings share one. -/
structure Built (F₀ F : Set PhysFrame) (map : MemoryMap) (regions : List Region) : Prop where
  mappings : ∃ parts, map.mappings = parts.flatten ∧ List.Forall₂ Region.Mapped regions parts
  free : F ⊆ F₀
  nodup : map.frames.Nodup
  taken : ∀ f ∈ map.frames, f ∈ F₀ ∧ f ∉ F

theorem Built.new (F : Set PhysFrame) : Built F F .new [] where
  mappings := ⟨[], rfl, .nil⟩
  free := subset_rfl
  nodup := List.nodup_nil
  taken := by simp [MemoryMap.new, MemoryMap.frames]

/-- One more region. -/
theorem Built.fills {regions : List Region} {r : Region} (h : Built F₀ F map regions)
    (hfills : Fills M core (map, vm, F) r (map', vm', F')) : Built F₀ F' map' (regions ++ [r]) := by
  obtain ⟨added, hadds⟩ := hfills.adds
  obtain ⟨parts, hparts, hmapped⟩ := h.mappings
  have hframes : map'.frames = map.frames ++ added.map MemoryMapping.padr := by
    rw [MemoryMap.frames, hadds.mappings, List.map_append, MemoryMap.frames]
  refine ⟨⟨parts ++ [added], ?_, ?_⟩, hadds.free.trans h.free, ?_, fun f hf => ?_⟩
  · rw [hadds.mappings, hparts, List.flatten_append, List.flatten_singleton]
  · exact List.rel_append hmapped (.cons ⟨hadds.pages, hadds.flags, hadds.single⟩ .nil)
  · -- the earlier frames are not free, and the new ones were
    rw [hframes]
    refine h.nodup.append hadds.nodup fun f hf hnew => ?_
    obtain ⟨m, hm, rfl⟩ := List.mem_map.mp hnew
    exact (h.taken _ hf).2 (hadds.taken m hm).1
  · rw [hframes, List.mem_append] at hf
    rcases hf with hf | hf
    · exact ⟨(h.taken f hf).1, fun hmem => (h.taken f hf).2 (hadds.free hmem)⟩
    · obtain ⟨m, hm, rfl⟩ := List.mem_map.mp hf
      exact ⟨h.free (hadds.taken m hm).1, (hadds.taken m hm).2⟩

theorem built_of_run {regions : List Region}
    (h : Run (Fills M core) (.new, vm, F) regions (map, vm', F')) : Built F F' map regions := by
  generalize hs' : ((map, vm', F') : LoadState) = s' at h
  induction h generalizing map vm' F' with
  | nil =>
    cases hs'
    exact .new F
  | snoc _ hlast ih =>
    subst hs'
    exact (ih rfl).fills hlast

end Load

/-! ## The task of a file -/

/-- The mappings of a `Load` segment: one for each page that it meets, in ascending order. -/
structure Placed (entry : ProgramHeader) (ms : List MemoryMapping) : Prop where
  ascending : (ms.map fun m => m.vadr.num).Pairwise (· < ·)
  pages : ∀ n, n ∈ ms.map (fun m => m.vadr.num) ↔ MeetsPage entry.vadr entry.memSize n
  writable : ∀ m ∈ ms, m.flags.contains .WRITABLE = entry.flags.testBit 1

/-- The mappings of the stack. -/
structure PlacedStack (ms : List MemoryMapping) : Prop where
  pages : ms.map (fun m => m.vadr.num) = List.range' USERSTACK_TOP.num 128
  writable : ∀ m ∈ ms, m.flags.contains .WRITABLE = true

/-- A page of the user half that user code may access. -/
structure MemoryMapping.User (m : MemoryMapping) : Prop where
  single : m.n = 1
  below : (m.vadr.num + 1) * pageSize ≤ 2 ^ 47
  accessible : m.flags.contains .USER_ACCESSIBLE = true

/-- The map has the pages of the file and of the stack, and nothing else.  They lie in the user
half, and have frames of their own from `free`. -/
structure Confined (elf : ElfFile) (free : Set PhysFrame) (map : MemoryMap) : Prop where
  layout : ∃ segments stack, map.mappings = segments.flatten ++ stack ∧
    List.Forall₂ Placed elf.loads segments ∧ PlacedStack stack
  user : ∀ m ∈ map.mappings, m.User
  nodup : map.frames.Nodup
  frames : ∀ f ∈ map.frames, f ∈ free

section Exec

variable {F F' : Set PhysFrame} {map : MemoryMap} {elf : ElfFile} {core : ℕ} {sys sys' : System}
  {pmm pmm' : PhysicalFrameAllocator}

theorem memoryFlags_writable (entry : ProgramHeader) :
    (entry.memoryFlags ||| .USER_ACCESSIBLE).contains .WRITABLE = entry.flags.testBit 1 := by
  unfold ProgramHeader.memoryFlags ProgramHeader.writable
  cases entry.flags.testBit 1 <;> decide

theorem Region.Mapped.placed {entry : ProgramHeader} {ms : List MemoryMapping}
    (h : (elf.segment entry).Mapped ms) : Placed entry ms where
  ascending := by
    rw [h.pages]
    exact List.pairwise_lt_range'
  pages n := by
    rw [h.pages, List.mem_range'_1]
    exact Region.maps_iff_meetsPage
  writable m hm := by
    rw [h.flags m hm]
    exact memoryFlags_writable entry

theorem Region.Mapped.placedStack {ms : List MemoryMapping} (h : stackRegion.Mapped ms) :
    PlacedStack ms where
  pages := by
    rw [h.pages, show stackRegion.first = USERSTACK_TOP.num by decide,
      show stackRegion.count = 128 by decide]
  writable m hm := by
    rw [h.flags m hm]
    decide

theorem ElfFile.accessible_of_mem_regions {r : Region} (hr : r ∈ elf.regions) :
    r.flags.contains .USER_ACCESSIBLE = true := by
  rcases List.mem_append.mp hr with hr | hr
  · obtain ⟨entry, -, rfl⟩ := List.mem_map.mp hr
    exact PageTableFlags.or_contains_right _ _
  · obtain rfl := List.mem_singleton.mp hr
    decide

theorem Region.Mapped.user {r : Region} {ms : List MemoryMapping} (h : r.Mapped ms) (hwf : r.Wf)
    (hflags : r.flags.contains .USER_ACCESSIBLE = true) : ∀ m ∈ ms, m.User := by
  intro m hm
  have hpage : m.vadr.num ∈ List.range' r.first r.count := by
    rw [← h.pages]
    exact List.mem_map_of_mem hm
  have hlt := (List.mem_range'_1.mp hpage).2
  have hend := Region.pages_le hwf.user
  refine ⟨h.single m hm, ?_, h.flags m hm ▸ hflags⟩
  simp only [pageSize]
  omega

theorem user_of_mapped {rs : List Region} {parts : List (List MemoryMapping)}
    (h : List.Forall₂ Region.Mapped rs parts) (hwf : ∀ r ∈ rs, r.Wf)
    (hflags : ∀ r ∈ rs, r.flags.contains .USER_ACCESSIBLE = true) :
    ∀ m ∈ parts.flatten, m.User := by
  induction h with
  | nil => simp
  | @cons r ms _ _ hfirst _ ih =>
    intro m hm
    rw [List.flatten_cons, List.mem_append] at hm
    rcases hm with hm | hm
    · exact hfirst.user (hwf r List.mem_cons_self) (hflags r List.mem_cons_self) m hm
    · exact ih (fun r hr => hwf r (List.mem_cons_of_mem _ hr))
        (fun r hr => hflags r (List.mem_cons_of_mem _ hr)) m hm

/-- The parts of a map that belong to the segments, and the part of the stack. -/
theorem layout_of_mapped {parts : List (List MemoryMapping)}
    (h : List.Forall₂ Region.Mapped elf.regions parts) :
    ∃ segments stack, parts.flatten = segments.flatten ++ stack ∧
      List.Forall₂ Placed elf.loads segments ∧ PlacedStack stack := by
  have hsegments := List.forall₂_take_append _ _ _ h.flip
  have hlast := List.forall₂_drop_append _ _ _ h.flip
  generalize hpre : parts.take (elf.loads.map elf.segment).length = segments at hsegments
  generalize hpost : parts.drop (elf.loads.map elf.segment).length = last at hlast
  obtain ⟨stack, rest, hstack, hrest, rfl⟩ := List.forall₂_cons_right_iff.mp hlast
  obtain rfl := List.forall₂_nil_right_iff.mp hrest
  refine ⟨segments, stack, ?_, ?_, Region.Mapped.placedStack hstack⟩
  · rw [← List.take_append_drop (elf.loads.map elf.segment).length parts, hpre, hpost,
      List.flatten_append, List.flatten_singleton]
  · rw [List.forall₂_map_right_iff] at hsegments
    exact hsegments.flip.imp fun _ _ hmapped => Region.Mapped.placed hmapped

theorem Built.confined (h : Built F F' map elf.regions) (hwf : ∀ r ∈ elf.regions, r.Wf) :
    Confined elf F map := by
  obtain ⟨parts, hparts, hmapped⟩ := h.mappings
  refine ⟨?_, ?_, h.nodup, fun f hf => (h.taken f hf).1⟩
  · rw [hparts]
    exact layout_of_mapped hmapped
  · rw [hparts]
    exact user_of_mapped hmapped hwf fun r => ElfFile.accessible_of_mem_regions

/-- **The memory map of a new task.**  When `exec` succeeds, there is one more task, and its map is
confined to the pages of the file and the stack, with frames that were free. -/
theorem exec_confined {id : ℕ} (hsound : pmm.Sound)
    (h : (exec core elf sys).run PhysicalFrameAllocator.pool pmm =
      .ok ((.success id, sys'), pmm')) :
    sys'.tasks = sys.tasks ++ [sys.nextRef] ∧
      Confined elf pmm.free (sys'.task sys.nextRef).memoryMap := by
  obtain ⟨hret, -, -⟩ := run_returns PhysicalFrameAllocator.freeSet hsound h
  obtain ⟨map, vm, rfl, -, hrun⟩ := exec_fills hret
  refine ⟨rfl, ?_⟩
  rw [System.push_task_self]
  exact (built_of_run hrun).confined (wf_of_fills hrun)

/-- The program with two segments in one page: its map has that page twice, with two frames. -/
theorem exec_confined_shared : freshPmm.Sound ∧ ∃ sys' pmm',
    (exec 0 sharedElf bootSystem).run PhysicalFrameAllocator.pool freshPmm =
      .ok ((.success 1, sys'), pmm') ∧
    Confined sharedElf freshPmm.free (sys'.task bootSystem.nextRef).memoryMap := by
  obtain ⟨sys', pmm', hrun⟩ := exec_shared
  exact ⟨able_fresh.sound, sys', pmm', hrun, (exec_confined able_fresh.sound hrun).2⟩

end Exec

end HeliumOS.Proc
