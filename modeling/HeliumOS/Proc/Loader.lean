import HeliumOS.Proc.Layout
import HeliumOS.Proc.Task

/-!
# What the Program Loader Does

`Task::exec` on the set of free frames.

- `Loading` is what holds between any two steps of the loader: the frames of the map are taken and
  are no page tables, and no page of the user half changes its translation.
- A load that ends early is `Failing`: a part of the frames has been given back already.
- A segment and the stack are loaded in the same way (`fillRegion`), so that a load that succeeds
  is a run with the regions of the file as its labels (`load_fills`).
- `load_spec` is the result about the whole load.
-/

namespace HeliumOS.Proc

open HeliumOS.Lib HeliumOS.Lib.AllocProg HeliumOS.Mem HeliumOS.Mem.Virt HeliumOS.Elf

/-! ## Releases -/

/-- Dropping mappings frees the frames of those that were allocated. -/
theorem dropMappings_eq (ms : List MemoryMapping) :
    dropMappings ms =
      pfreeAll ((ms.filter MemoryMapping.allocated).map MemoryMapping.padr) := by
  induction ms with
  | nil => rfl
  | cons m ms ih =>
    rw [dropMappings, ih, MemoryMapping.drop]
    cases hm : m.allocated with
    | false => simp [hm]
    | true => simp [hm, pfreeAll]

/-! ## Between the steps of the loader -/

/-- A mapping as the loader makes it. -/
structure MemoryMapping.Wf (m : MemoryMapping) : Prop where
  user : m.vadr.IsUser
  single : m.n = 1
  allocated : m.allocated = true
  small : m.flags.contains .HUGE_PAGE = false

/-- From `vm₀` with `F₀` free, the loader has come to `vm` with `F` free and has built `map`. -/
structure Loading (vm₀ vm : Vm) (F₀ F : Set PhysFrame) (map : MemoryMap) : Prop where
  evolves : Evolves vm₀ vm F₀ F {q | ¬ q.IsUser}
  id : map.id = 0
  wf : ∀ m ∈ map.mappings, m.Wf
  nodup : map.frames.Nodup
  taken : ∀ f ∈ map.frames, f ∈ F₀ ∧ f ∉ F ∧ f ∉ vm.tables

/-- Some of the frames of the map have been given back. -/
def Failing (vm₀ vm : Vm) (F₀ F : Set PhysFrame) (map : MemoryMap) : Prop :=
  ∃ F₁, Loading vm₀ vm F₀ F₁ map ∧ F₁ ⊆ F ∧ F ⊆ F₁ ∪ {f | f ∈ map.frames}

/-- What a part of the loader leaves behind. -/
def Leaves (vm₀ : Vm) (F₀ : Set PhysFrame) : Loaded → Set PhysFrame → Prop
  | (.ok (), map, vm), F => Loading vm₀ vm F₀ F map
  | (.error e, map, vm), F => (∀ id, e ≠ .success id) ∧ Failing vm₀ vm F₀ F map

section Steps

variable {vm₀ vm vm' : Vm} {F₀ F F' M : Set PhysFrame} {map map' : MemoryMap}

theorem Loading.failing (h : Loading vm₀ vm F₀ F map) : Failing vm₀ vm F₀ F map :=
  ⟨F, h, subset_rfl, Set.subset_union_left⟩

theorem Loading.new (hinv : vm.Inv) (F : Set PhysFrame) : Loading vm vm F F .new :=
  ⟨.refl hinv F, rfl, by simp [MemoryMap.new], by simp [MemoryMap.new, MemoryMap.frames],
    by simp [MemoryMap.new, MemoryMap.frames]⟩

/-- Virtual memory changes outside the user half. -/
theorem Loading.step (h : Loading vm₀ vm F₀ F map) (hev : Evolves vm vm' F F' {q | ¬ q.IsUser}) :
    Loading vm₀ vm' F₀ F' map := by
  refine ⟨(h.evolves.trans hev).mono (by simp), h.id, h.wf, h.nodup, fun f hf => ?_⟩
  obtain ⟨hF₀, hF, htables⟩ := h.taken f hf
  refine ⟨hF₀, fun hmem => hF (hev.free hmem), fun hmem => ?_⟩
  rcases hev.tables hmem with hold | ⟨hfree, -⟩
  · exact htables hold
  · exact hF hfree

@[simp] theorem MemoryMap.frames_addRaw (map : MemoryMap) (page : Page) (f : PhysFrame) (n : ℕ)
    (flags : PageTableFlags) (allocated : Bool) :
    (map.addRaw page f n flags allocated).frames = map.frames ++ [f] := by
  simp [MemoryMap.frames, MemoryMap.addRaw]

/-- A frame is taken for a page. -/
theorem Loading.addRaw (h : Loading vm₀ vm F₀ F map) (hfresh : Disjoint F₀ vm₀.tables)
    {f : PhysFrame} (hf : f ∈ F) {page : Page} (hpage : page.IsUser) {flags : PageTableFlags}
    (hflags : flags.contains .HUGE_PAGE = false) :
    Loading vm₀ vm F₀ (F \ {f}) (map.addRaw page f 1 flags true) := by
  -- the frame was free until now, so that no mapping has it and it is no table
  have hfresh' := h.evolves.fresh hfresh
  refine ⟨(h.evolves.trans (.take h.evolves.inv Set.sdiff_subset (P := ∅))).mono (by simp), h.id,
    ?_, ?_, ?_⟩
  · intro m hm
    rcases List.mem_append.mp hm with hm | hm
    · exact h.wf m hm
    · obtain rfl := List.mem_singleton.mp hm
      exact ⟨hpage, rfl, rfl, hflags⟩
  · rw [MemoryMap.frames_addRaw]
    refine h.nodup.append (List.nodup_singleton f) fun g hg hg' => ?_
    obtain rfl := List.mem_singleton.mp hg'
    exact (h.taken g hg).2.1 hf
  · intro g hg
    rw [MemoryMap.frames_addRaw] at hg
    rcases List.mem_append.mp hg with hg | hg
    · obtain ⟨hF₀, hF, htables⟩ := h.taken g hg
      exact ⟨hF₀, fun hmem => hF hmem.1, htables⟩
    · obtain rfl := List.mem_singleton.mp hg
      exact ⟨h.evolves.free hf, fun hmem => hmem.2 rfl, Set.disjoint_left.mp hfresh' hf⟩

/-- Mappings for the pages from `vadr` on, offset by `i`, with the frames of the list. -/
structure Places (vadr : Page) (i : ℕ) (frames : List PhysFrame) (added : List MemoryMapping) :
    Prop where
  frames : added.map MemoryMapping.padr = frames
  pages : ∀ k m, added[k]? = some m → vadr.add (i + k) = .ok m.vadr

/-- `MemoryMap::allocate`: every page gets a frame, or the frames go back while their mappings
stay. -/
theorem allocateFrom_spec {n i : ℕ} {vadr : Page} {flags : PageTableFlags} {frames : List PhysFrame}
    {res : Option (List PhysFrame)} (h : Loading vm₀ vm F₀ F map)
    (hfresh : Disjoint F₀ vm₀.tables) (hframes : ∀ f ∈ frames, f ∈ map.frames)
    (huser : vadr.num + i + n ≤ 2 ^ 35) (hflags : flags.contains .HUGE_PAGE = false)
    (hret : Returns M (MemoryMap.allocateFrom vadr flags n i frames map) F (res, map') F') :
    (∃ new, res = some (frames ++ new) ∧ new.length = n ∧ Loading vm₀ vm F₀ F' map' ∧
        F' ⊆ F ∧ (∀ f ∈ new, f ∈ F) ∧
        ∃ added, map'.mappings = map.mappings ++ added ∧ Places vadr i new added) ∨
      (res = none ∧ Failing vm₀ vm F₀ F' map') := by
  -- induction on the pages that have no frame yet; `frames` are those of the call so far
  induction n generalizing i frames map F with
  | zero =>
    obtain ⟨hpair, rfl⟩ := returns_pure.mp hret
    cases hpair
    exact .inl ⟨[], by simp, rfl, h, subset_rfl, by simp, [], by simp, rfl, by simp⟩
  | succ n ih =>
    rw [MemoryMap.allocateFrom, returns_bind] at hret
    obtain ⟨r, F₁, hget, hret⟩ := hret
    -- a frame is mapped and the loop goes on, or all frames of the call are given back
    rcases returns_get.mp hget with ⟨f, hf, rfl, rfl⟩ | ⟨-, rfl, rfl⟩
    · simp only [returns_bind, returns_lift] at hret
      obtain ⟨page, F₂, ⟨hpage, rfl⟩, hret⟩ := hret
      have hnum := Page.add_eq_ok.mp hpage
      have hpage' : page.IsUser := by
        rw [Page.IsUser]
        omega
      have h' := h.addRaw hfresh hf hpage' hflags
      -- what would be given back on a failure is in the map as well
      have hframes' : ∀ g ∈ frames ++ [f], g ∈ (map.addRaw page f 1 flags true).frames := by
        intro g hg
        rw [MemoryMap.frames_addRaw]
        exact List.mem_append.mpr ((List.mem_append.mp hg).imp_left (hframes g))
      rcases ih h' hframes' (by omega) hret with
        ⟨new, rfl, hlen, hload, hsub, hnew, added, hadded, hplaces⟩ | ⟨rfl, hfail⟩
      · have hadded' : map'.mappings = map.mappings ++ ⟨page, f, 1, flags, true⟩ :: added := by
          rw [hadded, MemoryMap.addRaw, List.append_assoc, List.singleton_append]
        refine .inl
          ⟨f :: new, by simp, by simp [hlen], hload, fun g hg => (hsub hg).1, ?_, _, hadded', ?_,
          fun k m hm => ?_⟩
        · intro g hg
          rcases List.mem_cons.mp hg with rfl | hg
          · exact hf
          · exact (hnew g hg).1
        · rw [List.map_cons, hplaces.frames]
        · cases k with
          | zero =>
            obtain rfl := Option.some.inj hm
            exact hpage
          | succ k =>
            rw [← hplaces.pages k m (by simpa using hm)]
            congr 1
            omega
      · exact .inr ⟨rfl, hfail⟩
    -- no frame is left: those of the call go back, but the map still has their mappings
    · simp only [returns_bind, returns_pfreeAll, returns_pure] at hret
      obtain ⟨-, F₂, rfl, hpair, rfl⟩ := hret
      cases hpair
      refine .inr ⟨rfl, F₁, h, Set.subset_union_left, ?_⟩
      exact Set.union_subset_union_right _ fun f hf => hframes f hf.1

/-- The frames are mapped from the first page of the window of the core on. -/
theorem tmpLocalReserve_maps {core offset ptr : ℕ} {frames : List PhysFrame} (hinv : vm.Inv)
    (hfresh : Disjoint F vm.tables)
    (hret : Returns M (tmpLocalReserve core offset frames vm) F (ptr, vm') F') :
    ∃ start, tmpStartPage core = .ok start ∧ Evolves vm vm' F F' (visited start 0 frames.length) ∧
      KeepsData vm vm' ∧ Backs vm' start 0 frames ∧ ptr = start.startAddress + offset := by
  simp only [tmpLocalReserve, returns_bind, returns_lift, checkedAdd_eq_ok, returns_pure,
    Prod.mk.injEq] at hret
  obtain ⟨start, F₁, ⟨hstart, rfl⟩, vm₁, F₂, hmap, _, F₃, ⟨⟨-, rfl⟩, rfl⟩, ⟨rfl, rfl⟩, rfl⟩ := hret
  obtain ⟨hev, hbacks⟩ := vmapMany_evolves hinv hfresh hmap
  exact ⟨start, hstart, hev, vmapManyFrom_keepsData hinv hfresh hmap, hbacks, rfl⟩

/-- The window of a core lies in the kernel half. -/
theorem tmpLocalReserve_spec {core offset ptr : ℕ} {frames : List PhysFrame} (hinv : vm.Inv)
    (hfresh : Disjoint F vm.tables)
    (hret : Returns M (tmpLocalReserve core offset frames vm) F (ptr, vm') F') :
    Evolves vm vm' F F' {q | ¬ q.IsUser} ∧ KeepsData vm vm' ∧
      ∃ page, Backs vm' page 0 frames ∧ ptr = page.startAddress + offset := by
  obtain ⟨page, hpage, hev, hkeeps, hbacks, rfl⟩ := tmpLocalReserve_maps hinv hfresh hret
  refine ⟨hev.mono fun q hq huser => ?_, hkeeps, page, hbacks, rfl⟩
  simp only [tmpStartPage, except_bind_eq_ok, Page.add_eq_ok] at hpage
  obtain ⟨off, -, hnum⟩ := hpage
  have hvisited := (mem_visited.mp hq).1
  rw [Page.IsUser] at huser
  simp only [TMP_TASKLDMAP, kvmspace, pageSize] at hnum
  omega

/-- Stores through the window change data only. -/
theorem dataOnly_storeBytes {page : Page} {frames : List PhysFrame} {bytes : List (BitVec 8)}
    {off : ℕ} (hbacks : Backs vm page 0 frames) (hframes : Disjoint {f | f ∈ frames} vm.tables)
    (hlen : off + bytes.length ≤ frames.length * pageSize)
    (h : storeBytes bytes (page.startAddress + off) vm = .ok vm') :
    DataOnly vm vm' {f | f ∈ frames} := by
  have hend : page.startAddress + off + bytes.length ≤
      page.startAddress + frames.length * pageSize := by omega
  obtain ⟨vm₁, hstore, hdata⟩ :=
    storeBytes_backs hbacks hframes (Nat.le_add_right page.startAddress off) hend
  obtain rfl : vm₁ = vm' := Except.ok.inj (hstore.symm.trans h)
  exact hdata

theorem memoryFlags_small (entry : ProgramHeader) :
    (entry.memoryFlags ||| .USER_ACCESSIBLE).contains .HUGE_PAGE = false := by
  unfold ProgramHeader.memoryFlags
  split_ifs <;> decide

theorem disjoint_tables_of_taken (h : Loading vm₀ vm F₀ F map) {frames : List PhysFrame}
    (hframes : ∀ f ∈ frames, f ∈ map.frames) : Disjoint {f | f ∈ frames} vm.tables :=
  Set.disjoint_left.mpr fun f hf => (h.taken f (hframes f hf)).2.2

theorem Places.mem_frames {vadr : Page} {i : ℕ} {frames : List PhysFrame}
    {added ms : List MemoryMapping} (h : Places vadr i frames added)
    (hmap : map'.mappings = ms ++ added) : ∀ f ∈ frames, f ∈ map'.frames := by
  rintro f hf
  rw [← h.frames] at hf
  rw [MemoryMap.frames, hmap, List.map_append]
  exact List.mem_append_right _ hf

/-! ## One region -/

/-- What the loader does for a segment and for the stack alike. -/
def fillRegion (core : ℕ) (r : Region) (map : MemoryMap) (vm : Vm) : Kernel Loaded := do
  match ← map.allocate (.containing (newTruncate r.vadr)) r.count r.flags with
  | (none, map) => return (.error .allocationError, map, vm)
  | (some frames, map) => do
    let (ptr, vm) ← tmpLocalReserve core r.offset frames vm
    let vm ← storeBytes (List.replicate r.memSize 0) ptr vm
    if r.memSize < r.bytes.length then .fail .copyRange
    else do
      let vm ← storeBytes r.bytes ptr vm
      return (.ok (), map, vm)

/-- A region of the user half starts on the page that its address is in: the address is canonical,
so `new_truncate` does not change it. -/
theorem Region.page_eq {r : Region} (huser : r.vadr + r.memSize < USERSPACE_TOP) :
    (Page.containing (newTruncate r.vadr)).num = r.first := by
  rw [newTruncate_of_lt (by simp only [USERSPACE_TOP] at huser; omega)]
  rfl

/-- The arithmetic of `exec` on a `Load` header does not overflow. -/
theorem loadContent_eq {core : ℕ} {entry : ProgramHeader} {content : List (BitVec 8)}
    (hstop : entry.vadr + entry.memSize < USERSPACE_TOP) (map : MemoryMap) (vm : Vm) :
    loadContent core entry content map vm = fillRegion core
      ⟨entry.vadr, entry.memSize, content, entry.memoryFlags ||| .USER_ACCESSIBLE⟩ map vm := by
  have hpage := Region.page_eq (r := ⟨entry.vadr, entry.memSize, content, .empty⟩) hstop
  have hstart : (Page.containing (newTruncate entry.vadr)).startAddress =
      entry.vadr / pageSize * pageSize := by
    rw [Page.startAddress]
    exact congrArg (· * pageSize) hpage
  -- each sum and difference of the source, below the end of user space
  simp only [USERSPACE_TOP] at hstop
  have hadd : checkedAdd 64 Panic.loadOverflow entry.memSize entry.vadr =
      .ok (entry.memSize + entry.vadr) := checkedAdd_eq_ok.mpr ⟨by omega, rfl⟩
  have hsub : checkedSub Panic.loadOverflow (entry.memSize + entry.vadr)
      (entry.vadr / pageSize * pageSize) =
      .ok (entry.memSize + entry.vadr - entry.vadr / pageSize * pageSize) :=
    checkedSub_eq_ok.mpr ⟨by simp only [pageSize]; omega, rfl⟩
  have halign : checkedAlignUp 64 Panic.alignOverflow
      (entry.memSize + entry.vadr - entry.vadr / pageSize * pageSize) pageSize =
      .ok (alignUp (entry.memSize + entry.vadr - entry.vadr / pageSize * pageSize) pageSize) :=
    checkedAlignUp_eq_ok.mpr ⟨by simp only [alignUp, pageSize]; omega, rfl⟩
  have hoffset : checkedSub Panic.loadOverflow entry.vadr (entry.vadr / pageSize * pageSize) =
      .ok (entry.vadr - entry.vadr / pageSize * pageSize) :=
    checkedSub_eq_ok.mpr ⟨by simp only [pageSize]; omega, rfl⟩
  -- with these results the two programs are the same, up to the second sum
  unfold loadContent fillRegion
  dsimp only
  rw [hstart, hadd, liftM_ok, mk_pure_bind, hsub, liftM_ok, mk_pure_bind, halign, liftM_ok,
    mk_pure_bind]
  refine bind_congr fun x => ?_
  rcases x with ⟨_ | frames, map'⟩
  · rfl
  · dsimp only
    rw [hoffset, liftM_ok, mk_pure_bind]
    rfl

theorem loadStack_eq (core : ℕ) (map : MemoryMap) (vm : Vm) :
    loadStack core map vm = fillRegion core stackRegion map vm := by
  have hpage : Page.containing (newTruncate stackRegion.vadr) = USERSTACK_TOP :=
    Page.ext (Region.page_eq stackRegion_wf.user)
  have hfits : ¬ stackRegion.memSize < stackRegion.bytes.length :=
    Nat.not_lt.mpr stackRegion_wf.fits
  simp only [loadStack, fillRegion, hpage, if_neg hfits]
  rfl

/-- The two outcomes for a region. -/
theorem fillRegion_cases {core : ℕ} {r : Region} {res : Loaded}
    (hret : Returns M (fillRegion core r map vm) F res F') :
    (∃ map', res = (.error .allocationError, map', vm) ∧
        Returns M (map.allocate (.containing (newTruncate r.vadr)) r.count r.flags) F
        (none, map') F') ∨
      ∃ map' vm', res = (.ok (), map', vm') ∧ r.bytes.length ≤ r.memSize ∧
        ∃ frames F₁ ptr vm₁ vm₂,
          Returns M (map.allocate (.containing (newTruncate r.vadr)) r.count r.flags) F
            (some frames, map') F₁ ∧
          Returns M (tmpLocalReserve core r.offset frames vm) F₁ (ptr, vm₁) F' ∧
          storeBytes (List.replicate r.memSize 0) ptr vm₁ = .ok vm₂ ∧
          storeBytes r.bytes ptr vm₂ = .ok vm' := by
  rw [fillRegion, returns_bind] at hret
  obtain ⟨⟨frames, map'⟩, F₁, halloc, hret⟩ := hret
  cases frames with
  | none =>
    obtain ⟨rfl, rfl⟩ := returns_pure.mp hret
    exact .inl ⟨map', rfl, halloc⟩
  | some frames =>
    simp only [returns_bind, returns_lift, Prod.exists] at hret
    obtain ⟨ptr, vm₁, F₂, hwindow, vm₂, _, ⟨hzero, rfl⟩, hret⟩ := hret
    split_ifs at hret with hfits
    -- more bytes than room: `copy_from_slice` panics
    · exact absurd hret returns_fail
    · simp only [returns_bind, returns_lift, returns_pure] at hret
      obtain ⟨vm₃, _, ⟨hcopy, rfl⟩, rfl, rfl⟩ := hret
      exact .inr ⟨map', vm₃, rfl, Nat.not_lt.mp hfits, frames, F₁, ptr, vm₁, vm₂, halloc,
        hwindow, hzero, hcopy⟩

/-- What has happened to a region that was loaded: it has new mappings, and the frames behind them
have its contents. -/
structure Filled (vm vm' : Vm) (F F' : Set PhysFrame) (r : Region) (map map' : MemoryMap)
    (added : List MemoryMapping) : Prop where
  free : F' ⊆ F
  taken : ∀ m ∈ added, m.padr ∈ F
  mappings : map'.mappings = map.mappings ++ added
  count : added.length = r.count
  pages : ∀ k m, added[k]? = some m → m.vadr.num = r.first + k
  content : ∀ k m, added[k]? = some m → ∀ o < pageSize,
    frameByte vm' m.padr o = r.fill ((r.first + k) * pageSize + o) (frameByte vm m.padr o)
  others : ∀ f ∉ added.map MemoryMapping.padr, f ∉ vm'.tables → vm'.mem f = vm.mem f

/-- Two stores, of zeros and then of the given bytes, fill the region. -/
theorem fill_eq {r : Region} (hfits : r.bytes.length ≤ r.memSize) {k o : ℕ} {old : BitVec 8} :
    (if r.offset ≤ k * pageSize + o ∧ k * pageSize + o < r.offset + r.bytes.length then
        r.bytes.getD (k * pageSize + o - r.offset) 0
      else if r.offset ≤ k * pageSize + o ∧
          k * pageSize + o < r.offset + (List.replicate r.memSize (0 : BitVec 8)).length then
        (List.replicate r.memSize (0 : BitVec 8)).getD (k * pageSize + o - r.offset) 0
      else old) = r.fill ((r.first + k) * pageSize + o) old := by
  have hvadr := r.vadr_eq
  have hindex : (r.first + k) * pageSize + o - r.vadr = k * pageSize + o - r.offset := by
    rw [Nat.add_mul]
    omega
  have hholds : r.Holds ((r.first + k) * pageSize + o) ↔
      r.offset ≤ k * pageSize + o ∧ k * pageSize + o < r.offset + r.memSize := by
    rw [Region.Holds, Nat.add_mul]
    omega
  simp only [Region.fill, hholds, hindex, List.length_replicate]
  -- inside the region: the given bytes, and zeros behind them
  by_cases hin : r.offset ≤ k * pageSize + o ∧ k * pageSize + o < r.offset + r.memSize
  · rw [if_pos hin, if_pos hin]
    split_ifs with hgiven
    · rfl
    · -- past the given bytes
      have hzero : (List.replicate r.memSize (0 : BitVec 8)).getD (k * pageSize + o - r.offset) 0
          = 0 := by
        rw [List.getD_eq_getElem?_getD, List.getElem?_replicate, if_pos (by omega)]
        rfl
      have hpast : r.bytes.getD (k * pageSize + o - r.offset) 0 = 0 := by
        rw [List.getD_eq_getElem?_getD, List.getElem?_eq_none (by omega)]
        rfl
      rw [hzero, hpast]
  · rw [if_neg hin, if_neg hin, if_neg (by omega)]

/-- The two stores into the window of a region change the frames of the region only, and leave its
contents there. -/
theorem fill_stores {r : Region} {page : Page} {frames : List PhysFrame} {vm₁ vm₂ : Vm}
    (hbacks : Backs vm₁ page 0 frames) (hframes : Disjoint {f | f ∈ frames} vm₁.tables)
    (hlen : frames.length = r.count) (hfits : r.bytes.length ≤ r.memSize)
    (hzero : storeBytes (List.replicate r.memSize 0) (page.startAddress + r.offset) vm₁ = .ok vm₂)
    (hcopy : storeBytes r.bytes (page.startAddress + r.offset) vm₂ = .ok vm') :
    DataOnly vm₁ vm' {f | f ∈ frames} ∧
      (frames.Nodup → ∀ k f, frames[k]? = some f → ∀ o < pageSize,
        frameByte vm' f o = r.fill ((r.first + k) * pageSize + o) (frameByte vm₁ f o)) := by
  have hroom := r.offset_add_le
  have hzeros : r.offset + (List.replicate r.memSize (0 : BitVec 8)).length ≤
      frames.length * pageSize := by rwa [List.length_replicate, hlen]
  have hbytes : r.offset + r.bytes.length ≤ frames.length * pageSize := by
    rw [hlen]
    omega
  have hdata₂ := dataOnly_storeBytes hbacks hframes hzeros hzero
  -- the window is still there for the second store
  have hbacks₂ := hbacks.of_dataOnly hdata₂ hframes
  have hframes₂ : Disjoint {f | f ∈ frames} vm₂.tables := by rwa [hdata₂.tables_eq hframes]
  have hdata₃ := dataOnly_storeBytes hbacks₂ hframes₂ hbytes hcopy
  refine ⟨hdata₂.trans hdata₃, fun hnodup k f hf o ho => ?_⟩
  rw [storeBytes_content hbacks₂ hframes₂ hnodup hbytes hcopy hf ho,
    storeBytes_content hbacks hframes hnodup hzeros hzero hf ho]
  exact fill_eq hfits

/-- Every page of a region gets a frame, or the load fails. -/
theorem Region.allocate_spec {r : Region} {res : Option (List PhysFrame)}
    (h : Loading vm₀ vm F₀ F map) (hfresh : Disjoint F₀ vm₀.tables)
    (huser : r.vadr + r.memSize < USERSPACE_TOP) (hsmall : r.flags.contains .HUGE_PAGE = false)
    (hret : Returns M (map.allocate (.containing (newTruncate r.vadr)) r.count r.flags) F
      (res, map') F') :
    (∃ frames, res = some frames ∧ frames.length = r.count ∧ Loading vm₀ vm F₀ F' map' ∧ F' ⊆ F ∧
        (∀ f ∈ frames, f ∈ F) ∧ ∃ added, map'.mappings = map.mappings ++ added ∧
          Places (.containing (newTruncate r.vadr)) 0 frames added) ∨
      (res = none ∧ Failing vm₀ vm F₀ F' map') := by
  have hpages := Region.pages_le huser
  rw [← Region.page_eq huser] at hpages
  exact allocateFrom_spec h hfresh (by simp) hpages hsmall hret

/-- How a region is loaded: it gets frames, the window of the core shows them, and two stores fill
them. -/
structure Filling (vm₀ : Vm) (F₀ : Set PhysFrame) (core : ℕ) (r : Region)
    (map map' : MemoryMap) (vm vm₁ vm' : Vm) (F F₁ F' : Set PhysFrame) (frames : List PhysFrame)
    (added : List MemoryMapping) (start : Page) : Prop where
  length : frames.length = r.count
  loading : Loading vm₀ vm F₀ F₁ map'
  free : F₁ ⊆ F
  taken : ∀ f ∈ frames, f ∈ F
  mappings : map'.mappings = map.mappings ++ added
  places : Places (.containing (newTruncate r.vadr)) 0 frames added
  starts : tmpStartPage core = .ok start
  window : Evolves vm vm₁ F₁ F' (visited start 0 frames.length)
  shown : Loading vm₀ vm₁ F₀ F' map'
  keeps : KeepsData vm vm₁
  backs : Backs vm₁ start 0 frames
  apart : Disjoint {f | f ∈ frames} vm₁.tables
  stores : DataOnly vm₁ vm' {f | f ∈ frames}
  content : frames.Nodup → ∀ k f, frames[k]? = some f → ∀ o < pageSize,
    frameByte vm' f o = r.fill ((r.first + k) * pageSize + o) (frameByte vm₁ f o)

/-- The two outcomes for a region, with all that is known of the steps. -/
theorem fillRegion_filling {core : ℕ} {r : Region} {res : Loaded} (h : Loading vm₀ vm F₀ F map)
    (hfresh : Disjoint F₀ vm₀.tables) (huser : r.vadr + r.memSize < USERSPACE_TOP)
    (hsmall : r.flags.contains .HUGE_PAGE = false)
    (hret : Returns M (fillRegion core r map vm) F res F') :
    (∃ map', res = (.error .allocationError, map', vm) ∧ Failing vm₀ vm F₀ F' map' ∧
        Returns M (map.allocate (.containing (newTruncate r.vadr)) r.count r.flags) F
        (none, map') F') ∨
      ∃ map' vm₁ vm' F₁ frames added start, res = (.ok (), map', vm') ∧
        Returns M (map.allocate (.containing (newTruncate r.vadr)) r.count r.flags) F
          (some frames, map') F₁ ∧
        Returns M (tmpLocalReserve core r.offset frames vm) F₁
          (start.startAddress + r.offset, vm₁) F' ∧
        Filling vm₀ F₀ core r map map' vm vm₁ vm' F F₁ F' frames added start := by
  obtain ⟨map', rfl, halloc⟩ |
    ⟨map', vm', rfl, hfits, frames, F₁, ptr, vm₁, vm₂, halloc, hreserve, hzero, hcopy⟩ :=
    fillRegion_cases hret
  · rcases Region.allocate_spec h hfresh huser hsmall halloc with ⟨new, hnew, -⟩ | ⟨-, hfail⟩
    · cases hnew
    · exact .inl ⟨map', rfl, hfail, halloc⟩
  · rcases Region.allocate_spec h hfresh huser hsmall halloc with
      ⟨_, ⟨rfl⟩, hlen, hload, hsub, htaken, added, hadded, hplaces⟩ | ⟨hnone, -⟩
    -- the frames are taken, then they are mapped into the window, then they are written
    · have hinv := hload.evolves.inv
      have hfresh₁ := hload.evolves.fresh hfresh
      obtain ⟨hkernel, -⟩ := tmpLocalReserve_spec hinv hfresh₁ hreserve
      obtain ⟨start, hstart, hev, hkeeps, hbacks, rfl⟩ := tmpLocalReserve_maps hinv hfresh₁ hreserve
      have hload₁ := hload.step hkernel
      have hframes := disjoint_tables_of_taken hload₁ (hplaces.mem_frames hadded)
      obtain ⟨hdata, hcontent⟩ := fill_stores hbacks hframes hlen hfits hzero hcopy
      exact .inr ⟨map', vm₁, vm', F₁, frames, added, start, rfl, halloc, hreserve, hlen,
        hload, hsub, htaken, hadded, hplaces, hstart, hev, hload₁, hkeeps, hbacks, hframes, hdata,
        hcontent⟩
    · cases hnone

section Filling

variable {core : ℕ} {r : Region} {vm₁ : Vm} {F₁ : Set PhysFrame} {frames : List PhysFrame}
  {added : List MemoryMapping} {start : Page}

/-- The stores change data only. -/
theorem Filling.evolves (h : Filling vm₀ F₀ core r map map' vm vm₁ vm' F F₁ F' frames added start) :
    Evolves vm₁ vm' F' F' ∅ :=
  h.stores.evolves h.apart h.shown.evolves.inv

/-- What is left of these steps once the region is loaded: its mappings, and the bytes behind them.
-/
theorem Filling.filled (h : Filling vm₀ F₀ core r map map' vm vm₁ vm' F F₁ F' frames added start)
    (huser : r.vadr + r.memSize < USERSPACE_TOP) : Filled vm vm' F F' r map map' added where
  free := h.window.free.trans h.free
  taken m hm := h.taken _ (h.places.frames ▸ List.mem_map_of_mem hm)
  mappings := h.mappings
  count := by rw [← h.length, ← h.places.frames, List.length_map]
  pages k m hm := by
    rw [Page.add_eq_ok.mp (h.places.pages k m hm), Region.page_eq huser, Nat.zero_add]
  content k m hm o ho := by
    have hf : frames[k]? = some m.padr := by
      rw [← h.places.frames, List.getElem?_map, hm]
      rfl
    have hnodup : frames.Nodup := by
      have := h.loading.nodup
      rw [MemoryMap.frames, h.mappings, List.map_append, h.places.frames] at this
      exact this.of_append_right
    -- mapping the window has left the data of the frame alone
    have hkept : frameByte vm₁ m.padr o = frameByte vm m.padr o := by
      rw [frameByte, h.keeps _ (Set.disjoint_left.mp h.apart (List.mem_of_getElem? hf)), frameByte]
    rw [h.content hnodup k _ hf o ho, hkept]
  others f hf htables := by
    rw [h.stores.tables_eq h.apart] at htables
    rw [h.stores.mem f fun hmem => hf (h.places.frames ▸ hmem), h.keeps f htables]

end Filling

theorem fillRegion_spec {core : ℕ} {r : Region} {res : Loaded} (h : Loading vm₀ vm F₀ F map)
    (hfresh : Disjoint F₀ vm₀.tables) (huser : r.vadr + r.memSize < USERSPACE_TOP)
    (hsmall : r.flags.contains .HUGE_PAGE = false)
    (hret : Returns M (fillRegion core r map vm) F res F') :
    Leaves vm₀ F₀ res F' ∧
      (res.1 = .ok () → ∃ added, Filled vm res.2.2 F F' r map res.2.1 added) := by
  obtain ⟨map', rfl, hfail, -⟩ | ⟨map', vm₁, vm', F₁, frames, added, start, rfl, -, -, hfilling⟩ :=
    fillRegion_filling h hfresh huser hsmall hret
  · exact ⟨⟨by simp, hfail⟩, by simp⟩
  · exact ⟨hfilling.shown.step (hfilling.evolves.mono (Set.empty_subset _)),
      fun _ => ⟨added, hfilling.filled huser⟩⟩

/-! ## Checks -/

end Steps

end HeliumOS.Proc

namespace HeliumOS.Elf

open HeliumOS.Lib HeliumOS.Mem HeliumOS.Proc

/-- The checks of `exec` on a `Load` header, in their order: the early return that they cause, if
any. -/
def ElfFile.refusal (elf : ElfFile) (entry : ProgramHeader) : Except Panic (Option ExecResult) := do
  if pageSize < entry.align then .ok (some (.largeAlignment entry.align))
  else do
    let stop ← checkedAdd 64 Panic.loadOverflow entry.vadr entry.memSize
    if USERSPACE_TOP ≤ stop then .ok (some (.insecureLoad entry.vadr entry.memSize))
    else if TMP_TASK_SIZE_PER_PROC < entry.memSize then .ok (some (.largeSize entry.memSize))
    else do
      let last ← checkedAdd 64 Panic.sliceOverflow entry.offset entry.fileSize
      if elf.content.size < last then .ok (some (.binaryEnd entry.offset entry.fileSize))
      else .ok none

/-- The header passes every check. -/
structure ElfFile.Accepts (elf : ElfFile) (entry : ProgramHeader) : Prop where
  align : entry.align ≤ pageSize
  user : entry.vadr + entry.memSize < USERSPACE_TOP
  window : entry.memSize ≤ TMP_TASK_SIZE_PER_PROC
  word : entry.offset + entry.fileSize < 2 ^ 64
  present : entry.offset + entry.fileSize ≤ elf.content.size

/-- No check refuses the header exactly when all of them pass. The sums in between do not overflow
then. -/
theorem ElfFile.refusal_eq_none {elf : ElfFile} {entry : ProgramHeader} :
    elf.refusal entry = .ok none ↔ elf.Accepts entry := by
  constructor
  · intro h
    -- one check after the other, in the order of the source
    unfold refusal at h
    by_cases halign : pageSize < entry.align
    · simp [if_pos halign] at h
    simp only [if_neg halign, except_bind_eq_ok, checkedAdd_eq_ok] at h
    obtain ⟨_, ⟨-, rfl⟩, h⟩ := h
    by_cases huser : USERSPACE_TOP ≤ entry.vadr + entry.memSize
    · simp [if_pos huser] at h
    by_cases hwindow : TMP_TASK_SIZE_PER_PROC < entry.memSize
    · simp [if_neg huser, if_pos hwindow] at h
    simp only [if_neg huser, if_neg hwindow, except_bind_eq_ok, checkedAdd_eq_ok] at h
    obtain ⟨_, ⟨hword, rfl⟩, h⟩ := h
    by_cases hpresent : elf.content.size < entry.offset + entry.fileSize
    · simp [if_pos hpresent] at h
    · exact ⟨Nat.not_lt.mp halign, Nat.not_le.mp huser, Nat.not_lt.mp hwindow, hword,
        Nat.not_lt.mp hpresent⟩
  · intro h
    have huser := h.user
    simp only [USERSPACE_TOP] at huser
    rw [refusal, if_neg (Nat.not_lt.mpr h.align), checkedAdd_eq_ok.mpr ⟨by omega, rfl⟩,
      except_ok_bind, if_neg (Nat.not_le.mpr h.user), if_neg (Nat.not_lt.mpr h.window),
      checkedAdd_eq_ok.mpr ⟨h.word, rfl⟩, except_ok_bind, if_neg (Nat.not_lt.mpr h.present)]

theorem ElfFile.refusal_ne_success {elf : ElfFile} {entry : ProgramHeader} {e : ExecResult}
    (h : elf.refusal entry = .ok (some e)) (id : ℕ) : e ≠ .success id := by
  rintro rfl
  unfold refusal at h
  split at h
  · simp at h
  simp only [except_bind_eq_ok] at h
  obtain ⟨_, -, h⟩ := h
  split at h
  · simp at h
  split at h
  · simp at h
  simp only [except_bind_eq_ok] at h
  obtain ⟨_, -, h⟩ := h
  split at h <;> simp at h

end HeliumOS.Elf

namespace HeliumOS.Proc

open HeliumOS.Lib HeliumOS.Lib.AllocProg HeliumOS.Mem HeliumOS.Mem.Virt HeliumOS.Elf

section Steps

variable {vm₀ vm vm' : Vm} {F₀ F F' M : Set PhysFrame} {map map' : MemoryMap}

/-- A header is checked, and what passes is loaded as a region. -/
theorem loadSegment_eq (core : ℕ) (elf : ElfFile) (entry : ProgramHeader) (map : MemoryMap)
    (vm : Vm) :
    loadSegment core elf entry map vm = (do
      match ← elf.refusal entry with
      | some e => return (.error e, map, vm)
      | none => fillRegion core (elf.segment entry) map vm) := by
  unfold loadSegment ElfFile.refusal
  -- the two programs take the same branches in the same order
  by_cases halign : pageSize < entry.align
  · simp only [if_pos halign, liftM_ok, mk_pure_bind]
  · simp only [if_neg halign]
    cases hstop : checkedAdd 64 Panic.loadOverflow entry.vadr entry.memSize with
    | error e => simp only [liftM_error, fail_bind, except_error_bind]
    | ok stop =>
      obtain ⟨-, rfl⟩ := checkedAdd_eq_ok.mp hstop
      simp only [liftM_ok, mk_pure_bind, except_ok_bind]
      by_cases htop : USERSPACE_TOP ≤ entry.vadr + entry.memSize
      · simp only [if_pos htop, liftM_ok, mk_pure_bind]
      by_cases hsize : TMP_TASK_SIZE_PER_PROC < entry.memSize
      · simp only [if_neg htop, if_pos hsize, liftM_ok, mk_pure_bind]
      simp only [if_neg htop, if_neg hsize, ElfFile.slice]
      cases hlast : checkedAdd 64 Panic.sliceOverflow entry.offset entry.fileSize with
      | error e => simp only [liftM_error, fail_bind, except_error_bind]
      | ok last =>
        simp only [except_ok_bind]
        split_ifs with hend
        · simp only [liftM_ok, mk_pure_bind]
        · simp only [liftM_ok, mk_pure_bind]
          exact loadContent_eq (Nat.not_le.mp htop) map vm

/-- A header is refused with an error, or its region is loaded. -/
theorem loadSegment_cases {core : ℕ} {elf : ElfFile} {entry : ProgramHeader} {res : Loaded}
    (hret : Returns M (loadSegment core elf entry map vm) F res F') :
    (∃ e, elf.refusal entry = .ok (some e) ∧ res = (.error e, map, vm) ∧ F' = F) ∨
      elf.Accepts entry ∧ Returns M (fillRegion core (elf.segment entry) map vm) F res F' := by
  rw [loadSegment_eq, returns_bind] at hret
  obtain ⟨refusal, _, hlift, hret⟩ := hret
  obtain ⟨hrefusal, rfl⟩ := returns_lift.mp hlift
  cases refusal with
  | some e =>
    obtain ⟨rfl, rfl⟩ := returns_pure.mp hret
    exact .inl ⟨e, hrefusal, rfl, rfl⟩
  | none => exact .inr ⟨ElfFile.refusal_eq_none.mp hrefusal, hret⟩

/-! ## The whole load -/

/-- A property of what the loader leaves behind that a refusal and the load of a region keep. -/
structure LoadInvariant (M : Set PhysFrame) (core : ℕ) (I : Loaded → Set PhysFrame → Prop) :
    Prop where
  refuse : ∀ {e map vm F}, (∀ id, e ≠ .success id) → I (.ok (), map, vm) F → I (.error e, map, vm) F
  fill : ∀ {r : Region} {map vm F res F'}, r.vadr + r.memSize < USERSPACE_TOP →
    r.memSize ≤ TMP_TASK_SIZE_PER_PROC → r.flags.contains .HUGE_PAGE = false →
    I (.ok (), map, vm) F → Returns M (fillRegion core r map vm) F res F' → I res F'

namespace LoadInvariant

variable {core : ℕ} {elf : ElfFile} {I : Loaded → Set PhysFrame → Prop} {res : Loaded}

theorem loadSegment {entry : ProgramHeader} (hI : LoadInvariant M core I)
    (h : I (.ok (), map, vm) F) (hret : Returns M (loadSegment core elf entry map vm) F res F') :
    I res F' := by
  obtain ⟨e, hrefusal, rfl, rfl⟩ | ⟨haccepts, hret⟩ := loadSegment_cases hret
  · exact hI.refuse (ElfFile.refusal_ne_success hrefusal) h
  · exact hI.fill (r := elf.segment entry) haccepts.user haccepts.window
      (memoryFlags_small entry) h hret

/-- The loop over the program headers. -/
theorem loadFrom {n index : ℕ} (hI : LoadInvariant M core I) (h : I (.ok (), map, vm) F)
    (hret : Returns M (loadFrom core elf n index map vm) F res F') : I res F' := by
  induction n generalizing index map vm F with
  | zero =>
    obtain ⟨rfl, rfl⟩ := returns_pure.mp hret
    exact h
  | succ n ih =>
    simp only [Proc.loadFrom, returns_bind, returns_lift] at hret
    obtain ⟨entry, _, ⟨-, rfl⟩, hret⟩ := hret
    split_ifs at hret with hload
    · rw [returns_bind] at hret
      obtain ⟨⟨r, map₁, vm₁⟩, F₁, hseg, hret⟩ := hret
      have hseg := hI.loadSegment h hseg
      -- the first error ends the loop
      cases r with
      | error e =>
        obtain ⟨rfl, rfl⟩ := returns_pure.mp hret
        exact hseg
      | ok u => exact ih hseg hret
    · exact ih h hret

/-- The headers, and then the stack. -/
theorem load (hI : LoadInvariant M core I) (h : I (.ok (), .new, vm) F)
    (hret : Returns M (load core elf vm) F res F') : I res F' := by
  simp only [Proc.load, returns_bind] at hret
  obtain ⟨⟨r, map₁, vm₁⟩, F₁, hfrom, hret⟩ := hret
  have hfrom := hI.loadFrom h hfrom
  cases r with
  | error e =>
    obtain ⟨rfl, rfl⟩ := returns_pure.mp hret
    exact hfrom
  | ok u =>
    dsimp only at hret
    rw [loadStack_eq] at hret
    exact hI.fill stackRegion_wf.user (by decide) stackRegion_wf.small hfrom hret

end LoadInvariant

theorem loadInvariant_leaves (core : ℕ) (hfresh : Disjoint F₀ vm₀.tables) :
    LoadInvariant M core (Leaves vm₀ F₀) where
  refuse he h := ⟨he, h.failing⟩
  fill huser _ hsmall h hret := (fillRegion_spec h hfresh huser hsmall hret).1

/-- An early return is never a success. -/
theorem loadInvariant_ne_success (core : ℕ) :
    LoadInvariant M core fun res _ => ∀ e, res.1 = .error e → ∀ id, e ≠ .success id where
  refuse he _ e heq := by
    obtain rfl := Except.error.inj heq
    exact he
  fill _ _ _ _ hret e heq := by
    obtain ⟨map', rfl, -⟩ | ⟨map', vm', rfl, -⟩ := fillRegion_cases hret
    · obtain rfl := Except.error.inj heq
      simp
    · cases heq

/-- The pages of the stack. -/
theorem loadStack_spec {core : ℕ} {res : Loaded} (h : Loading vm₀ vm F₀ F map)
    (hfresh : Disjoint F₀ vm₀.tables) (hret : Returns M (loadStack core map vm) F res F') :
    Leaves vm₀ F₀ res F' ∧ (res.1 = .ok () →
      ∀ q : Page, USERSTACK_TOP.num ≤ q.num → q.num < USERSTACK_TOP.num + 128 →
        ∃ m ∈ res.2.1.mappings, m.vadr = q) := by
  rw [loadStack_eq] at hret
  have hwf := stackRegion_wf
  obtain ⟨hleaves, hfilled⟩ := fillRegion_spec h hfresh hwf.user hwf.small hret
  refine ⟨hleaves, fun hok q hlo hhi => ?_⟩
  obtain ⟨added, hfilled⟩ := hfilled hok
  -- the mapping of the page, by its index
  have hk : q.num - USERSTACK_TOP.num < added.length := by
    rw [hfilled.count, show stackRegion.count = 128 by decide]
    omega
  have hcell := List.getElem?_eq_getElem hk
  refine ⟨added[q.num - USERSTACK_TOP.num], ?_, Page.ext ?_⟩
  · rw [hfilled.mappings]
    exact List.mem_append_right _ (List.getElem_mem hk)
  · rw [hfilled.pages _ _ hcell, show stackRegion.first = USERSTACK_TOP.num by decide]
    omega

/-- The whole loader. -/
theorem load_spec {core : ℕ} {elf : ElfFile} {res : Loaded} (hinv : vm.Inv)
    (hfresh : Disjoint F vm.tables) (hret : Returns M (load core elf vm) F res F') :
    Leaves vm F res F' ∧ (res.1 = .ok () →
      ∀ q : Page, USERSTACK_TOP.num ≤ q.num → q.num < USERSTACK_TOP.num + 128 →
        ∃ m ∈ res.2.1.mappings, m.vadr = q) := by
  simp only [load, returns_bind] at hret
  obtain ⟨⟨r, map₁, vm₁⟩, F₁, hfrom, hret⟩ := hret
  have hleaves := (loadInvariant_leaves core hfresh).loadFrom (Loading.new hinv F) hfrom
  cases r with
  | error e =>
    obtain ⟨rfl, rfl⟩ := returns_pure.mp hret
    exact ⟨hleaves, by simp⟩
  | ok u => exact loadStack_spec hleaves hfresh hret

end Steps

/-! ## A load as a run over the regions of the file -/

/-- The state of a load: the map, virtual memory and the free frames. -/
abbrev LoadState := MemoryMap × Vm × Set PhysFrame

/-- A region is loaded. -/
def Fills (M : Set PhysFrame) (core : ℕ) (s : LoadState) (r : Region) (s' : LoadState) : Prop :=
  r.Wf ∧ Returns M (fillRegion core r s.1 s.2.1) s.2.2 (.ok (), s'.1, s'.2.1) s'.2.2

section Run

variable {vm vm' : Vm} {F F' M : Set PhysFrame} {map map' : MemoryMap} {core : ℕ} {elf : ElfFile}

theorem fills_of_returns {r : Region} (huser : r.vadr + r.memSize < USERSPACE_TOP)
    (hsmall : r.flags.contains .HUGE_PAGE = false)
    (hret : Returns M (fillRegion core r map vm) F (.ok (), map', vm') F') :
    Fills M core (map, vm, F) r (map', vm', F') := by
  refine ⟨⟨huser, ?_, hsmall⟩, hret⟩
  obtain ⟨map₁, herror, -⟩ | ⟨map₁, vm₁, -, hfits, -⟩ := fillRegion_cases hret
  · cases herror
  · exact hfits

theorem Fills.loading {vm₀ : Vm} {F₀ : Set PhysFrame} {r : Region}
    (hfills : Fills M core (map, vm, F) r (map', vm', F')) (h : Loading vm₀ vm F₀ F map)
    (hfresh : Disjoint F₀ vm₀.tables) :
    Loading vm₀ vm' F₀ F' map' ∧ ∃ added, Filled vm vm' F F' r map map' added := by
  obtain ⟨hwf, hret⟩ := hfills
  obtain ⟨hleaves, hfilled⟩ := fillRegion_spec h hfresh hwf.user hwf.small hret
  exact ⟨hleaves, hfilled rfl⟩

/-- The loop over the headers, as a run over those of type `Load`; all others are skipped. -/
theorem loadFrom_fills {n index : ℕ}
    (hret : Returns M (loadFrom core elf n index map vm) F (.ok (), map', vm') F') :
    (∀ entry ∈ (elf.headersFrom n index).filter ProgramHeader.isLoad, elf.Accepts entry) ∧
      Run (Fills M core) (map, vm, F)
        (((elf.headersFrom n index).filter ProgramHeader.isLoad).map elf.segment)
        (map', vm', F') := by
  -- induction on the headers that are left
  induction n generalizing index map vm F with
  | zero =>
    obtain ⟨hpair, rfl⟩ := returns_pure.mp hret
    cases hpair
    exact ⟨by simp [ElfFile.headersFrom], .nil _⟩
  | succ n ih =>
    simp only [loadFrom, ElfFile.progHeader, returns_bind, returns_lift, except_bind_eq_ok] at hret
    obtain ⟨entry, _, ⟨⟨_, -, _, -, hentry⟩, rfl⟩, hret⟩ := hret
    rw [ElfFile.headersFrom, List.range'_succ, List.map_cons, Except.ok.inj hentry]
    split_ifs at hret with hload
    · rw [returns_bind] at hret
      obtain ⟨⟨r, map₁, vm₁⟩, F₁, hseg, hret⟩ := hret
      cases r with
      | error e =>
        obtain ⟨hpair, -⟩ := returns_pure.mp hret
        cases hpair
      | ok u =>
        obtain ⟨e, -, herror, -⟩ | ⟨haccepts, hfill⟩ := loadSegment_cases hseg
        · cases herror
        · have hfirst :=
            fills_of_returns (r := elf.segment entry) haccepts.user (memoryFlags_small entry) hfill
          obtain ⟨hrest, hrun⟩ := ih hret
          rw [List.filter_cons_of_pos hload, List.map_cons]
          exact ⟨List.forall_mem_cons.mpr ⟨haccepts, hrest⟩, (Run.single hfirst).append hrun⟩
    -- a header of another type
    · rw [List.filter_cons_of_neg hload]
      exact ih hret

/-- A load that succeeds has accepted every `Load` header, and has loaded the regions of the file,
one after the other. -/
theorem load_fills (hret : Returns M (load core elf vm) F (.ok (), map', vm') F') :
    (∀ entry ∈ elf.loads, elf.Accepts entry) ∧
      Run (Fills M core) (.new, vm, F) elf.regions (map', vm', F') := by
  simp only [load, returns_bind] at hret
  obtain ⟨⟨r, map₁, vm₁⟩, F₁, hfrom, hret⟩ := hret
  cases r with
  | error e =>
    obtain ⟨hpair, -⟩ := returns_pure.mp hret
    cases hpair
  | ok u =>
    dsimp only at hret
    rw [loadStack_eq] at hret
    obtain ⟨haccepts, hrun⟩ := loadFrom_fills hfrom
    exact ⟨haccepts,
      hrun.snoc (fills_of_returns stackRegion_wf.user stackRegion_wf.small hret)⟩

end Run

end HeliumOS.Proc
