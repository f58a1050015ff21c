import HeliumOS.Mem.PhysLive
import HeliumOS.Mem.Virt.MapperProgress

/-!
# Kernel Memory Functions

`pfree_all`, `vmap`, `vmap_many`, `valloc`, `valloc_size` and `valloc_ktable` of `mem/mod.rs`.

- `valloc_evolves`: a call that returns has mapped each of its pages to a frame of its own, taken
  from the free ones, and every other page is translated as before.
- `Workable n vm F`: programs that take up to `n` of the frames `F` can work on `vm`.
- `valloc_safe`: with four free frames for each page a call does not panic, and on a machine that
  is `Able` it returns (`Able.valloc`).
-/

namespace HeliumOS.Mem

open HeliumOS.Lib HeliumOS.Lib.AllocProg HeliumOS.Mem.Virt

/-! ## Definitions -/

/-- `pfree_all`. -/
def pfreeAll : List PhysFrame → Kernel Unit
  | [] => return ()
  | frame :: frames => do
    AllocProg.put frame
    pfreeAll frames

/-- `vmap`. -/
def vmap (vm : Vm) (page : Page) (frame : PhysFrame) (size : ℕ) (flags : PageTableFlags) :
    Kernel (Except KernelMapError Unit × Vm) :=
  KernelMapper.map vm page frame size flags

/-- `vmap(..).expect(..)`, with the panic of the call site. -/
def vmapExpect (panic : Panic) (vm : Vm) (page : Page) (frame : PhysFrame) (size : ℕ)
    (flags : PageTableFlags) : Kernel Vm := do
  match ← vmap vm page frame size flags with
  | (.ok (), vm) => return vm
  | (.error _, _) => .fail panic

/-- The loop of `vmap_many`, from index `i` on. -/
def vmapManyFrom (page : Page) (flags : PageTableFlags) : List PhysFrame → ℕ → Vm → Kernel Vm
  | [], _, vm => return vm
  | frame :: frames, i, vm => do
    let pageI ← page.add i
    let vm ← vmapExpect .mapManyFailed vm pageI frame pageSize flags
    vmapManyFrom page flags frames (i + 1) vm

/-- `vmap_many`. -/
def vmapMany (vm : Vm) (page : Page) (frames : List PhysFrame) (flags : PageTableFlags) :
    Kernel Vm :=
  vmapManyFrom page flags frames 0 vm

/-- The loop of `valloc`, from offset `off` on with `n` pages to go. -/
def vallocFrom (page : Page) (flags : PageTableFlags) : ℕ → ℕ → Vm → Kernel Vm
  | 0, _, vm => return vm
  | n + 1, off, vm => do
    let frame ← AllocProg.get
    let frame ← unwrap Panic.vallocNoFrame frame
    let pageOff ← page.add off
    let vm ← vmapExpect .vallocMap vm pageOff frame pageSize flags
    vallocFrom page flags n (off + 1) vm

/-- `valloc`. -/
def valloc (vm : Vm) (page : Page) (n : ℕ) (flags : PageTableFlags) : Kernel Vm :=
  vallocFrom page flags n 0 vm

/-- `valloc_size`. -/
def vallocSize (vm : Vm) (page : Page) (nbytes : ℕ) (flags : PageTableFlags) : Kernel Vm := do
  let size ← checkedAlignUp 64 Panic.alignOverflow nbytes pageSize
  valloc vm page (size / pageSize) flags

/-- `valloc_ktable`, for a type of the given size. -/
def vallocKtable (vm : Vm) (vadr : Page) (n size : ℕ) : Kernel Vm := do
  let nbytes ← checkedMul 64 Panic.ktableOverflow n size
  vallocSize vm vadr nbytes .WRITABLE

/-- The pages that `valloc_ktable` allocates. -/
def ktablePages (vadr : Page) (n size : ℕ) : Set Page :=
  visited vadr 0 (alignUp (n * size) pageSize / pageSize)

/-! ## Releases -/

theorem returns_pfreeAll {M F F' : Set PhysFrame} {u : Unit} {frames : List PhysFrame} :
    Returns M (pfreeAll frames) F u F' ↔ F' = F ∪ ({f | f ∈ frames} ∩ M) := by
  induction frames generalizing F with
  | nil => simp [pfreeAll]
  | cons frame frames ih =>
    have hset : F ∪ {frame} ∩ M ∪ {f | f ∈ frames} ∩ M = F ∪ {f | f ∈ frame :: frames} ∩ M := by
      ext f
      simp only [Set.mem_union, Set.mem_inter_iff, Set.mem_singleton_iff, Set.mem_ofPred_eq,
        List.mem_cons]
      tauto
    simp only [pfreeAll, returns_bind, returns_put, ih, ← hset]
    constructor
    · rintro ⟨-, F₁, rfl, rfl⟩
      rfl
    · rintro rfl
      exact ⟨(), _, rfl, rfl⟩

/-! ## What the calls do -/

section Correct

variable {vm vm' : Vm} {M F F' : Set PhysFrame} {page : Page} {frame : PhysFrame} {size : ℕ}
  {flags : PageTableFlags} {panic : Panic}

theorem returns_vmapExpect :
    Returns M (vmapExpect panic vm page frame size flags) F vm' F' ↔
      Returns M (vmap vm page frame size flags) F (.ok (), vm') F' := by
  simp only [vmapExpect, returns_bind, Prod.exists]
  constructor
  · rintro ⟨r, vm₁, F₁, hmap, h⟩
    cases r with
    | error e => exact absurd h returns_fail
    | ok u =>
      obtain ⟨rfl, rfl⟩ := returns_pure.mp h
      exact hmap
  · intro h
    exact ⟨.ok (), vm', F', h, returns_pure.mpr ⟨rfl, rfl⟩⟩

theorem mem_visited {q : Page} {i n : ℕ} :
    q ∈ visited page i n ↔ page.num + i ≤ q.num ∧ q.num < page.num + i + n := by
  constructor
  · rintro ⟨k, hik, hk, hq⟩
    rw [Page.add_eq_ok] at hq
    omega
  · intro h
    exact ⟨q.num - page.num, by omega, by omega, Page.add_eq_ok.mpr (by omega)⟩

/-- A mapping of one page visits that page. -/
theorem visited_one : visited page 0 (pageCount pageSize) = {page} := by
  ext q
  rw [Set.mem_singleton_iff, mem_visited, show pageCount pageSize = 1 by decide, Page.ext_iff]
  omega

/-- Mapping a single page. -/
theorem vmapExpect_evolves (hinv : vm.Inv) (hfresh : Disjoint F vm.tables)
    (h : Returns M (vmapExpect panic vm page frame pageSize flags) F vm' F') :
    Evolves vm vm' F F' {page} ∧ ¬ InArea page ∧
      vm'.translate page = some ⟨frame, leafFlags page.num flags⟩ := by
  obtain ⟨hev, hpages⟩ := map_evolves hinv hfresh (returns_vmapExpect.mp h)
  obtain ⟨q, f, hq, hf, hout, htrans⟩ := hpages 0 (by decide)
  obtain rfl : page = q := by simpa using hq
  obtain rfl : frame = f := by simpa using hf
  exact ⟨hev.mono visited_one.subset, hout, htrans⟩

theorem visited_succ {q : Page} {i n : ℕ} (hq : page.add i = .ok q) :
    visited page i (n + 1) = {q} ∪ visited page (i + 1) n := by
  ext p
  rw [Page.add_eq_ok] at hq
  rw [Set.mem_union, Set.mem_singleton_iff, mem_visited, mem_visited, Page.ext_iff]
  omega

theorem notMem_visited_of_add_eq_ok {q : Page} {i j n : ℕ} (hq : page.add i = .ok q)
    (hij : i < j) : q ∉ visited page j n := by
  rw [Page.add_eq_ok] at hq
  rw [mem_visited]
  omega

/-- The pages from `page` on, offset by `i`, show the frames of the list. -/
def Backs (vm : Vm) (page : Page) (i : ℕ) (frames : List PhysFrame) : Prop :=
  ∀ k f, frames[k]? = some f →
    ∃ q flags, page.add (i + k) = .ok q ∧ vm.translate q = some ⟨f, flags⟩

/-- The loop of `vmap_many` maps its pages to the frames of the list, and changes no other page. -/
theorem vmapManyFrom_evolves {frames : List PhysFrame} {i : ℕ} (hinv : vm.Inv)
    (hfresh : Disjoint F vm.tables)
    (h : Returns M (vmapManyFrom page flags frames i vm) F vm' F') :
    Evolves vm vm' F F' (visited page i frames.length) ∧ Backs vm' page i frames := by
  -- induction on the frames; what a turn has mapped, the later turns leave alone
  induction frames generalizing i vm F with
  | nil =>
    obtain ⟨rfl, rfl⟩ := returns_pure.mp h
    exact ⟨.refl hinv _, fun k f hf => by simp at hf⟩
  | cons frame frames ih =>
    simp only [vmapManyFrom, returns_bind, returns_lift] at h
    obtain ⟨q, F₁, ⟨hq, rfl⟩, vm₁, F₂, hmap, hrest⟩ := h
    obtain ⟨hev, hout, htrans⟩ := vmapExpect_evolves hinv hfresh hmap
    obtain ⟨hev', hbacks⟩ := ih hev.inv (hev.fresh hfresh) hrest
    refine ⟨(hev.trans hev').mono (by rw [List.length_cons, visited_succ hq]), fun k f hf => ?_⟩
    cases k with
    | zero =>
      obtain rfl : frame = f := by simpa using hf
      refine ⟨q, leafFlags q.num flags, hq, ?_⟩
      -- later iterations map other pages
      rw [hev'.translate q hout (notMem_visited_of_add_eq_ok hq (Nat.lt_succ_self i)), htrans]
    | succ k =>
      obtain ⟨p, flags', hp, htrans'⟩ := hbacks k f (by simpa using hf)
      rw [show i + 1 + k = i + (k + 1) by omega] at hp
      exact ⟨p, flags', hp, htrans'⟩

/-- What a successful call of `vmap_many` does to virtual memory. -/
theorem vmapMany_evolves {frames : List PhysFrame} (hinv : vm.Inv) (hfresh : Disjoint F vm.tables)
    (h : Returns M (vmapMany vm page frames flags) F vm' F') :
    Evolves vm vm' F F' (visited page 0 frames.length) ∧ Backs vm' page 0 frames :=
  vmapManyFrom_evolves hinv hfresh h

/-- Where the pages of a call of `valloc` lead. -/
def Backed (vm' : Vm) (F F' : Set PhysFrame) (page : Page) (flags : PageTableFlags) (k : ℕ) :
    Prop :=
  ∃ q f, page.add k = .ok q ∧ ¬ InArea q ∧ f ∈ F ∧ f ∉ F' ∧
    vm'.translate q = some ⟨f, leafFlags q.num flags⟩

/-- The loop of `valloc`: one page at a time, each with a frame taken for it. -/
theorem vallocFrom_evolves {n off : ℕ} (hinv : vm.Inv) (hfresh : Disjoint F vm.tables)
    (h : Returns M (vallocFrom page flags n off vm) F vm' F') :
    Evolves vm vm' F F' (visited page off n) ∧
      ∀ k < n, Backed vm' F F' page flags (off + k) := by
  -- induction on the pages to go
  induction n generalizing off vm F with
  | zero =>
    obtain ⟨rfl, rfl⟩ := returns_pure.mp h
    exact ⟨.refl hinv _, fun k hk => absurd hk (Nat.not_lt_zero k)⟩
  | succ n ih =>
    simp only [vallocFrom, returns_bind, returns_get, returns_lift, unwrap_eq_ok] at h
    obtain ⟨_, F₁, hget, frame, F₂, ⟨rfl, rfl⟩, q, F₃, ⟨hq, rfl⟩, vm₁, F₄, hmap, hrest⟩ := h
    obtain ⟨f, hf, hsome, rfl⟩ | ⟨-, hnone, -⟩ := hget
    · obtain rfl := Option.some.inj hsome
      -- the frame is taken before the page is mapped to it
      have htake : Evolves vm vm F (F \ {frame}) ∅ := .take hinv Set.sdiff_subset
      obtain ⟨hev, hout, htrans⟩ := vmapExpect_evolves hinv (htake.fresh hfresh) hmap
      have hev := htake.trans hev
      obtain ⟨hev', hpages⟩ := ih hev.inv (hev.fresh hfresh) hrest
      refine ⟨(hev.trans hev').mono (by simp [visited_succ hq]), fun k hk => ?_⟩
      cases k with
      | zero =>
        refine ⟨q, frame, hq, hout, hf, fun hmem => ?_, ?_⟩
        · exact ((vmapExpect_evolves hinv (htake.fresh hfresh) hmap).1.free (hev'.free hmem)).2 rfl
        · rw [hev'.translate q hout (notMem_visited_of_add_eq_ok hq (Nat.lt_succ_self off)), htrans]
      | succ k =>
        obtain ⟨p, g, hp, hp', hg, hg', htrans'⟩ := hpages k (by omega)
        rw [show off + 1 + k = off + (k + 1) by omega] at hp
        exact ⟨p, g, hp, hp', hev.free hg, hg', htrans'⟩
    · cases hnone

theorem Backed.of_mem_visited {vm' : Vm} {n : ℕ} {q : Page}
    (h : ∀ k < n, Backed vm' F F' page flags k) (hq : q ∈ visited page 0 n) :
    ∃ f, ¬ InArea q ∧ f ∈ F ∧ f ∉ F' ∧ vm'.translate q = some ⟨f, leafFlags q.num flags⟩ := by
  obtain ⟨k, -, hk, hadd⟩ := hq
  obtain ⟨q', f, hq', hrest⟩ := h k (by omega)
  obtain rfl : q = q' := Except.ok.inj (hadd.symm.trans hq')
  exact ⟨f, hrest⟩

/-- What a successful call of `valloc` does to virtual memory: outside the area of the virtual cache
it changes the translation of its own pages only, and each of them is backed by a frame that was
free. -/
theorem valloc_evolves {n : ℕ} (hinv : vm.Inv) (hfresh : Disjoint F vm.tables)
    (h : Returns M (valloc vm page n flags) F vm' F') :
    Evolves vm vm' F F' (visited page 0 n) ∧ ∀ k < n, Backed vm' F F' page flags k := by
  obtain ⟨hev, hpages⟩ := vallocFrom_evolves hinv hfresh h
  exact ⟨hev, fun k hk => by simpa using hpages k hk⟩

/-- The call has mapped the pages of `P` to frames that it took for them, and changed no others. -/
structure Allocates (vm vm' : Vm) (F F' : Set PhysFrame) (flags : PageTableFlags) (P : Set Page) :
    Prop where
  evolves : Evolves vm vm' F F' P
  backed : ∀ q ∈ P, ∃ f, ¬ InArea q ∧ f ∈ F ∧ f ∉ F' ∧
    vm'.translate q = some ⟨f, leafFlags q.num flags⟩

/-- Two calls, one after the other.  A page of both has the frame of the second. -/
theorem Allocates.trans {vm₁ : Vm} {F₁ : Set PhysFrame} {P P' : Set Page}
    (h : Allocates vm vm₁ F F₁ flags P) (h' : Allocates vm₁ vm' F₁ F' flags P') :
    Allocates vm vm' F F' flags (P ∪ P') where
  evolves := h.evolves.trans h'.evolves
  backed q hq := by
    by_cases hsecond : q ∈ P'
    · obtain ⟨f, hout, hf, hf', htrans⟩ := h'.backed q hsecond
      exact ⟨f, hout, h.evolves.free hf, hf', htrans⟩
    · obtain ⟨f, hout, hf, hf', htrans⟩ := h.backed q (hq.resolve_right hsecond)
      rw [← h'.evolves.translate q hout hsecond] at htrans
      exact ⟨f, hout, hf, fun hmem => hf' (h'.evolves.free hmem), htrans⟩

/-- What a successful call of `valloc_ktable` does. -/
theorem vallocKtable_allocates {n size : ℕ} (hinv : vm.Inv) (hfresh : Disjoint F vm.tables)
    (h : Returns M (vallocKtable vm page n size) F vm' F') :
    Allocates vm vm' F F' .WRITABLE (ktablePages page n size) := by
  simp only [vallocKtable, vallocSize, returns_bind, returns_lift, checkedMul_eq_ok,
    checkedAlignUp_eq_ok] at h
  obtain ⟨_, _, ⟨⟨-, rfl⟩, rfl⟩, _, _, ⟨⟨-, rfl⟩, rfl⟩, hvalloc⟩ := h
  obtain ⟨hev, hpages⟩ := valloc_evolves hinv hfresh hvalloc
  exact ⟨hev, fun q hq => Backed.of_mem_visited hpages hq⟩

end Correct

/-! ## Progress -/

section Progress

variable {vm vm' : Vm} {M F F' : Set PhysFrame} {page : Page} {frame : PhysFrame}
  {flags : PageTableFlags} {panic : Panic}

theorem vmapExpect_ready {size : ℕ} (hready : vm.Ready) (hfresh : Disjoint F vm.tables)
    (h : Returns M (vmapExpect panic vm page frame size flags) F vm' F') : vm'.Ready :=
  map_ready hready hfresh (returns_vmapExpect.mp h)

theorem vmapExpect_atMost_size (panic : Panic) (vm : Vm) (page : Page) (frame : PhysFrame)
    (size : ℕ) (flags : PageTableFlags) :
    AtMost (3 * pageCount size) (vmapExpect panic vm page frame size flags) := by
  refine (map_atMost vm page frame size flags).bind (n := 0) fun r => ?_
  split <;> simp

theorem vmapExpect_atMost (panic : Panic) (vm : Vm) (page : Page) (frame : PhysFrame)
    (flags : PageTableFlags) : AtMost 3 (vmapExpect panic vm page frame pageSize flags) :=
  vmapExpect_atMost_size panic vm page frame pageSize flags

/-- With three free frames for each page the call succeeds. -/
theorem vmapExpect_safe_size {size : ℕ} (hready : vm.Ready) (hfresh : Disjoint F vm.tables)
    (hfree : HasFree (3 * pageCount size) F) (hsize : size ≠ 0) (hpage : ¬ InArea page)
    (halign : alignUp size pageSize < 2 ^ 64) (hrange : RangeExists page frame (pageCount size))
    (hflags : flags.contains .HUGE_PAGE = false) :
    Safe M (vmapExpect panic vm page frame size flags) F := by
  refine safe_bind (map_safe hready hfresh hfree hpage halign hrange hflags) ?_
  rintro ⟨r, vm₁⟩ F₁ hmap
  obtain rfl := map_ok hready hsize hpage hmap
  exact safe_pure _

theorem rangeExists_one (page : Page) (frame : PhysFrame) :
    RangeExists page frame (pageCount pageSize) := by
  have hcount : pageCount pageSize = 1 := by decide
  refine ⟨fun k hk => ⟨page, ?_⟩, fun k hk => ⟨frame, ?_⟩⟩ <;>
  · rw [hcount, Nat.lt_one_iff] at hk
    simp [hk]

theorem vmapExpect_safe (hready : vm.Ready) (hfresh : Disjoint F vm.tables)
    (hfree : HasFree 3 F) (hpage : ¬ InArea page) (hflags : flags.contains .HUGE_PAGE = false) :
    Safe M (vmapExpect panic vm page frame pageSize flags) F :=
  vmapExpect_safe_size hready hfresh hfree (by decide) hpage (by decide)
    (rangeExists_one page frame) hflags

/-- The pages of a range exist and lie outside the area of the virtual cache. -/
def PagesExist (page : Page) (off n : ℕ) : Prop :=
  ∀ k, off ≤ k → k < off + n → ∃ q, page.add k = .ok q ∧ ¬ InArea q

theorem vmapManyFrom_ready {frames : List PhysFrame} {i : ℕ} (hready : vm.Ready)
    (hfresh : Disjoint F vm.tables)
    (h : Returns M (vmapManyFrom page flags frames i vm) F vm' F') : vm'.Ready := by
  induction frames generalizing i vm F with
  | nil =>
    obtain ⟨rfl, rfl⟩ := returns_pure.mp h
    exact hready
  | cons frame frames ih =>
    simp only [vmapManyFrom, returns_bind, returns_lift] at h
    obtain ⟨q, F₁, ⟨hq, rfl⟩, vm₁, F₂, hmap, hrest⟩ := h
    have hev := (vmapExpect_evolves hready.inv hfresh hmap).1
    exact ih (vmapExpect_ready hready hfresh hmap) (hev.fresh hfresh) hrest

theorem vmapMany_ready {frames : List PhysFrame} (hready : vm.Ready) (hfresh : Disjoint F vm.tables)
    (h : Returns M (vmapMany vm page frames flags) F vm' F') : vm'.Ready :=
  vmapManyFrom_ready hready hfresh h

theorem vmapManyFrom_atMost (page : Page) (flags : PageTableFlags) (frames : List PhysFrame) (i : ℕ)
    (vm : Vm) : AtMost (3 * frames.length) (vmapManyFrom page flags frames i vm) := by
  induction frames generalizing i vm with
  | nil => simp [vmapManyFrom]
  | cons frame frames ih =>
    rw [List.length_cons, show 3 * (frames.length + 1) = 3 + 3 * frames.length by omega]
    refine .lift_bind fun q _ => ?_
    exact (vmapExpect_atMost _ _ _ _ _).bind fun vm₁ => ih _ _

theorem vmapMany_atMost (vm : Vm) (page : Page) (frames : List PhysFrame) (flags : PageTableFlags) :
    AtMost (3 * frames.length) (vmapMany vm page frames flags) :=
  vmapManyFrom_atMost page flags frames 0 vm

theorem vmapManyFrom_safe {frames : List PhysFrame} {i : ℕ} (hready : vm.Ready)
    (hfresh : Disjoint F vm.tables) (hfree : HasFree (3 * frames.length) F)
    (hpages : PagesExist page i frames.length) (hflags : flags.contains .HUGE_PAGE = false) :
    Safe M (vmapManyFrom page flags frames i vm) F := by
  induction frames generalizing i vm F with
  | nil => exact safe_pure _
  | cons frame frames ih =>
    rw [List.length_cons] at hpages hfree
    obtain ⟨q, hq, hout⟩ := hpages i le_rfl (by omega)
    -- three frames at most are for the tables of this page
    rw [show 3 * (frames.length + 1) = 3 * frames.length + 3 by omega] at hfree
    refine safe_lift_bind hq ?_
    refine safe_bind (vmapExpect_safe hready hfresh (hfree.mono (by omega)) hout hflags)
      fun vm₁ F₂ hmap => ?_
    have hev := (vmapExpect_evolves hready.inv hfresh hmap).1
    exact ih (vmapExpect_ready hready hfresh hmap) (hev.fresh hfresh)
      (hfree.returns (vmapExpect_atMost _ _ _ _ _) hmap)
      fun k hk hk' => hpages k (by omega) (by omega)

/-- With three free frames for each page `vmap_many` does not panic. -/
theorem vmapMany_safe {frames : List PhysFrame} (hready : vm.Ready) (hfresh : Disjoint F vm.tables)
    (hfree : HasFree (3 * frames.length) F) (hpages : PagesExist page 0 frames.length)
    (hflags : flags.contains .HUGE_PAGE = false) : Safe M (vmapMany vm page frames flags) F :=
  vmapManyFrom_safe hready hfresh hfree hpages hflags

theorem vallocFrom_ready {n off : ℕ} (hready : vm.Ready) (hfresh : Disjoint F vm.tables)
    (h : Returns M (vallocFrom page flags n off vm) F vm' F') : vm'.Ready := by
  induction n generalizing off vm F with
  | zero =>
    obtain ⟨rfl, rfl⟩ := returns_pure.mp h
    exact hready
  | succ n ih =>
    simp only [vallocFrom, returns_bind, returns_get, returns_lift, unwrap_eq_ok] at h
    obtain ⟨_, F₁, hget, frame, F₂, ⟨rfl, rfl⟩, q, F₃, ⟨hq, rfl⟩, vm₁, F₄, hmap, hrest⟩ := h
    obtain ⟨f, hf, hsome, rfl⟩ | ⟨-, hnone, -⟩ := hget
    · have hfresh' : Disjoint (F \ {f}) vm.tables := hfresh.mono_left Set.sdiff_subset
      have hev := (vmapExpect_evolves hready.inv hfresh' hmap).1
      exact ih (vmapExpect_ready hready hfresh' hmap) (hev.fresh hfresh') hrest
    · cases hnone

/-- After a call virtual memory is ready for the next one. -/
theorem valloc_ready {n : ℕ} (hready : vm.Ready) (hfresh : Disjoint F vm.tables)
    (h : Returns M (valloc vm page n flags) F vm' F') : vm'.Ready :=
  vallocFrom_ready hready hfresh h

theorem vallocFrom_atMost (page : Page) (flags : PageTableFlags) (n off : ℕ) (vm : Vm) :
    AtMost (4 * n) (vallocFrom page flags n off vm) := by
  induction n generalizing off vm with
  | zero => simp [vallocFrom]
  | succ n ih =>
    rw [show 4 * (n + 1) = 1 + (3 + 4 * n) by omega]
    refine atMost_get.bind fun r => .lift_bind fun frame _ => .lift_bind fun q _ => ?_
    exact (vmapExpect_atMost _ _ _ _ _).bind fun vm₁ => ih _ _

/-- One frame for each page, and at most three for its tables. -/
theorem valloc_atMost (vm : Vm) (page : Page) (n : ℕ) (flags : PageTableFlags) :
    AtMost (4 * n) (valloc vm page n flags) :=
  vallocFrom_atMost page flags n 0 vm

/-- With four free frames for each page, the loop of `valloc` does not panic. -/
theorem vallocFrom_safe {n off : ℕ} (hready : vm.Ready) (hfresh : Disjoint F vm.tables)
    (hfree : HasFree (4 * n) F) (hpages : PagesExist page off n)
    (hflags : flags.contains .HUGE_PAGE = false) :
    Safe M (vallocFrom page flags n off vm) F := by
  induction n generalizing off vm F with
  | zero => exact safe_pure _
  | succ n ih =>
    obtain ⟨q, hq, hout⟩ := hpages off le_rfl (by omega)
    -- one frame for the page itself, and three at most for its tables
    rw [show 4 * (n + 1) = 4 * n + 3 + 1 by omega] at hfree
    refine safe_bind safe_get fun r F₁ hget => ?_
    rcases returns_get.mp hget with ⟨f, hf, rfl, rfl⟩ | ⟨hempty, -, -⟩
    · refine safe_lift_bind (unwrap_some _ _) (safe_lift_bind hq ?_)
      have hfresh' : Disjoint (F \ {f}) vm.tables := hfresh.mono_left Set.sdiff_subset
      have hfree' := hfree.sdiff f
      refine safe_bind (vmapExpect_safe hready hfresh' (hfree'.mono (by omega)) hout hflags)
        fun vm₁ F₄ hmap => ?_
      have hev := (vmapExpect_evolves hready.inv hfresh' hmap).1
      exact ih (vmapExpect_ready hready hfresh' hmap) (hev.fresh hfresh')
        (hfree'.returns (vmapExpect_atMost _ _ _ _ _) hmap)
        fun k hk hk' => hpages k (by omega) (by omega)
    · exact absurd hempty hfree.nonempty

/-- With four free frames for each page the call does not panic: one for the page, and three for the
tables on the way to it. -/
theorem valloc_safe {n : ℕ} (hready : vm.Ready) (hfresh : Disjoint F vm.tables)
    (hfree : HasFree (4 * n) F) (hpages : PagesExist page 0 n)
    (hflags : flags.contains .HUGE_PAGE = false) : Safe M (valloc vm page n flags) F :=
  vallocFrom_safe hready hfresh hfree hpages hflags

/-- Virtual memory and the allocator are ready for programs that take at most `n` frames. -/
structure Able (vm : Vm) (pmm : PhysicalFrameAllocator) (n : ℕ) : Prop where
  sound : pmm.Sound
  inSpace : InSpace pmm.segments
  ready : vm.Ready
  fresh : Disjoint pmm.free vm.tables
  free : HasFree n pmm.free

theorem Able.mono {pmm : PhysicalFrameAllocator} {m n : ℕ} (h : Able vm pmm n) (hmn : m ≤ n) :
    Able vm pmm m :=
  { h with free := h.free.mono hmn }

/-- A program that cannot fail returns with its postcondition. -/
theorem Able.run {pmm : PhysicalFrameAllocator} {n : ℕ} {α : Type} {x : Kernel α}
    {Q : α → Set PhysFrame → Prop} (h : Able vm pmm n) (hx : Ensures pmm.managed x pmm.free Q) :
    ∃ a pmm', x.run PhysicalFrameAllocator.pool pmm = .ok (a, pmm') ∧ pmm'.Sound ∧
      InSpace pmm'.segments ∧ Q a pmm'.free :=
  Ensures.run PhysicalFrameAllocator.live h.sound h.inSpace hx

/-- On an able machine `valloc` returns, and what it does not need is left over. -/
theorem Able.valloc {pmm : PhysicalFrameAllocator} {m n : ℕ} (h : Able vm pmm (m + 4 * n))
    (hpages : PagesExist page 0 n) (hflags : flags.contains .HUGE_PAGE = false) :
    ∃ vm' pmm', (valloc vm page n flags).run PhysicalFrameAllocator.pool pmm = .ok (vm', pmm') ∧
      Able vm' pmm' m := by
  have hsafe := valloc_safe (M := PhysicalFrameAllocator.freeSet.managed pmm) h.ready h.fresh
    (h.free.mono (Nat.le_add_left _ _)) hpages hflags
  obtain ⟨vm', pmm', hrun, hspace⟩ := run_safe PhysicalFrameAllocator.live h.sound h.inSpace hsafe
  obtain ⟨hret, hsound, -⟩ := run_returns PhysicalFrameAllocator.freeSet h.sound hrun
  have hev := (valloc_evolves h.ready.inv h.fresh hret).1
  exact ⟨vm', pmm', hrun, hsound, hspace, valloc_ready h.ready h.fresh hret, hev.fresh h.fresh,
    h.free.returns (valloc_atMost vm page n flags) hret⟩

/-- Virtual memory is ready, and `n` frames are free. -/
structure Workable (n : ℕ) (vm : Vm) (F : Set PhysFrame) : Prop where
  ready : vm.Ready
  fresh : Disjoint F vm.tables
  free : HasFree n F

theorem Workable.mono {m n : ℕ} (h : Workable n vm F) (hmn : m ≤ n) : Workable m vm F :=
  { h with free := h.free.mono hmn }

theorem Workable.of_able {pmm : PhysicalFrameAllocator} {n : ℕ} (h : Able vm pmm n) :
    Workable n vm pmm.free :=
  ⟨h.ready, h.fresh, h.free⟩

theorem Workable.able {pmm : PhysicalFrameAllocator} {n : ℕ} (h : Workable n vm pmm.free)
    (hsound : pmm.Sound) (hspace : InSpace pmm.segments) : Able vm pmm n :=
  ⟨hsound, hspace, h.ready, h.fresh, h.free⟩

theorem Workable.vmapExpect_size {m size : ℕ} (h : Workable (m + 3 * pageCount size) vm F)
    (hsize : size ≠ 0) (hpage : ¬ InArea page) (halign : alignUp size pageSize < 2 ^ 64)
    (hrange : RangeExists page frame (pageCount size))
    (hflags : flags.contains .HUGE_PAGE = false) :
    Ensures M (vmapExpect panic vm page frame size flags) F (Workable m) where
  safe := vmapExpect_safe_size h.ready h.fresh (h.free.mono (Nat.le_add_left _ _)) hsize
    hpage halign
    hrange hflags
  post _ _ hret := ⟨vmapExpect_ready h.ready h.fresh hret,
    (map_evolves h.ready.inv h.fresh (returns_vmapExpect.mp hret)).1.fresh h.fresh,
    h.free.returns (vmapExpect_atMost_size _ _ _ _ _ _) hret⟩

theorem Workable.vmapExpect {m : ℕ} (h : Workable (m + 3) vm F) (hpage : ¬ InArea page)
    (hflags : flags.contains .HUGE_PAGE = false) :
    Ensures M (vmapExpect panic vm page frame pageSize flags) F (Workable m) :=
  Workable.vmapExpect_size h (by decide) hpage (by decide) (rangeExists_one page frame) hflags

theorem Workable.vmapMany {m : ℕ} {frames : List PhysFrame}
    (h : Workable (m + 3 * frames.length) vm F) (hpages : PagesExist page 0 frames.length)
    (hflags : flags.contains .HUGE_PAGE = false) :
    Ensures M (vmapMany vm page frames flags) F (Workable m) where
  safe := vmapMany_safe h.ready h.fresh (h.free.mono (Nat.le_add_left _ _)) hpages hflags
  post _ _ hret := ⟨vmapMany_ready h.ready h.fresh hret,
    (vmapMany_evolves h.ready.inv h.fresh hret).1.fresh h.fresh,
    h.free.returns (vmapMany_atMost _ _ _ _) hret⟩

/-- A fresh address space next to a fresh allocator. -/
theorem able_fresh : Able freshVm freshPmm 4095 where
  sound := freshPmm_sound
  inSpace := freshPmm_inSpace
  ready := freshVm_ready
  fresh := Set.disjoint_left.mpr fun f hf hmem => by
    have := freshVm_tables hmem
    have := num_of_mem_freshPmm_free hf
    omega
  free := freshPmm_hasFree

/-- A fresh address space next to an allocator of any size. -/
theorem able_pages {n : ℕ} (hn : n < 2 ^ 39) (hmod : n % 64 ≠ 0) : Able freshVm (pagesPmm n) n where
  sound := pagesPmm_sound (by omega)
  inSpace := pagesPmm_inSpace hn
  ready := freshVm_ready
  fresh := Set.disjoint_left.mpr fun f hf hmem => by
    have := freshVm_tables hmem
    have := num_of_mem_pagesPmm_free hf
    omega
  free := pagesPmm_hasFree hn hmod

end Progress

end HeliumOS.Mem
