import HeliumOS.Mem.Alloc
import HeliumOS.Mem.Virt.Changes

/-!
# Runs of the Memory Subsystem

The physical allocator and the mapper, called in any order: `palloc` and `pfree` by the rest of
the kernel, and `KernelMapper::map`, which takes its tables from the same allocator.

- `Machine.Sane` is the invariant of such runs.  It couples the two parts: no table is free, and
  no frame in the hands of a caller is a table.
- `tables_stay_tree`: the tables remain a tree of frames that the allocator does not hand out
  again.
-/

namespace HeliumOS.Mem

open HeliumOS.Lib HeliumOS.Lib.AllocProg HeliumOS.Lib.Radix HeliumOS.Mem.Virt

/-! ## Calls -/

/-- Virtual memory, the physical allocator and the frames that callers of `palloc` were given and
have not freed. -/
structure Machine where
  vm : Vm
  pmm : PhysicalFrameAllocator
  owned : List PhysFrame

/-- The calls, with their arguments. -/
inductive MemCall where
  | palloc
  | pfree (frame : PhysFrame)
  | map (page : Page) (phys : PhysFrame) (size : ℕ) (flags : PageTableFlags)

/-- One call that does not panic.  A frame is freed by the caller that it was given to, once. -/
inductive Machine.Step : Machine → MemCall → Machine → Prop where
  | palloc {m : Machine} {frame : PhysFrame} {pmm' : PhysicalFrameAllocator} :
      m.pmm.allocateFrame = .ok (some frame, pmm') → Step m .palloc ⟨m.vm, pmm', frame :: m.owned⟩
  | refused {m : Machine} {pmm' : PhysicalFrameAllocator} :
      m.pmm.allocateFrame = .ok (none, pmm') → Step m .palloc ⟨m.vm, pmm', m.owned⟩
  | pfree {m : Machine} {frame : PhysFrame} {pmm' : PhysicalFrameAllocator} :
      frame ∈ m.owned → m.pmm.deallocateFrame frame = .ok pmm' →
      Step m (.pfree frame) ⟨m.vm, pmm', m.owned.erase frame⟩
  | map {m : Machine} {page : Page} {phys : PhysFrame} {size : ℕ} {flags : PageTableFlags}
      {r : Except KernelMapError Unit} {vm' : Vm} {pmm' : PhysicalFrameAllocator} :
      (KernelMapper.map m.vm page phys size flags).run PhysicalFrameAllocator.pool m.pmm =
        .ok ((r, vm'), pmm') →
      Step m (.map page phys size flags) ⟨vm', pmm', m.owned⟩

/-! ## Invariant -/

/-- The invariant of the memory subsystem. -/
structure Machine.Sane (m : Machine) : Prop where
  inv : m.vm.Inv
  sound : m.pmm.Sound
  fresh : Disjoint m.pmm.free m.vm.tables
  nodup : m.owned.Nodup
  taken : ∀ f ∈ m.owned, f ∈ m.pmm.managed ∧ f ∉ m.pmm.free
  apart : ∀ f ∈ m.owned, f ∉ m.vm.tables

section Runs

variable {m m' : Machine} {call : MemCall}

/-- Before the first call nobody owns a frame. -/
theorem Machine.Sane.start {vm : Vm} {pmm : PhysicalFrameAllocator} (hinv : vm.Inv)
    (hsound : pmm.Sound) (hfresh : Disjoint pmm.free vm.tables) : Machine.Sane ⟨vm, pmm, []⟩ where
  inv := hinv
  sound := hsound
  fresh := hfresh
  nodup := List.nodup_nil
  taken _ hf := absurd hf List.not_mem_nil
  apart _ hf := absurd hf List.not_mem_nil

/-- What a call of the mapper does to the machine. -/
theorem Machine.Sane.map_returns {page : Page} {phys : PhysFrame} {size : ℕ}
    {flags : PageTableFlags} {r : Except KernelMapError Unit} {vm' : Vm}
    {pmm' : PhysicalFrameAllocator} (h : m.Sane)
    (hrun : (KernelMapper.map m.vm page phys size flags).run PhysicalFrameAllocator.pool m.pmm =
      .ok ((r, vm'), pmm')) :
    Returns m.pmm.managed (KernelMapper.map m.vm page phys size flags) m.pmm.free (r, vm')
      pmm'.free ∧ pmm'.Sound ∧ pmm'.managed = m.pmm.managed ∧
      Evolves m.vm vm' m.pmm.free pmm'.free (visited page 0 (pageCount size)) := by
  obtain ⟨hret, hsound, hmanaged⟩ := run_returns PhysicalFrameAllocator.freeSet h.sound hrun
  refine ⟨hret, hsound, hmanaged, ?_⟩
  rcases map_cases hret with ⟨-, -, rfl, hfree⟩ | ⟨rfl, -⟩
  · rw [show pmm'.free = m.pmm.free from hfree]
    exact .refl h.inv _
  · exact (map_evolves h.inv h.fresh hret).1

/-- Changing virtual memory with frames of the allocator keeps the invariant. -/
theorem Machine.Sane.evolves {vm' : Vm} {pmm' : PhysicalFrameAllocator} {P : Set Page} (h : m.Sane)
    (hsound : pmm'.Sound) (hmanaged : pmm'.managed = m.pmm.managed)
    (hev : Evolves m.vm vm' m.pmm.free pmm'.free P) : Machine.Sane ⟨vm', pmm', m.owned⟩ where
  inv := hev.inv
  sound := hsound
  fresh := hev.fresh h.fresh
  nodup := h.nodup
  taken f hf := ⟨hmanaged ▸ (h.taken f hf).1, fun hfree => (h.taken f hf).2 (hev.free hfree)⟩
  apart f hf htable := by
    rcases hev.tables htable with hold | ⟨hnew, -⟩
    · exact h.apart f hf hold
    · exact (h.taken f hf).2 hnew

/-- A frame that the allocator hands out is in nobody else's hands, and it is no table. -/
theorem Machine.Sane.palloc {frame : PhysFrame} {pmm' : PhysicalFrameAllocator} (h : m.Sane)
    (halloc : m.pmm.allocateFrame = .ok (some frame, pmm')) :
    Machine.Sane ⟨m.vm, pmm', frame :: m.owned⟩ := by
  obtain ⟨hfree, hsound, hfree', hmanaged⟩ :=
    PhysicalFrameAllocator.allocateFrame_some h.sound halloc
  have hmanagedFrame : frame ∈ m.pmm.managed := freeIn_subset_heldIn _ hfree
  constructor
  · exact h.inv
  · exact hsound
  · exact h.fresh.mono_left (hfree' ▸ Set.sdiff_subset)
  · exact List.nodup_cons.mpr ⟨fun hmem => (h.taken frame hmem).2 hfree, h.nodup⟩
  · intro f hf
    simp only [hfree', hmanaged, Set.mem_sdiff, Set.mem_singleton_iff, not_and_not_right]
    rcases List.mem_cons.mp hf with rfl | hf
    · exact ⟨hmanagedFrame, fun _ => rfl⟩
    · exact ⟨(h.taken f hf).1, fun hin => absurd hin (h.taken f hf).2⟩
  · intro f hf
    rcases List.mem_cons.mp hf with rfl | hf
    · exact Set.disjoint_left.mp h.fresh hfree
    · exact h.apart f hf

/-- A frame that its owner gives back becomes free; as the owner's, it was no table. -/
theorem Machine.Sane.pfree {frame : PhysFrame} {pmm' : PhysicalFrameAllocator} (h : m.Sane)
    (hmem : frame ∈ m.owned) (hfreeing : m.pmm.deallocateFrame frame = .ok pmm') :
    Machine.Sane ⟨m.vm, pmm', m.owned.erase frame⟩ := by
  obtain ⟨hsound, hfree', hmanaged⟩ := PhysicalFrameAllocator.deallocateFrame_ok h.sound hfreeing
  constructor
  · exact h.inv
  · exact hsound
  · rw [hfree', Set.disjoint_union_left]
    refine ⟨h.fresh, Set.disjoint_left.mpr ?_⟩
    rintro f ⟨rfl, -⟩
    exact h.apart f hmem
  · exact h.nodup.erase frame
  · intro f hf
    obtain ⟨hne, hf⟩ := (h.nodup.mem_erase_iff).mp hf
    rw [hmanaged, hfree', Set.mem_union, not_or]
    exact ⟨(h.taken f hf).1, (h.taken f hf).2, fun hin => hne hin.1⟩
  · exact fun f hf => h.apart f (List.mem_of_mem_erase hf)

/-- Every call keeps the invariant. -/
theorem Machine.Step.sane (hstep : Machine.Step m call m') (h : m.Sane) : m'.Sane := by
  cases hstep with
  | palloc halloc => exact h.palloc halloc
  | refused halloc =>
    obtain ⟨-, rfl⟩ := PhysicalFrameAllocator.allocateFrame_none h.sound halloc
    exact h
  | pfree hmem hfreeing => exact h.pfree hmem hfreeing
  | map hrun =>
    obtain ⟨-, hsound, hmanaged, hev⟩ := h.map_returns hrun
    exact h.evolves hsound hmanaged hev

end Runs

/-! ## Tables -/

/-- Entry `e.2` of the table `e.1`, which is above the leaves, leads to the table `f`. -/
def Virt.Vm.Links (vm : Vm) (e : PhysFrame × Fin 512) (f : PhysFrame) : Prop :=
  (∃ p : List (Fin 512), p.length < 3 ∧ vm.walk p = some e.1) ∧ (vm.mem e.1 e.2).frame = some f

/-- The bitmap of the allocator says that the frame is allocated. -/
def PhysicalFrameAllocator.Marked (pmm : PhysicalFrameAllocator) (f : PhysFrame) : Prop :=
  ∃ s ∈ pmm.segments, s.Holds f ∧ Bitmap.bit s.bitmap (s.index f) = true

/-- The tables of `vm` form a tree of frames that are not handed out again, where `start` is an
earlier state of virtual memory. -/
structure OwnedTree (start : Vm) (vm : Vm) (pmm : PhysicalFrameAllocator) : Prop where
  /-- Every table but the root is referenced by exactly one entry. -/
  parent : ∀ f ∈ vm.tables, f ≠ vm.cr3 → ∃! e, vm.Links e f
  /-- The root is not referenced. -/
  root : ∀ e, ¬ vm.Links e vm.cr3
  /-- A table is used at one level only. -/
  level : ∀ (p q : List (Fin 512)) (f : PhysFrame), p.length ≤ 3 → q.length ≤ 3 →
    vm.walk p = some f → vm.walk q = some f → p.length = q.length
  /-- Tables that were created since are marked as allocated. -/
  created : ∀ f ∈ vm.tables, f ∉ start.tables → pmm.Marked f
  /-- `palloc` does not return a table. -/
  palloc : ∀ f pmm', pmm.allocateFrame = .ok (some f, pmm') → f ∉ vm.tables

section Tree

variable {vm : Vm} {f : PhysFrame}

private theorem length_snoc_le {p : List (Fin 512)} {i : Fin 512} (hp : p.length < 3) :
    (p ++ [i]).length ≤ 3 := by
  rw [List.length_append, List.length_singleton]
  exact hp

theorem Virt.Vm.links_iff {e : PhysFrame × Fin 512} :
    vm.Links e f ↔ ∃ p : List (Fin 512), p.length < 3 ∧ vm.walk p = some e.1 ∧
      vm.walk (p ++ [e.2]) = some f := by
  constructor
  · rintro ⟨⟨p, hp, hwalk⟩, hframe⟩
    exact ⟨p, hp, hwalk, walk_snoc_eq_some.mpr ⟨e.1, hwalk, hframe⟩⟩
  · rintro ⟨p, hp, hwalk, hsnoc⟩
    obtain ⟨t, ht, hframe⟩ := walk_snoc_eq_some.mp hsnoc
    obtain rfl : e.1 = t := Option.some.inj (hwalk.symm.trans ht)
    exact ⟨⟨p, hp, hwalk⟩, hframe⟩

/-- In a tree every table but the root has one parent entry. -/
theorem Virt.Vm.Inv.existsUnique_links (hinv : vm.Inv) (hf : f ∈ vm.tables) (hne : f ≠ vm.cr3) :
    ∃! e, vm.Links e f := by
  obtain ⟨p, hp, hwalk⟩ := hf
  rcases List.eq_nil_or_concat p with rfl | ⟨q, i, rfl⟩
  · exact absurd (Option.some.inj hwalk).symm hne
  · rw [List.concat_eq_append] at hp hwalk
    have hq : q.length < 3 := by
      rw [List.length_append, List.length_singleton] at hp
      omega
    obtain ⟨t, ht, hframe⟩ := walk_snoc_eq_some.mp hwalk
    refine ⟨(t, i), ⟨⟨q, hq, ht⟩, hframe⟩, fun e he => ?_⟩
    obtain ⟨q', hq', ht', hwalk'⟩ := Vm.links_iff.mp he
    -- both entries end paths to the same table
    have hpath := hinv.tree _ _ f (length_snoc_le hq') hp hwalk' hwalk
    obtain ⟨rfl, hi⟩ := List.append_inj' hpath rfl
    exact Prod.ext (Option.some.inj (ht'.symm.trans ht)) (by simpa using hi)

theorem Virt.Vm.Inv.not_links_root (hinv : vm.Inv) (e : PhysFrame × Fin 512) :
    ¬ vm.Links e vm.cr3 := by
  intro he
  obtain ⟨q, hq, -, hwalk⟩ := Vm.links_iff.mp he
  have hpath := hinv.tree _ [] vm.cr3 (length_snoc_le hq) (by simp) hwalk rfl
  simp at hpath

theorem PhysicalFrameAllocator.marked_of_notMem_free {pmm : PhysicalFrameAllocator}
    (hmanaged : f ∈ pmm.managed) (hfree : f ∉ pmm.free) : pmm.Marked f := by
  obtain ⟨s, hs, hholds⟩ := hmanaged
  refine ⟨s, hs, hholds, ?_⟩
  by_contra hbit
  exact hfree ⟨s, hs, hholds, by simpa using hbit⟩

theorem PhysicalFrameAllocator.marked_iff {pmm : PhysicalFrameAllocator} (hsound : pmm.Sound) :
    pmm.Marked f ↔ f ∈ pmm.managed ∧ f ∉ pmm.free := by
  constructor
  · rintro ⟨s, hs, hholds, hbit⟩
    refine ⟨⟨s, hs, hholds⟩, ?_⟩
    rintro ⟨t, ht, hholds', hclear⟩
    obtain rfl := SegmentsSound.eq_of_holds hsound hs ht hholds hholds'
    simp [hbit] at hclear
  · rintro ⟨hmanaged, hfree⟩
    exact marked_of_notMem_free hmanaged hfree

end Tree

/-- The tables that there are now were there at the start or come from the allocator. -/
def Machine.Grown (start : Vm) (m : Machine) : Prop :=
  m.vm.tables ⊆ start.tables ∪ m.pmm.managed

theorem Machine.Sane.ownedTree {start : Vm} {m : Machine} (h : m.Sane) (hgrown : m.Grown start) :
    OwnedTree start m.vm m.pmm where
  parent _ hf hne := h.inv.existsUnique_links hf hne
  root := h.inv.not_links_root
  level p q f hp hq hwalk hwalk' := by rw [h.inv.tree p q f hp hq hwalk hwalk']
  created f hf hnew :=
    PhysicalFrameAllocator.marked_of_notMem_free ((hgrown hf).resolve_left hnew) fun hfree =>
      Set.disjoint_left.mp h.fresh hfree hf
  palloc f pmm' halloc :=
    Set.disjoint_left.mp h.fresh (PhysicalFrameAllocator.allocateFrame_some h.sound halloc).1

theorem Machine.Grown.evolves {start vm' : Vm} {m : Machine} {pmm' : PhysicalFrameAllocator}
    {P : Set Page} (hgrown : m.Grown start) (hmanaged : pmm'.managed = m.pmm.managed)
    (hev : Evolves m.vm vm' m.pmm.free pmm'.free P) : Machine.Grown start ⟨vm', pmm', m.owned⟩ := by
  intro f hf
  rw [hmanaged]
  rcases hev.tables hf with hold | ⟨hnew, -⟩
  · exact hgrown hold
  · exact .inr (freeIn_subset_heldIn _ hnew)

theorem Machine.Step.grown {start : Vm} {m m' : Machine} {call : MemCall}
    (hstep : Machine.Step m call m') (h : m.Sane) (hgrown : m.Grown start) : m'.Grown start := by
  cases hstep with
  | palloc halloc =>
    obtain ⟨-, -, -, hmanaged⟩ := PhysicalFrameAllocator.allocateFrame_some h.sound halloc
    exact fun f hf => hmanaged ▸ hgrown hf
  | refused halloc =>
    obtain ⟨-, rfl⟩ := PhysicalFrameAllocator.allocateFrame_none h.sound halloc
    exact hgrown
  | pfree hmem hfreeing =>
    obtain ⟨-, -, hmanaged⟩ := PhysicalFrameAllocator.deallocateFrame_ok h.sound hfreeing
    exact fun f hf => hmanaged ▸ hgrown hf
  | map hrun =>
    obtain ⟨-, -, hmanaged, hev⟩ := h.map_returns hrun
    exact hgrown.evolves hmanaged hev

/-- The first iterations of the loop of a call, of which more may be to come. -/
theorem Machine.Sane.loop_evolves {m : Machine} {page : Page} {phys : PhysFrame} {n : ℕ}
    {flags : PageTableFlags} {s₀ s₁ : Window} {vc : VCache} {vm' : Vm}
    {pmm' : PhysicalFrameAllocator} (h : m.Sane) (hpage : ¬ InArea page)
    (hmany : m.vm.vcache.mapMany [nullFrame, nullFrame] [] = .ok (some [s₀.page, s₁.page], vc))
    (hrun : (mapPages page phys s₀.page s₁.page n 0 flags (m.vm.withVCache vc)).run
      PhysicalFrameAllocator.pool m.pmm = .ok (vm', pmm')) :
    pmm'.Sound ∧ pmm'.managed = m.pmm.managed ∧
      Evolves m.vm vm' m.pmm.free pmm'.free (visited page 0 n) := by
  obtain ⟨hret, hsound, hmanaged⟩ := run_returns PhysicalFrameAllocator.freeSet h.sound hrun
  obtain ⟨hev, htmp⟩ := mapMany_temporaries (F := m.pmm.free) h.inv hmany
  obtain ⟨hev', -⟩ :=
    mapPages_evolves hev.inv (hev.fresh h.fresh) htmp (not_inArea_add_zero hpage) hret
  exact ⟨hsound, hmanaged, (hev.trans hev').mono (by simp)⟩

/-- **Page tables stay a tree of owned frames.** This holds after any calls of `palloc`, `pfree` and
`map`, and also inside a further call of `map`, after any number of its iterations. At the start the
tables that lie in a segment have to be marked as allocated. -/
theorem tables_stay_tree {vm : Vm} {pmm : PhysicalFrameAllocator} {m : Machine}
    {calls : List MemCall} (hinv : vm.Inv) (hsound : pmm.Sound)
    (halloc : ∀ f ∈ vm.tables, ∀ s ∈ pmm.segments, s.Holds f →
      Bitmap.bit s.bitmap (s.index f) = true)
    (hrun : Run Machine.Step ⟨vm, pmm, []⟩ calls m) :
    OwnedTree vm m.vm m.pmm ∧
      ∀ page phys n flags (s₀ s₁ : Window) vc vm' pmm', ¬ InArea page →
        m.vm.vcache.mapMany [nullFrame, nullFrame] [] = .ok (some [s₀.page, s₁.page], vc) →
        (mapPages page phys s₀.page s₁.page n 0 flags (m.vm.withVCache vc)).run
          PhysicalFrameAllocator.pool m.pmm = .ok (vm', pmm') →
        OwnedTree vm vm' pmm' := by
  -- a table is marked as allocated wherever a segment holds it, so that it is not free
  have hfresh : Disjoint pmm.free vm.tables := by
    rw [Set.disjoint_left]
    rintro f ⟨s, hs, hholds, hbit⟩ hf
    rw [halloc f hf s hs hholds] at hbit
    cases hbit
  obtain ⟨hsane, hgrown⟩ := hrun.preserves (I := fun m => m.Sane ∧ m.Grown vm)
    ⟨.start hinv hsound hfresh, Set.subset_union_left⟩
    fun _ _ _ h hstep => ⟨hstep.sane h.1, hstep.grown h.1 h.2⟩
  refine ⟨hsane.ownedTree hgrown, fun page phys n flags s₀ s₁ vc vm' pmm' hpage hmany hloop => ?_⟩
  obtain ⟨hsound', hmanaged, hev⟩ := hsane.loop_evolves hpage hmany hloop
  exact (hsane.evolves hsound' hmanaged hev).ownedTree (hgrown.evolves hmanaged hev)

/-- A machine that is able to map a range does so. -/
theorem Able.map {vm : Vm} {pmm : PhysicalFrameAllocator} {k : ℕ} {page : Page} {phys : PhysFrame}
    {size : ℕ} {flags : PageTableFlags} (h : Able vm pmm (k + 3 * pageCount size))
    (hsize : size ≠ 0) (hpage : ¬ InArea page) (halign : alignUp size pageSize < 2 ^ 64)
    (hrange : RangeExists page phys (pageCount size))
    (hflags : flags.contains .HUGE_PAGE = false) :
    ∃ vm' pmm', (KernelMapper.map vm page phys size flags).run PhysicalFrameAllocator.pool pmm =
      .ok ((.ok (), vm'), pmm') ∧ Able vm' pmm' k := by
  have hsafe := map_safe (M := PhysicalFrameAllocator.freeSet.managed pmm) h.ready h.fresh
    (h.free.mono (Nat.le_add_left _ _)) hpage halign hrange hflags
  obtain ⟨⟨r, vm'⟩, pmm', hrun, hspace⟩ :=
    run_safe PhysicalFrameAllocator.live h.sound h.inSpace hsafe
  obtain ⟨hret, hsound, -⟩ := run_returns PhysicalFrameAllocator.freeSet h.sound hrun
  obtain rfl := map_ok h.ready hsize hpage hret
  have hev := (map_evolves h.ready.inv h.fresh hret).1
  exact ⟨vm', pmm', hrun, hsound, hspace, map_ready h.ready h.fresh hret, hev.fresh h.fresh,
    h.free.returns (map_atMost vm page phys size flags) hret⟩

/-- A first call of `map` after a fresh start. -/
theorem exists_fresh_call (flags : PageTableFlags) (hflags : flags.contains .HUGE_PAGE = false) :
    ∃ m, Run Machine.Step ⟨freshVm, freshPmm, []⟩ [.map lowPage lowFrame 8000 flags] m := by
  have hable : Able freshVm freshPmm (4089 + 3 * pageCount 8000) := able_fresh
  obtain ⟨vm', pmm', hrun, -⟩ :=
    hable.map (by decide) (by decide) (by decide) lowRange_exists hflags
  exact ⟨_, .single (.map hrun)⟩

theorem tables_stay_tree_fresh :
    ∃ m, Run Machine.Step ⟨freshVm, freshPmm, []⟩ [.map lowPage lowFrame 8000 .WRITABLE] m ∧
      OwnedTree freshVm m.vm m.pmm := by
  obtain ⟨m, hrun⟩ := exists_fresh_call .WRITABLE (by decide)
  refine ⟨m, hrun, (tables_stay_tree able_fresh.ready.inv able_fresh.sound ?_ hrun).1⟩
  intro f hf s hs hholds
  by_contra hbit
  exact Set.disjoint_left.mp able_fresh.fresh ⟨s, hs, hholds, by simpa using hbit⟩ hf

end HeliumOS.Mem
